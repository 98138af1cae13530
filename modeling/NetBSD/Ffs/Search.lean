import NetBSD.Ffs.Map

/-!
# Searching the map

What the tables say of a byte or a block, by going through all of them; the search for a span of free fragments, and
the count of the spans of a block.
-/

namespace NetBSD.Ffs

open Lib (Bitmap IsSpan spans)

namespace Fs

def fits (blk k pos : Nat) : Bool := Nat.beq ((blk <<< 1) &&& (around.getD k 0 <<< pos)) (inside.getD k 0 <<< pos)

theorem testBit_around : ∀ k ≤ 8, ∀ j, (around.getD k 0).testBit j = decide (j < k + 2) := by
  have hpow : ∀ k ≤ 8, around.getD k 0 = 2 ^ (k + 2) - 1 := by decide
  intro k hk j
  rw [hpow k hk, Nat.testBit_two_pow_sub_one]

theorem testBit_inside : ∀ k ≤ 8, ∀ j, (inside.getD k 0).testBit j = decide (1 ≤ j ∧ j ≤ k) := by
  have hpow : ∀ k ≤ 8, inside.getD k 0 = (2 ^ k - 1) <<< 1 := by decide
  intro k hk j
  rw [hpow k hk, Nat.testBit_shiftLeft, Nat.testBit_two_pow_sub_one, ← Bool.decide_and]
  congr 1
  apply propext
  omega

theorem fits_iff {f blk k pos : Nat} (hblk : blk < 2 ^ f) (hk : 0 < k) (hk8 : k ≤ 8) (hpos : pos + k ≤ f) :
    fits blk k pos = true ↔ IsSpan blk.testBit 0 f pos k := by
  have hout : ∀ j, f ≤ j → blk.testBit j = false := fun j hj =>
    Nat.testBit_lt_two_pow (hblk.trans_le (Nat.pow_le_pow_right (by decide) hj))
  rw [fits, Nat.beq_eq]
  constructor
  · intro heq
    have hbit : ∀ j, pos ≤ j → j < pos + k + 2 →
        (decide (1 ≤ j) && blk.testBit (j - 1)) = decide (1 ≤ j - pos ∧ j - pos ≤ k) := by
      intro j hle hlt
      have hj := congrArg (fun n => n.testBit j) heq
      simp only [Nat.testBit_and, Nat.testBit_shiftLeft, testBit_around k hk8, testBit_inside k hk8] at hj
      rw [decide_eq_true (show j ≥ pos from hle), decide_eq_true (show j - pos < k + 2 by omega)] at hj
      simpa using hj
    refine ⟨Nat.zero_le _, hpos, fun d hd => ?_, ?_, ?_⟩
    · have hone := hbit (pos + d + 1) (by omega) (by omega)
      rw [decide_eq_true (by omega), decide_eq_true (by omega), Bool.true_and] at hone
      exact hone
    · rcases Nat.eq_zero_or_pos pos with hz | hp
      · exact Or.inl hz
      · have hone := hbit pos (Nat.le_refl _) (by omega)
        rw [decide_eq_true (show 1 ≤ pos from hp), decide_eq_false (by omega), Bool.true_and] at hone
        exact Or.inr hone
    · have hone := hbit (pos + k + 1) (by omega) (by omega)
      rw [decide_eq_true (by omega), decide_eq_false (by omega), Bool.true_and] at hone
      exact Or.inr hone
  · rintro ⟨-, -, hset, hleft, hright⟩
    apply Nat.eq_of_testBit_eq
    intro j
    simp only [Nat.testBit_and, Nat.testBit_shiftLeft, testBit_around k hk8, testBit_inside k hk8]
    by_cases hle : pos ≤ j
    · rw [decide_eq_true (show j ≥ pos from hle), Bool.true_and, Bool.true_and]
      rcases Nat.lt_trichotomy j (pos + k + 1) with hlt | heq | hgt
      · by_cases hjp : j = pos
        · have hfirst : (decide (j ≥ 1) && blk.testBit (j - 1)) = false := by
            rcases hleft with hz | hz
            · rw [decide_eq_false (show ¬j ≥ 1 by omega), Bool.false_and]
            · rw [hjp, hz, Bool.and_false]
          rw [hfirst, Bool.false_and, decide_eq_false (show ¬(1 ≤ j - pos ∧ j - pos ≤ k) by omega)]
        · have hone := hset (j - 1 - pos) (by omega)
          rw [show pos + (j - 1 - pos) = j - 1 by omega] at hone
          rw [hone, decide_eq_true (show j ≥ 1 by omega), decide_eq_true (show j - pos < k + 2 by omega),
            decide_eq_true (show 1 ≤ j - pos ∧ j - pos ≤ k by omega)]
          rfl
      · have hlast : blk.testBit (j - 1) = false := by
          rw [heq, Nat.add_sub_cancel]
          rcases hright with he | he
          · exact hout _ (by omega)
          · exact he
        rw [hlast, Bool.and_false, Bool.false_and, decide_eq_false (by omega)]
      · rw [decide_eq_false (show ¬j - pos < k + 2 by omega), Bool.and_false, decide_eq_false (by omega)]
    · rw [decide_eq_false (show ¬j ≥ pos from hle), Bool.false_and, Bool.false_and, Bool.and_false]

def entryOk (f : Nat) (t : BitVec 8) (n : Nat) : Bool :=
  (List.range' 1 f).all fun k =>
    (Nat.beq (t.toNat &&& (1 <<< (k - 1 + f % 8))) 0 ==
      !(List.range (8 / f)).any fun i => (List.range (f - k + 1)).any fun pos => fits (n >>> (i * f) % 2 ^ f) k pos) &&
    (Nat.ble (2 ^ f) n ||
      Nat.beq (acctLoop f (n <<< 1) k (f + 1) k (around.getD k 0) (inside.getD k 0))
        ((List.range (f - k + 1)).countP fun pos => fits n k pos))

theorem entries_ok : ([8, 4, 2, 1].all fun f =>
    (if f = 8 then fragtbl8 else fragtbl124).zipIdx.all fun p => entryOk f p.1 p.2) = true := by
  decide +kernel

theorem entry_ok {f : Nat} (hf : f ∈ [8, 4, 2, 1]) (x : BitVec 8) : entryOk f (fragtbl f x) x.toNat = true := by
  have htable := List.all_eq_true.mp entries_ok f hf
  have hlen : (if f = 8 then fragtbl8 else fragtbl124).length = 256 := by
    rw [apply_ite List.length, show fragtbl8.length = 256 by decide +kernel,
      show fragtbl124.length = 256 by decide +kernel, ite_self]
  have hlt : x.toNat < (if f = 8 then fragtbl8 else fragtbl124).length := by
    rw [hlen]
    exact x.isLt
  have hmem : (fragtbl f x, x.toNat) ∈ (if f = 8 then fragtbl8 else fragtbl124).zipIdx := by
    rw [List.mk_mem_zipIdx_iff_getElem?, List.getElem?_eq_getElem hlt, fragtbl, List.getD_eq_getElem?_getD,
      List.getElem?_eq_getElem hlt, Option.getD_some]
  exact List.all_eq_true.mp htable _ hmem

theorem table_zero {f k : Nat} (hf : f ∈ [8, 4, 2, 1]) (hk : 0 < k) (hkf : k ≤ f) (x : BitVec 8) :
    (fragtbl f x).toNat &&& (1 <<< (k - 1 + f % 8)) = 0 ↔
      ∀ i < 8 / f, ∀ pos < f - k + 1, fits (x.toNat >>> (i * f) % 2 ^ f) k pos = false := by
  have hentry := List.all_eq_true.mp (entry_ok hf x) k (List.mem_range'_1.mpr ⟨hk, by omega⟩)
  obtain ⟨hbit, -⟩ := Bool.and_eq_true_iff.mp hentry
  rw [beq_iff_eq] at hbit
  rw [← Nat.beq_eq, hbit, Bool.not_eq_true']
  simp only [List.any_eq_false, List.mem_range, Bool.not_eq_true]

theorem acctLoop_eq {f k : Nat} (hf : f ∈ [8, 4, 2, 1]) (hk : 0 < k) (hkf : k ≤ f) {x : BitVec 8} (hx : x.toNat < 2 ^ f) :
    acctLoop f (x.toNat <<< 1) k (f + 1) k (around.getD k 0) (inside.getD k 0) =
      (List.range (f - k + 1)).countP fun pos => fits x.toNat k pos := by
  have hentry := List.all_eq_true.mp (entry_ok hf x) k (List.mem_range'_1.mpr ⟨hk, by omega⟩)
  obtain ⟨-, hcount⟩ := Bool.and_eq_true_iff.mp hentry
  have hge : Nat.ble (2 ^ f) x.toNat = false := by
    rw [← Bool.not_eq_true, Nat.ble_eq]
    exact Nat.not_le.mpr hx
  rw [hge, Bool.false_or, Nat.beq_eq] at hcount
  exact hcount

theorem countP_fits {f k n : Nat} (hn : n < 2 ^ f) (hk : 0 < k) (hkf : k ≤ f) (hf8 : f ≤ 8) :
    ((List.range (f - k + 1)).countP fun pos => fits n k pos) = spans n.testBit 0 f k := by
  have hfilter : (Finset.Ico 0 f).filter (fun i => IsSpan n.testBit 0 f i k) =
      (Finset.range (f - k + 1)).filter fun i => fits n k i = true := by
    ext i
    rw [Finset.mem_filter, Finset.mem_filter, Finset.mem_Ico, Finset.mem_range]
    constructor
    · rintro ⟨-, hspan⟩
      have hend := hspan.2.1
      exact ⟨by omega, (fits_iff hn hk (by omega) hend).mpr hspan⟩
    · rintro ⟨hi, hfits⟩
      exact ⟨⟨by omega, by omega⟩, (fits_iff hn hk (by omega) (by omega)).mp hfits⟩
  rw [spans, hfilter, List.countP_eq_length_filter]
  show _ = ((List.range (f - k + 1)).filter fun i => decide (fits n k i = true)).length
  simp only [Bool.decide_eq_true]

variable (fs : Fs) {m : Bitmap} {b i j k pos : Nat}

theorem frag_mem : fs.frag ∈ [8, 4, 2, 1] := by simpa using fs.frag_eq

theorem isSpan_blkmap : IsSpan (fs.blkmap m (b * fs.frag)).toNat.testBit 0 fs.frag pos k ↔
    IsSpan m.isset (b * fs.frag) (b * fs.frag + fs.frag) (b * fs.frag + pos) k := by
  rw [Lib.isSpan_add]
  constructor
  · exact fun h => h.congr fun j _ hj => (fs.isset_blkmap hj).symm
  · exact fun h => h.congr fun j _ hj => fs.isset_blkmap hj

theorem fragacct_eq (l : Nat → Int) (cnt : Int) (k : Nat) :
    fs.fragacct (fs.blkmap m (b * fs.frag)) l cnt k =
      if 0 < k ∧ k < fs.frag then l k + cnt * spans m.isset (b * fs.frag) (b * fs.frag + fs.frag) k else l k := by
  obtain ⟨x, hx⟩ : ∃ x, x = fs.blkmap m (b * fs.frag) := ⟨_, rfl⟩
  have hspans : ∀ k, spans m.isset (b * fs.frag) (b * fs.frag + fs.frag) k = spans x.toNat.testBit 0 fs.frag k := by
    intro k
    rw [Lib.spans_add]
    apply Lib.spans_congr
    intro j _ hj
    rw [hx]
    exact (fs.isset_blkmap hj).symm
  have hlt : x.toNat < 2 ^ fs.frag := hx ▸ fs.blkmap_lt
  have hone : ∀ siz, 0 < siz → siz < fs.frag → ∀ l : Nat → Int,
      (if (fragtbl fs.frag x).toNat <<< 1 &&& (1 <<< (siz + fs.frag % 8)) = 0 then l
        else Function.update l siz (l siz + cnt * acctLoop fs.frag (x.toNat <<< 1) siz (fs.frag + 1) siz
          (around.getD siz 0) (inside.getD siz 0))) =
        Function.update l siz (l siz + cnt * spans x.toNat.testBit 0 fs.frag siz) := by
    intro siz hpos hsiz l
    have hcount := (acctLoop_eq fs.frag_mem hpos hsiz.le hlt).trans (countP_fits hlt hpos hsiz.le fs.frag_le)
    have hshift : (fragtbl fs.frag x).toNat <<< 1 &&& (1 <<< (siz + fs.frag % 8)) =
        ((fragtbl fs.frag x).toNat &&& (1 <<< (siz - 1 + fs.frag % 8))) <<< 1 := by
      rw [Nat.shiftLeft_and_distrib, ← Nat.shiftLeft_add]
      congr 2
      omega
    split
    case isTrue hzero =>
      -- The table announces none, so there are none to count.
      have hnone : spans x.toNat.testBit 0 fs.frag siz = 0 := by
        rw [hshift, Nat.shiftLeft_eq] at hzero
        have hbit := (table_zero fs.frag_mem hpos hsiz.le x).mp (by omega)
        rw [← countP_fits hlt hpos hsiz.le fs.frag_le, List.countP_eq_zero]
        intro pos hmem
        have hfirst := hbit 0 (Nat.div_pos fs.frag_le fs.frag_pos) pos (List.mem_range.mp hmem)
        rw [Nat.zero_mul, Nat.shiftRight_zero, Nat.mod_eq_of_lt hlt] at hfirst
        rw [hfirst]
        exact Bool.false_ne_true
      rw [hnone]
      have hsame : l siz + cnt * ((0 : Nat) : Int) = l siz := by omega
      rw [hsame, Function.update_eq_self]
    case isFalse hne => rw [hcount]
  have hfold : ∀ n, n + 1 ≤ fs.frag → ∀ k, ((List.range' 1 n).foldl (fun l siz =>
      if (fragtbl fs.frag x).toNat <<< 1 &&& (1 <<< (siz + fs.frag % 8)) = 0 then l
      else Function.update l siz (l siz + cnt * acctLoop fs.frag (x.toNat <<< 1) siz (fs.frag + 1) siz
        (around.getD siz 0) (inside.getD siz 0))) l) k =
      if 0 < k ∧ k < n + 1 then l k + cnt * spans x.toNat.testBit 0 fs.frag k else l k := by
    intro n hn
    induction n with
    | zero =>
      intro k
      rw [if_neg (by omega)]
      rfl
    | succ n ih =>
      intro k
      rw [List.range'_concat, List.foldl_concat, hone _ (by omega) (by omega)]
      by_cases hk : k = 1 + 1 * n
      · subst hk
        rw [Function.update_self, ih (by omega), if_neg (by omega), if_pos (by omega)]
      · rw [Function.update_of_ne hk, ih (by omega)]
        by_cases hkn : 0 < k ∧ k < n + 1
        · rw [if_pos hkn, if_pos (by omega)]
        · rw [if_neg hkn, if_neg (by omega)]
  have hpos := fs.frag_pos
  unfold fragacct
  rw [← hx]
  rw [hfold (fs.frag - 1) (by omega) k, Nat.sub_add_cancel hpos, ← hspans]

end Fs

section

variable (fs : Fs) {cgp : Cg} {m : Bitmap} {b i j k pos bno bpref : Nat}

theorem siftBlock_eq (fs : Fs) (blk : BitVec 8) (k : Nat) :
    siftBlock fs blk k = (List.range (fs.frag - k + 1)).find? fun pos => Fs.fits blk.toNat k pos := by
  rw [siftBlock]
  congr 1
  funext pos
  rw [Fs.fits, Bool.eq_iff_iff, decide_eq_true_eq, Nat.beq_eq]

theorem siftBlock_some (hk : 0 < k) (hle : k ≤ fs.frag) (h : siftBlock fs (fs.blkmap m (b * fs.frag)) k = some pos) :
    IsSpan m.isset (b * fs.frag) (b * fs.frag + fs.frag) (b * fs.frag + pos) k := by
  rw [siftBlock_eq] at h
  have hmem := List.mem_range.mp (List.mem_of_find?_eq_some h)
  have hfits := List.find?_some h
  have hfrag := fs.frag_le
  exact fs.isSpan_blkmap.mp ((Fs.fits_iff fs.blkmap_lt hk (by omega) (by omega)).mp hfits)

theorem byte_block (byte i : Nat) : byte * 8 + i * fs.frag = (byte * (8 / fs.frag) + i) * fs.frag := by
  have hdvd := Nat.div_mul_cancel fs.frag_dvd_eight
  rw [Nat.add_mul, Nat.mul_assoc, hdvd]

theorem blkmap_byte {byte : Nat} (hi : i < 8 / fs.frag) :
    (fs.blkmap m (byte * 8 + i * fs.frag)).toNat = (m byte).toNat >>> (i * fs.frag) % 2 ^ fs.frag := by
  have hlt : i * fs.frag < 8 := by
    rcases fs.frag_eq with hf | hf | hf | hf <;> rw [hf] at hi ⊢ <;> omega
  have hmask : (0xff#8 >>> (8 - fs.frag)).toNat = 2 ^ fs.frag - 1 := by
    rcases fs.frag_eq with hf | hf | hf | hf <;> rw [hf] <;> rfl
  have hbyte : (byte * 8 + i * fs.frag) / 8 = byte := by omega
  have hbit : (byte * 8 + i * fs.frag) % 8 = i * fs.frag := by omega
  rw [Fs.blkmap, hbyte, hbit, BitVec.toNat_and, BitVec.toNat_ushiftRight, hmask, Nat.and_two_pow_sub_one_eq_mod]

theorem sift_spec {byte : Nat} (hk : 0 < k) (hle : k ≤ fs.frag)
    (htable : (Fs.fragtbl fs.frag (m byte)).toNat &&& (1 <<< (k - 1 + fs.frag % 8)) ≠ 0) :
    ∃ bno b, sift fs m (byte * 8) k = some bno ∧ IsSpan m.isset (b * fs.frag) (b * fs.frag + fs.frag) bno k := by
  have hsome : (sift fs m (byte * 8) k).isSome := by
    by_contra hnone
    apply htable
    apply (Fs.table_zero fs.frag_mem hk hle (m byte)).mpr
    intro i hi pos hpos
    rw [← Bool.not_eq_true]
    intro hfits
    apply hnone
    rw [sift, List.findSome?_isSome_iff]
    refine ⟨i, List.mem_range.mpr hi, ?_⟩
    rw [Option.isSome_map, siftBlock_eq, List.find?_isSome, blkmap_byte fs hi]
    exact ⟨pos, List.mem_range.mpr hpos, hfits⟩
  obtain ⟨bno, hbno⟩ := Option.isSome_iff_exists.mp hsome
  obtain ⟨i', hi', hone⟩ := List.exists_of_findSome?_eq_some hbno
  obtain ⟨pos', hpos', rfl⟩ := Option.map_eq_some_iff.mp hone
  refine ⟨_, byte * (8 / fs.frag) + i', hbno, ?_⟩
  rw [byte_block] at hpos' ⊢
  exact siftBlock_some fs hk hle hpos'

theorem table_ne_zero (hk : 0 < k) (hle : k ≤ fs.frag)
    (hspan : IsSpan m.isset (b * fs.frag) (b * fs.frag + fs.frag) (b * fs.frag + pos) k) :
    (Fs.fragtbl fs.frag (m (b * fs.frag / 8))).toNat &&& (1 <<< (k - 1 + fs.frag % 8)) ≠ 0 := by
  intro hzero
  have hfrag := fs.frag_le
  have hblk := fs.isSpan_blkmap.mpr hspan
  have hend := hblk.2.1
  have hi : b * fs.frag % 8 / fs.frag < 8 / fs.frag := by
    rcases fs.frag_eq with hf | hf | hf | hf <;> rw [hf] <;> omega
  have hmul : b * fs.frag / 8 * 8 + b * fs.frag % 8 / fs.frag * fs.frag = b * fs.frag := by
    rcases fs.frag_eq with hf | hf | hf | hf <;> rw [hf] <;> omega
  have hnot := (Fs.table_zero fs.frag_mem hk hle _).mp hzero _ hi pos (by omega)
  rw [← blkmap_byte fs hi, hmul] at hnot
  rw [(Fs.fits_iff fs.blkmap_lt hk (by omega) (by omega)).mpr hblk] at hnot
  cases hnot

theorem table_and (hk : 0 < k) (hle : k ≤ fs.frag) (x : BitVec 8) :
    x &&& (1#8 <<< (k - 1 + fs.frag % 8)) = 0 ↔ x.toNat &&& (1 <<< (k - 1 + fs.frag % 8)) = 0 := by
  have hlt : k - 1 + fs.frag % 8 < 8 := by
    rcases fs.frag_eq with hf | hf | hf | hf <;> rw [hf] at hle ⊢ <;> omega
  have hone : ∀ c < 8, (1#8 <<< c).toNat = 1 <<< c := by decide
  rw [BitVec.toNat_eq, BitVec.toNat_and, hone _ hlt]
  rfl

theorem scanc_zero {table : BitVec 8 → BitVec 8} {mask : BitVec 8} {n : Nat} (h : Fs.scanc m table mask n i = 0) :
    ∀ j, i ≤ j → j < i + n → table (m j) &&& mask = 0 := by
  induction n generalizing i with
  | zero =>
    intro j hij hj
    omega
  | succ n ih =>
    intro j hij hj
    rw [Fs.scanc] at h
    split at h
    case isTrue hzero =>
      by_cases hji : j = i
      · rw [hji, hzero]
      · exact ih h j (by omega) (by omega)
    case isFalse => cases h

theorem scanc_ne_zero {table : BitVec 8 → BitVec 8} {mask : BitVec 8} {n : Nat} (h : Fs.scanc m table mask n i ≠ 0) :
    Fs.scanc m table mask n i ≤ n ∧ table (m (i + n - Fs.scanc m table mask n i)) &&& mask ≠ 0 := by
  induction n generalizing i with
  | zero => exact absurd rfl h
  | succ n ih =>
    rw [Fs.scanc] at h ⊢
    split
    case isTrue hzero =>
      rw [if_pos hzero] at h
      obtain ⟨hle, hne⟩ := ih h
      refine ⟨by omega, ?_⟩
      rwa [← Nat.add_right_comm, Nat.add_assoc] at hne
    case isFalse hne =>
      refine ⟨Nat.le_refl _, ?_⟩
      rwa [Nat.add_sub_cancel]

theorem mapsearch_spec (bpref : Nat) (hk : 0 < k) (hle : k ≤ fs.frag)
    (hbits : ∀ i, cgp.blksfree.isset i = true → i < fs.fpg) (hfrotor : cgp.frotor < fs.fpg)
    (hspan : IsSpan cgp.blksfree.isset (b * fs.frag) (b * fs.frag + fs.frag) i k) :
    ∃ bno frotor b, mapsearch fs cgp bpref k = some (bno, { cgp with frotor }) ∧ frotor < fs.fpg ∧
      b < fs.fpg / fs.frag ∧ IsSpan cgp.blksfree.isset (b * fs.frag) (b * fs.frag + fs.frag) bno k := by
  have hfrag := fs.frag_pos
  obtain ⟨start, hstart⟩ : ∃ start, start = if bpref ≠ 0 then fs.dtogd bpref / 8 else cgp.frotor / 8 := ⟨_, rfl⟩
  have hstartlt : start < (fs.fpg + 7) / 8 := by
    have hdtogd : fs.dtogd bpref < fs.fpg := Nat.mod_lt _ fs.fpg_pos
    rw [hstart]
    split <;> omega
  -- The byte of the span that there is.
  obtain ⟨hbi, hib, hset, -⟩ := id hspan
  have hin : i < fs.fpg := by
    have hbit := hset 0 hk
    exact hbits _ hbit
  have hbyte : Fs.fragtbl fs.frag (cgp.blksfree (b * fs.frag / 8)) &&& (1#8 <<< (k - 1 + fs.frag % 8)) ≠ 0 := by
    obtain ⟨pos, rfl⟩ := Nat.exists_eq_add_of_le hbi
    rw [Ne, table_and fs hk hle]
    exact table_ne_zero fs hk hle hspan
  have hbytelt : b * fs.frag / 8 < (fs.fpg + 7) / 8 := by omega
  have hfound : ∀ byte, byte < (fs.fpg + 7) / 8 →
      Fs.fragtbl fs.frag (cgp.blksfree byte) &&& (1#8 <<< (k - 1 + fs.frag % 8)) ≠ 0 →
      ∃ bno frotor b, (sift fs cgp.blksfree (byte * 8) k).map (fun bno => (bno, { cgp with frotor := byte * 8 })) =
          some (bno, { cgp with frotor }) ∧ frotor < fs.fpg ∧
        b < fs.fpg / fs.frag ∧ IsSpan cgp.blksfree.isset (b * fs.frag) (b * fs.frag + fs.frag) bno k := by
    intro byte hlt htable
    rw [Ne, table_and fs hk hle] at htable
    obtain ⟨bno, b', hsift, hspan'⟩ := sift_spec fs hk hle htable
    refine ⟨bno, byte * 8, b', by rw [hsift, Option.map_some], by omega, ?_, hspan'⟩
    have hbit := hbits _ (hspan'.2.2.1 0 hk)
    have hlow := hspan'.1
    exact (Nat.lt_div_iff_mul_lt' fs.frag_dvd b').mpr (by rw [Nat.mul_comm]; omega)
  unfold mapsearch
  dsimp only
  rw [← hstart]
  split
  case isTrue hne =>
    obtain ⟨hloc, htable⟩ := scanc_ne_zero hne
    rw [Option.bind_some]
    exact hfound _ (by omega) htable
  case isFalse hzero =>
    have hnone := scanc_zero (not_not.mp hzero)
    have hbefore : b * fs.frag / 8 < start := by
      by_contra hge
      exact hbyte (hnone _ (by omega) (by omega))
    have hne : Fs.scanc cgp.blksfree (Fs.fragtbl fs.frag) (1#8 <<< (k - 1 + fs.frag % 8)) (start + 1) 0 ≠ 0 := by
      intro hzero'
      exact hbyte (scanc_zero hzero' _ (Nat.zero_le _) (by omega))
    obtain ⟨hloc, htable⟩ := scanc_ne_zero hne
    rw [if_pos hne, Option.bind_some]
    rw [Nat.zero_add] at htable
    exact hfound _ (by omega) htable

end

end NetBSD.Ffs
