import NetBSD.Ffs.Blocks

/-!
# Allocation of fragments

`ffs_alloccg` takes a block, a piece of a span of free fragments, or a block of which it leaves the rest free;
`ffs_fragextend` takes what is behind a fragment.
-/

namespace NetBSD.Ffs

open Lib (Bitmap Block Cleared IsSpan spans)

theorem isset_clrbits (m : Bitmap) (bno a n j : Nat) :
    ((List.range' a n).foldl (fun map i => map.clrbit (bno + i)) m).isset j =
      (m.isset j && !decide (bno + a ≤ j ∧ j < bno + a + n)) := by
  induction n with
  | zero =>
    rw [decide_eq_false (by omega), Bool.not_false, Bool.and_true]
    rfl
  | succ n ih =>
    rw [List.range'_concat, List.foldl_concat, Bitmap.isset_clrbit, ih, Bool.and_assoc, ← Bool.not_or, ← Bool.decide_or]
    congr 3
    apply propext
    omega

theorem isset_setbits (m : Bitmap) (bno a n j : Nat) :
    ((List.range' a n).foldl (fun map i => map.setbit (bno + i)) m).isset j =
      (m.isset j || decide (bno + a ≤ j ∧ j < bno + a + n)) := by
  induction n with
  | zero =>
    rw [decide_eq_false (by omega), Bool.or_false]
    rfl
  | succ n ih =>
    rw [List.range'_concat, List.foldl_concat, Bitmap.isset_setbit, ih, Bool.or_assoc, ← Bool.decide_or]
    congr 2
    apply propext
    omega

namespace Fs

variable (fs : Fs) {p q : Nat → Bool} {b i j k n : Nat}

theorem freeIn_add (hin : b * fs.frag ≤ i) (hend : i + n ≤ b * fs.frag + fs.frag)
    (hset : ∀ j, i ≤ j → j < i + n → p j = true) (hq : ∀ j, q j = (p j && !decide (i ≤ j ∧ j < i + n))) :
    fs.freeIn p b = fs.freeIn q b + n := by
  obtain ⟨c, rfl⟩ := Nat.exists_eq_add_of_le hin
  have hunion : (Finset.range fs.frag).filter (fun i => p (b * fs.frag + i) = true) =
      (Finset.range fs.frag).filter (fun i => q (b * fs.frag + i) = true) ∪ Finset.Ico c (c + n) := by
    ext j
    rw [Finset.mem_union, Finset.mem_filter, Finset.mem_filter, Finset.mem_Ico, Finset.mem_range, hq, Bool.and_eq_true,
      Bool.not_eq_true', decide_eq_false_iff_not]
    constructor
    · rintro ⟨hj, hp⟩
      by_cases hjn : c ≤ j ∧ j < c + n
      · exact Or.inr hjn
      · exact Or.inl ⟨hj, hp, by omega⟩
    · rintro (⟨hj, hp, -⟩ | hjn)
      · exact ⟨hj, hp⟩
      · exact ⟨by omega, hset _ (by omega) (by omega)⟩
  have hdisjoint : Disjoint ((Finset.range fs.frag).filter fun i => q (b * fs.frag + i) = true) (Finset.Ico c (c + n)) := by
    rw [Finset.disjoint_left]
    intro j hj hjn
    have hbit := (Finset.mem_filter.mp hj).2
    rw [hq, Bool.and_eq_true, Bool.not_eq_true', decide_eq_false_iff_not] at hbit
    have hmem := Finset.mem_Ico.mp hjn
    exact hbit.2 (by omega)
  rw [freeIn, hunion, Finset.card_union_of_disjoint hdisjoint, Nat.card_Ico, freeIn]
  omega

theorem freeIn_of_wholly (h : fs.Wholly p b) : fs.freeIn p b = fs.frag := by
  rw [freeIn, Finset.filter_true_of_mem fun i hi => h i (Finset.mem_range.mp hi), Finset.card_range]

theorem spans_of_wholly (h : fs.Wholly p b) (hk : 0 < k) (hkf : k < fs.frag) :
    spans p (b * fs.frag) (b * fs.frag + fs.frag) k = 0 := by
  by_contra hne
  obtain ⟨i, hspan⟩ := Lib.spans_pos (Nat.pos_of_ne_zero hne)
  have hlow := hspan.1
  have hend := hspan.2.1
  have hone := (wholly_isSpan h).block.isSpan hk hlow (by omega)
  have hlen := (hone.mp hspan).2
  omega

theorem not_wholly_of_isSpan (h : IsSpan p (b * fs.frag) (b * fs.frag + fs.frag) i k) (hkf : k < fs.frag) (hk : 0 < k) :
    ¬fs.Wholly p b := by
  intro hwhole
  have hpos := h.pos hk
  rw [fs.spans_of_wholly hwhole hk hkf] at hpos
  exact absurd hpos (Nat.lt_irrefl 0)

theorem not_wholly_of_mem (hin : b * fs.frag ≤ i) (hend : i < b * fs.frag + fs.frag) (h : p i = false) :
    ¬fs.Wholly p b := by
  obtain ⟨c, rfl⟩ := Nat.exists_eq_add_of_le hin
  exact fs.not_wholly_of_clear (by omega) h

end Fs

section

variable {fs : Fs} {g g' : Group} {m : Bitmap} {b i j k n s e : Nat} {frsum : Nat → Int}

theorem Edit.clear (hb : b < fs.fpg / fs.frag) (h : Sound fs g)
    (hspan : Block g.cg.blksfree.isset (b * fs.frag) (b * fs.frag + fs.frag) s e) (hn : 0 < n) (hend : s + n ≤ e)
    (hm : ∀ j, m.isset j = (g.cg.blksfree.isset j && !decide (s ≤ j ∧ j < s + n)))
    (hnot : ¬fs.Wholly g.cg.blksfree.isset b)
    (hfrsum : ∀ k, 0 < k →
      frsum k = g.cg.frsum k - (if k = e - s then 1 else 0 : Nat) + (if k = e - (s + n) then 1 else 0 : Nat)) :
    Edit fs g b m frsum (-n) ∧ ¬fs.Wholly m.isset b := by
  have hstart := hspan.start
  have hstop := hspan.stop
  have hclear : ∀ j, s ≤ j → j < s + n → m.isset j = false := by
    intro j hlow hhigh
    rw [hm, decide_eq_true ⟨hlow, hhigh⟩, Bool.not_true, Bool.and_false]
  have hsame : ∀ j, j < s ∨ s + n ≤ j → m.isset j = g.cg.blksfree.isset j := by
    intro j hj
    rw [hm, decide_eq_false (by omega), Bool.not_false, Bool.and_true]
  have hcleared : Cleared g.cg.blksfree.isset m.isset (b * fs.frag) (b * fs.frag + fs.frag) s e s n :=
    ⟨hspan, Nat.le_refl _, hn, hend, hclear, hsame⟩
  have hnot' : ¬fs.Wholly m.isset b := fs.not_wholly_of_mem hstart (by omega) (hclear s (Nat.le_refl _) (by omega))
  have hfree := fs.freeIn_add hstart (by omega) (fun j hlow hhigh => hspan.set j hlow (by omega)) hm
  refine ⟨⟨hb, fun j hj => hsame j ?_, fun j hj => ?_, ?_, fun k hk _ => ?_⟩, hnot'⟩
  · by_contra hin
    exact hj (fs.mem_block_iff.mp ⟨by omega, by omega⟩)
  · rw [hm, Bool.and_eq_true] at hj
    exact h.good.bits j hj.1
  · rw [Fs.loose, Fs.loose, if_neg hnot, if_neg hnot']
    omega
  · have hspans := hcleared.spans_eq hk
    rw [hfrsum k hk, Fs.pieces, Fs.pieces, if_neg hnot, if_neg hnot']
    rw [Nat.sub_self, if_neg (show ¬k = 0 by omega)] at hspans
    omega

theorem frsum_move {P : Prop} [Decidable P] {frsum' : Nat → Int} {x y : Nat}
    (h : frsum' = Function.update frsum x (frsum x - 1)) (hP : ¬P → y = 0) (hk : 0 < k) :
    (if P then Function.update frsum' y (frsum' y + 1) else frsum') k =
      frsum k - (if k = x then 1 else 0 : Nat) + (if k = y then 1 else 0 : Nat) := by
  have hone : frsum' k = frsum k - (if k = x then 1 else 0 : Nat) := by
    rw [h, Int.sub_eq_add_neg, update_add]
    split <;> rfl
  by_cases hp : P
  · rw [if_pos hp, update_add, hone]
    congr 1
    split <;> rfl
  · rw [if_neg hp, hone, if_neg (show ¬k = y by have := hP hp; omega)]
    exact (Int.add_zero _).symm

theorem alloccg_span (h : Sound fs g) {allocsiz : Nat} (bpref : Nat) (hn : 0 < n) (hle : n ≤ allocsiz) (hlt : allocsiz < fs.frag)
    (hsum : g.cg.frsum allocsiz ≠ 0) : ∃ i frotor, mapsearch fs g.cg bpref allocsiz = some (i, { g.cg with frotor }) ∧
      i % fs.frag + n ≤ fs.frag ∧ i + n ≤ fs.fpg ∧
      ∀ m frsum, (∀ j, m.isset j = (g.cg.blksfree.isset j && !decide (i ≤ j ∧ j < i + n))) →
        (∀ k, 0 < k → frsum k = g.cg.frsum k - (if k = allocsiz then 1 else 0 : Nat) +
          (if k = allocsiz - n then 1 else 0 : Nat)) →
        Took fs g (Group.edit { g with cg := { g.cg with frotor } } m frsum (-n)) i n := by
  have hpos : 0 < allocsiz := by omega
  have hbits : ∀ i, g.cg.blksfree.isset i = true → i < fs.fpg := fun i hi =>
    (h.good.bits i hi).trans_le h.good.ndblk
  have hcount : 0 < fs.total (fs.pieces g.cg.blksfree.isset allocsiz) := by
    have hfrsum := h.good.counted.frsum allocsiz hpos hlt
    omega
  obtain ⟨b, hb, hpieces⟩ := fs.total_pos hcount
  have hspans : 0 < spans g.cg.blksfree.isset (b * fs.frag) (b * fs.frag + fs.frag) allocsiz := by
    rw [Fs.pieces] at hpieces
    split at hpieces
    · exact absurd hpieces (Nat.lt_irrefl 0)
    · exact hpieces
  obtain ⟨j, hspan⟩ := Lib.spans_pos hspans
  obtain ⟨i, frotor, c, hsearch, hfrotor, hc, hfound⟩ :=
    mapsearch_spec fs bpref hpos hlt.le hbits h.good.frotor hspan
  have hlow := hfound.1
  have hend := hfound.2.1
  have hblk := fs.mul_lt_fpg hc
  have hmod : i % fs.frag = i - c * fs.frag := by
    obtain ⟨d, rfl⟩ := Nat.exists_eq_add_of_le hlow
    rw [Nat.mul_add_mod_self_right, Nat.mod_eq_of_lt (by omega)]
    omega
  refine ⟨i, frotor, hsearch, by omega, by omega, fun m frsum hm hfrsum => ?_⟩
  have hnot := fs.not_wholly_of_isSpan hfound hlt hpos
  have hsound := h.rotors h.good.rotor hfrotor
  have hlen : i + allocsiz - i = allocsiz ∧ i + allocsiz - (i + n) = allocsiz - n := by omega
  obtain ⟨hedit, hnot'⟩ := Edit.clear hc hsound hfound.block hn (by omega) hm hnot
    (by rw [hlen.1, hlen.2]; exact hfrsum)
  obtain ⟨hsound', hfollows⟩ := hedit.sound hsound hnot hnot'
  have htook : Took fs { g with cg := { g.cg with frotor } } _ i n :=
    ⟨hsound', hfollows, fun j hj hjn => hfound.get hj (by omega), hm⟩
  exact htook.rotors

theorem hack_spec (h : Sound fs g) (hb : b < fs.fpg / fs.frag) (htook : Took fs g g' (b * fs.frag) fs.frag) (hn : 0 < n)
    (hlt : n < fs.frag) {i : Nat} (hi : i = fs.frag - n)
    (hm : ∀ j, m.isset j = (g'.cg.blksfree.isset j || decide (b * fs.frag + n ≤ j ∧ j < b * fs.frag + n + i))) :
    Took fs g (g'.edit m (Function.update g'.cg.frsum i (g'.cg.frsum i + 1)) i) (b * fs.frag) n := by
  obtain ⟨hsound, hfollows, hfree, hmap⟩ := htook
  have hclear : ∀ d < fs.frag, g'.cg.blksfree.isset (b * fs.frag + d) = false := by
    intro d hd
    rw [hmap, decide_eq_true ⟨by omega, by omega⟩, Bool.not_true, Bool.and_false]
  have hin : ∀ d < fs.frag, m.isset (b * fs.frag + d) = decide (n ≤ d) := by
    intro d hd
    rw [hm, hclear d hd, Bool.false_or, decide_eq_decide]
    omega
  have hnot := fs.not_wholly_of_clear fs.frag_pos (hclear 0 fs.frag_pos)
  have hnot' : ¬fs.Wholly m.isset b :=
    fs.not_wholly_of_clear fs.frag_pos (by rw [hin 0 fs.frag_pos, decide_eq_false (by omega)])
  have hsame : ∀ j, j / fs.frag ≠ b → m.isset j = g'.cg.blksfree.isset j := by
    intro j hj
    have hout : ¬(b * fs.frag ≤ j ∧ j < b * fs.frag + fs.frag) := fun hmem => hj (fs.mem_block_iff.mp hmem)
    rw [hm, decide_eq_false (by omega), Bool.or_false]
  have hloose : fs.loose m.isset b = i := by
    have hadd := fs.freeIn_add (b := b) (i := b * fs.frag + n) (n := i) (p := m.isset) (q := g'.cg.blksfree.isset)
      (by omega) (by omega) (fun j hlow hhigh => by rw [hm, decide_eq_true ⟨hlow, hhigh⟩, Bool.or_true]) (fun j => by
        rw [hm, Bool.and_or_distrib_right, Bool.and_not_self, Bool.or_false]
        by_cases hj : b * fs.frag + n ≤ j ∧ j < b * fs.frag + n + i
        · obtain ⟨d, rfl⟩ := Nat.exists_eq_add_of_le (show b * fs.frag ≤ j by omega)
          rw [hclear d (by omega), Bool.false_and]
        · rw [decide_eq_false hj, Bool.not_false, Bool.and_true])
    have hzero := fs.loose_of_clear hclear
    rw [Fs.loose, if_neg hnot] at hzero
    rw [Fs.loose, if_neg hnot', hadd, hzero, Nat.zero_add]
  have hblock : Block m.isset (b * fs.frag) (b * fs.frag + fs.frag) (b * fs.frag + n) (b * fs.frag + fs.frag) := by
    refine ⟨by omega, Nat.le_refl _, fun j hlow hhigh => ?_, Or.inr ?_, Or.inl rfl⟩
    · obtain ⟨d, rfl⟩ := Nat.exists_eq_add_of_le (show b * fs.frag ≤ j by omega)
      rw [hin d (by omega), decide_eq_true (by omega)]
    · rw [show b * fs.frag + n - 1 = b * fs.frag + (n - 1) by omega, hin _ (by omega), decide_eq_false (by omega)]
  have hpieces : ∀ k, 0 < k → fs.pieces m.isset k b = if k = i then 1 else 0 := by
    intro k hk
    rw [Fs.pieces, if_neg hnot', spans]
    have hiff : ∀ j ∈ Finset.Ico (b * fs.frag) (b * fs.frag + fs.frag),
        (IsSpan m.isset (b * fs.frag) (b * fs.frag + fs.frag) j k ↔ k = i ∧ j = b * fs.frag + n) := by
      intro j hj
      obtain ⟨hlow, hhigh⟩ := Finset.mem_Ico.mp hj
      by_cases hjn : b * fs.frag + n ≤ j
      · rw [hblock.isSpan hk hjn hhigh, show b * fs.frag + fs.frag - (b * fs.frag + n) = i by omega]
        exact and_comm
      · refine iff_of_false (fun hspan => ?_) (fun h => hjn h.2.ge)
        obtain ⟨d, rfl⟩ := Nat.exists_eq_add_of_le hlow
        have hone := hspan.get (Nat.le_refl _) (by omega)
        rw [hin d (by omega), decide_eq_true_eq] at hone
        omega
    rw [Finset.filter_congr hiff]
    by_cases hki : k = i
    · simp only [hki, true_and, if_true]
      rw [Finset.filter_eq', if_pos (Finset.mem_Ico.mpr ⟨by omega, by omega⟩), Finset.card_singleton]
    · simp only [hki, false_and, if_false, Finset.filter_false, Finset.card_empty]
  have hedit : Edit fs g' b m (Function.update g'.cg.frsum i (g'.cg.frsum i + 1)) i := by
    refine ⟨hb, hsame, fun j hj => ?_, ?_, fun k hk _ => ?_⟩
    · rw [hm, Bool.or_eq_true, decide_eq_true_eq] at hj
      rcases hj with hj | hj
      · exact hsound.good.bits j hj
      · rw [hfollows.ndblk]
        exact h.good.bits j (hfree j (by omega) (by omega))
    · rw [hloose, fs.loose_of_clear hclear]
      omega
    · rw [update_add, hpieces k hk, fs.pieces_of_clear hclear hk]
      split <;> rfl
  obtain ⟨hsound', hfollows'⟩ := hedit.sound hsound hnot hnot'
  refine ⟨hsound', hfollows.trans hfollows', fun j hlow hhigh => hfree j hlow (by omega), fun j => ?_⟩
  show m.isset j = _
  rw [hm, hmap]
  by_cases hin : b * fs.frag ≤ j ∧ j < b * fs.frag + fs.frag
  · rw [hfree j hin.1 hin.2, decide_eq_true hin, Bool.not_true, Bool.and_false, Bool.false_or, Bool.true_and,
      ← decide_not, decide_eq_decide]
    omega
  · rw [decide_eq_false hin, Bool.not_false, Bool.and_true, decide_eq_false (by omega), Bool.or_false,
      decide_eq_false (by omega), Bool.not_false, Bool.and_true]

theorem alloccg_spec (h : Sound fs g) (hn : 0 < n) (hle : n ≤ fs.frag) (bpref : Nat) :
    ∃ bno g', alloccg fs g bpref (n * fs.fsize) = some (bno, g') ∧ (bno = 0 ∧ g' = g ∨
      ∃ i, bno = g.cg.cgx * fs.fpg + i ∧ i % fs.frag + n ≤ fs.frag ∧ i + n ≤ fs.fpg ∧ Took fs g g' i n) := by
  have hsize : n * fs.fsize = fs.bsize ↔ n = fs.frag := Nat.mul_left_inj fs.fsize_pos.ne'
  have hfrags : fs.numfrags (n * fs.fsize) = n := Nat.mul_div_cancel n fs.fsize_pos
  have hnone : ∃ bno g', some (0, g) = some (bno, g') ∧ (bno = 0 ∧ g' = g ∨
      ∃ i, bno = g.cg.cgx * fs.fpg + i ∧ i % fs.frag + n ≤ fs.frag ∧ i + n ≤ fs.fpg ∧ Took fs g g' i n) :=
    ⟨0, g, rfl, Or.inl ⟨rfl, rfl⟩⟩
  unfold alloccg
  split
  case isTrue => exact hnone
  case isFalse =>
    split
    case isTrue => exact hnone
    case isFalse hfull =>
      split
      case isTrue heq =>
        obtain ⟨b, g', halloc, hb, htook⟩ := alloccgblk_spec h (fun hz => hfull ⟨hz, heq⟩) bpref
        obtain rfl := hsize.mp heq
        exact ⟨_, g', halloc, Or.inr ⟨_, rfl, by rw [Nat.mul_mod_left]; omega, fs.mul_lt_fpg hb, htook⟩⟩
      case isFalse hne =>
        have hlt : n < fs.frag := Nat.lt_of_le_of_ne hle fun heq => hne (hsize.mpr heq)
        dsimp only
        rw [hfrags]
        split
        case h_1 =>
          split
          case isTrue => exact hnone
          case isFalse hpos =>
            obtain ⟨b, g', halloc, hb, htook⟩ := alloccgblk_spec h hpos bpref
            have hblk := fs.mul_lt_fpg hb
            have hdtogd : fs.dtogd (g.cg.cgx * fs.fpg + b * fs.frag) = b * fs.frag := by
              rw [Fs.dtogd, Nat.mul_add_mod_self_right, Nat.mod_eq_of_lt (by omega)]
            rw [halloc, Option.map_some]
            dsimp only
            rw [hdtogd]
            refine ⟨_, _, rfl, Or.inr ⟨_, rfl, by rw [Nat.mul_mod_left]; omega, by omega, ?_⟩⟩
            exact hack_spec h hb htook hn hlt rfl fun j => isset_setbits ..
        case h_2 allocsiz hfind =>
          have hmem := List.mem_range'_1.mp (List.mem_of_find?_eq_some hfind)
          have hfound := List.find?_some hfind
          have hsum : g.cg.frsum allocsiz ≠ 0 := of_decide_eq_true hfound
          obtain ⟨i, frotor, hsearch, hmod, hend, htook⟩ :=
            alloccg_span h bpref hn hmem.1 (by omega) hsum
          obtain ⟨m, hm⟩ : ∃ m, m = (List.range n).foldl (fun map d => map.clrbit (i + d)) g.cg.blksfree := ⟨_, rfl⟩
          obtain ⟨frsum, hfr⟩ : ∃ frsum : Nat → Int, frsum = Function.update g.cg.frsum allocsiz (g.cg.frsum allocsiz - 1) :=
            ⟨_, rfl⟩
          have hone := htook m
            (if n ≠ allocsiz then Function.update frsum (allocsiz - n) (frsum (allocsiz - n) + 1) else frsum)
            (fun j => by rw [hm, List.range_eq_range', isset_clrbits]; rfl)
            (fun k hk => frsum_move hfr (fun heq => by omega) hk)
          rw [hsearch, Option.map_some]
          rw [hm, hfr] at hone
          exact ⟨_, _, rfl, Or.inr ⟨i, rfl, hmod, hend, hone⟩⟩

theorem find_end (m : Bitmap) (bno a c : Nat) (hac : a ≤ c) :
    ∃ x, ((List.range' a (c - a)).find? fun i => !m.isset (bno + i)).getD (max a c) = x ∧ a ≤ x ∧ x ≤ c ∧
      (∀ i, a ≤ i → i < x → m.isset (bno + i) = true) ∧ (x = c ∨ m.isset (bno + x) = false) := by
  cases hfind : (List.range' a (c - a)).find? fun i => !m.isset (bno + i) with
  | none =>
    rw [List.find?_eq_none] at hfind
    refine ⟨c, Nat.max_eq_right hac, hac, Nat.le_refl _, fun i hai hic => ?_, Or.inl rfl⟩
    simpa using hfind i (List.mem_range'_1.mpr ⟨hai, by omega⟩)
  | some x =>
    rw [List.find?_range'_eq_some] at hfind
    obtain ⟨hclear, hmem, hbefore⟩ := hfind
    have hx := List.mem_range'_1.mp hmem
    refine ⟨x, rfl, hx.1, by omega, fun i hai hix => ?_, Or.inr (by simpa using hclear)⟩
    simpa using hbefore i hai hix

theorem fragextend_spec (h : Sound fs g) {o : Nat} (hi : i < fs.fpg) (ho : 0 < o) (hon : o ≤ n) (hn : n ≤ fs.frag)
    (hin : i % fs.frag + o ≤ fs.frag) (halloc : ∀ j, i ≤ j → j < i + o → g.cg.blksfree.isset j = false) :
    fragextend fs g (g.cg.cgx * fs.fpg + i) (o * fs.fsize) (n * fs.fsize) = (0, g) ∨
      ∃ g', fragextend fs g (g.cg.cgx * fs.fpg + i) (o * fs.fsize) (n * fs.fsize) = (g.cg.cgx * fs.fpg + i, g') ∧
        i % fs.frag + n ≤ fs.frag ∧ Took fs g g' (i + o) (n - o) := by
  have hfrag := fs.frag_pos
  have hnew : fs.numfrags (n * fs.fsize) = n := Nat.mul_div_cancel n fs.fsize_pos
  have hold : fs.numfrags (o * fs.fsize) = o := Nat.mul_div_cancel o fs.fsize_pos
  have hdvd : fs.frag ∣ g.cg.cgx * fs.fpg := Nat.dvd_mul_left_of_dvd fs.frag_dvd _
  have hfragnum : ∀ c, fs.fragnum (g.cg.cgx * fs.fpg + c) = c % fs.frag := by
    intro c
    obtain ⟨d, hd⟩ := hdvd
    rw [Fs.fragnum, hd, Nat.mul_add_mod]
  have hdtogd : fs.dtogd (g.cg.cgx * fs.fpg + i) = i := by
    rw [Fs.dtogd, Nat.mul_add_mod_self_right, Nat.mod_eq_of_lt hi]
  have hblock : i = i / fs.frag * fs.frag + i % fs.frag := (Nat.div_add_mod' i fs.frag).symm
  obtain ⟨b, hb⟩ : ∃ b, b = i / fs.frag := ⟨_, rfl⟩
  obtain ⟨r, hr⟩ : ∃ r, r = i % fs.frag := ⟨_, rfl⟩
  rw [← hb, ← hr] at hblock
  rw [← hr] at hin ⊢
  have hblt : b < fs.fpg / fs.frag := by
    rw [hb]
    exact Nat.div_lt_div_of_lt_of_dvd fs.frag_dvd hi
  unfold fragextend
  split
  case isTrue => exact Or.inl rfl
  case isFalse =>
    dsimp only
    rw [hnew, hold, hfragnum i, show g.cg.cgx * fs.fpg + i + n - 1 = g.cg.cgx * fs.fpg + (i + n - 1) by omega, hfragnum,
      hdtogd, ← hr]
    split
    case isTrue => exact Or.inl rfl
    case isFalse hcross =>
      have hfits : r + n ≤ fs.frag := by
        by_contra hlong
        have hmod : (i + n - 1) % fs.frag = r + n - 1 - fs.frag := by
          rw [hblock, show b * fs.frag + r + n - 1 = (b + 1) * fs.frag + (r + n - 1 - fs.frag) by rw [Nat.succ_mul]; omega,
            Nat.mul_add_mod_self_right, Nat.mod_eq_of_lt (by omega)]
        omega
      split
      case isTrue => exact Or.inl rfl
      case isFalse hany =>
        have hfree : ∀ j, i + o ≤ j → j < i + n → g.cg.blksfree.isset j = true := by
          intro j hlow hhigh
          rw [List.any_eq_true] at hany
          by_contra hclear
          refine hany ⟨j - i, List.mem_range'_1.mpr ⟨by omega, by omega⟩, ?_⟩
          rw [Nat.add_sub_cancel' (by omega)]
          simpa using hclear
        obtain ⟨x, hx, hnx, hxr, hrest, hstop⟩ := find_end g.cg.blksfree i n (fs.frag - r) (by omega)
        rw [hx]
        refine Or.inr ⟨_, rfl, hfits, ?_⟩
        obtain ⟨m, hm⟩ : ∃ m, m = (List.range' o (n - o)).foldl (fun map d => map.clrbit (i + d)) g.cg.blksfree :=
          ⟨_, rfl⟩
        obtain ⟨frsum, hfr⟩ : ∃ frsum : Nat → Int, frsum = Function.update g.cg.frsum (x - o) (g.cg.frsum (x - o) - 1) :=
          ⟨_, rfl⟩
        rw [← hm, ← hfr]
        have hbit : ∀ j, m.isset j = (g.cg.blksfree.isset j && !decide (i + o ≤ j ∧ j < i + o + (n - o))) := by
          intro j
          rw [hm, isset_clrbits]
        have hmove := fun k (hk : 0 < k) => frsum_move (P := x ≠ n) (y := x - n) hfr (fun heq => by omega) hk
        have hlast := halloc (i + o - 1) (by omega) (by omega)
        have hnot := fs.not_wholly_of_mem (b := b) (by omega) (by omega) hlast
        have hboth : Edit fs g b m (if x ≠ n then Function.update frsum (x - n) (frsum (x - n) + 1) else frsum)
            (-((n - o : Nat) : Int)) ∧ ¬fs.Wholly m.isset b := by
          by_cases heq : o = n
          · -- Nothing is taken.
            have hsame : ∀ j, m.isset j = g.cg.blksfree.isset j := by
              intro j
              rw [hbit, decide_eq_false (by omega), Bool.not_false, Bool.and_true]
            have hmap : m.isset = g.cg.blksfree.isset := funext hsame
            refine ⟨⟨hblt, fun j _ => hsame j, fun j hj => h.good.bits j ((hsame j).symm.trans hj), ?_, fun k hk _ => ?_⟩, ?_⟩
            · rw [hmap, heq, Nat.sub_self]
              omega
            · rw [hmove k hk, hmap, heq]
              omega
            · rw [hmap]
              exact hnot
          · have hspan : Block g.cg.blksfree.isset (b * fs.frag) (b * fs.frag + fs.frag) (i + o) (i + x) := by
              refine ⟨by omega, by omega, fun j hlow hhigh => ?_, Or.inr hlast, ?_⟩
              · by_cases hjn : j < i + n
                · exact hfree j hlow hjn
                · have hone := hrest (j - i) (by omega) (by omega)
                  rwa [Nat.add_sub_cancel' (by omega)] at hone
              · exact hstop.imp (fun hc => by omega) id
            refine Edit.clear hblt h hspan (by omega) (by omega) hbit hnot fun k hk => ?_
            rw [hmove k hk, show i + x - (i + o) = x - o by omega, show i + x - (i + o + (n - o)) = x - n by omega]
        obtain ⟨hsound, hfollows⟩ := hboth.1.sound h hnot hboth.2
        exact ⟨hsound, hfollows, fun j hlow hhigh => hfree j hlow (by omega), hbit⟩

end

end NetBSD.Ffs
