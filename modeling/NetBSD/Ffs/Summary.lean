import NetBSD.Ffs.Search

/-!
# The summaries of a cylinder group

What the counts of a cylinder group say of its map, block by block, and what becomes of them when one block changes.
-/

namespace NetBSD.Ffs

open Lib (Bitmap IsSpan spans capped)

namespace Fs

variable (fs : Fs) {p p' : Nat → Bool} {b j k : Nat}

def Wholly (p : Nat → Bool) (b : Nat) : Prop := ∀ i < fs.frag, p (b * fs.frag + i) = true

instance (p : Nat → Bool) (b : Nat) : Decidable (fs.Wholly p b) := inferInstanceAs (Decidable (∀ i < fs.frag, _))

def total (f : Nat → Nat) : Nat := ∑ b ∈ Finset.range (fs.fpg / fs.frag), f b

def whole (p : Nat → Bool) (b : Nat) : Nat := if fs.Wholly p b then 1 else 0

def freeIn (p : Nat → Bool) (b : Nat) : Nat := ((Finset.range fs.frag).filter fun i => p (b * fs.frag + i) = true).card

def loose (p : Nat → Bool) (b : Nat) : Nat := if fs.Wholly p b then 0 else fs.freeIn p b

def pieces (p : Nat → Bool) (k b : Nat) : Nat :=
  if fs.Wholly p b then 0 else spans p (b * fs.frag) (b * fs.frag + fs.frag) k

def cyl (b : Nat) : Nat := fs.cbtocylno (b * fs.frag)

def rpos (b : Nat) : Nat := fs.cbtorpos (b * fs.frag)

end Fs

structure Counted (fs : Fs) (cg : Cg) : Prop where
  nbfree : cg.nbfree = fs.total (fs.whole cg.blksfree.isset)
  nffree : cg.nffree = fs.total (fs.loose cg.blksfree.isset)
  frsum : ∀ k, 0 < k → k < fs.frag → cg.frsum k = fs.total (fs.pieces cg.blksfree.isset k)
  blktot : ∀ c, cg.blktot c = fs.total fun b => if fs.cyl b = c then fs.whole cg.blksfree.isset b else 0
  blks : ∀ c r, cg.blks c r = fs.total fun b => if fs.cyl b = c ∧ fs.rpos b = r then fs.whole cg.blksfree.isset b else 0

structure Clustered (fs : Fs) (cg : Cg) : Prop where
  nclusterblks : cg.nclusterblks = cg.ndblk / fs.frag
  clustersfree : ∀ b, cg.clustersfree.isset b = decide (fs.Wholly cg.blksfree.isset b)
  clustersum : ∀ k, 0 < k → k ≤ fs.contigsumsize →
    cg.clustersum k = capped cg.clustersfree.isset 0 cg.nclusterblks fs.contigsumsize k

structure Good (fs : Fs) (cg : Cg) : Prop where
  ndblk : cg.ndblk ≤ fs.fpg
  bits : ∀ i, cg.blksfree.isset i = true → i < cg.ndblk
  rotor : cg.rotor < fs.fpg
  frotor : cg.frotor < fs.fpg
  counted : Counted fs cg
  clustered : fs.contigsumsize ≠ 0 → Clustered fs cg

namespace Fs

variable (fs : Fs) {p p' : Nat → Bool} {b i j k : Nat}

theorem total_change {f g : Nat → Nat} (hb : b < fs.fpg / fs.frag) (h : ∀ j, j ≠ b → g j = f j) :
    (fs.total g : Int) = fs.total f + (g b - f b) := by
  have hmem := Finset.mem_range.mpr hb
  have hrest : ∑ j ∈ (Finset.range (fs.fpg / fs.frag)).erase b, g j =
      ∑ j ∈ (Finset.range (fs.fpg / fs.frag)).erase b, f j :=
    Finset.sum_congr rfl fun j hj => h j (Finset.ne_of_mem_erase hj)
  have hf := Finset.sum_erase_add (Finset.range (fs.fpg / fs.frag)) f hmem
  have hg := Finset.sum_erase_add (Finset.range (fs.fpg / fs.frag)) g hmem
  unfold total
  omega

theorem total_pos {f : Nat → Nat} (h : 0 < fs.total f) : ∃ b < fs.fpg / fs.frag, 0 < f b := by
  obtain ⟨b, hb, hne⟩ := Finset.exists_ne_zero_of_sum_ne_zero h.ne'
  exact ⟨b, Finset.mem_range.mp hb, Nat.pos_of_ne_zero hne⟩

theorem div_frag (hi : i < fs.frag) : (b * fs.frag + i) / fs.frag = b := by
  rw [Nat.add_comm, Nat.add_mul_div_right _ _ fs.frag_pos, Nat.div_eq_of_lt hi, Nat.zero_add]

theorem wholly_congr (h : ∀ j, j / fs.frag = b → p' j = p j) : fs.Wholly p' b ↔ fs.Wholly p b := by
  unfold Wholly
  refine forall_congr' fun i => forall_congr' fun hi => ?_
  rw [h _ (fs.div_frag hi)]

theorem whole_congr (h : ∀ j, j / fs.frag = b → p' j = p j) : fs.whole p' b = fs.whole p b := by
  simp only [whole, fs.wholly_congr h]

theorem freeIn_congr (h : ∀ j, j / fs.frag = b → p' j = p j) : fs.freeIn p' b = fs.freeIn p b := by
  unfold freeIn
  congr 1
  apply Finset.filter_congr
  intro i hi
  rw [h _ (fs.div_frag (Finset.mem_range.mp hi))]

theorem loose_congr (h : ∀ j, j / fs.frag = b → p' j = p j) : fs.loose p' b = fs.loose p b := by
  simp only [loose, fs.wholly_congr h, fs.freeIn_congr h]

theorem pieces_congr (h : ∀ j, j / fs.frag = b → p' j = p j) : fs.pieces p' k b = fs.pieces p k b := by
  have hspans : spans p' (b * fs.frag) (b * fs.frag + fs.frag) k = spans p (b * fs.frag) (b * fs.frag + fs.frag) k := by
    apply Lib.spans_congr
    intro j hlow hhigh
    apply h
    obtain ⟨i, rfl⟩ := Nat.exists_eq_add_of_le hlow
    exact fs.div_frag (by omega)
  simp only [pieces, fs.wholly_congr h, hspans]

theorem not_wholly_of_clear (hi : i < fs.frag) (h : p (b * fs.frag + i) = false) : ¬fs.Wholly p b := by
  intro hwhole
  rw [hwhole i hi] at h
  cases h

theorem loose_of_wholly (h : fs.Wholly p b) : fs.loose p b = 0 := if_pos h

theorem pieces_of_wholly (h : fs.Wholly p b) : fs.pieces p k b = 0 := if_pos h

theorem loose_of_clear (h : ∀ i < fs.frag, p (b * fs.frag + i) = false) : fs.loose p b = 0 := by
  have hnone : fs.freeIn p b = 0 := by
    rw [freeIn, Finset.card_eq_zero, Finset.filter_eq_empty_iff]
    intro i hi
    rw [h i (Finset.mem_range.mp hi)]
    exact Bool.false_ne_true
  rw [loose, hnone, ite_self]

theorem pieces_of_clear (h : ∀ i < fs.frag, p (b * fs.frag + i) = false) (hk : 0 < k) : fs.pieces p k b = 0 := by
  have hnone : spans p (b * fs.frag) (b * fs.frag + fs.frag) k = 0 := by
    by_contra hne
    obtain ⟨i, hlow, hend, hset, -⟩ := Lib.spans_pos (Nat.pos_of_ne_zero hne)
    obtain ⟨d, rfl⟩ := Nat.exists_eq_add_of_le hlow
    have hone := hset 0 hk
    rw [Nat.add_zero, h d (by omega)] at hone
    cases hone
  rw [pieces, hnone, ite_self]

theorem mem_block_iff : b * fs.frag ≤ j ∧ j < b * fs.frag + fs.frag ↔ j / fs.frag = b := by
  have hpos := fs.frag_pos
  rw [Nat.div_eq_iff hpos]
  omega

theorem mul_lt_fpg (hb : b < fs.fpg / fs.frag) : b * fs.frag + fs.frag ≤ fs.fpg := by
  have hle := (Nat.le_div_iff_mul_le fs.frag_pos).mp (Nat.succ_le_of_lt hb)
  rwa [Nat.succ_mul] at hle

end Fs

theorem Counted.change {fs : Fs} {cg cg' : Cg} {b : Nat} (h : Counted fs cg) (hb : b < fs.fpg / fs.frag)
    (hmap : ∀ j, j / fs.frag ≠ b → cg'.blksfree.isset j = cg.blksfree.isset j)
    (hnbfree : cg'.nbfree = cg.nbfree + (fs.whole cg'.blksfree.isset b - fs.whole cg.blksfree.isset b))
    (hnffree : cg'.nffree = cg.nffree + (fs.loose cg'.blksfree.isset b - fs.loose cg.blksfree.isset b))
    (hfrsum : ∀ k, 0 < k → k < fs.frag →
      cg'.frsum k = cg.frsum k + (fs.pieces cg'.blksfree.isset k b - fs.pieces cg.blksfree.isset k b))
    (hblktot : ∀ c, cg'.blktot c =
      cg.blktot c + if fs.cyl b = c then (fs.whole cg'.blksfree.isset b - fs.whole cg.blksfree.isset b : Int) else 0)
    (hblks : ∀ c r, cg'.blks c r = cg.blks c r +
      if fs.cyl b = c ∧ fs.rpos b = r then (fs.whole cg'.blksfree.isset b - fs.whole cg.blksfree.isset b : Int) else 0) :
    Counted fs cg' := by
  have hother : ∀ d, d ≠ b → ∀ j, j / fs.frag = d → cg'.blksfree.isset j = cg.blksfree.isset j := by
    rintro d hd j rfl
    exact hmap j hd
  refine ⟨?_, ?_, fun k hk hkf => ?_, fun c => ?_, fun c r => ?_⟩
  · rw [hnbfree, h.nbfree, fs.total_change hb fun d hd => fs.whole_congr (hother d hd)]
  · rw [hnffree, h.nffree, fs.total_change hb fun d hd => fs.loose_congr (hother d hd)]
  · rw [hfrsum k hk hkf, h.frsum k hk hkf, fs.total_change hb fun d hd => fs.pieces_congr (hother d hd)]
  · rw [hblktot, h.blktot, fs.total_change (g := fun b => if fs.cyl b = c then fs.whole cg'.blksfree.isset b else 0) hb
      fun d hd => by rw [fs.whole_congr (hother d hd)]]
    split <;> rfl
  · rw [hblks, h.blks, fs.total_change
      (g := fun b => if fs.cyl b = c ∧ fs.rpos b = r then fs.whole cg'.blksfree.isset b else 0) hb
      fun d hd => by rw [fs.whole_congr (hother d hd)]]
    split <;> rfl

end NetBSD.Ffs
