import NetBSD.Ffs.Bookkeeping

/-!
# Runs of a file system

The bookkeeping holds throughout careful runs; a cluster that was allocated in a clean buffer may be lost, and its
blocks are then allocated again.
-/

namespace NetBSD.Ffs

open Lib (IsSpan Runs spans capped)

def Cg.full (cgx ndblk frag : Nat) : Cg where
  cgx := cgx
  ndblk := ndblk
  nbfree := 0
  nffree := 0
  rotor := 0
  frotor := 0
  frsum := fun _ => 0
  blktot := fun _ => 0
  blks := fun _ _ => 0
  blksfree := fun _ => 0
  clustersum := fun _ => 0
  clustersfree := fun _ => 0
  nclusterblks := ndblk / frag

def Use.full (fs : Fs) : Use where
  volume := {
    disk := fun cg => Cg.full cg (min fs.fpg (fs.size - cg * fs.fpg)) fs.frag
    bufs := fun _ => none
    cs := fun _ => ⟨0, 0⟩
    cstotal := ⟨0, 0⟩ }
  alloc := fun j => decide (j < fs.size)

section

variable {fs : Fs} {u : Use}

theorem isset_zero (i : Nat) : Lib.Bitmap.isset (fun _ => 0) i = false := BitVec.getLsbD_zero

theorem capped_zero (a b c k : Nat) : capped (Lib.Bitmap.isset fun _ => 0) a b c k = 0 := by
  apply Finset.sum_eq_zero
  intro l hl
  have hnone : spans (Lib.Bitmap.isset fun _ => 0) a b l = 0 := by
    by_contra hne
    obtain ⟨i, hspan⟩ := Lib.spans_pos (Nat.pos_of_ne_zero hne)
    have hbit := hspan.get (Nat.le_refl i) (by have := (Finset.mem_Icc.mp hl).1; omega)
    rw [isset_zero] at hbit
    cases hbit
  rw [hnone, ite_self]

theorem Good.full {cgx ndblk : Nat} (h : ndblk ≤ fs.fpg) : Good fs (Cg.full cgx ndblk fs.frag) := by
  have hclear : ∀ b, ∀ i < fs.frag, Lib.Bitmap.isset (fun _ => 0) (b * fs.frag + i) = false := fun b i _ => isset_zero _
  have hnot : ∀ b, ¬fs.Wholly (Lib.Bitmap.isset fun _ => 0) b := fun b =>
    fs.not_wholly_of_clear fs.frag_pos (hclear b 0 fs.frag_pos)
  have hwhole : ∀ b, fs.whole (Lib.Bitmap.isset fun _ => 0) b = 0 := fun b => if_neg (hnot b)
  have hzero : ∀ f : Nat → Nat, (∀ b, f b = 0) → fs.total f = 0 := fun f hf => Finset.sum_eq_zero fun b _ => hf b
  refine ⟨h, fun i hi => ?_, fs.fpg_pos, fs.fpg_pos, ⟨?_, ?_, fun k hk _ => ?_, fun c => ?_, fun c r => ?_⟩, fun _ =>
    ⟨rfl, fun b => ?_, fun k _ _ => ?_⟩⟩
  · rw [show (Cg.full cgx ndblk fs.frag).blksfree = fun _ => 0 from rfl, isset_zero] at hi
    cases hi
  · exact congrArg Int.ofNat (hzero _ hwhole).symm
  · exact congrArg Int.ofNat (hzero _ fun b => fs.loose_of_clear (hclear b)).symm
  · exact congrArg Int.ofNat (hzero _ fun b => fs.pieces_of_clear (hclear b) hk).symm
  · refine congrArg Int.ofNat (hzero _ fun b => ?_).symm
    show (if fs.cyl b = c then fs.whole (Lib.Bitmap.isset fun _ => 0) b else 0) = 0
    rw [hwhole, ite_self]
  · refine congrArg Int.ofNat (hzero _ fun b => ?_).symm
    show (if fs.cyl b = c ∧ fs.rpos b = r then fs.whole (Lib.Bitmap.isset fun _ => 0) b else 0) = 0
    rw [hwhole, ite_self]
  · exact (isset_zero b).trans (decide_eq_false (hnot b)).symm
  · exact congrArg Int.ofNat (capped_zero ..).symm

theorem Consistent.full (hsize : fs.size ≤ fs.ncg * fs.fpg) (hpos : 0 < fs.size) : Consistent fs (Use.full fs) := by
  refine ⟨hsize, fun cg _ => rfl, fun cg _ => rfl, fun cg _ => ⟨.full (Nat.min_le_left ..), rfl, rfl⟩, ?_, ?_,
    fun cg _ i hi => ?_, fun j hj => of_decide_eq_true hj, decide_eq_true hpos⟩
  · exact (Finset.sum_eq_zero fun _ _ => rfl).symm
  · exact (Finset.sum_eq_zero fun _ _ => rfl).symm
  · have hlt : i < min fs.fpg (fs.size - cg * fs.fpg) := hi
    have halloc : (Use.full fs).alloc (cg * fs.fpg + i) = true := decide_eq_true (by omega)
    rw [halloc]
    exact isset_zero i

/-- In runs whose calls all go well every group stays consistent, and each call returns, with nothing that was allocated
already. -/
theorem bookkeeping (h : Runs (Consistent fs) (Use.step fs) (fun u c => u.Allowed fs c ∧ u.Careful fs c) u) :
    Consistent fs u ∧ ∀ c, u.Allowed fs c → u.Careful fs c →
      ∃ bno u', u.call fs c = some (bno, u') ∧ u.Fresh fs c bno ∧ Consistent fs u' := by
  have hconsistent : Consistent fs u := by
    refine h.invariant (fun _ h => h) fun u c u' hu hok hstep => ?_
    obtain ⟨bno, u'', hcall, -, hnext⟩ := hu.call c hok.1 hok.2
    rw [Use.step, hcall] at hstep
    obtain rfl : u'' = u' := Option.some.inj hstep
    exact hnext
  exact ⟨hconsistent, fun c => hconsistent.call c⟩

end

def smallFs : Fs where
  frag := 2
  fsize := 1
  fpg := 8
  ncg := 1
  size := 8
  contigsumsize := 2
  cpc := 0
  spc := 8
  nspf := 1
  nsect := 8
  trackskew := 0
  interleave := 1
  nrpos := 1
  npsect := 8
  postbl := fun _ _ => -1
  rotbl := fun _ => 0
  frag_eq := by decide
  fsize_pos := Nat.one_pos
  fpg_pos := by decide
  frag_dvd := by decide
  nsect_pos := by decide
  nsect_le := by decide
  nrpos_pos := Nat.one_pos
  rotated := fun _ _ h => absurd rfl h

def Use.after (u : Use) (c : Call) : Use := (u.step smallFs c).getD u

theorem runs_after (p : Use → Call → Prop) {u : Use} (h : Runs (Consistent smallFs) (Use.step smallFs) p u) (c : Call)
    (hok : p u c) (hsome : (u.step smallFs c).isSome = true) :
    Runs (Consistent smallFs) (Use.step smallFs) p (u.after c) :=
  h.after c hok hsome

theorem small_holds {u : Use} {bno size : Nat} (hfits : bno % 2 + size ≤ 2)
    (halloc : ∀ d < size, u.alloc (bno + d) = true) : u.Holds smallFs bno size := by
  have hfrags : smallFs.numfrags size = size := Nat.div_one size
  refine ⟨by rw [hfrags]; exact hfits, fun j hlow hhigh => ?_⟩
  rw [hfrags] at hhigh
  have hone := halloc (j - bno) (by omega)
  rwa [Nat.add_sub_cancel' hlow] at hone

theorem bookkeeping_small : Consistent smallFs (((Use.full smallFs).after (.blkfree 3 1)).after (.alloccg 0 0 1)) := by
  have hstart : Consistent smallFs (Use.full smallFs) := .full (by decide) (by decide)
  have hfree := runs_after (fun u c => u.Allowed smallFs c ∧ u.Careful smallFs c) (Runs.start hstart) (.blkfree 3 1)
    ⟨⟨by decide, by decide, by decide, by decide, small_holds (by decide) (by decide)⟩, trivial⟩ (by decide)
  have halloc := runs_after _ hfree (.alloccg 0 0 1) ⟨⟨by decide, by decide, by decide, by decide⟩, trivial⟩
    (by decide)
  exact (bookkeeping halloc).1

/-- Two blocks are freed and the group is written; one of them is allocated as a cluster, in the clean buffer, and the
buffer is taken for another block. -/
def lost : Use :=
  (((((Use.full smallFs).after (.blkfree 2 2)).after (.blkfree 4 2)).after (.write 0)).after (.clusteralloc 0 0 1)).after
    (.reclaim 0)

/-- The block of the cluster is then allocated again. -/
theorem cluster_lost : ¬∀ (fs : Fs) (u : Use), Runs (Consistent fs) (Use.step fs) (fun u c => u.Allowed fs c) u →
    Consistent fs u ∧ ∀ c, u.Allowed fs c → ∃ bno u', u.call fs c = some (bno, u') ∧ u.Fresh fs c bno := by
  intro hall
  have hstart : Consistent smallFs (Use.full smallFs) := .full (by decide) (by decide)
  have hfree := runs_after (fun u c => u.Allowed smallFs c) (Runs.start hstart) (.blkfree 2 2)
    ⟨by decide, by decide, by decide, by decide, small_holds (by decide) (by decide)⟩ (by decide)
  have hfree' := runs_after _ hfree (.blkfree 4 2)
    ⟨by decide, by decide, by decide, by decide, small_holds (by decide) (by decide)⟩ (by decide)
  have hwrite := runs_after _ hfree' (.write 0) trivial (by decide)
  have hcluster := runs_after _ hwrite (.clusteralloc 0 0 1) Nat.one_pos (by decide)
  have hlost : Runs (Consistent smallFs) (Use.step smallFs) (fun u c => u.Allowed smallFs c) lost :=
    runs_after _ hcluster (.reclaim 0) trivial (by decide)
  obtain ⟨bno, u', hcall, hfresh⟩ := (hall smallFs lost hlost).2 (.alloccg 0 2 2)
    ⟨by decide, by decide, by decide, by decide⟩
  have hbno : (lost.call smallFs (.alloccg 0 2 2)).map Prod.fst = some 2 := by decide
  rw [hcall] at hbno
  obtain rfl : bno = 2 := Option.some.inj hbno
  have halloc : lost.alloc 2 = true := by decide
  rw [hfresh 2 (by decide) (by decide)] at halloc
  cases halloc

end NetBSD.Ffs
