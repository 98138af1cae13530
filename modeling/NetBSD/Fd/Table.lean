import NetBSD.Fd.Descrip

/-!
# The hints of a descriptor table

`fd_freefile` and `fd_lastfile` bound the descriptors that are in use, and with them `fdalloc` finds the lowest one that
is free.
-/

namespace NetBSD.Fd

inductive Length : Nat → Prop where
  | small : Length ndfile
  | extent : Length ndextent
  | double {n : Nat} (hn : Length n) (hle : ndextent ≤ n) : Length (2 * n)

namespace Filedesc

variable {fdp fdp' : Filedesc} {lim want i j fd : Nat} {fp : Nat}

def refs (fdp : Filedesc) (fp : Nat) : Nat := fdp.ofiles.count (some fp)

structure Good (fdp : Filedesc) : Prop where
  below : ∀ i < fdp.freefile, fdp.file i ≠ none
  above : ∀ i, fdp.lastfile < i → fdp.file i = none
  last : fdp.lastfile < fdp.nfiles
  short : fdp.lastfile < 65536
  size : Length fdp.nfiles

structure Lowest (fdp : Filedesc) (lim want i : Nat) : Prop where
  le : want ≤ i
  lt : i < lim
  free : fdp.file i = none
  least : ∀ j, want ≤ j → j < i → fdp.file j ≠ none

def Takes (fdp : Filedesc) (lim want : Nat) : Prop := ∃ j, want ≤ j ∧ j < lim ∧ fdp.file j = none

def Short (fdp : Filedesc) (want : Nat) : Prop := ∃ j < 65536, want ≤ j ∧ fdp.file j = none

theorem file_eq (hlt : fd < fdp.nfiles) : fdp.file fd = fdp.ofiles.get ⟨fd, hlt⟩ := by
  simp only [file, List.getElem?_eq_getElem (show fd < fdp.ofiles.length from hlt), Option.getD_some, List.get_eq_getElem]

theorem file_of_le (hle : fdp.nfiles ≤ fd) : fdp.file fd = none := by
  simp only [file, List.getElem?_eq_none (show fdp.ofiles.length ≤ fd from hle), Option.getD_none]

theorem lt_of_file (hfile : fdp.file fd ≠ none) : fd < fdp.nfiles := by
  by_contra hle
  exact hfile (file_of_le (Nat.le_of_not_lt hle))

theorem Good.le_lastfile (hg : fdp.Good) (hfile : fdp.file fd ≠ none) : fd ≤ fdp.lastfile := by
  by_contra hlt
  exact hfile (hg.above fd (Nat.lt_of_not_le hlt))

theorem Good.freefile_le (hg : fdp.Good) (hfree : fdp.file fd = none) : fdp.freefile ≤ fd := by
  by_contra hlt
  exact hg.below fd (Nat.lt_of_not_le hlt) hfree

theorem file_setFile (hlt : fd < fdp.nfiles) (f : Option Nat) :
    (fdp.setFile fd f).file = Function.update fdp.file fd f := by
  funext j
  have hlen : fd < fdp.ofiles.length := hlt
  rcases eq_or_ne j fd with rfl | hne
  · rw [Function.update_self]
    simp only [file, setFile, List.getElem?_set_self hlen, Option.getD_some]
  · rw [Function.update_of_ne hne]
    simp only [file, setFile, List.getElem?_set_ne hne.symm]

theorem nfiles_setFile (fdp : Filedesc) (fd : Nat) (f : Option Nat) : (fdp.setFile fd f).nfiles = fdp.nfiles :=
  List.length_set ..

theorem nfiles_clear (fdp : Filedesc) (fd : Nat) : (fdp.clear fd).nfiles = fdp.nfiles := List.length_set ..

theorem refs_setFile (hlt : fd < fdp.nfiles) (f : Option Nat) (fp : Nat) :
    (fdp.setFile fd f).refs fp + (if fdp.file fd = some fp then 1 else 0) =
      fdp.refs fp + if f = some fp then 1 else 0 := by
  have hle : (if fdp.file fd = some fp then 1 else 0) ≤ fdp.refs fp := by
    split
    · next heq =>
      rw [file_eq hlt] at heq
      exact List.one_le_count_iff.2 (heq ▸ List.get_mem _ _)
    · exact Nat.zero_le _
  have hset : (fdp.setFile fd f).refs fp =
      fdp.refs fp - (if fdp.file fd = some fp then 1 else 0) + if f = some fp then 1 else 0 := by
    simp only [refs, setFile, List.count_set (show fd < fdp.ofiles.length from hlt), file_eq hlt, List.get_eq_getElem,
      beq_iff_eq]
  omega

theorem refs_pos (hfile : fdp.file fd = some fp) : 1 ≤ fdp.refs fp := by
  have hlt := lt_of_file (hfile ▸ Option.some_ne_none fp)
  rw [file_eq hlt] at hfile
  exact List.one_le_count_iff.2 (hfile ▸ List.get_mem _ _)

theorem lowerLast_spec (hfiles : ∀ i, j < i → fdp.file i = none) :
    fdp.lowerLast j ≤ j ∧ ∀ i, fdp.lowerLast j < i → fdp.file i = none := by
  induction j with
  | zero => exact ⟨Nat.le_refl 0, hfiles⟩
  | succ j ih =>
    unfold lowerLast
    split
    · next hnone =>
      obtain ⟨hle, habove⟩ := ih fun i hlt => by
        rcases Nat.lt_or_eq_of_le hlt with hlt | rfl
        · exact hfiles i hlt
        · exact hnone
      exact ⟨Nat.le_succ_of_le hle, habove⟩
    · exact ⟨Nat.le_refl _, hfiles⟩

theorem ushort_eq (hlt : i < 65536) : ushort i = i := Nat.mod_eq_of_lt hlt

theorem Good.setFile (hg : fdp.Good) (hle : fd ≤ fdp.lastfile) (fp : Nat) : (fdp.setFile fd (some fp)).Good := by
  have hfile := file_setFile (Nat.lt_of_le_of_lt hle hg.last) (some fp)
  refine ⟨fun i hlt => ?_, fun i hlt => ?_, ?_, hg.short, ?_⟩
  · rw [hfile]
    rcases eq_or_ne i fd with rfl | hne
    · simp only [Function.update_self, ne_eq, reduceCtorEq, not_false_eq_true]
    · rw [Function.update_of_ne hne]
      exact hg.below i hlt
  · rw [hfile, Function.update_of_ne (Nat.ne_of_gt (Nat.lt_of_le_of_lt hle hlt))]
    exact hg.above i hlt
  · exact Nat.lt_of_lt_of_eq hg.last (nfiles_setFile ..).symm
  · exact nfiles_setFile fdp fd _ ▸ hg.size

theorem Good.clear (hg : fdp.Good) (hfile : fdp.file fd ≠ none) : (fdp.clear fd).Good := by
  have hle := hg.le_lastfile hfile
  have hset : (fdp.clear fd).file = Function.update fdp.file fd none := file_setFile (lt_of_file hfile) none
  have hfree : (fdp.clear fd).freefile = if fd < fdp.freefile then fd else fdp.freefile := by
    simp only [Filedesc.clear, ushort_eq (Nat.lt_of_le_of_lt hle hg.short)]
  refine ⟨fun i hlt => ?_, fun i hlt => ?_, ?_, hg.short, ?_⟩
  · rw [hfree] at hlt
    have hne : i ≠ fd := by
      rintro rfl
      split at hlt <;> omega
    rw [hset, Function.update_of_ne hne]
    refine hg.below i ?_
    split at hlt <;> omega
  · rw [hset, Function.update_of_ne (Nat.ne_of_gt (Nat.lt_of_le_of_lt hle hlt))]
    exact hg.above i hlt
  · exact Nat.lt_of_lt_of_eq hg.last (nfiles_clear ..).symm
  · exact nfiles_clear fdp fd ▸ hg.size

theorem Good.lower (hg : fdp.Good) : { fdp with lastfile := fdp.lowerLast fdp.lastfile }.Good := by
  obtain ⟨hle, habove⟩ := lowerLast_spec hg.above
  exact ⟨hg.below, habove, Nat.lt_of_le_of_lt hle hg.last, Nat.lt_of_le_of_lt hle hg.short, hg.size⟩

theorem close_eq (fdp : Filedesc) (fd : Nat) :
    fdp.close fd = { fdp.clear fd with lastfile := (fdp.clear fd).lowerLast (fdp.clear fd).lastfile } := by
  have hlower : ∀ j, (fdp.setFile fd none).lowerLast j = (fdp.clear fd).lowerLast j := by
    intro j
    induction j with
    | zero => rfl
    | succ j ih =>
      unfold lowerLast
      rw [ih]
      rfl
  simp only [Filedesc.close, hlower]
  rfl

theorem Good.close (hg : fdp.Good) (hfile : fdp.file fd ≠ none) : (fdp.close fd).Good :=
  close_eq fdp fd ▸ (hg.clear hfile).lower

theorem file_grow (fdp : Filedesc) (n : Nat) : (fdp.grow n).file = fdp.file := by
  funext j
  simp only [file, grow]
  rcases Nat.lt_or_ge j fdp.nfiles with hlt | hle
  · rw [List.getElem?_append_left hlt]
  · rw [List.getElem?_append_right hle, List.getElem?_eq_none (show fdp.ofiles.length ≤ j from hle)]
    simp only [List.getElem?_replicate, Option.getD_none]
    split <;> rfl

theorem nfiles_grow {n : Nat} (hle : fdp.nfiles ≤ n) : (fdp.grow n).nfiles = n := by
  simp only [nfiles, grow, List.length_append, List.length_replicate]
  exact Nat.add_sub_cancel' hle

theorem refs_grow (fdp : Filedesc) (n : Nat) : (fdp.grow n).refs = fdp.refs := by
  funext fp
  simp only [refs, grow, List.count_append, List.count_replicate, beq_iff_eq, reduceCtorEq, ↓reduceIte, Nat.add_zero]

structure Grown (fdp fdp' : Filedesc) : Prop where
  good : fdp'.Good
  file : fdp'.file = fdp.file
  refs : fdp'.refs = fdp.refs

theorem Good.grow (hg : fdp.Good) :
    (fdp.grow (if fdp.nfiles < ndextent then ndextent else 2 * fdp.nfiles)).Good ∧
      fdp.nfiles < (fdp.grow (if fdp.nfiles < ndextent then ndextent else 2 * fdp.nfiles)).nfiles := by
  have hpos : 0 < fdp.nfiles := Nat.zero_lt_of_lt hg.last
  have hlt : fdp.nfiles < if fdp.nfiles < ndextent then ndextent else 2 * fdp.nfiles := by
    split <;> omega
  have hn := nfiles_grow hlt.le
  refine ⟨⟨fun i hi => ?_, fun i hi => ?_, ?_, hg.short, ?_⟩, hn.symm ▸ hlt⟩
  · exact file_grow fdp _ ▸ hg.below i hi
  · exact file_grow fdp _ ▸ hg.above i hi
  · exact hn.symm ▸ Nat.lt_trans hg.last hlt
  · rw [hn]
    split
    · exact .extent
    · next hge => exact .double hg.size (Nat.le_of_not_lt hge)

theorem fdsearch_some {last : Nat} (hfind : fdsearch fdp i last = some j) :
    i ≤ j ∧ j < last ∧ fdp.file j = none ∧ ∀ k, i ≤ k → k < j → fdp.file k ≠ none := by
  obtain ⟨hfree, as, bs, heq, hbefore⟩ := List.find?_eq_some_iff_append.1 hfind
  have hmem : j ∈ List.range' i (last - i) := heq ▸ List.mem_append_right as List.mem_cons_self
  rw [List.mem_range'_1] at hmem
  refine ⟨hmem.1, by omega, of_decide_eq_true hfree, fun k hle hlt hnone => ?_⟩
  have hk : k ∈ as := by
    have hin : k ∈ as ++ j :: bs := heq ▸ List.mem_range'_1.2 (by omega)
    have hsorted : (as ++ j :: bs).Pairwise (· < ·) := heq ▸ List.pairwise_lt_range'
    rcases List.mem_append.1 hin with hk | hk
    · exact hk
    · rcases List.mem_cons.1 hk with rfl | hk
      · exact absurd hlt (Nat.lt_irrefl k)
      · have := (List.pairwise_cons.1 (List.pairwise_append.1 hsorted).2.1).1 k hk
        omega
  have hused := hbefore k hk
  rw [hnone] at hused
  exact absurd hused (by decide)

theorem fdsearch_none {last : Nat} (hfind : fdsearch fdp i last = none) (k : Nat) (hle : i ≤ k) (hlt : k < last) :
    fdp.file k ≠ none := by
  intro hnone
  have hk := List.find?_eq_none.1 hfind k (List.mem_range'_1.2 (by omega))
  rw [hnone] at hk
  exact hk (by decide)

theorem Good.lowest (hg : fdp.Good) (hfind : fdsearch fdp (if want < fdp.freefile then fdp.freefile else want)
    (min fdp.nfiles lim) = some i) : fdp.Lowest lim want i := by
  obtain ⟨hle, hlt, hfree, hleast⟩ := fdsearch_some hfind
  refine ⟨?_, ?_, hfree, fun k hwant hk => ?_⟩
  · split at hle <;> omega
  · omega
  · rcases Nat.lt_or_ge k fdp.freefile with hbelow | habove
    · exact hg.below k hbelow
    · refine hleast k ?_ hk
      split <;> omega

theorem Good.take (hg : fdp.Good) (hlow : fdp.Lowest lim want i) (hlt : i < fdp.nfiles) (hshort : i < 65536) :
    { fdp with
      ofileflags := Function.update fdp.ofileflags i 0
      lastfile := if i > fdp.lastfile then ushort i else fdp.lastfile
      freefile := if want ≤ fdp.freefile then ushort i else fdp.freefile }.Good := by
  simp only [ushort_eq hshort]
  refine ⟨fun k hk => ?_, fun k hk => ?_, ?_, ?_, hg.size⟩
  · rcases Nat.lt_or_ge k fdp.freefile with hbelow | habove
    · exact hg.below k hbelow
    · change k < if _ then _ else _ at hk
      split at hk
      · exact hlow.least k (by omega) hk
      · omega
  · refine hg.above k ?_
    change (if _ then _ else _) < k at hk
    split at hk <;> omega
  · have := hg.last
    change (if _ then _ else _) < fdp.nfiles
    split <;> omega
  · have := hg.short
    change (if _ then _ else _) < 65536
    split <;> omega

inductive Allocated (lim want : Nat) (fdp : Filedesc) : Option (Option Nat × Filedesc) → Prop where
  | taken {i : Nat} {fdp' : Filedesc} (hlow : fdp.Lowest lim want i) (hgrown : fdp.Grown fdp')
      (hle : i ≤ fdp'.lastfile) : Allocated lim want fdp (some (some i, fdp'))
  | full {fdp' : Filedesc} (hfull : ¬ fdp.Takes lim want) (hgrown : fdp.Grown fdp') :
      Allocated lim want fdp (some (none, fdp'))

theorem Good.found (hg : fdp.Good) (hshort : fdp.Takes lim want → fdp.Short want)
    (hfind : fdsearch fdp (if want < fdp.freefile then fdp.freefile else want) (min fdp.nfiles lim) = some i) :
    Allocated lim want fdp (some (some i, { fdp with
      ofileflags := Function.update fdp.ofileflags i 0
      lastfile := if i > fdp.lastfile then ushort i else fdp.lastfile
      freefile := if want ≤ fdp.freefile then ushort i else fdp.freefile })) := by
  have hlow := hg.lowest hfind
  have hlt : i < fdp.nfiles := by
    have := (fdsearch_some hfind).2.1
    omega
  obtain ⟨j, hj, hwant, hfree⟩ := hshort ⟨i, hlow.le, hlow.lt, hlow.free⟩
  have hi : i < 65536 := by
    by_contra hge
    exact hlow.least j hwant (by omega) hfree
  refine .taken hlow ⟨hg.take hlow hlt hi, rfl, rfl⟩ ?_
  change i ≤ if i > fdp.lastfile then ushort i else fdp.lastfile
  rw [ushort_eq hi]
  split <;> omega

theorem Good.not_takes (hg : fdp.Good)
    (hfind : fdsearch fdp (if want < fdp.freefile then fdp.freefile else want) (min fdp.nfiles lim) = none)
    (hge : lim ≤ fdp.nfiles) : ¬ fdp.Takes lim want := by
  rintro ⟨j, hwant, hlt, hfree⟩
  have hle := hg.freefile_le hfree
  refine fdsearch_none hfind j ?_ (by omega) hfree
  split <;> omega

theorem Grown.refl (hg : fdp.Good) : fdp.Grown fdp := ⟨hg, rfl, rfl⟩

theorem Allocated.congr {o : Option (Option Nat × Filedesc)} (ha : Allocated lim want fdp' o)
    (hfile : fdp'.file = fdp.file) (hrefs : fdp'.refs = fdp.refs) : Allocated lim want fdp o := by
  have hgrown {fd : Filedesc} (hg : fdp'.Grown fd) : fdp.Grown fd := ⟨hg.good, hg.file.trans hfile, hg.refs.trans hrefs⟩
  cases ha with
  | taken hlow hg hle => exact .taken ⟨hlow.le, hlow.lt, hfile ▸ hlow.free, hfile ▸ hlow.least⟩ (hgrown hg) hle
  | full hfull hg => exact .full (fun ⟨j, hwant, hlt, hfree⟩ => hfull ⟨j, hwant, hlt, hfile ▸ hfree⟩) (hgrown hg)

theorem Good.fdallocLoop (hg : fdp.Good) (hshort : fdp.Takes lim want → fdp.Short want) {fuel : Nat}
    (hfuel : lim ≤ fdp.nfiles + fuel) : Allocated lim want fdp (Fd.fdallocLoop lim want (fuel + 1) fdp) := by
  induction fuel generalizing fdp with
  | zero =>
    unfold Fd.fdallocLoop
    dsimp only
    split
    · next i hfind => exact hg.found hshort hfind
    · next hfind =>
      rw [if_pos (show fdp.nfiles ≥ lim from hfuel)]
      exact .full (hg.not_takes hfind hfuel) (.refl hg)
  | succ fuel ih =>
    unfold Fd.fdallocLoop
    dsimp only
    split
    · next i hfind => exact hg.found hshort hfind
    · next hfind =>
      split
      · next hge => exact .full (hg.not_takes hfind hge) (.refl hg)
      · next hlt =>
        obtain ⟨hgood, hmore⟩ := hg.grow
        refine (ih hgood (fun htakes => ?_) (by omega)).congr (file_grow fdp _) (refs_grow fdp _)
        obtain ⟨j, hj⟩ := htakes
        obtain ⟨k, hk⟩ := hshort ⟨j, file_grow fdp _ ▸ hj⟩
        exact ⟨k, (file_grow fdp _).symm ▸ hk⟩

theorem Good.fdalloc (hg : fdp.Good) (hshort : fdp.Takes lim want → fdp.Short want) :
    Allocated lim want fdp (Fd.fdalloc lim want fdp) :=
  hg.fdallocLoop hshort (Nat.le_add_left lim fdp.nfiles)

theorem file_finishdup {old new : Nat} (hlt : new < fdp.nfiles) :
    (fdp.finishdup old new).file = Function.update fdp.file new (fdp.file old) := file_setFile hlt (fdp.file old)

theorem refs_finishdup (old : Nat) {new : Nat} (hlt : new < fdp.nfiles) (fp : Nat) :
    (fdp.finishdup old new).refs fp + (if fdp.file new = some fp then 1 else 0) =
      fdp.refs fp + if fdp.file old = some fp then 1 else 0 := refs_setFile hlt (fdp.file old) fp

theorem Good.finishdup {old new : Nat} (hg : fdp.Good) (hlt : new < fdp.nfiles) (hshort : new < 65536)
    (hfile : fdp.file old ≠ none) : (fdp.finishdup old new).Good := by
  have hlast : (fdp.finishdup old new).lastfile = if new > fdp.lastfile then new else fdp.lastfile := by
    simp only [Filedesc.finishdup, ushort_eq hshort]
  have hn : (fdp.finishdup old new).nfiles = fdp.nfiles := nfiles_setFile fdp new (fdp.file old)
  refine ⟨fun i hlt' => ?_, fun i hlt' => ?_, ?_, ?_, hn ▸ hg.size⟩
  · rw [file_finishdup hlt]
    rcases eq_or_ne i new with rfl | hne
    · rwa [Function.update_self]
    · rw [Function.update_of_ne hne]
      exact hg.below i hlt'
  · rw [hlast] at hlt'
    have hne : i ≠ new := by
      split at hlt' <;> omega
    rw [file_finishdup hlt, Function.update_of_ne hne]
    refine hg.above i ?_
    split at hlt' <;> omega
  · rw [hlast, hn]
    have := hg.last
    split <;> omega
  · rw [hlast]
    have := hg.short
    split <;> omega

theorem ndfile_le {n : Nat} (hn : Length n) : ndfile ≤ n := by
  cases hn with
  | small => exact Nat.le_refl _
  | extent => decide
  | double _ hle => exact Nat.le_trans (by decide) (Nat.le_trans hle (Nat.le_mul_of_pos_left _ (by decide)))

theorem shrink_spec {last fuel : Nat} (hn : Length i) (hlt : last < i) :
    Length (shrink last fuel i) ∧ last < shrink last fuel i ∧ shrink last fuel i ≤ i := by
  induction fuel generalizing i with
  | zero => exact ⟨hn, hlt, Nat.le_refl i⟩
  | succ fuel ih =>
    unfold shrink
    split
    · next hbig =>
      cases hn with
      | small => exact absurd hbig.1 (by decide)
      | extent => exact absurd hbig.1 (by decide)
      | @double n hn hle =>
        rw [Nat.mul_div_cancel_left n (by decide)]
        obtain ⟨hlen, hlast, hle'⟩ := ih hn (by omega)
        exact ⟨hlen, hlast, by omega⟩
    · exact ⟨hn, hlt, Nat.le_refl i⟩

theorem file_take (hnone : ∀ j, i ≤ j → fdp.file j = none) :
    { fdp with ofiles := fdp.ofiles.take i }.file = fdp.file := by
  funext j
  rcases Nat.lt_or_ge j i with hlt | hle
  · simp only [file, List.getElem?_take_of_lt hlt]
  · rw [hnone j hle]
    simp only [file, List.getElem?_take_eq_none hle, Option.getD_none]

theorem count_take (hnone : ∀ j, i ≤ j → fdp.file j = none) (fp : Nat) :
    (fdp.ofiles.take i).count (some fp) = fdp.refs fp := by
  have hdrop : (fdp.ofiles.drop i).count (some fp) = 0 := by
    refine List.count_eq_zero.2 fun hmem => ?_
    obtain ⟨j, hj, heq⟩ := List.getElem_of_mem hmem
    rw [List.getElem_drop] at heq
    have hfile := hnone (i + j) (Nat.le_add_right i j)
    rw [List.length_drop] at hj
    rw [file_eq (show i + j < fdp.ofiles.length by omega), List.get_eq_getElem, heq] at hfile
    exact Option.some_ne_none fp hfile
  calc (fdp.ofiles.take i).count (some fp)
      = (fdp.ofiles.take i).count (some fp) + (fdp.ofiles.drop i).count (some fp) := by rw [hdrop, Nat.add_zero]
    _ = fdp.refs fp := by rw [← List.count_append, List.take_append_drop, refs]

theorem Good.copy (hg : fdp.Good) : fdp.Grown fdp.copy := by
  obtain ⟨i, hcopy, hlen, hlast, hle⟩ : ∃ i, fdp.copy = { fdp with ofiles := fdp.ofiles.take i } ∧ Length i ∧
      fdp.lastfile < i ∧ i ≤ fdp.nfiles := by
    rcases Nat.lt_or_ge fdp.lastfile ndfile with hlt | hge
    · refine ⟨ndfile, ?_, .small, hlt, ndfile_le hg.size⟩
      simp only [Filedesc.copy, if_pos hlt]
    · refine ⟨shrink fdp.lastfile fdp.nfiles fdp.nfiles, ?_, shrink_spec hg.size hg.last⟩
      simp only [Filedesc.copy, if_neg (Nat.not_lt.2 hge)]
  have hnone : ∀ j, i ≤ j → fdp.file j = none := fun j hj => hg.above j (Nat.lt_of_lt_of_le hlast hj)
  have hn : { fdp with ofiles := fdp.ofiles.take i }.nfiles = i := List.length_take_of_le hle
  have hfile := file_take hnone
  rw [hcopy]
  refine ⟨⟨hfile ▸ hg.below, hfile ▸ hg.above, hn.symm ▸ hlast, hg.short, hn.symm ▸ hlen⟩, hfile, ?_⟩
  exact funext fun fp => count_take hnone fp

theorem count_reduceOption (l : List (Option Nat)) (fp : Nat) : l.reduceOption.count fp = l.count (some fp) := by
  induction l with
  | nil => rfl
  | cons f l ih =>
    cases f with
    | none => rw [List.reduceOption_cons_of_none, ih, List.count_cons_of_ne (by simp)]
    | some g =>
      rw [List.reduceOption_cons_of_some, List.count_cons, List.count_cons, ih]
      simp only [beq_iff_eq, Option.some.injEq]

theorem Good.count_openFiles (hg : fdp.Good) (fp : Nat) : fdp.openFiles.count fp = fdp.refs fp :=
  (count_reduceOption _ fp).trans (count_take (fun j hj => hg.above j hj) fp)

end Filedesc

end NetBSD.Fd
