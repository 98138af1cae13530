import NetBSD.Fd.Table
import Mathlib.Data.Nat.Count

/-!
# Descriptors for rights

`fdavail`, and the descriptors that `unp_externalize` takes when it says that there are enough. It also counts the free ones of the
table that lie at the limit or above, where `fdalloc` does not look.
-/

namespace NetBSD.Fd

def availLoop : List (Option Nat) → Int → Bool
  | [], _ => false
  | fp :: rest, n => if fp = none then (if n - 1 ≤ 0 then true else availLoop rest (n - 1)) else availLoop rest n

def fdavail (lim : Nat) (fdp : Filedesc) (n : Int) : Bool :=
  let i : Int := lim - fdp.nfiles
  if i > 0 ∧ n - i ≤ 0 then true else availLoop (fdp.ofiles.drop fdp.freefile) (if i > 0 then n - i else n)

/-- The loop of `unp_externalize` over the files of a message, as far as it changes the table: the descriptors that they get. -/
def fdfill (lim : Nat) : List Nat → Filedesc → Option (List Nat × Filedesc)
  | [], fdp => some ([], fdp)
  | fp :: rest, fdp =>
    match fdalloc lim 0 fdp with
    | some (some f, fdp) => (fdfill lim rest (fdp.setFile f (some fp))).map fun r => (f :: r.1, r.2)
    | _ => none

/-- `unp_externalize`, as far as it changes the table; there are no descriptors when it is `EMSGSIZE`. -/
def unpExternalize (lim : Nat) (fps : List Nat) (fdp : Filedesc) : Option (Option (List Nat) × Filedesc) :=
  if fdavail lim fdp fps.length = false then some (none, fdp)
  else (fdfill lim fps fdp).map fun r => (some r.1, r.2)

namespace Filedesc

variable {fdp fdp' : Filedesc} {lim i : Nat} {fps : List Nat}

def free (fdp : Filedesc) (k : Nat) : Nat := Nat.count (fun i => fdp.file i = none) k

def Hint (fdp : Filedesc) : Prop := ∀ i < fdp.freefile, fdp.file i ≠ none

theorem free_eq_zero {k : Nat} (h : ∀ i < k, fdp.file i ≠ none) : fdp.free k = 0 := Nat.count_of_forall_not h

theorem free_mono {k k' : Nat} (h : k ≤ k') : fdp.free k ≤ fdp.free k' := Nat.count_monotone _ h

theorem free_behind {k : Nat} (h : fdp.nfiles ≤ k) : fdp.free k = fdp.free fdp.nfiles + (k - fdp.nfiles) := by
  obtain ⟨d, rfl⟩ := Nat.exists_eq_add_of_le h
  have hfree : ∀ j < d, fdp.file (fdp.nfiles + j) = none := fun j _ => file_of_le (Nat.le_add_right ..)
  rw [free, Nat.count_add, Nat.count_of_forall hfree, Nat.add_sub_cancel_left, free]

theorem free_setFile (hlt : i < fdp.nfiles) (hi : i < lim) (hfree : fdp.file i = none) (fp : Nat) :
    (fdp.setFile i (some fp)).free lim + 1 = fdp.free lim := by
  have hmem : i ∈ (Finset.range lim).filter fun j => fdp.file j = none := Finset.mem_filter.2 ⟨Finset.mem_range.2 hi, hfree⟩
  have herase : (Finset.range lim).filter (fun j => (fdp.setFile i (some fp)).file j = none) =
      ((Finset.range lim).filter fun j => fdp.file j = none).erase i := by
    ext j
    rw [Finset.mem_erase, Finset.mem_filter, Finset.mem_filter, file_setFile hlt]
    by_cases hj : j = i
    · subst hj
      rw [Function.update_self]
      exact iff_of_false (fun h => Option.some_ne_none fp h.2) fun h => h.1 rfl
    · rw [Function.update_of_ne hj]
      exact (and_iff_right hj).symm
  rw [free, free, Nat.count_eq_card_filter_range, Nat.count_eq_card_filter_range, herase]
  exact Finset.card_erase_add_one hmem

theorem availLoop_iff {l : List (Option Nat)} {n : Int} (hn : 0 < n) : availLoop l n = true ↔ n ≤ l.count none := by
  induction l generalizing n with
  | nil => exact iff_of_false Bool.false_ne_true (Int.not_le.2 hn)
  | cons fp l ih =>
    unfold availLoop
    cases fp with
    | none =>
      rw [if_pos rfl, List.count_cons_self]
      split
      · next hle => exact iff_of_true rfl (by omega)
      · next hle =>
        rw [ih (by omega)]
        omega
    | some fp =>
      rw [if_neg (Option.some_ne_none fp), List.count_cons_of_ne (Option.some_ne_none fp), ih hn]

theorem count_none (l : List (Option Nat)) : l.count none = Nat.count (fun i => (l[i]?).getD none = none) l.length := by
  induction l with
  | nil => rfl
  | cons fp l ih =>
    rw [List.length_cons, Nat.count_succ', List.count_cons, ih]
    cases fp <;> rfl

theorem Hint.count_drop (h : fdp.Hint) : (fdp.ofiles.drop fdp.freefile).count none = fdp.free fdp.nfiles := by
  have htake : (fdp.ofiles.take fdp.freefile).count none = 0 := by
    refine List.count_eq_zero.2 fun hmem => ?_
    obtain ⟨j, hj, heq⟩ := List.getElem_of_mem hmem
    rw [List.getElem_take] at heq
    rw [List.length_take] at hj
    refine h j (Nat.lt_of_lt_of_le hj (Nat.min_le_left ..)) ?_
    rw [file, List.getElem?_eq_getElem (Nat.lt_of_lt_of_le hj (Nat.min_le_right ..)), heq]
    rfl
  calc (fdp.ofiles.drop fdp.freefile).count none
      = (fdp.ofiles.take fdp.freefile ++ fdp.ofiles.drop fdp.freefile).count none := by rw [List.count_append, htake, Nat.zero_add]
    _ = fdp.ofiles.count none := by rw [List.take_append_drop]
    _ = fdp.free fdp.nfiles := count_none fdp.ofiles

theorem Hint.fdavail_iff (h : fdp.Hint) {n : Nat} (hn : 0 < n) : fdavail lim fdp n = true ↔ n ≤ fdp.free (max lim fdp.nfiles) := by
  unfold fdavail
  dsimp only
  rcases Nat.lt_or_ge fdp.nfiles lim with hlt | hge
  · rw [Nat.max_eq_left hlt.le, free_behind hlt.le]
    split
    · exact iff_of_true rfl (by omega)
    · rw [if_pos (by omega), availLoop_iff (by omega), h.count_drop]
      omega
  · rw [Nat.max_eq_right hge, if_neg (by omega), if_neg (by omega), availLoop_iff (by omega), h.count_drop]
    exact Int.ofNat_le

theorem Hint.lowest (h : fdp.Hint) (hfind : fdsearch fdp (if 0 < fdp.freefile then fdp.freefile else 0) (min fdp.nfiles lim) = some i) :
    fdp.Lowest lim 0 i ∧ i < fdp.nfiles := by
  obtain ⟨hle, hlt, hfree, hleast⟩ := fdsearch_some hfind
  refine ⟨⟨Nat.zero_le i, by omega, hfree, fun j _ hj => ?_⟩, by omega⟩
  rcases Nat.lt_or_ge j fdp.freefile with hbelow | habove
  · exact h j hbelow
  · refine hleast j ?_ hj
    split <;> omega

theorem Hint.none_free (h : fdp.Hint)
    (hfind : fdsearch fdp (if 0 < fdp.freefile then fdp.freefile else 0) (min fdp.nfiles lim) = none) (hge : lim ≤ fdp.nfiles) :
    fdp.free lim = 0 := by
  refine free_eq_zero fun j hj => ?_
  rcases Nat.lt_or_ge j fdp.freefile with hbelow | habove
  · exact h j hbelow
  · refine fdsearch_none hfind j ?_ (by omega)
    split <;> omega

theorem Hint.fdallocLoop (h : fdp.Hint) {fuel : Nat} (hfuel : lim ≤ fdp.nfiles + fuel) :
    (∃ i fdp', Fd.fdallocLoop lim 0 (fuel + 1) fdp = some (some i, fdp') ∧ fdp.Lowest lim 0 i ∧ fdp'.file = fdp.file ∧
      i < fdp'.nfiles ∧ fdp'.freefile ≤ i) ∨
    ∃ fdp', Fd.fdallocLoop lim 0 (fuel + 1) fdp = some (none, fdp') ∧ fdp.free lim = 0 := by
  induction fuel generalizing fdp with
  | zero =>
    unfold Fd.fdallocLoop
    dsimp only
    split
    · next i hfind =>
      obtain ⟨hlowest, hlt⟩ := h.lowest hfind
      refine .inl ⟨i, _, rfl, hlowest, rfl, hlt, ?_⟩
      exact Nat.mod_le i 65536
    · next hfind =>
      rw [if_pos (show fdp.nfiles ≥ lim from hfuel)]
      exact .inr ⟨_, rfl, h.none_free hfind hfuel⟩
  | succ fuel ih =>
    unfold Fd.fdallocLoop
    dsimp only
    split
    · next i hfind =>
      obtain ⟨hlowest, hlt⟩ := h.lowest hfind
      refine .inl ⟨i, _, rfl, hlowest, rfl, hlt, ?_⟩
      exact Nat.mod_le i 65536
    · next hfind =>
      split
      · next hge => exact .inr ⟨_, rfl, h.none_free hfind hge⟩
      · next hlt =>
        have hlarger : fdp.nfiles < if fdp.nfiles < ndextent then ndextent else 2 * fdp.nfiles := by
          split
          · assumption
          · next hextent =>
            have : ndextent ≤ fdp.nfiles := Nat.le_of_not_lt hextent
            have : 0 < ndextent := by decide
            omega
        have hfile := file_grow fdp (if fdp.nfiles < ndextent then ndextent else 2 * fdp.nfiles)
        have hnfiles := nfiles_grow (Nat.le_of_lt hlarger)
        have hfreefile : (fdp.grow (if fdp.nfiles < ndextent then ndextent else 2 * fdp.nfiles)).freefile = fdp.freefile := rfl
        generalize fdp.grow _ = fdp₁ at hfile hnfiles hfreefile ⊢
        have hhint : fdp₁.Hint := fun j hj => hfile ▸ h j (hfreefile ▸ hj)
        rcases ih hhint (by omega) with ⟨i, fdp', halloc, hlowest, hfile', hi⟩ | ⟨fdp', halloc, hzero⟩
        · refine .inl ⟨i, fdp', halloc, ⟨hlowest.le, hlowest.lt, hfile ▸ hlowest.free, hfile ▸ hlowest.least⟩, hfile'.trans hfile, hi⟩
        · refine .inr ⟨fdp', halloc, ?_⟩
          rwa [free, ← hfile]

theorem fdallocLoop_same {want fuel : Nat} {found : Option Nat} (h : Fd.fdallocLoop lim want fuel fdp = some (found, fdp')) :
    fdp'.file = fdp.file ∧ fdp'.refs = fdp.refs ∧ ∀ i, found = some i → fdp.file i = none ∧ i < fdp'.nfiles := by
  induction fuel generalizing fdp with
  | zero => cases h
  | succ fuel ih =>
    unfold Fd.fdallocLoop at h
    dsimp only at h
    split at h
    · next j hfind =>
      obtain ⟨hfound, rfl⟩ := Prod.mk.inj (Option.some.inj h)
      obtain ⟨-, hlt, hfree, -⟩ := fdsearch_some hfind
      refine ⟨rfl, rfl, fun i hi => ?_⟩
      obtain rfl : j = i := Option.some.inj (hfound.trans hi)
      exact ⟨hfree, Nat.lt_of_lt_of_le hlt (Nat.min_le_left ..)⟩
    · split at h
      · obtain ⟨hfound, rfl⟩ := Prod.mk.inj (Option.some.inj h)
        exact ⟨rfl, rfl, fun i hi => absurd (hfound.trans hi) (Option.some_ne_none i).symm⟩
      · obtain ⟨hfile, hrefs, hfound⟩ := ih h
        have hfile' := file_grow fdp (if fdp.nfiles < ndextent then ndextent else 2 * fdp.nfiles)
        exact ⟨hfile.trans hfile', hrefs.trans (refs_grow fdp _), fun i hi => hfile' ▸ hfound i hi⟩

theorem refs_fdfill {r : List Nat × Filedesc} (h : fdfill lim fps fdp = some r) (fp : Nat) : r.2.refs fp = fdp.refs fp + fps.count fp := by
  induction fps generalizing fdp r with
  | nil =>
    obtain rfl : ([], fdp) = r := Option.some.inj h
    rfl
  | cons g fps ih =>
    unfold fdfill at h
    split at h
    · next f fdp' halloc =>
      obtain ⟨r', hrest, rfl⟩ := Option.map_eq_some_iff.1 h
      obtain ⟨hfile, hrefs, hfound⟩ := fdallocLoop_same halloc
      obtain ⟨hfree, hlt⟩ := hfound f rfl
      have hset := refs_setFile hlt (some g) fp
      have hnone : ¬fdp'.file f = some fp := by
        rw [hfile, hfree]
        exact (Option.some_ne_none fp).symm
      rw [if_neg hnone, Nat.add_zero] at hset
      dsimp only
      rw [ih hrest, hset, congrFun hrefs fp, List.count_cons, Nat.add_assoc, Nat.add_comm (fps.count fp)]
      simp only [Option.some.injEq, beq_iff_eq]
    · cases h

theorem Hint.fdfill_iff (h : fdp.Hint) : (fdfill lim fps fdp).isSome = true ↔ fps.length ≤ fdp.free lim := by
  induction fps generalizing fdp with
  | nil => exact iff_of_true rfl (Nat.zero_le _)
  | cons fp fps ih =>
    rcases h.fdallocLoop (Nat.le_add_left lim fdp.nfiles) with ⟨i, fdp', halloc, hlowest, hfile, hlt, hfreefile⟩ | ⟨fdp', halloc, hzero⟩
    · have halloc' : fdalloc lim 0 fdp = some (some i, fdp') := halloc
      have hfree' : fdp'.free = fdp.free := by
        funext k
        rw [free, hfile, free]
      have hhint : (fdp'.setFile i (some fp)).Hint := by
        intro j hj
        have hji : j < i := Nat.lt_of_lt_of_le hj hfreefile
        rw [file_setFile hlt, Function.update_of_ne hji.ne, hfile]
        exact hlowest.least j (Nat.zero_le j) hji
      have hcount := free_setFile hlt hlowest.lt (hfile ▸ hlowest.free) fp
      rw [fdfill, halloc', List.length_cons, ← congrFun hfree' lim, ← hcount, Nat.succ_le_succ_iff, ← ih hhint]
      exact Bool.eq_iff_iff.1 Option.isSome_map
    · have halloc' : fdalloc lim 0 fdp = some (none, fdp') := halloc
      rw [fdfill, halloc', hzero]
      exact iff_of_false Bool.false_ne_true (Nat.not_succ_le_zero _)

/-- What `fdavail` says is right, and `unp_externalize` does not panic, unless free descriptors of the table lie at the limit or above
and those below it are too few. -/
theorem fdavail_sound_iff (h : fdp.Hint) {n : Nat} (hn : 0 < n) :
    ((fdavail lim fdp n = true → ∀ fps : List Nat, fps.length = n → (fdfill lim fps fdp).isSome = true) ∧
      ∀ fps : List Nat, fps.length = n → (unpExternalize lim fps fdp).isSome = true) ↔
    fdp.nfiles ≤ lim ∨ fdp.free fdp.nfiles < n ∨ n ≤ fdp.free lim := by
  have hcond : (fdp.nfiles ≤ lim ∨ fdp.free fdp.nfiles < n ∨ n ≤ fdp.free lim) ↔
      (fdavail lim fdp n = true → n ≤ fdp.free lim) := by
    rw [h.fdavail_iff hn]
    rcases Nat.le_total fdp.nfiles lim with hle | hge
    · rw [Nat.max_eq_left hle]
      exact iff_of_true (.inl hle) id
    · rw [Nat.max_eq_right hge]
      have hmono : fdp.free lim ≤ fdp.free fdp.nfiles := free_mono hge
      constructor
      · rintro (hle | hfew | henough) havail
        · exact Nat.le_antisymm hle hge ▸ havail
        · exact absurd hfew (Nat.not_lt_of_le havail)
        · exact henough
      · intro himp
        exact .inr ((Nat.lt_or_ge _ _).imp_right himp)
  rw [hcond]
  constructor
  · intro hsound havail
    have hfill := hsound.1 havail (List.replicate n 0) List.length_replicate
    rwa [h.fdfill_iff, List.length_replicate] at hfill
  · intro himp
    have hfill : fdavail lim fdp n = true → ∀ fps : List Nat, fps.length = n → (fdfill lim fps fdp).isSome = true :=
      fun havail fps hlen => h.fdfill_iff.2 (hlen ▸ himp havail)
    refine ⟨hfill, fun fps hlen => ?_⟩
    unfold unpExternalize
    rw [hlen]
    split
    · rfl
    · next havail =>
      rw [Option.isSome_map]
      exact hfill (Bool.eq_true_of_not_eq_false havail) fps hlen

def three : Filedesc where
  ofiles := some 0 :: some 1 :: some 2 :: List.replicate 17 none
  ofileflags := fun _ => 0
  lastfile := 2
  freefile := 3

theorem three_good : three.Good := by
  refine ⟨fun i hi => ?_, fun i hi => ?_, by decide, by decide, .small⟩
  · have hused : ∀ i < 3, three.file i ≠ none := by decide
    exact hused i hi
  · rcases Nat.lt_or_ge i 20 with hlt | hge
    · have hfree : ∀ i < 20, 2 < i → three.file i = none := by decide
      exact hfree i hlt hi
    · exact file_of_le hge

/-- With a limit of 4 there is a descriptor for a file. -/
theorem fdavail_sound_iff_three : (unpExternalize 4 [7] three).isSome = true :=
  ((fdavail_sound_iff three_good.below (by decide)).2 (.inr (.inr (by decide)))).2 [7] rfl

/-- The limit was lowered to 3 after the table was made. -/
theorem fdavail_beyond_limit : ¬∀ (fdp : Filedesc) (lim n : Nat), fdp.Good → 0 < n →
    (fdavail lim fdp n = true → ∀ fps : List Nat, fps.length = n → (fdfill lim fps fdp).isSome = true) ∧
      ∀ fps : List Nat, fps.length = n → (unpExternalize lim fps fdp).isSome = true := by
  intro hall
  have hpanics : (unpExternalize 3 [7] three).isSome = false := by decide
  exact Bool.false_ne_true (hpanics.symm.trans ((hall three 3 1 three_good (by decide)).2 [7] rfl))

end Filedesc

end NetBSD.Fd
