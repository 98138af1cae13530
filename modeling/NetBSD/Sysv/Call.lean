import NetBSD.Sysv.Semop

/-!
# Calls of `semop`

A call goes from its start or from a wakeup to where it sleeps or returns, as often as it has to sleep.
-/

namespace NetBSD.Sysv

def SemopArgs.Finds (a : SemopArgs) (s : Semaphores) : Prop :=
  (s.sema a.ix).semAlloc = true ∧ (s.sema a.ix).seq = a.seq

def Wakeup.released (a : SemopArgs) (w : Waiting) (wake : Wakeup) : Semaphores :=
  if wake.removed then wake.sys
  else
    { wake.sys with
      sem := countAt wake.sys.sem ((wake.sys.sema a.ix).semBase + w.sopptr.semNum) w.sopptr (-1) }

structure Stretch where
  woken : Option (Waiting × Wakeup)
  before : Semaphores
  prog : Progress
  after : Semaphores

/-- A call so far, with its last stretch in front. While it sleeps others leave the undo structures in order,
and a set that they do not remove is found again. -/
inductive Call (a : SemopArgs) : List Stretch → Prop where
  | start {s s' : Semaphores} {prog : Progress} : KeptUndos s.semuList →
      semopStart a s = some (prog, s') → Call a [⟨none, s, prog, s'⟩]
  | wake {st : Stretch} {rest : List Stretch} {w : Waiting} {wake : Wakeup} {prog : Progress}
      {s' : Semaphores} : Call a (st :: rest) → st.prog = .asleep w → KeptUndos wake.sys.semuList →
      (wake.removed = false → a.Finds wake.sys) → semopWake a w wake = some (prog, s') →
      Call a (⟨some (w, wake), wake.released a w, prog, s'⟩ :: st :: rest)

structure SemopArgs.Admitted (a : SemopArgs) (s : Semaphores) : Prop where
  ix : a.ix < semmsl
  finds : a.Finds s
  ipcperm : a.ipcperm = none
  nsops : a.sops.length ≤ maxSops
  copyin : a.copyin = none

/-- What the code relies on: a signal comes only when the set is gone; a set that is gone is not found; the
set is where it was; and the vector fits. -/
def Stretch.Careful (a : SemopArgs) (st : Stretch) : Prop :=
  match st.woken with
  | none => a.Admitted st.before → Fits a st.before
  | some (w, wake) =>
    if wake.interrupted then wake.removed = true
    else if wake.removed then ¬ a.Finds wake.sys
    else w.semptr = (wake.sys.sema a.ix).semBase + w.sopptr.semNum ∧ Fits a (wake.released a w)

variable {a : SemopArgs} {s s' : Semaphores} {prog : Progress} {w : Waiting} {wake : Wakeup}

theorem unchanged_refl (s : Semaphores) : Unchanged s s := ⟨rfl, rfl, fun _ _ _ => rfl⟩

theorem semopStart_spec (a : SemopArgs) (hkept : KeptUndos s.semuList) :
    ∃ prog s', semopStart a s = some (prog, s') ∧ KeptUndos s'.semuList ∧
      (AllOrNothing a s prog s' ↔ (a.Admitted s → Fits a s)) := by
  have hfail {e : Errno} (hnot : ¬ a.Admitted s) :
      ∃ prog s', some (Progress.returned (some e), s) = some (prog, s') ∧ KeptUndos s'.semuList ∧
        (AllOrNothing a s prog s' ↔ (a.Admitted s → Fits a s)) :=
    ⟨_, _, rfl, hkept, ⟨fun _ h => absurd h hnot, fun _ => unchanged_refl s⟩⟩
  unfold semopStart
  by_cases hset : a.ix ≥ semmsl ∨ (s.sema a.ix).semAlloc = false ∨ (s.sema a.ix).seq ≠ a.seq
  · rw [if_pos hset]
    refine hfail fun h => ?_
    obtain hix | halloc | hseq := hset
    · have hlt := h.ix
      omega
    · rw [h.finds.1] at halloc
      cases halloc
    · exact hseq h.finds.2
  rw [if_neg hset]
  cases hperm : a.ipcperm with
  | some e => exact hfail fun h => by have hnone := h.ipcperm; rw [hperm] at hnone; cases hnone
  | none =>
    simp only
    by_cases hlength : a.sops.length > maxSops
    · rw [if_pos hlength]
      exact hfail fun h => absurd h.nsops (Nat.not_le.mpr hlength)
    rw [if_neg hlength]
    cases hcopy : a.copyin with
    | some e => exact hfail fun h => by have hnone := h.copyin; rw [hcopy] at hnone; cases hnone
    | none =>
      have hadmitted : a.Admitted s := by
        push Not at hset
        exact ⟨hset.1, ⟨by simpa using hset.2.1, hset.2.2⟩, hperm, Nat.not_lt.mp hlength, hcopy⟩
      obtain ⟨prog, s', hround, hspec⟩ := semopRound_spec a false hkept
      refine ⟨prog, s', hround, hspec.kept, hspec.fits_iff.trans ⟨fun h _ => h, fun h => h hadmitted⟩⟩

def Sem.counts (s : Sem) : Word16 × Word16 := (s.semncnt, s.semzcnt)

theorem Sem.counts_await_ne (s : Sem) (op : Sembuf) : (s.await op (-1)).counts ≠ s.counts := by
  have hne (v : Word16) : v + -1 ≠ v := by
    intro h
    exact absurd (add_eq_left.mp h) (by decide)
  unfold await counts
  split_ifs
  · intro h
    exact hne _ (Prod.mk.inj h).2
  · intro h
    exact hne _ (Prod.mk.inj h).1

theorem Sem.counts_await_inj {s s' : Sem} {op : Sembuf} {n : Word16}
    (h : (s.await op n).counts = (s'.await op n).counts) : s.counts = s'.counts := by
  unfold await counts at h
  split_ifs at h
  · obtain ⟨hncnt, hzcnt⟩ := Prod.mk.inj h
    exact Prod.ext hncnt (add_right_cancel hzcnt)
  · obtain ⟨hncnt, hzcnt⟩ := Prod.mk.inj h
    exact Prod.ext (add_right_cancel hncnt) hzcnt

theorem AllOrNothing.counts (h : AllOrNothing a s prog s') (k : Nat) :
    (s'.sem k).counts = ((prog.register a s).sem k).counts := by
  cases prog with
  | asleep w => exact congrArg Sem.counts (congrFun (Unchanged.sem h) k)
  | returned error =>
    cases error with
    | none => exact Prod.ext (Applied.semncnt h k) (Applied.semzcnt h k)
    | some e => exact congrArg Sem.counts (congrFun (Unchanged.sem h) k)

theorem counts_of_register {s₁ s₂ : Semaphores} (hsema : s₁.sema = s₂.sema) (k : Nat)
    (h : ((prog.register a s₁).sem k).counts = ((prog.register a s₂).sem k).counts) :
    (s₁.sem k).counts = (s₂.sem k).counts := by
  cases prog with
  | returned error => exact h
  | asleep w =>
    simp only [Progress.register, hsema, countAt] at h
    by_cases hk : k = (s₂.sema a.ix).semBase + w.sopptr.semNum
    · rw [← hk, Function.update_self, Function.update_self] at h
      exact Sem.counts_await_inj h
    · rwa [Function.update_of_ne hk, Function.update_of_ne hk] at h

theorem countAt_self (sem : Nat → Sem) (k : Nat) (op : Sembuf) :
    (countAt sem k op (-1) k).counts ≠ (sem k).counts := by
  rw [countAt, Function.update_self]
  exact Sem.counts_await_ne _ _

theorem not_allOrNothing_of_counts (sys : Semaphores) {released : Semaphores} {k : Nat}
    (hsema : released.sema = sys.sema) (hcounts : (released.sem k).counts = (sys.sem k).counts)
    (hround : Round a { sys with sem := countAt sys.sem k w.sopptr (-1) } prog s') :
    ¬ AllOrNothing a released prog s' := by
  intro hall
  have hkept : (s'.sem k).counts = ((prog.register a _).sem k).counts :=
    Prod.ext (hround.counts k).1 (hround.counts k).2
  have hsema' : Semaphores.sema { sys with sem := countAt sys.sem k w.sopptr (-1) } = released.sema :=
    hsema.symm
  have hsame : (countAt sys.sem k w.sopptr (-1) k).counts = (released.sem k).counts :=
    counts_of_register hsema' k (hkept.symm.trans (hall.counts k))
  exact countAt_self _ _ _ (hsame.trans hcounts)

theorem careful_interrupted {before after : Semaphores} (h : wake.interrupted = true) :
    Stretch.Careful a ⟨some (w, wake), before, prog, after⟩ ↔ wake.removed = true :=
  iff_of_eq (if_pos h)

theorem careful_removed {before after : Semaphores} (h : wake.interrupted = false)
    (hrem : wake.removed = true) :
    Stretch.Careful a ⟨some (w, wake), before, prog, after⟩ ↔ ¬ a.Finds wake.sys :=
  iff_of_eq ((if_neg (by simp [h])).trans (if_pos hrem))

theorem careful_kept {before after : Semaphores} (h : wake.interrupted = false) (hrem : wake.removed = false) :
    Stretch.Careful a ⟨some (w, wake), before, prog, after⟩ ↔
      w.semptr = (wake.sys.sema a.ix).semBase + w.sopptr.semNum ∧ Fits a (wake.released a w) :=
  iff_of_eq ((if_neg (by simp [h])).trans (if_neg (by simp [hrem])))

theorem Wakeup.released_of_removed (h : wake.removed = true) : wake.released a w = wake.sys := if_pos h

theorem Wakeup.released_of_kept (h : wake.removed = false) : wake.released a w = { wake.sys with
    sem := countAt wake.sys.sem ((wake.sys.sema a.ix).semBase + w.sopptr.semNum) w.sopptr (-1) } :=
  if_neg (by simp [h])

theorem semopWake_spec (a : SemopArgs) (w : Waiting) (hkept : KeptUndos wake.sys.semuList)
    (hfinds : wake.removed = false → a.Finds wake.sys) :
    ∃ prog s', semopWake a w wake = some (prog, s') ∧ KeptUndos s'.semuList ∧
      (AllOrNothing a (wake.released a w) prog s' ↔
        Stretch.Careful a ⟨some (w, wake), wake.released a w, prog, s'⟩) := by
  unfold semopWake
  cases hint : wake.interrupted with
  | true =>
    refine ⟨_, _, rfl, hkept, ?_⟩
    rw [careful_interrupted hint]
    cases hrem : wake.removed with
    | true =>
      rw [Wakeup.released_of_removed hrem]
      exact ⟨fun _ => rfl, fun _ => unchanged_refl _⟩
    | false =>
      rw [Wakeup.released_of_kept hrem]
      refine ⟨fun hall => ?_, fun h => by cases h⟩
      have hsem : wake.sys.sem = countAt wake.sys.sem _ w.sopptr (-1) := Unchanged.sem hall
      exact absurd (congrArg Sem.counts (congrFun hsem _)).symm (countAt_self _ _ _)
  | false =>
    simp only [Bool.false_eq_true, if_false]
    by_cases hset : (wake.sys.sema a.ix).semAlloc = false ∨ (wake.sys.sema a.ix).seq ≠ a.seq
    · have hnot : ¬ a.Finds wake.sys := by
        rintro ⟨halloc, hseq⟩
        obtain h | h := hset
        · rw [halloc] at h
          cases h
        · exact h hseq
      rw [if_pos hset]
      refine ⟨_, _, rfl, hkept, ?_⟩
      cases hrem : wake.removed with
      | true =>
        rw [careful_removed hint hrem, Wakeup.released_of_removed hrem]
        exact ⟨fun _ => hnot, fun _ => unchanged_refl _⟩
      | false => exact absurd (hfinds hrem) hnot
    rw [if_neg hset]
    push Not at hset
    have hfound : a.Finds wake.sys := ⟨by simpa using hset.1, hset.2⟩
    obtain ⟨prog, s', hround, hspec⟩ := semopRound_spec a w.doUndos
      (show KeptUndos { wake.sys with
        sem := countAt wake.sys.sem w.semptr w.sopptr (-1) }.semuList from hkept)
    refine ⟨prog, s', hround, hspec.kept, ?_⟩
    cases hrem : wake.removed with
    | true =>
      rw [careful_removed hint hrem, Wakeup.released_of_removed hrem]
      refine ⟨fun hall => ?_, fun h => absurd hfound h⟩
      exact absurd hall (not_allOrNothing_of_counts wake.sys rfl rfl hspec)
    | false =>
      rw [careful_kept hint hrem]
      by_cases hptr : w.semptr = (wake.sys.sema a.ix).semBase + w.sopptr.semNum
      · rw [hptr, ← Wakeup.released_of_kept (w := w) hrem] at hspec
        exact hspec.fits_iff.trans ⟨fun h => ⟨hptr, h⟩, fun h => h.2⟩
      · rw [Wakeup.released_of_kept hrem]
        refine ⟨fun hall => ?_, fun h => absurd h.1 hptr⟩
        refine absurd hall (not_allOrNothing_of_counts wake.sys rfl ?_ hspec)
        simp only [countAt]
        rw [Function.update_of_ne hptr]

/-- **`semop` is all-or-nothing** in a call exactly when its stretches are careful. -/
theorem allOrNothing_iff {run : List Stretch} (h : Call a run) :
    (∀ st ∈ run, AllOrNothing a st.before st.prog st.after) ↔ ∀ st ∈ run, st.Careful a := by
  induction h with
  | start hkept hstep =>
    obtain ⟨prog, s', hstep', -, hiff⟩ := semopStart_spec a hkept
    obtain ⟨rfl, rfl⟩ := Prod.mk.inj (Option.some.inj (hstep.symm.trans hstep'))
    simp only [List.mem_singleton, forall_eq]
    exact hiff
  | @wake st rest w wake prog s' _ _ hkept hfinds hstep ih =>
    obtain ⟨prog, s', hstep', -, hiff⟩ := semopWake_spec a _ hkept hfinds
    obtain ⟨rfl, rfl⟩ := Prod.mk.inj (Option.some.inj (hstep.symm.trans hstep'))
    rw [List.forall_mem_cons, hiff, ih]
    exact List.forall_mem_cons.symm

def twoSemaphores (first second : Word16) : Semaphores where
  sema _ := { semAlloc := true, semNsems := 2 }
  sem k := { semval := if k = 0 then first else if k = 1 then second else 0 }
  semuList := []
  semmnu := 30

def moveOne : SemopArgs where
  p := 1
  semid := 0
  sops := [{ semNum := 0, semOp := -1, semUndo := true }, { semNum := 1, semOp := 1 }]

def moveWaits : Waiting := ⟨0, ⟨0, -1, false, true⟩, false⟩

def unitAdded : Wakeup where
  interrupted := false
  removed := false
  sys := { twoSemaphores 1 0 with sem := countAt (twoSemaphores 1 0).sem 0 moveWaits.sopptr 1 }

def tooFar : SemopArgs where
  p := 1
  semid := 0
  sops := [{ semNum := 0, semOp := 1 }, { semNum := 2, semOp := 1 }]

theorem keptUndos_nil : KeptUndos [] := ⟨by simp, by simp⟩

theorem moveOne_fits {s : Semaphores} (hsema : s.sema = (twoSemaphores 0 0).sema)
    (hfirst : AllPossible (s.sema 0) s.sem moveOne.sops → (s.sem 0).semval = 1)
    (hsecond : (s.sem 1).semval = 0) (hlist : s.semuList = []) : Fits moveOne s := by
  constructor
  · intro pre op post hops _ hnum
    rw [hsema] at hnum
    have hmem : op ∈ moveOne.sops := by rw [hops]; simp
    obtain rfl | rfl : op = ⟨0, -1, false, true⟩ ∨ op = ⟨1, 1, false, false⟩ := by simpa [moveOne] using hmem
    · exact absurd hnum (by decide)
    · exact absurd hnum (by decide)
  · intro hposs _
    rw [show moveOne.ix = 0 from rfl, hsema, hlist]
    constructor
    · intro k
      obtain rfl | rfl | hk : k = 0 ∨ k = 1 ∨ 2 ≤ k := by omega
      · rw [hfirst hposs]
        decide
      · rw [hsecond]
        decide
      · have htotal : total ((twoSemaphores 0 0).sema 0) moveOne.sops k = 0 := by
          have hne : k ≠ 0 ∧ k ≠ 1 := by omega
          simp [total, moveOne, twoSemaphores, hne.1.symm, hne.2.symm]
        have hlt := (s.sem k).semval.isLt
        rw [htotal]
        omega
    · intro num
      have htotal : undoTotal moveOne.sops num = if 0 = num then -1 else 0 := by simp [undoTotal, moveOne]
      have hnone : undoAt [] moveOne.p 0 num = 0 := rfl
      rw [htotal, hnone]
      split_ifs <;> decide

theorem tooFar_efbig : semopStart tooFar (twoSemaphores 0 0) = some (.returned (some .efbig),
    { twoSemaphores 0 0 with sem := addTo (twoSemaphores 0 0).sem 0 1 }) := rfl

theorem moveOne_allOrNothing : ∃ run, Call moveOne run ∧ run.length = 2 ∧
    ∀ st ∈ run, AllOrNothing moveOne st.before st.prog st.after := by
  have hstart : Call moveOne [⟨none, twoSemaphores 0 0, .asleep moveWaits, _⟩] := .start keptUndos_nil rfl
  have hwake : Call moveOne [⟨some (moveWaits, unitAdded), _, _, _⟩, _] :=
    .wake hstart rfl keptUndos_nil (fun _ => ⟨rfl, rfl⟩) rfl
  refine ⟨_, hwake, rfl, (allOrNothing_iff hwake).mpr ?_⟩
  refine List.forall_mem_cons.mpr ⟨?_, List.forall_mem_singleton.mpr ?_⟩
  · exact (careful_kept rfl rfl).mpr ⟨rfl, moveOne_fits rfl (fun _ => rfl) rfl rfl⟩
  · exact fun _ => moveOne_fits rfl (fun hposs => absurd (hposs.2.1.1 (by decide)) (by decide)) rfl rfl

theorem tooFar_not_allOrNothing :
    ∃ a run, Call a run ∧ ¬ ∀ st ∈ run, AllOrNothing a st.before st.prog st.after := by
  refine ⟨tooFar, _, .start keptUndos_nil tooFar_efbig, fun h => ?_⟩
  have hsame : Unchanged (twoSemaphores 0 0) _ := h _ (List.mem_singleton_self _)
  have hval := congrArg Sem.semval (congrFun hsame.sem 0)
  exact absurd hval (by decide)

end NetBSD.Sysv
