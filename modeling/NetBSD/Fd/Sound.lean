import NetBSD.Fd.Calls

/-!
# Descriptor tables over whole runs

From the first process on, tables stay good and the references counted while descriptors fit into a `u_short` and counts
into a `short`; the 32768th reference to a file makes its count negative.
-/

namespace NetBSD.Fd

open Lib

def Filedesc.init : Filedesc where
  ofiles := List.replicate ndfile none
  ofileflags := fun _ => 0
  lastfile := 0
  freefile := 0

namespace Sys

variable {s s' : Sys}

def Boot (s : Sys) : Prop :=
  (∃ rlimCur, s.procs = [⟨Filedesc.init, rlimCur⟩]) ∧ (∀ fp, s.fCount fp = none) ∧ s.rights = [] ∧ s.nfiles = 0

def step (s : Sys) (c : Call) : Option Sys := (s.call c).map Prod.snd

theorem file_init (fd : Nat) : Filedesc.init.file fd = none := by
  simp only [Filedesc.file, Filedesc.init, List.getElem?_replicate]
  split <;> rfl

theorem Boot.sound (hboot : s.Boot) : Sound s := by
  obtain ⟨⟨rlimCur, hprocs⟩, hfiles, hrights, -⟩ := hboot
  have hslots : ∀ fp, s.slots fp = 0 := by
    intro fp
    rw [slots, hprocs]
    simp only [List.map_cons, List.map_nil, List.sum_cons, List.sum_nil, Filedesc.refs, Filedesc.init, List.count_replicate,
      beq_iff_eq, reduceCtorEq, ↓reduceIte, Nat.add_zero]
  have hinflight : ∀ fp, s.inflight fp = 0 := fun fp => by rw [inflight, hrights, List.map_nil, List.count_nil]
  refine ⟨fun p hp => ?_, fun fp => ?_, fun fp => ?_⟩
  · rw [hprocs, List.mem_singleton] at hp
    subst hp
    exact ⟨fun i hlt => absurd hlt (Nat.not_lt_zero i), fun i _ => file_init i, show 0 < ndfile by decide,
      show 0 < 65536 by decide, .small⟩
  · rw [hfiles, hslots, hinflight, Option.getD_none]
    rfl
  · rw [hslots, hinflight]
    decide

theorem sound_of_runs (hruns : Runs Boot step (fun s c => s.Allowed c ∧ s.Careful c) s) : Sound s := by
  refine hruns.invariant (fun s hboot => hboot.sound) fun s c s' hs hok hstep => ?_
  obtain ⟨r, s₁, hcall, hs₁⟩ := call_returns hs hok.1 hok.2
  rw [step, hcall] at hstep
  exact Option.some.inj hstep ▸ hs₁

/-- In every state that careful calls lead to, `f_count` is the number of descriptors and of messages that refer to a file;
below `fd_freefile` all descriptors are in use, and none is above `fd_lastfile` or beyond the table; `fdalloc` takes the
lowest free descriptor that is asked for, if there is one; and a careful call returns. -/
theorem descriptors_sound (hruns : Runs Boot step (fun s c => s.Allowed c ∧ s.Careful c) s) :
    (∀ fp, match s.fCount fp with
      | some count => count = (s.slots fp + s.inflight fp : Nat)
      | none => s.slots fp + s.inflight fp = 0) ∧
    (∀ p ∈ s.procs, (∀ fd < p.fd.freefile, p.fd.file fd ≠ none) ∧ (∀ fd > p.fd.lastfile, p.fd.file fd = none) ∧
      ∀ fd ≥ p.fd.nfiles, p.fd.file fd = none) ∧
    (∀ p ∈ s.procs, ∀ want, s.CanTake p want → ∃ found fdp, Fd.fdalloc (s.lim p) want p.fd = some (found, fdp) ∧
      fdp.file = p.fd.file ∧ match found with
        | some fd => p.fd.Lowest (s.lim p) want fd
        | none => ∀ fd, want ≤ fd → fd < s.lim p → p.fd.file fd ≠ none) ∧
    ∀ c, s.Allowed c → s.Careful c → ∃ r s', s.call c = some (r, s') := by
  have hs := sound_of_runs hruns
  refine ⟨fun fp => ?_, fun p hp => ?_, fun p hp want htake => ?_, fun c hallowed hcareful => ?_⟩
  · have hcount := hs.counts.count fp
    split
    · next count hsome => rwa [hsome, Option.getD_some] at hcount
    · next hnone =>
      rw [hnone, Option.getD_none] at hcount
      exact (Int.natCast_eq_zero.1 hcount.symm)
  · have hg := hs.good p hp
    exact ⟨hg.below, hg.above, fun fd => Filedesc.file_of_le⟩
  · have halloc := (hs.good p hp).fdalloc htake
    generalize Fd.fdalloc (s.lim p) want p.fd = found at halloc ⊢
    cases halloc with
    | taken hlow hgrown hle => exact ⟨_, _, rfl, hgrown.file, hlow⟩
    | full hfull hgrown =>
      exact ⟨_, _, rfl, hgrown.file, fun fd hle hlt hfree => hfull ⟨fd, hle, hlt, hfree⟩⟩
  · obtain ⟨r, s', hcall, -⟩ := call_returns hs hallowed hcareful
    exact ⟨r, s', hcall⟩

def oneProcess : Sys where
  procs := [⟨Filedesc.init, 40000⟩]
  fCount := fun _ => none
  rights := []
  nfiles := 0
  maxfiles := 40000

def dups (n : Nat) : List Call := .falloc 0 0 :: (List.range n).map fun k => .dup2 0 0 (k + 1)

structure Filled (n : Nat) (s : Sys) : Prop where
  sound : Sound s
  proc : ∃ fdp, s.procs = [⟨fdp, 40000⟩] ∧ (∀ fd, fdp.file fd = if fd < n then some 0 else none) ∧ fdp.refs 0 = n
  rights : s.rights = []
  maxfiles : s.maxfiles = 40000

def oneFile : Sys where
  procs := [⟨{ Filedesc.init.setFile 0 (some 0) with ofileflags := Function.update (fun _ => 0) 0 0 }, 40000⟩]
  fCount := Function.update (fun _ => none) 0 (some 1)
  rights := []
  nfiles := 1
  maxfiles := 40000

theorem oneProcess_boot : oneProcess.Boot := ⟨⟨40000, rfl⟩, fun _ => rfl, rfl, rfl⟩

theorem filled_oneFile : Filled 1 oneFile where
  sound := by
    obtain ⟨r, s, hcall, hsound⟩ := falloc_returns oneProcess_boot.sound
      (show oneProcess.procs[0]? = some ⟨Filedesc.init, 40000⟩ from rfl) (show oneProcess.fCount 0 = none from rfl)
      fun _ => ⟨0, by decide, Nat.le_refl 0, file_init 0⟩
    have hsome : some (Except.ok 0, oneFile) = some (r, s) := hcall
    have heq : s = oneFile := (Prod.ext_iff.1 (Option.some.inj hsome)).2.symm
    exact heq ▸ hsound
  proc := by
    refine ⟨_, rfl, fun fd => ?_, rfl⟩
    change (Filedesc.init.setFile 0 (some 0)).file fd = _
    rw [Filedesc.file_setFile (by decide), Function.update_apply, file_init]
    split_ifs <;> first | rfl | omega
  rights := rfl
  maxfiles := rfl

theorem descriptors_sound_one : (1 : Int) = (oneFile.slots 0 + oneFile.inflight 0 : Nat) ∧
    ∃ r s', oneFile.call (.close 0 0) = some (r, s') := by
  have hcareful : oneProcess.Careful (.falloc 0 0) := fun p hp => by
    obtain rfl : (⟨Filedesc.init, 40000⟩ : Proc) = p := Option.some.inj hp
    exact fun _ => ⟨0, by decide, Nat.le_refl 0, file_init 0⟩
  have hruns : Runs Boot step (fun s c => s.Allowed c ∧ s.Careful c) oneFile :=
    .call (.falloc 0 0) (.start oneProcess_boot) ⟨⟨Nat.zero_lt_one, rfl⟩, hcareful⟩ rfl
  obtain ⟨hcounts, -, -, hreturns⟩ := descriptors_sound hruns
  exact ⟨hcounts 0, hreturns (.close 0 0) Nat.zero_lt_one trivial⟩

theorem Filled.slots {n : Nat} (hf : Filled n s) : s.slots 0 = n ∧ s.inflight 0 = 0 := by
  obtain ⟨fdp, hprocs, -, hrefs⟩ := hf.proc
  rw [Sys.slots, hprocs, inflight, hf.rights]
  exact ⟨(Nat.add_zero _).trans hrefs, rfl⟩

theorem Filled.allowed {n : Nat} (hf : Filled n s) : s.Allowed (.dup2 0 0 n) := by
  obtain ⟨fdp, hprocs, -⟩ := hf.proc
  change 0 < s.procs.length
  rw [hprocs]
  exact Nat.zero_lt_one

theorem Filled.dup2 {n : Nat} (hf : Filled n s) (hpos : 0 < n) (hlt : n < 40000) :
    ∃ p fdp, s.step (.dup2 0 0 n) = ((s.setFd 0 fdp).finishdup 0 fdp 0 n).map Prod.snd ∧ s.procs = [p] ∧
      p.rlimCur = 40000 ∧ p.fd.Grown fdp ∧ n < fdp.nfiles ∧ (∀ fd, p.fd.file fd = if fd < n then some 0 else none) ∧
      p.fd.refs 0 = n := by
  obtain ⟨fdp, hprocs, hfile, hrefs⟩ := hf.proc
  have hp : s.procs[0]? = some ⟨fdp, 40000⟩ := by rw [hprocs]; rfl
  have hold : fdp.file 0 = some 0 := (hfile 0).trans (if_pos hpos)
  have hfree : fdp.file n = none := (hfile n).trans (if_neg (Nat.lt_irrefl n))
  obtain ⟨fdp', hrun, hgrown, hroom⟩ := dup2_eq hf.sound hp hold hlt (hf.maxfiles ▸ hlt) (Nat.ne_of_lt hpos) hfree (by omega)
  refine ⟨⟨fdp, 40000⟩, fdp', ?_, hprocs, rfl, hgrown, hroom, hfile, hrefs⟩
  rw [step, call, hp]
  change (s.dup2 0 0 n ⟨fdp, 40000⟩).map Prod.snd = _
  rw [hrun]

theorem Filled.next {n : Nat} (hf : Filled n s) (hpos : 0 < n) (hlt : n < 32767) :
    ∃ s', s.step (.dup2 0 0 n) = some s' ∧ Filled (n + 1) s' := by
  obtain ⟨p, fdp, hrun, hprocs, hlim, hgrown, hroom, hfile, hrefs⟩ := hf.dup2 hpos (by omega)
  have hp : s.procs[0]? = some p := by rw [hprocs]; rfl
  have hold : p.fd.file 0 = some 0 := (hfile 0).trans (if_pos hpos)
  have hfree : p.fd.file n = none := (hfile n).trans (if_neg (Nat.lt_irrefl n))
  obtain ⟨hslots, hinflight⟩ := hf.slots
  obtain ⟨s₁, hs₁, hf₁, hsound⟩ := finishdup_free hf.sound hp hgrown hroom (by omega) hfree hold (by omega)
  refine ⟨s₁.setFd 0 (fdp.finishdup 0 n), ?_, hsound, ⟨fdp.finishdup 0 n, ?_, fun fd => ?_, ?_⟩, ?_, ?_⟩
  · rw [hrun, hs₁]
    rfl
  · rw [setFd, hf₁.procs, setFd, hprocs, ← hlim]
    rfl
  · rw [Filedesc.file_finishdup hroom, hgrown.file, hold, Function.update_apply, hfile]
    split_ifs <;> first | rfl | omega
  · have hsum := Filedesc.refs_finishdup 0 hroom 0
    rw [hgrown.file, hfree, hold, hgrown.refs, hrefs] at hsum
    exact hsum
  · exact List.sublist_nil.1 (hf.rights ▸ hf₁.rights)
  · exact hf₁.maxfiles.trans hf.maxfiles

theorem dups_succ (n : Nat) : dups (n + 1) = dups n ++ [.dup2 0 0 (n + 1)] := by
  simp only [dups, List.range_succ, List.map_append, List.map_cons, List.map_nil, List.cons_append]

theorem run_dups {n : Nat} {s' : Sys} (hs : (dups n).foldlM step oneProcess = some s)
    (hstep : s.step (.dup2 0 0 (n + 1)) = some s') : (dups (n + 1)).foldlM step oneProcess = some s' := by
  rw [dups_succ, List.foldlM_append, hs]
  simp only [Option.bind_eq_bind, Option.bind_some, List.foldlM_cons, List.foldlM_nil, hstep]
  rfl

theorem filled_dups {n : Nat} (hlt : n < 32767) :
    ∃ s, (dups n).foldlM step oneProcess = some s ∧ Runs Boot step Allowed s ∧ Filled (n + 1) s := by
  induction n with
  | zero =>
    have hfirst : Runs Boot step Allowed oneFile :=
      .call (.falloc 0 0) (.start oneProcess_boot) ⟨Nat.zero_lt_one, rfl⟩ rfl
    exact ⟨oneFile, rfl, hfirst, filled_oneFile⟩
  | succ n ih =>
    obtain ⟨s, hs, hruns, hf⟩ := ih (by omega)
    obtain ⟨s', hs', hf'⟩ := hf.next (Nat.succ_pos n) hlt
    exact ⟨s', run_dups hs hs', hruns.call (.dup2 0 0 (n + 1)) hf.allowed hs', hf'⟩

/-- After 32767 duplicates of a descriptor there are 32768 references to the file, and `f_count` is below zero. -/
theorem references_wrap : ∃ s, (dups 32767).foldlM step oneProcess = some s ∧ Runs Boot step Allowed s ∧
    s.fCount 0 = some (-32768) ∧ s.slots 0 + s.inflight 0 = 32768 := by
  obtain ⟨s, hs, hruns, hf⟩ := filled_dups (n := 32766) (by decide)
  obtain ⟨p, fdp, hrun, hprocs, hlim, hgrown, hroom, hfile, hrefs⟩ := hf.dup2 (by decide) (by decide)
  obtain ⟨hslots, hinflight⟩ := hf.slots
  have hcount : s.fCount 0 = some 32767 := by
    have h := hf.sound.counts.count 0
    rw [hslots, hinflight] at h
    cases hsome : s.fCount 0 with
    | none =>
      rw [hsome] at h
      exact absurd h (by decide)
    | some count =>
      rw [hsome] at h
      exact congrArg some h
  have hold : fdp.file 0 = some 0 := hgrown.file ▸ hfile 0
  have hstep : s.step (.dup2 0 0 32767) = some ({ s.setFd 0 fdp with
      fCount := Function.update s.fCount 0 (some (-32768)) }.setFd 0 (fdp.finishdup 0 32767)) := by
    have hhold : (s.setFd 0 fdp).hold 0 = some { s.setFd 0 fdp with
        fCount := Function.update s.fCount 0 (some (-32768)) } := by
      change (s.fCount 0).map _ = _
      rw [hcount]
      rfl
    rw [hrun, finishdup, hold]
    dsimp only
    rw [hhold]
    rfl
  have hsum := Filedesc.refs_finishdup 0 hroom 0
  rw [hold, hgrown.file, hfile, hgrown.refs, hrefs] at hsum
  refine ⟨_, run_dups hs hstep, hruns.call _ hf.allowed hstep, ?_, ?_⟩
  · change Function.update s.fCount 0 (some (-32768)) 0 = some (-32768)
    exact Function.update_self ..
  · have hrefs' : (fdp.finishdup 0 32767).refs 0 = 32768 := hsum
    rw [Sys.slots, setFd, setFd, hprocs]
    change (fdp.finishdup 0 32767).refs 0 + 0 + s.inflight 0 = 32768
    rw [hrefs', hinflight]

end Sys

end NetBSD.Fd
