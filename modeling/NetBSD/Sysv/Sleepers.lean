import NetBSD.Sysv.Pool
import NetBSD.Sysv.Call

/-!
# The counts of waiting processes

`semncnt` and `semzcnt` against the processes that sleep in `semop`. The count of a call is raised before it sleeps
and lowered when it goes on, but not when a signal ends the sleep, and at the place where the semaphore was before.
-/

namespace NetBSD.Sysv

open Function (update)

def pidMax : Nat := 30000

def Sem.count (s : Sem) (zero : Bool) : Word16 := if zero then s.semzcnt else s.semncnt

def Asleep.waits (t : Asleep) (sema : Nat → SemidDs) (j num : Nat) (zero : Bool) : Bool :=
  t.args.ix = j ∧ t.args.seq = (sema j).seq ∧ t.waiting.sopptr.semNum = num ∧
    decide (t.waiting.sopptr.semOp = 0) = zero

def Facility.waiters (s : Facility) (j num : Nat) (zero : Bool) : Nat :=
  s.asleep.countP fun t => t.waits s.sema j num zero

/-- What the counts rely on: a process whose set is there is not woken by a signal, and its semaphore is where it was; a
new set does not get the identifier of one that is gone and that a process still sleeps on. -/
def Facility.Heeds (info : Seminfo) (s : Facility) : SemCall → Prop
  | .semget key nsems creat excl ipcperm =>
    ∀ t ∈ s.asleep, t.args.Finds (semget info key nsems creat excl ipcperm s).2.toSemaphores →
      t.args.Finds s.toSemaphores
  | .semop a => a.p ≤ pidMax
  | .wake i interrupted =>
    ∀ t, s.asleep[i]? = some t → t.args.Finds s.toSemaphores → interrupted = false ∧
      t.waiting.semptr = (s.sema t.args.ix).semBase + t.waiting.sopptr.semNum
  | _ => True

def Facility.ReachedHeeding (info : Seminfo) : Facility → Prop :=
  Lib.Runs Facility.Initial (Facility.step info) fun s call => s.Allowed call ∧ s.Heeds info call

variable {info : Seminfo} {s s' : Facility} {a : SemopArgs} {t : Asleep} {j num : Nat} {zero : Bool}

theorem Sem.count_await (x : Sem) (op : Sembuf) (n : Word16) :
    (x.await op n).count zero = x.count zero + if decide (op.semOp = 0) = zero then n else 0 := by
  unfold count await
  by_cases hop : op.semOp = 0
  · rw [if_pos hop, decide_eq_true hop]
    cases zero <;> simp
  · rw [if_neg hop, decide_eq_false hop]
    cases zero <;> simp

theorem count_countAt (sem : Nat → Sem) (k k' : Nat) (op : Sembuf) (n : Word16) :
    (countAt sem k op n k').count zero =
      (sem k').count zero + if k' = k ∧ decide (op.semOp = 0) = zero then n else 0 := by
  unfold countAt
  by_cases hk : k' = k
  · subst hk
    rw [Function.update_self, Sem.count_await]
    simp
  · rw [Function.update_of_ne hk, if_neg fun h => hk h.1, add_zero]

theorem count_setSemval (sem : Nat → Sem) (k k' : Nat) (val : Word16) :
    (setSemval sem k val k').count zero = (sem k').count zero := by
  unfold setSemval
  by_cases hk : k' = k
  · subst hk
    rw [Function.update_self]
    rfl
  · rw [Function.update_of_ne hk]

theorem count_setAll (semBase : Nat) (array : Nat → Option Word16) (n i : Nat) (sem : Nat → Sem) (k : Nat) :
    ((setAll semBase array n i sem).2 k).count zero = (sem k).count zero := by
  induction n generalizing i sem with
  | zero => rfl
  | succ n ih =>
    unfold setAll
    cases array i with
    | none => rfl
    | some val => exact (ih (i + 1) _).trans (count_setSemval sem _ k val)

theorem count_exitEntries {sema : Nat → SemidDs} {ents : List Undo} {sem sem' : Nat → Sem}
    (h : exitEntries sema ents sem = some sem') (k : Nat) : (sem' k).count zero = (sem k).count zero := by
  induction ents generalizing sem with
  | nil =>
    obtain rfl := Option.some.inj h
    rfl
  | cons u ents ih =>
    unfold exitEntries at h
    dsimp only at h
    split at h
    · cases h
    · rw [ih h]
      by_cases hk : k = (sema u.unId).semBase + u.unNum
      · subst hk
        rw [Function.update_self]
        unfold Sem.adjust
        split <;> rfl
      · rw [Function.update_of_ne hk]

theorem semopRound_counts {doUndos : Bool} {s s' : Semaphores} {prog : Progress}
    (h : semopRound a doUndos s = some (prog, s')) :
    (∃ e, prog = .returned e ∧ ∀ k zero, (s'.sem k).count zero = (s.sem k).count zero) ∨
      ∃ w, prog = .asleep w ∧ w.semptr = (s.sema a.ix).semBase + w.sopptr.semNum ∧
        w.sopptr.semNum < (s.sema a.ix).semNsems ∧
        ∀ k zero, (s'.sem k).count zero = (countAt s.sem w.semptr w.sopptr 1 k).count zero := by
  obtain ⟨pre, rest, htried⟩ := tryOps_spec (s.sema a.ix) a.sops ⟨0, s.sem, doUndos, none⟩ rfl
  have hsem : ∀ k zero, ((tryOps (s.sema a.ix) a.sops ⟨0, s.sem, doUndos, none⟩).sem k).count zero =
      (s.sem k).count zero := fun k zero => by
    rw [htried.sem, carry_apply]
    rfl
  unfold semopRound at h
  dsimp only at h
  obtain ⟨-, hstop⟩ | ⟨op, post, rfl, ⟨-, hstop⟩ | ⟨hnum, -, hstop⟩⟩ := htried.stop
  · rw [hstop] at h
    obtain ⟨⟨e, list⟩, -, heq⟩ := Option.map_eq_some_iff.mp h
    cases e with
    | some e =>
      obtain ⟨rfl, rfl⟩ := Prod.mk.inj heq
      refine .inl ⟨some e, rfl, fun k zero => ?_⟩
      exact (congrArg (Sem.count · zero) (rollback_apply _ _ _ k)).trans (hsem k zero)
    | none =>
      obtain ⟨rfl, rfl⟩ := Prod.mk.inj heq
      refine .inl ⟨none, rfl, fun k zero => ?_⟩
      obtain ⟨pid, hpid⟩ := setPids_apply (s.sema a.ix) a.p a.sops
        (tryOps (s.sema a.ix) a.sops ⟨0, s.sem, doUndos, none⟩).sem k
      exact (congrArg (Sem.count · zero) hpid).trans (hsem k zero)
  · rw [hstop] at h
    obtain ⟨rfl, rfl⟩ := Prod.mk.inj (Option.some.inj h)
    exact .inl ⟨_, rfl, hsem⟩
  · rw [hstop] at h
    have htake : a.sops.take (tryOps (s.sema a.ix) a.sops ⟨0, s.sem, doUndos, none⟩).i = pre := by
      rw [htried.i, htried.split]
      simp
    simp only [htake, htried.sem, rollback_carry] at h
    split at h
    · obtain ⟨rfl, rfl⟩ := Prod.mk.inj (Option.some.inj h)
      exact .inl ⟨_, rfl, fun k zero => rfl⟩
    · obtain ⟨rfl, rfl⟩ := Prod.mk.inj (Option.some.inj h)
      exact .inr ⟨_, rfl, rfl, hnum, fun k zero => rfl⟩

structure Counted (info : Seminfo) (s : Facility) : Prop where
  pooled : Pooled info s
  numbered : ∀ t ∈ s.asleep, t.args.Finds s.toSemaphores →
    t.waiting.sopptr.semNum < (s.sema t.args.ix).semNsems
  counts : ∀ j num zero, (s.sema j).semAlloc = true → num < (s.sema j).semNsems →
    (s.semAt j num).count zero = BitVec.ofNat 16 (s.waiters j num zero)
  procs : (s.asleep.map fun t => t.args.p).Nodup
  pids : ∀ t ∈ s.asleep, t.args.p ≤ pidMax

theorem Asleep.waits_congr {sema sema' : Nat → SemidDs} (h : (sema' j).seq = (sema j).seq) :
    t.waits sema' j num zero = t.waits sema j num zero := by
  unfold waits
  rw [h]

theorem waiters_congr (hasleep : s'.asleep = s.asleep) (hseq : (s'.sema j).seq = (s.sema j).seq) :
    s'.waiters j num zero = s.waiters j num zero := by
  unfold Facility.waiters
  rw [hasleep]
  exact List.countP_congr fun t _ => iff_of_eq (congrArg (· = true) (Asleep.waits_congr hseq))

theorem Counted.keep (h : Counted info s) (hpooled : Pooled info s') (hasleep : s'.asleep = s.asleep)
    (hsets : ∀ j, (s'.sema j).semAlloc = true →
      ((s.sema j).semAlloc = true ∧ (s'.sema j).seq = (s.sema j).seq ∧
        (s'.sema j).semNsems = (s.sema j).semNsems ∧
        ∀ num < (s.sema j).semNsems, ∀ zero, (s'.semAt j num).count zero = (s.semAt j num).count zero) ∨
      ((∀ t ∈ s.asleep, t.args.ix = j → t.args.seq ≠ (s'.sema j).seq) ∧
        ∀ num < (s'.sema j).semNsems, ∀ zero, (s'.semAt j num).count zero = 0)) : Counted info s' where
  pooled := hpooled
  numbered t ht hfinds := by
    rw [hasleep] at ht
    rcases hsets t.args.ix hfinds.1 with ⟨halloc, hseq, hnsems, -⟩ | ⟨hnew, -⟩
    · rw [hnsems]
      exact h.numbered t ht ⟨halloc, hseq.symm.trans hfinds.2⟩
    · exact absurd hfinds.2.symm (hnew t ht rfl)
  counts j num zero hj hnum := by
    rcases hsets j hj with ⟨halloc, hseq, hnsems, hcounts⟩ | ⟨hnew, hzero⟩
    · rw [hnsems] at hnum
      rw [hcounts num hnum, waiters_congr hasleep hseq]
      exact h.counts j num zero halloc hnum
    · have hnone : s'.waiters j num zero = 0 := by
        unfold Facility.waiters
        rw [hasleep]
        refine List.countP_eq_zero.mpr fun t ht hwaits => ?_
        simp only [Asleep.waits, decide_eq_true_eq] at hwaits
        exact hnew t ht hwaits.1 hwaits.2.1
      rw [hzero num hnum, hnone]
      rfl
  procs := by
    rw [hasleep]
    exact h.procs
  pids := by
    rw [hasleep]
    exact h.pids

theorem Counted.recount (h : Counted info s) (hsema : s'.sema = s.sema) (hsemtot : s'.semtot = s.semtot)
    (hasleep : s'.asleep = s.asleep) (hcounts : ∀ k zero, (s'.sem k).count zero = (s.sem k).count zero) :
    Counted info s' := by
  refine h.keep (h.pooled.congr hsema hsemtot) hasleep fun j hj => .inl ?_
  rw [hsema] at hj ⊢
  refine ⟨hj, rfl, rfl, fun num _ zero => ?_⟩
  unfold Facility.semAt
  rw [hsema]
  exact hcounts _ zero

theorem waits_iff : t.waits s.sema j num zero = true ↔ t.args.ix = j ∧ t.args.seq = (s.sema j).seq ∧
    t.waiting.sopptr.semNum = num ∧ decide (t.waiting.sopptr.semOp = 0) = zero := by
  simp [Asleep.waits]

theorem ofNat_succ (n : Nat) : BitVec.ofNat 16 (n + 1) = BitVec.ofNat 16 n + 1 := by
  rw [BitVec.ofNat_add]
  rfl

theorem Counted.count_place (h : Counted info s) (hfinds : t.args.Finds s.toSemaphores)
    (hplace : t.waiting.semptr = (s.sema t.args.ix).semBase + t.waiting.sopptr.semNum)
    (hbound : t.waiting.sopptr.semNum < (s.sema t.args.ix).semNsems) (hj : (s.sema j).semAlloc = true)
    (hnum : num < (s.sema j).semNsems) (n : Word16) :
    (countAt s.sem t.waiting.semptr t.waiting.sopptr n ((s.sema j).semBase + num)).count zero =
      (s.semAt j num).count zero + if t.waits s.sema j num zero then n else 0 := by
  rw [count_countAt]
  refine congrArg ((s.semAt j num).count zero + ·) (if_congr ?_ rfl rfl)
  rw [waits_iff, hplace]
  constructor
  · rintro ⟨heq, hzero⟩
    obtain ⟨rfl, rfl⟩ := h.pooled.place_inj hfinds.1 hj hbound hnum heq
    exact ⟨rfl, hfinds.2.symm, rfl, hzero⟩
  · rintro ⟨rfl, -, rfl, hzero⟩
    exact ⟨rfl, hzero⟩

theorem Counted.goes (h : Counted info s) (hfinds : a.Finds s.toSemaphores)
    (hnot : ∀ t ∈ s.asleep, t.args.p ≠ a.p) (hp : a.p ≤ pidMax) {doUndos : Bool} {r : Progress × Semaphores}
    (hround : semopRound a doUndos s.toSemaphores = some r) : Counted info (s.goes a r) := by
  obtain ⟨prog, sys⟩ := r
  have hsema : sys.sema = s.sema := semopRound_sema hround
  obtain ⟨e, rfl, hcounts⟩ | ⟨w, rfl, hplace, hbound, hcounts⟩ := semopRound_counts hround
  · exact h.recount hsema rfl rfl hcounts
  · have hgoes : s.goes a (.asleep w, sys) =
        { s with toSemaphores := sys, asleep := s.asleep ++ [⟨a, w⟩] } := rfl
    rw [hgoes]
    have hsemaj : ∀ j, (sys.sema j) = s.sema j := fun j => congrFun hsema j
    exact {
      pooled := h.pooled.congr hsema rfl
      numbered := fun t ht hfinds' => by
        simp only [SemopArgs.Finds, hsemaj] at hfinds' ⊢
        rcases List.mem_append.mp ht with ht | ht
        · exact h.numbered t ht hfinds'
        · obtain rfl := List.mem_singleton.mp ht
          exact hbound
      counts := fun j num zero hj hnum => by
        simp only [hsemaj, Facility.semAt, Facility.waiters] at hj hnum ⊢
        rw [hcounts, h.count_place (t := ⟨a, w⟩) hfinds hplace hbound hj hnum, h.counts j num zero hj hnum,
          List.countP_append, List.countP_singleton]
        have hsame : (List.countP (fun t : Asleep => t.waits sys.sema j num zero) s.asleep) =
            s.waiters j num zero :=
          List.countP_congr fun t _ => iff_of_eq (congrArg (· = true) (Asleep.waits_congr (by rw [hsemaj])))
        have hlast : (Asleep.mk a w).waits sys.sema j num zero = (Asleep.mk a w).waits s.sema j num zero :=
          Asleep.waits_congr (by rw [hsemaj])
        rw [hsame, hlast]
        split
        · rw [ofNat_succ]
        · rw [add_zero, Nat.add_zero]
      procs := by
        rw [List.map_append, List.nodup_append]
        refine ⟨h.procs, by simp, fun p hp q hq heq => ?_⟩
        obtain ⟨t, ht, rfl⟩ := List.mem_map.mp hp
        obtain rfl : q = a.p := by simpa using hq
        exact hnot t ht heq
      pids := fun t ht => by
        rcases List.mem_append.mp ht with ht | ht
        · exact h.pids t ht
        · obtain rfl := List.mem_singleton.mp ht
          exact hp }

theorem Counted.wakes (h : Counted info s) {i : Nat} (ht : s.asleep[i]? = some t) (sem : Nat → Sem)
    (hsem : ∀ j num zero, (s.sema j).semAlloc = true → num < (s.sema j).semNsems →
      (sem ((s.sema j).semBase + num)).count zero =
        (s.semAt j num).count zero + if t.waits s.sema j num zero then -1 else 0) :
    Counted info { s with sem, asleep := s.asleep.eraseIdx i } := by
  obtain ⟨hlt, rfl⟩ := List.getElem?_eq_some_iff.mp ht
  have hperm := List.getElem_cons_eraseIdx_perm hlt
  have hmem : ∀ t ∈ s.asleep.eraseIdx i, t ∈ s.asleep := fun t ht => List.mem_of_mem_eraseIdx ht
  exact {
    pooled := h.pooled.congr rfl rfl
    numbered := fun t ht hfinds => h.numbered t (hmem t ht) hfinds
    counts := fun j num zero hj hnum => by
      have hcount := hperm.countP_eq fun t => t.waits s.sema j num zero
      have hold := h.counts j num zero hj hnum
      rw [List.countP_cons] at hcount
      unfold Facility.waiters at hold
      refine (hsem j num zero hj hnum).trans ?_
      rw [hold, ← hcount]
      unfold Facility.waiters
      split
      · rw [ofNat_succ, add_neg_cancel_right]
      · rw [add_zero, Nat.add_zero]
    procs := h.procs.sublist ((List.eraseIdx_sublist s.asleep i).map _)
    pids := fun t ht => h.pids t (hmem t ht) }

theorem Counted.created (h : Counted info s) {i n : Nat} (key : Int) (hi : i < info.semmni)
    (hfree : (s.sema i).semAlloc = false) (hn : 0 < n) (hroom : s.semtot + n ≤ info.semmns)
    (hfresh : ∀ t ∈ s.asleep, t.args.Finds (s.created i key n).toSemaphores → t.args.Finds s.toSemaphores) :
    Counted info (s.created i key n) := by
  have hself : (s.created i key n).sema i =
      { semAlloc := true, seq := ((s.sema i).seq + 1) % 2 ^ 15, semBase := s.semtot, semNsems := n } :=
    Function.update_self i _ _
  have hother : ∀ j, j ≠ i → (s.created i key n).sema j = s.sema j := fun j hj => Function.update_of_ne hj _ _
  have hpooled : Pooled info (s.created i key n) := by
    refine ⟨h.pooled.partitioned.created key hi hfree hn hroom, fun j hj => ?_⟩
    by_cases hji : j = i
    · exact hji ▸ hi
    · rw [hother j hji] at hj
      exact h.pooled.inArray j hj
  refine h.keep hpooled rfl fun j hj => ?_
  by_cases hji : j = i
  · subst hji
    refine .inr ⟨fun t ht hix hseq => ?_, fun num hnum zero => ?_⟩
    · have hfinds := hfresh t ht ⟨by rw [hix, hself], by rw [hix, hseq]⟩
      have halloc := hfinds.1
      rw [hix, hfree] at halloc
      cases halloc
    · rw [hself] at hnum
      unfold Facility.semAt
      rw [hself]
      have hnew : (s.created j key n).sem (s.semtot + num) = {} := if_pos ⟨by omega, Nat.add_lt_add_left hnum _⟩
      rw [hnew]
      cases zero <;> rfl
  · rw [hother j hji] at hj ⊢
    refine .inl ⟨hj, rfl, rfl, fun num hnum zero => ?_⟩
    unfold Facility.semAt
    rw [hother j hji]
    obtain ⟨l, -, hmem, htiles, -⟩ := h.pooled.partitioned
    have hbounds := htiles.bounds ((hmem j).mpr ⟨h.pooled.inArray j hj, hj⟩)
    have hold : (s.created i key n).sem ((s.sema j).semBase + num) = s.sem ((s.sema j).semBase + num) :=
      if_neg fun hc => by omega
    rw [hold]

theorem Counted.rmid (h : Counted info s) {ix : Nat} (halloc : (s.sema ix).semAlloc = true) :
    Counted info (s.rmid info ix) := by
  have hremoved := h.pooled.removed halloc
  refine h.keep (h.pooled.rmid halloc) rfl fun j hj => .inl ?_
  have hne : j ≠ ix := fun heq => by
    rw [heq, hremoved.gone] at hj
    cases hj
  have hj' : (s.sema j).semAlloc = true := by rwa [rmid_semAlloc info s hne] at hj
  obtain ⟨-, hseq, hnsems, hval⟩ := hremoved.others j hne hj'
  exact ⟨hj', hseq, hnsems, fun num hnum zero => by rw [hval num hnum]⟩

theorem Counted.semctl (h : Counted info s) (semid : Word32) (semnum : Int) (cmd : Semcmd)
    (ipcperm : Option Errno) : Counted info (semctl info semid semnum cmd ipcperm s).2 := by
  unfold Sysv.semctl
  dsimp only
  split
  · exact h
  · next hfound =>
    cases ipcperm with
    | some e => exact h
    | none =>
      dsimp only
      cases cmd with
      | ipcRmid =>
        push Not at hfound
        exact h.rmid (by simpa using hfound.2.1)
      | setval val =>
        dsimp only
        split
        · exact h
        · cases val with
          | none => exact h
          | some val => exact h.recount rfl rfl rfl fun k zero => count_setSemval _ _ k _
      | setall array => exact h.recount rfl rfl rfl fun k zero => count_setAll _ array _ 0 _ k

theorem Counted.step {call : SemCall} (h : Counted info s) (hallowed : s.Allowed call) (hheeds : s.Heeds info call)
    (hstep : s.step info call = some s') : Counted info s' := by
  cases call with
  | semget key nsems creat excl ipcperm =>
    obtain rfl := Option.some.inj hstep
    simp only [Facility.Heeds] at hheeds
    obtain heq | ⟨i, n, hi, hfree, hn, hroom, heq⟩ := semget_cases info key nsems creat excl ipcperm s
    · rw [heq]
      exact h
    · rw [heq] at hheeds ⊢
      exact h.created key hi hfree hn hroom hheeds
  | semctl semid semnum cmd ipcperm =>
    obtain rfl := Option.some.inj hstep
    exact h.semctl semid semnum cmd ipcperm
  | semop a =>
    obtain ⟨r, hr, rfl⟩ := Option.map_eq_some_iff.mp hstep
    obtain ⟨e, rfl⟩ | ⟨hfinds, hround⟩ := semopStart_cases hr
    · exact h.recount rfl rfl rfl fun _ _ => rfl
    · exact h.goes hfinds hallowed hheeds hround
  | wake i interrupted =>
    simp only [Facility.step] at hstep
    split at hstep
    · obtain rfl := Option.some.inj hstep
      exact h
    · next t ht =>
      obtain ⟨r, hr, rfl⟩ := Option.map_eq_some_iff.mp hstep
      have hmem : t ∈ s.asleep := List.mem_of_getElem? ht
      have hnot : ∀ t' ∈ s.asleep.eraseIdx i, t'.args.p ≠ t.args.p := fun t' ht' heq => by
        obtain ⟨hlt, rfl⟩ := List.getElem?_eq_some_iff.mp ht
        have hnodup := ((List.getElem_cons_eraseIdx_perm hlt).map fun t : Asleep => t.args.p).nodup_iff.mpr
          h.procs
        rw [List.map_cons, List.nodup_cons] at hnodup
        exact hnodup.1 (List.mem_map.mpr ⟨t', ht', heq⟩)
      by_cases hfinds : t.args.Finds s.toSemaphores
      · -- its set is there, and its semaphore is where it was
        obtain ⟨rfl, hplace⟩ := hheeds t ht hfinds
        have hwakes := h.wakes ht (countAt s.sem t.waiting.semptr t.waiting.sopptr (-1))
          fun j num zero hj hnum => h.count_place hfinds hplace (h.numbered t hmem hfinds) hj hnum (-1)
        have hround : semopRound t.args t.waiting.doUndos { s.toSemaphores with
            sem := countAt s.sem t.waiting.semptr t.waiting.sopptr (-1) } = some r := by
          unfold semopWake at hr
          rwa [if_neg (by simp), if_neg (by simp [hfinds.1, hfinds.2])] at hr
        exact hwakes.goes hfinds hnot (h.pids t hmem) hround
      · -- its set is gone, and it was no longer counted
        have hwakes := h.wakes ht s.sem fun j num zero hj hnum => by
          rw [if_neg, add_zero]
          · rfl
          · intro hwaits
            obtain ⟨rfl, hseq, -⟩ := waits_iff.mp hwaits
            exact hfinds ⟨hj, hseq.symm⟩
        have hend : ∃ e, r = (.returned e, s.toSemaphores) := by
          unfold semopWake at hr
          dsimp only at hr
          split at hr
          · exact ⟨_, (Option.some.inj hr).symm⟩
          · rw [if_pos] at hr
            · exact ⟨_, (Option.some.inj hr).symm⟩
            · by_contra hc
              push Not at hc
              exact hfinds ⟨by simpa using hc.1, hc.2⟩
        obtain ⟨e, rfl⟩ := hend
        exact hwakes
  | semexit p =>
    obtain ⟨hsema, hsemtot⟩ := semexit_sema hstep
    simp only [Facility.step, Sysv.semexit] at hstep
    split at hstep
    · obtain rfl := Option.some.inj hstep
      exact h
    · obtain ⟨sem, hexit, rfl⟩ := Option.map_eq_some_iff.mp hstep
      exact h.recount rfl rfl rfl fun k zero => count_exitEntries hexit k

theorem counted (hrun : Facility.ReachedHeeding info s) : Counted info s := by
  refine hrun.invariant ?_ fun s call s' h hok hstep => h.step hok.1 hok.2 hstep
  intro s hs
  exact {
    pooled := pooled (.start hs)
    numbered := by simp [hs.asleep]
    counts := fun j num zero hj => by
      rw [hs.sema] at hj
      cases hj
    procs := by simp [hs.asleep]
    pids := by simp [hs.asleep] }

theorem Counted.waiters_lt (h : Counted info s) (j num : Nat) (zero : Bool) :
    s.waiters j num zero < 2 ^ 16 := by
  have hsub : s.asleep.map (fun t => t.args.p) ⊆ List.range (pidMax + 1) := fun p hp => by
    obtain ⟨t, ht, rfl⟩ := List.mem_map.mp hp
    exact List.mem_range.mpr (Nat.lt_succ_of_le (h.pids t ht))
  have hlength := (h.procs.subperm hsub).length_le
  rw [List.length_map, List.length_range, pidMax] at hlength
  have hcount : s.waiters j num zero ≤ s.asleep.length := List.countP_le_length
  omega

/-- **`semncnt` and `semzcnt` count the processes asleep** that wait for a semaphore to increase and to become zero, in
every run that heeds what the counts rely on. -/
theorem counts_eq_waiters (hrun : Facility.ReachedHeeding info s) (halloc : (s.sema j).semAlloc = true)
    (hnum : num < (s.sema j).semNsems) :
    (s.semAt j num).semncnt.toNat = s.waiters j num false ∧
      (s.semAt j num).semzcnt.toNat = s.waiters j num true := by
  have h := counted hrun
  have hcount : ∀ zero, ((s.semAt j num).count zero).toNat = s.waiters j num zero := fun zero => by
    rw [h.counts j num zero halloc hnum, BitVec.toNat_ofNat]
    exact Nat.mod_eq_of_lt (h.waiters_lt j num zero)
  exact ⟨hcount false, hcount true⟩

def takeUnit : SemopArgs where
  p := 1
  semid := 0x10000
  sops := [{ semNum := 0, semOp := -1 }]

def oneSet : Facility := (semget generic 0 1 true false none booted).2

def unitWanted : Facility := (oneSet.step generic (.semop takeUnit)).getD oneSet

theorem nobody_asleep {P : Asleep → Prop} : ∀ t ∈ ([] : List Asleep), P t := by simp

theorem reachedHeeding_unitWanted : Facility.ReachedHeeding generic unitWanted := by
  have hbooted : Facility.ReachedHeeding generic booted := .start ⟨fun _ => rfl, rfl, rfl, rfl⟩
  have hone : Facility.ReachedHeeding generic oneSet :=
    .call (.semget 0 1 true false none) hbooted ⟨trivial, nobody_asleep⟩ rfl
  exact .call (.semop takeUnit) hone ⟨nobody_asleep, show takeUnit.p ≤ pidMax by decide⟩ rfl

theorem counts_eq_waiters_unitWanted : (unitWanted.semAt 0 0).semncnt.toNat = unitWanted.waiters 0 0 false ∧
    (unitWanted.semAt 0 0).semzcnt.toNat = unitWanted.waiters 0 0 true :=
  counts_eq_waiters reachedHeeding_unitWanted rfl (by decide)

def unitInterrupted : Facility := (unitWanted.step generic (.wake 0 true)).getD unitWanted

/-- The count of the process that a signal woke is left. -/
theorem semncnt_after_signal : ¬ ∀ info s, Facility.Reached info s → ∀ j num, (s.sema j).semAlloc = true →
    num < (s.sema j).semNsems → (s.semAt j num).semncnt.toNat = s.waiters j num false ∧
      (s.semAt j num).semzcnt.toNat = s.waiters j num true := by
  intro hall
  have hone : Facility.Reached generic oneSet := .call (.semget 0 1 true false none) reached_booted trivial rfl
  have hwanted : Facility.Reached generic unitWanted :=
    .call (.semop takeUnit) hone nobody_asleep rfl
  have hrun : Facility.Reached generic unitInterrupted := .call (.wake 0 true) hwanted trivial rfl
  have hcount := (hall generic unitInterrupted hrun 0 0 rfl (by decide)).1
  exact absurd hcount (by decide)

end NetBSD.Sysv
