import NetBSD.Sysv.Undo

/-!
# Vectors of semaphore operations

What `semop` leaves behind where it sleeps and where it returns.
-/

namespace NetBSD.Sysv

open Function (update)

variable {ds : SemidDs} {sem : Nat → Sem} {ops pre post : List Sembuf} {op : Sembuf}

def Sembuf.Possible (op : Sembuf) (semval : Word16) : Prop :=
  (op.semOp.toInt < 0 → 0 ≤ semval.toNat + op.semOp.toInt) ∧ (op.semOp = 0 → semval = 0)

def AllPossible (ds : SemidDs) : (Nat → Sem) → List Sembuf → Prop
  | _, [] => True
  | sem, op :: rest =>
    op.semNum < ds.semNsems ∧ op.Possible (sem (ds.semBase + op.semNum)).semval ∧
      AllPossible ds (addTo sem (ds.semBase + op.semNum) op.semOp) rest

def carry (ds : SemidDs) (ops : List Sembuf) (sem : Nat → Sem) : Nat → Sem :=
  ops.foldl (fun sem op => addTo sem (ds.semBase + op.semNum) op.semOp) sem

def net (ds : SemidDs) (ops : List Sembuf) (k : Nat) : Word16 :=
  (ops.map fun op => if ds.semBase + op.semNum = k then op.semOp else 0).sum

theorem addTo_apply (sem : Nat → Sem) (k j : Nat) (n : Word16) :
    addTo sem k n j = { sem j with semval := (sem j).semval + if k = j then n else 0 } := by
  unfold addTo
  by_cases h : k = j
  · subst h
    simp
  · simp [Function.update_of_ne (Ne.symm h), h]

theorem net_cons (ds : SemidDs) (op : Sembuf) (ops : List Sembuf) (k : Nat) :
    net ds (op :: ops) k = (if ds.semBase + op.semNum = k then op.semOp else 0) + net ds ops k := by
  simp [net]

theorem carry_apply (ds : SemidDs) (ops : List Sembuf) (sem : Nat → Sem) (k : Nat) :
    carry ds ops sem k = { sem k with semval := (sem k).semval + net ds ops k } := by
  induction ops generalizing sem with
  | nil => simp [carry, net]
  | cons op ops ih =>
    have hstep : carry ds (op :: ops) sem = carry ds ops (addTo sem (ds.semBase + op.semNum) op.semOp) := rfl
    rw [hstep, ih, addTo_apply, net_cons, add_assoc]

theorem rollback_apply (ds : SemidDs) (ops : List Sembuf) (sem : Nat → Sem) (k : Nat) :
    rollback ds ops sem k = { sem k with semval := (sem k).semval - net ds ops k } := by
  induction ops generalizing sem with
  | nil => simp [rollback, net]
  | cons op ops ih =>
    have hstep : rollback ds (op :: ops) sem =
        rollback ds ops (addTo sem (ds.semBase + op.semNum) (-op.semOp)) := rfl
    rw [hstep, ih, addTo_apply, net_cons]
    refine congrArg (fun v => { sem k with semval := v }) ?_
    split_ifs <;> ring

theorem rollback_carry (ds : SemidDs) (ops : List Sembuf) (sem : Nat → Sem) :
    rollback ds ops (carry ds ops sem) = sem := by
  funext k
  rw [rollback_apply, carry_apply]
  simp

theorem addTo_zero (sem : Nat → Sem) (k : Nat) : addTo sem k 0 = sem := by
  funext j
  simp [addTo_apply]

theorem tryOps_cons (ds : SemidDs) (op : Sembuf) (rest : List Sembuf) (t : Try) :
    (ds.semNsems ≤ op.semNum ∧ tryOps ds (op :: rest) t = { t with stop := some .efbig }) ∨
    (op.semNum < ds.semNsems ∧ ¬ op.Possible (t.sem (ds.semBase + op.semNum)).semval ∧
      tryOps ds (op :: rest) t = { t with stop := some (.wait op) }) ∨
    (op.semNum < ds.semNsems ∧ op.Possible (t.sem (ds.semBase + op.semNum)).semval ∧
      tryOps ds (op :: rest) t = tryOps ds rest { t with
        i := t.i + 1
        sem := addTo t.sem (ds.semBase + op.semNum) op.semOp
        doUndos := t.doUndos || (op.semUndo && op.semOp ≠ 0) }) := by
  rw [tryOps]
  unfold Sembuf.Possible
  by_cases hnum : op.semNum ≥ ds.semNsems
  · exact .inl ⟨hnum, if_pos hnum⟩
  rw [if_neg hnum]
  have hlt : op.semNum < ds.semNsems := Nat.lt_of_not_le hnum
  by_cases hneg : op.semOp.toInt < 0
  · have hne : op.semOp ≠ 0 := by
      rintro h
      rw [h] at hneg
      exact absurd hneg (by decide)
    rw [if_pos hneg]
    by_cases hlow : (t.sem (ds.semBase + op.semNum)).semval.toNat + op.semOp.toInt < 0
    · rw [if_pos hlow]
      exact .inr (.inl ⟨hlt, fun h => absurd (h.1 hneg) (by omega), rfl⟩)
    · rw [if_neg hlow]
      refine .inr (.inr ⟨hlt, ⟨fun _ => by omega, fun h => absurd h hne⟩, ?_⟩)
      rw [decide_eq_true hne, Bool.and_true]
  rw [if_neg hneg]
  by_cases hzero : op.semOp = 0
  · rw [if_pos hzero]
    by_cases hpos : (t.sem (ds.semBase + op.semNum)).semval > 0
    · rw [if_pos hpos]
      refine .inr (.inl ⟨hlt, fun h => ?_, rfl⟩)
      rw [h.2 hzero] at hpos
      exact absurd hpos (by decide)
    · rw [if_neg hpos]
      refine .inr (.inr ⟨hlt, ⟨fun h => absurd h hneg, fun _ => ?_⟩, ?_⟩)
      · exact BitVec.le_zero_iff.mp (BitVec.not_lt.mp hpos)
      · rw [hzero, addTo_zero]
        simp
  · rw [if_neg hzero]
    refine .inr (.inr ⟨hlt, ⟨fun h => absurd h hneg, fun h => absurd h hzero⟩, ?_⟩)
    rw [decide_eq_true hzero, Bool.and_true]

structure Tried (ds : SemidDs) (ops : List Sembuf) (t t' : Try) (pre rest : List Sembuf) : Prop where
  split : ops = pre ++ rest
  possible : AllPossible ds t.sem pre
  i : t'.i = t.i + pre.length
  sem : t'.sem = carry ds pre t.sem
  undos : t'.doUndos = false → ∀ op ∈ pre, op.semUndo = true → op.semOp = 0
  stop : (rest = [] ∧ t'.stop = none) ∨
    ∃ op post, rest = op :: post ∧ ((ds.semNsems ≤ op.semNum ∧ t'.stop = some .efbig) ∨
      (op.semNum < ds.semNsems ∧ ¬ op.Possible (carry ds pre t.sem (ds.semBase + op.semNum)).semval ∧
        t'.stop = some (.wait op)))

theorem tryOps_doUndos (ds : SemidDs) (ops : List Sembuf) (t : Try) (h : t.doUndos = true) : (tryOps ds ops t).doUndos = true := by
  induction ops generalizing t with
  | nil => exact h
  | cons op ops ih =>
    obtain ⟨-, heq⟩ | ⟨-, -, heq⟩ | ⟨-, -, heq⟩ := tryOps_cons ds op ops t
    · rw [heq]
      exact h
    · rw [heq]
      exact h
    · rw [heq]
      exact ih _ (by simp [h])

theorem tryOps_spec (ds : SemidDs) (ops : List Sembuf) (t : Try) (hstop : t.stop = none) :
    ∃ pre rest, Tried ds ops t (tryOps ds ops t) pre rest := by
  induction ops generalizing t with
  | nil => exact ⟨[], [], rfl, trivial, rfl, rfl, by simp, .inl ⟨rfl, hstop⟩⟩
  | cons op ops ih =>
    obtain ⟨hnum, heq⟩ | ⟨hnum, hnot, heq⟩ | ⟨hnum, hposs, heq⟩ := tryOps_cons ds op ops t
    · refine ⟨[], op :: ops, rfl, trivial, by rw [heq]; rfl, by rw [heq]; rfl, by simp, ?_⟩
      exact .inr ⟨op, ops, rfl, .inl ⟨hnum, by rw [heq]⟩⟩
    · refine ⟨[], op :: ops, rfl, trivial, by rw [heq]; rfl, by rw [heq]; rfl, by simp, ?_⟩
      exact .inr ⟨op, ops, rfl, .inr ⟨hnum, hnot, by rw [heq]⟩⟩
    · rw [heq]
      obtain ⟨pre, rest, htried⟩ := ih { t with
        i := t.i + 1
        sem := addTo t.sem (ds.semBase + op.semNum) op.semOp
        doUndos := t.doUndos || (op.semUndo && op.semOp ≠ 0) } hstop
      refine ⟨op :: pre, rest, by rw [htried.split]; rfl, ⟨hnum, hposs, htried.possible⟩, ?_, htried.sem,
        fun hfalse x hx hundo => ?_, htried.stop⟩
      · rw [htried.i, List.length_cons]
        simp only
        omega
      · obtain rfl | hx := List.mem_cons.mp hx
        · -- `do_undos` would have been set.
          by_contra hne
          have hset := tryOps_doUndos ds ops { t with
            i := t.i + 1
            sem := addTo t.sem (ds.semBase + x.semNum) x.semOp
            doUndos := t.doUndos || (x.semUndo && x.semOp ≠ 0) } (by simpa [hundo] using .inr hne)
          rw [hset] at hfalse
          cases hfalse
        · exact htried.undos hfalse x hx hundo

theorem allPossible_append : AllPossible ds sem (pre ++ post) ↔
    AllPossible ds sem pre ∧ AllPossible ds (carry ds pre sem) post := by
  induction pre generalizing sem with
  | nil => simp [AllPossible, carry]
  | cons op pre ih =>
    simp only [List.cons_append, AllPossible, ih, and_assoc]
    rfl

theorem Tried.eq_of_outOfRange {t t' : Try} {pre' post' rest : List Sembuf}
    (h : Tried ds ops t t' pre rest) (hops : ops = pre' ++ op :: post') (hposs : AllPossible ds t.sem pre')
    (hnum : ds.semNsems ≤ op.semNum) : pre' = pre ∧ rest = op :: post' := by
  obtain ⟨mid, rfl, hrest⟩ | ⟨mid, rfl, hrest⟩ := List.append_eq_append_iff.mp (h.split.symm.trans hops)
  · cases mid with
    | nil => exact ⟨by simp, hrest⟩
    | cons x mid =>
      obtain ⟨hx, hposs', -⟩ := (allPossible_append.mp hposs).2
      obtain ⟨hnil, -⟩ | ⟨y, post, hy, hstop⟩ := h.stop
      · rw [hnil] at hrest
        cases hrest
      · rw [hrest] at hy
        obtain ⟨rfl, -⟩ := List.cons.inj hy
        obtain ⟨hge, -⟩ | ⟨-, hnot, -⟩ := hstop
        · omega
        · exact absurd hposs' hnot
  · cases mid with
    | nil => exact ⟨by simp, hrest.symm⟩
    | cons x mid =>
      obtain ⟨rfl, -⟩ := List.cons.inj hrest
      have hx := (allPossible_append.mp h.possible).2.1
      omega

theorem Tried.eq_of_allPossible {t t' : Try} {rest : List Sembuf} (h : Tried ds ops t t' pre rest)
    (hposs : AllPossible ds t.sem ops) : rest = [] := by
  obtain ⟨hnil, -⟩ | ⟨op, post, rfl, hstop⟩ := h.stop
  · exact hnil
  · rw [h.split] at hposs
    obtain ⟨hlt, hposs', -⟩ := (allPossible_append.mp hposs).2
    obtain ⟨hge, -⟩ | ⟨-, hnot, -⟩ := hstop
    · omega
    · exact absurd hposs' hnot

variable {a : SemopArgs} {s s' : Semaphores} {prog : Progress}

def total (ds : SemidDs) (ops : List Sembuf) (k : Nat) : Int :=
  (ops.map fun op => if ds.semBase + op.semNum = k then op.semOp.toInt else 0).sum

def undoTotal (ops : List Sembuf) (num : Nat) : Int :=
  (ops.map fun op => if op.semUndo = true ∧ op.semNum = num then op.semOp.toInt else 0).sum

structure Unchanged (s s' : Semaphores) : Prop where
  sema : s'.sema = s.sema
  sem : s'.sem = s.sem
  undo : ∀ q id num, undoAt s'.semuList q id num = undoAt s.semuList q id num

/-- Every operation has been applied, and each `SEM_UNDO` operation has its negated adjustment recorded. -/
structure Applied (a : SemopArgs) (s s' : Semaphores) : Prop where
  sema : s'.sema = s.sema
  semval : ∀ k, ((s'.sem k).semval.toNat : Int) =
    (s.sem k).semval.toNat + total (s.sema a.ix) a.sops k
  semncnt : ∀ k, (s'.sem k).semncnt = (s.sem k).semncnt
  semzcnt : ∀ k, (s'.sem k).semzcnt = (s.sem k).semzcnt
  undo : ∀ q id num, (undoAt s'.semuList q id num).toInt =
    (undoAt s.semuList q id num).toInt - if q = a.p ∧ id = a.ix then undoTotal a.sops num else 0

def Progress.register (a : SemopArgs) (s : Semaphores) : Progress → Semaphores
  | .returned _ => s
  | .asleep w =>
    { s with sem := countAt s.sem ((s.sema a.ix).semBase + w.sopptr.semNum) w.sopptr 1 }

/-- What a call may have done to semaphores `s`, which do not count it as waiting, by the time it gets
somewhere: nothing but to be counted where it sleeps, nothing when it fails, and everything when it
succeeds. -/
def AllOrNothing (a : SemopArgs) (s : Semaphores) (prog : Progress) (s' : Semaphores) : Prop :=
  match prog with
  | .returned none => Applied a s s'
  | prog => Unchanged (prog.register a s) s'

/-- The vector fits the semaphores: when the loop comes to an operation for a semaphore that the set does not
have, the operations before it add up to nothing, and when the whole vector is carried out and recorded,
no value leaves the range of its type. -/
structure Fits (a : SemopArgs) (s : Semaphores) : Prop where
  numbers : ∀ pre op post, a.sops = pre ++ op :: post → AllPossible (s.sema a.ix) s.sem pre →
    (s.sema a.ix).semNsems ≤ op.semNum → ∀ k, net (s.sema a.ix) pre k = 0
  values : AllPossible (s.sema a.ix) s.sem a.sops →
    (∃ list, recordUndos s.semmnu a.p a.ix [] a.sops s.semuList = some (none, list)) →
    (∀ k, 0 ≤ (s.sem k).semval.toNat + total (s.sema a.ix) a.sops k ∧
      (s.sem k).semval.toNat + total (s.sema a.ix) a.sops k < 2 ^ 16) ∧
    ∀ num, -2 ^ 15 ≤ (undoAt s.semuList a.p a.ix num).toInt - undoTotal a.sops num ∧
      (undoAt s.semuList a.p a.ix num).toInt - undoTotal a.sops num < 2 ^ 15

theorem net_eq_ofInt (ds : SemidDs) (ops : List Sembuf) (k : Nat) :
    net ds ops k = BitVec.ofInt 16 (total ds ops k) := by
  induction ops with
  | nil => rfl
  | cons op ops ih =>
    have hcons : total ds (op :: ops) k =
        (if ds.semBase + op.semNum = k then op.semOp.toInt else 0) + total ds ops k := by simp [total]
    rw [net_cons, ih, hcons, BitVec.ofInt_add]
    split_ifs
    · rw [BitVec.ofInt_toInt]
    · rfl

theorem undoNet_eq_ofInt (ops : List Sembuf) (num : Nat) :
    undoNet ops num = BitVec.ofInt 16 (undoTotal ops num) := by
  induction ops with
  | nil => rfl
  | cons op ops ih =>
    unfold undoNet undoTotal at ih ⊢
    rw [List.map_cons, List.sum_cons, ih, List.map_cons, List.sum_cons, BitVec.ofInt_add]
    split_ifs
    · rw [BitVec.ofInt_toInt]
    · rfl

theorem toNat_add_ofInt_iff (v : Word16) (n : Int) :
    ((v + BitVec.ofInt 16 n).toNat : Int) = v.toNat + n ↔ 0 ≤ v.toNat + n ∧ v.toNat + n < 2 ^ 16 := by
  rw [BitVec.toNat_add, BitVec.toNat_ofInt]
  omega

theorem toInt_sub_ofInt_iff (v : Word16) (n : Int) :
    (v - BitVec.ofInt 16 n).toInt = v.toInt - n ↔ -2 ^ 15 ≤ v.toInt - n ∧ v.toInt - n < 2 ^ 15 := by
  rw [BitVec.toInt_sub, BitVec.toInt_ofInt, Int.bmod_def, Int.bmod_def]
  omega

theorem setPids_apply (ds : SemidDs) (p : Nat) (ops : List Sembuf) (sem : Nat → Sem) (k : Nat) :
    ∃ pid, setPids ds p ops sem k = { sem k with sempid := pid } := by
  induction ops generalizing sem with
  | nil => exact ⟨(sem k).sempid, rfl⟩
  | cons op ops ih =>
    obtain ⟨pid, hpid⟩ := ih (update sem (ds.semBase + op.semNum)
      { sem (ds.semBase + op.semNum) with sempid := p })
    have hstep : setPids ds p (op :: ops) sem k = setPids ds p ops (update sem (ds.semBase + op.semNum)
      { sem (ds.semBase + op.semNum) with sempid := p }) k := rfl
    rw [hstep, hpid]
    by_cases hk : k = ds.semBase + op.semNum
    · subst hk
      exact ⟨pid, by simp⟩
    · exact ⟨pid, by rw [Function.update_of_ne hk]⟩

theorem recordUndos_skip {semmnu p semid : Nat} {done : List Sembuf} {list : List SemUndo}
    (h : ∀ op ∈ ops, op.semUndo = true → op.semOp = 0) :
    recordUndos semmnu p semid done ops list = some (none, list) := by
  induction ops generalizing done with
  | nil => rfl
  | cons op ops ih =>
    rw [recordUndos, if_pos ?_]
    · exact ih fun x hx => h x (List.mem_cons_of_mem _ hx)
    · cases hundo : op.semUndo with
      | false => exact .inl rfl
      | true => exact .inr (h op List.mem_cons_self hundo)

def CountsKept (a : SemopArgs) (s : Semaphores) (prog : Progress) (s' : Semaphores) : Prop :=
  ∀ k, (s'.sem k).semncnt = ((prog.register a s).sem k).semncnt ∧
    (s'.sem k).semzcnt = ((prog.register a s).sem k).semzcnt

structure Round (a : SemopArgs) (s : Semaphores) (prog : Progress) (s' : Semaphores) : Prop where
  sema : s'.sema = s.sema
  kept : KeptUndos s'.semuList
  counts : CountsKept a s prog s'
  fits_iff : AllOrNothing a s prog s' ↔ Fits a s

theorem Round.of_unchanged (hkept : KeptUndos s'.semuList) (hprog : prog ≠ .returned none)
    (h : Unchanged (prog.register a s) s') (hfits : Fits a s) : Round a s prog s' := by
  have hsema : (prog.register a s).sema = s.sema := by
    cases prog <;> rfl
  refine ⟨h.sema.trans hsema, hkept, fun k => ?_, ⟨fun _ => hfits, fun _ => ?_⟩⟩
  · rw [h.sem]
    exact ⟨rfl, rfl⟩
  · unfold AllOrNothing
    split
    · exact absurd rfl hprog
    · exact h

variable {t t' : Try} {rest : List Sembuf}

theorem Tried.numbers_of_done (h : Tried (s.sema a.ix) a.sops t t' pre []) (ht : t.sem = s.sem) :
    ∀ pre op post, a.sops = pre ++ op :: post → AllPossible (s.sema a.ix) s.sem pre →
      (s.sema a.ix).semNsems ≤ op.semNum → ∀ k, net (s.sema a.ix) pre k = 0 := by
  intro pre' op' post' hops hposs hnum
  obtain ⟨-, hnil⟩ := h.eq_of_outOfRange hops (ht ▸ hposs) hnum
  cases hnil

theorem Tried.fits_of_wait (h : Tried (s.sema a.ix) a.sops t t' pre (op :: post)) (ht : t.sem = s.sem)
    (hnum : op.semNum < (s.sema a.ix).semNsems) : Fits a s := by
  constructor
  · intro pre' op' post' hops hposs hnum'
    obtain ⟨-, hrest⟩ := h.eq_of_outOfRange hops (ht ▸ hposs) hnum'
    obtain ⟨rfl, -⟩ := List.cons.inj hrest
    omega
  · intro hposs
    cases h.eq_of_allPossible (ht ▸ hposs)

theorem round_efbig (hkept : KeptUndos s.semuList)
    (h : Tried (s.sema a.ix) a.sops t t' pre (op :: post)) (ht : t.sem = s.sem)
    (hnum : (s.sema a.ix).semNsems ≤ op.semNum) :
    Round a s (.returned (some .efbig)) { s with sem := t'.sem } := by
  have hsem : t'.sem = carry (s.sema a.ix) pre s.sem := by rw [h.sem, ht]
  have hsame : t'.sem = s.sem ↔ ∀ k, net (s.sema a.ix) pre k = 0 := by
    rw [hsem, funext_iff]
    refine forall_congr' fun k => ?_
    rw [carry_apply]
    constructor
    · intro heq
      have hval := congrArg Sem.semval heq
      simpa using hval
    · intro hzero
      rw [hzero, add_zero]
  refine ⟨rfl, hkept, fun k => ?_, ?_⟩
  · simp only [hsem, carry_apply]
    exact ⟨rfl, rfl⟩
  constructor
  · intro hall
    constructor
    · intro pre' op' post' hops hposs hnum'
      obtain ⟨rfl, -⟩ := h.eq_of_outOfRange hops (ht ▸ hposs) hnum'
      exact hsame.mp hall.sem
    · intro hposs
      cases h.eq_of_allPossible (ht ▸ hposs)
  · intro hfits
    exact ⟨rfl, hsame.mpr (hfits.numbers pre op post h.split (ht ▸ h.possible) hnum), fun _ _ _ => rfl⟩

theorem round_done (hkept : KeptUndos s.semuList) (h : Tried (s.sema a.ix) a.sops t t' pre [])
    (ht : t.sem = s.sem) : ∃ prog s', semopDone a t' s = some (prog, s') ∧ Round a s prog s' := by
  have hops : pre = a.sops := by rw [h.split, List.append_nil]
  have hsem : t'.sem = carry (s.sema a.ix) a.sops s.sem := by rw [h.sem, ht, hops]
  have hrecord : (if t'.doUndos then recordUndos s.semmnu a.p a.ix [] a.sops s.semuList
      else some (none, s.semuList)) = recordUndos s.semmnu a.p a.ix [] a.sops s.semuList := by
    cases hdo : t'.doUndos with
    | true => rfl
    | false => rw [recordUndos_skip (hops ▸ h.undos hdo)]; rfl
  unfold semopDone
  simp only [hrecord]
  obtain ⟨list, hlist, hkept', hundo⟩ | ⟨e, list, hlist, hkept', hundo⟩ :=
    recordUndos_spec s.semmnu a.p a.ix a.sops hkept (restorable_nil _)
  · rw [hlist]
    have hfinal (k) : ∃ pid, setPids (s.sema a.ix) a.p a.sops t'.sem k =
        { s.sem k with semval := (s.sem k).semval + net (s.sema a.ix) a.sops k, sempid := pid } := by
      obtain ⟨pid, hpid⟩ := setPids_apply (s.sema a.ix) a.p a.sops t'.sem k
      exact ⟨pid, by rw [hpid, hsem, carry_apply]⟩
    have hcounts : CountsKept a s (.returned none)
        { s with sem := setPids (s.sema a.ix) a.p a.sops t'.sem, semuList := list } := by
      intro k
      obtain ⟨pid, hpid⟩ := hfinal k
      simp only [hpid]
      exact ⟨rfl, rfl⟩
    refine ⟨_, _, rfl, rfl, hkept', hcounts, ?_⟩
    have hsemval (k) : ((setPids (s.sema a.ix) a.p a.sops t'.sem k).semval.toNat : Int) =
        (s.sem k).semval.toNat + total (s.sema a.ix) a.sops k ↔
          0 ≤ (s.sem k).semval.toNat + total (s.sema a.ix) a.sops k ∧
            (s.sem k).semval.toNat + total (s.sema a.ix) a.sops k < 2 ^ 16 := by
      obtain ⟨pid, hpid⟩ := hfinal k
      rw [hpid, net_eq_ofInt]
      exact toNat_add_ofInt_iff _ _
    have hundo' (num) : (undoAt list a.p a.ix num).toInt =
        (undoAt s.semuList a.p a.ix num).toInt - undoTotal a.sops num ↔
          -2 ^ 15 ≤ (undoAt s.semuList a.p a.ix num).toInt - undoTotal a.sops num ∧
            (undoAt s.semuList a.p a.ix num).toInt - undoTotal a.sops num < 2 ^ 15 := by
      rw [hundo, if_pos ⟨rfl, rfl⟩, undoNet_eq_ofInt]
      exact toInt_sub_ofInt_iff _ _
    constructor
    · intro happlied
      refine ⟨h.numbers_of_done ht, fun _ _ => ⟨fun k => (hsemval k).mp (happlied.semval k), fun num => ?_⟩⟩
      apply (hundo' num).mp
      rw [happlied.undo, if_pos ⟨rfl, rfl⟩]
    · intro hfits
      obtain ⟨hvals, hundos⟩ := hfits.values (hops ▸ ht ▸ h.possible) ⟨list, hlist⟩
      refine ⟨rfl, fun k => (hsemval k).mpr (hvals k), fun k => (hcounts k).1, fun k => (hcounts k).2,
        fun q id num => ?_⟩
      split_ifs with hown
      · obtain ⟨rfl, rfl⟩ := hown
        exact (hundo' num).mpr (hundos num)
      · rw [hundo, if_neg hown, sub_zero]
  · rw [hlist, hsem, rollback_carry]
    refine ⟨_, _, rfl, .of_unchanged hkept' (by simp) ⟨rfl, rfl, hundo⟩ ⟨h.numbers_of_done ht, ?_⟩⟩
    rintro - ⟨list', hlist'⟩
    rw [hlist] at hlist'
    cases hlist'

theorem semopRound_spec (a : SemopArgs) (doUndos : Bool) (hkept : KeptUndos s.semuList) :
    ∃ prog s', semopRound a doUndos s = some (prog, s') ∧ Round a s prog s' := by
  obtain ⟨pre, rest, htried⟩ := tryOps_spec (s.sema a.ix) a.sops ⟨0, s.sem, doUndos, none⟩ rfl
  unfold semopRound
  simp only
  obtain ⟨rfl, hstop⟩ | ⟨op, post, rfl, ⟨hnum, hstop⟩ | ⟨hnum, -, hstop⟩⟩ := htried.stop
  · rw [hstop]
    exact round_done hkept htried rfl
  · rw [hstop]
    exact ⟨_, _, rfl, round_efbig hkept htried rfl hnum⟩
  · rw [hstop]
    have htake : a.sops.take (tryOps (s.sema a.ix) a.sops ⟨0, s.sem, doUndos, none⟩).i = pre := by
      rw [htried.i, htried.split]
      simp
    simp only [htake, htried.sem, rollback_carry]
    have hfits := htried.fits_of_wait rfl hnum
    cases op.ipcNowait with
    | true => exact ⟨_, _, rfl, .of_unchanged hkept (by simp) ⟨rfl, rfl, fun _ _ _ => rfl⟩ hfits⟩
    | false => exact ⟨_, _, rfl, .of_unchanged hkept (by simp) ⟨rfl, rfl, fun _ _ _ => rfl⟩ hfits⟩

end NetBSD.Sysv
