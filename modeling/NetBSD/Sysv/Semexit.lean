import NetBSD.Sysv.Pool

/-!
# Adjustments on exit

What the undo structures hold after any history, and what `semexit` makes of it. The books are kept beside the
facility: for each process and semaphore the sum of the `SEM_UNDO` operations that are still to be undone.
-/

namespace NetBSD.Sysv

open Function (update)

instance (s : Facility) (semid : Word32) : Decidable (s.Finds semid) := inferInstanceAs (Decidable (_ ∧ _ ∧ _))

def Facility.succeeds (s : Facility) : SemCall → Option SemopArgs
  | .semop a => (semopStart a s.toSemaphores).bind fun r => if r.1 = .returned none then some a else none
  | .wake i interrupted =>
    (s.asleep[i]?).bind fun t =>
      (semopWake t.args t.waiting ⟨interrupted, false, s.toSemaphores⟩).bind fun r =>
        if r.1 = .returned none then some t.args else none
  | _ => none

/-- Whether a command of `semctl` discards what is to be undone for a semaphore of its set. -/
def Semcmd.discards (cmd : Semcmd) (ds : SemidDs) (semnum : Int) (num : Nat) : Bool :=
  match cmd with
  | .ipcRmid => true
  | .setval val => val.isSome ∧ 0 ≤ semnum ∧ semnum < ds.semNsems ∧ num = semnum.toNat
  | .setall _ => true

def Semcmd.removes : Semcmd → Bool
  | .ipcRmid => true
  | _ => false

def addSops (sum : Nat → Nat → Nat → Int) (a : SemopArgs) (p ix num : Nat) : Int :=
  sum p ix num + if p = a.p ∧ ix = a.ix then undoTotal a.sops num else 0

/-- The facility, and the `SEM_UNDO` operations of each process on each semaphore: those that are still to be undone,
and all since the set was created. -/
structure Ledger where
  fac : Facility
  sum : Nat → Nat → Nat → Int := fun _ _ _ => 0
  sinceCreated : Nat → Nat → Nat → Int := fun _ _ _ => 0

def Ledger.book (l : Ledger) (s' : Facility) : SemCall → Ledger
  | .semctl semid semnum cmd ipcperm =>
    if l.fac.Finds semid ∧ ipcperm = none then
      let ix := ipcidToIx semid
      { fac := s'
        sum := fun p j num => if j = ix ∧ cmd.discards (l.fac.sema ix) semnum num then 0 else l.sum p j num
        sinceCreated := fun p j num => if j = ix ∧ cmd.removes then 0 else l.sinceCreated p j num }
    else { l with fac := s' }
  | .semexit p =>
    { fac := s'
      sum := update l.sum p fun _ _ => 0
      sinceCreated := update l.sinceCreated p fun _ _ => 0 }
  | call =>
    match l.fac.succeeds call with
    | none => { l with fac := s' }
    | some a => { fac := s', sum := addSops l.sum a, sinceCreated := addSops l.sinceCreated a }

def Ledger.step (info : Seminfo) (l : Ledger) (call : SemCall) : Option Ledger :=
  (l.fac.step info call).map fun s' => l.book s' call

def Foremost (list : List SemUndo) (semid semnum : Nat) : Prop :=
  ∀ suptr ∈ list, ∀ pre u post, suptr.unEnt = pre ++ u :: post → u.unId = semid → u.unNum = semnum →
    ∀ v ∈ pre, v.unId ≠ semid

def Ledger.Orderly (l : Ledger) : SemCall → Prop
  | .semctl semid semnum (.setval _) _ => Foremost l.fac.semuList (ipcidToIx semid) semnum.toNat
  | _ => True

def Ledger.Reached (info : Seminfo) : Ledger → Prop :=
  Lib.Runs (fun l => l.fac.Initial ∧ l.sum = (fun _ _ _ => 0) ∧ l.sinceCreated = fun _ _ _ => 0) (Ledger.step info)
    fun l call => l.fac.Allowed call ∧ l.Orderly call

variable {info : Seminfo} {s s' : Facility} {l l' : Ledger} {list list' : List SemUndo} {ents : List Undo}
  {p q ix id num : Nat}

theorem entryAt_filter (P : Nat → Nat → Bool) (ents : List Undo) (id num : Nat) :
    entryAt (ents.filter fun u => P u.unId u.unNum) id num = if P id num then entryAt ents id num else 0 := by
  unfold entryAt
  rw [List.find?_filter]
  by_cases hP : P id num = true
  · rw [if_pos hP]
    have hsame : (fun u : Undo => decide (P u.unId u.unNum = true ∧ decide (u.unId = id ∧ u.unNum = num) = true)) =
        fun u : Undo => decide (u.unId = id ∧ u.unNum = num) := by
      funext u
      by_cases hu : u.unId = id ∧ u.unNum = num
      · simp [hu.1, hu.2, hP]
      · simp [hu]
    rw [hsame]
  · rw [if_neg hP, List.find?_eq_none.mpr]
    intro u _ hu
    obtain ⟨hPu, hkey⟩ := of_decide_eq_true hu
    obtain ⟨rfl, rfl⟩ := of_decide_eq_true hkey
    exact hP hPu

theorem clearEntries_absent (fuel i : Nat) (h : ∀ u ∈ ents, ¬ (u.unId = ix ∧ u.unNum = num)) :
    clearEntries ix num fuel i ents = ents := by
  induction fuel generalizing i with
  | zero => rfl
  | succ fuel ih =>
    unfold clearEntries
    cases hu : ents[i]? with
    | none => rfl
    | some u =>
      have hmem : u ∈ ents := List.mem_of_getElem? hu
      dsimp only
      split
      · next hid =>
        rw [if_neg]
        rintro (hneg | hnum)
        · omega
        · exact h u hmem ⟨hid, by exact_mod_cast hnum⟩
      · exact ih (i + 1)

theorem clearEntries_num (pre : List Undo) {ents : List Undo} {ix num fuel : Nat} (hfuel : ents.length ≤ fuel)
    (hnodup : (ents.map fun u => (u.unId, u.unNum)).Nodup)
    (hpre : ∀ v ∈ pre, v.unId ≠ ix)
    (hfirst : ∀ l u r, ents = l ++ u :: r → u.unId = ix → u.unNum = num → ∀ v ∈ l, v.unId ≠ ix) :
    (clearEntries ix num fuel pre.length (pre ++ ents)).Perm
      (pre ++ ents.filter fun u => ! decide (u.unId = ix ∧ u.unNum = num)) := by
  induction fuel generalizing pre ents with
  | zero =>
    obtain rfl := List.eq_nil_of_length_eq_zero (Nat.le_zero.mp hfuel)
    exact .refl _
  | succ fuel ih =>
    cases ents with
    | nil => simp [clearEntries]
    | cons u ents =>
      rw [List.length_cons] at hfuel
      rw [List.map_cons, List.nodup_cons] at hnodup
      rw [clearEntries, List.getElem?_append_right (Nat.le_refl _), Nat.sub_self, List.getElem?_cons_zero]
      dsimp only
      have hkeep : (∀ v ∈ ents, ¬ (v.unId = ix ∧ v.unNum = num)) →
          ents.filter (fun v => ! decide (v.unId = ix ∧ v.unNum = num)) = ents := fun h =>
        List.filter_eq_self.mpr fun v hv => by rw [decide_eq_false (h v hv)]; rfl
      by_cases hu : u.unId = ix
      · rw [if_pos hu]
        by_cases hnum : u.unNum = num
        · -- the entry goes, and there is no other
          have habsent : ∀ v ∈ ents, ¬ (v.unId = ix ∧ v.unNum = num) := fun v hv hkey =>
            hnodup.1 (List.mem_map.mpr ⟨v, hv, by rw [hkey.1, hkey.2, hu, hnum]⟩)
          have hleft := swapLast_perm pre ents u
          have hsame : ∀ fuel i, clearEntries ix num fuel i
              (((pre ++ u :: ents).set pre.length ((pre ++ u :: ents).getLastD u)).dropLast) =
                ((pre ++ u :: ents).set pre.length ((pre ++ u :: ents).getLastD u)).dropLast :=
            fun fuel i => clearEntries_absent fuel i fun v hv hkey => by
              rcases List.mem_append.mp (hleft.mem_iff.mp hv) with hv | hv
              · exact hpre v hv hkey.1
              · exact habsent v hv hkey
          rw [if_pos (.inr (by exact_mod_cast hnum)), hsame, hsame, ite_self, ite_self,
            List.filter_cons_of_neg (by simp [hu, hnum]), hkeep habsent]
          exact hleft
        · -- the loop breaks off
          have habsent : ∀ v ∈ ents, ¬ (v.unId = ix ∧ v.unNum = num) := fun v hv hkey => by
            obtain ⟨l, r, rfl⟩ := List.append_of_mem hv
            exact hfirst (u :: l) v r rfl hkey.1 hkey.2 u List.mem_cons_self hu
          rw [if_neg, List.filter_cons_of_pos (by simp [hnum]), hkeep habsent]
          rintro (hneg | hcast)
          · omega
          · exact hnum (by exact_mod_cast hcast)
      · rw [if_neg hu, List.filter_cons_of_pos (by simp [hu])]
        have hnext := @ih (pre ++ [u]) ents (by omega) hnodup.2
          (fun v hv => by
            rcases List.mem_append.mp hv with hv | hv
            · exact hpre v hv
            · exact List.mem_singleton.mp hv ▸ hu)
          (fun l w r hsplit hid hnum v hv =>
            hfirst (u :: l) w r (congrArg (u :: ·) hsplit) hid hnum v (List.mem_cons_of_mem u hv))
        simpa using hnext

theorem entriesOf_semundoClear (ix : Nat) (semnum : Int) (list : List SemUndo) (p : Nat) :
    entriesOf (semundoClear ix semnum list) p =
      clearEntries ix semnum (entriesOf list p).length 0 (entriesOf list p) := by
  unfold entriesOf semundoClear
  rw [List.find?_map]
  have hsame : (fun suptr : SemUndo => decide (suptr.unProc = p)) ∘ (fun suptr : SemUndo =>
    { suptr with unEnt := clearEntries ix semnum suptr.unEnt.length 0 suptr.unEnt }) =
    fun suptr => decide (suptr.unProc = p) := rfl
  rw [hsame]
  cases list.find? fun suptr => decide (suptr.unProc = p) with
  | none => rfl
  | some suptr => rfl

theorem cleared (hkept : KeptUndos list) {semnum : Int} (P : Nat → Nat → Bool)
    (hperm : ∀ suptr ∈ list, (clearEntries ix semnum suptr.unEnt.length 0 suptr.unEnt).Perm
      (suptr.unEnt.filter fun u => P u.unId u.unNum)) :
    KeptUndos (semundoClear ix semnum list) ∧
      ∀ q id num, undoAt (semundoClear ix semnum list) q id num = if P id num then undoAt list q id num else 0 := by
  have hents : ∀ suptr ∈ list, KeptEntries (clearEntries ix semnum suptr.unEnt.length 0 suptr.unEnt) :=
    fun suptr hs => ((hkept.entries suptr hs).sublist List.filter_sublist).perm (hperm suptr hs)
  refine ⟨⟨?_, fun suptr hs => ?_⟩, fun q id num => ?_⟩
  · rw [semundoClear, List.map_map]
    exact hkept.procs
  · obtain ⟨suptr', hs', rfl⟩ := List.mem_map.mp hs
    exact hents suptr' hs'
  · unfold undoAt
    rw [entriesOf_semundoClear]
    unfold entriesOf
    cases hfind : list.find? (·.unProc = q) with
    | none => simp [clearEntries, entryAt]
    | some suptr =>
      have hs := List.mem_of_find?_eq_some hfind
      have hfilter := (hkept.entries suptr hs).sublist
        (List.filter_sublist (p := fun u : Undo => P u.unId u.unNum))
      rw [entryAt_perm hfilter (hperm suptr hs), entryAt_filter]

theorem AllPossible.numbers {ds : SemidDs} {sem : Nat → Sem} {ops : List Sembuf} (h : AllPossible ds sem ops) :
    ∀ op ∈ ops, op.semNum < ds.semNsems := by
  induction ops generalizing sem with
  | nil => simp
  | cons op ops ih =>
    intro x hx
    rcases List.mem_cons.mp hx with rfl | hx
    · exact h.1
    · exact ih h.2.2 x hx

structure RoundUndos (a : SemopArgs) (s : Semaphores) (prog : Progress) (s' : Semaphores) : Prop where
  kept : KeptUndos s'.semuList
  success : prog = .returned none → (∀ op ∈ a.sops, op.semNum < (s.sema a.ix).semNsems) ∧
    ∀ q id num, undoAt s'.semuList q id num =
      if q = a.p ∧ id = a.ix then undoAt s.semuList q id num - undoNet a.sops num
      else undoAt s.semuList q id num
  failure : prog ≠ .returned none → ∀ q id num, undoAt s'.semuList q id num = undoAt s.semuList q id num

theorem semopRound_undos {a : SemopArgs} {doUndos : Bool} {s s' : Semaphores} {prog : Progress}
    (hkept : KeptUndos s.semuList) (h : semopRound a doUndos s = some (prog, s')) : RoundUndos a s prog s' := by
  obtain ⟨pre, rest, htried⟩ := tryOps_spec (s.sema a.ix) a.sops ⟨0, s.sem, doUndos, none⟩ rfl
  unfold semopRound at h
  dsimp only at h
  obtain ⟨rfl, hstop⟩ | ⟨op, post, rfl, ⟨-, hstop⟩ | ⟨-, -, hstop⟩⟩ := htried.stop
  · rw [hstop] at h
    have hops : pre = a.sops := by rw [htried.split, List.append_nil]
    have hrecord : (if (tryOps (s.sema a.ix) a.sops ⟨0, s.sem, doUndos, none⟩).doUndos then
        recordUndos s.semmnu a.p a.ix [] a.sops s.semuList else some (none, s.semuList)) =
          recordUndos s.semmnu a.p a.ix [] a.sops s.semuList := by
      cases hdo : (tryOps (s.sema a.ix) a.sops ⟨0, s.sem, doUndos, none⟩).doUndos with
      | true => rfl
      | false => rw [recordUndos_skip (hops ▸ htried.undos hdo)]; rfl
    simp only [semopDone, hrecord] at h
    obtain ⟨list, hlist, hkept', hundo⟩ | ⟨e, list, hlist, hkept', hundo⟩ :=
      recordUndos_spec s.semmnu a.p a.ix a.sops hkept (restorable_nil _)
    · rw [hlist] at h
      obtain ⟨rfl, rfl⟩ := Prod.mk.inj (Option.some.inj h)
      exact ⟨hkept', fun _ => ⟨hops ▸ htried.possible.numbers, hundo⟩, fun hne => absurd rfl hne⟩
    · rw [hlist] at h
      obtain ⟨rfl, rfl⟩ := Prod.mk.inj (Option.some.inj h)
      exact ⟨hkept', fun heq => by simp at heq, fun _ => hundo⟩
  · rw [hstop] at h
    obtain ⟨rfl, rfl⟩ := Prod.mk.inj (Option.some.inj h)
    exact ⟨hkept, fun heq => by simp at heq, fun _ _ _ _ => rfl⟩
  · rw [hstop] at h
    dsimp only at h
    split at h
    · obtain ⟨rfl, rfl⟩ := Prod.mk.inj (Option.some.inj h)
      exact ⟨hkept, fun heq => by simp at heq, fun _ _ _ _ => rfl⟩
    · obtain ⟨rfl, rfl⟩ := Prod.mk.inj (Option.some.inj h)
      exact ⟨hkept, fun heq => by simp at heq, fun _ _ _ _ => rfl⟩

structure Booked (info : Seminfo) (l : Ledger) : Prop where
  pooled : Pooled info l.fac
  kept : KeptUndos l.fac.semuList
  recorded : ∀ q id num, undoAt l.fac.semuList q id num = BitVec.ofInt 16 (-l.sum q id num)
  placed : ∀ q id num, undoAt l.fac.semuList q id num ≠ 0 →
    (l.fac.sema id).semAlloc = true ∧ num < (l.fac.sema id).semNsems

theorem undoNet_eq_zero {ops : List Sembuf} (h : ∀ op ∈ ops, op.semNum ≠ num) : undoNet ops num = 0 := by
  induction ops with
  | nil => rfl
  | cons op ops ih =>
    have hrest := ih fun x hx => h x (List.mem_cons_of_mem op hx)
    unfold undoNet at hrest ⊢
    rw [List.map_cons, List.sum_cons, hrest, if_neg fun hc => h op List.mem_cons_self hc.2, add_zero]

theorem recorded_add (x y : Int) : BitVec.ofInt 16 (-x) - BitVec.ofInt 16 y = BitVec.ofInt 16 (-(x + y)) := by
  have hneg : BitVec.ofInt 16 (-y) = -BitVec.ofInt 16 y := BitVec.ofInt_neg
  rw [neg_add, BitVec.ofInt_add, hneg, BitVec.sub_eq_add_neg]

theorem Booked.same (h : Booked info l) (hpooled : Pooled info l'.fac) (hlist : l'.fac.semuList = l.fac.semuList)
    (hsum : l'.sum = l.sum) (hsema : ∀ j, (l.fac.sema j).semAlloc = true → l'.fac.sema j = l.fac.sema j) :
    Booked info l' where
  pooled := hpooled
  kept := hlist ▸ h.kept
  recorded := by
    rw [hlist, hsum]
    exact h.recorded
  placed q id num hne := by
    rw [hlist] at hne
    obtain ⟨halloc, hnum⟩ := h.placed q id num hne
    rw [hsema id halloc]
    exact ⟨halloc, hnum⟩

theorem Booked.round (h : Booked info l) {a : SemopArgs} {prog : Progress} {sys : Semaphores}
    (halloc : (l.fac.sema a.ix).semAlloc = true) (hpooled : Pooled info s') (hsema : s'.sema = l.fac.sema)
    (hlist : s'.semuList = sys.semuList) {sys₀ : Semaphores} (hsema₀ : sys₀.sema = l.fac.sema)
    (hlist₀ : sys₀.semuList = l.fac.semuList) (hround : RoundUndos a sys₀ prog sys) {l' : Ledger}
    (hfac : l'.fac = s')
    (hsum : l'.sum = if prog = .returned none then addSops l.sum a else l.sum) : Booked info l' := by
  have hkept := hround.kept
  by_cases hprog : prog = .returned none
  · obtain ⟨hnumbers, hundo⟩ := hround.success hprog
    rw [if_pos hprog] at hsum
    rw [hlist₀] at hundo
    rw [hsema₀] at hnumbers
    exact {
      pooled := hfac ▸ hpooled
      kept := by rwa [hfac, hlist]
      recorded := fun q id num => by
        rw [hfac, hlist, hundo, hsum, addSops, h.recorded]
        split_ifs
        · rw [undoNet_eq_ofInt, recorded_add]
        · rw [add_zero]
      placed := fun q id num hne => by
        rw [hfac, hsema]
        rw [hfac, hlist, hundo] at hne
        split_ifs at hne with hown
        · by_cases hzero : undoAt l.fac.semuList q id num = 0
          · rw [hzero, zero_sub, neg_ne_zero] at hne
            by_contra hc
            refine hne (undoNet_eq_zero fun op hop heq => hc ?_)
            rw [hown.2]
            exact ⟨halloc, heq ▸ hnumbers op hop⟩
          · exact h.placed q id num hzero
        · exact h.placed q id num hne }
  · have hundo := hround.failure hprog
    rw [if_neg hprog] at hsum
    rw [hlist₀] at hundo
    exact {
      pooled := hfac ▸ hpooled
      kept := by rwa [hfac, hlist]
      recorded := fun q id num => by rw [hfac, hlist, hundo, hsum, h.recorded]
      placed := fun q id num hne => by
        rw [hfac, hsema]
        rw [hfac, hlist, hundo] at hne
        exact h.placed q id num hne }

theorem Booked.discard (h : Booked info l) {ix : Nat} {semnum : Int} (P : Nat → Nat → Bool)
    (hperm : ∀ suptr ∈ l.fac.semuList, (clearEntries ix semnum suptr.unEnt.length 0 suptr.unEnt).Perm
      (suptr.unEnt.filter fun u => P u.unId u.unNum))
    (hpooled : Pooled info l'.fac) (hlist : l'.fac.semuList = semundoClear ix semnum l.fac.semuList)
    (hsum : ∀ q id num, l'.sum q id num = if P id num then l.sum q id num else 0)
    (hsema : ∀ j num, P j num = true → (l.fac.sema j).semAlloc = true → (l'.fac.sema j).semAlloc = true ∧
      (l'.fac.sema j).semNsems = (l.fac.sema j).semNsems) : Booked info l' := by
  obtain ⟨hkept, hundo⟩ := cleared h.kept P hperm
  exact {
    pooled := hpooled
    kept := hlist ▸ hkept
    recorded := fun q id num => by
      rw [hlist, hundo, hsum, h.recorded]
      split_ifs
      · rfl
      · rfl
    placed := fun q id num hne => by
      rw [hlist, hundo] at hne
      by_cases hP : P id num = true
      case neg => exact absurd (if_neg hP) hne
      rw [if_pos hP] at hne
      obtain ⟨halloc, hnum⟩ := h.placed q id num hne
      obtain ⟨halloc', hnsems⟩ := hsema id num hP halloc
      exact ⟨halloc', hnsems ▸ hnum⟩ }

theorem eraseP_eq_filter (h : (list.map SemUndo.unProc).Nodup) (p : Nat) :
    list.eraseP (·.unProc = p) = list.filter (·.unProc ≠ p) := by
  induction list with
  | nil => rfl
  | cons suptr list ih =>
    obtain ⟨hnot, hnodup⟩ := List.nodup_cons.mp h
    by_cases hp : suptr.unProc = p
    · rw [List.eraseP_cons_of_pos (by simpa using hp), List.filter_cons_of_neg (by simpa using hp),
        List.filter_eq_self.mpr]
      intro x hx
      have hne : x.unProc ≠ p := fun heq => hnot (List.mem_map.mpr ⟨x, hx, heq.trans hp.symm⟩)
      simpa using hne
    · rw [List.eraseP_cons_of_neg (by simpa using hp), List.filter_cons_of_pos (by simpa using hp), ih hnodup]

theorem entriesOf_filter_ne (list : List SemUndo) (p q : Nat) :
    entriesOf (list.filter (·.unProc ≠ p)) q = if q = p then [] else entriesOf list q := by
  induction list with
  | nil => simp [entriesOf]
  | cons suptr list ih =>
    rw [entriesOf_cons]
    by_cases hp : suptr.unProc = p
    · rw [List.filter_cons_of_neg (by simpa using hp), ih]
      split_ifs with hq hq'
      · rfl
      · exact absurd (hq'.symm.trans hp) hq
      · rfl
    · rw [List.filter_cons_of_pos (by simpa using hp), entriesOf_cons, ih]
      split_ifs with hq hq'
      · exact absurd (hq.trans hq') hp
      · rfl
      · rfl
      · rfl

theorem Sem.adjust_zero (x : Sem) : x.adjust 0 = x := by
  unfold adjust
  rw [if_neg fun h => absurd h.1 (by decide), add_zero]

theorem exitEntries_spec (hpooled : Pooled info s) (hkept : KeptEntries ents)
    (hplaced : ∀ u ∈ ents, (s.sema u.unId).semAlloc = true ∧ u.unNum < (s.sema u.unId).semNsems)
    (sem : Nat → Sem) : ∃ sem', exitEntries s.sema ents sem = some sem' ∧
      ∀ j num, (s.sema j).semAlloc = true → num < (s.sema j).semNsems →
        sem' ((s.sema j).semBase + num) = (sem ((s.sema j).semBase + num)).adjust (entryAt ents j num) := by
  induction ents generalizing sem with
  | nil => exact ⟨sem, rfl, fun j num _ _ => (Sem.adjust_zero _).symm⟩
  | cons u rest ih =>
    obtain ⟨halloc, hbound⟩ := hplaced u List.mem_cons_self
    have hkept' : KeptEntries rest := hkept.sublist (List.sublist_cons_self u rest)
    obtain ⟨sem', hexit, hsem'⟩ := ih hkept' (fun v hv => hplaced v (List.mem_cons_of_mem u hv))
      (update sem ((s.sema u.unId).semBase + u.unNum)
        ((sem ((s.sema u.unId).semBase + u.unNum)).adjust u.unAdjval))
    refine ⟨sem', ?_, fun j num hj hnum => ?_⟩
    · unfold exitEntries
      dsimp only
      rw [if_neg (by simp [halloc, hbound])]
      exact hexit
    · have hentry : entryAt (u :: rest) j num =
          if j = u.unId ∧ num = u.unNum then u.unAdjval else entryAt rest j num :=
        @entryAt_middle [] rest u hkept j num
      rw [hsem' j num hj hnum, hentry]
      by_cases hkey : j = u.unId ∧ num = u.unNum
      · obtain ⟨rfl, rfl⟩ := hkey
        have hgone : entryAt rest u.unId u.unNum = 0 := entryAt_of_not_mem fun v hv hvkey =>
          (List.nodup_cons.mp hkept.nodup).1 (List.mem_map.mpr ⟨v, hv, by rw [hvkey.1, hvkey.2]⟩)
        rw [Function.update_self, hgone, Sem.adjust_zero, if_pos ⟨rfl, rfl⟩]
      · have hplace : (s.sema j).semBase + num ≠ (s.sema u.unId).semBase + u.unNum := fun heq =>
          hkey (hpooled.place_inj halloc hj hbound hnum heq)
        rw [Function.update_of_ne hplace, if_neg hkey]

theorem Booked.semexit (h : Booked info l) (p : Nat) : ∃ s', semexit p l.fac = some s' ∧
    s'.sema = l.fac.sema ∧ s'.semtot = l.fac.semtot ∧ s'.semuList = l.fac.semuList.filter (·.unProc ≠ p) ∧
    ∀ j num, (l.fac.sema j).semAlloc = true → num < (l.fac.sema j).semNsems →
      s'.semAt j num = (l.fac.semAt j num).adjust (undoAt l.fac.semuList p j num) := by
  unfold Sysv.semexit undoAt entriesOf
  cases hfind : l.fac.semuList.find? (·.unProc = p) with
  | none =>
    refine ⟨l.fac, rfl, rfl, rfl, (List.filter_eq_self.mpr fun x hx => ?_).symm, fun j num _ _ =>
      (Sem.adjust_zero _).symm⟩
    simpa using List.find?_eq_none.mp hfind x hx
  | some suptr =>
    have hmem := List.mem_of_find?_eq_some hfind
    have hkept := h.kept.entries suptr hmem
    have hplaced : ∀ u ∈ suptr.unEnt, (l.fac.sema u.unId).semAlloc = true ∧
        u.unNum < (l.fac.sema u.unId).semNsems := fun u hu => by
      refine h.placed suptr.unProc u.unId u.unNum ?_
      rw [undoAt, entriesOf_of_mem h.kept.procs hmem, entryAt_of_mem hkept hu]
      exact hkept.active u hu
    obtain ⟨sem', hexit, hsem'⟩ := exitEntries_spec h.pooled hkept hplaced l.fac.sem
    simp only [hexit]
    exact ⟨_, rfl, rfl, rfl, eraseP_eq_filter h.kept.procs p, hsem'⟩

theorem Booked.discardSet (h : Booked info l) (ix : Nat) (hpooled : Pooled info l'.fac)
    (hlist : l'.fac.semuList = semundoClear ix (-1) l.fac.semuList)
    (hsum : ∀ q id num, l'.sum q id num = if id = ix then 0 else l.sum q id num)
    (hsema : ∀ j, j ≠ ix → (l.fac.sema j).semAlloc = true → (l'.fac.sema j).semAlloc = true ∧
      (l'.fac.sema j).semNsems = (l.fac.sema j).semNsems) : Booked info l' := by
  refine h.discard (fun id _ => decide (id ≠ ix)) (fun suptr _ => clearEntries_perm [] (Nat.le_refl _))
    hpooled hlist (fun q id num => ?_) fun j num hj halloc => hsema j (of_decide_eq_true hj) halloc
  rw [hsum]
  by_cases hid : id = ix <;> simp [hid]

theorem Booked.semctl (h : Booked info l) (semid : Word32) (semnum : Int) (cmd : Semcmd) (ipcperm : Option Errno)
    (horderly : l.Orderly (.semctl semid semnum cmd ipcperm))
    (hpooled : Pooled info (semctl info semid semnum cmd ipcperm l.fac).2) :
    Booked info (l.book (semctl info semid semnum cmd ipcperm l.fac).2 (.semctl semid semnum cmd ipcperm)) := by
  by_cases hgo : l.fac.Finds semid ∧ ipcperm = none
  case neg =>
    obtain ⟨e, he⟩ := semctl_fails info hgo semnum cmd
    rw [he]
    simp only [Ledger.book, if_neg hgo]
    exact h
  simp only [Ledger.book, if_pos hgo]
  obtain ⟨hfinds, rfl⟩ := hgo
  unfold Sysv.semctl at hpooled ⊢
  simp only [if_neg hfinds.not_absent] at hpooled ⊢
  cases cmd with
  | ipcRmid =>
    refine h.discardSet (ipcidToIx semid) hpooled rfl (fun q id num => ?_) fun j hne halloc => ?_
    · simp [Semcmd.discards]
    · obtain ⟨halloc', -, hnsems, -⟩ := (h.pooled.removed hfinds.2.1).others j hne halloc
      exact ⟨halloc', hnsems⟩
  | setall array =>
    refine h.discardSet (ipcidToIx semid) hpooled rfl (fun q id num => ?_) fun j _ halloc => ⟨halloc, rfl⟩
    simp [Semcmd.discards]
  | setval val =>
    dsimp only at hpooled ⊢
    cases val with
    | none =>
      refine h.same ?_ ?_ ?_ ?_
      · exact h.pooled.congr (by split <;> rfl) (by split <;> rfl)
      · simp only
        split <;> rfl
      · funext q id num
        simp [Semcmd.discards]
      · intro j _
        simp only
        split <;> rfl
    | some val =>
      by_cases hrange : semnum < 0 ∨ semnum ≥ (l.fac.sema (ipcidToIx semid)).semNsems
      · refine h.same ?_ ?_ ?_ ?_
        · rw [if_pos hrange]
          exact h.pooled
        · rw [if_pos hrange]
        · funext q id num
          refine if_neg fun hc => ?_
          simp only [Semcmd.discards, decide_eq_true_eq] at hc
          omega
        · intro j _
          rw [if_pos hrange]
      · simp only [if_neg hrange] at hpooled ⊢
        have hcast : ((semnum.toNat : Nat) : Int) = semnum := Int.toNat_of_nonneg (by omega)
        refine h.discard
          (fun id num => ! decide (id = ipcidToIx semid ∧ num = semnum.toNat)) (fun suptr hs => ?_) hpooled rfl
          (fun q id num => ?_) fun j _ _ halloc => ⟨halloc, rfl⟩
        · have hperm := @clearEntries_num [] _ (ipcidToIx semid) semnum.toNat _
            (Nat.le_refl suptr.unEnt.length) (h.kept.entries suptr hs).nodup (by simp)
            fun pre u post hsplit hid hnum => horderly suptr hs pre u post hsplit hid hnum
          rwa [hcast] at hperm
        · have hdiscards : (id = ipcidToIx semid ∧ (Semcmd.setval (some val)).discards
              (l.fac.sema (ipcidToIx semid)) semnum num) ↔ id = ipcidToIx semid ∧ num = semnum.toNat := by
            simp only [Semcmd.discards, decide_eq_true_eq, Option.isSome_some, true_and]
            constructor
            · exact fun hc => ⟨hc.1, hc.2.2.2⟩
            · exact fun hc => ⟨hc.1, by omega, by omega, hc.2⟩
          dsimp only
          by_cases hkey : id = ipcidToIx semid ∧ num = semnum.toNat
          · rw [if_pos (hdiscards.mpr hkey), if_neg (by simp [hkey])]
          · rw [if_neg fun hc => hkey (hdiscards.mp hc), if_pos (by rw [decide_eq_false hkey]; rfl)]

theorem Ledger.book_sum {call : SemCall} {a : SemopArgs} {prog : Progress} (s' : Facility)
    (hcall : l.fac.succeeds call = if prog = .returned none then some a else none)
    (hfails : l.fac.succeeds call = none → l.book s' call = { l with fac := s' })
    (hgoes : l.fac.succeeds call = some a →
      l.book s' call = { fac := s', sum := addSops l.sum a, sinceCreated := addSops l.sinceCreated a }) :
    (l.book s' call).fac = s' ∧
      (l.book s' call).sum = if prog = .returned none then addSops l.sum a else l.sum := by
  split_ifs with hprog
  · rw [hgoes (hcall.trans (if_pos hprog))]
    exact ⟨rfl, rfl⟩
  · rw [hfails (hcall.trans (if_neg hprog))]
    exact ⟨rfl, rfl⟩

theorem Booked.step {call : SemCall} (h : Booked info l) (horderly : l.Orderly call)
    (hstep : l.step info call = some l') : Booked info l' := by
  obtain ⟨s', hs', rfl⟩ := Option.map_eq_some_iff.mp hstep
  have hpooled := h.pooled.step hs'
  cases call with
  | semget key nsems creat excl ipcperm =>
    obtain rfl := Option.some.inj hs'
    refine h.same hpooled ?_ rfl fun j hj => ?_
    · obtain heq | ⟨i, n, -, -, -, -, heq⟩ := semget_cases info key nsems creat excl ipcperm l.fac
      · exact congrArg (·.semuList) heq
      · exact congrArg (·.semuList) heq
    · obtain heq | ⟨i, n, -, hfree, -, -, heq⟩ := semget_cases info key nsems creat excl ipcperm l.fac
      · exact congrArg (·.sema j) heq
      · have hne : j ≠ i := fun hji => by
          rw [hji, hfree] at hj
          cases hj
        exact (congrArg (·.sema j) heq).trans (Function.update_of_ne hne _ _)
  | semctl semid semnum cmd ipcperm =>
    obtain rfl := Option.some.inj hs'
    exact h.semctl semid semnum cmd ipcperm horderly hpooled
  | semop a =>
    obtain ⟨⟨prog, sys⟩, hr, rfl⟩ := Option.map_eq_some_iff.mp hs'
    have hcall : l.fac.succeeds (.semop a) = if prog = .returned none then some a else none := by
      simp [Facility.succeeds, hr]
    obtain ⟨hfac, hsum⟩ := Ledger.book_sum (l.fac.goes a (prog, sys)) hcall
      (fun hnone => by simp only [Ledger.book, hnone]) fun hsome => by simp only [Ledger.book, hsome]
    have hlist : (l.fac.goes a (prog, sys)).semuList = sys.semuList := by cases prog <;> rfl
    obtain ⟨e, heq⟩ | ⟨hfinds, hround⟩ := semopStart_cases hr
    · obtain ⟨rfl, rfl⟩ := Prod.mk.inj heq
      rw [if_neg (by simp)] at hsum
      exact h.same (by rw [hfac]; exact hpooled) (by rw [hfac]; rfl) hsum fun j _ => by rw [hfac]; rfl
    · refine h.round hfinds.1 hpooled ?_ hlist rfl rfl (semopRound_undos h.kept hround) hfac hsum
      cases prog <;> exact semopRound_sema hround
  | wake i interrupted =>
    simp only [Facility.step] at hs'
    cases ht : l.fac.asleep[i]? with
    | none =>
      rw [ht] at hs'
      obtain rfl := Option.some.inj hs'
      have hcall : l.fac.succeeds (.wake i interrupted) = none := by simp [Facility.succeeds, ht]
      simp only [Ledger.book, hcall]
      exact h
    | some t =>
      rw [ht] at hs'
      obtain ⟨⟨prog, sys⟩, hr, rfl⟩ := Option.map_eq_some_iff.mp hs'
      have hcall : l.fac.succeeds (.wake i interrupted) =
          if prog = .returned none then some t.args else none := by simp [Facility.succeeds, ht, hr]
      obtain ⟨hfac, hsum⟩ := Ledger.book_sum
        ({ l.fac with asleep := l.fac.asleep.eraseIdx i }.goes t.args (prog, sys)) hcall
        (fun hnone => by simp only [Ledger.book, hnone]) fun hsome => by simp only [Ledger.book, hsome]
      have hlist : ({ l.fac with asleep := l.fac.asleep.eraseIdx i }.goes t.args (prog, sys)).semuList =
          sys.semuList := by cases prog <;> rfl
      unfold semopWake at hr
      dsimp only at hr
      split at hr
      · obtain ⟨rfl, rfl⟩ := Prod.mk.inj (Option.some.inj hr)
        rw [if_neg (by simp)] at hsum
        exact h.same (by rw [hfac]; exact hpooled) (by rw [hfac]; rfl) hsum fun j _ => by rw [hfac]; rfl
      · split at hr
        · obtain ⟨rfl, rfl⟩ := Prod.mk.inj (Option.some.inj hr)
          rw [if_neg (by simp)] at hsum
          exact h.same (by rw [hfac]; exact hpooled) (by rw [hfac]; rfl) hsum fun j _ => by rw [hfac]; rfl
        · next hfound =>
          push Not at hfound
          have hundos := semopRound_undos (s := { l.fac.toSemaphores with
            sem := countAt l.fac.sem t.waiting.semptr t.waiting.sopptr (-1) }) h.kept hr
          have hsema := semopRound_sema hr
          refine h.round (by simpa using hfound.1) hpooled ?_ hlist ?_ ?_ hundos hfac hsum
          · cases prog <;> exact hsema
          · rfl
          · rfl
  | semexit p =>
    obtain ⟨s₁, hs₁, hsema, -, hlist, -⟩ := h.semexit p
    obtain rfl := Option.some.inj (hs'.symm.trans hs₁)
    have hundo : ∀ q id num, undoAt s'.semuList q id num =
        if q = p then 0 else undoAt l.fac.semuList q id num := fun q id num => by
      unfold undoAt
      rw [hlist, entriesOf_filter_ne]
      split_ifs
      · rfl
      · rfl
    exact {
      pooled := hpooled
      kept := by
        have hsub := List.filter_sublist (p := fun suptr : SemUndo => decide (suptr.unProc ≠ p))
          (l := l.fac.semuList)
        rw [show (l.book s' (.semexit p)).fac.semuList = _ from hlist]
        exact ⟨h.kept.procs.sublist (hsub.map _), fun suptr hs => h.kept.entries suptr (hsub.subset hs)⟩
      recorded := fun q id num => by
        refine (hundo q id num).trans ?_
        by_cases hq : q = p
        · simp [Ledger.book, hq]
        · rw [if_neg hq, h.recorded]
          simp [Ledger.book, hq]
      placed := fun q id num hne => by
        rw [show undoAt (l.book s' (.semexit p)).fac.semuList q id num = _ from hundo q id num] at hne
        rw [show (l.book s' (.semexit p)).fac.sema = _ from hsema]
        by_cases hq : q = p
        · exact absurd (if_pos hq) hne
        · rw [if_neg hq] at hne
          exact h.placed q id num hne }

theorem booked (hrun : Ledger.Reached info l) : Booked info l := by
  refine hrun.invariant ?_ fun l call l' h hok hstep => h.step hok.2 hstep
  rintro l ⟨hinit, hsum, -⟩
  exact {
    pooled := pooled (.start hinit)
    kept := by
      rw [hinit.semuList]
      exact ⟨by simp, by simp⟩
    recorded := fun q id num => by
      rw [hinit.semuList, hsum]
      rfl
    placed := fun q id num hne => by
      rw [hinit.semuList] at hne
      exact absurd rfl hne }

theorem Sem.adjust_toNat (x : Sem) {n : Int} (hlow : -2 ^ 15 ≤ n) (hhigh : n < 2 ^ 15)
    (hfits : x.semval.toNat + n < 2 ^ 16) :
    ((x.adjust (BitVec.ofInt 16 n)).semval.toNat : Int) = max 0 (x.semval.toNat + n) := by
  have hint : (BitVec.ofInt 16 n).toInt = n := by
    rw [BitVec.toInt_ofInt, Int.bmod_def]
    omega
  unfold adjust
  rw [hint]
  split
  · next hneg =>
    have hzero : (0 : Word16).toNat = 0 := rfl
    simp only [hzero]
    omega
  · next hneg =>
    rw [(toNat_add_ofInt_iff x.semval n).mpr ⟨by omega, hfits⟩]
    omega

/-- **`semexit` undoes the `SEM_UNDO` operations** of the process, whatever the history: to each semaphore it adds the
negated sum of those of its calls that succeeded since the set was created, or since `SETALL` on the set or `SETVAL` on
the semaphore, and stops at zero; the structure of the process goes, and the others stay as they are. The sum has
to fit an `un_adjval`, and the value a `semval`. -/
theorem semexit_undoes (hrun : Ledger.Reached info l) (p : Nat)
    (hsums : ∀ j num, (l.fac.sema j).semAlloc = true → num < (l.fac.sema j).semNsems →
      -2 ^ 15 ≤ -l.sum p j num ∧ -l.sum p j num < 2 ^ 15 ∧
        (l.fac.semAt j num).semval.toNat - l.sum p j num < 2 ^ 16) :
    ∃ s', semexit p l.fac = some s' ∧ s'.sema = l.fac.sema ∧
      (∀ j num, (l.fac.sema j).semAlloc = true → num < (l.fac.sema j).semNsems →
        ((s'.semAt j num).semval.toNat : Int) = max 0 ((l.fac.semAt j num).semval.toNat - l.sum p j num)) ∧
      s'.semuList = l.fac.semuList.filter (·.unProc ≠ p) ∧
      ∀ q, entriesOf s'.semuList q = if q = p then [] else entriesOf l.fac.semuList q := by
  have h := booked hrun
  obtain ⟨s', hexit, hsema, -, hlist, hsem⟩ := h.semexit p
  refine ⟨s', hexit, hsema, fun j num hj hnum => ?_, hlist, fun q => hlist ▸ entriesOf_filter_ne _ p q⟩
  obtain ⟨hlow, hhigh, hfits⟩ := hsums j num hj hnum
  rw [hsem j num hj hnum, h.recorded, Sem.adjust_toNat _ hlow hhigh (by omega)]
  rw [Int.sub_eq_add_neg]

def giveUnit : SemopArgs where
  p := 1
  semid := 0x10000
  sops := [{ semNum := 0, semOp := 1, semUndo := true }]

def Ledger.after (l : Ledger) (call : SemCall) : Ledger := (l.step generic call).getD l

def oneSetBooks : Ledger := ({ fac := booted } : Ledger).after (.semget 0 1 true false none)

def unitGiven : Ledger := oneSetBooks.after (.semop giveUnit)

def fiveSet : Ledger := unitGiven.after (.semctl 0x10000 0 (.setall fun _ => some 5) none)

theorem reached_unitGiven : Ledger.Reached generic unitGiven := by
  have hbooted : Ledger.Reached generic { fac := booted } := .start ⟨⟨fun _ => rfl, rfl, rfl, rfl⟩, rfl, rfl⟩
  have hone : Ledger.Reached generic oneSetBooks :=
    .call (.semget 0 1 true false none) hbooted ⟨trivial, trivial⟩ rfl
  refine .call (.semop giveUnit) hone ⟨?_, trivial⟩ rfl
  rintro t ht
  cases ht

theorem reached_fiveSet : Ledger.Reached generic fiveSet :=
  .call (.semctl 0x10000 0 (.setall fun _ => some 5) none) reached_unitGiven ⟨trivial, trivial⟩ rfl

theorem only_semaphore {j num : Nat} (hsema : s.sema = (oneSetBooks.fac).sema) (hj : (s.sema j).semAlloc = true)
    (hnum : num < (s.sema j).semNsems) : j = 0 ∧ num = 0 := by
  rw [hsema] at hj hnum
  by_cases hzero : j = 0
  · subst hzero
    exact ⟨rfl, Nat.lt_one_iff.mp hnum⟩
  · have hnone : (oneSetBooks.fac.sema j) = {} := Function.update_of_ne hzero _ _
    rw [hnone] at hj
    cases hj

theorem semexit_undoes_unitGiven : ∃ s', semexit 1 unitGiven.fac = some s' ∧ s'.semAt 0 0 = { sempid := 1 } := by
  obtain ⟨s', hexit, -⟩ := semexit_undoes reached_unitGiven 1 fun j num hj hnum => by
    obtain ⟨rfl, rfl⟩ := only_semaphore rfl hj hnum
    decide
  refine ⟨s', hexit, ?_⟩
  obtain rfl := Option.some.inj ((show some _ = semexit 1 unitGiven.fac from rfl).trans hexit)
  rfl

/-- `SETALL` discards what was to be undone. -/
theorem semexit_after_setall : ¬ ∀ info l, Ledger.Reached info l → ∀ p,
    (∀ j num, (l.fac.sema j).semAlloc = true → num < (l.fac.sema j).semNsems →
      -2 ^ 15 ≤ -l.sinceCreated p j num ∧ -l.sinceCreated p j num < 2 ^ 15 ∧
        (l.fac.semAt j num).semval.toNat - l.sinceCreated p j num < 2 ^ 16) →
    ∃ s', semexit p l.fac = some s' ∧ ∀ j num, (l.fac.sema j).semAlloc = true → num < (l.fac.sema j).semNsems →
      ((s'.semAt j num).semval.toNat : Int) =
        max 0 ((l.fac.semAt j num).semval.toNat - l.sinceCreated p j num) := by
  intro hall
  obtain ⟨s', hexit, hval⟩ := hall generic fiveSet reached_fiveSet 1 fun j num hj hnum => by
    obtain ⟨rfl, rfl⟩ := only_semaphore rfl hj hnum
    decide
  obtain rfl := Option.some.inj ((show some _ = semexit 1 fiveSet.fac from rfl).trans hexit)
  exact absurd (hval 0 0 rfl (by decide)) (by decide)

end NetBSD.Sysv
