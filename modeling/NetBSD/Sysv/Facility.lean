import NetBSD.Sysv.Semop
import NetBSD.Lib.Runs

/-!
# The semaphore facility

The rest of `sysv_sem.c`: `semget`, the commands of `semctl` that change semaphores, and `semexit`. In a run of the
facility processes make these calls and sleep in `semop`. Behind the array `sema` nothing looks like a set.
-/

namespace NetBSD.Sysv

open Function (update)

structure Seminfo where
  semmni : Nat
  semmns : Nat

structure Asleep where
  args : SemopArgs
  waiting : Waiting

structure Facility extends Semaphores where
  /-- `sem_perm.key` of each set. -/
  key : Nat → Int := fun _ => 0
  semtot : Nat := 0
  asleep : List Asleep := []

/-- The loop of `semundo_clear` over the entries of a structure: the last one takes the place of one that goes. -/
def clearEntries (semid : Nat) (semnum : Int) : Nat → Nat → List Undo → List Undo
  | 0, _, ents => ents
  | fuel + 1, i, ents =>
    match ents[i]? with
    | none => ents
    | some u =>
      if u.unId = semid then
        if semnum = -1 ∨ u.unNum = semnum then
          let left := (ents.set i (ents.getLastD u)).dropLast
          if i < left.length then clearEntries semid semnum fuel i left
          else if semnum ≠ -1 then left
          else clearEntries semid semnum fuel (i + 1) left
        else ents
      else clearEntries semid semnum fuel (i + 1) ents

def semundoClear (semid : Nat) (semnum : Int) (list : List SemUndo) : List SemUndo :=
  list.map fun suptr => { suptr with unEnt := clearEntries semid semnum suptr.unEnt.length 0 suptr.unEnt }

def ixseqToIpcid (ix : Nat) (ds : SemidDs) : Nat := (ds.seq <<< 16) ||| (ix &&& 0xffff)

def semget (info : Seminfo) (key nsems : Int) (creat excl : Bool) (ipcperm : Option Errno) (s : Facility) :
    Except Errno Nat × Facility :=
  let found := (List.range info.semmni).find? fun i => key ≠ 0 ∧ (s.sema i).semAlloc = true ∧ s.key i = key
  match found with
  | some i =>
    if let some e := ipcperm then (.error e, s)
    else if nsems > 0 ∧ (s.sema i).semNsems < nsems then (.error .einval, s)
    else if creat ∧ excl then (.error .eexist, s)
    else (.ok (ixseqToIpcid i (s.sema i)), s)
  | none =>
    if key = 0 ∨ creat then
      if nsems ≤ 0 ∨ nsems > semmsl then (.error .einval, s)
      else if nsems > info.semmns - s.semtot then (.error .enospc, s)
      else
        match (List.range info.semmni).find? fun i => (s.sema i).semAlloc = false with
        | none => (.error .enospc, s)
        | some i =>
          let ds := {
            semAlloc := true
            seq := ((s.sema i).seq + 1) % 2 ^ 15
            semBase := s.semtot
            semNsems := nsems.toNat }
          (.ok (ixseqToIpcid i ds), { s with
            key := update s.key i key
            sema := update s.sema i ds
            semtot := s.semtot + nsems.toNat
            sem := fun k => if s.semtot ≤ k ∧ k < s.semtot + nsems.toNat then {} else s.sem k })
    else (.error .enoent, s)

/-- The commands of `semctl` that change semaphores, with what is copied in: nothing where the copy faults. -/
inductive Semcmd where
  | ipcRmid
  | setval (val : Option Word32)
  | setall (array : Nat → Option Word16)

def Facility.rmid (info : Seminfo) (ix : Nat) (s : Facility) : Facility :=
  let ds := s.sema ix
  let semtot := s.semtot - ds.semNsems
  { s with
    semtot
    sem := fun k => if ds.semBase ≤ k ∧ k < semtot then s.sem (k + ds.semNsems) else s.sem k
    sema := update (fun i =>
      if i < info.semmni ∧ (s.sema i).semAlloc = true ∧ ds.semBase < (s.sema i).semBase then
        { s.sema i with semBase := (s.sema i).semBase - ds.semNsems }
      else s.sema i) ix { ds with semAlloc := false }
    semuList := semundoClear ix (-1) s.semuList }

def setSemval (sem : Nat → Sem) (k : Nat) (val : Word16) : Nat → Sem := update sem k { sem k with semval := val }

def setAll (semBase : Nat) (array : Nat → Option Word16) : Nat → Nat → (Nat → Sem) → Option Errno × (Nat → Sem)
  | 0, _, sem => (none, sem)
  | n + 1, i, sem =>
    match array i with
    | none => (some .efault, sem)
    | some val => setAll semBase array n (i + 1) (setSemval sem (semBase + i) val)

def semctl (info : Seminfo) (semid : Word32) (semnum : Int) (cmd : Semcmd) (ipcperm : Option Errno)
    (s : Facility) : Except Errno Nat × Facility :=
  let ix := ipcidToIx semid
  let ds := s.sema ix
  if ix ≥ semmsl ∨ ds.semAlloc = false ∨ ds.seq ≠ ipcidToSeq semid then (.error .einval, s)
  else if let some e := ipcperm then (.error e, s)
  else
    match cmd with
    | .ipcRmid => (.ok 0, s.rmid info ix)
    | .setval val =>
      if semnum < 0 ∨ semnum ≥ ds.semNsems then (.error .einval, s)
      else
        match val with
        | none => (.error .efault, s)
        | some val =>
          (.ok 0, { s with
            sem := setSemval s.sem (ds.semBase + semnum.toNat) (val.setWidth 16)
            semuList := semundoClear ix semnum s.semuList })
    | .setall array =>
      let (e, sem) := setAll ds.semBase array ds.semNsems 0 s.sem
      (e.elim (.ok 0) .error, { s with sem, semuList := semundoClear ix (-1) s.semuList })

def Sem.adjust (sem : Sem) (adjval : Word16) : Sem :=
  if adjval.toInt < 0 ∧ (sem.semval.toNat : Int) < -adjval.toInt then { sem with semval := 0 }
  else { sem with semval := sem.semval + adjval }

def exitEntries (sema : Nat → SemidDs) : List Undo → (Nat → Sem) → Option (Nat → Sem)
  | [], sem => some sem
  | u :: rest, sem =>
    let ds := sema u.unId
    if ds.semAlloc = false ∨ u.unNum ≥ ds.semNsems then none
    else
      let k := ds.semBase + u.unNum
      exitEntries sema rest (update sem k ((sem k).adjust u.unAdjval))

def semexit (p : Nat) (s : Facility) : Option Facility :=
  match s.semuList.find? (·.unProc = p) with
  | none => some s
  | some suptr =>
    (exitEntries s.sema suptr.unEnt s.sem).map fun sem =>
      { s with sem, semuList := s.semuList.eraseP (·.unProc = p) }

inductive SemCall where
  | semget (key nsems : Int) (creat excl : Bool) (ipcperm : Option Errno)
  | semctl (semid : Word32) (semnum : Int) (cmd : Semcmd) (ipcperm : Option Errno)
  | semop (a : SemopArgs)
  | wake (i : Nat) (interrupted : Bool)
  | semexit (p : Nat)

def Facility.goes (s : Facility) (a : SemopArgs) (r : Progress × Semaphores) : Facility :=
  match r.1 with
  | .returned _ => { s with toSemaphores := r.2 }
  | .asleep w => { s with toSemaphores := r.2, asleep := s.asleep ++ [⟨a, w⟩] }

def Facility.step (info : Seminfo) (s : Facility) : SemCall → Option Facility
  | .semget key nsems creat excl ipcperm => some (semget info key nsems creat excl ipcperm s).2
  | .semctl semid semnum cmd ipcperm => some (Sysv.semctl info semid semnum cmd ipcperm s).2
  | .semop a => (semopStart a s.toSemaphores).map (s.goes a)
  | .wake i interrupted =>
    match s.asleep[i]? with
    | none => some s
    | some t =>
      (semopWake t.args t.waiting ⟨interrupted, false, s.toSemaphores⟩).map
        ({ s with asleep := s.asleep.eraseIdx i }.goes t.args)
  | .semexit p => Sysv.semexit p s

def Facility.Allowed (s : Facility) : SemCall → Prop
  | .semop a => ∀ t ∈ s.asleep, t.args.p ≠ a.p
  | .semexit p => ∀ t ∈ s.asleep, t.args.p ≠ p
  | _ => True

structure Facility.Initial (s : Facility) : Prop where
  sema : ∀ i, (s.sema i).semAlloc = false
  semtot : s.semtot = 0
  semuList : s.semuList = []
  asleep : s.asleep = []

def Facility.Reached (info : Seminfo) : Facility → Prop :=
  Lib.Runs Facility.Initial (Facility.step info) Facility.Allowed

end NetBSD.Sysv
