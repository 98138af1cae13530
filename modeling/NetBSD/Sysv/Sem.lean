import NetBSD.Mbuf.Chain
import Mathlib.Logic.Function.Basic

/-!
# System V semaphores

`sysv_sem.c`: `semop` with the undo structures. A call runs from where it starts or wakes up to where it
sleeps or returns; in between other processes do as they like. A sleep may end at any time, so the calls of
`wakeup` are left out. `none` stands for a panic.
-/

namespace NetBSD.Sysv

open Function (update)

def semume : Nat := 10

def semmsl : Nat := 60

def maxSops : Nat := 5

structure Sem where
  semval : Word16 := 0
  sempid : Nat := 0
  semncnt : Word16 := 0
  semzcnt : Word16 := 0
  deriving DecidableEq

structure SemidDs where
  /-- `SEM_ALLOC` in `sem_perm.mode`. -/
  semAlloc : Bool := false
  seq : Nat := 0
  semBase : Nat := 0
  semNsems : Nat := 0
  deriving DecidableEq

structure Undo where
  unAdjval : Word16
  unNum : Nat
  unId : Nat
  deriving DecidableEq

structure SemUndo where
  unProc : Nat
  unEnt : List Undo
  deriving DecidableEq

structure Sembuf where
  semNum : Nat
  semOp : Word16
  ipcNowait : Bool := false
  semUndo : Bool := false
  deriving DecidableEq

inductive Errno where
  | einval
  | eacces
  | e2big
  | efault
  | efbig
  | eagain
  | eintr
  | enospc
  | enoent
  | eexist
  deriving DecidableEq

def ipcidToIx (id : Word32) : Nat := (id &&& 0xffff).toNat

def ipcidToSeq (id : Word32) : Nat := ((id >>> 16) &&& 0xffff).toNat

/-- The semaphores of the system. Of `semmnu` undo structures those on the list are in use. -/
structure Semaphores where
  sema : Nat → SemidDs
  sem : Nat → Sem
  semuList : List SemUndo
  semmnu : Nat

def semuAlloc (semmnu : Nat) (p : Nat) (list : List SemUndo) : Except Errno (List SemUndo) :=
  if list.length < semmnu then .ok (⟨p, []⟩ :: list)
  else
    let active := list.filter (·.unEnt ≠ [])
    if active.length = list.length then .error .enospc else .ok (⟨p, []⟩ :: active)

/-- The search for an entry in `semundo_adjust`: an entry that becomes 0 gives its place to the last one. -/
def adjustEntry (semid semnum : Nat) (adjval : Int) (ents : List Undo) : Except Errno (List Undo) :=
  match ents.findIdx? fun u => u.unId = semid ∧ u.unNum = semnum with
  | some i =>
    let old := ents.getD i ⟨0, 0, 0⟩
    let new := if adjval = 0 then 0 else old.unAdjval + BitVec.ofInt 16 adjval
    if new = 0 then .ok ((ents.set i (ents.getLastD old)).dropLast)
    else .ok (ents.set i { old with unAdjval := new })
  | none =>
    if adjval = 0 then .ok ents
    else if ents.length ≠ semume then .ok (ents ++ [⟨BitVec.ofInt 16 adjval, semnum, semid⟩])
    else .error .einval

def adjustProc (p semid semnum : Nat) (adjval : Int) : List SemUndo → Except Errno (List SemUndo)
  | [] => .ok []
  | suptr :: rest =>
    if suptr.unProc = p then do
      let ents ← adjustEntry semid semnum adjval suptr.unEnt
      return { suptr with unEnt := ents } :: rest
    else do
      let rest ← adjustProc p semid semnum adjval rest
      return suptr :: rest

def semundoAdjust (semmnu p semid semnum : Nat) (adjval : Int) (list : List SemUndo) :
    Except Errno (List SemUndo) :=
  if list.any (·.unProc = p) then adjustProc p semid semnum adjval list
  else if adjval = 0 then .ok list
  else do
    let list ← semuAlloc semmnu p list
    adjustProc p semid semnum adjval list

def rollbackUndos (semmnu p semid : Nat) : List Sembuf → List SemUndo → Option (List SemUndo)
  | [], list => some list
  | op :: done, list =>
    if !op.semUndo ∨ op.semOp = 0 then rollbackUndos semmnu p semid done list
    else
      match semundoAdjust semmnu p semid op.semNum op.semOp.toInt list with
      | .ok list => rollbackUndos semmnu p semid done list
      | .error _ => none

/-- The loop that records the `SEM_UNDO` operations; `done` has those it is through with. -/
def recordUndos (semmnu p semid : Nat) (done : List Sembuf) :
    List Sembuf → List SemUndo → Option (Option Errno × List SemUndo)
  | [], list => some (none, list)
  | op :: rest, list =>
    if !op.semUndo ∨ op.semOp = 0 then recordUndos semmnu p semid (op :: done) rest list
    else
      match semundoAdjust semmnu p semid op.semNum (-op.semOp.toInt) list with
      | .ok list => recordUndos semmnu p semid (op :: done) rest list
      | .error e => (rollbackUndos semmnu p semid done list).map fun list => (some e, list)

def addTo (sem : Nat → Sem) (k : Nat) (n : Word16) : Nat → Sem :=
  update sem k { sem k with semval := (sem k).semval + n }

inductive Stop where
  | efbig
  | wait (op : Sembuf)
  deriving DecidableEq

structure Try where
  i : Nat := 0
  sem : Nat → Sem
  doUndos : Bool
  stop : Option Stop := none

def tryOps (ds : SemidDs) : List Sembuf → Try → Try
  | [], t => t
  | op :: rest, t =>
    if op.semNum ≥ ds.semNsems then { t with stop := some .efbig }
    else
      let k := ds.semBase + op.semNum
      if op.semOp.toInt < 0 then
        if (t.sem k).semval.toNat + op.semOp.toInt < 0 then { t with stop := some (.wait op) }
        else
          tryOps ds rest { t with
            i := t.i + 1
            sem := addTo t.sem k op.semOp
            doUndos := t.doUndos || op.semUndo }
      else if op.semOp = 0 then
        if (t.sem k).semval > 0 then { t with stop := some (.wait op) }
        else tryOps ds rest { t with i := t.i + 1 }
      else
        tryOps ds rest { t with
          i := t.i + 1
          sem := addTo t.sem k op.semOp
          doUndos := t.doUndos || op.semUndo }

def rollback (ds : SemidDs) (ops : List Sembuf) (sem : Nat → Sem) : Nat → Sem :=
  ops.foldl (fun sem op => addTo sem (ds.semBase + op.semNum) (-op.semOp)) sem

def setPids (ds : SemidDs) (p : Nat) (ops : List Sembuf) (sem : Nat → Sem) : Nat → Sem :=
  ops.foldl (fun sem op =>
    update sem (ds.semBase + op.semNum) { sem (ds.semBase + op.semNum) with sempid := p }) sem

def Sem.await (s : Sem) (op : Sembuf) (n : Word16) : Sem :=
  if op.semOp = 0 then { s with semzcnt := s.semzcnt + n } else { s with semncnt := s.semncnt + n }

def countAt (sem : Nat → Sem) (k : Nat) (op : Sembuf) (n : Word16) : Nat → Sem :=
  update sem k ((sem k).await op n)

structure SemopArgs where
  p : Nat
  semid : Word32
  sops : List Sembuf
  ipcperm : Option Errno := none
  copyin : Option Errno := none

def SemopArgs.ix (a : SemopArgs) : Nat := ipcidToIx a.semid

def SemopArgs.seq (a : SemopArgs) : Nat := ipcidToSeq a.semid

structure Waiting where
  semptr : Nat
  sopptr : Sembuf
  doUndos : Bool
  deriving DecidableEq

inductive Progress where
  | returned (error : Option Errno)
  | asleep (w : Waiting)
  deriving DecidableEq

def semopDone (a : SemopArgs) (t : Try) (s : Semaphores) : Option (Progress × Semaphores) :=
  let ds := s.sema a.ix
  let recorded :=
    if t.doUndos then recordUndos s.semmnu a.p a.ix [] a.sops s.semuList else some (none, s.semuList)
  recorded.map fun
    | (some e, list) =>
      (.returned (some e), { s with sem := rollback ds a.sops t.sem, semuList := list })
    | (none, list) => (.returned none, { s with sem := setPids ds a.p a.sops t.sem, semuList := list })

def semopRound (a : SemopArgs) (doUndos : Bool) (s : Semaphores) : Option (Progress × Semaphores) :=
  let ds := s.sema a.ix
  let t := tryOps ds a.sops { sem := s.sem, doUndos }
  match t.stop with
  | none => semopDone a t s
  | some .efbig => some (.returned (some .efbig), { s with sem := t.sem })
  | some (.wait op) =>
    let sem := rollback ds (a.sops.take t.i) t.sem
    if op.ipcNowait then some (.returned (some .eagain), { s with sem })
    else
      let k := ds.semBase + op.semNum
      some (.asleep ⟨k, op, t.doUndos⟩, { s with sem := countAt sem k op 1 })

def semopStart (a : SemopArgs) (s : Semaphores) : Option (Progress × Semaphores) :=
  if a.ix ≥ semmsl ∨ (s.sema a.ix).semAlloc = false ∨ (s.sema a.ix).seq ≠ a.seq then
    some (.returned (some .einval), s)
  else if let some e := a.ipcperm then some (.returned (some e), s)
  else if a.sops.length > maxSops then some (.returned (some .e2big), s)
  else if let some e := a.copyin then some (.returned (some e), s)
  else semopRound a false s

/-- What a sleep ends with: whether it was interrupted, whether others removed the set in the meantime, and
the semaphores as the others left them. -/
structure Wakeup where
  interrupted : Bool
  removed : Bool
  sys : Semaphores

def semopWake (a : SemopArgs) (w : Waiting) (wake : Wakeup) : Option (Progress × Semaphores) :=
  let s := wake.sys
  if wake.interrupted then some (.returned (some .eintr), s)
  else if (s.sema a.ix).semAlloc = false ∨ (s.sema a.ix).seq ≠ a.seq then
    some (.returned (some .einval), s)
  else semopRound a w.doUndos { s with sem := countAt s.sem w.semptr w.sopptr (-1) }

end NetBSD.Sysv
