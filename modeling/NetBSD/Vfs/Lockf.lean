import NetBSD.Lib.Runs
import Mathlib.Algebra.Ring.Int.Defs
import Mathlib.Algebra.Ring.Nat
import Mathlib.Order.Defs.LinearOrder

/-!
# Advisory locks

`vfs_lockf.c`: the byte-range locks of one file, with the requests that wait for them. A lock is named by
the address of its structure, and no address is used twice. `none` stands for behaviour that is not
defined: a freed structure is used, or the kernel panics.
-/

namespace NetBSD.Vfs

def offT (x : Int) : Int := x.bmod (2 ^ 64)

def offMax : Int := 2 ^ 63 - 1

inductive LockType where
  | rdlck
  | unlck
  | wrlck
  deriving DecidableEq

structure Flags where
  fWait : Bool
  fFlock : Bool
  fPosix : Bool
  deriving DecidableEq

@[ext]
structure Span where
  lfType : LockType
  lfStart : Int
  lfEnd : Int
  lfId : Nat
  deriving DecidableEq

structure Lockf extends Span where
  addr : Nat
  lfFlags : Flags
  lfBlock : List Nat := []
  deriving DecidableEq

inductive Overlap where
  | none
  | equal
  | contains
  | contained
  | startsBefore
  | endsAfter
  | panic
  deriving DecidableEq

def overlapCase (lock lf : Span) : Overlap :=
  if (lf.lfEnd ≠ -1 ∧ lock.lfStart > lf.lfEnd) ∨ (lock.lfEnd ≠ -1 ∧ lf.lfStart > lock.lfEnd) then .none
  else if lf.lfStart = lock.lfStart ∧ lf.lfEnd = lock.lfEnd then .equal
  else if lf.lfStart ≤ lock.lfStart ∧ lock.lfEnd ≠ -1 ∧ (lf.lfEnd ≥ lock.lfEnd ∨ lf.lfEnd = -1) then
    .contains
  else if lock.lfStart ≤ lf.lfStart ∧ (lock.lfEnd = -1 ∨ (lf.lfEnd ≠ -1 ∧ lock.lfEnd ≥ lf.lfEnd)) then
    .contained
  else if lf.lfStart < lock.lfStart ∧ (lf.lfEnd ≥ lock.lfStart ∨ lf.lfEnd = -1) then .startsBefore
  else if lf.lfStart > lock.lfStart ∧ lock.lfEnd ≠ -1 ∧ (lf.lfEnd > lock.lfEnd ∨ lf.lfEnd = -1) then
    .endsAfter
  else .panic

theorem overlapCase_ne_panic (lock lf : Span) : overlapCase lock lf ≠ .panic := by
  intro h
  unfold overlapCase at h
  split_ifs at h
  omega

inductive Whose where
  | self
  | others
  deriving DecidableEq

def Whose.skips : Whose → Span → Span → Bool
  | .self, lock, lf => lf.lfId ≠ lock.lfId
  | .others, lock, lf => lf.lfId = lock.lfId

/-- `lf_findoverlap` returns a case; `rest` is the list from `*overlap` on, and `*prev` has gone past
`passed`. -/
structure Found where
  ovcase : Overlap
  passed : List Lockf
  rest : List Lockf
  deriving DecidableEq

def Found.pass (lf : Lockf) (found : Found) : Found := { found with passed := lf :: found.passed }

def lfFindoverlap (type : Whose) (lock : Span) : List Lockf → Found
  | [] => ⟨.none, [], []⟩
  | lf :: rest =>
    if type.skips lock lf.toSpan then (lfFindoverlap type lock rest).pass lf
    else if overlapCase lock lf.toSpan = .none then
      if type = .self ∧ lock.lfEnd ≠ -1 ∧ lf.lfStart > lock.lfEnd then ⟨.none, [], lf :: rest⟩
      else (lfFindoverlap type lock rest).pass lf
    else ⟨overlapCase lock lf.toSpan, [], lf :: rest⟩

def lfGetblock (lock : Span) : Nat → List Lockf → Option Lockf
  | 0, _ => none
  | fuel + 1, lf =>
    match lfFindoverlap .others lock lf with
    | ⟨.none, _, _⟩ | ⟨_, _, []⟩ => none
    | ⟨_, _, overlap :: rest⟩ =>
      if lock.lfType = .wrlck ∨ overlap.lfType = .wrlck then some overlap
      else lfGetblock lock fuel rest

/-- `lf_split`: the pieces of `lock1` before `lock2` and behind it, where `addr` is what `MALLOC` returns.
The callers see to the case of a common start themselves. -/
def lfSplit (addr : Nat) (lock1 : Lockf) (lock2 : Span) : List Lockf × List Lockf :=
  if lock1.lfStart = lock2.lfStart then ([], [{ lock1 with lfStart := offT (lock2.lfEnd + 1) }])
  else if lock1.lfEnd = lock2.lfEnd then ([{ lock1 with lfEnd := offT (lock2.lfStart - 1) }], [])
  else
    ([{ lock1 with lfEnd := offT (lock2.lfStart - 1) }],
      [{ lock1 with addr, lfStart := offT (lock2.lfEnd + 1), lfBlock := [] }])

structure Walked where
  locks : List Lockf
  woken : List Nat
  deriving DecidableEq

def clearLoop (addr : Nat) (unlock : Span) : Nat → List Lockf → Option Walked
  | 0, _ => none
  | fuel + 1, lf =>
    match lfFindoverlap .self unlock lf with
    | ⟨.none, passed, rest⟩ => some ⟨passed ++ rest, []⟩
    | ⟨.equal, passed, overlap :: rest⟩ => some ⟨passed ++ rest, overlap.lfBlock⟩
    | ⟨.contains, passed, overlap :: rest⟩ =>
      if overlap.lfStart = unlock.lfStart then
        some ⟨passed ++ { overlap with lfStart := offT (unlock.lfEnd + 1), lfBlock := [] } :: rest,
          overlap.lfBlock⟩
      else
        let pieces := lfSplit addr { overlap with lfBlock := [] } unlock
        some ⟨passed ++ pieces.1 ++ pieces.2 ++ rest, overlap.lfBlock⟩
    | ⟨.contained, passed, overlap :: rest⟩ => do
        let w ← clearLoop addr unlock fuel rest
        return ⟨passed ++ w.locks, overlap.lfBlock ++ w.woken⟩
    | ⟨.startsBefore, passed, overlap :: rest⟩ => do
        let w ← clearLoop addr unlock fuel rest
        return ⟨passed ++ { overlap with lfEnd := offT (unlock.lfStart - 1), lfBlock := [] } :: w.locks,
          overlap.lfBlock ++ w.woken⟩
    | ⟨.endsAfter, passed, overlap :: rest⟩ =>
      some ⟨passed ++ { overlap with lfStart := offT (unlock.lfEnd + 1), lfBlock := [] } :: rest,
        overlap.lfBlock⟩
    | _ => none

def Lockf.downgrades (lock overlap : Lockf) : Bool :=
  lock.lfType = .rdlck ∧ overlap.lfType = .wrlck

/-- What `lf_setlock` does about the requests that wait for an overlap it deletes: the lock with its new
`lf_block`, and the requests that are woken. -/
def takeBlock (lock overlap : Lockf) : Lockf × List Nat :=
  if lock.downgrades overlap then (lock, overlap.lfBlock)
  else ({ lock with lfBlock := overlap.lfBlock ++ lock.lfBlock }, [])

/-- The last loop of `lf_setlock` once `needtolink` is clear: the lock, which is in the list, and what
follows it. The other cases would free it or link it again. -/
def setRest : Nat → Lockf → List Lockf → Option (Lockf × Walked)
  | 0, _, _ => none
  | fuel + 1, lock, block =>
    match lfFindoverlap .self lock.toSpan block with
    | ⟨.none, passed, rest⟩ => some (lock, ⟨passed ++ rest, []⟩)
    | ⟨.contained, passed, overlap :: rest⟩ => do
        let taken := takeBlock lock overlap
        let (lock, w) ← setRest fuel taken.1 rest
        return (lock, ⟨passed ++ w.locks, taken.2 ++ w.woken⟩)
    | ⟨.endsAfter, passed, overlap :: rest⟩ =>
      some (lock, ⟨passed ++ { overlap with lfStart := offT (lock.lfEnd + 1), lfBlock := [] } :: rest,
        overlap.lfBlock⟩)
    | _ => none

def setLoop (addr : Nat) (fuel : Nat) (lock : Lockf) (block : List Lockf) : Option Walked :=
  match lfFindoverlap .self lock.toSpan block with
  | ⟨.none, passed, rest⟩ => some ⟨passed ++ lock :: rest, []⟩
  | ⟨.equal, passed, overlap :: rest⟩ =>
    if lock.downgrades overlap then
      some ⟨passed ++ { overlap with lfType := lock.lfType, lfBlock := [] } :: rest, overlap.lfBlock⟩
    else some ⟨passed ++ { overlap with lfType := lock.lfType } :: rest, []⟩
  | ⟨.contains, passed, overlap :: rest⟩ =>
    if overlap.lfType = lock.lfType then some ⟨passed ++ overlap :: rest, []⟩
    else if overlap.lfStart = lock.lfStart then
      some ⟨passed ++ lock :: { overlap with lfStart := offT (lock.lfEnd + 1), lfBlock := [] } :: rest,
        overlap.lfBlock⟩
    else
      let pieces := lfSplit addr { overlap with lfBlock := [] } lock.toSpan
      some ⟨passed ++ pieces.1 ++ lock :: pieces.2 ++ rest, overlap.lfBlock⟩
  | ⟨.contained, passed, overlap :: rest⟩ => do
      let taken := takeBlock lock overlap
      let (lock, w) ← setRest fuel taken.1 rest
      return ⟨passed ++ lock :: w.locks, taken.2 ++ w.woken⟩
  | ⟨.startsBefore, passed, overlap :: rest⟩ => do
      let (lock, w) ← setRest fuel lock rest
      return ⟨passed ++ { overlap with lfEnd := offT (lock.lfStart - 1), lfBlock := [] } :: lock :: w.locks,
        overlap.lfBlock ++ w.woken⟩
  | ⟨.endsAfter, passed, overlap :: rest⟩ =>
    some ⟨passed ++ lock :: { overlap with lfStart := offT (lock.lfEnd + 1), lfBlock := [] } :: rest,
      overlap.lfBlock⟩
  | _ => none

/-- The overlap that `lf_setlock` calls `lf_split` for when that is going to call `MALLOC`. -/
def splitInThree (lock : Lockf) (block : List Lockf) : Option Lockf :=
  match lfFindoverlap .self lock.toSpan block with
  | ⟨.contains, _, overlap :: _⟩ =>
    if overlap.lfType ≠ lock.lfType ∧ overlap.lfStart ≠ lock.lfStart ∧ overlap.lfEnd ≠ lock.lfEnd then
      some overlap
    else none
  | _ => none

/-- A request in `tsleep`, and the lock that its `lf_next` points to; a wakeup clears it. -/
structure Sleeper where
  lock : Lockf
  lfNext : Option Nat
  deriving DecidableEq

/-- The locks of a file in the order of its list, and the requests that sleep: those that wait for a lock,
and those in the `MALLOC` of `lf_split`, with the lock they split. -/
structure File where
  locks : List Lockf := []
  asleep : List Sleeper := []
  splitting : List (Lockf × Nat) := []
  /-- The address of the next structure. -/
  next : Nat := 0
  deriving DecidableEq

def Sleeper.wake (woken : List Nat) (s : Sleeper) : Sleeper :=
  if s.lock.addr ∈ woken then { s with lfNext := none } else s

def File.lockAt (f : File) (addr : Nat) : Option Lockf := f.locks.find? (·.addr = addr)

def File.sleeper (f : File) (addr : Nat) : Option Sleeper := f.asleep.find? (·.lock.addr = addr)

def File.runnable (f : File) (addr : Nat) : Option Sleeper :=
  f.asleep.find? fun s => s.lock.addr = addr ∧ s.lfNext = none

def File.walked (f : File) (w : Walked) : File :=
  { f with locks := w.locks, asleep := f.asleep.map (Sleeper.wake w.woken), next := f.next + 1 }

def lfClearlock (unlock : Span) (f : File) : Option File :=
  (clearLoop f.next unlock (f.locks.length + 1) f.locks).map f.walked

def Lockf.addblock (block blocked : Nat) (lf : Lockf) : Lockf :=
  if lf.addr = block then { lf with lfBlock := lf.lfBlock ++ [blocked] } else lf

inductive Outcome where
  | granted (lock : Span)
  | cleared (unlock : Span)
  | eagain
  | edeadlk
  | eintr
  | sleeps
  | idle
  deriving DecidableEq

/-- What the rest of the kernel answers: whether a chain of sleeping processes leads back to this one, and
whether `MALLOC` has to wait. -/
structure Env where
  deadlock : Bool := false
  waits : Bool := false
  deriving DecidableEq

def lfSetlock (env : Env) (lock : Lockf) (f : File) : Option (Outcome × File) :=
  match lfGetblock lock.toSpan (f.locks.length + 1) f.locks with
  | some block =>
    if !lock.lfFlags.fWait then some (.eagain, f)
    else if lock.lfFlags.fPosix && block.lfFlags.fPosix && env.deadlock then some (.edeadlk, f)
    else do
      -- A shared `flock` lock is given up before the wait for an exclusive one.
      let f ← if lock.lfFlags.fFlock ∧ lock.lfType = .wrlck then
          lfClearlock { lock.toSpan with lfType := .unlck } f
        else some f
      return (.sleeps, { f with
        locks := f.locks.map (Lockf.addblock block.addr lock.addr)
        asleep := f.asleep ++ [⟨lock, some block.addr⟩] })
  | none =>
    match splitInThree lock f.locks, env.waits with
    | some overlap, true => some (.sleeps, { f with splitting := f.splitting ++ [(lock, overlap.addr)] })
    | _, _ =>
      (setLoop f.next (f.locks.length + 1) lock f.locks).map fun w => (.granted lock.toSpan, f.walked w)

def resumeSplit (lock : Lockf) (overlap : Nat) (f : File) : Option (Outcome × File) :=
  match f.lockAt overlap with
  | none => none
  | some lf =>
    let pieces := lfSplit f.next { lf with lfBlock := [] } lock.toSpan
    let locks := f.locks.flatMap fun l =>
      if l.addr = overlap then pieces.1 ++ lock :: pieces.2 else [l]
    some (.granted lock.toSpan, f.walked ⟨locks, lf.lfBlock⟩)

def Lockf.unchain (block blocked : Nat) (lf : Lockf) : Lockf :=
  if lf.addr = block then { lf with lfBlock := lf.lfBlock.erase blocked } else lf

/-- What `lf_setlock` does when `tsleep` fails: it takes the request out of the list it is in. -/
def interrupted (s : Sleeper) (f : File) : Option File :=
  match s.lfNext with
  | none => some f
  | some a =>
    match f.lockAt a with
    | none => none
    | some block =>
      if s.lock.addr ∈ block.lfBlock then
        some { f with locks := f.locks.map (Lockf.unchain a s.lock.addr) }
      else none

inductive Call where
  /-- `lf_setlock` on a new request. -/
  | set (request : Span) (flags : Flags) (env : Env)
  /-- `lf_clearlock`; its `MALLOC` splits a lock of the caller, which nobody else changes in a wait. -/
  | clear (request : Span)
  /-- `tsleep` returns to a request that was woken. -/
  | run (addr : Nat) (env : Env)
  /-- A signal ends the sleep of a request. -/
  | interrupt (addr : Nat)
  /-- `MALLOC` returns to a request. -/
  | resume (addr : Nat)

def File.step (f : File) : Call → Option (Outcome × File)
  | .set request flags env =>
    lfSetlock env { request with addr := f.next, lfFlags := flags } { f with next := f.next + 1 }
  | .clear request => (lfClearlock request f).map fun f' => (.cleared request, f')
  | .run addr env =>
    match f.runnable addr with
    | none => some (.idle, f)
    | some s => lfSetlock env s.lock { f with asleep := f.asleep.erase s }
  | .interrupt addr =>
    match f.sleeper addr with
    | none => some (.idle, f)
    | some s => (interrupted s { f with asleep := f.asleep.erase s }).map fun f' => (.eintr, f')
  | .resume addr =>
    match f.splitting.find? fun p => p.1.addr = addr with
    | none => some (.idle, f)
    | some p => resumeSplit p.1 p.2 { f with splitting := f.splitting.erase p }

end NetBSD.Vfs
