import NetBSD.Lib.Runs
import Mathlib.Data.List.Basic
import Mathlib.Logic.Function.Basic
import Mathlib.Data.Int.Order.Basic

/-!
# Shared memory segments

`sysv_shm.c`, without the times and the identifiers of processes. A process is in a call of `shmget`, `shmat` or `fork`
while it sleeps in `malloc`, `vm_mmap` or `tsleep`; in between other processes make calls. There is no result where the
kernel panics or follows a null pointer.
-/

namespace NetBSD.Shm

open Function (update)

structure Shminfo where
  shmmax : Nat
  shmmin : Nat
  shmmni : Nat
  shmseg : Nat
  shmall : Nat

structure ShmidDs where
  key : Int
  seq : Nat
  free : Bool
  removed : Bool
  allocated : Bool
  wanted : Bool
  shmSegsz : Nat
  shmNattch : Int
  deriving DecidableEq

structure ShmmapState where
  va : Nat
  shmid : Option Nat
  deriving DecidableEq

def ShmidDs.setFree (d : ShmidDs) : ShmidDs :=
  { d with free := true, removed := false, allocated := false, wanted := false }

inductive Errno where
  | einval
  | enospc
  | enomem
  | enoent
  | eexist
  | emfile
  | eintr
  | eacces
  deriving DecidableEq

structure ShmgetArgs where
  key : Int
  size : Nat
  shmflg : Nat
  deriving DecidableEq

structure ShmatArgs where
  shmid : Nat
  shmaddr : Nat
  shmflg : Nat
  deriving DecidableEq

/-- Where a process sleeps: in `tsleep` for a segment, perhaps woken up already; in `malloc` or `vm_mmap` of `shmget`, of
`shmat`; or in `malloc` of `shmfork`. -/
inductive Sleep where
  | getWait (uap : ShmgetArgs) (segnum : Nat) (woken : Bool)
  | getMalloc (uap : ShmgetArgs) (segnum : Nat)
  | getMmap (uap : ShmgetArgs) (segnum shmid : Nat)
  | atMalloc (uap : ShmatArgs)
  | atMmap (uap : ShmatArgs) (slot segnum : Nat)
  | forkMalloc
  deriving DecidableEq

structure Proc where
  alive : Bool
  vmShm : Option (List ShmmapState)
  sleep : Option Sleep
  deriving DecidableEq

def Proc.unmap (slot : Nat) (p : Proc) : Proc :=
  { p with vmShm := p.vmShm.map fun shmmap => shmmap.modify slot fun e => { e with shmid := none } }

def Proc.map (slot : Nat) (e : ShmmapState) (p : Proc) : Proc :=
  { p with vmShm := p.vmShm.map fun shmmap => shmmap.set slot e }

def Proc.wakeup (segnum : Nat) (p : Proc) : Proc :=
  match p.sleep with
  | some (.getWait uap i woken) => { p with sleep := some (.getWait uap i (woken || i == segnum)) }
  | _ => p

structure Sys where
  shmsegs : Nat → ShmidDs
  shmLastFree : Option Nat
  shmNused : Int
  shmCommitted : Int
  procs : List Proc

inductive Reply where
  | ret (value : Except Errno Nat)
  | sleeps

def short (x : Int) : Int := x.bmod 65536

def ipcidToIx (id : Nat) : Nat := id % 65536

def ipcidToSeq (id : Nat) : Nat := id / 65536 % 65536

def ixseqToIpcid (ix : Nat) (perm : ShmidDs) : Nat := perm.seq * 65536 + ix % 65536

def clround (x : Nat) : Nat := (x + 4095) / 4096 * 4096

def btoc (x : Nat) : Nat := (x + 4095) / 4096

namespace Sys

variable (c : Shminfo) (s : Sys)

def setSeg (i : Nat) (f : ShmidDs → ShmidDs) : Sys := { s with shmsegs := update s.shmsegs i (f (s.shmsegs i)) }

def setProc (pid : Nat) (f : Proc → Proc) : Sys := { s with procs := s.procs.modify pid f }

def sleeps (pid : Nat) (w : Sleep) : Option (Reply × Sys) :=
  some (.sleeps, s.setProc pid fun p => { p with sleep := some w })

def ret (value : Except Errno Nat) : Option (Reply × Sys) := some (.ret value, s)

def wakeup (segnum : Nat) : Sys := { s with procs := s.procs.map (Proc.wakeup segnum) }

def shmFindSegmentByKey (key : Int) : Option Nat :=
  (List.range c.shmmni).find? fun i => (s.shmsegs i).allocated && (s.shmsegs i).key == key

def shmFindSegmentByShmid (shmid : Nat) : Option Nat :=
  let segnum := ipcidToIx shmid
  if segnum ≥ c.shmmni then none
  else
    let shmseg := s.shmsegs segnum
    if shmseg.allocated ∧ ¬ shmseg.removed ∧ shmseg.seq = ipcidToSeq shmid then some segnum else none

def shmDeallocateSegment (segnum : Nat) : Sys :=
  { s.setSeg segnum ShmidDs.setFree with
    shmCommitted := s.shmCommitted - btoc (clround (s.shmsegs segnum).shmSegsz)
    shmNused := s.shmNused - 1 }

def shmDeleteMapping (pid slot shmid : Nat) : Sys :=
  let segnum := ipcidToIx shmid
  let s := s.setProc pid (Proc.unmap slot)
  let s := s.setSeg segnum fun d => { d with shmNattch := short (d.shmNattch - 1) }
  if (s.shmsegs segnum).shmNattch ≤ 0 ∧ (s.shmsegs segnum).removed then
    { s.shmDeallocateSegment segnum with shmLastFree := some segnum }
  else s

def shmdt (pid shmaddr : Nat) (p : Proc) : Option (Reply × Sys) :=
  match p.vmShm with
  | none => none
  | some shmmap =>
    match shmmap.findIdx? (fun e => e.shmid.isSome && e.va == shmaddr) with
    | none => s.ret (.error .einval)
    | some i =>
      match (shmmap[i]?).bind ShmmapState.shmid with
      | none => none
      | some shmid => (s.shmDeleteMapping pid i shmid).ret (.ok 0)

def attachVa (uap : ShmatArgs) : Except Errno (Option Nat) :=
  if uap.shmaddr = 0 then .ok none
  else if uap.shmflg.testBit 13 then .ok (some (uap.shmaddr / 4096 * 4096))
  else if uap.shmaddr % 4096 = 0 then .ok (some uap.shmaddr)
  else .error .einval

/-- `shmat`, from the lookup of the segment to `vm_mmap`; `ipcperm` is what the check of permissions answers. -/
def shmatFind (pid : Nat) (uap : ShmatArgs) (ipcperm : Option Errno) (shmmap : List ShmmapState) : Option (Reply × Sys) :=
  match s.shmFindSegmentByShmid c uap.shmid with
  | none => s.ret (.error .einval)
  | some segnum =>
    match ipcperm with
    | some e => s.ret (.error e)
    | none =>
      match shmmap.findIdx? fun e => e.shmid.isNone with
      | none => s.ret (.error .emfile)
      | some i =>
        match attachVa uap with
        | .error e => s.ret (.error e)
        | .ok _ => s.sleeps pid (.atMmap uap i segnum)

def shmat (pid : Nat) (uap : ShmatArgs) (ipcperm : Option Errno) (p : Proc) : Option (Reply × Sys) :=
  match p.vmShm with
  | none => s.sleeps pid (.atMalloc uap)
  | some shmmap => s.shmatFind c pid uap ipcperm shmmap

def shmatInit (pid : Nat) (uap : ShmatArgs) (ipcperm : Option Errno) : Option (Reply × Sys) :=
  let shmmap := List.replicate c.shmseg ⟨0, none⟩
  let s := s.setProc pid fun p => { p with vmShm := some shmmap }
  s.shmatFind c pid uap ipcperm shmmap

def shmatMapped (pid : Nat) (uap : ShmatArgs) (slot segnum : Nat) : Option Nat → Option (Reply × Sys)
  | none => s.ret (.error .enomem)
  | some va =>
    let s := s.setProc pid (Proc.map slot ⟨va, some uap.shmid⟩)
    (s.setSeg segnum fun d => { d with shmNattch := short (d.shmNattch + 1) }).ret (.ok va)

def shmctlRmid (shmid : Nat) (ipcperm : Option Errno) : Option (Reply × Sys) :=
  match s.shmFindSegmentByShmid c shmid with
  | none => s.ret (.error .einval)
  | some segnum =>
    match ipcperm with
    | some e => s.ret (.error e)
    | none =>
      let s := s.setSeg segnum fun d => { d with key := 0, removed := true }
      if (s.shmsegs segnum).shmNattch ≤ 0 then
        { s.shmDeallocateSegment segnum with shmLastFree := some (ipcidToIx shmid) }.ret (.ok 0)
      else s.ret (.ok 0)

def shmgetExisting (pid : Nat) (uap : ShmgetArgs) (ipcperm : Option Errno) (segnum : Nat) : Option (Reply × Sys) :=
  if (s.shmsegs segnum).removed then
    (s.setSeg segnum fun d => { d with wanted := true }).sleeps pid (.getWait uap segnum false)
  else
    match ipcperm with
    | some e => s.ret (.error e)
    | none =>
      if uap.size ≠ 0 ∧ uap.size > (s.shmsegs segnum).shmSegsz then s.ret (.error .einval)
      -- `shmflg & (IPC_CREAT | IPC_EXCL) == (IPC_CREAT | IPC_EXCL)` compares before it masks
      else if uap.shmflg.testBit 0 then s.ret (.error .eexist)
      else s.ret (.ok (ixseqToIpcid segnum (s.shmsegs segnum)))

def freeSegment : Option Nat :=
  match s.shmLastFree with
  | none => (List.range c.shmmni).find? fun i => (s.shmsegs i).free
  | some i => some i

def shmgetAllocateSegment (pid : Nat) (uap : ShmgetArgs) : Option (Reply × Sys) :=
  if uap.size < c.shmmin ∨ uap.size > c.shmmax then s.ret (.error .einval)
  else if s.shmNused ≥ c.shmmni then s.ret (.error .enospc)
  else if s.shmCommitted + btoc (clround uap.size) > c.shmall then s.ret (.error .enomem)
  else
    match s.freeSegment c with
    | none => none
    | some segnum =>
      let s := { s with shmLastFree := none }
      (s.setSeg segnum fun d =>
        { d with
          free := false, removed := true, allocated := true, wanted := false
          key := uap.key
          seq := (d.seq + 1) % 32768 }).sleeps pid (.getMalloc uap segnum)

def shmget (pid : Nat) (uap : ShmgetArgs) (ipcperm : Option Errno) : Option (Reply × Sys) :=
  if uap.key ≠ 0 then
    match s.shmFindSegmentByKey c uap.key with
    | some segnum => s.shmgetExisting pid uap ipcperm segnum
    | none =>
      -- `IPC_CREAT`
      if ¬ uap.shmflg.testBit 9 then s.ret (.error .enoent)
      else s.shmgetAllocateSegment c pid uap
  else s.shmgetAllocateSegment c pid uap

def shmgetMapped (uap : ShmgetArgs) (segnum shmid : Nat) : Option Nat → Option (Reply × Sys)
  | none =>
    let s := s.setSeg segnum ShmidDs.setFree
    ({ s with shmLastFree := some segnum }.wakeup segnum).ret (.error .enomem)
  | some _ =>
    let wanted := (s.shmsegs segnum).wanted
    let s := s.setSeg segnum fun d =>
      { d with free := false, removed := false, allocated := true, wanted := false, shmSegsz := uap.size, shmNattch := 0 }
    let s := { s with shmCommitted := s.shmCommitted + btoc (clround uap.size), shmNused := s.shmNused + 1 }
    (if wanted then s.wakeup segnum else s).ret (.ok shmid)

def forkLoop (e : ShmmapState) : Sys :=
  match e.shmid with
  | none => s
  | some shmid => s.setSeg (ipcidToIx shmid) fun d => { d with shmNattch := short (d.shmNattch + 1) }

def shmfork (p : Proc) : Sys :=
  let s := (p.vmShm.getD []).foldl forkLoop s
  { s with procs := s.procs ++ [{ alive := true, vmShm := p.vmShm, sleep := none }] }

def exitLoop (pid : Nat) (p : Proc) (i : Nat) : Sys :=
  match ((p.vmShm.getD [])[i]?).bind ShmmapState.shmid with
  | none => s
  | some shmid => s.shmDeleteMapping pid i shmid

def shmexit (pid : Nat) (p : Proc) : Sys :=
  ((List.range c.shmseg).foldl (fun s i => s.exitLoop pid p i) s).setProc pid fun p => { p with vmShm := none }

end Sys

/-- What a process that slept goes on with: `malloc` has returned; `vm_mmap` has, with an address or none; `tsleep` has,
after a `wakeup` or because of a signal. -/
inductive Wake where
  | malloc
  | mmap (va : Option Nat)
  | tsleep
  | signal

/-- A call, or the rest of one that slept; `ipcperm` is what the checks of permissions answer. -/
inductive Event where
  | shmget (pid : Nat) (uap : ShmgetArgs) (ipcperm : Option Errno)
  | shmat (pid : Nat) (uap : ShmatArgs) (ipcperm : Option Errno)
  | shmdt (pid shmaddr : Nat)
  | shmctlRmid (pid shmid : Nat) (ipcperm : Option Errno)
  | fork (pid : Nat)
  | exec (pid : Nat)
  | exit (pid : Nat)
  | resume (pid : Nat) (wake : Wake) (ipcperm : Option Errno)

namespace Sys

variable (c : Shminfo) (s : Sys)

def resume (pid : Nat) (wake : Wake) (ipcperm : Option Errno) (p : Proc) : Option (Reply × Sys) :=
  let awake := s.setProc pid fun p => { p with sleep := none }
  match p.sleep, wake with
  | some (.getWait uap _ true), .tsleep => awake.shmget c pid uap ipcperm
  | some (.getWait _ _ _), .signal => awake.ret (.error .eintr)
  | some (.getMalloc uap segnum), .malloc =>
    awake.sleeps pid (.getMmap uap segnum (ixseqToIpcid segnum (s.shmsegs segnum)))
  | some (.getMmap uap segnum shmid), .mmap va => awake.shmgetMapped uap segnum shmid va
  | some (.atMalloc uap), .malloc => awake.shmatInit c pid uap ipcperm
  | some (.atMmap uap slot segnum), .mmap va => awake.shmatMapped pid uap slot segnum va
  | some .forkMalloc, .malloc => (awake.shmfork p).ret (.ok 0)
  | _, _ => none

def event (e : Event) : Option (Reply × Sys) :=
  match e with
  | .shmget pid uap ipcperm => (s.procs[pid]?).bind fun _ => s.shmget c pid uap ipcperm
  | .shmat pid uap ipcperm => (s.procs[pid]?).bind fun p => s.shmat c pid uap ipcperm p
  | .shmdt pid shmaddr => (s.procs[pid]?).bind fun p => s.shmdt pid shmaddr p
  | .shmctlRmid _ shmid ipcperm => s.shmctlRmid c shmid ipcperm
  | .fork pid => (s.procs[pid]?).bind fun p =>
    if p.vmShm.isSome then s.sleeps pid .forkMalloc else (s.shmfork p).ret (.ok 0)
  | .exec pid => (s.procs[pid]?).bind fun p =>
    (if p.vmShm.isSome then s.shmexit c pid p else s).ret (.ok 0)
  | .exit pid => (s.procs[pid]?).bind fun p =>
    ((if p.vmShm.isSome then s.shmexit c pid p else s).setProc pid fun p => { p with alive := false }).ret (.ok 0)
  | .resume pid wake ipcperm => (s.procs[pid]?).bind fun p => s.resume c pid wake ipcperm p

end Sys

end NetBSD.Shm
