import NetBSD.Lib.Runs
import NetBSD.Mbuf.Chain
import Mathlib.Data.List.ReduceOption
import Mathlib.Logic.Function.Basic
import Mathlib.Data.Int.Order.Basic

/-!
# Descriptor tables

`kern_descrip.c`, without the advisory locks. A file is its address; files that are passed in messages are the rights
in the receive buffers of sockets, and `fo_close` of a socket discards the rights in its buffers. There is no result
where the kernel panics, where it follows a pointer to no file, or where a loop does not end.
-/

namespace NetBSD.Fd

def ndfile : Nat := 20

def ndextent : Nat := 50

def ufExclose : Byte := 1

def ushort (x : Nat) : Nat := x % 65536

def short (x : Int) : Int := x.bmod 65536

structure Filedesc where
  ofiles : List (Option Nat)
  ofileflags : Nat → Byte
  lastfile : Nat
  freefile : Nat

namespace Filedesc

def nfiles (fdp : Filedesc) : Nat := fdp.ofiles.length

def file (fdp : Filedesc) (fd : Nat) : Option Nat := (fdp.ofiles[fd]?).getD none

def setFile (fdp : Filedesc) (fd : Nat) (fp : Option Nat) : Filedesc := { fdp with ofiles := fdp.ofiles.set fd fp }

def grow (fdp : Filedesc) (nfiles : Nat) : Filedesc :=
  { fdp with
    ofiles := fdp.ofiles ++ List.replicate (nfiles - fdp.nfiles) none
    ofileflags := fun i => if i < fdp.nfiles then fdp.ofileflags i else 0 }

def lowerLast (fdp : Filedesc) : Nat → Nat
  | 0 => 0
  | last + 1 => if fdp.file (last + 1) = none then fdp.lowerLast last else last + 1

def finishdup (fdp : Filedesc) (old new : Nat) : Filedesc :=
  { fdp with
    ofiles := fdp.ofiles.set new (fdp.file old)
    ofileflags := Function.update fdp.ofileflags new (fdp.ofileflags old &&& ~~~ufExclose)
    lastfile := if new > fdp.lastfile then ushort new else fdp.lastfile }

def close (fdp : Filedesc) (fd : Nat) : Filedesc :=
  let fdp := fdp.setFile fd none
  { fdp with
    lastfile := fdp.lowerLast fdp.lastfile
    freefile := if fd < fdp.freefile then ushort fd else fdp.freefile
    ofileflags := Function.update fdp.ofileflags fd 0 }

def clear (fdp : Filedesc) (i : Nat) : Filedesc :=
  { fdp with
    ofiles := fdp.ofiles.set i none
    ofileflags := Function.update fdp.ofileflags i 0
    freefile := if i < fdp.freefile then ushort i else fdp.freefile }

def shrink (lastfile : Nat) : Nat → Nat → Nat
  | 0, i => i
  | fuel + 1, i => if i > 2 * ndextent ∧ i > lastfile * 2 then shrink lastfile fuel (i / 2) else i

def copy (fdp : Filedesc) : Filedesc :=
  let i := if fdp.lastfile < ndfile then ndfile else shrink fdp.lastfile fdp.nfiles fdp.nfiles
  { fdp with ofiles := fdp.ofiles.take i }

/-- The files at the descriptors up to `fd_lastfile`, in the order of the loops of `fdcopy` and `fdfree`. -/
def openFiles (fdp : Filedesc) : List Nat := (fdp.ofiles.take (fdp.lastfile + 1)).reduceOption

end Filedesc

def fdsearch (fdp : Filedesc) (i last : Nat) : Option Nat :=
  (List.range' i (last - i)).find? fun i => fdp.file i = none

def fdallocLoop (lim want : Nat) : Nat → Filedesc → Option (Option Nat × Filedesc)
  | 0, _ => none
  | fuel + 1, fdp =>
    let last := min fdp.nfiles lim
    match fdsearch fdp (if want < fdp.freefile then fdp.freefile else want) last with
    | some i =>
      some (some i, { fdp with
        ofileflags := Function.update fdp.ofileflags i 0
        lastfile := if i > fdp.lastfile then ushort i else fdp.lastfile
        freefile := if want ≤ fdp.freefile then ushort i else fdp.freefile })
    | none =>
      if fdp.nfiles ≥ lim then some (none, fdp)
      else fdallocLoop lim want fuel (fdp.grow (if fdp.nfiles < ndextent then ndextent else 2 * fdp.nfiles))

def fdalloc (lim want : Nat) (fdp : Filedesc) : Option (Option Nat × Filedesc) := fdallocLoop lim want (lim + 1) fdp

structure Right where
  holder : Option Nat
  file : Nat

structure Proc where
  fd : Filedesc
  rlimCur : Nat

/-- The processes, `f_count` of the files that there are, the files in messages, and the number of files and its
limit. -/
structure Sys where
  procs : List Proc
  fCount : Nat → Option Int
  rights : List Right
  nfiles : Nat
  maxfiles : Nat

namespace Sys

def held (s : Sys) (fp : Nat) : List Nat := (s.rights.filter fun r => r.holder = some fp).map Right.file

def release (s : Sys) (fp : Nat) : Sys := { s with rights := s.rights.filter fun r => r.holder ≠ some fp }

def ffree (s : Sys) (fp : Nat) : Sys := { s with fCount := Function.update s.fCount fp none, nfiles := s.nfiles - 1 }

def closef : Nat → Nat → Sys → Option Sys
  | 0, _, _ => none
  | fuel + 1, fp, s =>
    match s.fCount fp with
    | none => none
    | some count =>
      let count := short (count - 1)
      let s := { s with fCount := Function.update s.fCount fp (some count) }
      if count > 0 then some s
      else if count < 0 then none
      else ((s.held fp).foldlM (fun s fp => closef fuel fp s) (s.release fp)).map fun s => s.ffree fp

def hold (s : Sys) (fp : Nat) : Option Sys :=
  (s.fCount fp).map fun count => { s with fCount := Function.update s.fCount fp (some (short (count + 1))) }

/-- `closef`, with as much fuel as it needs: each further file that it closes was in a message. -/
def close (s : Sys) (fp : Nat) : Option Sys := closef (s.rights.length + 1) fp s

def setFd (s : Sys) (pid : Nat) (fdp : Filedesc) : Sys :=
  { s with procs := s.procs.modify pid fun p => { p with fd := fdp } }

def lim (s : Sys) (p : Proc) : Nat := min p.rlimCur s.maxfiles

end Sys

inductive Errno where
  | ebadf
  | emfile
  | enfile
  | einval

/-- The calls of processes, by their place in the list; what happens to files in messages; and the limits. The
descriptor that `falloc` is for gets the file at `fp`. -/
inductive Call where
  | falloc (pid fp : Nat)
  | close (pid fd : Nat)
  | dup (pid fd target : Nat)
  | dup2 (pid old new : Nat)
  | fcntl (pid fd newmin : Nat)
  | setfd (pid fd : Nat) (arg : Byte)
  | fork (pid : Nat)
  | exec (pid : Nat)
  | exit (pid : Nat)
  | internalize (pid fd : Nat) (holder : Option Nat)
  | externalize (pid i : Nat)
  | discard (i : Nat)
  | setrlimit (pid rlimCur : Nat)
  | sysctl (maxfiles : Nat)

namespace Sys

variable (s : Sys)

def fdalloc (pid want : Nat) (p : Proc) (next : Nat → Filedesc → Sys → Option (Except Errno Nat × Sys)) :
    Option (Except Errno Nat × Sys) :=
  match Fd.fdalloc (s.lim p) want p.fd with
  | none => none
  | some (none, fdp) => some (.error .emfile, s.setFd pid fdp)
  | some (some i, fdp) => next i fdp (s.setFd pid fdp)

def finishdup (pid : Nat) (fdp : Filedesc) (old new : Nat) : Option (Except Errno Nat × Sys) :=
  match fdp.file old with
  | none => none
  | some fp => (s.hold fp).map fun s => (.ok new, s.setFd pid (fdp.finishdup old new))

def falloc (pid fp : Nat) (p : Proc) : Option (Except Errno Nat × Sys) :=
  s.fdalloc pid 0 p fun i fdp s =>
    if s.nfiles ≥ s.maxfiles then some (.error .enfile, s)
    else some (.ok i, { s with fCount := Function.update s.fCount fp (some 1), nfiles := s.nfiles + 1 }.setFd pid
      (fdp.setFile i (some fp)))

def closeFd (pid fd : Nat) (p : Proc) : Option (Except Errno Nat × Sys) :=
  match p.fd.file fd with
  | none => some (.error .ebadf, s)
  | some fp => ((s.setFd pid (p.fd.close fd)).close fp).map fun s => (.ok 0, s)

def dup2 (pid old new : Nat) (p : Proc) : Option (Except Errno Nat × Sys) :=
  if p.fd.file old = none ∨ new ≥ p.rlimCur ∨ new ≥ s.maxfiles then some (.error .ebadf, s)
  else if old = new then some (.ok new, s)
  else if new ≥ p.fd.nfiles then
    s.fdalloc pid new p fun i fdp s => if new ≠ i then none else s.finishdup pid fdp old new
  else
    match p.fd.file new with
    | none => s.finishdup pid p.fd old new
    | some fp => (s.close fp).bind fun s => s.finishdup pid p.fd old new

def dup (pid fd target : Nat) (p : Proc) : Option (Except Errno Nat × Sys) :=
  if fd ≥ 64 then s.dup2 pid (fd % 64) target p
  else if p.fd.file fd = none then some (.error .ebadf, s)
  else s.fdalloc pid 0 p fun new fdp s => s.finishdup pid fdp fd new

def fcntl (pid fd newmin : Nat) (p : Proc) : Option (Except Errno Nat × Sys) :=
  if p.fd.file fd = none then some (.error .ebadf, s)
  else if newmin ≥ p.rlimCur ∨ newmin ≥ s.maxfiles then some (.error .einval, s)
  else s.fdalloc pid newmin p fun i fdp s => s.finishdup pid fdp fd i

def setfd (pid fd : Nat) (arg : Byte) (p : Proc) : Option (Except Errno Nat × Sys) :=
  if p.fd.file fd = none then some (.error .ebadf, s)
  else
    some (.ok 0, s.setFd pid { p.fd with
      ofileflags := Function.update p.fd.ofileflags fd ((p.fd.ofileflags fd &&& ~~~1) ||| (arg &&& 1)) })

def fork (p : Proc) : Option (Except Errno Nat × Sys) :=
  (p.fd.copy.openFiles.foldlM Sys.hold s).map fun s =>
    (.ok 0, { s with procs := s.procs ++ [{ p with fd := p.fd.copy }] })

def closeexec (x : Filedesc × Sys) (i : Nat) : Option (Filedesc × Sys) :=
  match x.1.file i with
  | none => some x
  | some fp =>
    if x.1.ofileflags i &&& ufExclose = 0 then some x
    else (x.2.close fp).map fun s => (x.1.clear i, s)

def exec (pid : Nat) (p : Proc) : Option (Except Errno Nat × Sys) :=
  ((List.range (p.fd.lastfile + 1)).foldlM closeexec (p.fd, s)).map fun x =>
    (.ok 0, x.2.setFd pid { x.1 with lastfile := x.1.lowerLast x.1.lastfile })

def exit (pid : Nat) (p : Proc) : Option (Except Errno Nat × Sys) :=
  (p.fd.openFiles.foldlM Sys.close s).map fun s => (.ok 0, { s with procs := s.procs.eraseIdx pid })

def internalize (fd : Nat) (holder : Option Nat) (p : Proc) : Option (Except Errno Nat × Sys) :=
  match p.fd.file fd with
  | none => some (.error .ebadf, s)
  | some fp => (s.hold fp).map fun s => (.ok 0, { s with rights := ⟨holder, fp⟩ :: s.rights })

/-- `unp_externalize`, for one right; its caller has made sure that there is a descriptor. -/
def externalize (pid i : Nat) (p : Proc) : Option (Except Errno Nat × Sys) :=
  match s.rights[i]? with
  | none => none
  | some r =>
    s.fdalloc pid 0 p fun f fdp s =>
      some (.ok f, { s with rights := s.rights.eraseIdx i }.setFd pid (fdp.setFile f (some r.file)))

def discard (i : Nat) : Option (Except Errno Nat × Sys) :=
  match s.rights[i]? with
  | none => none
  | some r => ({ s with rights := s.rights.eraseIdx i }.close r.file).map fun s => (.ok 0, s)

def call : Call → Option (Except Errno Nat × Sys)
  | .falloc pid fp => s.procs[pid]?.bind (s.falloc pid fp)
  | .close pid fd => s.procs[pid]?.bind (s.closeFd pid fd)
  | .dup pid fd target => s.procs[pid]?.bind (s.dup pid fd target)
  | .dup2 pid old new => s.procs[pid]?.bind (s.dup2 pid old new)
  | .fcntl pid fd newmin => s.procs[pid]?.bind (s.fcntl pid fd newmin)
  | .setfd pid fd arg => s.procs[pid]?.bind (s.setfd pid fd arg)
  | .fork pid => s.procs[pid]?.bind s.fork
  | .exec pid => s.procs[pid]?.bind (s.exec pid)
  | .exit pid => s.procs[pid]?.bind (s.exit pid)
  | .internalize pid fd holder => s.procs[pid]?.bind (s.internalize fd holder)
  | .externalize pid i => s.procs[pid]?.bind (s.externalize pid i)
  | .discard i => s.discard i
  | .setrlimit pid n =>
    some (.ok 0, { s with procs := s.procs.modify pid fun p => { p with rlimCur := min n s.maxfiles } })
  | .sysctl n => some (.ok 0, { s with maxfiles := n })

end Sys

end NetBSD.Fd
