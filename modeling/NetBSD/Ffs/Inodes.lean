import NetBSD.Ffs.Alloc
import NetBSD.Lib.Writeback

/-!
# Cylinder groups with their inodes

The functions of `ffs_alloc.c` that take a cylinder group from the buffer cache, with every way in which they give it back. There
is no result where the kernel panics.
-/

namespace NetBSD.Ffs

open Lib (Bitmap Writeback)

structure Cylinder where
  cg : Cg
  chkmagic : Bool
  time : Nat
  nifree : Int
  ndir : Int
  irotor : Nat
  inosused : Bitmap

structure Isum where
  nifree : Int
  ndir : Int

/-- A cylinder group with `fs_cs` of it, and `fs_cstotal`; `error` says that `bread` fails. -/
structure Access where
  error : Bool
  cylinder : Cylinder
  cs : Csum
  cstotal : Csum
  inodes : Isum
  inodesTotal : Isum

namespace Access

def group (a : Access) : Group := ⟨a.cylinder.cg, a.cs, a.cstotal⟩

def setGroup (a : Access) (g : Group) : Access :=
  { a with cylinder := { a.cylinder with cg := g.cg }, cs := g.cs, cstotal := g.cstotal }

def stamp (a : Access) (time : Nat) : Access := { a with cylinder := { a.cylinder with time := time } }

def addInodes (a : Access) (nifree ndir : Int) : Access :=
  { a with
    cylinder := { a.cylinder with nifree := a.cylinder.nifree + nifree, ndir := a.cylinder.ndir + ndir }
    inodes := ⟨a.inodes.nifree + nifree, a.inodes.ndir + ndir⟩
    inodesTotal := ⟨a.inodesTotal.nifree + nifree, a.inodesTotal.ndir + ndir⟩ }

end Access

/-- How a function ends: with no buffer or one that could not be read, or with `brelse` or `bdwrite`. -/
inductive Exit where
  | early
  | brelse
  | bdwrite
  deriving DecidableEq

def skpc (mask : BitVec 8) (cp : Bitmap) : Nat → Nat → Nat
  | 0, _ => 0
  | size + 1, i => if cp i = mask then skpc mask cp size (i + 1) else size + 1

section

variable (fs : Fs) (ipg : Nat)

def Access.fragextend (a : Access) (time bprev osize nsize : Nat) : Option (Nat × Exit × Access) :=
  let frags := fs.numfrags nsize
  if a.cs.nffree < fs.numfrags (nsize - osize) then some (0, .early, a)
  else if fs.fragnum bprev > fs.fragnum (bprev + frags - 1) then some (0, .early, a)
  else if a.error then some (0, .early, a)
  else if a.cylinder.chkmagic = false then some (0, .brelse, a)
  else
    let a := a.stamp time
    let bno := fs.dtogd bprev
    let ofrags := fs.numfrags osize
    if (List.range' ofrags (frags - ofrags)).any fun i => !a.cylinder.cg.blksfree.isset (bno + i) then some (0, .brelse, a)
    else
      let (bno, g) := Ffs.fragextend fs a.group bprev osize nsize
      some (bno, .bdwrite, a.setGroup g)

def Access.alloccg (a : Access) (time bpref size : Nat) : Option (Nat × Exit × Access) :=
  let frags := fs.numfrags size
  if a.cs.nbfree = 0 ∧ size = fs.bsize then some (0, .early, a)
  else if a.error then some (0, .early, a)
  else if a.cylinder.chkmagic = false ∨ a.cylinder.cg.nbfree = 0 ∧ size = fs.bsize then some (0, .brelse, a)
  else
    let a := a.stamp time
    if size ≠ fs.bsize ∧ a.cylinder.cg.nbfree = 0 ∧
        (List.range' frags (fs.frag - frags)).all fun i => a.cylinder.cg.frsum i = 0 then
      some (0, .brelse, a)
    else (Ffs.alloccg fs a.group bpref size).map fun (bno, g) => (bno, .bdwrite, a.setGroup g)

def Access.clusteralloc (a : Access) (bpref len : Nat) : Option (Nat × Exit × Access) :=
  if a.cs.nbfree < len then some (0, .early, a)
  else if a.error then some (0, .early, a)
  else if a.cylinder.chkmagic = false then some (0, .brelse, a)
  else (Ffs.clusteralloc fs a.group bpref len).map fun (bno, g) => (bno, .brelse, a.setGroup g)

/-- The search of `ffs_nodealloccg`, for the first inode of a byte that is not full, and its bit. -/
def inodeSearch (inosused : Bitmap) (irotor : Nat) : Option Nat :=
  let start := irotor / 8
  let len := (ipg - irotor + 7) / 8
  let loc := skpc 0xff inosused len start
  let byte :=
    if loc ≠ 0 then some (start + len - loc)
    else
      let loc := skpc 0xff inosused (start + 1) 0
      if loc ≠ 0 then some (start + 1 - loc) else none
  byte.bind fun i => (List.range' (i * 8) 8).find? fun ipref => !inosused.isset ipref

def Access.nodealloccg (a : Access) (cg time ipref : Nat) (dir : Bool) : Option (Nat × Exit × Access) :=
  if a.inodes.nifree = 0 then some (0, .early, a)
  else if a.error then some (0, .early, a)
  else if a.cylinder.chkmagic = false ∨ a.cylinder.nifree = 0 then some (0, .brelse, a)
  else
    let a := a.stamp time
    let gotit (a : Access) (ipref : Nat) : Nat × Exit × Access :=
      let a := { a with cylinder := { a.cylinder with inosused := a.cylinder.inosused.setbit ipref } }
      (cg * ipg + ipref, .bdwrite, a.addInodes (-1) (if dir then 1 else 0))
    if ipref ≠ 0 ∧ a.cylinder.inosused.isset (ipref % ipg) = false then some (gotit a (ipref % ipg))
    else
      (inodeSearch ipg a.cylinder.inosused a.cylinder.irotor).map fun ipref =>
        gotit { a with cylinder := { a.cylinder with irotor := ipref } } ipref

def Access.blkfree (a : Access) (time bno size : Nat) : Option (Nat × Exit × Access) :=
  if size > fs.bsize ∨ size % fs.fsize ≠ 0 then none
  else if bno ≥ fs.size then some (0, .early, a)
  else if a.error then some (0, .early, a)
  else if a.cylinder.chkmagic = false then some (0, .brelse, a)
  else
    let a := a.stamp time
    (Ffs.blkfree fs a.group bno size).map fun g => (0, .bdwrite, a.setGroup g)

def Access.vfree (a : Access) (time ino : Nat) (dir ronly : Bool) : Option (Nat × Exit × Access) :=
  if ino ≥ ipg * fs.ncg then none
  else if a.error then some (0, .early, a)
  else if a.cylinder.chkmagic = false then some (0, .brelse, a)
  else
    let a := a.stamp time
    let ino := ino % ipg
    if a.cylinder.inosused.isset ino = false ∧ ronly = false then none
    else
      let a := { a with cylinder := { a.cylinder with
        inosused := a.cylinder.inosused.clrbit ino
        irotor := if ino < a.cylinder.irotor then ino else a.cylinder.irotor } }
      some (0, .bdwrite, a.addInodes 1 (if dir then -1 else 0))

end

structure Cylinders where
  cache : Writeback Nat Cylinder
  cs : Nat → Csum
  cstotal : Csum
  inodes : Nat → Isum
  inodesTotal : Isum

inductive GroupCall where
  | fragextend (cg bprev osize nsize : Nat)
  | alloccg (cg bpref size : Nat)
  | clusteralloc (cg bpref len : Nat)
  | nodealloccg (cg ipref : Nat) (dir : Bool)
  | blkfree (bno size : Nat)
  | vfree (ino : Nat) (dir ronly : Bool)

def GroupCall.cg (fs : Fs) (ipg : Nat) : GroupCall → Nat
  | .fragextend cg _ _ _ => cg
  | .alloccg cg _ _ => cg
  | .clusteralloc cg _ _ => cg
  | .nodealloccg cg _ _ => cg
  | .blkfree bno _ => fs.dtog bno
  | .vfree ino _ _ => ino / ipg

def GroupCall.run (fs : Fs) (ipg time : Nat) (a : Access) : GroupCall → Option (Nat × Exit × Access)
  | .fragextend _ bprev osize nsize => a.fragextend fs time bprev osize nsize
  | .alloccg _ bpref size => a.alloccg fs time bpref size
  | .clusteralloc _ bpref len => a.clusteralloc fs bpref len
  | .nodealloccg cg ipref dir => a.nodealloccg ipg cg time ipref dir
  | .blkfree bno size => a.blkfree fs time bno size
  | .vfree ino dir ronly => a.vfree fs ipg time ino dir ronly

inductive CacheCall where
  | group (call : GroupCall) (time : Nat) (fails : Bool)
  | write (cg : Nat)
  | reclaim (cg : Nat)

namespace Cylinders

variable (fs : Fs) (ipg : Nat) (c : Cylinders)

def access (cg : Nat) (fails : Bool) : Access where
  error := fails && (c.cache.held cg).isNone
  cylinder := (c.cache.read cg).data
  cs := c.cs cg
  cstotal := c.cstotal
  inodes := c.inodes cg
  inodesTotal := c.inodesTotal

def giveBack (cg : Nat) (a : Access) (dirty : Bool) : Cylinders where
  cache := c.cache.release cg a.cylinder dirty
  cs := Function.update c.cs cg a.cs
  cstotal := a.cstotal
  inodes := Function.update c.inodes cg a.inodes
  inodesTotal := a.inodesTotal

def call (last : Nat → Cylinder) : CacheCall → Option (Cylinders × (Nat → Cylinder))
  | .group call time fails =>
    let cg := call.cg fs ipg
    (call.run fs ipg time (c.access cg fails)).map fun (_, exit, a) =>
      match exit with
      | .early => (c, last)
      | .brelse => (c.giveBack cg a (c.cache.read cg).dirty, Function.update last cg a.cylinder)
      | .bdwrite => (c.giveBack cg a true, Function.update last cg a.cylinder)
  | .write cg => some ({ c with cache := c.cache.writeOut cg }, last)
  | .reclaim cg => some ({ c with cache := c.cache.letGo cg }, last)

end Cylinders

end NetBSD.Ffs
