import NetBSD.Ffs.Free

/-!
# The cylinder groups of a file system

Every function of `ffs_alloc.c` reads a cylinder group into a buffer and gives the buffer back. `bdwrite` marks it for a
delayed write; `brelse` does not, and when the buffer is needed for another block its contents are gone.
-/

namespace NetBSD.Ffs

structure Buf where
  data : Cg
  delwri : Bool

structure Volume where
  disk : Nat → Cg
  bufs : Nat → Option Buf
  cs : Nat → Csum
  cstotal : Csum

namespace Volume

def bread (v : Volume) (cg : Nat) : Buf := (v.bufs cg).getD ⟨v.disk cg, false⟩

def group (v : Volume) (cg : Nat) : Group := ⟨(v.bread cg).data, v.cs cg, v.cstotal⟩

def release (v : Volume) (cg : Nat) (g : Group) (delwri : Bool) : Volume where
  disk := v.disk
  bufs := Function.update v.bufs cg (some ⟨g.cg, delwri⟩)
  cs := Function.update v.cs cg g.cs
  cstotal := g.cstotal

def bdwrite (v : Volume) (cg : Nat) (g : Group) : Volume := v.release cg g true

def brelse (v : Volume) (cg : Nat) (g : Group) : Volume := v.release cg g (v.bread cg).delwri

def write (v : Volume) (cg : Nat) : Volume :=
  if (v.bread cg).delwri then
    { v with
      disk := Function.update v.disk cg (v.bread cg).data
      bufs := Function.update v.bufs cg (some ⟨(v.bread cg).data, false⟩) }
  else v

def reclaim (v : Volume) (cg : Nat) : Volume :=
  let v := v.write cg
  { v with bufs := Function.update v.bufs cg none }

end Volume

inductive Call where
  | alloccg (cg bpref size : Nat)
  | fragextend (bprev osize nsize : Nat)
  | clusteralloc (cg bpref len : Nat)
  | blkfree (bno size : Nat)
  | write (cg : Nat)
  | reclaim (cg : Nat)

section

variable (fs : Fs)

def Volume.call (v : Volume) : Call → Option (Nat × Volume)
  | .alloccg cg bpref size =>
    (Ffs.alloccg fs (v.group cg) bpref size).map fun (bno, g) =>
      (bno, if bno = 0 then v.brelse cg g else v.bdwrite cg g)
  | .fragextend bprev osize nsize =>
    let cg := fs.dtog bprev
    let (bno, g) := Ffs.fragextend fs (v.group cg) bprev osize nsize
    some (bno, if bno = 0 then v.brelse cg g else v.bdwrite cg g)
  | .clusteralloc cg bpref len => (Ffs.clusteralloc fs (v.group cg) bpref len).map fun (bno, g) => (bno, v.brelse cg g)
  | .blkfree bno size =>
    let cg := fs.dtog bno
    (Ffs.blkfree fs (v.group cg) bno size).map fun g => (0, if bno ≥ fs.size then v else v.bdwrite cg g)
  | .write cg => some (0, v.write cg)
  | .reclaim cg => some (0, v.reclaim cg)

/-- The fragments that a call that has returned `bno` has allocated: the first one, and how many. -/
def Call.allocated (bno : Nat) : Call → Nat × Nat
  | .alloccg _ _ size => (bno, if bno = 0 then 0 else fs.numfrags size)
  | .fragextend _ osize nsize => (bno + fs.numfrags osize, if bno = 0 then 0 else fs.numfrags nsize - fs.numfrags osize)
  | .clusteralloc _ _ len => (bno, if bno = 0 then 0 else fs.blkstofrags len)
  | _ => (0, 0)

def Call.freed : Call → Nat × Nat
  | .blkfree bno size => (bno, fs.numfrags size)
  | _ => (0, 0)

structure Use where
  volume : Volume
  alloc : Nat → Bool

def Use.call (u : Use) (c : Call) : Option (Nat × Use) :=
  (u.volume.call fs c).map fun (bno, volume) => (bno, {
    volume
    alloc := fun j =>
      (u.alloc j || decide ((c.allocated fs bno).1 ≤ j ∧ j < (c.allocated fs bno).1 + (c.allocated fs bno).2)) &&
        !decide ((c.freed fs).1 ≤ j ∧ j < (c.freed fs).1 + (c.freed fs).2) })

def Use.step (u : Use) (c : Call) : Option Use := (u.call fs c).map Prod.snd

def Use.Fresh (u : Use) (c : Call) (bno : Nat) : Prop :=
  ∀ j, (c.allocated fs bno).1 ≤ j → j < (c.allocated fs bno).1 + (c.allocated fs bno).2 → u.alloc j = false

def Use.Holds (u : Use) (bno size : Nat) : Prop :=
  fs.fragnum bno + fs.numfrags size ≤ fs.frag ∧ ∀ j, bno ≤ j → j < bno + fs.numfrags size → u.alloc j = true

/-- The calls that the rest of the file system makes: sizes are whole fragments, and only what is allocated is freed or
extended. Block 0 stands for no block. -/
def Use.Allowed (u : Use) : Call → Prop
  | .alloccg cg _ size => cg < fs.ncg ∧ fs.fsize ∣ size ∧ 0 < size ∧ size ≤ fs.bsize
  | .fragextend bprev osize nsize =>
    fs.fsize ∣ osize ∧ fs.fsize ∣ nsize ∧ 0 < osize ∧ osize ≤ nsize ∧ nsize ≤ fs.bsize ∧ bprev ≠ 0 ∧
      u.Holds fs bprev osize
  | .clusteralloc cg _ _ => cg < fs.ncg
  | .blkfree bno size => fs.fsize ∣ size ∧ 0 < size ∧ size ≤ fs.bsize ∧ bno ≠ 0 ∧ u.Holds fs bno size
  | .write _ => True
  | .reclaim _ => True

/-- The calls that go well: no search for a cluster from behind the end of its group, and no buffer is taken that is not
as on the disk and not marked either. -/
def Use.Careful (u : Use) : Call → Prop
  | .clusteralloc cg bpref len => Searchable fs (u.volume.group cg) bpref len
  | .reclaim cg => (u.volume.bread cg).delwri = true ∨ (u.volume.bread cg).data = u.volume.disk cg
  | _ => True

/-- Every cylinder group is consistent, its map is that of the fragments that are not allocated, and the sums agree.
Fragment 0 is allocated from the start. -/
structure Consistent (u : Use) : Prop where
  size : fs.size ≤ fs.ncg * fs.fpg
  cgx : ∀ cg < fs.ncg, (u.volume.group cg).cg.cgx = cg
  ndblk : ∀ cg < fs.ncg, (u.volume.group cg).cg.ndblk = min fs.fpg (fs.size - cg * fs.fpg)
  sound : ∀ cg < fs.ncg, Sound fs (u.volume.group cg)
  nbfree : u.volume.cstotal.nbfree = ∑ cg ∈ Finset.range fs.ncg, (u.volume.cs cg).nbfree
  nffree : u.volume.cstotal.nffree = ∑ cg ∈ Finset.range fs.ncg, (u.volume.cs cg).nffree
  map : ∀ cg < fs.ncg, ∀ i < (u.volume.group cg).cg.ndblk,
    (u.volume.group cg).cg.blksfree.isset i = !u.alloc (cg * fs.fpg + i)
  inside : ∀ j, u.alloc j = true → j < fs.size
  first : u.alloc 0 = true

end

end NetBSD.Ffs
