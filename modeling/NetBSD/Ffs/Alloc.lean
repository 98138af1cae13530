import NetBSD.Ffs.Fs
import NetBSD.Lib.Runs

/-!
# Allocation in a cylinder group

`ffs_alloc.c`: the functions that allocate and free in one cylinder group. There is no result where the kernel
panics. The walks over the bits of the map of clusters visit one bit after the other.
-/

namespace NetBSD.Ffs

open Lib (Bitmap)

structure Cg where
  cgx : Nat
  ndblk : Nat
  nbfree : Int
  nffree : Int
  rotor : Nat
  frotor : Nat
  frsum : Nat → Int
  blktot : Nat → Int
  blks : Nat → Nat → Int
  blksfree : Bitmap
  clustersum : Nat → Int
  clustersfree : Bitmap
  nclusterblks : Nat

structure Csum where
  nbfree : Int
  nffree : Int

structure Group where
  cg : Cg
  cs : Csum
  cstotal : Csum

def Group.addBlocks (g : Group) (n : Int) : Group where
  cg := { g.cg with nbfree := g.cg.nbfree + n }
  cs := { g.cs with nbfree := g.cs.nbfree + n }
  cstotal := { g.cstotal with nbfree := g.cstotal.nbfree + n }

def Group.addFrags (g : Group) (n : Int) : Group where
  cg := { g.cg with nffree := g.cg.nffree + n }
  cs := { g.cs with nffree := g.cs.nffree + n }
  cstotal := { g.cstotal with nffree := g.cstotal.nffree + n }

def Group.addPos (fs : Fs) (g : Group) (bno : Nat) (n : Int) : Group :=
  let cylno := fs.cbtocylno bno
  let rpos := fs.cbtorpos bno
  { g with cg := { g.cg with
      blks := Function.update g.cg.blks cylno (Function.update (g.cg.blks cylno) rpos (g.cg.blks cylno rpos + n))
      blktot := Function.update g.cg.blktot cylno (g.cg.blktot cylno + n) } }

section

variable (fs : Fs)

def forwLoop (map : Bitmap) : Nat → Nat → Nat
  | 0, _ => 0
  | n + 1, i => if map.isset i then forwLoop map n (i + 1) + 1 else 0

def backLoop (map : Bitmap) : Nat → Nat → Nat
  | 0, _ => 0
  | n + 1, i => if map.isset (i - 1) then backLoop map n (i - 1) + 1 else 0

def clusteracct (cgp : Cg) (blkno : Nat) (cnt : Int) : Cg :=
  if fs.contigsumsize = 0 then cgp
  else
    let freemapp := if cnt > 0 then cgp.clustersfree.setbit blkno else cgp.clustersfree.clrbit blkno
    let start := blkno + 1
    let last := if start + fs.contigsumsize ≥ cgp.nclusterblks then cgp.nclusterblks else start + fs.contigsumsize
    let forw := forwLoop freemapp (last - start) start
    let back := backLoop freemapp (min blkno fs.contigsumsize) blkno
    let i := if back + forw + 1 > fs.contigsumsize then fs.contigsumsize else back + forw + 1
    let sump := Function.update cgp.clustersum i (cgp.clustersum i + cnt)
    let sump := if back > 0 then Function.update sump back (sump back - cnt) else sump
    let sump := if forw > 0 then Function.update sump forw (sump forw - cnt) else sump
    { cgp with clustersfree := freemapp, clustersum := sump }

def siftBlock (blk : BitVec 8) (allocsiz : Nat) : Option Nat :=
  (List.range (fs.frag - allocsiz + 1)).find? fun pos =>
    (blk.toNat <<< 1) &&& (Fs.around.getD allocsiz 0 <<< pos) = Fs.inside.getD allocsiz 0 <<< pos

def sift (map : Bitmap) (bno allocsiz : Nat) : Option Nat :=
  (List.range (8 / fs.frag)).findSome? fun i =>
    (siftBlock fs (fs.blkmap map (bno + i * fs.frag)) allocsiz).map fun pos => bno + i * fs.frag + pos

def mapsearch (cgp : Cg) (bpref allocsiz : Nat) : Option (Nat × Cg) :=
  let bytes := (fs.fpg + 7) / 8
  let mask := 1#8 <<< (allocsiz - 1 + fs.frag % 8)
  let start := if bpref ≠ 0 then fs.dtogd bpref / 8 else cgp.frotor / 8
  let loc := Fs.scanc cgp.blksfree (Fs.fragtbl fs.frag) mask (bytes - start) start
  let byte :=
    if loc ≠ 0 then some (start + (bytes - start) - loc)
    else
      let loc := Fs.scanc cgp.blksfree (Fs.fragtbl fs.frag) mask (start + 1) 0
      if loc ≠ 0 then some (start + 1 - loc) else none
  byte.bind fun byte =>
    (sift fs cgp.blksfree (byte * 8) allocsiz).map fun bno => (bno, { cgp with frotor := byte * 8 })

/-- The loop of `ffs_alloccgblk` over the blocks at a rotational position, from block `bno + i`. -/
def rotLoop (map : Bitmap) (bno : Nat) : Nat → Nat → Option Nat
  | 0, _ => none
  | fuel + 1, i =>
    if fs.isblock map (bno + i) then some (fs.blkstofrags (bno + i))
    else
      let delta := fs.rotbl i
      if delta = 0 ∨ delta + i > fs.fragstoblks fs.fpg then none else rotLoop map bno fuel (i + delta)

/-- The rotational position of `ffs_alloccgblk` from `pos` and around that has a free block. -/
def findPos (cylbp : Nat → Int) (pos : Nat) : Option Nat :=
  (List.range' pos (fs.nrpos - pos) ++ List.range pos).find? fun i => cylbp i > 0

def gotit (g : Group) (bno : Nat) : Nat × Group :=
  let blkno := fs.fragstoblks bno
  let g := { g with cg := { g.cg with blksfree := fs.clrblock g.cg.blksfree blkno } }
  let g := { g with cg := clusteracct fs g.cg blkno (-1) }
  let g := (g.addBlocks (-1)).addPos fs bno (-1)
  (g.cg.cgx * fs.fpg + bno, g)

def norot (g : Group) (bpref : Nat) : Option (Nat × Group) :=
  (mapsearch fs g.cg bpref fs.frag).map fun (bno, cg) => gotit fs { g with cg := { cg with rotor := bno } } bno

def alloccgblk (g : Group) (bpref : Nat) : Option (Nat × Group) :=
  if bpref = 0 ∨ fs.dtog bpref ≠ g.cg.cgx then norot fs g g.cg.rotor
  else
    let bpref := fs.dtogd (fs.blknum bpref)
    if fs.isblock g.cg.blksfree (fs.fragstoblks bpref) then some (gotit fs g bpref)
    else
      let cylno := fs.cbtocylno bpref
      if g.cg.blktot cylno = 0 ∨ fs.cpc = 0 then norot fs g bpref
      else
        match findPos fs (g.cg.blks cylno) (fs.cbtorpos bpref) with
        | none => norot fs g bpref
        | some i =>
          let pos := cylno % fs.cpc
          let first := fs.postbl pos i
          if first = -1 then none
          else
            (rotLoop fs g.cg.blksfree ((cylno - pos) * fs.spc / fs.nspb) (fs.fragstoblks fs.fpg + 1) first.toNat).map
              fun bno => gotit fs g bno

def alloccg (g : Group) (bpref size : Nat) : Option (Nat × Group) :=
  if g.cs.nbfree = 0 ∧ size = fs.bsize then some (0, g)
  else if g.cg.nbfree = 0 ∧ size = fs.bsize then some (0, g)
  else if size = fs.bsize then alloccgblk fs g bpref
  else
    let frags := fs.numfrags size
    match (List.range' frags (fs.frag - frags)).find? fun i => g.cg.frsum i ≠ 0 with
    | none =>
      if g.cg.nbfree = 0 then some (0, g)
      else
        (alloccgblk fs g bpref).map fun (bno, g) =>
          let bpref := fs.dtogd bno
          let blksfree := (List.range' frags (fs.frag - frags)).foldl (fun map i => map.setbit (bpref + i)) g.cg.blksfree
          let i := fs.frag - frags
          let g := { g with cg := { g.cg with blksfree } }.addFrags (i : Int)
          (bno, { g with cg := { g.cg with frsum := Function.update g.cg.frsum i (g.cg.frsum i + 1) } })
    | some allocsiz =>
      (mapsearch fs g.cg bpref allocsiz).map fun (bno, cg) =>
        let blksfree := (List.range frags).foldl (fun map i => map.clrbit (bno + i)) cg.blksfree
        let g := { g with cg := { cg with blksfree } }.addFrags (-(frags : Int))
        let frsum : Nat → Int := Function.update g.cg.frsum allocsiz (g.cg.frsum allocsiz - 1)
        let frsum : Nat → Int :=
          if frags ≠ allocsiz then Function.update frsum (allocsiz - frags) (frsum (allocsiz - frags) + 1) else frsum
        (g.cg.cgx * fs.fpg + bno, { g with cg := { g.cg with frsum } })

def fragextend (g : Group) (bprev osize nsize : Nat) : Nat × Group :=
  if g.cs.nffree < fs.numfrags (nsize - osize) then (0, g)
  else
    let frags := fs.numfrags nsize
    let ofrags := fs.numfrags osize
    let bbase := fs.fragnum bprev
    if bbase > fs.fragnum (bprev + frags - 1) then (0, g)
    else
      let bno := fs.dtogd bprev
      if (List.range' ofrags (frags - ofrags)).any fun i => !g.cg.blksfree.isset (bno + i) then (0, g)
      else
        let i := ((List.range' frags (fs.frag - bbase - frags)).find? fun i => !g.cg.blksfree.isset (bno + i)).getD
          (max frags (fs.frag - bbase))
        let frsum := Function.update g.cg.frsum (i - ofrags) (g.cg.frsum (i - ofrags) - 1)
        let frsum := if i ≠ frags then Function.update frsum (i - frags) (frsum (i - frags) + 1) else frsum
        let blksfree :=
          (List.range' ofrags (frags - ofrags)).foldl (fun map i => map.clrbit (bno + i)) g.cg.blksfree
        (bprev, { g with cg := { g.cg with frsum, blksfree } }.addFrags (-((frags - ofrags : Nat) : Int)))

/-- The search of `ffs_clusteralloc` from block `i` on: where it stops, and how many free blocks end there. -/
def clusterLoop (map : Bitmap) (len : Nat) : Nat → Nat → Nat → Nat × Nat
  | 0, i, run => (i, run)
  | n + 1, i, run =>
    if map.isset i then if run + 1 = len then (i, run + 1) else clusterLoop map len n (i + 1) (run + 1)
    else clusterLoop map len n (i + 1) 0

def takeCluster (bno : Nat) : Nat → Nat → Group → Option Group
  | 0, _, g => some g
  | n + 1, i, g =>
    match alloccgblk fs g (bno + i) with
    | none => none
    | some (got, g) => if got ≠ bno + i then none else takeCluster bno n (i + fs.frag) g

def clusteralloc (g : Group) (bpref len : Nat) : Option (Nat × Group) :=
  if g.cs.nbfree < len then some (0, g)
  else if (List.range' len (fs.contigsumsize + 1 - len)).all fun i => g.cg.clustersum i ≤ 0 then some (0, g)
  else
    let bpref := if fs.dtog bpref ≠ g.cg.cgx then 0 else fs.fragstoblks (fs.dtogd (fs.blknum bpref))
    let (i, run) := clusterLoop g.cg.clustersfree len (g.cg.nclusterblks - bpref) bpref 0
    if i = g.cg.nclusterblks then some (0, g)
    else
      let bno := g.cg.cgx * fs.fpg + fs.blkstofrags (i + 1 - run)
      (takeCluster fs bno len 0 g).map fun g => (bno, g)

def blkfree (g : Group) (bno size : Nat) : Option Group :=
  if size > fs.bsize ∨ size % fs.fsize ≠ 0 then none
  else if bno ≥ fs.size then some g
  else
    let bno := fs.dtogd bno
    if size = fs.bsize then
      let blkno := fs.fragstoblks bno
      if fs.isblock g.cg.blksfree blkno then none
      else
        let g := { g with cg := { g.cg with blksfree := fs.setblock g.cg.blksfree blkno } }
        let g := { g with cg := clusteracct fs g.cg blkno 1 }
        some ((g.addBlocks 1).addPos fs bno 1)
    else
      let bbase := bno - fs.fragnum bno
      let frsum := fs.fragacct (fs.blkmap g.cg.blksfree bbase) g.cg.frsum (-1)
      let frags := fs.numfrags size
      if (List.range frags).any fun i => g.cg.blksfree.isset (bno + i) then none
      else
        let blksfree := (List.range frags).foldl (fun map i => map.setbit (bno + i)) g.cg.blksfree
        let frsum := fs.fragacct (fs.blkmap blksfree bbase) frsum 1
        let g := { g with cg := { g.cg with blksfree, frsum } }.addFrags frags
        let blkno := fs.fragstoblks bbase
        if fs.isblock g.cg.blksfree blkno then
          let g := g.addFrags (-fs.frag)
          let g := { g with cg := clusteracct fs g.cg blkno 1 }
          some ((g.addBlocks 1).addPos fs bbase 1)
        else some g

end

end NetBSD.Ffs
