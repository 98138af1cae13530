import NetBSD.Lib.Bitmap
import Mathlib.Data.Int.Notation

/-!
# Blocks and fragments

`fs.h`, `ffs_tables.c` and `ffs_subr.c`: the constants of a file system, the macros on block numbers, and the
functions on the map of free fragments. A map has zeros behind its end.
-/

namespace NetBSD.Ffs

open Lib (Bitmap)

inductive Chain (rotbl : Nat → Nat) (n : Nat) : Nat → Nat → Prop where
  | here (i : Nat) : Chain rotbl n i i
  | next {i j : Nat} : rotbl i ≠ 0 → rotbl i + i ≤ n → Chain rotbl n (i + rotbl i) j → Chain rotbl n i j

/-- What the super block says of every cylinder group. The last fields make it consistent: they say that a block is
found from its cylinder and rotational position through the tables, if there are tables. -/
structure Fs where
  frag : Nat
  fsize : Nat
  fpg : Nat
  ncg : Nat
  size : Nat
  contigsumsize : Nat
  cpc : Nat
  spc : Nat
  nspf : Nat
  nsect : Nat
  trackskew : Nat
  interleave : Nat
  nrpos : Nat
  npsect : Nat
  postbl : Nat → Nat → Int
  rotbl : Nat → Nat
  frag_eq : frag = 8 ∨ frag = 4 ∨ frag = 2 ∨ frag = 1
  fsize_pos : 0 < fsize
  fpg_pos : 0 < fpg
  frag_dvd : frag ∣ fpg
  nsect_pos : 0 < nsect
  nsect_le : nsect ≤ npsect
  nrpos_pos : 0 < nrpos
  rotated : ∀ b < fpg / frag, cpc ≠ 0 → ∃ f j : Nat,
    postbl (b * frag * nspf / spc % cpc)
        ((b * frag * nspf % spc / nsect * trackskew + b * frag * nspf % spc % nsect * interleave) % nsect * nrpos / npsect) =
      f ∧ Chain rotbl (fpg / frag) f j ∧
      (b * frag * nspf / spc - b * frag * nspf / spc % cpc) * spc / (nspf * frag) + j = b

namespace Fs

variable (fs : Fs)

def bsize : Nat := fs.frag * fs.fsize

def nspb : Nat := fs.nspf * fs.frag

def numfrags (size : Nat) : Nat := size / fs.fsize

def fragstoblks (frags : Nat) : Nat := frags / fs.frag

def blkstofrags (blks : Nat) : Nat := blks * fs.frag

def fragnum (fsb : Nat) : Nat := fsb % fs.frag

def blknum (fsb : Nat) : Nat := fsb - fsb % fs.frag

def dtog (d : Nat) : Nat := d / fs.fpg

def dtogd (d : Nat) : Nat := d % fs.fpg

def cbtocylno (bno : Nat) : Nat := bno * fs.nspf / fs.spc

def cbtorpos (bno : Nat) : Nat :=
  (bno * fs.nspf % fs.spc / fs.nsect * fs.trackskew + bno * fs.nspf % fs.spc % fs.nsect * fs.interleave) % fs.nsect *
    fs.nrpos / fs.npsect

def blkmap (map : Bitmap) (loc : Nat) : BitVec 8 := (map (loc / 8) >>> (loc % 8)) &&& (0xff#8 >>> (8 - fs.frag))

def around : List Nat := [0x3, 0x7, 0xf, 0x1f, 0x3f, 0x7f, 0xff, 0x1ff, 0x3ff]

def inside : List Nat := [0x0, 0x2, 0x6, 0xe, 0x1e, 0x3e, 0x7e, 0xfe, 0x1fe]

def fragtbl124 : List (BitVec 8) := [
    0x00, 0x16, 0x16, 0x2a, 0x16, 0x16, 0x26, 0x4e, 0x16, 0x16, 0x16, 0x3e, 0x2a, 0x3e, 0x4e, 0x8a,
    0x16, 0x16, 0x16, 0x3e, 0x16, 0x16, 0x36, 0x5e, 0x16, 0x16, 0x16, 0x3e, 0x3e, 0x3e, 0x5e, 0x9e,
    0x16, 0x16, 0x16, 0x3e, 0x16, 0x16, 0x36, 0x5e, 0x16, 0x16, 0x16, 0x3e, 0x3e, 0x3e, 0x5e, 0x9e,
    0x2a, 0x3e, 0x3e, 0x2a, 0x3e, 0x3e, 0x2e, 0x6e, 0x3e, 0x3e, 0x3e, 0x3e, 0x2a, 0x3e, 0x6e, 0xaa,
    0x16, 0x16, 0x16, 0x3e, 0x16, 0x16, 0x36, 0x5e, 0x16, 0x16, 0x16, 0x3e, 0x3e, 0x3e, 0x5e, 0x9e,
    0x16, 0x16, 0x16, 0x3e, 0x16, 0x16, 0x36, 0x5e, 0x16, 0x16, 0x16, 0x3e, 0x3e, 0x3e, 0x5e, 0x9e,
    0x26, 0x36, 0x36, 0x2e, 0x36, 0x36, 0x26, 0x6e, 0x36, 0x36, 0x36, 0x3e, 0x2e, 0x3e, 0x6e, 0xae,
    0x4e, 0x5e, 0x5e, 0x6e, 0x5e, 0x5e, 0x6e, 0x4e, 0x5e, 0x5e, 0x5e, 0x7e, 0x6e, 0x7e, 0x4e, 0xce,
    0x16, 0x16, 0x16, 0x3e, 0x16, 0x16, 0x36, 0x5e, 0x16, 0x16, 0x16, 0x3e, 0x3e, 0x3e, 0x5e, 0x9e,
    0x16, 0x16, 0x16, 0x3e, 0x16, 0x16, 0x36, 0x5e, 0x16, 0x16, 0x16, 0x3e, 0x3e, 0x3e, 0x5e, 0x9e,
    0x16, 0x16, 0x16, 0x3e, 0x16, 0x16, 0x36, 0x5e, 0x16, 0x16, 0x16, 0x3e, 0x3e, 0x3e, 0x5e, 0x9e,
    0x3e, 0x3e, 0x3e, 0x3e, 0x3e, 0x3e, 0x3e, 0x7e, 0x3e, 0x3e, 0x3e, 0x3e, 0x3e, 0x3e, 0x7e, 0xbe,
    0x2a, 0x3e, 0x3e, 0x2a, 0x3e, 0x3e, 0x2e, 0x6e, 0x3e, 0x3e, 0x3e, 0x3e, 0x2a, 0x3e, 0x6e, 0xaa,
    0x3e, 0x3e, 0x3e, 0x3e, 0x3e, 0x3e, 0x3e, 0x7e, 0x3e, 0x3e, 0x3e, 0x3e, 0x3e, 0x3e, 0x7e, 0xbe,
    0x4e, 0x5e, 0x5e, 0x6e, 0x5e, 0x5e, 0x6e, 0x4e, 0x5e, 0x5e, 0x5e, 0x7e, 0x6e, 0x7e, 0x4e, 0xce,
    0x8a, 0x9e, 0x9e, 0xaa, 0x9e, 0x9e, 0xae, 0xce, 0x9e, 0x9e, 0x9e, 0xbe, 0xaa, 0xbe, 0xce, 0x8a]

def fragtbl8 : List (BitVec 8) := [
    0x00, 0x01, 0x01, 0x02, 0x01, 0x01, 0x02, 0x04, 0x01, 0x01, 0x01, 0x03, 0x02, 0x03, 0x04, 0x08,
    0x01, 0x01, 0x01, 0x03, 0x01, 0x01, 0x03, 0x05, 0x02, 0x03, 0x03, 0x02, 0x04, 0x05, 0x08, 0x10,
    0x01, 0x01, 0x01, 0x03, 0x01, 0x01, 0x03, 0x05, 0x01, 0x01, 0x01, 0x03, 0x03, 0x03, 0x05, 0x09,
    0x02, 0x03, 0x03, 0x02, 0x03, 0x03, 0x02, 0x06, 0x04, 0x05, 0x05, 0x06, 0x08, 0x09, 0x10, 0x20,
    0x01, 0x01, 0x01, 0x03, 0x01, 0x01, 0x03, 0x05, 0x01, 0x01, 0x01, 0x03, 0x03, 0x03, 0x05, 0x09,
    0x01, 0x01, 0x01, 0x03, 0x01, 0x01, 0x03, 0x05, 0x03, 0x03, 0x03, 0x03, 0x05, 0x05, 0x09, 0x11,
    0x02, 0x03, 0x03, 0x02, 0x03, 0x03, 0x02, 0x06, 0x03, 0x03, 0x03, 0x03, 0x02, 0x03, 0x06, 0x0a,
    0x04, 0x05, 0x05, 0x06, 0x05, 0x05, 0x06, 0x04, 0x08, 0x09, 0x09, 0x0a, 0x10, 0x11, 0x20, 0x40,
    0x01, 0x01, 0x01, 0x03, 0x01, 0x01, 0x03, 0x05, 0x01, 0x01, 0x01, 0x03, 0x03, 0x03, 0x05, 0x09,
    0x01, 0x01, 0x01, 0x03, 0x01, 0x01, 0x03, 0x05, 0x03, 0x03, 0x03, 0x03, 0x05, 0x05, 0x09, 0x11,
    0x01, 0x01, 0x01, 0x03, 0x01, 0x01, 0x03, 0x05, 0x01, 0x01, 0x01, 0x03, 0x03, 0x03, 0x05, 0x09,
    0x03, 0x03, 0x03, 0x03, 0x03, 0x03, 0x03, 0x07, 0x05, 0x05, 0x05, 0x07, 0x09, 0x09, 0x11, 0x21,
    0x02, 0x03, 0x03, 0x02, 0x03, 0x03, 0x02, 0x06, 0x03, 0x03, 0x03, 0x03, 0x02, 0x03, 0x06, 0x0a,
    0x03, 0x03, 0x03, 0x03, 0x03, 0x03, 0x03, 0x07, 0x02, 0x03, 0x03, 0x02, 0x06, 0x07, 0x0a, 0x12,
    0x04, 0x05, 0x05, 0x06, 0x05, 0x05, 0x06, 0x04, 0x05, 0x05, 0x05, 0x07, 0x06, 0x07, 0x04, 0x0c,
    0x08, 0x09, 0x09, 0x0a, 0x09, 0x09, 0x0a, 0x0c, 0x10, 0x11, 0x11, 0x12, 0x20, 0x21, 0x40, 0x80]

/-- `fragtbl`: a bit for each size of which a byte of the map has a span of free fragments. -/
def fragtbl (frag : Nat) (map : BitVec 8) : BitVec 8 := (if frag = 8 then fragtbl8 else fragtbl124).getD map.toNat 0

def isblock (cp : Bitmap) (h : Nat) : Bool :=
  match fs.frag with
  | 8 => cp h = 0xff#8
  | 4 => let mask := 0x0f#8 <<< ((h &&& 0x1) <<< 2); cp (h >>> 1) &&& mask = mask
  | 2 => let mask := 0x03#8 <<< ((h &&& 0x3) <<< 1); cp (h >>> 2) &&& mask = mask
  | _ => let mask := 0x01#8 <<< (h &&& 0x7); cp (h >>> 3) &&& mask = mask

def clrblock (cp : Bitmap) (h : Nat) : Bitmap :=
  match fs.frag with
  | 8 => Function.update cp h 0
  | 4 => cp.clrMask (h >>> 1) (0x0f#8 <<< ((h &&& 0x1) <<< 2))
  | 2 => cp.clrMask (h >>> 2) (0x03#8 <<< ((h &&& 0x3) <<< 1))
  | _ => cp.clrMask (h >>> 3) (0x01#8 <<< (h &&& 0x7))

def setblock (cp : Bitmap) (h : Nat) : Bitmap :=
  match fs.frag with
  | 8 => Function.update cp h 0xff#8
  | 4 => cp.setMask (h >>> 1) (0x0f#8 <<< ((h &&& 0x1) <<< 2))
  | 2 => cp.setMask (h >>> 2) (0x03#8 <<< ((h &&& 0x3) <<< 1))
  | _ => cp.setMask (h >>> 3) (0x01#8 <<< (h &&& 0x7))

def acctLoop (frag fragmap siz : Nat) : Nat → Nat → Nat → Nat → Nat
  | 0, _, _, _ => 0
  | fuel + 1, pos, field, subfield =>
    if pos ≤ frag then
      if fragmap &&& field = subfield then
        acctLoop frag fragmap siz fuel (pos + siz + 1) (field <<< siz <<< 1) (subfield <<< siz <<< 1) + 1
      else acctLoop frag fragmap siz fuel (pos + 1) (field <<< 1) (subfield <<< 1)
    else 0

def fragacct (fragmap : BitVec 8) (fraglist : Nat → Int) (cnt : Int) : Nat → Int :=
  let inblk := (fragtbl fs.frag fragmap).toNat <<< 1
  (List.range' 1 (fs.frag - 1)).foldl (fun l siz =>
    if inblk &&& (1 <<< (siz + fs.frag % 8)) = 0 then l
    else
      Function.update l siz
        (l siz + cnt * acctLoop fs.frag (fragmap.toNat <<< 1) siz (fs.frag + 1) siz (around.getD siz 0) (inside.getD siz 0)))
    fraglist

def scanc (cp : Bitmap) (table : BitVec 8 → BitVec 8) (mask : BitVec 8) : Nat → Nat → Nat
  | 0, _ => 0
  | size + 1, i => if table (cp i) &&& mask = 0 then scanc cp table mask size (i + 1) else size + 1

end Fs

end NetBSD.Ffs
