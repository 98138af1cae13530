import NetBSD.Lib.Runs
import Mathlib.Logic.Function.Basic
import Mathlib.Data.BitVec

/-!
# Clists

`tty_subr.c`, with `QBITS`. A clist is one that `clalloc` has set up. Its pointers are offsets from `c_cs`, so
`c_ce` is at `c_cn`; both areas are the memory from their first byte on, whatever is behind them included. Where
a null pointer is followed, or a loop does not end, there is no result.
-/

namespace NetBSD.Tty

abbrev Memory := Nat → BitVec 8

def ttyQuote : BitVec 32 := 0x100

structure Clist where
  cCc : Nat
  cCn : Nat
  cCf : Option Nat
  cCl : Option Nat
  cCs : Memory
  cCq : Option Memory

def setbit (a : Memory) (i : Nat) : Memory := Function.update a (i / 8) (a (i / 8) ||| 1#8 <<< (i % 8))

def clrbit (a : Memory) (i : Nat) : Memory := Function.update a (i / 8) (a (i / 8) &&& ~~~(1#8 <<< (i % 8)))

def isset (a : Memory) (i : Nat) : Bool := a (i / 8) &&& 1#8 <<< (i % 8) ≠ 0

def clrbits (cp : Memory) (off len : Nat) : Memory :=
  if len = 1 then clrbit cp off
  else
    let sby := off / 8
    let sbi := off % 8
    let eby := (off + len) / 8
    let ebi := (off + len) % 8
    if sby = eby then
      Function.update cp sby (cp sby &&& ~~~(BitVec.ofNat 8 ((2 ^ (ebi - sbi) - 1) <<< sbi)))
    else
      let cp := Function.update cp sby (cp sby &&& BitVec.ofNat 8 (2 ^ sbi - 1))
      -- When the range ends with a byte, nothing of the next one is cleared.
      let cp := Function.update cp eby (cp eby &&& ~~~(BitVec.ofNat 8 (2 ^ ebi - 1)))
      fun i => if sby < i ∧ i < eby then 0 else cp i

def qmem (n : Nat) : Nat := (n - 1) / 8 + 1

def bzero (a : Memory) (n : Nat) : Memory := fun i => if i < n then 0 else a i

/-- The areas that are allocated hold `cs` and `cq`. The second `bzero` clears `c_cs` again. -/
def clalloc (size : Nat) (quot : Bool) (cs cq : Memory) : Clist :=
  { cCc := 0, cCn := size, cCf := none, cCl := none
    cCs := if quot then bzero (bzero cs size) (qmem size) else bzero cs size
    cCq := if quot then some cq else none }

def Clist.charAt (clp : Clist) (i : Nat) : BitVec 32 :=
  let c := (clp.cCs i).setWidth 32 &&& 0xff
  match clp.cCq with
  | none => c
  | some cq => if isset cq i then c ||| ttyQuote else c

def Clist.settle (clp : Clist) : Clist :=
  if clp.cCc = 0 then { clp with cCf := none, cCl := none } else clp

def getc (clp : Clist) : Option (BitVec 32 × Clist) :=
  if clp.cCc = 0 then some (-1, clp)
  else
    clp.cCf.map fun cf =>
      let next := if cf + 1 = clp.cCn then 0 else cf + 1
      (clp.charAt cf, Clist.settle { clp with cCf := some next, cCc := clp.cCc - 1 })

def putc (c : BitVec 32) (clp : Clist) : Option (Int × Clist) :=
  if clp.cCc = clp.cCn then some (-1, clp)
  else
    let clp := if clp.cCc = 0 then { clp with cCf := some 0, cCl := some 0 } else clp
    clp.cCl.map fun cl =>
      (0, { clp with
        cCs := Function.update clp.cCs cl (c.setWidth 8)
        cCq := clp.cCq.map fun cq => if c &&& ttyQuote ≠ 0 then setbit cq cl else clrbit cq cl
        cCc := clp.cCc + 1
        cCl := some (if cl + 1 = clp.cCn then 0 else cl + 1) })

def unputc (clp : Clist) : Option (BitVec 32 × Clist) :=
  if clp.cCc = 0 then some (-1, clp)
  else
    clp.cCl.map fun cl =>
      let last := if cl = 0 then clp.cCn - 1 else cl - 1
      (clp.charAt last, Clist.settle { clp with cCl := some last, cCc := clp.cCc - 1 })

def Clist.front (clp : Clist) (count : Nat) : Option (Nat × Nat) :=
  match clp.cCf, clp.cCl with
  | some cf, some cl =>
    let cc := if cf ≥ cl then clp.cCn - cf else cl - cf
    some (cf, if cc > count then count else cc)
  | _, _ => none

def Clist.advance (clp : Clist) (cf cc : Nat) : Clist :=
  { clp with cCc := clp.cCc - cc, cCf := some (if cf + cc = clp.cCn then 0 else cf + cc) }

def qToBLoop : Nat → Clist → Nat → Option (List (BitVec 8) × Clist)
  | 0, _, _ => none
  | fuel + 1, clp, count =>
    if count > 0 ∧ clp.cCc > 0 then
      match clp.front count with
      | none => none
      | some (cf, cc) =>
        (qToBLoop fuel (clp.advance cf cc) (count - cc)).map fun r =>
          ((List.range cc).map (fun i => clp.cCs (cf + i)) ++ r.1, r.2)
    else some ([], clp)

def qToB (clp : Clist) (count : Int) : Option (List (BitVec 8) × Clist) :=
  (qToBLoop (count.toNat + 1) clp count.toNat).map fun r => (r.1, r.2.settle)

def ndflushLoop : Nat → Clist → Nat → Option Clist
  | 0, _, _ => none
  | fuel + 1, clp, count =>
    if count > 0 ∧ clp.cCc > 0 then
      match clp.front count with
      | none => none
      | some (cf, cc) => ndflushLoop fuel (clp.advance cf cc) (count - cc)
    else some clp

def ndflush (clp : Clist) (count : Int) : Option Clist :=
  if count = clp.cCc then some { clp with cCc := 0, cCf := none, cCl := none }
  else (ndflushLoop (count.toNat + 1) clp count.toNat).map Clist.settle

def bToQLoop : Nat → Memory → Nat → Clist → Option (Nat × Clist)
  | 0, _, _, _ => none
  | fuel + 1, p, count, clp =>
    if count > 0 ∧ clp.cCc < clp.cCn then
      match clp.cCf, clp.cCl with
      | some cf, some cl =>
        let cc := if cf > cl then cf - cl else clp.cCn - cl
        let cc := if cc > count then count else cc
        bToQLoop fuel (fun i => p (cc + i)) (count - cc)
          { clp with
            cCs := fun i => if cl ≤ i ∧ i < cl + cc then p (i - cl) else clp.cCs i
            cCq := clp.cCq.map fun cq => clrbits cq cl cc
            cCc := clp.cCc + cc
            cCl := some (if cl + cc = clp.cCn then 0 else cl + cc) }
      | _, _ => none
    else some (count, clp)

def bToQ (cp : Memory) (count : Int) (clp : Clist) : Option (Int × Clist) :=
  if count ≤ 0 then some (0, clp)
  else if clp.cCc = clp.cCn then some (count, clp)
  else
    let clp := if clp.cCc = 0 then { clp with cCf := some 0, cCl := some 0 } else clp
    (bToQLoop (count.toNat + 1) cp count.toNat clp).map fun r => ((r.1 : Int), r.2)

def nextc (cc : Nat) (clp : Clist) (cp : Option Nat) : Nat × Option (Nat × BitVec 32) :=
  let cc := if clp.cCf = cp then clp.cCc else cc
  match cp with
  | none => (cc, none)
  | some cp =>
    if cc = 0 then (cc, none)
    else if cc - 1 = 0 then (cc - 1, none)
    else
      let cp := if cp + 1 = clp.cCn then 0 else cp + 1
      (cc - 1, some (cp, clp.charAt cp))

def firstc (clp : Clist) : Nat × Option (Nat × BitVec 32) :=
  if clp.cCc = 0 then (0, none)
  else (clp.cCc, clp.cCf.map fun cp => (cp, clp.charAt cp))

def nextcs : Nat → Nat → Clist → Nat → Option (List (BitVec 32))
  | 0, _, _, _ => none
  | fuel + 1, cc, clp, cp =>
    match nextc cc clp (some cp) with
    | (_, none) => some []
    | (cc, some (cp, c)) => (nextcs fuel cc clp cp).map (c :: ·)

def Clist.scan (clp : Clist) : Option (List (BitVec 32)) :=
  match firstc clp with
  | (_, none) => some []
  | (cc, some (cp, c)) => (nextcs clp.cCc cc clp cp).map (c :: ·)

abbrev Clists := Nat → Clist

def catqLoop : Nat → Clists → Nat → Nat → Option Clists
  | 0, _, _, _ => none
  | fuel + 1, q, src, dst =>
    match getc (q src) with
    | none => none
    | some (c, clp) =>
      let q := Function.update q src clp
      if c = -1 then some q
      else
        match putc c (q dst) with
        | none => none
        | some (_, clp) => catqLoop fuel (Function.update q dst clp) src dst

/-- `catq(src, dst)`, which does not return when a clist with characters is appended to itself. -/
def catq (q : Clists) (src dst : Nat) : Option Clists := catqLoop ((q src).cCc + 1) q src dst

/-- A call. `clrbits i k n` is for the area of the `n` characters from the `k`-th on: one call, or two when they
go on at the start of the ring. -/
inductive Call where
  | putc (c : BitVec 32) (i : Nat)
  | getc (i : Nat)
  | unputc (i : Nat)
  | bToQ (cp : Memory) (count : Int) (i : Nat)
  | qToB (i : Nat) (count : Int)
  | ndflush (i : Nat) (count : Int)
  | clrbits (i k n : Nat)
  | catq (src dst : Nat)

inductive Reply where
  | char (c : BitVec 32)
  | count (n : Int)
  | bytes (p : List (BitVec 8))
  | done
  deriving DecidableEq

def Clist.offset (clp : Clist) (k : Nat) : Nat := (clp.cCf.getD 0 + k) % clp.cCn

def Clists.step (q : Clists) : Call → Option (Reply × Clists)
  | .putc c i => (Tty.putc c (q i)).map fun r => (.count r.1, Function.update q i r.2)
  | .getc i => (Tty.getc (q i)).map fun r => (.char r.1, Function.update q i r.2)
  | .unputc i => (Tty.unputc (q i)).map fun r => (.char r.1, Function.update q i r.2)
  | .bToQ cp count i => (Tty.bToQ cp count (q i)).map fun r => (.count r.1, Function.update q i r.2)
  | .qToB i count => (Tty.qToB (q i) count).map fun r => (.bytes r.1, Function.update q i r.2)
  | .ndflush i count => (Tty.ndflush (q i) count).map fun r => (.done, Function.update q i r)
  | .clrbits i k n =>
    let off := (q i).offset k
    let clear := fun cq =>
      if off + n ≤ (q i).cCn then Tty.clrbits cq off n
      else Tty.clrbits (Tty.clrbits cq off ((q i).cCn - off)) 0 (off + n - (q i).cCn)
    if 0 < n ∧ k + n ≤ (q i).cCc then some (.done, Function.update q i { q i with cCq := (q i).cCq.map clear })
    else none
  | .catq src dst => (Tty.catq q src dst).map fun r => (.done, r)

end NetBSD.Tty
