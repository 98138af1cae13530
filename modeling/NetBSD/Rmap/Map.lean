import NetBSD.Lib.Runs
import Mathlib.Order.Interval.Finset.Basic
import Mathlib.Data.Int.Interval

/-!
# Resource maps

`subr_rmap.c`. No slot ends behind the range that the map was made for, so no sum of an address and a size is
more than a `long` holds.
-/

namespace NetBSD.Rmap

structure Mapent where
  mSize : Int
  mAddr : Int
  deriving DecidableEq

structure Map where
  slots : List Mapent
  deriving DecidableEq

/-- Why a call does not return: a panic, an access to the slot at `m_limit` or to no slot, a loop. -/
inductive Fault where
  | panic
  | beyond
  | endless
  deriving DecidableEq

def rminit (size addr : Int) (nelem : Nat) : Except Fault Map :=
  if nelem < 2 ∨ addr ≤ 0 ∨ size < 0 then .error .panic
  else .ok { slots := { mSize := size, mAddr := addr } :: List.replicate (nelem - 2) { mSize := 0, mAddr := 0 } }

def markLast (slots : List Mapent) : List Mapent :=
  match slots.getLast? with
  | none => []
  | some e => [{ e with mAddr := 0 }]

def Map.remove (mp : Map) (i : Nat) : Map := { slots := mp.slots.eraseIdx i ++ markLast mp.slots }

inductive Fit where
  | exact (i : Nat)
  | larger (i : Nat)
  | none
  deriving DecidableEq

def findFit (size : Int) : List Mapent → Nat → Option (Nat × Int) → Fit
  | [], _, fp => fp.elim .none fun f => .larger f.1
  | ep :: rest, i, fp =>
    if ep.mAddr = 0 then fp.elim .none fun f => .larger f.1
    else if ep.mSize = size then .exact i
    else
      findFit size rest (i + 1)
        (if ep.mSize > size ∧ fp.all fun f => f.2 > ep.mSize then some (i, ep.mSize) else fp)

def rmalloc (mp : Map) (size : Int) : Except Fault (Int × Map) :=
  if size < 0 then .error .panic
  else if size = 0 then .ok (0, mp)
  else
    match findFit size mp.slots 0 none with
    | .exact i => .ok ((mp.slots.getD i ⟨0, 0⟩).mAddr, mp.remove i)
    | .larger i =>
      .ok ((mp.slots.getD i ⟨0, 0⟩).mAddr,
        { slots := mp.slots.modify i fun fp => { mAddr := fp.mAddr + size, mSize := fp.mSize - size } })
    | .none => .ok (0, mp)

/-- What the loop of `rmfree` finds; at its end, the slot it is at and the smallest one with its size. -/
inductive Spot where
  | after (i : Nat)
  | before (i : Nat)
  | insert (i : Nat)
  | none (i : Nat) (fp : Option (Nat × Int))
  deriving DecidableEq

def findSpot (full : Bool) (size addr : Int) : List Mapent → Nat → Option (Nat × Int) → Spot
  | [], i, fp => .none i fp
  | ep :: rest, i, fp =>
    if ep.mAddr = 0 then .none i fp
    else if ep.mAddr + ep.mSize = addr then .after i
    else if addr + size = ep.mAddr then .before i
    else if addr < ep.mAddr ∧ full = false then .insert i
    else findSpot full size addr rest (i + 1) (if fp.all fun f => f.2 > ep.mSize then some (i, ep.mSize) else fp)

def Map.full (mp : Map) : Bool := mp.slots.getLast?.any fun e => e.mAddr ≠ 0

def Map.extend (mp : Map) (size addr : Int) (i : Nat) : Except Fault Map :=
  match mp.slots[i]?, mp.slots[i + 1]? with
  | some ep, some next =>
    if next.mAddr ≠ 0 ∧ addr + size ≥ next.mAddr then
      if addr + size > next.mAddr then .error .panic
      else
        .ok (({ slots := mp.slots.set i { ep with mSize := ep.mSize + size + next.mSize } } : Map).remove (i + 1))
    else .ok { slots := mp.slots.set i { ep with mSize := ep.mSize + size } }
  | _, _ => .error .beyond

/-- The loop of `rmfree` that starts again when it has dropped a slot; `lost` is what it has reported. -/
def rmfreeLoop (size addr : Int) : Nat → Int → Map → Except Fault (Int × Map)
  | 0, _, _ => .error .endless
  | fuel + 1, lost, mp =>
    match findSpot mp.full size addr mp.slots 0 none with
    | .after i => (mp.extend size addr i).map fun mp => (lost, mp)
    | .before i =>
      .ok (lost, { slots := mp.slots.modify i fun ep => { mAddr := addr, mSize := ep.mSize + size } })
    | .insert i => .ok (lost, { slots := (mp.slots.insertIdx i { mSize := size, mAddr := addr }).dropLast })
    | .none i fp =>
      if i ≠ 0 ∧ mp.slots[i - 1]?.any fun ep => ep.mAddr + ep.mSize = addr then
        .ok (lost, { slots := mp.slots.modify (i - 1) fun ep => { ep with mSize := ep.mSize + size } })
      else if i ≠ mp.slots.length then
        .ok (lost, { slots := mp.slots.set i { mSize := size, mAddr := addr } })
      else
        match fp with
        | none => .error .beyond
        | some (f, fsize) =>
          if fsize > size then .ok (lost + size, mp)
          else rmfreeLoop size addr fuel (lost + fsize) (mp.remove f)

def rmfree (mp : Map) (size addr : Int) : Except Fault (Int × Map) :=
  if size ≤ 0 ∨ addr ≤ 0 then .error .panic else rmfreeLoop size addr (mp.slots.length + 1) 0 mp

abbrev span (b c : Int) : Finset Int := @Finset.Ico Int Int.instLinearOrder.toPartialOrder.toPreorder _ b c

structure Arena where
  map : Map
  allocated : Finset Int
  lost : Int

inductive MapCall where
  | rmalloc (size : Int)
  | rmfree (size addr : Int)

def Arena.step (a : Arena) : MapCall → Option Arena
  | .rmalloc size =>
    match Rmap.rmalloc a.map size with
    | .error _ => none
    | .ok (addr, map) =>
      some { a with
        map
        allocated := if addr = 0 then a.allocated else a.allocated ∪ span addr (addr + size) }
  | .rmfree size addr =>
    match Rmap.rmfree a.map size addr with
    | .error _ => none
    | .ok (lost, map) =>
      some { map, allocated := a.allocated \ span addr (addr + size), lost := a.lost + lost }

def Arena.Allowed (a : Arena) : MapCall → Prop
  | .rmalloc size => 0 ≤ size
  | .rmfree size addr => 0 < size ∧ span addr (addr + size) ⊆ a.allocated

def Arena.Careful (a : Arena) (call : MapCall) : Prop :=
  a.Allowed call ∧
    match call with
    | .rmalloc _ => True
    | .rmfree _ addr => ∀ e, a.map.slots.getLast? = some e → e.mAddr ≠ 0 → e.mAddr + e.mSize ≠ addr

end NetBSD.Rmap
