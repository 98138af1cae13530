import Mathlib.Logic.Function.Basic

/-!
# Reading a compressed file

`zread` and `getcode`, of `zopen.c`, for machines with a `long` of four bytes. The tables and the code buffer are functions from their
indices, the stack is the characters on it, the last one pushed first, and every place where they are indexed says which one is overrun
when it is.
-/

namespace NetBSD.Compress

open Function (update)

abbrev Byte := BitVec 8

def bits : Nat := 16

def hsize : Nat := 69001

def initBits : Nat := 9

def first : Nat := 257

def clear : Nat := 256

def maxcodeOf (nBits : Nat) : Nat := (1 <<< nBits) - 1

def stackSize : Nat := 4 * hsize - (1 <<< bits)

inductive Phase where
  | start
  | middle
  | eof
  deriving DecidableEq

inductive Overrun where
  | prefixof
  | suffixof
  | stack
  | gbuf
  deriving DecidableEq

/-- `struct s_zstate`, as far as reading goes. `stackp` is null until the first code is read, and there is no stack. -/
structure Zstate where
  file : List Byte
  state : Phase
  nBits : Nat
  maxbits : Nat
  maxcode : Nat
  maxmaxcode : Nat
  prefixof : Nat → BitVec 16
  suffixof : Nat → Byte
  freeEnt : Nat
  blockCompress : Bool
  clearFlg : Bool
  stack : Option (List Byte)
  finchar : Byte
  oldcode : Nat
  incode : Nat
  roffset : Nat
  size : Int
  gbuf : Nat → Byte

def zopen (file : List Byte) : Zstate where
  file := file
  state := .start
  nBits := 0
  maxbits := bits
  maxcode := 0
  maxmaxcode := 1 <<< bits
  prefixof := fun _ => 0
  suffixof := fun _ => 0
  freeEnt := 0
  blockCompress := true
  clearFlg := false
  stack := none
  finchar := 0
  oldcode := 0
  incode := 0
  roffset := 0
  size := 0
  gbuf := fun _ => 0

def Zstate.due (z : Zstate) : Prop := z.clearFlg = true ∨ z.size ≤ z.roffset ∨ z.maxcode < z.freeEnt

instance (z : Zstate) : Decidable z.due := inferInstanceAs (Decidable (_ ∨ _ ∨ _))

def Zstate.widen (z : Zstate) : Zstate :=
  if z.maxcode < z.freeEnt then
    { z with
      nBits := z.nBits + 1
      maxcode := if z.nBits + 1 = z.maxbits then z.maxmaxcode else maxcodeOf (z.nBits + 1) }
  else z

def Zstate.restart (z : Zstate) : Zstate :=
  if z.clearFlg then { z with maxcode := maxcodeOf initBits, nBits := initBits, clearFlg := false } else z

def Zstate.refilled (z : Zstate) (got : Nat) : Zstate :=
  { z with
    file := z.file.drop got
    gbuf := fun i => if i < got then z.file.getD i 0 else z.gbuf i
    roffset := 0
    size := got * 8 - (z.nBits - 1) }

def Zstate.fill (z : Zstate) : Except Overrun (Bool × Zstate) :=
  let got := min z.nBits z.file.length
  if bits < got then .error .gbuf
  else if got = 0 then .ok (false, { z with size := 0 })
  else .ok (true, z.refilled got)

def rmask (bits : Nat) : Nat := (1 <<< bits) - 1

/-- The code at `roffset`: its low bits, a middle part of eight bits where there is one, and its high bits. -/
def Zstate.extract (z : Zstate) : Except Overrun (Nat × Zstate) :=
  let bp := z.roffset >>> 3
  let rOff := z.roffset &&& 7
  let low := (z.gbuf bp).toNat >>> rOff
  let bits' := z.nBits - (8 - rOff)
  let last := if 8 ≤ bits' then bp + 2 else bp + 1
  if bits ≤ last then .error .gbuf
  else
    let gcode :=
      if 8 ≤ bits' then
        low ||| ((z.gbuf (bp + 1)).toNat <<< (8 - rOff)) ||| (((z.gbuf last).toNat &&& rmask (bits' - 8)) <<< (16 - rOff))
      else low ||| (((z.gbuf last).toNat &&& rmask bits') <<< (8 - rOff))
    .ok (gcode, { z with roffset := z.roffset + z.nBits })

def getcode (z : Zstate) : Except Overrun (Option Nat × Zstate) :=
  if z.due then
    match z.widen.restart.fill with
    | .error e => .error e
    | .ok (false, z) => .ok (none, z)
    | .ok (true, z) =>
      match z.extract with
      | .error e => .error e
      | .ok (code, z) => .ok (some code, z)
  else
    match z.extract with
    | .error e => .error e
    | .ok (code, z) => .ok (some code, z)

/-- The characters of `code` onto the stack, in reverse order; `room` is what is left of it, and a walk that never ends overruns it. -/
def expand (prefixof : Nat → BitVec 16) (suffixof : Nat → Byte) : Nat → Nat → List Byte → Except Overrun (List Byte)
  | 0, _, _ => .error .stack
  | room + 1, code, stack =>
    if 1 <<< bits ≤ code then .error .suffixof
    else if code < 256 then .ok (suffixof code :: stack)
    else expand prefixof suffixof room (prefixof code).toNat (suffixof code :: stack)

def nextCode (z : Zstate) : Except Overrun (Option Nat × Zstate) :=
  match getcode z with
  | .error e => .error e
  | .ok (none, z) => .ok (none, z)
  | .ok (some code, z) =>
    if code = clear ∧ z.blockCompress = true then
      getcode { z with
        prefixof := fun i => if i < 256 then 0 else z.prefixof i
        clearFlg := true
        freeEnt := first - 1 }
    else .ok (some code, z)

def Zstate.pending (z : Zstate) (code : Nat) : Nat := if z.freeEnt ≤ code then z.oldcode else code

def Zstate.push (z : Zstate) (code : Nat) (stack : List Byte) : Except Overrun (List Byte) :=
  if z.freeEnt ≤ code then
    if stackSize ≤ stack.length then .error .stack
    else expand z.prefixof z.suffixof (stackSize - (stack.length + 1)) (z.pending code) (z.finchar :: stack)
  else expand z.prefixof z.suffixof (stackSize - stack.length) (z.pending code) stack

def turn (z : Zstate) : Except Overrun Zstate :=
  match nextCode z with
  | .error e => .error e
  | .ok (none, z) => .ok { z with state := .eof }
  | .ok (some code, z) =>
    match z.push code (z.stack.getD []) with
    | .error e => .error e
    | .ok stack => .ok { z with incode := code, stack := some stack, finchar := stack.headD 0 }

def enter (z : Zstate) : Except Overrun Zstate :=
  if z.freeEnt < z.maxmaxcode then
    if hsize ≤ z.freeEnt then .error .prefixof
    else if 1 <<< bits ≤ z.freeEnt then .error .suffixof
    else
      .ok { z with
        prefixof := update z.prefixof z.freeEnt (BitVec.ofNat 16 z.oldcode)
        suffixof := update z.suffixof z.freeEnt z.finchar
        freeEnt := z.freeEnt + 1
        oldcode := z.incode }
  else .ok { z with oldcode := z.incode }

def middle : Nat → List Byte → Zstate → Except Overrun (List Byte × Zstate)
  | 0, out, z => .ok (out, z)
  | count + 1, out, z =>
    match z.stack with
    | none => .error .stack
    | some [] => .error .stack
    | some [c] =>
      match enter { z with stack := some [] } with
      | .error e => .error e
      | .ok z =>
        match turn z with
        | .error e => .error e
        | .ok z => if z.state = .eof then .ok (out ++ [c], z) else middle count (out ++ [c]) z
    | some (c :: d :: stack) => middle count (out ++ [c]) { z with stack := some (d :: stack) }

def resume (count : Nat) (out : List Byte) (z : Zstate) : Except Overrun (List Byte × Zstate) :=
  match turn z with
  | .error e => .error e
  | .ok z => if z.state = .eof then .ok (out, z) else middle count out z

def header (z : Zstate) : Bool × Zstate :=
  match z.file with
  | a :: b :: c :: file =>
    if a = 0x1f ∧ b = 0x9d then
      let maxbits := c.toNat &&& 0x1f
      let block := c.toNat &&& 0x80 ≠ 0
      let z := { z with file := file, maxbits := maxbits, blockCompress := block, maxmaxcode := 1 <<< maxbits }
      if bits < maxbits then (false, z)
      else
        (true,
          { z with
            maxcode := maxcodeOf initBits
            nBits := initBits
            prefixof := fun i => if i < 256 then 0 else z.prefixof i
            suffixof := fun i => if i < 256 then BitVec.ofNat 8 i else z.suffixof i
            freeEnt := if block then first else 256 })
    else (false, { z with file := file })
  | _ => (false, { z with file := [] })

def Zstate.started (z : Zstate) (code : Nat) : Zstate :=
  { z with oldcode := code, finchar := BitVec.ofNat 8 code, stack := some [] }

def returned (r : List Byte × Zstate) : Int × List Byte × Zstate := (r.1.length, r.1, r.2)

def readStart (num : Nat) (z : Zstate) : Except Overrun (Int × List Byte × Zstate) :=
  match header z with
  | (false, z) => .ok (-1, [], z)
  | (true, z) =>
    match getcode z with
    | .error e => .error e
    | .ok (none, z) => .ok (0, [], z)
    | .ok (some code, z) => (resume (num - 1) [BitVec.ofNat 8 code] (z.started code)).map returned

def zread (num : Nat) (z : Zstate) : Except Overrun (Int × List Byte × Zstate) :=
  if num = 0 then .ok (0, [], z)
  else
    match z.state with
    | .start => readStart num { z with state := .middle }
    | .middle => (middle num [] z).map returned
    | .eof => .ok (0, [], z)

def run : List Nat → Zstate → Except Overrun Zstate
  | [], z => .ok z
  | num :: nums, z =>
    match zread num z with
    | .error e => .error e
    | .ok r => run nums r.2.2

def Confined (file : List Byte) : Prop := ∀ nums, ∃ z, run nums (zopen file) = .ok z

end NetBSD.Compress
