import NetBSD.Lib.Machine
import NetBSD.Mbuf.Chain

/-!
# The packet filter machine

The instruction encodings, the validator `bpf_validate` and the interpreter `bpf_filter` for a
machine whose `int` and `long` have 32 bits. Every access of the interpreter that C leaves undefined
(an instruction outside the array, a scratch word outside `mem`, a byte outside the packet) is a
fault of the machine, so that the absence of such accesses is the absence of faults.
-/

namespace NetBSD.Bpf

open NetBSD.Lib

def bpfLd : Word16 := 0x00
def bpfLdx : Word16 := 0x01
def bpfSt : Word16 := 0x02
def bpfStx : Word16 := 0x03
def bpfAlu : Word16 := 0x04
def bpfJmp : Word16 := 0x05
def bpfRet : Word16 := 0x06
def bpfMisc : Word16 := 0x07

def bpfW : Word16 := 0x00
def bpfH : Word16 := 0x08
def bpfB : Word16 := 0x10

def bpfImm : Word16 := 0x00
def bpfAbs : Word16 := 0x20
def bpfInd : Word16 := 0x40
def bpfMem : Word16 := 0x60
def bpfLen : Word16 := 0x80
def bpfMsh : Word16 := 0xa0

def bpfAdd : Word16 := 0x00
def bpfSub : Word16 := 0x10
def bpfMul : Word16 := 0x20
def bpfDiv : Word16 := 0x30
def bpfOr : Word16 := 0x40
def bpfAnd : Word16 := 0x50
def bpfLsh : Word16 := 0x60
def bpfRsh : Word16 := 0x70
def bpfNeg : Word16 := 0x80

def bpfJa : Word16 := 0x00
def bpfJeq : Word16 := 0x10
def bpfJgt : Word16 := 0x20
def bpfJge : Word16 := 0x30
def bpfJset : Word16 := 0x40

def bpfK : Word16 := 0x00
def bpfX : Word16 := 0x08
def bpfA : Word16 := 0x10

def bpfTax : Word16 := 0x00
def bpfTxa : Word16 := 0x80

def bpfClass (code : Word16) : Word16 := code &&& 0x07

def bpfOp (code : Word16) : Word16 := code &&& 0xf0

def bpfMemwords : Nat := 16

structure BpfInsn where
  code : Word16
  jt : Byte
  jf : Byte
  k : Word32
  deriving DecidableEq

inductive Width where
  | word | half | byte
  deriving DecidableEq

def Width.bytes : Width → Nat
  | .word => 4
  | .half => 2
  | .byte => 1

def Width.code : Width → Word16
  | .word => bpfW
  | .half => bpfH
  | .byte => bpfB

inductive Mode where
  | abs | ind
  deriving DecidableEq

def Mode.code : Mode → Word16
  | .abs => bpfAbs
  | .ind => bpfInd

/-- The operand of a jump or of an ALU instruction: the constant `k` or the register `X`. -/
inductive Src where
  | k | x
  deriving DecidableEq

def Src.code : Src → Word16
  | .k => bpfK
  | .x => bpfX

inductive Cmp where
  | gt | ge | eq | set
  deriving DecidableEq

def Cmp.code : Cmp → Word16
  | .gt => bpfJgt
  | .ge => bpfJge
  | .eq => bpfJeq
  | .set => bpfJset

def Cmp.test : Cmp → Word32 → Word32 → Bool
  | .gt, a, b => decide (b < a)
  | .ge, a, b => decide (b ≤ a)
  | .eq, a, b => a == b
  | .set, a, b => a &&& b != 0

inductive Alu where
  | add | sub | mul | div | and | or | lsh | rsh
  deriving DecidableEq

def Alu.code : Alu → Word16
  | .add => bpfAdd
  | .sub => bpfSub
  | .mul => bpfMul
  | .div => bpfDiv
  | .and => bpfAnd
  | .or => bpfOr
  | .lsh => bpfLsh
  | .rsh => bpfRsh

/-- The arithmetic on `u_long`s. C leaves a shift by 32 or more open; the 32-bit machine uses the low
five bits of the count. -/
def Alu.eval : Alu → Word32 → Word32 → Word32
  | .add, a, b => a + b
  | .sub, a, b => a - b
  | .mul, a, b => a * b
  | .div, a, b => a / b
  | .and, a, b => a &&& b
  | .or, a, b => a ||| b
  | .lsh, a, b => a <<< (b.toNat % 32)
  | .rsh, a, b => a >>> (b.toNat % 32)

inductive Opcode where
  | retK | retA
  | ld (mode : Mode) (width : Width)
  | ldLen | ldxLen | ldxMsh
  | ldImm | ldxImm | ldMem | ldxMem
  | st | stx
  | ja
  | jmp (cmp : Cmp) (src : Src)
  | alu (op : Alu) (src : Src)
  | neg | tax | txa
  deriving DecidableEq

def Opcode.code : Opcode → Word16
  | .retK => bpfRet ||| bpfK
  | .retA => bpfRet ||| bpfA
  | .ld mode width => bpfLd ||| width.code ||| mode.code
  | .ldLen => bpfLd ||| bpfW ||| bpfLen
  | .ldxLen => bpfLdx ||| bpfW ||| bpfLen
  | .ldxMsh => bpfLdx ||| bpfMsh ||| bpfB
  | .ldImm => bpfLd ||| bpfImm
  | .ldxImm => bpfLdx ||| bpfImm
  | .ldMem => bpfLd ||| bpfMem
  | .ldxMem => bpfLdx ||| bpfMem
  | .st => bpfSt
  | .stx => bpfStx
  | .ja => bpfJmp ||| bpfJa
  | .jmp cmp src => bpfJmp ||| cmp.code ||| src.code
  | .alu op src => bpfAlu ||| op.code ||| src.code
  | .neg => bpfAlu ||| bpfNeg
  | .tax => bpfMisc ||| bpfTax
  | .txa => bpfMisc ||| bpfTxa

def Opcode.all : List Opcode :=
  [.retK, .retA, .ldLen, .ldxLen, .ldxMsh, .ldImm, .ldxImm, .ldMem, .ldxMem, .st, .stx, .ja]
    ++ [Mode.abs, .ind].flatMap (fun mode => [Width.word, .half, .byte].map (.ld mode))
    ++ [Cmp.gt, .ge, .eq, .set].flatMap (fun cmp => [Src.k, .x].map (.jmp cmp))
    ++ [Alu.add, .sub, .mul, .div, .and, .or, .lsh, .rsh].flatMap (fun op => [Src.k, .x].map (.alu op))
    ++ [.neg, .tax, .txa]

def decode (code : Word16) : Option Opcode := Opcode.all.find? (·.code == code)

theorem decode_code {code : Word16} {op : Opcode} (h : decode code = some op) : op.code = code := by
  have := List.find?_some h
  simpa using this

def intAdd (a b : Int) : Int := (a + b).bmod (2 ^ 32)

def insnOk (len : Int) (i : Nat) (p : BpfInsn) : Bool :=
  let next : Int := i + 1
  let jumpOk :=
    if bpfClass p.code = bpfJmp then
      if bpfOp p.code = bpfJa then decide (intAdd next p.k.toInt < len)
      else decide (intAdd next p.jt.toNat < len ∧ intAdd next p.jf.toNat < len)
    else true
  let usesMem := decide (bpfClass p.code = bpfSt ∨ (bpfClass p.code = bpfLd ∧ p.code &&& 0xe0 = bpfMem))
  let memOk := !(usesMem && decide ((bpfMemwords : Int) ≤ p.k.toInt ∨ p.k.toInt < 0))
  let divOk := !(decide (p.code = (bpfAlu ||| bpfDiv ||| bpfK) ∧ p.k = 0))
  jumpOk && memOk && divOk

def validateFrom (len : Int) : Nat → List BpfInsn → Bool
  | _, [] => true
  | i, p :: rest => insnOk len i p && validateFrom len (i + 1) rest

def bpfValidate (f : List BpfInsn) : Option Bool :=
  f.getLast?.map fun last => validateFrom f.length 0 f && decide (bpfClass last.code = bpfRet)

/-- An instruction array that `bpf_validate` accepts. An instruction has eight bytes, so an array in a
32-bit address space has fewer than `2 ^ 29` of them. -/
structure AcceptedProgram where
  insns : List BpfInsn
  length_lt : insns.length < 2 ^ 29
  accepted : bpfValidate insns = some true

end NetBSD.Bpf

/-!
## The interpreter

`bpf_filter` run on a packet held in one buffer (`buflen` is its length) or in an mbuf chain
(`buflen` is zero and `p` points at the first mbuf). The three walks over a chain are those of
`MINDEX`, `m_xword` and `m_xhalf`.
-/

namespace NetBSD.Bpf

open NetBSD.Lib

inductive Packet where
  | buf (p : List Byte)
  | chain (m : Mbuf) (next : List Mbuf)
  deriving Repr

inductive Load where
  | value (v : Word32)
  | reject
  | stray
  deriving DecidableEq

def Load.ofBytes : Option (List Byte) → Load
  | some bytes => .value (bigEndian bytes)
  | none => .stray

def Load.ofBytes₂ : Option (List Byte) → Option (List Byte) → Load
  | some front, some back => .value (bigEndian (front ++ back))
  | _, _ => .stray

/-- `MINDEX` and the first loop of `m_xword` and `m_xhalf`: the mbuf that offset `k` falls in, those
after it, and the offset within it. A negative offset stays in the first mbuf. -/
def mindex (m : Mbuf) (next : List Mbuf) (k : Int) : Option (Mbuf × List Mbuf × Int) :=
  if k < m.length then some (m, next, k)
  else
    match next with
    | [] => none
    | m' :: next' => mindex m' next' (k - m.length)

/-- `m_xword`, with `reject` for `*err = 1`. Past the mbuf's end it indexes by `k` the pointer `cp`
that already has `k` added. -/
def mXword (m : Mbuf) (next : List Mbuf) (k : Int) : Load :=
  match mindex m next k with
  | none => .reject
  | some (m, next, k) =>
    if 4 ≤ m.length - k then .ofBytes (bytesAt m k 4)
    else
      match next with
      | [] => .reject
      | m0 :: _ =>
        if m0.length + m.length - k < 4 then .reject
        else
          match m.length - k with
          | 1 => .ofBytes₂ (bytesAt m (k + k) 1) (bytesAt m0 0 3)
          | 2 => .ofBytes₂ (bytesAt m (k + k) 2) (bytesAt m0 0 2)
          | _ => .ofBytes₂ (bytesAt m (k + k) 3) (bytesAt m0 0 1)

/-- `m_xhalf`, with `reject` for `*err = 1`. The length of the next mbuf is not looked at. -/
def mXhalf (m : Mbuf) (next : List Mbuf) (k : Int) : Load :=
  match mindex m next k with
  | none => .reject
  | some (m, next, k) =>
    if 2 ≤ m.length - k then .ofBytes (bytesAt m k 2)
    else
      match next with
      | [] => .reject
      | m0 :: _ => .ofBytes₂ (bytesAt m (k + k) 1) (bytesAt m0 0 1)

/-- The byte that `MINDEX` leads to, read through a `u_char *` by `BPF_ABS` and through a `char *`,
which is signed, by `BPF_IND`. -/
def mXbyte (mode : Mode) (m : Mbuf) (next : List Mbuf) (k : Int) : Load :=
  match mindex m next k with
  | none => .reject
  | some (m, _, k) =>
    match bytesAt m k 1 with
    | some [b] => .value (match mode with | .abs => b.setWidth 32 | .ind => b.signExtend 32)
    | _ => .stray

/-- A load when `p` is a buffer of `buflen` bytes. The bounds test is on `unsigned`s; when it fails
and `buflen` is zero the code takes `p` for an mbuf. -/
def loadBuf (width : Width) (p : List Byte) (k : Word32) : Load :=
  let outside : Bool :=
    match width with
    | .word => decide (p.length < (k + 4).toNat)
    | .half => decide (p.length < (k + 2).toNat)
    | .byte => decide (p.length ≤ k.toNat)
  if outside then if p.length ≠ 0 then .reject else .stray
  else .ofBytes (bytesAt p k.toInt width.bytes)

/-- A load when `p` is an mbuf chain and `buflen` is zero. A sum that wraps to zero passes the bounds
test, and the mbuf header is read as packet data. `BPF_LD|BPF_H|BPF_ABS` does not look at `merr`. -/
def loadChain (mode : Mode) (width : Width) (m : Mbuf) (next : List Mbuf) (k : Word32) : Load :=
  match width, mode with
  | .word, _ => if 0 < (k + 4).toNat then mXword m next k.toInt else .stray
  | .half, .abs =>
    if 0 < (k + 2).toNat then
      match mXhalf m next k.toInt with
      | .reject => .value 0
      | out => out
    else .stray
  | .half, .ind => if 0 < (k + 2).toNat then mXhalf m next k.toInt else .stray
  | .byte, mode => mXbyte mode m next k.toInt

def load (mode : Mode) (width : Width) (pkt : Packet) (k : Word32) : Load :=
  match pkt with
  | .buf p => loadBuf width p k
  | .chain m next => loadChain mode width m next k

structure BpfState where
  pc : Int
  a : Word32
  x : Word32
  mem : Fin bpfMemwords → Word32

inductive Fault where
  | fetch | scratch | packet | divByZero
  deriving DecidableEq

def memIndex (k : Word32) : Option (Fin bpfMemwords) :=
  if h : k.toNat < bpfMemwords then some ⟨k.toNat, h⟩ else none

def fetch (prog : List BpfInsn) (pc : Int) : Option BpfInsn :=
  if 0 ≤ pc then prog[pc.toNat]? else none

abbrev BpfStep := Step BpfState Word32 Fault

namespace BpfState

def advance (s : BpfState) : BpfState := { s with pc := s.pc + 1 }

def jump (s : BpfState) (offset : Int) : BpfState := { s with pc := s.pc + offset + 1 }

def offset (s : BpfState) : Mode → Word32 → Word32
  | .abs, k => k
  | .ind, k => s.x + k

def operand (s : BpfState) : Src → Word32 → Word32
  | .k, k => k
  | .x, _ => s.x

end BpfState

def exec (pkt : Packet) (wirelen : Word32) (s : BpfState) (p : BpfInsn) : Option Opcode → BpfStep
  | none => .done 0
  | some .retK => .done p.k
  | some .retA => .done s.a
  | some (.ld mode width) =>
    match load mode width pkt (s.offset mode p.k) with
    | .value v => .next { s.advance with a := v }
    | .reject => .done 0
    | .stray => .fault .packet
  | some .ldLen => .next { s.advance with a := wirelen }
  | some .ldxLen => .next { s.advance with x := wirelen }
  | some .ldxMsh =>
    -- a `char *` again, but the mask drops the sign
    match load .ind .byte pkt p.k with
    | .value v => .next { s.advance with x := (v &&& 0xf) <<< 2 }
    | .reject => .done 0
    | .stray => .fault .packet
  | some .ldImm => .next { s.advance with a := p.k }
  | some .ldxImm => .next { s.advance with x := p.k }
  | some .ldMem =>
    match memIndex p.k with
    | some i => .next { s.advance with a := s.mem i }
    | none => .fault .scratch
  | some .ldxMem =>
    match memIndex p.k with
    | some i => .next { s.advance with x := s.mem i }
    | none => .fault .scratch
  | some .st =>
    match memIndex p.k with
    | some i => .next { s.advance with mem := Function.update s.mem i s.a }
    | none => .fault .scratch
  | some .stx =>
    match memIndex p.k with
    | some i => .next { s.advance with mem := Function.update s.mem i s.x }
    | none => .fault .scratch
  | some .ja => .next (s.jump p.k.toInt)
  | some (.jmp cmp src) =>
    .next (s.jump (if cmp.test s.a (s.operand src p.k) then p.jt.toNat else p.jf.toNat))
  | some (.alu .div .x) => if s.x = 0 then .done 0 else .next { s.advance with a := s.a / s.x }
  | some (.alu .div .k) => if p.k = 0 then .fault .divByZero else .next { s.advance with a := s.a / p.k }
  | some (.alu op src) => .next { s.advance with a := op.eval s.a (s.operand src p.k) }
  | some .neg => .next { s.advance with a := -s.a }
  | some .tax => .next { s.advance with x := s.a }
  | some .txa => .next { s.advance with a := s.x }

def bpfStep (prog : List BpfInsn) (pkt : Packet) (wirelen : Word32) (s : BpfState) : BpfStep :=
  match fetch prog s.pc with
  | none => .fault .fetch
  | some p => exec pkt wirelen s p (decode p.code)

def BpfState.start (a x : Word32) (mem : Fin bpfMemwords → Word32) : BpfState := ⟨0, a, x, mem⟩

/-- `bpf_filter`, for as many instructions as the fuel allows. No filter means accept all. -/
def bpfFilter (prog : Option (List BpfInsn)) (pkt : Packet) (wirelen : Word32) (s : BpfState)
    (fuel : Nat) : Option (Except Fault Word32) :=
  match prog with
  | none => some (.ok (-1))
  | some insns => Machine.runFor (bpfStep insns pkt wirelen) fuel s

end NetBSD.Bpf
