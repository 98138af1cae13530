import NetBSD.Lib.Framing
import NetBSD.Lib.Runs
import NetBSD.Mbuf.Chain
import Mathlib.Logic.Function.Basic

/-!
# The serial line interface

`slstart` and `slinput` of `if_sl.c`, without BPF and without `IFF_DEBUG`. The output queue of the terminal is the
characters in it, with `c_cn`.
-/

namespace NetBSD.Slip

/-- `SLMAX`, `SLBUFSIZE`, `SLMTU`, `SLIP_HIWAT`, `MHLEN` and the limit of `ipintrq`, and the two functions of
`slcompress.c` as they change a chain, or the receive buffer. -/
structure Config where
  slmax : Nat
  slbufsize : Nat
  slmtu : Nat
  slipHiwat : Nat
  mhlen : Nat
  ifqMaxlen : Nat
  slmax_le : slmax ≤ slbufsize
  autocomp : Bool
  slCompressTcp : List Mbuf → List Mbuf
  slUncompressTcp : (Nat → Byte) → Nat → Nat → Byte → Option ((Nat → Byte) × Nat × Nat)

def frameEnd : Byte := 0xc0

def frameEscape : Byte := 0xdb

def transFrameEnd : Byte := 0xdc

def transFrameEscape : Byte := 0xdd

structure Outq where
  cCn : Nat
  chars : List Byte
  lost : Bool

def putc (c : Byte) (q : Outq) : Bool × Outq :=
  if q.chars.length = q.cCn then (true, { q with lost := true }) else (false, { q with chars := q.chars ++ [c] })

def bToQ (cp : List Byte) (q : Outq) : Nat × Outq :=
  let room := q.cCn - q.chars.length
  (cp.length - room, { q with chars := q.chars ++ cp.take room, lost := q.lost || decide (room < cp.length) })

def unputc (q : Outq) : Outq := { q with chars := q.chars.dropLast }

def putMbuf : Nat → List Byte → Outq → Outq
  | 0, _, q => q
  | fuel + 1, cp, q =>
    let bp := cp.takeWhile fun c => c ≠ frameEscape ∧ c ≠ frameEnd
    let (left, q) := if bp = [] then (0, q) else bToQ bp q
    if left ≠ 0 then q
    else
      match cp.dropWhile fun c => c ≠ frameEscape ∧ c ≠ frameEnd with
      | [] => q
      | c :: cp =>
        match putc frameEscape q with
        | (true, q) => q
        | (false, q) =>
          match putc (if c = frameEscape then transFrameEscape else transFrameEnd) q with
          | (true, q) => unputc q
          | (false, q) => putMbuf fuel cp q

def putPacket (m : List Mbuf) (q : Outq) : Outq :=
  let q := if q.chars = [] then (putc frameEnd q).2 else q
  let q := m.foldl (fun q cp => putMbuf (cp.length + 1) cp q) q
  match putc frameEnd q with
  | (true, q) => (putc frameEnd (unputc q)).2
  | (false, q) => q

/-- The queues of packets, the output queue, and what has been taken from it; `taken` has the packets that were taken
from the queues. -/
structure Sender where
  compress : Bool
  scFastq : List (List Mbuf)
  ifSnd : List (List Mbuf)
  outq : Outq
  wire : List Byte
  taken : List (List Mbuf)

def ipprotoTcp : Byte := 6

def Sender.oproc (k : Nat) (s : Sender) : Sender :=
  { s with outq := { s.outq with chars := s.outq.chars.drop k }, wire := s.wire ++ s.outq.chars.take k }

def Sender.dequeue (s : Sender) : Option (List Mbuf × Sender) :=
  match s.scFastq, s.ifSnd with
  | m :: scFastq, _ => some (m, { s with scFastq, taken := s.taken ++ [m] })
  | [], m :: ifSnd => some (m, { s with ifSnd, taken := s.taken ++ [m] })
  | [], [] => none

def ipP (m : List Mbuf) : Option Byte := m.head?.bind fun cp => cp[9]?

/-- The loop of `slstart`; the device takes as many characters as `taken` says each time it is called. -/
def slstartLoop (cfg : Config) : Nat → List Nat → Sender → Sender
  | 0, _, s => s
  | fuel + 1, taken, s =>
    let (taken, s) := if s.outq.chars = [] then (taken, s) else (taken.tail, s.oproc (taken.headD 0))
    if s.outq.chars.length > cfg.slipHiwat then s
    else if s.outq.cCn - s.outq.chars.length < 2 * cfg.slmtu + 2 then s
    else
      match s.dequeue with
      | none => s
      | some (m, s) =>
        let m := if s.compress ∧ ipP m = some ipprotoTcp then cfg.slCompressTcp m else m
        slstartLoop cfg fuel taken { s with outq := putPacket m s.outq }

def slstart (cfg : Config) (taken : List Nat) (s : Sender) : Sender :=
  slstartLoop cfg (s.scFastq.length + s.ifSnd.length + 1) taken s

inductive Rmbuf where
  | mhdr (data : List Byte)
  | ext (mData mLen : Nat)

structure Receiver where
  scMp : Nat
  scEp : Nat
  scBuf : Nat
  scError : Bool
  scEscape : Bool
  compress : Bool
  mem : Nat → Byte
  ipintrq : List Rmbuf

def bytesFrom (mem : Nat → Byte) (p len : Nat) : List Byte := (List.range len).map fun i => mem (p + i)

/-- `sl_btom`, with an mbuf for the header if there is one, and the cluster that `MCLGET` has, if it has one. -/
def slBtom (cfg : Config) (hdr : Bool) (cluster : Option Nat) (len : Nat) (r : Receiver) : Option (Rmbuf × Receiver) :=
  if hdr = false then none
  else if len ≥ cfg.mhlen then
    cluster.map fun p => (.ext r.scBuf len, { r with scEp := p + cfg.slbufsize })
  else some (.mhdr (bytesFrom r.mem r.scBuf len), r)

def newpack (cfg : Config) (r : Receiver) : Receiver :=
  { r with scBuf := r.scEp - cfg.slmax, scMp := r.scEp - cfg.slmax, scEscape := false }

def typeUncompressedTcp : Byte := 0x70

def typeCompressedTcp : Byte := 0x80

def uncompress (cfg : Config) (len : Nat) (r : Receiver) : Option Nat × Receiver :=
  let first := r.mem r.scBuf &&& 0xf0
  let c := if first &&& 0x80 ≠ 0 then typeCompressedTcp else first
  let r := if first &&& 0x80 = 0 ∧ first = typeUncompressedTcp then
    { r with mem := Function.update r.mem r.scBuf (r.mem r.scBuf &&& 0x4f) } else r
  if r.compress then
    match cfg.slUncompressTcp r.mem r.scBuf len c with
    | none => (none, r)
    | some (mem, buf, len) => (some len, { r with mem, scBuf := buf })
  else if cfg.autocomp ∧ c = typeUncompressedTcp ∧ len ≥ 40 then
    match cfg.slUncompressTcp r.mem r.scBuf len c with
    | none => (none, r)
    | some (mem, buf, len) => (some len, { r with mem, scBuf := buf, compress := true })
  else (none, r)

def slinputEnd (cfg : Config) (hdr : Bool) (cluster : Option Nat) (r : Receiver) : Receiver :=
  if r.scError then newpack cfg { r with scError := false }
  else
    let len := r.scMp - r.scBuf
    if len < 3 then newpack cfg r
    else
      let (len, r) := if r.mem r.scBuf &&& 0xf0 ≠ 0x40 then uncompress cfg len r else (some len, r)
      match len with
      | none => newpack cfg r
      | some len =>
        match slBtom cfg hdr cluster len r with
        | none => newpack cfg r
        | some (m, r) =>
          if r.ipintrq.length ≥ cfg.ifqMaxlen then newpack cfg r
          else newpack cfg { r with ipintrq := r.ipintrq ++ [m] }

def slinputStore (cfg : Config) (c : Byte) (r : Receiver) : Receiver :=
  if r.scMp < r.scEp then
    { r with mem := Function.update r.mem r.scMp c, scMp := r.scMp + 1, scEscape := false }
  else newpack cfg { r with scError := true }

def slinput (cfg : Config) (hdr : Bool) (cluster : Option Nat) (bad : Bool) (c : Byte) (r : Receiver) : Receiver :=
  if bad then { r with scError := true }
  else if c = transFrameEscape then slinputStore cfg (if r.scEscape then frameEscape else c) r
  else if c = transFrameEnd then slinputStore cfg (if r.scEscape then frameEnd else c) r
  else if c = frameEscape then { r with scEscape := true }
  else if c = frameEnd then slinputEnd cfg hdr cluster r
  else slinputStore cfg c r

end NetBSD.Slip
