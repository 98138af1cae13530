import NetBSD.Lib.Checksum
import NetBSD.Mbuf.Chain

/-!
# Compressing TCP/IP headers

`sl_compress_tcp`. Header fields hold the values that `ntohs` and `ntohl` give for them. The circular
list of connection states is the list that begins at `last_cs->cs_next` and ends with `last_cs`.
-/

namespace NetBSD.Sl

def thFin : Byte := 0x01
def thSyn : Byte := 0x02
def thRst : Byte := 0x04
def thPush : Byte := 0x08
def thAck : Byte := 0x10
def thUrg : Byte := 0x20

def ipprotoTcp : Byte := 6

@[ext] structure Ip where
  ipVhl : Byte := 0
  ipTos : Byte := 0
  ipLen : Word16 := 0
  ipId : Word16 := 0
  ipOff : Word16 := 0
  ipTtl : Byte := 0
  ipP : Byte := 0
  ipSum : Word16 := 0
  ipSrc : Word32 := 0
  ipDst : Word32 := 0
  deriving DecidableEq

@[ext] structure Tcphdr where
  thSport : Word16 := 0
  thDport : Word16 := 0
  thSeq : Word32 := 0
  thAck : Word32 := 0
  thOffX2 : Byte := 0
  thFlags : Byte := 0
  thWin : Word16 := 0
  thSum : Word16 := 0
  thUrp : Word16 := 0
  deriving DecidableEq

@[ext] structure Header where
  ip : Ip := {}
  ipOpts : List Byte := []
  th : Tcphdr := {}
  thOpts : List Byte := []
  deriving DecidableEq

structure Packet where
  hdr : Header
  data : List Byte
  deriving DecidableEq

namespace Header

def ipHl (h : Header) : Nat := (h.ip.ipVhl &&& 0xf).toNat

def thOff (h : Header) : Nat := (h.th.thOffX2 >>> 4).toNat

def hlen (h : Header) : Nat := (h.ipHl + h.thOff) * 4

end Header

structure CState where
  csId : Byte
  hdr : Header := {}
  deriving DecidableEq

structure RState where
  hdr : Header := {}
  csHlen : Nat := 0
  deriving DecidableEq

def maxStates : Nat := 16
def maxHdr : Nat := 108

structure Slcompress where
  tstate : List CState
  lastRecv : Byte := 255
  lastXmit : Byte := 255
  toss : Bool := true
  rstate : Byte → RState := fun _ => {}

def slCompressInit (maxState : Int) : Slcompress :=
  let maxState := if maxState = -1 then maxStates - 1 else maxState.toNat
  { tstate := (List.range (maxState + 1)).reverse.map fun i => { csId := BitVec.ofNat 8 i } }

inductive Frame where
  | ip (p : Packet)
  | uncompressedTcp (p : Packet)
  | compressedTcp (bytes : List Byte)
  deriving DecidableEq

def newC : Byte := 0x40
def newI : Byte := 0x20
def newS : Byte := 0x08
def newA : Byte := 0x04
def newW : Byte := 0x02
def newU : Byte := 0x01

def tcpPushBit : Byte := 0x10

def specialI : Byte := newS ||| newW ||| newU

def specialD : Byte := newS ||| newA ||| newW ||| newU

def specialsMask : Byte := newS ||| newA ||| newW ||| newU

def bitIf (b : Bool) (bit : Byte) : Byte := if b then bit else 0

def longForm (n : Word16) : List Byte := [0, (n >>> 8).setWidth 8, n.setWidth 8]

def encode (n : Word16) : List Byte := if 256 ≤ n.toNat then longForm n else [n.setWidth 8]

def encodez (n : Word16) : List Byte :=
  if 256 ≤ n.toNat ∨ n = 0 then longForm n else [n.setWidth 8]

def OnlyExpected (p o : Header) : Prop :=
  p.ip.ipVhl = o.ip.ipVhl ∧ p.ip.ipTos = o.ip.ipTos ∧ p.ip.ipOff = o.ip.ipOff
    ∧ p.ip.ipTtl = o.ip.ipTtl ∧ p.ip.ipP = o.ip.ipP ∧ p.thOff = o.thOff
    ∧ (5 < p.ipHl → p.ipOpts = o.ipOpts) ∧ (5 < p.thOff → p.thOpts = o.thOpts)

instance (p o : Header) : Decidable (OnlyExpected p o) := by
  unfold OnlyExpected
  infer_instance

def Header.urg (h : Header) : Bool := h.th.thFlags &&& thUrg ≠ 0

def Header.push (h : Header) : Bool := h.th.thFlags &&& thPush ≠ 0

def tcpChanges (p o : Header) : Byte × List Byte :=
  let deltaW := p.th.thWin - o.th.thWin
  let deltaA := p.th.thAck - o.th.thAck
  let deltaS := p.th.thSeq - o.th.thSeq
  (bitIf p.urg newU ||| bitIf (deltaW ≠ 0) newW ||| bitIf (deltaA ≠ 0) newA ||| bitIf (deltaS ≠ 0) newS,
    (if p.urg then encodez p.th.thUrp else []) ++ (if deltaW ≠ 0 then encode deltaW else [])
      ++ (if deltaA ≠ 0 then encode (deltaA.setWidth 16) else [])
      ++ (if deltaS ≠ 0 then encode (deltaS.setWidth 16) else []))

def specialChanges (p o : Header) : Option (Byte × List Byte) :=
  let deltaA := p.th.thAck - o.th.thAck
  let deltaS := p.th.thSeq - o.th.thSeq
  let lastLen := o.ip.ipLen.setWidth 32 - BitVec.ofNat 32 p.hlen
  let (changes, newSeq) := tcpChanges p o
  if changes = 0 then
    -- data after an ack, else probably a retransmission
    if p.ip.ipLen ≠ o.ip.ipLen ∧ o.ip.ipLen.toNat = p.hlen then some (changes, newSeq) else none
  else if changes = specialI ∨ changes = specialD then none
  else if changes = newS ||| newA then
    if deltaS = deltaA ∧ deltaS = lastLen then some (specialI, []) else some (changes, newSeq)
  else if changes = newS then
    if deltaS = lastLen then some (specialD, []) else some (changes, newSeq)
  else some (changes, newSeq)

def allChanges (p o : Header) : Option (Byte × List Byte) :=
  if ¬ OnlyExpected p o then none
  else if ¬ p.urg ∧ p.th.thUrp ≠ o.th.thUrp then none
  else if 0xffff < (p.th.thAck - o.th.thAck).toNat then none
  else if 0xffff < (p.th.thSeq - o.th.thSeq).toNat then none
  else
    (specialChanges p o).map fun (changes, newSeq) =>
      let deltaI := p.ip.ipId.setWidth 32 - o.ip.ipId.setWidth 32
      (changes ||| bitIf (deltaI ≠ 1) newI ||| bitIf p.push tcpPushBit,
        newSeq ++ (if deltaI ≠ 1 then encodez (deltaI.setWidth 16) else []))

def CState.Matches (p : Header) (cs : CState) : Prop :=
  p.ip.ipSrc = cs.hdr.ip.ipSrc ∧ p.ip.ipDst = cs.hdr.ip.ipDst
    ∧ p.th.thSport = cs.hdr.th.thSport ∧ p.th.thDport = cs.hdr.th.thDport

instance (p : Header) (cs : CState) : Decidable (cs.Matches p) := by
  unfold CState.Matches
  infer_instance

def findState (p : Header) : List CState → Option (CState × List CState)
  | [] => none
  | cs :: rest =>
    if cs.Matches p then some (cs, rest)
    else (findState p rest).map fun (found, others) => (found, cs :: others)

def sendUncompressed (comp : Slcompress) (cs : CState) (others : List CState) (p : Packet) :
    Slcompress × Frame :=
  ({ comp with tstate := { cs with hdr := p.hdr } :: others, lastXmit := cs.csId },
    .uncompressedTcp { p with hdr := { p.hdr with ip := { p.hdr.ip with ipP := cs.csId } } })

def sendCompressed (comp : Slcompress) (cs : CState) (others : List CState) (p : Packet)
    (compressCid : Bool) (changes : Byte) (newSeq : List Byte) : Slcompress × Frame :=
  let first :=
    if compressCid = false ∨ comp.lastXmit ≠ cs.csId then [changes ||| newC, cs.csId] else [changes]
  let sum : List Byte := [(p.hdr.th.thSum >>> 8).setWidth 8, p.hdr.th.thSum.setWidth 8]
  ({ comp with tstate := { cs with hdr := p.hdr } :: others, lastXmit := cs.csId },
    .compressedTcp (first ++ sum ++ newSeq ++ p.data))

def Compressible (mLen : Nat) (p : Header) : Prop :=
  p.ip.ipOff &&& 0x3fff = 0 ∧ 40 ≤ mLen
    ∧ p.th.thFlags &&& (thSyn ||| thFin ||| thRst ||| thAck) = thAck

instance (mLen : Nat) (p : Header) : Decidable (Compressible mLen p) := by
  unfold Compressible
  infer_instance

def slCompressTcp (comp : Slcompress) (mLen : Nat) (p : Packet) (compressCid : Bool) :
    Slcompress × Frame :=
  if ¬ Compressible mLen p.hdr then (comp, .ip p)
  else
    match findState p.hdr comp.tstate with
    | none =>
      -- the oldest state is used again
      match comp.tstate.getLast? with
      | none => (comp, .ip p)
      | some cs => sendUncompressed comp cs comp.tstate.dropLast p
    | some (cs, others) =>
      match allChanges p.hdr cs.hdr with
      | none => sendUncompressed comp cs others p
      | some (changes, newSeq) => sendCompressed comp cs others p compressCid changes newSeq

end NetBSD.Sl

/-!
## Decompressing TCP/IP headers

`sl_uncompress_tcp`, on a buffer that holds one whole packet. The checksum is taken over the header as
a little-endian machine reads it.
-/

namespace NetBSD.Sl

open NetBSD.Lib

def word (high low : Byte) : Word16 := high ++ low

/-- The number that `DECODEL`, `DECODES` and `DECODEU` read at `cp`, and what follows it; nothing when
it is not in the buffer. -/
def decode : List Byte → Option (Word16 × List Byte)
  | [] => none
  | first :: cp =>
    if first = 0 then
      match cp with
      | high :: low :: cp => some (word high low, cp)
      | _ => none
    else some (first.setWidth 16, cp)

section Fields

variable (changes : Byte) (th : Tcphdr) (cp : List Byte)

def decodeUrp : Option (Tcphdr × List Byte) :=
  if changes &&& newU ≠ 0 then
    (decode cp).map fun (n, cp) => ({ th with thFlags := th.thFlags ||| thUrg, thUrp := n }, cp)
  else some ({ th with thFlags := th.thFlags &&& ~~~thUrg }, cp)

def decodeWin : Option (Tcphdr × List Byte) :=
  if changes &&& newW ≠ 0 then
    (decode cp).map fun (n, cp) => ({ th with thWin := th.thWin + n }, cp)
  else some (th, cp)

def decodeAck : Option (Tcphdr × List Byte) :=
  if changes &&& newA ≠ 0 then
    (decode cp).map fun (n, cp) => ({ th with thAck := th.thAck + n.setWidth 32 }, cp)
  else some (th, cp)

def decodeSeq : Option (Tcphdr × List Byte) :=
  if changes &&& newS ≠ 0 then
    (decode cp).map fun (n, cp) => ({ th with thSeq := th.thSeq + n.setWidth 32 }, cp)
  else some (th, cp)

/-- The TCP header after the changes; `lastLen` is the amount of data in the last packet. -/
def decodeTcp (lastLen : Word32) : Option (Tcphdr × List Byte) :=
  if changes &&& specialsMask = specialI then
    some ({ th with thAck := th.thAck + lastLen, thSeq := th.thSeq + lastLen }, cp)
  else if changes &&& specialsMask = specialD then
    some ({ th with thSeq := th.thSeq + lastLen }, cp)
  else
    (decodeUrp changes th cp).bind fun (th, cp) =>
      (decodeWin changes th cp).bind fun (th, cp) =>
        (decodeAck changes th cp).bind fun (th, cp) => decodeSeq changes th cp

def decodeId (ipId : Word16) : Option (Word16 × List Byte) :=
  if changes &&& newI ≠ 0 then (decode cp).map fun (n, cp) => (ipId + n, cp)
  else some (ipId + 1, cp)

end Fields

def words : List Byte → List Word16
  | high :: low :: bytes => word high low :: words bytes
  | _ => []

def Header.ipWords (h : Header) : List Word16 :=
  [word h.ip.ipVhl h.ip.ipTos, h.ip.ipLen, h.ip.ipId, h.ip.ipOff, word h.ip.ipTtl h.ip.ipP, h.ip.ipSum,
    (h.ip.ipSrc >>> 16).setWidth 16, h.ip.ipSrc.setWidth 16,
    (h.ip.ipDst >>> 16).setWidth 16, h.ip.ipDst.setWidth 16] ++ words h.ipOpts

def ipChecksum (h : Header) : Word16 :=
  swapBytes (~~~BitVec.ofNat 16 (carry (carry (wordSum (h.ipWords.map swapBytes)))))

def uncompressBad (comp : Slcompress) : Slcompress × Option Packet := ({ comp with toss := true }, none)

def patchTcp (changes : Byte) (sum : Word16) (th : Tcphdr) : Tcphdr :=
  { th with
    thSum := sum
    thFlags := if changes &&& tcpPushBit ≠ 0 then th.thFlags ||| thPush else th.thFlags &&& ~~~thPush }

def RState.update (cs : RState) (th : Tcphdr) (ipId : Word16) (data : List Byte) : Header :=
  { cs.hdr with
    th := th
    ip := { cs.hdr.ip with ipId := ipId, ipLen := BitVec.ofNat 16 (data.length + cs.csHlen) } }

def Header.withChecksum (h : Header) : Header := { h with ip := { h.ip with ipSum := ipChecksum h } }

def rebuild (changes : Byte) (sum : Word16) (cs : RState) (cp : List Byte) :
    Option (Header × Packet) := do
  let lastLen := cs.hdr.ip.ipLen.setWidth 32 - BitVec.ofNat 32 cs.csHlen
  let (th, cp) ← decodeTcp changes (patchTcp changes sum cs.hdr.th) cp lastLen
  let (ipId, data) ← decodeId changes cp cs.hdr.ip.ipId
  return (cs.update th ipId data, ⟨(cs.update th ipId data).withChecksum, data⟩)

def uncompressRest (comp : Slcompress) (changes : Byte) (cp : List Byte) :
    Option (Slcompress × Option Packet) :=
  match cp with
  | high :: low :: cp =>
    (rebuild changes (word high low) (comp.rstate comp.lastRecv) cp).map fun (saved, p) =>
      ({ comp with
          rstate := fun id =>
            if id = comp.lastRecv then { comp.rstate id with hdr := saved } else comp.rstate id },
        some p)
  | _ => none

/-- `sl_uncompress_tcp`: the new state, and the packet unless it was thrown away. There is no result
when it reads past the end of the buffer. -/
def slUncompressTcp (comp : Slcompress) : Frame → Option (Slcompress × Option Packet)
  | .ip _ => some (uncompressBad comp)
  | .uncompressedTcp p =>
    if maxStates ≤ p.hdr.ip.ipP.toNat then some (uncompressBad comp)
    else
      let hdr := { p.hdr with ip := { p.hdr.ip with ipP := ipprotoTcp } }
      some ({ comp with
          lastRecv := p.hdr.ip.ipP
          toss := false
          rstate := fun id =>
            if id = p.hdr.ip.ipP then ⟨{ hdr with ip := { hdr.ip with ipSum := 0 } }, hdr.hlen⟩
            else comp.rstate id },
        some { p with hdr := hdr })
  | .compressedTcp bytes =>
    match bytes with
    | [] => none
    | changes :: cp =>
      if changes &&& newC ≠ 0 then
        match cp with
        | [] => none
        | id :: cp =>
          if maxStates ≤ id.toNat then some (uncompressBad comp)
          else uncompressRest { comp with toss := false, lastRecv := id } changes cp
      else if comp.toss then some (comp, none)
      else uncompressRest comp changes cp

end NetBSD.Sl
