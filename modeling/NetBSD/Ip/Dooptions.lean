import NetBSD.Ip.Output

/-!
# Options of a datagram that comes in

`ip_dooptions`. Memory is given from the header on; a read has to be inside the header, and what is recorded has to
be inside the option that it is recorded in, or else the access is a fault.
-/

namespace NetBSD.Ip

def ipoptRr : Byte := 7
def ipoptTs : Byte := 68
def ipoptLsrr : Byte := 131
def ipoptSsrr : Byte := 137

def ipoptOlen : Nat := 1
def ipoptOffset : Nat := 2
def ipoptMinoff : Nat := 4

def ipoptTsTsonly : Byte := 0
def ipoptTsTsandaddr : Byte := 1
def ipoptTsPrespec : Byte := 3

def icmpUnreachHost : Nat := 1
def icmpUnreachSrcfail : Nat := 5

def srcOffset : Nat := 12
def dstOffset : Nat := 16
def sizeofIp : Nat := 20

def srcrtRoom : Nat := 43

abbrev InAddr := Fin 4 → Byte

structure Lookups where
  ifaIfwithaddr : InAddr → Option InAddr
  ifaIfwithdstaddr : InAddr → Option InAddr
  ifaIfwithnet : InAddr → Option InAddr
  ipRtaddr : InAddr → Option InAddr
  ifaofIfpforaddr : InAddr → Option InAddr
  iptime : Nat → InAddr

inductive IcmpType where
  | paramprob
  | unreach
  deriving DecidableEq

inductive Stop where
  | fault
  | bad (type : IcmpType) (code : Nat)
  deriving DecidableEq

structure Work where
  mem : Nat → Byte
  forward : Bool := false
  srcrt : Option (List Byte × InAddr) := none

def addrAt (mem : Nat → Byte) (a : Nat) : InAddr := fun i => mem (a + i)

def putAddr (mem : Nat → Byte) (a : Nat) (v : InAddr) (x : Nat) : Byte :=
  if h : a ≤ x ∧ x < a + 4 then v ⟨x - a, by omega⟩ else mem x

def inMulticast (v : InAddr) : Bool := v 0 &&& 0xf0 = 0xe0

section Access

variable (hlen : Nat) (mem : Nat → Byte)

def readByte (a : Nat) : Except Stop Byte := if a < hlen then .ok (mem a) else .error .fault

def readAddr (a : Nat) : Except Stop InAddr := if a + 4 ≤ hlen then .ok (addrAt mem a) else .error .fault

end Access

structure Place where
  cp : Nat
  optlen : Nat

def Place.record (o : Place) (mem : Nat → Byte) (a : Nat) (v : InAddr) : Except Stop (Nat → Byte) :=
  if o.cp ≤ a ∧ a + 4 ≤ o.cp + o.optlen then .ok (putAddr mem a v) else .error .fault

def Place.set (o : Place) (mem : Nat → Byte) (i : Nat) (b : Byte) : Except Stop (Nat → Byte) :=
  if i < o.optlen then .ok (Function.update mem (o.cp + i) b) else .error .fault

def Place.bump (o : Place) (mem : Nat → Byte) : Except Stop (Nat → Byte) :=
  o.set mem ipoptOffset (mem (o.cp + ipoptOffset) + 4)

def noRoom (off optlen : Nat) : Bool := BitVec.ofNat 32 optlen - 4 < BitVec.ofNat 32 off

section Options

variable (env : Lookups) (hlen : Nat) (o : Place)

def saveRte (w : Work) : Except Stop Work :=
  let olen := (w.mem (o.cp + ipoptOlen)).toNat
  if srcrtRoom < olen then .ok w
  else if o.cp + olen ≤ hlen then
    .ok { w with srcrt := some ((List.range olen).map fun i => w.mem (o.cp + i), addrAt w.mem srcOffset) }
  else .error .fault

def sourceRoute (strict : Bool) (w : Work) : Except Stop Work := do
  let offset ← readByte hlen w.mem (o.cp + ipoptOffset)
  if offset.toNat < ipoptMinoff then .error (.bad .paramprob (o.cp + ipoptOffset))
  else
    match env.ifaIfwithaddr (addrAt w.mem dstOffset) with
    | none => if strict then .error (.bad .unreach icmpUnreachSrcfail) else .ok w
    | some _ =>
      let off := offset.toNat - 1
      if noRoom off o.optlen then saveRte hlen o w
      else
        let addr ← readAddr hlen w.mem (o.cp + off)
        match if strict then env.ifaIfwithdstaddr addr <|> env.ifaIfwithnet addr else env.ipRtaddr addr with
        | none => .error (.bad .unreach icmpUnreachSrcfail)
        | some ia =>
          let mem ← o.record (putAddr w.mem dstOffset addr) (o.cp + off) ia
          .ok { w with mem := ← o.bump mem, forward := !inMulticast addr }

def recordRoute (w : Work) : Except Stop Work := do
  let offset ← readByte hlen w.mem (o.cp + ipoptOffset)
  if offset.toNat < ipoptMinoff then .error (.bad .paramprob (o.cp + ipoptOffset))
  else
    let off := offset.toNat - 1
    if noRoom off o.optlen then .ok w
    else
      let addr := addrAt w.mem dstOffset
      match env.ifaIfwithaddr addr <|> env.ipRtaddr addr with
      | none => .error (.bad .unreach icmpUnreachHost)
      | some ia =>
        let mem ← o.record w.mem (o.cp + off) ia
        .ok { w with mem := ← o.bump mem }

def stamp (w : Work) (mem : Nat → Byte) : Except Stop Work := do
  let mem ← o.record mem (o.cp + (mem (o.cp + ipoptOffset)).toNat - 1) (env.iptime o.cp)
  .ok { w with mem := ← o.bump mem }

def timestamp (dst : InAddr) (w : Work) : Except Stop Work := do
  let len := (← readByte hlen w.mem (o.cp + ipoptOlen)).toNat
  if len < 5 then .error (.bad .paramprob o.cp)
  else
    let ptr := (← readByte hlen w.mem (o.cp + ipoptOffset)).toNat
    let flags ← readByte hlen w.mem (o.cp + 3)
    if noRoom ptr len then
      let mem ← o.set w.mem 3 (flags + 0x10)
      if (flags + 0x10) &&& 0xf0 = 0 then .error (.bad .paramprob o.cp) else .ok { w with mem }
    else
      let sin := o.cp + ptr - 1
      let flg := flags &&& 0x0f
      if flg = ipoptTsTsonly then stamp env o w w.mem
      else if flg = ipoptTsTsandaddr then
        if len < ptr + 8 then .error (.bad .paramprob o.cp)
        else
          match env.ifaofIfpforaddr dst with
          | none => .ok w
          | some ia =>
            let mem ← o.record w.mem sin ia
            let mem ← o.bump mem
            stamp env o w mem
      else if flg = ipoptTsPrespec then
        if len < ptr + 8 then .error (.bad .paramprob o.cp)
        else
          let addr ← readAddr hlen w.mem sin
          match env.ifaIfwithaddr addr with
          | none => .ok w
          | some _ =>
            let mem ← o.bump w.mem
            stamp env o w mem
      else .error (.bad .paramprob o.cp)

def optionKind (dst : InAddr) (opt : Byte) (w : Work) : Except Stop Work :=
  if opt = ipoptLsrr then sourceRoute env hlen o false w
  else if opt = ipoptSsrr then sourceRoute env hlen o true w
  else if opt = ipoptRr then recordRoute env hlen o w
  else if opt = ipoptTs then timestamp env hlen o dst w
  else .ok w

end Options

def oneOption (env : Lookups) (hlen : Nat) (dst : InAddr) (cp cnt : Nat) (w : Work) : Except Stop (Nat × Work) := do
  let optlen := (← readByte hlen w.mem (cp + ipoptOlen)).toNat
  if optlen ≤ 0 ∨ cnt < optlen then .error (.bad .paramprob (cp + ipoptOlen))
  else return (optlen, ← optionKind env hlen { cp, optlen } dst (w.mem cp) w)

/-- The loop of `ip_dooptions`; an option has a byte at least, so that `cnt` turns are enough. -/
def dooptionsLoop (env : Lookups) (hlen : Nat) (dst : InAddr) : Nat → Nat → Nat → Work → Except Stop Work
  | fuel + 1, cp, cnt, w =>
    if 0 < cnt then do
      let opt ← readByte hlen w.mem cp
      if opt = ipoptEol then .ok w
      else if opt = ipoptNop then dooptionsLoop env hlen dst fuel (cp + 1) (cnt - 1) w
      else
        let (optlen, w) ← oneOption env hlen dst cp cnt w
        dooptionsLoop env hlen dst fuel (cp + optlen) (cnt - optlen) w
    else .ok w
  | 0, _, _, w => .ok w

def ipDooptions (env : Lookups) (hlen : Nat) (mem : Nat → Byte) : Except Stop Work :=
  dooptionsLoop env hlen (addrAt mem dstOffset) (hlen - sizeofIp) sizeofIp (hlen - sizeofIp) { mem }

end NetBSD.Ip
