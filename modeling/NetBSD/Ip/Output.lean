import NetBSD.Mbuf.Chain

/-!
# Sending a datagram in fragments

The last part of `ip_output`, from the comparison with the interface's MTU. Header fields are in host
byte order; the checksum, which the receiver verifies before anything else, is left out.
-/

namespace NetBSD.Ip

def ipDf : Word16 := 0x4000
def ipMf : Word16 := 0x2000

def ipoptEol : Byte := 0
def ipoptNop : Byte := 1

/-- `struct ip`, as far as fragmentation reads or writes it. `ip_len` and `ip_off` are `short`. -/
structure IpHeader where
  ipHl : Nat
  ipTos : Byte
  ipLen : Word16
  ipId : Word16
  ipOff : Word16
  ipTtl : Byte
  ipP : Byte
  ipSrc : Word32
  ipDst : Word32
  deriving DecidableEq

structure Packet where
  ip : IpHeader
  opts : List Byte
  data : List Byte
  deriving DecidableEq

def IpHeader.hlen (ip : IpHeader) : Nat := ip.ipHl * 4

inductive OutputError where
  | emsgsize
  | enobufs
  | badOptions
  deriving DecidableEq

/-- The loop of `ip_optcopy` over the memory that begins with the options, from offset `cp` with `cnt`
bytes to go: the bytes copied. It fails when it would read past the memory or never end, as it does
on a length byte of zero. -/
def ipOptcopyLoop (mem : List Byte) : Nat → Nat → Int → Option (List Byte)
  | 0, _, _ => none
  | fuel + 1, cp, cnt =>
    if cnt ≤ 0 then some []
    else do
      let opt ← mem[cp]?
      if opt = ipoptEol then return []
      else if opt = ipoptNop then return ipoptNop :: (← ipOptcopyLoop mem fuel (cp + 1) (cnt - 1))
      else
        let optlen := min ((← mem[cp + 1]?).toNat : Int) cnt
        let rest ← ipOptcopyLoop mem fuel (cp + optlen.toNat) (cnt - optlen)
        if opt &&& 0x80 ≠ 0 then return (← bytesAt mem cp optlen.toNat) ++ rest
        else return rest

def ipOptcopy (m : Packet) : Option (List Byte) := do
  let opts ← ipOptcopyLoop (m.opts ++ m.data) (m.ip.hlen + 1) 0 (m.ip.hlen - 20)
  return opts ++ List.replicate ((4 - opts.length % 4) % 4) ipoptEol

def fragmentAt (m : Packet) (opts : List Byte) (len off : Nat) : Packet :=
  let n := if m.ip.ipLen.toNat ≤ off + len then m.ip.ipLen.toNat - off else len
  let ipOff := BitVec.ofNat 16 ((off - m.ip.hlen) / 8) + (m.ip.ipOff &&& ~~~ipMf)
  let ipOff := if m.ip.ipOff &&& ipMf ≠ 0 then ipOff ||| ipMf else ipOff
  { ip := { m.ip with
      ipHl := 5 + opts.length / 4
      ipLen := BitVec.ofNat 16 (20 + opts.length + n)
      ipOff := if m.ip.ipLen.toNat ≤ off + len then ipOff else ipOff ||| ipMf }
    opts := opts
    data := (m.data.drop (off - m.ip.hlen)).take n }

/-- The loop over the data after the first fragment, at offset `off` of the packet. `alloc` says which
fragments there are mbufs for. -/
def fragmentLoop (m : Packet) (opts : List Byte) (len : Nat) (alloc : Nat → Bool) :
    Nat → Nat → Except OutputError (List Packet)
  | 0, _ => .ok []
  | fuel + 1, off =>
    if off < m.ip.ipLen.toNat then
      if alloc off then
        match fragmentLoop m opts len alloc fuel (off + len) with
        | .ok rest => .ok (fragmentAt m opts len off :: rest)
        | .error e => .error e
      else .error .enobufs
    else .ok []

def firstFragment (m : Packet) (len : Nat) : Packet where
  ip := { m.ip with ipLen := BitVec.ofNat 16 (m.ip.hlen + len), ipOff := m.ip.ipOff ||| ipMf }
  opts := m.opts
  data := m.data.take len

def ipOutput (m : Packet) (mtu : Nat) (alloc : Nat → Bool) : Except OutputError (List Packet) :=
  let hlen := m.ip.hlen
  if m.ip.ipLen.toNat ≤ mtu then .ok [m]
  else if m.ip.ipOff &&& ipDf ≠ 0 then .error .emsgsize
  else
    let len : Int := (mtu - hlen) / 8 * 8
    if len < 8 then .error .emsgsize
    else
      match if hlen = 20 then some [] else ipOptcopy m with
      | none => .error .badOptions
      | some opts =>
        match fragmentLoop m opts len.toNat alloc m.ip.ipLen.toNat (hlen + len.toNat) with
        | .error e => .error e
        | .ok rest => .ok (firstFragment m len.toNat :: rest)

end NetBSD.Ip
