import NetBSD.Mbuf.Chain
import NetBSD.Lib.Runs
import Mathlib.Logic.Function.Iterate

/-!
# Internet protocol control blocks

`in_pcb.c`: the list of a protocol's control blocks, with the calls that bind and connect them. Addresses
and ports are in host byte order. What the routing and interface code answers is a parameter of each call.
-/

namespace NetBSD.Pcb

def inaddrAny : Word32 := 0
def inaddrBroadcast : Word32 := 0xffffffff

def inMulticast (i : Word32) : Bool := i &&& 0xf0000000 = 0xe0000000

def ipportReserved : Word16 := 1024
def ipportUserreserved : Word16 := 5000

def afInet : Nat := 2

inductive Errno where
  | einval
  | eacces
  | eafnosupport
  | eaddrinuse
  | eaddrnotavail
  deriving DecidableEq

inductive Exit where
  | errno (e : Errno)
  | endless
  deriving DecidableEq

structure Socket where
  soReuseaddr : Bool := false
  soReuseport : Bool := false
  soAcceptconn : Bool := false
  soDontroute : Bool := false
  /-- `SS_NOFDREF`. -/
  ssNofdref : Bool := false
  deriving DecidableEq

structure Inpcb where
  addr : Nat
  inpFaddr : Word32 := 0
  inpFport : Word16 := 0
  inpLaddr : Word32 := 0
  inpLport : Word16 := 0
  inpSocket : Socket := {}
  deriving DecidableEq

structure Head where
  pcbs : List Inpcb
  inpLport : Word16
  /-- `PR_CONNREQUIRED` of the protocol. -/
  prConnrequired : Bool
  deriving DecidableEq

structure Nam where
  mLen : Nat := 16
  sinFamily : Nat := afInet
  sinPort : Word16
  sinAddr : Word32
  deriving DecidableEq

structure InIfaddr where
  iaAddr : Word32
  iaBroadaddr : Option Word32
  iaIfp : Nat
  deriving DecidableEq

structure Env where
  /-- The list `in_ifaddr`. -/
  inIfaddr : List InIfaddr
  ifaIfwithaddr : Word32 → Bool
  ifaIfwithdstaddr : Word32 → Option InIfaddr
  ifaIfwithnet : Word32 → Option InIfaddr
  /-- `rt_ifa` of the route that `rtalloc` finds or that was there, unless its interface is the loopback. -/
  route : Word32 → Option InIfaddr
  /-- `imo_multicast_ifp`, when it is set. -/
  imoMulticastIfp : Option Nat
  suser : Option Errno

def Inpcb.wildcard (inp : Inpcb) (faddr : Word32) (fport : Word16) (laddr : Word32) (lport : Word16) :
    Option Nat :=
  if inp.inpLport ≠ lport then none
  else do
    let l ←
      if inp.inpLaddr ≠ inaddrAny then
        if laddr = inaddrAny then some 1
        else if inp.inpLaddr ≠ laddr then none
        else some 0
      else some (if laddr ≠ inaddrAny then 1 else 0)
    let f ←
      if inp.inpFaddr ≠ inaddrAny then
        if faddr = inaddrAny then some 1
        else if inp.inpFaddr ≠ faddr ∨ inp.inpFport ≠ fport then none
        else some 0
      else some (if faddr ≠ inaddrAny then 1 else 0)
    return l + f

def lookupLoop (faddr : Word32) (fport : Word16) (laddr : Word32) (lport : Word16) (wild : Bool) :
    Option Inpcb → Nat → List Inpcb → Option Inpcb
  | found, _, [] => found
  | found, matchwild, inp :: rest =>
    match inp.wildcard faddr fport laddr lport with
    | none => lookupLoop faddr fport laddr lport wild found matchwild rest
    | some wildcard =>
      if wildcard ≠ 0 ∧ !wild then lookupLoop faddr fport laddr lport wild found matchwild rest
      else if wildcard < matchwild then
        if wildcard = 0 then some inp
        else lookupLoop faddr fport laddr lport wild (some inp) wildcard rest
      else lookupLoop faddr fport laddr lport wild found matchwild rest

def inPcblookup (pcbs : List Inpcb) (faddr : Word32) (fport : Word16) (laddr : Word32) (lport : Word16)
    (wild : Bool) : Option Inpcb :=
  lookupLoop faddr fport laddr lport wild none 3 pcbs

def Head.wild (head : Head) (so : Socket) : Bool :=
  !so.soReuseaddr && !so.soReuseport && (!head.prConnrequired || !so.soAcceptconn)

def bindError (head : Head) (so : Socket) (sin : Nam) (env : Env) : Option Errno :=
  if sin.mLen ≠ 16 then some .einval
  else
    let multicast := inMulticast sin.sinAddr
    if !multicast && sin.sinAddr ≠ inaddrAny && !env.ifaIfwithaddr sin.sinAddr then some .eaddrnotavail
    else if sin.sinPort = 0 then none
    else
      match if sin.sinPort < ipportReserved then env.suser else none with
      | some e => some e
      | none =>
        match inPcblookup head.pcbs inaddrAny 0 sin.sinAddr sin.sinPort (head.wild so) with
        | none => none
        | some t =>
          -- The mask `reuseport` has both bits for a multicast address under `SO_REUSEADDR`.
          let both := multicast && so.soReuseaddr
          if both && t.inpSocket.soReuseaddr || (both || so.soReuseport) && t.inpSocket.soReuseport then
            none
          else some .eaddrinuse

def nextPort (lport : Word16) : Word16 :=
  if lport < ipportReserved ∨ ipportUserreserved < lport + 1 then ipportReserved else lport + 1

/-- The loop of `in_pcbbind` over the ports after `lport`. It has tried all of them after `2 ^ 16` turns. -/
def portLoop (pcbs : List Inpcb) (laddr : Word32) (wild : Bool) : Nat → Word16 → Except Exit Word16
  | 0, _ => .error .endless
  | fuel + 1, lport =>
    match inPcblookup pcbs inaddrAny 0 laddr (nextPort lport) wild with
    | some _ => portLoop pcbs laddr wild fuel (nextPort lport)
    | none => .ok (nextPort lport)

def inPcbbind (head : Head) (inp : Inpcb) (nam : Option Nam) (env : Env) :
    Except Exit (Inpcb × Word16) :=
  if env.inIfaddr = [] then .error (.errno .eaddrnotavail)
  else if inp.inpLport ≠ 0 ∨ inp.inpLaddr ≠ inaddrAny then .error (.errno .einval)
  else
    match nam.bind fun sin => bindError head inp.inpSocket sin env with
    | some e => .error (.errno e)
    | none =>
      let laddr := nam.elim inp.inpLaddr Nam.sinAddr
      let lport := nam.elim 0 Nam.sinPort
      if lport = 0 then do
        let lport ← portLoop head.pcbs laddr (head.wild inp.inpSocket) (2 ^ 16) head.inpLport
        return ({ inp with inpLaddr := laddr, inpLport := lport }, lport)
      else return ({ inp with inpLaddr := laddr, inpLport := lport }, head.inpLport)

def destination (env : Env) (sinAddr : Word32) : Word32 :=
  match env.inIfaddr with
  | [] => sinAddr
  | ia :: _ =>
    if sinAddr = inaddrAny then ia.iaAddr
    else if sinAddr = inaddrBroadcast then ia.iaBroadaddr.getD sinAddr
    else sinAddr

def sourceIfaddr (env : Env) (so : Socket) (dst : Word32) : Option InIfaddr :=
  let ia := if so.soDontroute then none else env.route dst
  match ia <|> env.ifaIfwithdstaddr dst <|> env.ifaIfwithnet dst <|> env.inIfaddr.head? with
  | none => none
  | some ia =>
    match if inMulticast dst then env.imoMulticastIfp else none with
    | none => some ia
    | some ifp => env.inIfaddr.find? fun ia => ia.iaIfp = ifp

def inPcbconnect (head : Head) (inp : Inpcb) (sin : Nam) (env : Env) : Except Exit (Inpcb × Word16) :=
  if sin.mLen ≠ 16 then .error (.errno .einval)
  else if sin.sinFamily ≠ afInet then .error (.errno .eafnosupport)
  else if sin.sinPort = 0 then .error (.errno .eaddrnotavail)
  else
    let faddr := destination env sin.sinAddr
    if inp.inpLaddr ≠ inaddrAny then
      if (inPcblookup head.pcbs faddr sin.sinPort inp.inpLaddr inp.inpLport false).isSome then
        .error (.errno .eaddrinuse)
      else .ok ({ inp with inpFaddr := faddr, inpFport := sin.sinPort }, head.inpLport)
    else
      match sourceIfaddr env inp.inpSocket faddr with
      | none => .error (.errno .eaddrnotavail)
      | some ia =>
        if (inPcblookup head.pcbs faddr sin.sinPort ia.iaAddr inp.inpLport false).isSome then
          .error (.errno .eaddrinuse)
        else
          let connected (inp : Inpcb) : Inpcb :=
            { inp with inpLaddr := ia.iaAddr, inpFaddr := faddr, inpFport := sin.sinPort }
          if inp.inpLport = 0 then
            -- The result of this call is ignored.
            match inPcbbind head inp none env with
            | .ok (inp, lport) => .ok (connected inp, lport)
            | .error (.errno _) => .ok (connected inp, head.inpLport)
            | .error .endless => .error .endless
          else .ok (connected inp, head.inpLport)

inductive Call where
  | alloc (addr : Nat) (so : Socket)
  | bind (addr : Nat) (nam : Option Nam) (env : Env)
  | connect (addr : Nat) (nam : Nam) (env : Env)
  | disconnect (addr : Nat)
  | detach (addr : Nat)
  | setsockopt (addr : Nat) (so : Socket)

def Head.find (head : Head) (addr : Nat) : Option Inpcb := head.pcbs.find? fun t => t.addr = addr

def Head.set (head : Head) (inp : Inpcb) : Head :=
  { head with pcbs := head.pcbs.map fun t => if t.addr = inp.addr then inp else t }

def Head.finish (head : Head) : Except Exit (Inpcb × Word16) → Option Head
  | .ok (inp, lport) => some { head.set inp with inpLport := lport }
  | .error (.errno _) => some head
  | .error .endless => none

def Head.remove (head : Head) (addr : Nat) : Head :=
  { head with pcbs := head.pcbs.filter fun t => t.addr ≠ addr }

def Head.step (head : Head) : Call → Option Head
  | .alloc addr so =>
    if (head.find addr).isSome then none
    else some { head with pcbs := { addr, inpSocket := so } :: head.pcbs }
  | .bind addr nam env => do head.finish (inPcbbind head (← head.find addr) nam env)
  | .connect addr nam env => do head.finish (inPcbconnect head (← head.find addr) nam env)
  | .disconnect addr => do
      let inp ← head.find addr
      if inp.inpSocket.ssNofdref then return head.remove addr
      else return head.set { inp with inpFaddr := inaddrAny, inpFport := 0 }
  | .detach addr => do
      let inp ← head.find addr
      return head.remove inp.addr
  | .setsockopt addr so => do
      let inp ← head.find addr
      return head.set { inp with inpSocket := so }

def Head.Fresh (head : Head) : Prop := head.pcbs = [] ∧ head.inpLport = 0

end NetBSD.Pcb
