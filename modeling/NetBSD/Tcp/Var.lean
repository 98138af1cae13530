import NetBSD.Mbuf.Chain

/-!
# The TCP control block

`struct tcpcb`, the segments it queues and the part of the socket that TCP reads and writes. Sequence
numbers and `u_long` fields are 32-bit words; the signed fields and the narrow unsigned ones are
integers, cut to their width where the source stores into them.
-/

namespace NetBSD.Tcp

abbrev TcpSeq := Word32

section Seq

def seqLt (a b : TcpSeq) : Prop := (a - b).toInt < 0
def seqLeq (a b : TcpSeq) : Prop := (a - b).toInt ≤ 0
def seqGt (a b : TcpSeq) : Prop := 0 < (a - b).toInt

variable (a b : TcpSeq)

instance : Decidable (seqLt a b) := inferInstanceAs (Decidable (_ < _))
instance : Decidable (seqLeq a b) := inferInstanceAs (Decidable (_ ≤ _))
instance : Decidable (seqGt a b) := inferInstanceAs (Decidable (_ < _))

end Seq

def short (n : Int) : Int := n.bmod (2 ^ 16)

theorem short_of_mem {n : Int} (hlo : -2 ^ 15 ≤ n) (hhi : n < 2 ^ 15) : short n = n :=
  Int.bmod_eq_of_le (by omega) (by omega)

def uMin (a b : Word32) : Word32 := if a < b then a else b
def uMax (a b : Word32) : Word32 := if b < a then a else b

inductive Errno where
  | ehostunreach
  | enetunreach
  | ehostdown
  | enetdown
  | enobufs
  | etimedout
  | econnrefused
  | econnreset
  | econnaborted
  | einval
  | ewouldblock
  | other (code : Nat)
  deriving DecidableEq

inductive TcpState where
  | closed
  | listen
  | synSent
  | synReceived
  | established
  | closeWait
  | finWait1
  | closing
  | lastAck
  | finWait2
  | timeWait
  deriving DecidableEq

namespace TcpState

def code : TcpState → Nat
  | closed => 0
  | listen => 1
  | synSent => 2
  | synReceived => 3
  | established => 4
  | closeWait => 5
  | finWait1 => 6
  | closing => 7
  | lastAck => 8
  | finWait2 => 9
  | timeWait => 10

instance : LE TcpState := ⟨fun s t => s.code ≤ t.code⟩

instance (s t : TcpState) : Decidable (s ≤ t) := inferInstanceAs (Decidable (s.code ≤ t.code))

def HaveRcvdSyn (s : TcpState) : Prop := synReceived ≤ s

instance (s : TcpState) : Decidable s.HaveRcvdSyn := inferInstanceAs (Decidable (_ ≤ _))

end TcpState

inductive Timer where
  | rexmt
  | persist
  | keep
  | msl2
  deriving DecidableEq

structure ThFlags where
  fin : Bool := false
  syn : Bool := false
  rst : Bool := false
  push : Bool := false
  ack : Bool := false
  urg : Bool := false
  deriving DecidableEq

structure TFlags where
  ackNow : Bool := false
  delAck : Bool := false
  noDelay : Bool := false
  noOpt : Bool := false
  sentFin : Bool := false
  reqScale : Bool := false
  rcvdScale : Bool := false
  reqTstmp : Bool := false
  rcvdTstmp : Bool := false
  sackPermit : Bool := false
  deriving DecidableEq

structure Tcpiphdr where
  tiSeq : TcpSeq
  tiAck : TcpSeq := 0
  tiLen : Int
  tiFlags : ThFlags := {}
  tiWin : Int := 0
  tiUrp : Int := 0
  data : List Byte
  deriving DecidableEq

structure Tcpcb where
  segNext : List Tcpiphdr := []
  tState : TcpState := .closed
  tTimer : Timer → Int := fun _ => 0
  tRxtshift : Int := 0
  tRxtcur : Int := 0
  tDupacks : Int := 0
  tMaxseg : Nat := 0
  tForce : Bool := false
  tFlags : TFlags := {}
  /-- Whether `t_template` is set. -/
  tTemplate : Bool := false
  sndUna : TcpSeq := 0
  sndNxt : TcpSeq := 0
  sndUp : TcpSeq := 0
  sndWl1 : TcpSeq := 0
  sndWl2 : TcpSeq := 0
  iss : TcpSeq := 0
  sndWnd : Word32 := 0
  rcvWnd : Word32 := 0
  rcvNxt : TcpSeq := 0
  rcvUp : TcpSeq := 0
  irs : TcpSeq := 0
  rcvAdv : TcpSeq := 0
  sndMax : TcpSeq := 0
  sndCwnd : Word32 := 0
  sndSsthresh : Word32 := 0
  tIdle : Int := 0
  tRtt : Int := 0
  tRtseq : TcpSeq := 0
  tSrtt : Int := 0
  tRttvar : Int := 0
  tRttmin : Nat := 0
  maxSndwnd : Word32 := 0
  oobHaveData : Bool := false
  oobHadData : Bool := false
  tIobc : Byte := 0
  tSofterror : Option Errno := none
  sndScale : Nat := 0
  rcvScale : Nat := 0
  requestRScale : Nat := 0
  requestedSScale : Nat := 0
  tsRecent : Word32 := 0
  tsRecentAge : Word32 := 0
  lastAckSent : TcpSeq := 0

def Tcpcb.setTimer (tp : Tcpcb) (timer : Timer) (ticks : Int) : Tcpcb :=
  { tp with tTimer := fun t => if t = timer then short ticks else tp.tTimer t }

structure SoState where
  noFdRef : Bool := false
  isConnected : Bool := false
  isConnecting : Bool := false
  isDisconnecting : Bool := false
  cantSendMore : Bool := false
  cantRcvMore : Bool := false
  rcvAtMark : Bool := false
  deriving DecidableEq

structure Sockbuf where
  sbMb : List Byte := []
  sbHiwat : Word32 := 0
  deriving DecidableEq

def Sockbuf.sbCc (sb : Sockbuf) : Nat := sb.sbMb.length

def Sockbuf.sbappend (sb : Sockbuf) (m : List Byte) : Sockbuf := { sb with sbMb := sb.sbMb ++ m }

def Sockbuf.sbspace (sb : Sockbuf) (mbspace : Int) : Int :=
  min (sb.sbHiwat - BitVec.ofNat 32 sb.sbCc).toInt mbspace

@[simp] theorem Sockbuf.sbMb_sbappend (sb : Sockbuf) (m : List Byte) :
    (sb.sbappend m).sbMb = sb.sbMb ++ m := rfl

structure Socket where
  soState : SoState := {}
  soSnd : Sockbuf := {}
  soRcv : Sockbuf := {}
  soOobmark : Word32 := 0
  soError : Option Errno := none
  /-- `SO_ACCEPTCONN`, `SO_KEEPALIVE`, `SO_OOBINLINE` and `SO_LINGER` of `so_options`. -/
  soAcceptconn : Bool := false
  soKeepalive : Bool := false
  soOobinline : Bool := false
  soLingerOpt : Bool := false
  soLinger : Int := 0
  deriving DecidableEq

end NetBSD.Tcp
