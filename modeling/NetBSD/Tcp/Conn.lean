import NetBSD.Tcp.Var

/-!
# Connections

A connection is a control block with its socket. The routines of TCP run on one: they change it and go
on, or leave it for an exit. What the rest of the kernel decides in between (mbufs, routes, the answer of
`ip_output`) comes in as an argument of each routine.
-/

namespace NetBSD.Tcp

structure Rtentry where
  rmxRtt : Word32 := 0
  rmxRttvar : Word32 := 0
  rmxMtu : Word32 := 0
  rmxSendpipe : Word32 := 0
  rmxRecvpipe : Word32 := 0
  rmxSsthresh : Word32 := 0
  lockRtt : Bool := false
  ifMtu : Word32
  inLocaladdr : Bool
  deriving DecidableEq

structure PassEnv where
  tcpNow : Word32 := 0
  /-- The storage left to `so_rcv`. -/
  mbspace : Int
  route : Option Rtentry := none
  /-- Whether `MGETHDR` and `m_copy` find the mbufs they need. -/
  mgethdr : Bool := true
  mcopy : Bool := true
  ipOutput : Option Errno := none
  deriving DecidableEq

/-- A segment handed to `ip_output`, with the state in which the pass that sent it began. -/
structure Emission where
  tp : Tcpcb
  so : Socket
  advanced : Nat
  idle : Bool
  env : PassEnv
  tiSeq : TcpSeq
  tiAck : TcpSeq
  tiFlags : ThFlags
  tiWin : Nat
  tiUrp : Nat
  opt : List Byte
  data : List Byte

/-- A control block and its socket, with the history since `tcp_sendseqinit`: how far `snd_una` has
advanced, and what was sent, the latest first. No routine reads the history. -/
structure Conn where
  tp : Tcpcb
  so : Socket
  advanced : Nat := 0
  sent : List Emission := []

end NetBSD.Tcp

/-!
## The reassembly queue

`tcp_reass` and the macro `TCP_REASS` in front of it.
-/

namespace NetBSD.Tcp

def Tcpiphdr.trim (ti : Tcpiphdr) (i : Int) : Tcpiphdr :=
  { ti with
    tiSeq := ti.tiSeq + BitVec.ofInt 32 i
    tiLen := short (ti.tiLen - i)
    data := ti.data.drop i.toNat }

def Tcpiphdr.tiEnd (ti : Tcpiphdr) : TcpSeq := ti.tiSeq + BitVec.ofInt 32 ti.tiLen

def reassPreceding (prev : Option Tcpiphdr) (ti : Tcpiphdr) : Option Tcpiphdr :=
  match prev with
  | none => some ti
  | some q =>
    -- conversion to `int` handles wraparound
    let i := (q.tiEnd - ti.tiSeq).toInt
    if 0 < i then
      if ti.tiLen ≤ i then none else some (ti.trim i)
    else some ti

def reassSucceeding (ti : Tcpiphdr) : List Tcpiphdr → List Tcpiphdr
  | [] => []
  | q :: rest =>
    let i := (ti.tiEnd - q.tiSeq).toInt
    if i ≤ 0 then q :: rest
    else if i < q.tiLen then q.trim i :: rest
    else reassSucceeding ti rest

def reassInsert (queue : List Tcpiphdr) (ti : Tcpiphdr) : Option (List Tcpiphdr) :=
  let before := queue.takeWhile fun q => ¬ seqGt q.tiSeq ti.tiSeq
  let after := queue.dropWhile fun q => ¬ seqGt q.tiSeq ti.tiSeq
  (reassPreceding before.getLast? ti).map fun ti => before ++ ti :: reassSucceeding ti after

/-- The loop that presents data to the user: what follows `rcv_nxt` leaves the queue. It returns the
`TH_FIN` of the last segment. -/
def presentLoop (conn : Conn) (fin : Bool) : List Tcpiphdr → Conn × Bool
  | [] => ({ conn with tp := { conn.tp with segNext := [] } }, fin)
  | ti :: rest =>
    if ti.tiSeq = conn.tp.rcvNxt then
      presentLoop
        { conn with
          tp := { conn.tp with rcvNxt := conn.tp.rcvNxt + BitVec.ofInt 32 ti.tiLen }
          so :=
            if conn.so.soState.cantRcvMore then conn.so
            else { conn.so with soRcv := conn.so.soRcv.sbappend ti.data } }
        ti.tiFlags.fin rest
    else ({ conn with tp := { conn.tp with segNext := ti :: rest } }, fin)

def reassPresent (conn : Conn) : Conn × Bool :=
  if ¬ conn.tp.tState.HaveRcvdSyn then (conn, false)
  else
    match conn.tp.segNext with
    | [] => (conn, false)
    | ti :: _ =>
      if ti.tiSeq ≠ conn.tp.rcvNxt then (conn, false)
      else if conn.tp.tState = .synReceived ∧ ti.tiLen ≠ 0 then (conn, false)
      else presentLoop conn false conn.tp.segNext

/-- `tcp_reass`, with no segment when data that came before the connection was established is to be
presented. It returns `TH_FIN`. -/
def tcpReass (conn : Conn) (ti : Option Tcpiphdr) : Conn × Bool :=
  match ti with
  | none => reassPresent conn
  | some ti =>
    match reassInsert conn.tp.segNext ti with
    | none => (conn, false)
    | some queue => reassPresent { conn with tp := { conn.tp with segNext := queue } }

def tcpReassMacro (conn : Conn) (ti : Tcpiphdr) : Conn × Bool :=
  if ti.tiSeq = conn.tp.rcvNxt ∧ conn.tp.segNext = [] ∧ conn.tp.tState = .established then
    let tFlags :=
      if ti.tiFlags.push then { conn.tp.tFlags with ackNow := true }
      else { conn.tp.tFlags with delAck := true }
    ({ conn with
        tp := { conn.tp with tFlags := tFlags, rcvNxt := conn.tp.rcvNxt + BitVec.ofInt 32 ti.tiLen }
        so := { conn.so with soRcv := conn.so.soRcv.sbappend ti.data } },
      ti.tiFlags.fin)
  else
    let (conn, fin) := tcpReass conn (some ti)
    ({ conn with tp := { conn.tp with tFlags := { conn.tp.tFlags with ackNow := true } } }, fin)

end NetBSD.Tcp
