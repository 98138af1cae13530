import NetBSD.Tcp.Conn

/-!
# Header prediction

`tcp_input` on an established connection, for a segment without control flags other than `TH_ACK` and `TH_PUSH`: the fast path,
and the general code that it leaves out. Each ends with the answer whether `tcp_output` is called last.
-/

namespace NetBSD.Tcp

def tcpPawsIdle : Int := 24 * 24 * 60 * 60 * 2
def tcprexmtthresh : Int := 3
def tcptvRexmtmax : Int := 128

def tstmpLt (a b : Word32) : Prop := (a - b).toInt < 0
def tstmpGeq (a b : Word32) : Prop := 0 ≤ (a - b).toInt

instance (a b : Word32) : Decidable (tstmpLt a b) := inferInstanceAs (Decidable (_ < _))
instance (a b : Word32) : Decidable (tstmpGeq a b) := inferInstanceAs (Decidable (_ ≤ _))

structure Input where
  ti : Tcpiphdr
  tiwin : Word32
  tsPresent : Bool
  tsVal : Word32
  tsEcr : Word32
  len_nonneg : 0 ≤ ti.tiLen
  flags : ti.tiFlags = { ack := true, push := ti.tiFlags.push }

structure InputEnv where
  tcpNow : Word32
  mbspace : Int

def tcptRangeset (value tvmin tvmax : Int) : Int :=
  if short value < tvmin then short tvmin else if tvmax < short value then short tvmax else short value

def smoothed (srtt rttvar rtt : Int) : Int × Int :=
  if srtt ≠ 0 then
    let delta := short (rtt - 1 - srtt / 8)
    let srtt := short (srtt + delta)
    let magnitude := if delta < 0 then short (-delta) else delta
    let rttvar := short (rttvar + short (magnitude - rttvar / 4))
    (if srtt ≤ 0 then 1 else srtt, if rttvar ≤ 0 then 1 else rttvar)
  else (short (rtt * 8), short (rtt * 2))

def tcpXmitTimer (tp : Tcpcb) (rtt : Int) : Tcpcb :=
  let estimate := smoothed tp.tSrtt tp.tRttvar (short rtt)
  { tp with
    tSrtt := estimate.1
    tRttvar := estimate.2
    tRtt := 0
    tRxtshift := 0
    tRxtcur := tcptRangeset (estimate.1 / 8 + estimate.2) tp.tRttmin tcptvRexmtmax
    tSofterror := none }

section

variable (env : InputEnv) (seg : Input)

def recordTimestamp (tp : Tcpcb) (ti : Tcpiphdr) : Tcpcb :=
  if seg.tsPresent ∧ seqLeq ti.tiSeq tp.lastAckSent ∧ seqLt tp.lastAckSent ti.tiEnd then
    { tp with tsRecentAge := env.tcpNow, tsRecent := seg.tsVal }
  else tp

def updateRtt (tp : Tcpcb) : Tcpcb :=
  if seg.tsPresent then tcpXmitTimer tp (env.tcpNow - seg.tsEcr + 1).toNat
  else if tp.tRtt ≠ 0 ∧ seqGt seg.ti.tiAck tp.tRtseq then tcpXmitTimer tp tp.tRtt
  else tp

def restartRexmt (tp : Tcpcb) : Tcpcb :=
  if seg.ti.tiAck = tp.sndMax then tp.setTimer .rexmt 0
  else if tp.tTimer .persist = 0 then tp.setTimer .rexmt tp.tRxtcur
  else tp

def Conn.dropSnd (conn : Conn) (len : Nat) : Option Conn :=
  if conn.so.soSnd.sbCc < len then none
  else some { conn with so := { conn.so with soSnd := { conn.so.soSnd with sbMb := conn.so.soSnd.sbMb.drop len } } }

def Candidate (conn : Conn) : Prop :=
  conn.tp.tState = .established ∧
    (seg.tsPresent = true → tstmpGeq seg.tsVal conn.tp.tsRecent) ∧
    seg.ti.tiSeq = conn.tp.rcvNxt ∧
    seg.tiwin ≠ 0 ∧ seg.tiwin = conn.tp.sndWnd ∧
    conn.tp.sndNxt = conn.tp.sndMax

def PureAck (conn : Conn) : Prop :=
  seg.ti.tiLen = 0 ∧ seqGt seg.ti.tiAck conn.tp.sndUna ∧ seqLeq seg.ti.tiAck conn.tp.sndMax ∧ conn.tp.sndWnd ≤ conn.tp.sndCwnd

def PureData (conn : Conn) : Prop :=
  seg.ti.tiLen ≠ 0 ∧ seg.ti.tiAck = conn.tp.sndUna ∧ conn.tp.segNext = [] ∧ seg.ti.tiLen ≤ conn.so.soRcv.sbspace env.mbspace

instance (conn : Conn) : Decidable (Candidate seg conn) := inferInstanceAs (Decidable (_ ∧ _))
instance (conn : Conn) : Decidable (PureAck seg conn) := inferInstanceAs (Decidable (_ ∧ _))
def predictedAck (conn : Conn) : Option (Conn × Bool) :=
  let conn := { conn with tp := updateRtt env seg conn.tp }
  (conn.dropSnd (seg.ti.tiAck - conn.tp.sndUna).toNat).map fun conn =>
    let conn := { conn with tp := restartRexmt seg { conn.tp with sndUna := seg.ti.tiAck } }
    (conn, conn.so.soSnd.sbCc ≠ 0)

def predictedData (conn : Conn) : Conn × Bool :=
  let tFlags :=
    if seg.ti.tiFlags.push then { conn.tp.tFlags with ackNow := true } else { conn.tp.tFlags with delAck := true }
  ({ conn with
      tp := { conn.tp with rcvNxt := conn.tp.rcvNxt + BitVec.ofInt 32 seg.ti.tiLen, tFlags := tFlags }
      so := { conn.so with soRcv := conn.so.soRcv.sbappend seg.ti.data } }, false)

def headerPrediction (conn : Conn) : Option (Conn × Bool) :=
  let conn := { conn with tp := recordTimestamp env seg conn.tp seg.ti }
  if seg.ti.tiLen = 0 then predictedAck env seg conn else some (predictedData seg conn)

inductive Outcome where
  | goOn (conn : Conn) (ti : Tcpiphdr) (needoutput : Bool)
  | dropafterack (conn : Conn)
  | drop (conn : Conn)

def Outcome.andThen (next : Conn → Tcpiphdr → Bool → Outcome) : Outcome → Outcome
  | goOn conn ti needoutput => next conn ti needoutput
  | other => other

def ackNow (tp : Tcpcb) : Tcpcb := { tp with tFlags := { tp.tFlags with ackNow := true } }

def receiveWindow (conn : Conn) : Conn :=
  let win := conn.so.soRcv.sbspace env.mbspace
  let win := if win < 0 then 0 else win
  { conn with tp := { conn.tp with rcvWnd := uMax (BitVec.ofInt 32 win) (conn.tp.rcvAdv - conn.tp.rcvNxt) } }

def paws (conn : Conn) (ti : Tcpiphdr) (needoutput : Bool) : Outcome :=
  if seg.tsPresent ∧ conn.tp.tsRecent ≠ 0 ∧ tstmpLt seg.tsVal conn.tp.tsRecent then
    if tcpPawsIdle < (env.tcpNow - conn.tp.tsRecentAge).toInt then
      .goOn { conn with tp := { conn.tp with tsRecent := 0 } } ti needoutput
    else .dropafterack conn
  else .goOn conn ti needoutput

def dropLeading (conn : Conn) (ti : Tcpiphdr) (needoutput : Bool) : Outcome :=
  let todrop := (conn.tp.rcvNxt - ti.tiSeq).toInt
  if 0 < todrop then
    if ti.tiLen ≤ todrop then .goOn { conn with tp := ackNow conn.tp } (ti.trim ti.tiLen) needoutput
    else .goOn conn (ti.trim todrop) needoutput
  else .goOn conn ti needoutput

def dropTrailing (conn : Conn) (ti : Tcpiphdr) (needoutput : Bool) : Outcome :=
  let todrop := (ti.tiEnd - (conn.tp.rcvNxt + conn.tp.rcvWnd)).toInt
  let trimmed := { ti with tiLen := short (ti.tiLen - todrop), data := ti.data.take (ti.data.length - todrop.toNat) }
  if 0 < todrop then
    if ti.tiLen ≤ todrop then
      if conn.tp.rcvWnd = 0 ∧ ti.tiSeq = conn.tp.rcvNxt then .goOn { conn with tp := ackNow conn.tp } trimmed needoutput
      else .dropafterack conn
    else .goOn conn trimmed needoutput
  else .goOn conn ti needoutput

def duplicateAck (output : Conn → Conn) (conn : Conn) (ti : Tcpiphdr) (needoutput : Bool) : Outcome :=
  if ti.tiLen = 0 ∧ seg.tiwin = conn.tp.sndWnd then
    if conn.tp.tTimer .rexmt = 0 ∨ ti.tiAck ≠ conn.tp.sndUna then
      .goOn { conn with tp := { conn.tp with tDupacks := 0 } } ti needoutput
    else
      let dupacks := short (conn.tp.tDupacks + 1)
      let conn := { conn with tp := { conn.tp with tDupacks := dupacks } }
      let maxseg := BitVec.ofNat 32 conn.tp.tMaxseg
      if dupacks = tcprexmtthresh then
        let win := uMin conn.tp.sndWnd conn.tp.sndCwnd / 2 / maxseg
        let win := if win < 2 then 2 else win
        let onxt := conn.tp.sndNxt
        let sent := output { conn with
          tp := { conn.tp.setTimer .rexmt 0 with sndSsthresh := win * maxseg, tRtt := 0, sndNxt := ti.tiAck, sndCwnd := maxseg } }
        let cwnd := sent.tp.sndSsthresh + maxseg * BitVec.ofInt 32 sent.tp.tDupacks
        let nxt := if seqGt onxt sent.tp.sndNxt then onxt else sent.tp.sndNxt
        .drop { sent with tp := { sent.tp with sndCwnd := cwnd, sndNxt := nxt } }
      else if tcprexmtthresh < dupacks then
        .drop (output { conn with tp := { conn.tp with sndCwnd := conn.tp.sndCwnd + maxseg } })
      else .goOn conn ti needoutput
  else .goOn { conn with tp := { conn.tp with tDupacks := 0 } } ti needoutput

def openCwnd (tp : Tcpcb) : Tcpcb :=
  let cw := tp.sndCwnd
  let incr := BitVec.ofNat 32 tp.tMaxseg
  let incr := if tp.sndSsthresh < cw then incr * incr / cw + incr / 8 else incr
  { tp with sndCwnd := uMin (cw + incr) ((65535 : Word32) <<< tp.sndScale) }

def retractCwnd (tp : Tcpcb) : Tcpcb :=
  let cwnd := if tcprexmtthresh < tp.tDupacks ∧ tp.sndSsthresh < tp.sndCwnd then tp.sndSsthresh else tp.sndCwnd
  { tp with sndCwnd := cwnd, tDupacks := 0 }

def dropAcked (conn : Conn) (acked : Word32) : Conn :=
  let cc := if conn.so.soSnd.sbCc < acked.toNat then conn.so.soSnd.sbCc else acked.toNat
  { conn with
    tp := { conn.tp with sndWnd := conn.tp.sndWnd - BitVec.ofNat 32 cc }
    so := { conn.so with soSnd := { conn.so.soSnd with sbMb := conn.so.soSnd.sbMb.drop cc } } }

def processAck (output : Conn → Conn) (conn : Conn) (ti : Tcpiphdr) (needoutput : Bool) : Outcome :=
  if seqLeq ti.tiAck conn.tp.sndUna then duplicateAck seg output conn ti needoutput
  else
    let conn := { conn with tp := retractCwnd conn.tp }
    if seqGt ti.tiAck conn.tp.sndMax then .dropafterack conn
    else
      let acked := ti.tiAck - conn.tp.sndUna
      let needoutput := needoutput || decide (ti.tiAck = conn.tp.sndMax)
      let conn := { conn with tp := openCwnd (restartRexmt seg (updateRtt env seg conn.tp)) }
      let conn := dropAcked conn acked
      let nxt := if seqLt conn.tp.sndNxt ti.tiAck then ti.tiAck else conn.tp.sndNxt
      .goOn { conn with tp := { conn.tp with sndUna := ti.tiAck, sndNxt := nxt } } ti needoutput

def NewWindow (tp : Tcpcb) (ti : Tcpiphdr) : Prop :=
  seqLt tp.sndWl1 ti.tiSeq ∨ tp.sndWl1 = ti.tiSeq ∧
    (seqLt tp.sndWl2 ti.tiAck ∨ tp.sndWl2 = ti.tiAck ∧ tp.sndWnd < seg.tiwin)

instance (tp : Tcpcb) (ti : Tcpiphdr) : Decidable (NewWindow seg tp ti) := inferInstanceAs (Decidable (_ ∨ _))

def step6 (conn : Conn) (ti : Tcpiphdr) (needoutput : Bool) : Outcome :=
  let updated := decide (NewWindow seg conn.tp ti)
  let tp :=
    if updated then
      { conn.tp with
        sndWnd := seg.tiwin
        sndWl1 := ti.tiSeq
        sndWl2 := ti.tiAck
        maxSndwnd := if conn.tp.maxSndwnd < seg.tiwin then seg.tiwin else conn.tp.maxSndwnd }
    else conn.tp
  let tp := if seqGt tp.rcvNxt tp.rcvUp then { tp with rcvUp := tp.rcvNxt } else tp
  .goOn { conn with tp := tp } ti (needoutput || updated)

def processText (conn : Conn) (ti : Tcpiphdr) (needoutput : Bool) : Outcome :=
  if ti.tiLen ≠ 0 then .goOn (tcpReassMacro conn ti).1 ti needoutput else .goOn conn ti needoutput

/-- The general code, up to the call of `tcp_output` with which it ends `if (needoutput || (tp->t_flags & TF_ACKNOW))`. -/
def generalCode (output : Conn → Conn) (conn : Conn) : Outcome :=
  (paws env seg (receiveWindow env conn) seg.ti false).andThen fun conn ti need =>
  (dropLeading conn ti need).andThen fun conn ti need =>
  (dropTrailing conn ti need).andThen fun conn ti need =>
  (processAck env seg output { conn with tp := recordTimestamp env seg conn.tp ti } ti need).andThen fun conn ti need =>
  (step6 seg conn ti need).andThen fun conn ti need => processText conn ti need

end

structure Established (conn : Conn) : Prop where
  state : conn.tp.tState = .established
  inFlight : (conn.tp.sndMax - conn.tp.sndUna).toNat ≤ conn.so.soSnd.sbCc
  sbCc_lt : conn.so.soSnd.sbCc < 2147483648

structure AgreesWith (fast slow : Conn) : Prop where
  sndUna : fast.tp.sndUna = slow.tp.sndUna
  sndNxt : fast.tp.sndNxt = slow.tp.sndNxt
  soSnd : fast.so.soSnd = slow.so.soSnd
  soRcv : fast.so.soRcv = slow.so.soRcv
  rcvNxt : fast.tp.rcvNxt = slow.tp.rcvNxt
  rexmt : fast.tp.tTimer .rexmt = slow.tp.tTimer .rexmt
  tRtt : fast.tp.tRtt = slow.tp.tRtt
  tSrtt : fast.tp.tSrtt = slow.tp.tSrtt
  tRttvar : fast.tp.tRttvar = slow.tp.tRttvar
  tRxtcur : fast.tp.tRxtcur = slow.tp.tRxtcur
  tRxtshift : fast.tp.tRxtshift = slow.tp.tRxtshift

section Agreement

variable {env : InputEnv} {seg : Input} {conn : Conn} {output : Conn → Conn} {need : Bool}

theorem Established.acked_le (h : Established conn) {ack : TcpSeq} (hgt : seqGt ack conn.tp.sndUna)
    (hleq : seqLeq ack conn.tp.sndMax) :
    (ack - conn.tp.sndUna).toNat ≤ conn.so.soSnd.sbCc ∧ ¬ seqLeq ack conn.tp.sndUna ∧ ¬ seqGt ack conn.tp.sndMax ∧
      ¬ seqLt conn.tp.sndMax ack := by
  have hflight := h.inFlight
  have hlt := h.sbCc_lt
  simp only [seqGt, seqLeq, seqLt, BitVec.toInt_eq_toNat_cond, BitVec.toNat_sub] at *
  omega

theorem sbspace_lt (sb : Sockbuf) (mbspace : Int) : sb.sbspace mbspace < 2147483648 :=
  lt_of_le_of_lt (min_le_left _ _) BitVec.toInt_lt

theorem paws_candidate (h : Candidate seg conn) (conn' : Conn) (hsame : conn'.tp.tsRecent = conn.tp.tsRecent) :
    paws env seg conn' seg.ti need = .goOn conn' seg.ti need := by
  obtain ⟨-, htstmp, -⟩ := h
  rw [paws, if_neg]
  rintro ⟨hpresent, -, hlt⟩
  have hgeq := htstmp hpresent
  rw [hsame, tstmpLt] at hlt
  rw [tstmpGeq] at hgeq
  omega

theorem dropLeading_candidate (h : Candidate seg conn) (conn' : Conn) (hsame : conn'.tp.rcvNxt = conn.tp.rcvNxt) :
    dropLeading conn' seg.ti need = .goOn conn' seg.ti need := by
  obtain ⟨-, -, hseq, -⟩ := h
  rw [dropLeading, hsame, hseq, BitVec.sub_self, BitVec.toInt_zero]
  rfl

theorem dropTrailing_candidate (h : Candidate seg conn) (hlen : seg.ti.tiLen = 0 ∨ seg.ti.tiLen ≤ conn.so.soRcv.sbspace env.mbspace)
    (hadv : 0 ≤ (conn.tp.rcvAdv - conn.tp.rcvNxt).toInt) :
    dropTrailing (receiveWindow env conn) seg.ti need = .goOn (receiveWindow env conn) seg.ti need := by
  obtain ⟨-, -, hseq, -⟩ := h
  have hspace := sbspace_lt conn.so.soRcv env.mbspace
  have hlen_nonneg := seg.len_nonneg
  rw [dropTrailing]
  refine if_neg (not_lt.mpr ?_)
  change (seg.ti.tiSeq + BitVec.ofInt 32 seg.ti.tiLen - (conn.tp.rcvNxt + uMax
    (BitVec.ofInt 32 (if conn.so.soRcv.sbspace env.mbspace < 0 then 0 else conn.so.soRcv.sbspace env.mbspace))
    (conn.tp.rcvAdv - conn.tp.rcvNxt))).toInt ≤ 0
  generalize hwin : (if conn.so.soRcv.sbspace env.mbspace < 0 then 0 else conn.so.soRcv.sbspace env.mbspace) = win
  generalize conn.tp.rcvAdv - conn.tp.rcvNxt = adv at *
  have hwin_bounds : 0 ≤ win ∧ win < 2147483648 ∧ seg.ti.tiLen ≤ win := by
    rw [← hwin]
    split <;> omega
  have hwin_nat : (BitVec.ofInt 32 win).toNat = win.toNat := by
    rw [BitVec.toNat_ofInt]
    omega
  have hlen_nat : (BitVec.ofInt 32 seg.ti.tiLen).toNat = seg.ti.tiLen.toNat := by
    rw [BitVec.toNat_ofInt]
    omega
  have hmax : (uMax (BitVec.ofInt 32 win) adv).toNat = max win.toNat adv.toNat := by
    rw [uMax]
    split
    · next hlt =>
      rw [BitVec.lt_def, hwin_nat] at hlt
      omega
    · next hge =>
      rw [BitVec.lt_def, hwin_nat] at hge
      omega
  have hadv_lt : adv.toNat < 2147483648 := by
    rw [BitVec.toInt_eq_toNat_cond] at hadv
    omega
  generalize uMax (BitVec.ofInt 32 win) adv = wnd at *
  generalize BitVec.ofInt 32 seg.ti.tiLen = len at *
  rw [hseq, BitVec.toInt_eq_toNat_cond, BitVec.toNat_sub, BitVec.toNat_add, BitVec.toNat_add]
  have hnxt := conn.tp.rcvNxt.isLt
  omega

theorem generalCode_candidate (env : InputEnv) (output : Conn → Conn) (h : Candidate seg conn) (hlen : seg.ti.tiLen = 0 ∨ seg.ti.tiLen ≤ conn.so.soRcv.sbspace env.mbspace)
    (hadv : 0 ≤ (conn.tp.rcvAdv - conn.tp.rcvNxt).toInt) :
    generalCode env seg output conn =
      (processAck env seg output
        { receiveWindow env conn with tp := recordTimestamp env seg (receiveWindow env conn).tp seg.ti } seg.ti false).andThen
        fun conn ti need => (step6 seg conn ti need).andThen fun conn ti need => processText conn ti need := by
  rw [generalCode, paws_candidate h (receiveWindow env conn) rfl]
  change ((dropLeading (receiveWindow env conn) seg.ti false).andThen _) = _
  rw [dropLeading_candidate h (receiveWindow env conn) rfl]
  change ((dropTrailing (receiveWindow env conn) seg.ti false).andThen _) = _
  rw [dropTrailing_candidate h hlen hadv]
  rfl

theorem recordTimestamp_rcvWnd (tp : Tcpcb) (ti : Tcpiphdr) (wnd : Word32) :
    recordTimestamp env seg { tp with rcvWnd := wnd } ti = { recordTimestamp env seg tp ti with rcvWnd := wnd } := by
  rw [recordTimestamp, recordTimestamp]
  split <;> rfl

theorem recordTimestamp_eq (env : InputEnv) (seg : Input) (tp : Tcpcb) (ti : Tcpiphdr) :
    ∃ age recent, recordTimestamp env seg tp ti = { tp with tsRecentAge := age, tsRecent := recent } := by
  rw [recordTimestamp]
  split
  · exact ⟨_, _, rfl⟩
  · exact ⟨tp.tsRecentAge, tp.tsRecent, rfl⟩

theorem updateRtt_frame (tp : Tcpcb) (wnd cwnd : Word32) (dupacks : Int) :
    updateRtt env seg { tp with rcvWnd := wnd, sndCwnd := cwnd, tDupacks := dupacks } =
      { updateRtt env seg tp with rcvWnd := wnd, sndCwnd := cwnd, tDupacks := dupacks } := by
  simp only [updateRtt]
  split
  · rfl
  · split <;> rfl

theorem updateRtt_eq (env : InputEnv) (seg : Input) (tp : Tcpcb) :
    ∃ srtt rttvar rtt rxtshift rxtcur softerror, updateRtt env seg tp =
      { tp with
        tSrtt := srtt, tRttvar := rttvar, tRtt := rtt, tRxtshift := rxtshift, tRxtcur := rxtcur, tSofterror := softerror } := by
  rw [updateRtt]
  split
  · exact ⟨_, _, _, _, _, _, rfl⟩
  · split
    · exact ⟨_, _, _, _, _, _, rfl⟩
    · exact ⟨tp.tSrtt, tp.tRttvar, tp.tRtt, tp.tRxtshift, tp.tRxtcur, tp.tSofterror, rfl⟩

theorem restartRexmt_frame (tp : Tcpcb) (wnd cwnd : Word32) (dupacks : Int) :
    restartRexmt seg { tp with rcvWnd := wnd, sndCwnd := cwnd, tDupacks := dupacks } =
      { restartRexmt seg tp with rcvWnd := wnd, sndCwnd := cwnd, tDupacks := dupacks } := by
  simp only [restartRexmt]
  split
  · rfl
  · split <;> rfl

theorem restartRexmt_sndUna (tp : Tcpcb) (una : TcpSeq) :
    restartRexmt seg { tp with sndUna := una } = { restartRexmt seg tp with sndUna := una } := by
  simp only [restartRexmt]
  split
  · rfl
  · split <;> rfl

theorem restartRexmt_eq (seg : Input) (tp : Tcpcb) : ∃ timers, restartRexmt seg tp = { tp with tTimer := timers } := by
  rw [restartRexmt]
  split
  · exact ⟨_, rfl⟩
  · split
    · exact ⟨_, rfl⟩
    · exact ⟨tp.tTimer, rfl⟩

theorem openCwnd_eq (tp : Tcpcb) : ∃ cwnd, openCwnd tp = { tp with sndCwnd := cwnd } := ⟨_, rfl⟩

theorem retractCwnd_eq (tp : Tcpcb) : ∃ cwnd, retractCwnd tp = { tp with sndCwnd := cwnd, tDupacks := 0 } := ⟨_, rfl⟩

/-- The control block that the fast path leaves for an acknowledgment, but for `snd_una`. -/
def ackedBlock (env : InputEnv) (seg : Input) (conn : Conn) : Tcpcb :=
  restartRexmt seg (updateRtt env seg (recordTimestamp env seg conn.tp seg.ti))

theorem ackedBlock_same (env : InputEnv) (seg : Input) (conn : Conn) :
    (ackedBlock env seg conn).sndNxt = conn.tp.sndNxt ∧ (ackedBlock env seg conn).sndMax = conn.tp.sndMax ∧
      (ackedBlock env seg conn).sndWnd = conn.tp.sndWnd ∧ (ackedBlock env seg conn).sndCwnd = conn.tp.sndCwnd ∧
      (ackedBlock env seg conn).sndWl1 = conn.tp.sndWl1 ∧ (ackedBlock env seg conn).sndWl2 = conn.tp.sndWl2 := by
  obtain ⟨age, recent, hrecord⟩ := recordTimestamp_eq env seg conn.tp seg.ti
  obtain ⟨srtt, rttvar, rtt, rxtshift, rxtcur, softerror, hrtt⟩ :=
    updateRtt_eq env seg (recordTimestamp env seg conn.tp seg.ti)
  obtain ⟨timers, hrexmt⟩ := restartRexmt_eq seg (updateRtt env seg (recordTimestamp env seg conn.tp seg.ti))
  rw [ackedBlock, hrexmt, hrtt, hrecord]
  exact ⟨rfl, rfl, rfl, rfl, rfl, rfl⟩

theorem headerPrediction_ack (env : InputEnv) (h : Established conn) (hpure : PureAck seg conn) :
    ∃ out, headerPrediction env seg conn = some
      ({ conn with
          tp := { ackedBlock env seg conn with sndUna := seg.ti.tiAck }
          so := { conn.so with soSnd := { conn.so.soSnd with
            sbMb := conn.so.soSnd.sbMb.drop (seg.ti.tiAck - conn.tp.sndUna).toNat } } }, out) := by
  obtain ⟨hlen, hgt, hleq, -⟩ := hpure
  obtain ⟨hcc, -, -, -⟩ := h.acked_le hgt hleq
  have huna : (updateRtt env seg (recordTimestamp env seg conn.tp seg.ti)).sndUna = conn.tp.sndUna := by
    obtain ⟨age, recent, hrecord⟩ := recordTimestamp_eq env seg conn.tp seg.ti
    obtain ⟨srtt, rttvar, rtt, rxtshift, rxtcur, softerror, hrtt⟩ :=
      updateRtt_eq env seg (recordTimestamp env seg conn.tp seg.ti)
    rw [hrtt, hrecord]
  rw [headerPrediction, if_pos hlen, predictedAck, Conn.dropSnd, huna, if_neg (not_lt.mpr hcc), Option.map_some]
  simp only [restartRexmt_sndUna]
  exact ⟨_, rfl⟩

theorem processAck_ack (env : InputEnv) (output : Conn → Conn) (need : Bool) (h : Established conn) (hcand : Candidate seg conn) (hpure : PureAck seg conn) (wnd : Word32) :
    ∃ cwnd need', processAck env seg output
        { conn with tp := { recordTimestamp env seg conn.tp seg.ti with rcvWnd := wnd } } seg.ti need =
      .goOn { conn with
        tp := { ackedBlock env seg conn with
          rcvWnd := wnd
          sndCwnd := cwnd
          tDupacks := 0
          sndWnd := conn.tp.sndWnd - (seg.ti.tiAck - conn.tp.sndUna)
          sndUna := seg.ti.tiAck }
        so := { conn.so with soSnd := { conn.so.soSnd with
          sbMb := conn.so.soSnd.sbMb.drop (seg.ti.tiAck - conn.tp.sndUna).toNat } } } seg.ti need' := by
  obtain ⟨-, hgt, hleq, -⟩ := hpure
  obtain ⟨-, -, -, -, -, hnxt⟩ := hcand
  obtain ⟨hcc, hnleq, hngt, hnlt⟩ := h.acked_le hgt hleq
  obtain ⟨age, recent, hrecord⟩ := recordTimestamp_eq env seg conn.tp seg.ti
  obtain ⟨hsndNxt, -, hsndWnd, -, -, -⟩ := ackedBlock_same env seg conn
  have huna : (recordTimestamp env seg conn.tp seg.ti).sndUna = conn.tp.sndUna := by rw [hrecord]
  have hmax : (recordTimestamp env seg conn.tp seg.ti).sndMax = conn.tp.sndMax := by rw [hrecord]
  obtain ⟨cwnd, hretract⟩ := retractCwnd_eq { recordTimestamp env seg conn.tp seg.ti with rcvWnd := wnd }
  have hblock : restartRexmt seg (updateRtt env seg (retractCwnd { recordTimestamp env seg conn.tp seg.ti with rcvWnd := wnd })) =
      { ackedBlock env seg conn with rcvWnd := wnd, sndCwnd := cwnd, tDupacks := 0 } := by
    rw [hretract]
    exact (congrArg (restartRexmt seg) (updateRtt_frame (recordTimestamp env seg conn.tp seg.ti) wnd cwnd 0)).trans
      (restartRexmt_frame (updateRtt env seg (recordTimestamp env seg conn.tp seg.ti)) wnd cwnd 0)
  have hretract_max : (retractCwnd { recordTimestamp env seg conn.tp seg.ti with rcvWnd := wnd }).sndMax = conn.tp.sndMax := by
    rw [hretract]
    exact hmax
  have hretract_una : (retractCwnd { recordTimestamp env seg conn.tp seg.ti with rcvWnd := wnd }).sndUna = conn.tp.sndUna := by
    rw [hretract]
    exact huna
  have hdrop : ∀ tp : Tcpcb, dropAcked { conn with tp := tp } (seg.ti.tiAck - conn.tp.sndUna) =
      { conn with
        tp := { tp with sndWnd := tp.sndWnd - (seg.ti.tiAck - conn.tp.sndUna) }
        so := { conn.so with soSnd := { conn.so.soSnd with
          sbMb := conn.so.soSnd.sbMb.drop (seg.ti.tiAck - conn.tp.sndUna).toNat } } } := by
    intro tp
    simp only [dropAcked, if_neg (not_lt.mpr hcc), BitVec.ofNat_toNat, BitVec.setWidth_eq]
  rw [processAck, if_neg (by rw [huna]; exact hnleq)]
  simp only [hretract_max, hretract_una, hblock, if_neg hngt, hdrop]
  obtain ⟨cwnd', hopen⟩ := openCwnd_eq { ackedBlock env seg conn with rcvWnd := wnd, sndCwnd := cwnd, tDupacks := 0 }
  refine ⟨cwnd', need || decide (seg.ti.tiAck = conn.tp.sndMax), ?_⟩
  rw [hopen]
  simp only [hsndNxt, hsndWnd, hnxt, if_neg hnlt]

theorem step6_eq (seg : Input) (need : Bool) (conn : Conn) (ti : Tcpiphdr) :
    ∃ wl1 wl2 maxwnd rcvUp need', step6 seg conn ti need = .goOn { conn with
      tp := { conn.tp with
        sndWnd := if NewWindow seg conn.tp ti then seg.tiwin else conn.tp.sndWnd
        sndWl1 := wl1
        sndWl2 := wl2
        maxSndwnd := maxwnd
        rcvUp := rcvUp } } ti need' := by
  by_cases hnew : NewWindow seg conn.tp ti
  · simp only [step6, hnew, decide_true, if_true]
    split
    · exact ⟨_, _, _, _, _, rfl⟩
    · exact ⟨_, _, _, _, _, rfl⟩
  · simp only [step6, hnew, decide_false, if_false, Bool.false_eq_true]
    split
    · exact ⟨_, _, _, _, _, rfl⟩
    · exact ⟨_, _, _, conn.tp.rcvUp, _, rfl⟩

theorem NewWindow.of_candidate (hnew : NewWindow seg conn.tp seg.ti) (hcand : Candidate seg conn) (tp : Tcpcb)
    (hwl1 : tp.sndWl1 = conn.tp.sndWl1) (hwl2 : tp.sndWl2 = conn.tp.sndWl2) : NewWindow seg tp seg.ti := by
  obtain ⟨-, -, -, -, hwin, -⟩ := hcand
  rw [NewWindow, hwl1, hwl2]
  rcases hnew with hseq | ⟨hseq, hack | ⟨-, hlarger⟩⟩
  · exact .inl hseq
  · exact .inr ⟨hseq, .inl hack⟩
  · rw [hwin] at hlarger
    exact absurd hlarger (BitVec.lt_irrefl _)

theorem agrees_ack (env : InputEnv) (output : Conn → Conn) (h : Established conn) (hcand : Candidate seg conn) (hpure : PureAck seg conn)
    (hadv : 0 ≤ (conn.tp.rcvAdv - conn.tp.rcvNxt).toInt) :
    ∃ fast out slow ti need, headerPrediction env seg conn = some (fast, out) ∧
      generalCode env seg output conn = .goOn slow ti need ∧ AgreesWith fast slow ∧ fast.tp.sndCwnd = conn.tp.sndCwnd ∧
        fast.tp.sndWnd = conn.tp.sndWnd ∧ (NewWindow seg conn.tp seg.ti → slow.tp.sndWnd = conn.tp.sndWnd) := by
  obtain ⟨out, hfast⟩ := headerPrediction_ack env h hpure
  obtain ⟨cwnd, need₁, hack⟩ := processAck_ack env output false h hcand hpure
    (receiveWindow env conn).tp.rcvWnd
  obtain ⟨-, -, hsndWnd, hsndCwnd, hwl1, hwl2⟩ := ackedBlock_same env seg conn
  have hrecord : recordTimestamp env seg (receiveWindow env conn).tp seg.ti =
      { recordTimestamp env seg conn.tp seg.ti with rcvWnd := (receiveWindow env conn).tp.rcvWnd } :=
    recordTimestamp_rcvWnd conn.tp seg.ti _
  have hgeneral := generalCode_candidate env output hcand (.inl hpure.1) hadv
  rw [hrecord] at hgeneral
  have hacked := hgeneral.trans (congrArg (Outcome.andThen fun conn ti need =>
    (step6 seg conn ti need).andThen fun conn ti need => processText conn ti need) hack)
  obtain ⟨wl1, wl2, maxwnd, rcvUp, need₂, hstep⟩ := step6_eq seg need₁ _ seg.ti
  have hstepped := hacked.trans (congrArg (Outcome.andThen fun conn ti need => processText conn ti need) hstep)
  refine ⟨_, out, _, seg.ti, need₂, hfast, hstepped.trans (if_neg (not_not.mpr hpure.1)), ?_, hsndCwnd, hsndWnd, fun hnew => ?_⟩
  · exact ⟨rfl, rfl, rfl, rfl, rfl, rfl, rfl, rfl, rfl, rfl, rfl⟩
  · have hnew' := hnew.of_candidate hcand ({ ackedBlock env seg conn with
      rcvWnd := (receiveWindow env conn).tp.rcvWnd
      sndCwnd := cwnd
      tDupacks := 0
      sndWnd := conn.tp.sndWnd - (seg.ti.tiAck - conn.tp.sndUna)
      sndUna := seg.ti.tiAck }) hwl1 hwl2
    obtain ⟨-, -, -, -, hwin, -⟩ := hcand
    exact (if_pos hnew').trans hwin

theorem agrees_data (output : Conn → Conn) (hcand : Candidate seg conn) (hpure : PureData env seg conn)
    (hadv : 0 ≤ (conn.tp.rcvAdv - conn.tp.rcvNxt).toInt) :
    ∃ fast out slow ti need, headerPrediction env seg conn = some (fast, out) ∧
      generalCode env seg output conn = .goOn slow ti need ∧ AgreesWith fast slow ∧ fast.tp.sndCwnd = slow.tp.sndCwnd ∧
        fast.tp.sndWnd = slow.tp.sndWnd := by
  obtain ⟨hlen, hack, hqueue, hspace⟩ := hpure
  obtain ⟨age, recent, hrecorded⟩ := recordTimestamp_eq env seg conn.tp seg.ti
  have hfast : headerPrediction env seg conn =
      some (predictedData seg { conn with tp := recordTimestamp env seg conn.tp seg.ti }) := if_neg hlen
  have hrecord : recordTimestamp env seg (receiveWindow env conn).tp seg.ti =
      { recordTimestamp env seg conn.tp seg.ti with rcvWnd := (receiveWindow env conn).tp.rcvWnd } :=
    recordTimestamp_rcvWnd conn.tp seg.ti _
  have hgeneral := generalCode_candidate env output hcand (.inr hspace) hadv
  obtain ⟨hstate, -, hseq, -, hwin, -⟩ := hcand
  rw [hrecord, hrecorded] at hgeneral
  have hleq : seqLeq seg.ti.tiAck conn.tp.sndUna := by
    rw [hack, seqLeq, BitVec.sub_self]
    decide
  have hacked := hgeneral.trans (congrArg (Outcome.andThen fun conn ti need =>
    (step6 seg conn ti need).andThen fun conn ti need => processText conn ti need)
    ((if_pos hleq).trans (if_neg fun h => hlen h.1)))
  obtain ⟨wl1, wl2, maxwnd, rcvUp, need₂, hstep⟩ := step6_eq seg false _ seg.ti
  have hstepped := hacked.trans (congrArg (Outcome.andThen fun conn ti need => processText conn ti need) hstep)
  have htext := hstepped.trans (if_pos hlen)
  rw [tcpReassMacro, if_pos ⟨hseq, hqueue, hstate⟩] at htext
  refine ⟨_, _, _, seg.ti, need₂, hfast, htext, ?_, ?_, ?_⟩
  · rw [hrecorded]
    exact ⟨rfl, rfl, rfl, rfl, rfl, rfl, rfl, rfl, rfl, rfl, rfl⟩
  · rw [hrecorded]
  · rw [hrecorded]
    change conn.tp.sndWnd = if _ then seg.tiwin else conn.tp.sndWnd
    rw [hwin, ite_self]

end Agreement

/-- Header prediction does what the general code does, up to the call of `tcp_output`, where `rcv_nxt` has not passed `rcv_adv`. It
leaves the congestion window, which is not below `snd_wnd`, as it is, and the general code opens it for an acknowledgment. The
window of the peer is the same as well if there is data, or if the segment is new to the general code. -/
theorem headerPrediction_agrees (env : InputEnv) (seg : Input) (output : Conn → Conn) (conn : Conn) (hest : Established conn)
    (hcand : Candidate seg conn) (hpure : PureAck seg conn ∨ PureData env seg conn)
    (hadv : 0 ≤ (conn.tp.rcvAdv - conn.tp.rcvNxt).toInt) :
    ∃ fast out slow ti need, headerPrediction env seg conn = some (fast, out) ∧
      generalCode env seg output conn = .goOn slow ti need ∧ AgreesWith fast slow ∧
        (PureAck seg conn → fast.tp.sndCwnd = conn.tp.sndCwnd) ∧
          (PureData env seg conn → fast.tp.sndCwnd = slow.tp.sndCwnd) ∧
            (PureData env seg conn ∨ NewWindow seg conn.tp seg.ti → fast.tp.sndWnd = slow.tp.sndWnd) := by
  have hnot : PureAck seg conn → ¬ PureData env seg conn := fun hack hdata => hdata.1 hack.1
  rcases hpure with hack | hdata
  · obtain ⟨fast, out, slow, ti, need, hfast, hslow, hsame, hcwnd, hwnd, hnew⟩ :=
      agrees_ack env output hest hcand hack hadv
    refine ⟨fast, out, slow, ti, need, hfast, hslow, hsame, fun _ => hcwnd, fun hdata => absurd hdata (hnot hack), fun h => ?_⟩
    rw [hwnd, hnew (h.resolve_left (hnot hack))]
  · obtain ⟨fast, out, slow, ti, need, hfast, hslow, hsame, hcwnd, hwnd⟩ :=
      agrees_data output hcand hdata hadv
    exact ⟨fast, out, slow, ti, need, hfast, hslow, hsame, fun hack => absurd hdata (hnot hack), fun _ => hcwnd, fun _ => hwnd⟩

def oneByte : Conn where
  tp := {
    tState := .established, sndUna := 0, sndNxt := 1, sndMax := 1, sndWnd := 1000, sndCwnd := 1000, sndSsthresh := 65535
    tMaxseg := 512, rcvNxt := 50, rcvAdv := 50, sndWl1 := 50, sndWl2 := 0, tTimer := fun _ => 0 }
  so := { soSnd := { sbMb := [7], sbHiwat := 4096 }, soRcv := { sbHiwat := 4096 } }

def oneByteAcked : Input where
  ti := { tiSeq := 50, tiAck := 1, tiLen := 0, tiFlags := { ack := true }, data := [] }
  tiwin := 1000
  tsPresent := false
  tsVal := 0
  tsEcr := 0
  len_nonneg := by decide
  flags := rfl

theorem oneByte_established : Established oneByte := ⟨rfl, by decide, by decide⟩

/-- The fast path leaves a congestion window of 1000 bytes, the general code one of 1512. -/
theorem oneByte_cwnd_differs :
    ¬ ∀ (env : InputEnv) (seg : Input) (output : Conn → Conn) (conn : Conn), Established conn → Candidate seg conn →
      PureAck seg conn ∨ PureData env seg conn → ∀ fast out slow ti need, headerPrediction env seg conn = some (fast, out) →
        generalCode env seg output conn = .goOn slow ti need → AgreesWith fast slow ∧ fast.tp.sndWnd = slow.tp.sndWnd ∧
          fast.tp.tDupacks = slow.tp.tDupacks ∧ fast.tp.sndCwnd = slow.tp.sndCwnd := by
  intro h
  obtain ⟨-, -, -, hcwnd⟩ := h ⟨0, 8192⟩ oneByteAcked id oneByte oneByte_established (by decide) (.inl (by decide)) _ _ _ _ _ rfl rfl
  revert hcwnd
  decide

theorem headerPrediction_agrees_oneByte :
    ∃ fast out slow ti need, headerPrediction ⟨0, 8192⟩ oneByteAcked oneByte = some (fast, out) ∧
      generalCode ⟨0, 8192⟩ oneByteAcked id oneByte = .goOn slow ti need ∧ AgreesWith fast slow ∧
        (PureAck oneByteAcked oneByte → fast.tp.sndCwnd = oneByte.tp.sndCwnd) ∧
          (PureData ⟨0, 8192⟩ oneByteAcked oneByte → fast.tp.sndCwnd = slow.tp.sndCwnd) ∧
            (PureData ⟨0, 8192⟩ oneByteAcked oneByte ∨ NewWindow oneByteAcked oneByte.tp oneByteAcked.ti →
              fast.tp.sndWnd = slow.tp.sndWnd) :=
  headerPrediction_agrees ⟨0, 8192⟩ oneByteAcked id oneByte oneByte_established (by decide) (.inl (by decide)) (by decide)

end NetBSD.Tcp
