import NetBSD.Tcp.Pieces

/-!
# Reassembly delivers the stream

A connection in the established state is handed segments of the peer's stream in any order, while its
user reads and may shut the receive side down. Every byte below `rcv_nxt` was handed over and the one at
`rcv_nxt` was not; until the shutdown what was appended to `so_rcv` is the stream up to `rcv_nxt`.
-/

namespace NetBSD.Tcp

open NetBSD.Lib

def Socket.sorflush (so : Socket) : Socket :=
  { so with soState := { so.soState with cantRcvMore := true }, soRcv := {} }

/-- A segment handed to `TCP_REASS`, with its position in the stream; `tcp_reass` without a segment;
the user's `soreceive` of some bytes; and the shutdown of the receive side. -/
inductive StreamEvent where
  | segment (start : Nat) (ti : Tcpiphdr)
  | present
  | soreceive (n : Nat)
  | sorflush

/-- A connection with the history of its receive side: by how much `rcv_nxt` has advanced, what has left
`so_rcv`, and the segments handed over. -/
structure Receiver where
  conn : Conn
  upTo : Nat
  taken : List Byte
  handed : List Place

def Receiver.appended (r : Receiver) : List Byte := r.taken ++ r.conn.so.soRcv.sbMb

def Receiver.advance (r : Receiver) (conn : Conn) (handed : List Place) : Receiver :=
  { conn := conn
    upTo := r.upTo + (conn.tp.rcvNxt - r.conn.tp.rcvNxt).toNat
    taken := r.taken
    handed := handed }

def Receiver.step (r : Receiver) : StreamEvent → Receiver × Bool
  | .segment start ti =>
    let (conn, fin) := tcpReassMacro r.conn ti
    (r.advance conn (r.handed ++ [⟨start, ti.data, ti⟩]), fin)
  | .present =>
    let (conn, fin) := tcpReass r.conn none
    (r.advance conn r.handed, fin)
  | .soreceive n =>
    let soRcv := r.conn.so.soRcv
    ({ r with
        conn := { r.conn with so := { r.conn.so with soRcv := { soRcv with sbMb := soRcv.sbMb.drop n } } }
        taken := r.taken ++ soRcv.sbMb.take n }, false)
  | .sorflush =>
    ({ r with
        conn := { r.conn with so := r.conn.so.sorflush }
        taken := r.appended }, false)

/-- The segment is the slice of the stream at `start`, and inside a window of less than half of the
sequence space that begins at position `upTo`. -/
structure IsSlice (stream : Nat → Byte) (irs : TcpSeq) (upTo start : Nat) (ti : Tcpiphdr) : Prop where
  tiSeq_eq : ti.tiSeq = serial irs start
  tiLen_eq : ti.tiLen = ti.data.length
  length_lt : ti.data.length < 2 ^ 15
  data_eq : ti.data = slice stream start ti.data.length
  inWindow : upTo ≤ start ∧ start + ti.data.length < upTo + 2 ^ 31

def StreamEvent.Admissible (stream : Nat → Byte) (irs : TcpSeq) (upTo : Nat) : StreamEvent → Prop
  | .segment start ti => IsSlice stream irs upTo start ti
  | _ => True

inductive Receives (stream : Nat → Byte) (irs : TcpSeq) : Receiver → Prop where
  | start {conn : Conn} (hstate : conn.tp.tState = .established) (hqueue : conn.tp.segNext = [])
      (hnxt : conn.tp.rcvNxt = irs) (hempty : conn.so.soRcv.sbMb = []) :
      Receives stream irs ⟨conn, 0, [], []⟩
  | step {r : Receiver} {e : StreamEvent} (h : Receives stream irs r)
      (he : e.Admissible stream irs r.upTo) : Receives stream irs (r.step e).1

section Present

variable {irs : TcpSeq} {lo n : Nat}

def presented (irs : TcpSeq) (conn : Conn) (out : Gathered Byte Tcpiphdr) : Conn :=
  { conn with
    tp := { conn.tp with rcvNxt := serial irs out.upTo, segNext := out.rest.map (segmentAt irs) }
    so :=
      if conn.so.soState.cantRcvMore then conn.so
      else { conn.so with soRcv := conn.so.soRcv.sbappend out.data } }

theorem Sockbuf.sbappend_nil (sb : Sockbuf) : sb.sbappend [] = sb := by
  simp [Sockbuf.sbappend]

theorem upTo_gather_near {queue : List Place} (hn : lo ≤ n ∧ n < lo + 2 ^ 31)
    (hqueue : ∀ q ∈ queue, Near lo q) :
    lo ≤ (gather n queue).upTo ∧ (gather n queue).upTo < lo + 2 ^ 31 := by
  induction queue generalizing n with
  | nil => exact hn
  | cons q queue ih =>
    unfold gather
    split
    · exact ih (hqueue q List.mem_cons_self).bounds.2 fun x hx => hqueue x (List.mem_cons_of_mem _ hx)
    · exact hn

theorem presentLoop_segmentAt {conn : Conn} {queue : List Place} (fin : Bool)
    (hnxt : conn.tp.rcvNxt = serial irs n) (hn : lo ≤ n ∧ n < lo + 2 ^ 31)
    (hqueue : ∀ q ∈ queue, Near lo q) :
    presentLoop conn fin (queue.map (segmentAt irs))
      = (presented irs conn (gather n queue),
          ((gather n queue).used.getLast?.map fun q => q.tag.tiFlags.fin).getD fin) := by
  induction queue generalizing conn n fin with
  | nil => simp [presentLoop, gather, presented, ← hnxt, Sockbuf.sbappend_nil]
  | cons q queue ih =>
    have hq := hqueue q List.mem_cons_self
    have hseq : (segmentAt irs q).tiSeq = conn.tp.rcvNxt ↔ q.start = n := by
      rw [hnxt]
      exact serial_eq_iff_near hq.bounds.1 hn
    simp only [List.map_cons, presentLoop, gather]
    by_cases hstart : q.start = n
    · rw [if_pos (hseq.mpr hstart), if_pos hstart]
      have hnext : conn.tp.rcvNxt + BitVec.ofInt 32 (segmentAt irs q).tiLen = serial irs q.finish := by
        rw [hnxt, ← hstart]
        exact tiEnd_segmentAt
      rw [hnext, ih _ rfl hq.bounds.2 fun x hx => hqueue x (List.mem_cons_of_mem _ hx)]
      congr 1
      · unfold presented
        by_cases hcant : conn.so.soState.cantRcvMore = true
        · simp [hcant]
        · simp [hcant, Sockbuf.sbappend, segmentAt]
      · rw [List.getLast?_cons]
        cases (gather q.finish queue).used.getLast? <;> rfl
    · rw [if_neg (hseq.not.mpr hstart), if_neg hstart]
      simp [presented, ← hnxt, Sockbuf.sbappend_nil, segmentAt]

theorem presentLoop_of_head {conn : Conn} (fin : Bool)
    (hhead : ∀ ti ∈ conn.tp.segNext.head?, ti.tiSeq ≠ conn.tp.rcvNxt) :
    presentLoop conn fin conn.tp.segNext = (conn, fin) := by
  obtain ⟨tp, so⟩ := conn
  obtain ⟨segNext⟩ := tp
  cases segNext with
  | nil => rfl
  | cons ti rest => exact if_neg (hhead ti rfl)

theorem reassPresent_eq {conn : Conn} (hstate : conn.tp.tState = .established) :
    reassPresent conn = presentLoop conn false conn.tp.segNext := by
  have hsyn : conn.tp.tState.HaveRcvdSyn := by
    rw [hstate]
    decide
  unfold reassPresent
  rw [if_neg (not_not.mpr hsyn)]
  split
  · next hnil => rw [presentLoop_of_head false (by simp [hnil])]
  · next ti rest hcons =>
    by_cases hseq : ti.tiSeq = conn.tp.rcvNxt
    · rw [if_neg (not_not.mpr hseq), if_neg (by simp [hstate])]
    · rw [if_pos hseq, presentLoop_of_head false (by simpa [hcons] using hseq)]

end Present

section Invariant

variable {stream : Nat → Byte} {irs : TcpSeq} {r : Receiver} {queue : List Place}

structure Holds (stream : Nat → Byte) (irs : TcpSeq) (r : Receiver) (queue : List Place) : Prop where
  established : r.conn.tp.tState = .established
  rcvNxt_eq : r.conn.tp.rcvNxt = serial irs r.upTo
  segNext_eq : r.conn.tp.segNext = queue.map (segmentAt irs)
  inOrder : InOrder queue
  near : ∀ q ∈ queue, Near r.upTo q
  gap : ∀ q ∈ queue, r.upTo < q.start
  agrees : ∀ q ∈ queue, q.Agrees stream
  origin : ∀ q ∈ queue, ∃ p ∈ r.handed, q.finish = p.finish ∧ q.tag = p.tag
  received : ∀ i, i < r.upTo ∨ Covered queue i ↔ ∃ p ∈ r.handed, p.Covers i
  sublist : r.appended.Sublist (slice stream 0 r.upTo)
  appended_eq : ¬ r.conn.so.soState.cantRcvMore → r.appended = slice stream 0 r.upTo

theorem Holds.upTo_advance (h : Holds stream irs r queue) {conn : Conn} {n : Nat}
    (handed : List Place) (hnxt : conn.tp.rcvNxt = serial irs n) (hn : r.upTo ≤ n ∧ n < r.upTo + 2 ^ 31) :
    (r.advance conn handed).upTo = n := by
  have hsub : conn.tp.rcvNxt - r.conn.tp.rcvNxt = BitVec.ofNat 32 (n - r.upTo) := by
    have hcast : (n : Int) - r.upTo = (n - r.upTo : Nat) := by omega
    rw [hnxt, h.rcvNxt_eq, serial_sub_serial, hcast, BitVec.ofInt_natCast]
  simp only [Receiver.advance, hsub, BitVec.toNat_ofNat]
  omega

theorem IsSlice.place {upTo start : Nat} {ti : Tcpiphdr} (h : IsSlice stream irs upTo start ti) :
    segmentAt irs ⟨start, ti.data, ti⟩ = ti ∧ Near upTo ⟨start, ti.data, ti⟩
      ∧ Piece.Agrees stream (⟨start, ti.data, ti⟩ : Place) := by
  refine ⟨?_, ⟨h.inWindow.1, h.inWindow.2, h.length_lt⟩, h.data_eq⟩
  simp only [segmentAt, ← h.tiSeq_eq, ← h.tiLen_eq]

theorem Holds.head_ne (h : Holds stream irs r queue) :
    ∀ ti ∈ r.conn.tp.segNext.head?, ti.tiSeq ≠ r.conn.tp.rcvNxt := by
  intro ti hti
  rw [h.segNext_eq, List.head?_map] at hti
  obtain ⟨q, hq, rfl⟩ := Option.mem_map.mp hti
  have hq := List.mem_of_mem_head? hq
  have hgap := h.gap q hq
  rw [h.rcvNxt_eq]
  exact (serial_eq_iff_near (h.near q hq).bounds.1 (by omega)).not.mpr (by omega)

/-- What a call of `TCP_REASS` with the segment at `p` does to the connection: what continues the stream
once `p` is placed in the queue is passed on, and appended unless the user reads no more. -/
structure Passes (irs : TcpSeq) (conn conn' : Conn) (out : Gathered Byte Tcpiphdr) : Prop where
  established : conn'.tp.tState = .established
  rcvNxt_eq : conn'.tp.rcvNxt = serial irs out.upTo
  segNext_eq : conn'.tp.segNext = out.rest.map (segmentAt irs)
  soState_eq : conn'.so.soState = conn.so.soState
  soRcv_eq : conn'.so.soRcv = conn.so.soRcv.sbappend out.data
    ∨ conn.so.soState.cantRcvMore = true ∧ conn'.so.soRcv = conn.so.soRcv

theorem passes_presented (irs : TcpSeq) {conn : Conn} (hstate : conn.tp.tState = .established)
    (out : Gathered Byte Tcpiphdr) : Passes irs conn (presented irs conn out) out := by
  refine ⟨hstate, rfl, rfl, ?_, ?_⟩
  · unfold presented
    by_cases hcant : conn.so.soState.cantRcvMore = true
    · simp [hcant]
    · simp [hcant]
  · unfold presented
    by_cases hcant : conn.so.soState.cantRcvMore = true
    · exact Or.inr ⟨hcant, by simp [hcant]⟩
    · exact Or.inl (by simp [hcant])

def finOf (out : Gathered Byte Tcpiphdr) : Bool :=
  (out.used.getLast?.map fun q => q.tag.tiFlags.fin).getD false

theorem Holds.tcpReass (h : Holds stream irs r queue) {p : Place} (hp : Near r.upTo p) :
    tcpReass r.conn (some (segmentAt irs p))
      = (presented irs r.conn (gather r.upTo (place queue p)),
          finOf (gather r.upTo (place queue p))) := by
  have hplaced := reassInsert_segmentAt irs h.near hp
  have hnear := near_place h.near hp
  have hself : r.upTo ≤ r.upTo ∧ r.upTo < r.upTo + 2 ^ 31 := by omega
  simp only [Tcp.tcpReass, h.segNext_eq]
  cases hins : reassInsert (queue.map (segmentAt irs)) (segmentAt irs p) with
  | none =>
    -- a duplicate leaves the queue alone, and nothing in it continues the stream
    have hsame : r.conn.tp.segNext = (place queue p).map (segmentAt irs) := by
      rw [h.segNext_eq, ← hplaced, hins]
      rfl
    have hloop := presentLoop_segmentAt false h.rcvNxt_eq hself hnear
    have hstays : presentLoop r.conn false r.conn.tp.segNext = (r.conn, false) :=
      presentLoop_of_head false h.head_ne
    rw [← hsame, hstays] at hloop
    exact hloop
  | some queue' =>
    have hqueue' : queue' = (place queue p).map (segmentAt irs) := by
      rw [← hplaced, hins]
      rfl
    simp only [hqueue']
    rw [reassPresent_eq (by exact h.established)]
    exact presentLoop_segmentAt false h.rcvNxt_eq hself hnear

theorem Holds.tcpReassMacro (h : Holds stream irs r queue) {p : Place} (hp : Near r.upTo p) :
    Passes irs r.conn (tcpReassMacro r.conn (segmentAt irs p)).1 (gather r.upTo (place queue p))
      ∧ (tcpReassMacro r.conn (segmentAt irs p)).2 = finOf (gather r.upTo (place queue p)) := by
  unfold Tcp.tcpReassMacro
  split
  · next hfast =>
    -- the fast path: the queue is empty and the segment continues the stream
    obtain ⟨hseq, hempty, hstate⟩ := hfast
    have hqueue : queue = [] := by
      rw [h.segNext_eq] at hempty
      exact List.map_eq_nil_iff.mp hempty
    have hstart : p.start = r.upTo := by
      rw [h.rcvNxt_eq] at hseq
      exact (serial_eq_iff_near hp.bounds.1 (by omega)).mp hseq
    have hout : gather r.upTo (place queue p) = ⟨p.finish, p.data, [p], []⟩ := by
      simp [hqueue, place, trimPreceding, trimFollowing, gather, hstart]
    have hnext : r.conn.tp.rcvNxt + BitVec.ofInt 32 (segmentAt irs p).tiLen = serial irs p.finish := by
      rw [← hseq]
      exact tiEnd_segmentAt
    rw [hout]
    exact ⟨⟨hstate, hnext, hempty, rfl, Or.inl rfl⟩, rfl⟩
  · obtain ⟨hstate, hnxt, hseg, hso, hrcv⟩ :=
      passes_presented irs h.established (gather r.upTo (place queue p))
    rw [h.tcpReass hp]
    exact ⟨⟨hstate, hnxt, hseg, hso, hrcv⟩, rfl⟩

theorem Holds.segment (h : Holds stream irs r queue) {p : Place} (hp : Near r.upTo p)
    (hagrees : p.Agrees stream) {conn : Conn}
    (hpass : Passes irs r.conn conn (gather r.upTo (place queue p))) :
    Holds stream irs (r.advance conn (r.handed ++ [p])) (gather r.upTo (place queue p)).rest
      ∧ (r.advance conn (r.handed ++ [p])).upTo = (gather r.upTo (place queue p)).upTo := by
  have hnear := near_place h.near hp
  have horder : InOrder (place queue p) := inOrder_place h.inOrder
  have hupTo := h.upTo_advance (r.handed ++ [p]) hpass.rcvNxt_eq
    (upTo_gather_near (by omega) hnear)
  have hle : r.upTo ≤ (gather r.upTo (place queue p)).upTo := le_upTo_gather
  have hsplit : (gather r.upTo (place queue p)).used ++ (gather r.upTo (place queue p)).rest
      = place queue p := gather_append
  have hrest : ∀ q ∈ (gather r.upTo (place queue p)).rest, q ∈ place queue p := fun q hq =>
    hsplit ▸ List.mem_append_right _ hq
  have hgap : ∀ q ∈ (gather r.upTo (place queue p)).rest,
      (gather r.upTo (place queue p)).upTo < q.start := fun q hq =>
    upTo_lt_of_mem_rest horder (fun x hx => (hnear x hx).start_ge) hq
  have hplaceAgrees : ∀ q ∈ place queue p, q.Agrees stream := by
    intro q hq
    obtain ⟨y, hy, htail⟩ := mem_place hq
    rcases hy with hy | rfl
    · exact htail.agrees (h.agrees y hy)
    · exact htail.agrees hagrees
  have hdata := data_gather (n := r.upTo) hplaceAgrees
  have hslice : slice stream 0 r.upTo
      ++ slice stream r.upTo ((gather r.upTo (place queue p)).upTo - r.upTo)
      = slice stream 0 (gather r.upTo (place queue p)).upTo := by
    have hjoin := slice_append stream 0 r.upTo ((gather r.upTo (place queue p)).upTo - r.upTo)
    rw [Nat.zero_add] at hjoin
    rw [hjoin]
    congr 1
    omega
  refine ⟨⟨hpass.established, ?_, hpass.segNext_eq, ?_, ?_, ?_, ?_, ?_, ?_, ?_, ?_⟩, hupTo⟩
  · rw [hupTo]
    exact hpass.rcvNxt_eq
  · exact (List.pairwise_append.mp (hsplit ▸ horder)).2.1
  · intro q hq
    rw [hupTo]
    exact (hnear q (hrest q hq)).mono hle (hgap q hq).le
  · rw [hupTo]
    exact hgap
  · exact fun q hq => hplaceAgrees q (hrest q hq)
  · intro q hq
    obtain ⟨y, hy, htail⟩ := mem_place (hrest q hq)
    rcases hy with hy | rfl
    · obtain ⟨x, hx, hfinish, htag⟩ := h.origin y hy
      exact ⟨x, List.mem_append_left _ hx, htail.finish_eq.trans hfinish, htail.tag_eq.trans htag⟩
    · exact ⟨y, List.mem_append_right _ (List.mem_singleton_self y), htail.finish_eq, htail.tag_eq⟩
  · intro i
    rw [hupTo]
    have hcov : Covered (place queue p) i ↔ Covered queue i ∨ p.Covers i := covered_place h.inOrder
    have hparts : Covered (place queue p) i
        ↔ Covered (gather r.upTo (place queue p)).used i
          ∨ Covered (gather r.upTo (place queue p)).rest i := by
      rw [← covered_append, hsplit]
    rw [covered_gather] at hparts
    have hreceived := h.received i
    simp only [Receiver.advance, List.mem_append, List.mem_singleton, or_and_right, exists_or,
      exists_eq_left, ← hreceived]
    constructor
    · rintro (hi | hi)
      · by_cases hlt : i < r.upTo
        · exact Or.inl (Or.inl hlt)
        · rcases hcov.mp (hparts.mpr (Or.inl ⟨by omega, hi⟩)) with hq | hq
          · exact Or.inl (Or.inr hq)
          · exact Or.inr hq
      · rcases hcov.mp (hparts.mpr (Or.inr hi)) with hq | hq
        · exact Or.inl (Or.inr hq)
        · exact Or.inr hq
    · have hcase : Covered (place queue p) i → i < (gather r.upTo (place queue p)).upTo
          ∨ Covered (gather r.upTo (place queue p)).rest i := fun hi =>
        (hparts.mp hi).imp (fun hi => hi.2) id
      rintro ((hi | hi) | hi)
      · exact Or.inl (by omega)
      · exact hcase (hcov.mpr (Or.inl hi))
      · exact hcase (hcov.mpr (Or.inr hi))
  · rw [hupTo, ← hslice]
    rcases hpass.soRcv_eq with hrcv | ⟨_, hrcv⟩
    · simp only [Receiver.appended, Receiver.advance, hrcv, Sockbuf.sbMb_sbappend, hdata,
        ← List.append_assoc]
      exact h.sublist.append_right _
    · simp only [Receiver.appended, Receiver.advance, hrcv]
      exact h.sublist.trans (List.sublist_append_left _ _)
  · intro hcant
    have hcant' : ¬ r.conn.so.soState.cantRcvMore = true := hpass.soState_eq ▸ hcant
    rcases hpass.soRcv_eq with hrcv | ⟨habs, _⟩
    · rw [hupTo, ← hslice, ← h.appended_eq hcant', ← hdata]
      simp only [Receiver.appended, Receiver.advance, hrcv, Sockbuf.sbMb_sbappend, List.append_assoc]
    · exact absurd habs hcant'

def Receiver.FinReached (r : Receiver) : Prop :=
  ∃ p ∈ r.handed, p.tag.tiFlags.fin = true ∧ p.finish = r.upTo

theorem Holds.finReached (h : Holds stream irs r queue) {p : Place} {n : Nat}
    (hfin : finOf (gather n (place queue p)) = true) :
    ∃ q ∈ r.handed ++ [p], q.tag.tiFlags.fin = true ∧ q.finish = (gather n (place queue p)).upTo := by
  simp only [finOf] at hfin
  cases hlast : (gather n (place queue p)).used.getLast? with
  | none => simp [hlast] at hfin
  | some last =>
    simp only [hlast, Option.map_some, Option.getD_some] at hfin
    have hsplit : (gather n (place queue p)).used ++ (gather n (place queue p)).rest = place queue p :=
      gather_append
    have hmem : last ∈ place queue p :=
      hsplit ▸ List.mem_append_left _ (List.mem_of_getLast? hlast)
    rw [upTo_eq_finish_getLast hlast]
    obtain ⟨y, hy, htail⟩ := mem_place hmem
    rw [htail.tag_eq] at hfin
    rcases hy with hy | rfl
    · obtain ⟨x, hx, hfinish, htag⟩ := h.origin y hy
      exact ⟨x, List.mem_append_left _ hx, htag ▸ hfin, (htail.finish_eq.trans hfinish).symm⟩
    · exact ⟨y, List.mem_append_right _ (List.mem_singleton_self y), hfin, htail.finish_eq.symm⟩

theorem Holds.step (h : Holds stream irs r queue) {e : StreamEvent}
    (he : e.Admissible stream irs r.upTo) :
    (∃ queue', Holds stream irs (r.step e).1 queue')
      ∧ ((r.step e).2 = true → (r.step e).1.FinReached) := by
  cases e with
  | segment start ti =>
    obtain ⟨hti, hnear, hagrees⟩ := he.place
    have hmacro := h.tcpReassMacro hnear
    rw [hti] at hmacro
    obtain ⟨hpass, hfin⟩ := hmacro
    obtain ⟨hholds, hupTo⟩ := h.segment hnear hagrees hpass
    refine ⟨⟨_, hholds⟩, fun hret => ?_⟩
    obtain ⟨q, hq, hqfin, hfinish⟩ := h.finReached (hfin ▸ hret)
    exact ⟨q, hq, hqfin, hfinish.trans hupTo.symm⟩
  | present =>
    have hstays : Tcp.tcpReass r.conn none = (r.conn, false) := by
      show reassPresent r.conn = _
      rw [reassPresent_eq h.established]
      apply presentLoop_of_head
      exact h.head_ne
    have hupTo : (r.advance r.conn r.handed).upTo = r.upTo := by simp [Receiver.advance]
    have hsame : r.advance r.conn r.handed = r := by
      simp [Receiver.advance]
    simp only [Receiver.step, hstays, hsame]
    exact ⟨⟨queue, h⟩, by simp⟩
  | soreceive n =>
    have happended : (r.step (.soreceive n)).1.appended = r.appended := by
      simp [Receiver.step, Receiver.appended]
    refine ⟨⟨queue, ⟨h.established, h.rcvNxt_eq, h.segNext_eq, h.inOrder, h.near, h.gap, h.agrees,
      h.origin, h.received, ?_, ?_⟩⟩, fun hret => by simp [Receiver.step] at hret⟩
    · rw [happended]
      exact h.sublist
    · rw [happended]
      exact h.appended_eq
  | sorflush =>
    have happended : (r.step .sorflush).1.appended = r.appended := by
      simp [Receiver.step, Receiver.appended, Socket.sorflush]
    refine ⟨⟨queue, ⟨h.established, h.rcvNxt_eq, h.segNext_eq, h.inOrder, h.near, h.gap, h.agrees,
      h.origin, h.received, ?_, ?_⟩⟩, fun hret => by simp [Receiver.step] at hret⟩
    · rw [happended]
      exact h.sublist
    · intro hcant
      simp [Receiver.step, Socket.sorflush] at hcant

theorem holds_of_receives (h : Receives stream irs r) : ∃ queue, Holds stream irs r queue := by
  induction h with
  | start hstate hqueue hnxt hempty =>
    refine ⟨[], ⟨hstate, ?_, hqueue, List.Pairwise.nil, ?_, ?_, ?_, ?_, ?_, ?_, ?_⟩⟩
    · simpa using hnxt
    · simp
    · simp
    · simp
    · simp
    · simp
    · simp [Receiver.appended, hempty]
    · simp [Receiver.appended, hempty]
  | step h he ih =>
    obtain ⟨queue, hholds⟩ := ih
    exact (hholds.step he).1

def Receiver.Received (r : Receiver) (i : Nat) : Prop := ∃ p ∈ r.handed, p.Covers i

/-- **Reassembly delivers the stream.** `rcv_nxt` is the first byte that has not been handed over. Up to
the shutdown of the receive side the bytes appended to `so_rcv` are the stream before it, after that
some of them in order. `TH_FIN` is returned only when `rcv_nxt` has reached a segment's FIN. -/
theorem tcpReass_delivers (h : Receives stream irs r) :
    r.conn.tp.rcvNxt = serial irs r.upTo
      ∧ (∀ i < r.upTo, r.Received i) ∧ ¬ r.Received r.upTo
      ∧ (¬ r.conn.so.soState.cantRcvMore → r.appended = slice stream 0 r.upTo)
      ∧ r.appended.Sublist (slice stream 0 r.upTo)
      ∧ ∀ e : StreamEvent, e.Admissible stream irs r.upTo → (r.step e).2 = true →
          (r.step e).1.FinReached := by
  obtain ⟨queue, hholds⟩ := holds_of_receives h
  refine ⟨hholds.rcvNxt_eq, fun i hi => (hholds.received i).mp (Or.inl hi), fun hnxt => ?_,
    hholds.appended_eq, hholds.sublist, fun e he => (hholds.step he).2⟩
  rcases (hholds.received r.upTo).mpr hnxt with hlt | ⟨q, hq, hcovers⟩
  · omega
  · have hgap := hholds.gap q hq
    have hstart := hcovers.1
    omega

end Invariant

def sampleStream (i : Nat) : Byte := BitVec.ofNat 8 i

/-- Its byte at position `i` in a segment of its own, the stream starting just before the sequence
numbers wrap. -/
def sampleSegment (i : Nat) : Tcpiphdr where
  tiSeq := serial 0xffffffff i
  tiLen := 1
  data := [sampleStream i]

def sampleReceiver : Receiver :=
  ⟨{ tp := { tState := .established, rcvNxt := 0xffffffff }, so := {} }, 0, [], []⟩

theorem receives_sampleReceiver : Receives sampleStream 0xffffffff sampleReceiver :=
  .start rfl rfl rfl rfl

theorem Receives.sampleSegment {r : Receiver} {i : Nat} (h : Receives sampleStream 0xffffffff r)
    (hle : r.upTo ≤ i) (hlt : i + 1 < r.upTo + 2 ^ 31) :
    Receives sampleStream 0xffffffff (r.step (.segment i (sampleSegment i))).1 :=
  h.step (e := .segment i (Tcp.sampleSegment i))
    ⟨rfl, rfl, by simp [Tcp.sampleSegment], rfl, hle, hlt⟩

/-- Two bytes that arrive in the wrong order. -/
theorem sampleReceiver_delivers :
    (((sampleReceiver.step (.segment 1 (sampleSegment 1))).1.step
      (.segment 0 (sampleSegment 0))).1.appended) = [0, 1] := by
  have hrun := (receives_sampleReceiver.sampleSegment (i := 1) (by decide) (by decide)).sampleSegment
    (i := 0) (by decide) (by decide)
  exact (tcpReass_delivers hrun).2.2.2.1 (by decide)

/-- After the user has shut the receive side down, what `tcp_reass` presents is thrown away. -/
theorem not_appended_after_sorflush :
    ¬ ∀ r, Receives sampleStream 0xffffffff r → r.appended = slice sampleStream 0 r.upTo := by
  intro hclaim
  have hshut := receives_sampleReceiver.step (e := .sorflush) trivial
  have hrun := (hshut.sampleSegment (i := 1) (by decide) (by decide)).sampleSegment
    (i := 0) (by decide) (by decide)
  exact absurd (hclaim _ hrun) (by decide)

end NetBSD.Tcp
