import NetBSD.Lib.Reassembly
import NetBSD.Lib.Wrapping
import NetBSD.Tcp.Conn

/-!
# A queue of segments is a queue of pieces

Segments that lie within half of the sequence space of each other are pieces of the stream at serial
numbers from the initial one, and what `tcp_reass` does to a queue of them is to place a piece in it and
to gather what continues the stream.
-/

namespace NetBSD.Tcp

open NetBSD.Lib

abbrev Place := Piece Byte Tcpiphdr

def segmentAt (irs : TcpSeq) (p : Place) : Tcpiphdr :=
  { p.tag with tiSeq := serial irs p.start, tiLen := p.data.length, data := p.data }

/-- Inside the half of the sequence space that begins at position `lo`, and of a length that fits
`ti_len`. -/
structure Near (lo : Nat) (p : Place) : Prop where
  start_ge : lo ≤ p.start
  finish_lt : p.finish < lo + 2 ^ 31
  length_lt : p.data.length < 2 ^ 15

section Segments

variable {irs : TcpSeq} {lo : Nat} {p q : Place}

theorem Near.isTail (hq : Near lo q) (h : p.IsTail q) : Near lo p := by
  have hstart := h.start_le
  have hfinish := h.finish_eq
  have hge := hq.start_ge
  have hlen := hq.length_lt
  have hlt := hq.finish_lt
  refine ⟨by omega, by omega, ?_⟩
  simp only [Piece.finish] at hfinish
  omega

theorem Near.mono {lo' : Nat} (h : Near lo p) (hle : lo ≤ lo') (hstart : lo' ≤ p.start) :
    Near lo' p := by
  have hfinish := h.finish_lt
  exact ⟨hstart, by omega, h.length_lt⟩

theorem tiEnd_segmentAt : (segmentAt irs p).tiEnd = serial irs p.finish := by
  simp only [Tcpiphdr.tiEnd, segmentAt, serial_add, Piece.finish, Int.natCast_add]

theorem toInt_serial_sub_near (irs : TcpSeq) {a b : Nat} (ha : lo ≤ a ∧ a < lo + 2 ^ 31) (hb : lo ≤ b ∧ b < lo + 2 ^ 31) :
    (serial irs (a : Int) - serial irs (b : Int)).toInt = (a : Int) - b := by
  apply toInt_serial_sub (by omega)
  · have : (-2 ^ (32 - 1) : Int) = -2147483648 := by rfl
    omega
  · have : (2 ^ (32 - 1) : Int) = 2147483648 := by rfl
    omega

theorem serial_eq_iff_near {a b : Nat} (ha : lo ≤ a ∧ a < lo + 2 ^ 31) (hb : lo ≤ b ∧ b < lo + 2 ^ 31) :
    serial irs (a : Int) = serial irs (b : Int) ↔ a = b := by
  refine ⟨fun h => ?_, fun h => h ▸ rfl⟩
  have hsub := toInt_serial_sub_near irs ha hb
  rw [h, BitVec.sub_self] at hsub
  simp only [BitVec.toInt_zero] at hsub
  omega

theorem Near.bounds (h : Near lo p) :
    (lo ≤ p.start ∧ p.start < lo + 2 ^ 31) ∧ lo ≤ p.finish ∧ p.finish < lo + 2 ^ 31 := by
  have hstart := h.start_ge
  have hfinish := h.finish_lt
  have hle := p.start_le_finish
  omega

theorem trim_segmentAt {n : Nat} (hn : n ≤ p.data.length) (hlen : p.data.length < 2 ^ 15) :
    (segmentAt irs p).trim n = segmentAt irs (p.dropFront n) := by
  have hshort : short ((p.data.length : Int) - n) = ((p.data.drop n).length : Nat) := by
    rw [List.length_drop, short_of_mem (by omega) (by omega)]
    omega
  simp only [Tcpiphdr.trim, segmentAt, Piece.dropFront, serial_add, hshort, Int.toNat_natCast,
    Int.natCast_add]

theorem reassPreceding_segmentAt {prev : Option Place} (hprev : ∀ q ∈ prev, Near lo q) (hp : Near lo p) :
    reassPreceding (prev.map (segmentAt irs)) (segmentAt irs p)
      = (trimPreceding prev p).map (segmentAt irs) := by
  cases prev with
  | none => rfl
  | some q =>
    have hq := hprev q rfl
    have hsub := toInt_serial_sub_near irs hq.bounds.2 hp.bounds.1
    have hlen : (segmentAt irs p).tiLen = p.data.length := rfl
    have hseq : (segmentAt irs p).tiSeq = serial irs (p.start : Int) := rfl
    simp only [reassPreceding, Option.map_some, trimPreceding, tiEnd_segmentAt, hlen, hseq, hsub]
    have hfinish : p.finish = p.start + p.data.length := rfl
    by_cases hover : q.finish ≤ p.start
    · rw [if_neg (by omega), if_pos hover]
      rfl
    · rw [if_pos (by omega), if_neg hover]
      by_cases hall : p.finish ≤ q.finish
      · rw [if_pos (by omega), if_pos hall]
        rfl
      · rw [if_neg (by omega), if_neg hall]
        have hcast : (q.finish : Int) - p.start = (q.finish - p.start : Nat) := by omega
        rw [hcast, trim_segmentAt (by omega) hp.length_lt]
        rfl

theorem reassSucceeding_segmentAt (irs : TcpSeq) {queue : List Place} (hqueue : ∀ q ∈ queue, Near lo q)
    (hp : Near lo p) :
    reassSucceeding (segmentAt irs p) (queue.map (segmentAt irs))
      = (trimFollowing p.finish queue).map (segmentAt irs) := by
  induction queue with
  | nil => rfl
  | cons q rest ih =>
    have hq := hqueue q List.mem_cons_self
    have hrest := ih fun x hx => hqueue x (List.mem_cons_of_mem _ hx)
    have hsub := toInt_serial_sub_near irs hp.bounds.2 hq.bounds.1
    have hlen : (segmentAt irs q).tiLen = q.data.length := rfl
    have hseq : (segmentAt irs q).tiSeq = serial irs (q.start : Int) := rfl
    have hfinish : q.finish = q.start + q.data.length := rfl
    simp only [List.map_cons, reassSucceeding, trimFollowing, tiEnd_segmentAt, hlen, hseq, hsub]
    by_cases hclear : p.finish ≤ q.start
    · rw [if_pos (by omega), if_pos hclear]
      rfl
    · rw [if_neg (by omega), if_neg hclear]
      by_cases hpart : p.finish < q.finish
      · rw [if_pos (by omega), if_pos hpart]
        have hcast : (p.finish : Int) - q.start = (p.finish - q.start : Nat) := by omega
        rw [hcast, trim_segmentAt (by omega) hq.length_lt]
        rfl
      · rw [if_neg (by omega), if_neg hpart]
        exact hrest

theorem reassInsert_segmentAt (irs : TcpSeq) {queue : List Place} (hqueue : ∀ q ∈ queue, Near lo q) (hp : Near lo p) :
    (reassInsert (queue.map (segmentAt irs)) (segmentAt irs p)).getD (queue.map (segmentAt irs))
      = (place queue p).map (segmentAt irs) := by
  have hsplit : ∀ {l : List Place}, (∀ q ∈ l, q ∈ queue) →
      (l.map (segmentAt irs)).takeWhile (fun q => ¬ seqGt q.tiSeq (segmentAt irs p).tiSeq)
          = (l.takeWhile fun q => q.start ≤ p.start).map (segmentAt irs)
        ∧ (l.map (segmentAt irs)).dropWhile (fun q => ¬ seqGt q.tiSeq (segmentAt irs p).tiSeq)
          = (l.dropWhile fun q => q.start ≤ p.start).map (segmentAt irs) := by
    intro l hl
    induction l with
    | nil => exact ⟨rfl, rfl⟩
    | cons q l ih =>
      obtain ⟨htake, hdrop⟩ := ih fun x hx => hl x (List.mem_cons_of_mem _ hx)
      have hq := hqueue q (hl q List.mem_cons_self)
      have hsub := toInt_serial_sub_near irs hq.bounds.1 hp.bounds.1
      have hsame : ¬ seqGt (segmentAt irs q).tiSeq (segmentAt irs p).tiSeq ↔ q.start ≤ p.start := by
        show ¬ 0 < (serial irs (q.start : Int) - serial irs (p.start : Int)).toInt ↔ _
        omega
      simp only [List.map_cons, List.takeWhile_cons, List.dropWhile_cons, hsame]
      split
      · exact ⟨by rw [List.map_cons, htake], hdrop⟩
      · exact ⟨rfl, rfl⟩
  obtain ⟨hbefore, hafter⟩ := hsplit fun q hq => hq
  have hprev : ∀ q ∈ (queue.takeWhile fun q => q.start ≤ p.start).getLast?, Near lo q :=
    fun q hq => hqueue q (List.takeWhile_subset _ (List.mem_of_getLast? hq))
  simp only [reassInsert, place, hbefore, hafter, List.getLast?_map, reassPreceding_segmentAt hprev hp]
  cases htrim : trimPreceding (queue.takeWhile fun q => q.start ≤ p.start).getLast? p with
  | none => rfl
  | some p' =>
    have hp' : Near lo p' := hp.isTail (isTail_of_trimPreceding htrim)
    have hsucc := reassSucceeding_segmentAt irs
      (fun q hq => hqueue q (List.dropWhile_subset (fun q => q.start ≤ p.start) hq)) hp'
    simp only [Option.map_some, Option.getD_some, List.map_append, List.map_cons, hsucc]

theorem near_place {queue : List Place} (hqueue : ∀ q ∈ queue, Near lo q) (hp : Near lo p) :
    ∀ q ∈ place queue p, Near lo q := by
  intro q hq
  obtain ⟨y, hy, htail⟩ := mem_place hq
  rcases hy with hy | rfl
  · exact (hqueue y hy).isTail htail
  · exact hp.isTail htail

end Segments

end NetBSD.Tcp
