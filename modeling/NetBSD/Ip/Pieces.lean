import NetBSD.Ip.Input
import NetBSD.Lib.Reassembly

/-!
# A queue of fragments is a queue of pieces

A fragment whose end is still a `short` is a piece of its datagram's data, and what `ip_reass` does to
a queue of such fragments is to place a piece in it. Its walk along the queue finds no gap exactly when
all of the queue continues from position zero.
-/

namespace NetBSD.Ip

open NetBSD.Lib

def Ipasfrag.piece (f : Ipasfrag) : Piece Byte Bool := ⟨f.ipOff.toNat, f.data, f.more⟩

/-- The length field is the length, and the fragment ends at a position that is still a `short`. -/
structure Ipasfrag.Sound (f : Ipasfrag) : Prop where
  finish_lt : f.piece.finish < 2 ^ 15
  ipLen_eq : f.ipLen.toNat = f.data.length

section Piece

variable {f ip prev : Ipasfrag}

theorem Ipasfrag.Sound.toInt (h : f.Sound) :
    f.ipOff.toInt = f.piece.start ∧ f.ipLen.toInt = f.piece.data.length := by
  have hfinish := h.finish_lt
  have hlen := h.ipLen_eq
  simp only [Ipasfrag.piece, Piece.finish] at hfinish ⊢
  constructor
  · rw [BitVec.toInt_eq_toNat_of_lt (by omega)]
  · rw [BitVec.toInt_eq_toNat_of_lt (by omega), hlen]

theorem Ipasfrag.Sound.trim (h : f.Sound) {n : Nat} (hn : n ≤ f.data.length) :
    (f.trim n).Sound ∧ (f.trim n).piece = f.piece.dropFront n := by
  have hfinish := h.finish_lt
  have hlen := h.ipLen_eq
  simp only [Ipasfrag.piece, Piece.finish] at hfinish
  have hoff : (f.trim n).ipOff.toNat = f.ipOff.toNat + n := by
    simp only [Ipasfrag.trim, BitVec.ofInt_natCast, BitVec.toNat_add, BitVec.toNat_ofNat]
    omega
  have hdata : (f.trim n).data = f.data.drop n := by simp [Ipasfrag.trim]
  refine ⟨⟨?_, ?_⟩, ?_⟩
  · simp only [Ipasfrag.piece, Piece.finish, hoff, hdata, List.length_drop]
    omega
  · rw [hdata, List.length_drop]
    simp only [Ipasfrag.trim, BitVec.ofInt_natCast, BitVec.toNat_sub, BitVec.toNat_ofNat]
    omega
  · simp only [Ipasfrag.piece, Piece.dropFront, hoff, hdata]
    rfl

theorem reassPreceding_piece {prev : Option Ipasfrag} (hprev : ∀ f ∈ prev, f.Sound) (hip : ip.Sound) :
    (reassPreceding prev ip).map Ipasfrag.piece = trimPreceding (prev.map Ipasfrag.piece) ip.piece
      ∧ ∀ f ∈ reassPreceding prev ip, f.Sound := by
  cases prev with
  | none => exact ⟨rfl, fun f hf => Option.some.inj hf ▸ hip⟩
  | some prev =>
    obtain ⟨hoff, hlen⟩ := (hprev prev rfl).toInt
    obtain ⟨hoff', hlen'⟩ := hip.toInt
    simp only [reassPreceding, Option.map_some, trimPreceding, hoff, hlen, hoff', hlen']
    have hfinish : prev.piece.finish = prev.piece.start + prev.piece.data.length := rfl
    have hfinish' : ip.piece.finish = ip.piece.start + ip.piece.data.length := rfl
    by_cases hover : prev.piece.finish ≤ ip.piece.start
    · rw [if_neg (by omega), if_pos hover]
      exact ⟨rfl, fun f hf => Option.some.inj hf ▸ hip⟩
    · rw [if_pos (by omega), if_neg hover]
      by_cases hall : ip.piece.finish ≤ prev.piece.finish
      · rw [if_pos (by omega), if_pos hall]
        exact ⟨rfl, fun f hf => by simp at hf⟩
      · rw [if_neg (by omega), if_neg hall]
        obtain ⟨n, hn⟩ : ∃ n : Nat, n = prev.piece.finish - ip.piece.start := ⟨_, rfl⟩
        have hint : (prev.piece.start : Int) + prev.piece.data.length - ip.piece.start = n := by omega
        obtain ⟨hsound, hpiece⟩ := hip.trim (n := n) (show n ≤ ip.piece.data.length by omega)
        rw [hint, ← hn]
        exact ⟨congrArg some hpiece, fun f hf => Option.some.inj hf ▸ hsound⟩

theorem reassSucceeding_piece {frags : List Ipasfrag} (hfrags : ∀ f ∈ frags, f.Sound) (hip : ip.Sound) :
    (reassSucceeding ip frags).map Ipasfrag.piece
        = trimFollowing ip.piece.finish (frags.map Ipasfrag.piece)
      ∧ ∀ f ∈ reassSucceeding ip frags, f.Sound := by
  obtain ⟨hoff', hlen'⟩ := hip.toInt
  have hfinish' : ip.piece.finish = ip.piece.start + ip.piece.data.length := rfl
  induction frags with
  | nil => exact ⟨rfl, by simp [reassSucceeding]⟩
  | cons q rest ih =>
    have hq := hfrags q List.mem_cons_self
    obtain ⟨hoff, hlen⟩ := hq.toInt
    obtain ⟨hrest, hsound⟩ := ih fun f hf => hfrags f (List.mem_cons_of_mem _ hf)
    have hfinish : q.piece.finish = q.piece.start + q.piece.data.length := rfl
    simp only [reassSucceeding, List.map_cons, trimFollowing, hoff, hlen, hoff', hlen']
    by_cases hclear : ip.piece.finish ≤ q.piece.start
    · rw [if_neg (by omega), if_pos hclear]
      exact ⟨rfl, hfrags⟩
    · rw [if_pos (by omega), if_neg hclear]
      by_cases hpart : ip.piece.finish < q.piece.finish
      · rw [if_pos (by omega), if_pos hpart]
        obtain ⟨n, hn⟩ : ∃ n : Nat, n = ip.piece.finish - q.piece.start := ⟨_, rfl⟩
        have hint : (ip.piece.start : Int) + ip.piece.data.length - q.piece.start = n := by omega
        obtain ⟨hqsound, hqpiece⟩ := hq.trim (n := n) (show n ≤ q.piece.data.length by omega)
        rw [hint, ← hn, List.map_cons, hqpiece]
        refine ⟨rfl, fun f hf => ?_⟩
        rcases List.mem_cons.mp hf with rfl | hf
        · exact hqsound
        · exact hfrags f (List.mem_cons_of_mem _ hf)
      · rw [if_neg (by omega), if_neg hpart]
        exact ⟨hrest, hsound⟩

theorem reassInsert_piece {frags : List Ipasfrag} (hfrags : ∀ f ∈ frags, f.Sound) (hip : ip.Sound) :
    ((reassInsert frags ip).getD frags).map Ipasfrag.piece
        = place (frags.map Ipasfrag.piece) ip.piece
      ∧ ∀ f ∈ (reassInsert frags ip).getD frags, f.Sound := by
  have hsame : ∀ f ∈ frags,
      decide (f.ipOff.toInt ≤ ip.ipOff.toInt) = decide (f.piece.start ≤ ip.piece.start) := by
    intro f hf
    rw [(hfrags f hf).toInt.1, hip.toInt.1]
    simp
  have htake : ∀ {l : List Ipasfrag}, (∀ f ∈ l, f ∈ frags) →
      (l.takeWhile fun q => q.ipOff.toInt ≤ ip.ipOff.toInt).map Ipasfrag.piece
          = (l.map Ipasfrag.piece).takeWhile (fun q => q.start ≤ ip.piece.start)
        ∧ (l.dropWhile fun q => q.ipOff.toInt ≤ ip.ipOff.toInt).map Ipasfrag.piece
          = (l.map Ipasfrag.piece).dropWhile (fun q => q.start ≤ ip.piece.start) := by
    intro l hl
    induction l with
    | nil => exact ⟨rfl, rfl⟩
    | cons f l ih =>
      obtain ⟨hih₁, hih₂⟩ := ih fun g hg => hl g (List.mem_cons_of_mem _ hg)
      have hf := hsame f (hl f List.mem_cons_self)
      simp only [List.map_cons, List.takeWhile_cons, List.dropWhile_cons, hf]
      split
      · exact ⟨by rw [List.map_cons, hih₁], hih₂⟩
      · exact ⟨rfl, rfl⟩
  obtain ⟨hbefore, hafter⟩ := htake fun f hf => hf
  have hprev : ∀ f ∈ (frags.takeWhile fun q => q.ipOff.toInt ≤ ip.ipOff.toInt).getLast?, f.Sound :=
    fun f hf => hfrags f (List.takeWhile_subset _ (List.mem_of_getLast? hf))
  obtain ⟨hpre, hpreSound⟩ := reassPreceding_piece hprev hip
  simp only [reassInsert, place, ← hbefore, ← hafter, List.getLast?_map, ← hpre]
  cases hdrop : reassPreceding
      (frags.takeWhile fun q => q.ipOff.toInt ≤ ip.ipOff.toInt).getLast? ip with
  | none => exact ⟨rfl, hfrags⟩
  | some ip' =>
    have hip' := hpreSound ip' hdrop
    obtain ⟨hsucc, hsuccSound⟩ := reassSucceeding_piece
      (fun f hf => hfrags f (List.dropWhile_subset (fun q => q.ipOff.toInt ≤ ip.ipOff.toInt) hf)) hip'
    simp only [Option.map_some, Option.getD_some, List.map_append, List.map_cons, hsucc]
    refine ⟨trivial, fun f hf => ?_⟩
    rcases List.mem_append.mp hf with hf | hf
    · exact hfrags f (List.takeWhile_subset _ hf)
    · rcases List.mem_cons.mp hf with rfl | hf
      · exact hip'
      · exact hsuccSound f hf

theorem reassWalk_eq {frags : List Ipasfrag} {n : Nat} (hfrags : ∀ f ∈ frags, f.Sound) :
    reassWalk n frags =
      if (gather n (frags.map Ipasfrag.piece)).rest = [] then
        some ((gather n (frags.map Ipasfrag.piece)).upTo : Int)
      else none := by
  induction frags generalizing n with
  | nil => simp [reassWalk, gather]
  | cons q rest ih =>
    obtain ⟨hoff, hlen⟩ := (hfrags q List.mem_cons_self).toInt
    simp only [reassWalk, List.map_cons, gather, hoff, hlen]
    by_cases hq : q.piece.start = n
    · have hnext : (n : Int) + q.piece.data.length = (q.piece.finish : Nat) := by
        rw [Piece.finish, hq]
        push_cast
        rfl
      rw [if_neg (by omega), if_pos hq, hnext, ih fun f hf => hfrags f (List.mem_cons_of_mem _ hf)]
    · rw [if_neg hq, if_pos (by omega)]
      simp

end Piece

end NetBSD.Ip
