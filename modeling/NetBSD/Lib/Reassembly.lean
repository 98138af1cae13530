import Mathlib.Data.List.TakeWhile
import Mathlib.Data.Nat.Basic
import Mathlib.Tactic.ByContra

/-!
# Reassembly of a stream from pieces

A piece of a stream is a run of its elements and the position of the first. A queue of pieces in
order of position, no two of which overlap, takes a new piece by trimming its front against the piece
before it and the fronts of those after it against its end. What is covered afterwards is what was
covered before together with the new piece, every piece of the queue is a tail of one that was put
in, and pieces that agree with a stream stay so. The data at the head of the queue that continues
what was received up to `n` can be taken off, and is the next part of the stream.
-/

namespace NetBSD.Lib

universe u v

def slice {α : Type u} (stream : Nat → α) (start len : Nat) : List α :=
  (List.range len).map fun i => stream (start + i)

structure Piece (α : Type u) (τ : Type v) where
  start : Nat
  data : List α
  tag : τ

section Slice

variable {α : Type u} (stream : Nat → α) (start : Nat)

@[simp] theorem length_slice (len : Nat) : (slice stream start len).length = len := by
  simp [slice]

@[simp] theorem slice_zero : slice stream start 0 = [] := rfl

theorem slice_append (front back : Nat) :
    slice stream start front ++ slice stream (start + front) back
      = slice stream start (front + back) := by
  simp only [slice, List.range_add, List.map_append, List.map_map]
  congr 1
  apply List.map_congr_left
  intro i _
  simp [Nat.add_assoc]

theorem slice_getD (l : List α) (d : α) {n len : Nat} (hle : n + len ≤ l.length) :
    slice (fun i => l.getD i d) n len = (l.drop n).take len := by
  apply List.ext_getElem
  · simp only [length_slice, List.length_take, List.length_drop]
    omega
  · intro i hi _
    simp only [length_slice] at hi
    simp [slice, List.getElem_take, List.getElem_drop, show n + i < l.length by omega]

theorem drop_slice {n len : Nat} (hle : n ≤ len) :
    (slice stream start len).drop n = slice stream (start + n) (len - n) := by
  obtain ⟨back, rfl⟩ := Nat.exists_eq_add_of_le hle
  rw [← slice_append, List.drop_left' (length_slice stream start n), Nat.add_sub_cancel_left]

end Slice

namespace Piece

variable {α : Type u} {τ : Type v} {stream : Nat → α} {p q : Piece α τ} {n i : Nat}

def finish (p : Piece α τ) : Nat := p.start + p.data.length

def dropFront (p : Piece α τ) (n : Nat) : Piece α τ := ⟨p.start + n, p.data.drop n, p.tag⟩

def Covers (p : Piece α τ) (i : Nat) : Prop := p.start ≤ i ∧ i < p.finish

def Agrees (stream : Nat → α) (p : Piece α τ) : Prop := p.data = slice stream p.start p.data.length

theorem start_le_finish (p : Piece α τ) : p.start ≤ p.finish := Nat.le_add_right _ _

theorem finish_dropFront (hn : n ≤ p.data.length) : (p.dropFront n).finish = p.finish := by
  simp only [finish, dropFront, List.length_drop]
  omega

def IsTail (p q : Piece α τ) : Prop := ∃ n, (n = 0 ∨ n < q.data.length) ∧ p = q.dropFront n

theorem IsTail.refl (p : Piece α τ) : p.IsTail p := ⟨0, Or.inl rfl, rfl⟩

theorem isTail_dropFront (hn : n < p.data.length) : (p.dropFront n).IsTail p := ⟨n, Or.inr hn, rfl⟩

theorem IsTail.finish_eq (h : p.IsTail q) : p.finish = q.finish := by
  obtain ⟨n, hn, rfl⟩ := h
  exact finish_dropFront (by omega)

theorem IsTail.start_le (h : p.IsTail q) : q.start ≤ p.start := by
  obtain ⟨n, _, rfl⟩ := h
  exact Nat.le_add_right _ _

theorem IsTail.tag_eq (h : p.IsTail q) : p.tag = q.tag := by
  obtain ⟨n, _, rfl⟩ := h
  rfl

theorem IsTail.nonempty (h : p.IsTail q) (hq : q.start < q.finish) : p.start < p.finish := by
  obtain ⟨n, hn, rfl⟩ := h
  rw [finish_dropFront (by omega)]
  simp only [finish, dropFront] at hq ⊢
  omega

theorem IsTail.agrees (h : p.IsTail q) (hq : q.Agrees stream) : p.Agrees stream := by
  obtain ⟨n, hn, rfl⟩ := h
  have hn' : n ≤ q.data.length := by omega
  show q.data.drop n = slice stream (q.start + n) (q.data.drop n).length
  rw [List.length_drop, ← drop_slice stream q.start hn', ← hq]

end Piece

section Queue

variable {α : Type u} {τ : Type v} {stream : Nat → α} {queue : List (Piece α τ)} {p x : Piece α τ}
  {n i : Nat}

def InOrder (queue : List (Piece α τ)) : Prop := queue.Pairwise fun a b => a.finish ≤ b.start

def Covered (queue : List (Piece α τ)) (i : Nat) : Prop := ∃ p ∈ queue, p.Covers i

@[simp] theorem covered_nil : ¬ Covered ([] : List (Piece α τ)) i := by simp [Covered]

@[simp] theorem covered_cons : Covered (p :: queue) i ↔ p.Covers i ∨ Covered queue i := by
  simp [Covered]

theorem covered_append {front back : List (Piece α τ)} :
    Covered (front ++ back) i ↔ Covered front i ∨ Covered back i := by
  simp only [Covered, List.mem_append, or_and_right, exists_or]

/-- Trim the fronts of the pieces that begin before `stop`, dropping those that also end by then. -/
def trimFollowing (stop : Nat) : List (Piece α τ) → List (Piece α τ)
  | [] => []
  | q :: rest =>
    if stop ≤ q.start then q :: rest
    else if stop < q.finish then q.dropFront (stop - q.start) :: rest
    else trimFollowing stop rest

def trimPreceding (prev : Option (Piece α τ)) (p : Piece α τ) : Option (Piece α τ) :=
  match prev with
  | none => some p
  | some prev =>
    if prev.finish ≤ p.start then some p
    else if p.finish ≤ prev.finish then none
    else some (p.dropFront (prev.finish - p.start))

def place (queue : List (Piece α τ)) (p : Piece α τ) : List (Piece α τ) :=
  let before := queue.takeWhile fun q => q.start ≤ p.start
  let after := queue.dropWhile fun q => q.start ≤ p.start
  match trimPreceding before.getLast? p with
  | none => queue
  | some p => before ++ p :: trimFollowing p.finish after

theorem trimFollowing_nil (stop : Nat) : trimFollowing stop ([] : List (Piece α τ)) = [] := rfl

theorem trimFollowing_cons (stop : Nat) (q : Piece α τ) (rest : List (Piece α τ)) : trimFollowing stop (q :: rest) =
    if stop ≤ q.start then q :: rest
    else if stop < q.finish then q.dropFront (stop - q.start) :: rest
    else trimFollowing stop rest := rfl

theorem InOrder.start_le_of_mem (h : InOrder (p :: queue)) (hx : x ∈ queue) : p.finish ≤ x.start :=
  (List.pairwise_cons.mp h).1 x hx

theorem InOrder.tail (h : InOrder (p :: queue)) : InOrder queue := (List.pairwise_cons.mp h).2

theorem mem_trimFollowing {stop : Nat} (hx : x ∈ trimFollowing stop queue) :
    ∃ y ∈ queue, x.IsTail y := by
  induction queue with
  | nil => exact absurd hx List.not_mem_nil
  | cons q rest ih =>
    rw [trimFollowing_cons] at hx
    split at hx
    · exact ⟨x, hx, .refl x⟩
    · split at hx
      · rcases List.mem_cons.mp hx with rfl | hx
        · exact ⟨q, List.mem_cons_self, Piece.isTail_dropFront (by simp only [Piece.finish] at *; omega)⟩
        · exact ⟨x, List.mem_cons_of_mem _ hx, .refl x⟩
      · obtain ⟨y, hy, htail⟩ := ih hx
        exact ⟨y, List.mem_cons_of_mem _ hy, htail⟩

theorem le_start_of_mem_trimFollowing {stop : Nat} (h : InOrder queue)
    (hx : x ∈ trimFollowing stop queue) : stop ≤ x.start := by
  induction queue with
  | nil => exact absurd hx List.not_mem_nil
  | cons q rest ih =>
    rw [trimFollowing_cons] at hx
    have hrest : ∀ y ∈ rest, q.finish ≤ y.start := fun y => h.start_le_of_mem
    have hq := q.start_le_finish
    split at hx
    · rcases List.mem_cons.mp hx with rfl | hx
      · assumption
      · have := hrest x hx
        omega
    · split at hx
      · rcases List.mem_cons.mp hx with rfl | hx
        · simp only [Piece.dropFront]
          omega
        · have := hrest x hx
          omega
      · exact ih h.tail hx

theorem inOrder_trimFollowing {stop : Nat} (h : InOrder queue) : InOrder (trimFollowing stop queue) := by
  induction queue with
  | nil => exact h
  | cons q rest ih =>
    rw [trimFollowing_cons]
    split
    · exact h
    · split
      · refine List.pairwise_cons.mpr ⟨fun y hy => ?_, h.tail⟩
        rw [Piece.finish_dropFront (by simp only [Piece.finish] at *; omega)]
        exact h.start_le_of_mem hy
      · exact ih h.tail

theorem covered_trimFollowing {stop : Nat} (h : InOrder queue) :
    Covered (trimFollowing stop queue) i ↔ stop ≤ i ∧ Covered queue i := by
  induction queue with
  | nil => simp [trimFollowing_nil]
  | cons q rest ih =>
    have hrest : Covered rest i → q.finish ≤ i := by
      rintro ⟨y, hy, hyi⟩
      exact (h.start_le_of_mem hy).trans hyi.1
    have hq := q.start_le_finish
    rw [trimFollowing_cons]
    split
    · simp only [covered_cons, Piece.Covers]
      constructor
      · rintro (hi | hi)
        · exact ⟨by omega, Or.inl hi⟩
        · exact ⟨by have := hrest hi; omega, Or.inr hi⟩
      · exact fun hi => hi.2
    · split
      · simp only [covered_cons, Piece.Covers]
        rw [Piece.finish_dropFront (by simp only [Piece.finish] at *; omega)]
        simp only [Piece.dropFront]
        constructor
        · rintro (hi | hi)
          · exact ⟨by omega, Or.inl (by omega)⟩
          · exact ⟨by have := hrest hi; omega, Or.inr hi⟩
        · rintro ⟨hstop, hi | hi⟩
          · exact Or.inl (by omega)
          · exact Or.inr hi
      · rw [ih h.tail, covered_cons]
        simp only [Piece.Covers]
        constructor
        · exact fun hi => ⟨hi.1, Or.inr hi.2⟩
        · rintro ⟨hstop, hi | hi⟩
          · omega
          · exact ⟨hstop, hi⟩

theorem isTail_of_trimPreceding {prev : Option (Piece α τ)} {p' : Piece α τ}
    (h : trimPreceding prev p = some p') : p'.IsTail p := by
  cases prev with
  | none =>
    simp only [trimPreceding, Option.some.injEq] at h
    exact h ▸ .refl p
  | some prev =>
    simp only [trimPreceding] at h
    split at h
    · exact Option.some.inj h ▸ .refl p
    · split at h
      · simp at h
      · rw [← Option.some.inj h]
        apply Piece.isTail_dropFront
        simp only [Piece.finish] at *
        omega

theorem mem_place (hx : x ∈ place queue p) : ∃ y, (y ∈ queue ∨ y = p) ∧ x.IsTail y := by
  simp only [place] at hx
  split at hx
  · exact ⟨x, Or.inl hx, .refl x⟩
  · next p' htrim =>
    rcases List.mem_append.mp hx with hx | hx
    · exact ⟨x, Or.inl (List.takeWhile_subset _ hx), .refl x⟩
    · rcases List.mem_cons.mp hx with rfl | hx
      · exact ⟨p, Or.inr rfl, isTail_of_trimPreceding htrim⟩
      · obtain ⟨y, hy, htail⟩ := mem_trimFollowing hx
        exact ⟨y, Or.inl (List.dropWhile_subset _ hy), htail⟩

theorem takeWhile_start_le (h : InOrder queue) (n : Nat) :
    (∀ x ∈ queue.takeWhile fun q => q.start ≤ n, x.start ≤ n)
      ∧ ∀ x ∈ queue.dropWhile fun q => q.start ≤ n, n < x.start := by
  constructor
  · intro x hx
    simpa using List.mem_takeWhile_imp hx
  · induction queue with
    | nil => simp
    | cons q rest ih =>
      by_cases hq : q.start ≤ n
      · simpa [hq] using ih h.tail
      · intro x hx
        rw [List.dropWhile_cons_of_neg (by simpa using hq)] at hx
        rcases List.mem_cons.mp hx with rfl | hx
        · omega
        · have := h.start_le_of_mem hx
          have := q.start_le_finish
          omega

theorem finish_le_getLast {last : Piece α τ} (h : InOrder queue) (hlast : queue.getLast? = some last)
    (hx : x ∈ queue) : x.finish ≤ last.finish := by
  obtain ⟨front, rfl⟩ := List.getLast?_eq_some_iff.mp hlast
  rcases List.mem_append.mp hx with hx | hx
  · have hle : x.finish ≤ last.start := (List.pairwise_append.mp h).2.2 x hx last (by simp)
    exact hle.trans last.start_le_finish
  · rw [List.mem_singleton.mp hx]

theorem le_start_of_trimPreceding {p' : Piece α τ} (h : InOrder queue)
    (htrim : trimPreceding queue.getLast? p = some p') (hx : x ∈ queue) : x.finish ≤ p'.start := by
  cases hlast : queue.getLast? with
  | none => simp [List.getLast?_eq_none_iff.mp hlast] at hx
  | some last =>
    have hle := finish_le_getLast h hlast hx
    simp only [hlast, trimPreceding] at htrim
    split at htrim
    · rw [← Option.some.inj htrim]
      omega
    · split at htrim
      · simp at htrim
      · rw [← Option.some.inj htrim]
        simp only [Piece.dropFront]
        omega

theorem inOrder_place (h : InOrder queue) : InOrder (place queue p) := by
  simp only [place]
  split
  · exact h
  · next p' htrim =>
    have hfront : InOrder (queue.takeWhile fun q => q.start ≤ p.start) :=
      List.Pairwise.sublist (List.takeWhile_sublist _) h
    have hback : InOrder (queue.dropWhile fun q => q.start ≤ p.start) :=
      List.Pairwise.sublist (List.dropWhile_sublist _) h
    refine List.pairwise_append.mpr ⟨hfront, List.pairwise_cons.mpr ⟨fun y hy => ?_, ?_⟩, ?_⟩
    · exact le_start_of_mem_trimFollowing hback hy
    · exact inOrder_trimFollowing hback
    · intro a ha b hb
      have hap := le_start_of_trimPreceding hfront htrim ha
      rcases List.mem_cons.mp hb with rfl | hb
      · exact hap
      · have := le_start_of_mem_trimFollowing hback hb
        have := p'.start_le_finish
        omega

theorem covered_place (h : InOrder queue) :
    Covered (place queue p) i ↔ Covered queue i ∨ p.Covers i := by
  obtain ⟨hbefore, hafter⟩ := takeWhile_start_le h p.start
  have hsplit : Covered queue i ↔ Covered (queue.takeWhile fun q => q.start ≤ p.start) i
      ∨ Covered (queue.dropWhile fun q => q.start ≤ p.start) i := by
    rw [← covered_append, List.takeWhile_append_dropWhile]
  have hfront : InOrder (queue.takeWhile fun q => q.start ≤ p.start) :=
    List.Pairwise.sublist (List.takeWhile_sublist _) h
  have hback : InOrder (queue.dropWhile fun q => q.start ≤ p.start) :=
    List.Pairwise.sublist (List.dropWhile_sublist _) h
  have hstart : Covered (queue.dropWhile fun q => q.start ≤ p.start) i → p.start < i := by
    rintro ⟨y, hy, hyi⟩
    have hy := hafter y hy
    have := hyi.1
    omega
  rw [hsplit]
  simp only [place]
  cases htrim : trimPreceding (queue.takeWhile fun q => q.start ≤ p.start).getLast? p with
  | none =>
    -- the piece before it has all of it already
    simp only
    rw [hsplit]
    refine ⟨Or.inl, fun hi => hi.elim id fun hi => Or.inl ?_⟩
    cases hlast : (queue.takeWhile fun q => q.start ≤ p.start).getLast? with
    | none => simp [hlast, trimPreceding] at htrim
    | some last =>
      have hmem := List.mem_of_getLast? hlast
      have hstart := hbefore last hmem
      simp only [hlast, trimPreceding] at htrim
      split at htrim
      · simp at htrim
      · split at htrim
        · exact ⟨last, hmem, by have := hi.1; omega, by have := hi.2; omega⟩
        · simp at htrim
  | some p' =>
    simp only
    rw [covered_append, covered_cons, covered_trimFollowing hback]
    have htail := isTail_of_trimPreceding htrim
    have hstart' := htail.start_le
    have hfinish := htail.finish_eq
    have hcut : p.Covers i → i < p'.start → Covered (queue.takeWhile fun q => q.start ≤ p.start) i := by
      intro hi hlt
      cases hlast : (queue.takeWhile fun q => q.start ≤ p.start).getLast? with
      | none =>
        simp only [hlast, trimPreceding, Option.some.injEq] at htrim
        have := hi.1
        subst htrim
        omega
      | some last =>
        have hmem := List.mem_of_getLast? hlast
        have hlastStart := hbefore last hmem
        have hpstart := hi.1
        simp only [hlast, trimPreceding] at htrim
        split at htrim
        · rw [← Option.some.inj htrim] at hlt
          omega
        · split at htrim
          · simp at htrim
          · rw [← Option.some.inj htrim] at hlt
            simp only [Piece.dropFront] at hlt
            exact ⟨last, hmem, by omega, by omega⟩
    constructor
    · rintro (hi | hi | hi)
      · exact Or.inl (Or.inl hi)
      · exact Or.inr ⟨by have := hi.1; omega, by have := hi.2; omega⟩
      · exact Or.inl (Or.inr hi.2)
    · rintro ((hi | hi) | hi)
      · exact Or.inl hi
      · by_cases hle : p'.finish ≤ i
        · exact Or.inr (Or.inr ⟨hle, hi⟩)
        · have hpi : p.Covers i := ⟨by have := hstart hi; omega, by omega⟩
          by_cases hlt : i < p'.start
          · exact Or.inl (hcut hpi hlt)
          · exact Or.inr (Or.inl ⟨by omega, by omega⟩)
      · by_cases hlt : i < p'.start
        · exact Or.inl (hcut hi hlt)
        · exact Or.inr (Or.inl ⟨by omega, by have := hi.2; omega⟩)

end Queue

section Gather

variable {α : Type u} {τ : Type v} {stream : Nat → α} {queue : List (Piece α τ)} {n i : Nat}

/-- What the head of the queue adds to a stream received up to `n`: the new position, the data, the
pieces used and those left. -/
structure Gathered (α : Type u) (τ : Type v) where
  upTo : Nat
  data : List α
  used : List (Piece α τ)
  rest : List (Piece α τ)

def gather (n : Nat) : List (Piece α τ) → Gathered α τ
  | [] => ⟨n, [], [], []⟩
  | p :: queue =>
    if p.start = n then
      let out := gather p.finish queue
      ⟨out.upTo, p.data ++ out.data, p :: out.used, out.rest⟩
    else ⟨n, [], [], p :: queue⟩

theorem gather_cons (n : Nat) (p : Piece α τ) (queue : List (Piece α τ)) : gather n (p :: queue) =
    if p.start = n then
      ⟨(gather p.finish queue).upTo, p.data ++ (gather p.finish queue).data, p :: (gather p.finish queue).used,
        (gather p.finish queue).rest⟩
    else ⟨n, [], [], p :: queue⟩ := rfl

theorem gather_append : (gather n queue).used ++ (gather n queue).rest = queue := by
  induction queue generalizing n with
  | nil => rfl
  | cons p queue ih =>
    rw [gather_cons]
    split
    · simp [ih]
    · rfl

theorem flatMap_used_gather : (gather n queue).used.flatMap Piece.data = (gather n queue).data := by
  induction queue generalizing n with
  | nil => rfl
  | cons p queue ih =>
    rw [gather_cons]
    split
    · simp [ih]
    · rfl

theorem le_upTo_gather : n ≤ (gather n queue).upTo := by
  induction queue generalizing n with
  | nil => exact le_refl n
  | cons p queue ih =>
    rw [gather_cons]
    split
    · next h => exact (h ▸ p.start_le_finish).trans ih
    · exact le_refl n

theorem data_gather (hagrees : ∀ p ∈ queue, p.Agrees stream) :
    (gather n queue).data = slice stream n ((gather n queue).upTo - n) := by
  induction queue generalizing n with
  | nil => simp [gather]
  | cons p queue ih =>
    rw [gather_cons]
    split
    · next h =>
      subst h
      have hp : p.data = slice stream p.start p.data.length := hagrees p List.mem_cons_self
      have hle : p.finish ≤ (gather p.finish queue).upTo := le_upTo_gather
      have hrest := ih (n := p.finish) fun q hq => hagrees q (List.mem_cons_of_mem _ hq)
      simp only
      rw [hrest, hp, Piece.finish, slice_append]
      congr 1
      simp only [Piece.finish] at hle
      omega
    · simp

theorem upTo_lt_of_mem_rest (h : InOrder queue) (hn : ∀ p ∈ queue, n ≤ p.start) {p : Piece α τ}
    (hp : p ∈ (gather n queue).rest) : (gather n queue).upTo < p.start := by
  induction queue generalizing n with
  | nil => simp [gather] at hp
  | cons q queue ih =>
    rw [gather_cons] at hp ⊢
    split
    · next heq =>
      simp only [heq, if_true] at hp
      exact ih h.tail (fun x hx => h.start_le_of_mem hx) hp
    · next hne =>
      simp only [hne, if_false] at hp
      have hq := hn q List.mem_cons_self
      rcases List.mem_cons.mp hp with rfl | hp
      · simp only
        omega
      · have := h.start_le_of_mem hp
        have := q.start_le_finish
        simp only
        omega

theorem covered_gather : Covered (gather n queue).used i ↔ n ≤ i ∧ i < (gather n queue).upTo := by
  induction queue generalizing n with
  | nil =>
    simp only [gather, covered_nil, false_iff]
    omega
  | cons p queue ih =>
    rw [gather_cons]
    split
    · next h =>
      subst h
      have hle : p.finish ≤ (gather p.finish queue).upTo := le_upTo_gather
      have hp := p.start_le_finish
      simp only [covered_cons, ih, Piece.Covers]
      omega
    · simp only [covered_nil, false_iff]
      omega

theorem upTo_eq_finish_getLast {last : Piece α τ} (h : (gather n queue).used.getLast? = some last) :
    (gather n queue).upTo = last.finish := by
  induction queue generalizing n with
  | nil => simp [gather] at h
  | cons p queue ih =>
    rw [gather_cons] at h ⊢
    split
    · next heq =>
      simp only [heq, if_true, List.getLast?_cons] at h ⊢
      cases hused : (gather p.finish queue).used.getLast? with
      | none =>
        simp only [hused, Option.getD_none, Option.some.injEq] at h
        subst h
        have hnil := List.getLast?_eq_none_iff.mp hused
        cases queue with
        | nil => rfl
        | cons q queue =>
          rw [gather_cons] at hnil ⊢
          split at hnil
          · simp at hnil
          · next hne => rw [if_neg hne]
      | some l =>
        simp only [hused, Option.getD_some, Option.some.injEq] at h
        subst h
        exact ih hused
    · next hne => simp [hne] at h

end Gather

end NetBSD.Lib
