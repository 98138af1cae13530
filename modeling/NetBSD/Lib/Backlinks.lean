import Mathlib.Data.List.Nodup
import Mathlib.Logic.Function.Basic

/-!
# Chains with back links

Cells on chains that begin at heads. Each cell has a link to the next one, and points back at the slot that points at it: a head,
or the link of the cell before it.
-/

namespace NetBSD.Lib

universe u v

variable {α : Type u} {β : Type v}

inductive Slot (α : Type u) (β : Type v) where
  | head (b : β)
  | next (a : α)
  deriving DecidableEq

theorem Slot.next_ne_head {a : α} {b : β} : (.next a : Slot α β) ≠ .head b := fun h => by cases h

theorem Slot.head_ne_next {a : α} {b : β} : (.head b : Slot α β) ≠ .next a := fun h => by cases h

theorem Slot.next_ne {a c : α} (h : c ≠ a) : (.next c : Slot α β) ≠ .next a := fun heq => h (Slot.next.inj heq)

structure Chains (α : Type u) (β : Type v) where
  val : Slot α β → Option α
  back : α → Option (Slot α β)

namespace Chains

variable {k k' : Chains α β} {s t : Slot α β} {a c : α} {b b' : β} {l l' : List α}

def Chain (k : Chains α β) : Slot α β → List α → Prop
  | s, [] => k.val s = none
  | s, a :: l => k.val s = some a ∧ k.back a = some s ∧ Chain k (.next a) l

def endOf (s : Slot α β) (l : List α) : Slot α β := l.getLast?.elim s .next

theorem endOf_cons : endOf s (a :: l) = endOf (.next a) l := by
  rw [endOf, endOf, List.getLast?_cons]
  cases l.getLast? with
  | none => rfl
  | some c => rfl

theorem endOf_mem (a : α) (l : List α) : ∃ c ∈ a :: l, endOf (.next a : Slot α β) l = .next c := by
  induction l generalizing a with
  | nil => exact ⟨a, List.mem_cons_self, rfl⟩
  | cons x l ih =>
    obtain ⟨c, hc, heq⟩ := ih x
    exact ⟨c, List.mem_cons_of_mem _ hc, endOf_cons.trans heq⟩

theorem endOf_concat : endOf s (l ++ [a]) = .next a := by
  rw [endOf, List.getLast?_concat]
  rfl

theorem Chain.head? (h : k.Chain s l) : k.val s = l.head? := by
  cases l with
  | nil => exact h
  | cons a l => exact h.1

theorem Chain.congr (h : k.Chain s l) (hs : k'.val s = k.val s) (hval : ∀ a ∈ l, k'.val (.next a) = k.val (.next a))
    (hback : ∀ a ∈ l, k'.back a = k.back a) : k'.Chain s l := by
  induction l generalizing s with
  | nil => exact hs.trans h
  | cons a l ih =>
    obtain ⟨hfirst, hlink, hrest⟩ := h
    exact ⟨hs.trans hfirst, (hback a List.mem_cons_self).trans hlink,
      ih hrest (hval a List.mem_cons_self) (fun c hc => hval c (List.mem_cons_of_mem _ hc))
        fun c hc => hback c (List.mem_cons_of_mem _ hc)⟩

theorem Chain.back_of_mem (h : k.Chain s l) (ha : a ∈ l) : k.back a = some s ∨ ∃ c ∈ l, k.back a = some (.next c) := by
  induction l generalizing s with
  | nil => exact absurd ha List.not_mem_nil
  | cons x l ih =>
    rcases List.mem_cons.1 ha with rfl | ha
    · exact .inl h.2.1
    · rcases ih h.2.2 ha with hback | ⟨c, hc, hback⟩
      · exact .inr ⟨x, List.mem_cons_self, hback⟩
      · exact .inr ⟨c, List.mem_cons_of_mem _ hc, hback⟩

theorem Chain.next_mem (h : k.Chain s l) (ha : a ∈ l) : ∀ c ∈ k.val (.next a), c ∈ l := by
  induction l generalizing s with
  | nil => exact absurd ha List.not_mem_nil
  | cons x l ih =>
    intro c hc
    rcases List.mem_cons.1 ha with rfl | ha
    · rw [h.2.2.head?] at hc
      exact List.mem_cons_of_mem _ (List.mem_of_mem_head? hc)
    · exact List.mem_cons_of_mem _ (ih h.2.2 ha c hc)

theorem Chain.next_of_append (h : k.Chain s (l ++ a :: l')) : k.val (.next a) = l'.head? := by
  induction l generalizing s with
  | nil => exact h.2.2.head?
  | cons x l ih => exact ih h.2.2

variable [DecidableEq α]

def relink (back : α → Option (Slot α β)) (p : Option α) (s : Slot α β) : α → Option (Slot α β) :=
  match p with
  | none => back
  | some q => Function.update back q (some s)

theorem relink_of_notMem {back : α → Option (Slot α β)} {p : Option α} (h : c ∉ p) : relink back p s c = back c := by
  cases p with
  | none => rfl
  | some q => exact Function.update_of_ne (fun heq => h (congrArg some heq.symm)) ..

variable [DecidableEq β]

def takeOut (k : Chains α β) (a : α) (s : Slot α β) : Chains α β :=
  { val := Function.update k.val s (k.val (.next a)), back := relink k.back (k.val (.next a)) s }

def unlink (k : Chains α β) (a : α) : Option (Chains α β) := (k.back a).map (k.takeOut a)

def clear (k : Chains α β) (a : α) : Chains α β :=
  { val := Function.update k.val (.next a) none, back := Function.update k.back a none }

def push (k : Chains α β) (b : β) (a : α) : Chains α β :=
  { val := Function.update (Function.update k.val (.next a) (k.val (.head b))) (.head b) (some a)
    back := Function.update (relink k.back (k.val (.head b)) (.next a)) a (some (.head b)) }

def attach (k : Chains α β) (t : Slot α β) (a : α) : Chains α β :=
  { val := Function.update (Function.update k.val (.next a) none) t (some a)
    back := Function.update k.back a (some t) }

theorem Chain.clear (h : k.Chain s l) (ha : a ∉ l) (hs : s ≠ .next a) : (k.clear a).Chain s l :=
  h.congr (Function.update_of_ne hs ..)
    (fun _ hc => Function.update_of_ne (Slot.next_ne (ne_of_mem_of_not_mem hc ha)) ..)
    fun _ hc => Function.update_of_ne (ne_of_mem_of_not_mem hc ha) ..

theorem Chain.takeOut_other (h : k.Chain s l) (hs : s ≠ t) (hslot : ∀ c ∈ l, .next c ≠ t) (hnext : ∀ c ∈ k.val (.next a), c ∉ l) :
    (k.takeOut a t).Chain s l :=
  h.congr (Function.update_of_ne hs ..) (fun c hc => Function.update_of_ne (hslot c hc) ..)
    fun c hc => relink_of_notMem fun hin => hnext c hin hc

theorem Chain.takeOut (h : k.Chain s l) (ha : a ∈ l) (hnodup : l.Nodup) (hs : ∀ c ∈ l, s ≠ .next c) (ht : k.back a = some t) :
    (k.takeOut a t).Chain s (l.erase a) := by
  induction l generalizing s with
  | nil => exact absurd ha List.not_mem_nil
  | cons x l ih =>
    obtain ⟨hx, hnodup'⟩ := List.nodup_cons.1 hnodup
    obtain ⟨hfirst, hback, hrest⟩ := h
    by_cases hax : a = x
    · subst hax
      obtain rfl : s = t := Option.some.inj (hback.symm.trans ht)
      rw [List.erase_cons_head]
      cases l with
      | nil => exact (Function.update_self ..).trans hrest
      | cons y l =>
        obtain ⟨hy, -, hrest⟩ := hrest
        refine ⟨(Function.update_self ..).trans hy, ?_, ?_⟩
        · rw [Chains.takeOut, hy]
          exact Function.update_self ..
        · refine hrest.takeOut_other (fun heq => hs y (List.mem_cons_of_mem _ List.mem_cons_self) heq.symm)
            (fun c hc heq => hs c (List.mem_cons_of_mem _ (List.mem_cons_of_mem _ hc)) heq.symm) fun c hc => ?_
          obtain rfl : y = c := Option.some.inj (hy.symm.trans hc)
          exact (List.nodup_cons.1 hnodup').1
    · have hal := (List.mem_cons.1 ha).resolve_left hax
      rw [List.erase_cons_tail (by simpa using fun heq : x = a => hax heq.symm)]
      have hst : s ≠ t := by
        rintro rfl
        rcases hrest.back_of_mem hal with heq | ⟨c, hc, heq⟩
        · exact hs x List.mem_cons_self (Option.some.inj (ht.symm.trans heq))
        · exact hs c (List.mem_cons_of_mem _ hc) (Option.some.inj (ht.symm.trans heq))
      refine ⟨(Function.update_of_ne hst ..).trans hfirst, ?_, ih hrest hal hnodup' fun c hc => (Slot.next_ne (ne_of_mem_of_not_mem hc hx)).symm⟩
      exact (relink_of_notMem fun hin => hx (hrest.next_mem hal x hin)).trans hback

theorem push_val_next : (k.push b a).val (.next a) = k.val (.head b) := by
  rw [push]
  dsimp only
  rw [Function.update_of_ne Slot.next_ne_head, Function.update_self]

theorem push_val_of_ne (hs : s ≠ .head b) (hsa : s ≠ .next a) : (k.push b a).val s = k.val s := by
  rw [push]
  dsimp only
  rw [Function.update_of_ne hs, Function.update_of_ne hsa]

theorem push_back_of_ne (hc : c ≠ a) : (k.push b a).back c = relink k.back (k.val (.head b)) (.next a) c :=
  Function.update_of_ne hc ..

theorem Chain.push (h : k.Chain (.head b) l) (hnodup : l.Nodup) (ha : a ∉ l) : (k.push b a).Chain (.head b) (a :: l) := by
  refine ⟨Function.update_self .., Function.update_self .., ?_⟩
  cases l with
  | nil => exact push_val_next.trans h
  | cons c l =>
    obtain ⟨hhead, -, hrest⟩ := h
    have hval : ∀ x ∈ c :: l, (k.push b a).val (.next x) = k.val (.next x) := fun x hx =>
      push_val_of_ne Slot.next_ne_head (Slot.next_ne (ne_of_mem_of_not_mem hx ha))
    have hback : ∀ x ∈ c :: l, (k.push b a).back x = relink k.back (some c) (.next a) x := fun x hx => by
      rw [push_back_of_ne (ne_of_mem_of_not_mem hx ha), hhead]
    have hc := (List.nodup_cons.1 hnodup).1
    refine ⟨push_val_next.trans hhead, (hback c List.mem_cons_self).trans (Function.update_self ..), ?_⟩
    refine hrest.congr (hval c List.mem_cons_self) (fun x hx => hval x (List.mem_cons_of_mem _ hx)) fun x hx => ?_
    refine (hback x (List.mem_cons_of_mem _ hx)).trans (relink_of_notMem fun hin => ?_)
    exact hc (Option.some.inj hin ▸ hx)

theorem Chain.push_other (h : k.Chain s l) (hs : s ≠ .head b) (hsa : s ≠ .next a) (ha : a ∉ l)
    (hnext : ∀ c ∈ k.val (.head b), c ∉ l) : (k.push b a).Chain s l :=
  h.congr (push_val_of_ne hs hsa)
    (fun _ hc => push_val_of_ne Slot.next_ne_head (Slot.next_ne (ne_of_mem_of_not_mem hc ha)))
    fun c hc => (push_back_of_ne (ne_of_mem_of_not_mem hc ha)).trans (relink_of_notMem fun hin => hnext c hin hc)

theorem Chain.attach (h : k.Chain s l) (ha : a ∉ l) (hsa : s ≠ .next a) (hnodup : l.Nodup) (hs : ∀ c ∈ l, s ≠ .next c) :
    (k.attach (endOf s l) a).Chain s (l ++ [a]) := by
  induction l generalizing s with
  | nil =>
    refine ⟨Function.update_self .., Function.update_self .., ?_⟩
    exact (Function.update_of_ne hsa.symm ..).trans (Function.update_self ..)
  | cons x l ih =>
    obtain ⟨hfirst, hback, hrest⟩ := h
    obtain ⟨hx, hnodup⟩ := List.nodup_cons.1 hnodup
    have hxa : x ≠ a := fun heq => ha (heq ▸ List.mem_cons_self)
    obtain ⟨c, hc, hend⟩ : ∃ c ∈ x :: l, endOf (.next x : Slot α β) l = .next c := endOf_mem x l
    rw [endOf_cons]
    refine ⟨?_, (Function.update_of_ne hxa ..).trans hback, ?_⟩
    · rw [hend]
      exact ((Function.update_of_ne (hs c hc) ..).trans (Function.update_of_ne hsa ..)).trans hfirst
    · exact ih hrest (fun hin => ha (List.mem_cons_of_mem _ hin)) (Slot.next_ne hxa) hnodup
        fun y hy => (Slot.next_ne (ne_of_mem_of_not_mem hy hx)).symm

theorem Chain.endOf_erase (h : k.Chain s l) (ha : a ∈ l) : ∃ t, k.back a = some t ∧
    (k.val (.next a) = none → endOf s (l.erase a) = t) ∧ (k.val (.next a) ≠ none → endOf s (l.erase a) = endOf s l) := by
  induction l generalizing s with
  | nil => exact absurd ha List.not_mem_nil
  | cons x l ih =>
    obtain ⟨-, hback, hrest⟩ := h
    by_cases hax : a = x
    · subst hax
      rw [List.erase_cons_head, hrest.head?]
      refine ⟨s, hback, fun hnone => ?_, fun hsome => ?_⟩
      · rw [List.head?_eq_none_iff.1 hnone]
        rfl
      · cases l with
        | nil => exact absurd rfl hsome
        | cons y l => rw [endOf_cons, endOf_cons, endOf_cons]
    · obtain ⟨t, ht, hlast, hnot⟩ := ih hrest ((List.mem_cons.1 ha).resolve_left hax)
      rw [List.erase_cons_tail (by simpa using fun heq : x = a => hax heq.symm), endOf_cons, endOf_cons]
      exact ⟨t, ht, hlast, hnot⟩

structure Hung (k : Chains α β) (chain : β → List α) : Prop where
  links : ∀ b, k.Chain (.head b) (chain b)
  nodup : ∀ b, (chain b).Nodup
  apart : ∀ b b' a, a ∈ chain b → a ∈ chain b' → b = b'
  off : ∀ a, (∀ b, a ∉ chain b) → k.back a = none

variable {chain : β → List α}

theorem Hung.back_of_mem (h : k.Hung chain) (ha : a ∈ chain b) :
    ∃ s, k.back a = some s ∧ (s = .head b ∨ ∃ c ∈ chain b, s = .next c) := by
  rcases (h.links b).back_of_mem ha with hback | ⟨c, hc, hback⟩
  · exact ⟨_, hback, .inl rfl⟩
  · exact ⟨_, hback, .inr ⟨c, hc, rfl⟩⟩

theorem Hung.mem_iff (h : k.Hung chain) : k.back a ≠ none ↔ ∃ b, a ∈ chain b := by
  constructor
  · intro hback
    by_contra hno
    exact hback (h.off a fun b hb => hno ⟨b, hb⟩)
  · rintro ⟨b, hb⟩ hnone
    obtain ⟨s, hs, -⟩ := h.back_of_mem hb
    cases hs.symm.trans hnone

theorem Hung.clear (h : k.Hung chain) (ha : ∀ b, a ∉ chain b) : (k.clear a).Hung chain where
  links b := (h.links b).clear (ha b) Slot.head_ne_next
  nodup := h.nodup
  apart := h.apart
  off c hc := by
    by_cases hca : c = a
    · exact hca ▸ Function.update_self ..
    · exact (Function.update_of_ne hca ..).trans (h.off c hc)

theorem Hung.unlink (h : k.Hung chain) (ha : a ∈ chain b) :
    ∃ k', k.unlink a = some k' ∧ (k'.clear a).Hung (Function.update chain b ((chain b).erase a)) := by
  obtain ⟨t, ht, hslot⟩ := h.back_of_mem ha
  have hnodup := (h.nodup b).erase a
  have hmem : ∀ b' c, c ∈ Function.update chain b ((chain b).erase a) b' → c ∈ chain b' ∧ c ≠ a := by
    intro b' c hc
    by_cases hb : b' = b
    · subst hb
      rw [Function.update_self] at hc
      exact ⟨List.mem_of_mem_erase hc, fun heq => (h.nodup b').not_mem_erase (heq ▸ hc)⟩
    · rw [Function.update_of_ne hb] at hc
      exact ⟨hc, fun heq => hb (h.apart b' b a (heq ▸ hc) ha)⟩
  refine ⟨k.takeOut a t, by rw [Chains.unlink, ht]; rfl, fun b' => ?_, fun b' => ?_, fun b₁ b₂ c h₁ h₂ => ?_, fun c hc => ?_⟩
  · refine Chain.clear ?_ (fun hc => (hmem b' a hc).2 rfl) Slot.head_ne_next
    by_cases hb : b' = b
    · subst hb
      rw [Function.update_self]
      exact (h.links b').takeOut ha (h.nodup b') (fun _ _ => Slot.head_ne_next) ht
    · rw [Function.update_of_ne hb]
      refine (h.links b').takeOut_other ?_ (fun c hc => ?_) fun c hc hc' => hb (h.apart b' b c hc' ((h.links b).next_mem ha c hc))
      · rcases hslot with rfl | ⟨c, -, rfl⟩
        · exact fun heq => hb (Slot.head.inj heq)
        · exact Slot.head_ne_next
      · rcases hslot with rfl | ⟨d, hd, rfl⟩
        · exact Slot.next_ne_head
        · exact fun heq => hb (h.apart b' b c hc (Slot.next.inj heq ▸ hd))
  · by_cases hb : b' = b
    · subst hb
      rw [Function.update_self]
      exact hnodup
    · rw [Function.update_of_ne hb]
      exact h.nodup b'
  · exact h.apart b₁ b₂ c (hmem b₁ c h₁).1 (hmem b₂ c h₂).1
  · by_cases hca : c = a
    · exact hca ▸ Function.update_self ..
    · have hoff : ∀ b', c ∉ chain b' := fun b' hb' => hc b' (by
        by_cases hb : b' = b
        · subst hb
          rw [Function.update_self]
          exact (List.mem_erase_of_ne hca).2 hb'
        · rwa [Function.update_of_ne hb])
      refine (Function.update_of_ne hca ..).trans ((relink_of_notMem fun hin => ?_).trans (h.off c hoff))
      exact hoff b ((h.links b).next_mem ha c hin)

theorem Hung.push (h : k.Hung chain) (ha : ∀ b', a ∉ chain b') : (k.push b a).Hung (Function.update chain b (a :: chain b)) := by
  have hhead : ∀ c ∈ k.val (.head b), c ∈ chain b := fun c hc => by
    rw [(h.links b).head?] at hc
    exact List.mem_of_mem_head? hc
  have hmem : ∀ b' c, c ∈ Function.update chain b (a :: chain b) b' ↔ c ∈ chain b' ∨ c = a ∧ b' = b := by
    intro b' c
    by_cases hb : b' = b
    · subst hb
      rw [Function.update_self, List.mem_cons]
      exact ⟨fun hc => hc.elim (fun hc => .inr ⟨hc, rfl⟩) .inl, fun hc => hc.elim .inr fun hc => .inl hc.1⟩
    · rw [Function.update_of_ne hb]
      exact ⟨.inl, fun hc => hc.elim id fun hc => absurd hc.2 hb⟩
  refine ⟨fun b' => ?_, fun b' => ?_, fun b₁ b₂ c h₁ h₂ => ?_, fun c hc => ?_⟩
  · by_cases hb : b' = b
    · subst hb
      rw [Function.update_self]
      exact (h.links b').push (h.nodup b') (ha b')
    · rw [Function.update_of_ne hb]
      exact (h.links b').push_other (fun heq => hb (Slot.head.inj heq)) Slot.head_ne_next (ha b')
        fun c hc hc' => hb (h.apart b' b c hc' (hhead c hc))
  · by_cases hb : b' = b
    · subst hb
      rw [Function.update_self]
      exact List.nodup_cons.2 ⟨ha b', h.nodup b'⟩
    · rw [Function.update_of_ne hb]
      exact h.nodup b'
  · rcases (hmem b₁ c).1 h₁ with hc₁ | ⟨hca, hb₁⟩
    · rcases (hmem b₂ c).1 h₂ with hc₂ | ⟨hca, -⟩
      · exact h.apart b₁ b₂ c hc₁ hc₂
      · exact absurd (hca ▸ hc₁) (ha b₁)
    · rcases (hmem b₂ c).1 h₂ with hc₂ | ⟨-, hb₂⟩
      · exact absurd (hca ▸ hc₂) (ha b₂)
      · exact hb₁.trans hb₂.symm
  · have hca : c ≠ a := fun heq => hc b ((hmem b c).2 (.inr ⟨heq, rfl⟩))
    have hoff : ∀ b', c ∉ chain b' := fun b' hb' => hc b' ((hmem b' c).2 (.inl hb'))
    exact (Function.update_of_ne hca ..).trans ((relink_of_notMem fun hin => hoff b (hhead c hin)).trans (h.off c hoff))

end Chains

structure Deque (α : Type u) where
  chains : Chains α Unit
  tail : Slot α Unit

namespace Deque

variable [DecidableEq α] {q : Deque α} {a : α} {l : List α}

def remove (q : Deque α) (a : α) : Option (Deque α) :=
  (q.chains.back a).map fun s => ⟨q.chains.takeOut a s, if (q.chains.val (.next a)).isNone then s else q.tail⟩

def pushFront (q : Deque α) (a : α) : Deque α :=
  ⟨q.chains.push () a, if (q.chains.val (.head ())).isNone then .next a else q.tail⟩

def pushBack (q : Deque α) (a : α) : Deque α := ⟨q.chains.attach q.tail a, .next a⟩

structure Holds (q : Deque α) (l : List α) : Prop where
  chain : q.chains.Chain (.head ()) l
  nodup : l.Nodup
  tail : q.tail = Chains.endOf (.head ()) l

theorem Holds.pushBack (h : q.Holds l) (ha : a ∉ l) : (q.pushBack a).Holds (l ++ [a]) where
  chain := by
    rw [Deque.pushBack, h.tail]
    exact h.chain.attach ha Slot.head_ne_next h.nodup fun _ _ => Slot.head_ne_next
  nodup := List.nodup_append.2 ⟨h.nodup, List.nodup_singleton a, fun x hx y hy heq => ha (List.mem_singleton.1 hy ▸ heq ▸ hx)⟩
  tail := Chains.endOf_concat.symm

theorem Holds.pushFront (h : q.Holds l) (ha : a ∉ l) : (q.pushFront a).Holds (a :: l) where
  chain := h.chain.push h.nodup ha
  nodup := List.nodup_cons.2 ⟨ha, h.nodup⟩
  tail := by
    rw [Deque.pushFront, h.chain.head?, h.tail, Chains.endOf_cons]
    cases l with
    | nil => rfl
    | cons c l =>
      rw [Chains.endOf_cons, Chains.endOf_cons]
      rfl

theorem Holds.remove (h : q.Holds l) (ha : a ∈ l) : ∃ q', q.remove a = some q' ∧ q'.Holds (l.erase a) := by
  obtain ⟨t, ht, hlast, hnot⟩ := h.chain.endOf_erase ha
  refine ⟨_, by rw [Deque.remove, ht]; rfl, h.chain.takeOut ha h.nodup (fun _ _ => Slot.head_ne_next) ht, h.nodup.erase a, ?_⟩
  cases hnext : q.chains.val (.next a) with
  | none => exact (hlast hnext).symm
  | some c => exact h.tail.trans (hnot (hnext ▸ Option.some_ne_none c)).symm

end Deque

end NetBSD.Lib
