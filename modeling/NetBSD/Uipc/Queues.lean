import NetBSD.Uipc.Socket

/-!
# The queues of pending connections

What links and lengths say of the queues, and what putting a socket on one and taking it off do to them.
-/

namespace NetBSD.Uipc

open Lib (Linked lastFrom lastFrom_of_linked linked_append linked_concat)

variable {m m' : Sockets} {q : Nat → Which → List Nat} {a b so head : Nat} {s p : Socket} {w w' : Which}
  {f : Socket → Socket}

@[simp] theorem modify_self : m.modify a f a = (m a).map f := Function.update_self ..

@[simp] theorem modify_of_ne (h : b ≠ a) : m.modify a f b = m b := Function.update_of_ne h ..

structure Consistent (m : Sockets) (q : Nat → Which → List Nat) : Prop where
  linked : ∀ a p, m a = some p → p.soHead = none → ∀ w, Linked (m.next w) (p.soq w) (q a w) none
  len : ∀ a p, m a = some p → ∀ w, p.soqlen w = (q a w).length
  pending : ∀ b s head, m b = some s → s.soHead = some head → ∃! w, b ∈ q head w
  listed : ∀ head w b, b ∈ q head w →
    (∃ p, m head = some p ∧ p.soHead = none) ∧ ∃ s, m b = some s ∧ s.soHead = some head

namespace Consistent

theorem pending_nil (h : Consistent m q) (hb : m b = some s) (hhead : s.soHead ≠ none) (w : Which) : q b w = [] := by
  apply List.eq_nil_iff_forall_not_mem.mpr
  intro c hc
  obtain ⟨⟨p, hp, hnone⟩, -⟩ := h.listed b w c hc
  rw [hb] at hp
  exact hhead (Option.some.inj hp ▸ hnone)

theorem head_of_mem (h : Consistent m q) (hb : b ∈ q head w) (hs : m b = some s) : s.soHead = some head := by
  obtain ⟨-, s', hs', hhead⟩ := h.listed head w b hb
  rw [hs] at hs'
  exact Option.some.inj hs' ▸ hhead

theorem which_unique (h : Consistent m q) (hb : b ∈ q head w) (hb' : b ∈ q head w') : w = w' := by
  obtain ⟨-, s, hs, hhead⟩ := h.listed head w b hb
  exact (h.pending b s head hs hhead).unique hb hb'

theorem head_unique {head' : Nat} (h : Consistent m q) (hb : b ∈ q head w) (hb' : b ∈ q head' w') : head = head' := by
  obtain ⟨-, s, hs, hhead⟩ := h.listed head w b hb
  exact Option.some.inj (hhead.symm.trans (h.head_of_mem hb' hs))

theorem ne_head (h : Consistent m q) (hb : b ∈ q head w) (hp : m a = some p) (hnone : p.soHead = none) : b ≠ a := by
  rintro rfl
  rw [h.head_of_mem hb hp] at hnone
  cases hnone

theorem withHead (h : Consistent m q) (hp : m head = some p) (hnone : p.soHead = none) (w : Which) :
    Linked (m.next w) (some head) (head :: q head w) none := by
  refine ⟨rfl, ?_⟩
  have hnext : m.next w head = p.soq w := by rw [Sockets.next, hp]; rfl
  rw [hnext]
  exact h.linked head p hp hnone w

end Consistent

theorem Consistent.flags (h : Consistent m q) (hf : ∀ s, (f s).soHead = s.soHead ∧ (f s).soq = s.soq ∧
    (f s).soqlen = s.soqlen) : Consistent (m.modify a f) q := by
  have hback : ∀ b s', m.modify a f b = some s' → ∃ s, m b = some s ∧ s'.soHead = s.soHead ∧ s'.soq = s.soq ∧
      s'.soqlen = s.soqlen := by
    intro b s' hb
    by_cases hba : b = a
    · subst hba
      rw [modify_self] at hb
      obtain ⟨s, hs, rfl⟩ := Option.map_eq_some_iff.mp hb
      exact ⟨s, hs, hf s⟩
    · rw [modify_of_ne hba] at hb
      exact ⟨s', hb, rfl, rfl, rfl⟩
  have hforth : ∀ b s, m b = some s → ∃ s', m.modify a f b = some s' ∧ s'.soHead = s.soHead := by
    intro b s hb
    by_cases hba : b = a
    · subst hba
      rw [modify_self, hb]
      exact ⟨f s, rfl, (hf s).1⟩
    · rw [modify_of_ne hba]
      exact ⟨s, hb, rfl⟩
  have hnext : ∀ w b, (m.modify a f).next w b = m.next w b := by
    intro w b
    unfold Sockets.next
    by_cases hba : b = a
    · subst hba
      rw [modify_self]
      cases m b with
      | none => rfl
      | some s => exact congrFun (hf s).2.1 w
    · rw [modify_of_ne hba]
  refine ⟨?_, ?_, ?_, ?_⟩
  · intro b s' hb hnone w
    obtain ⟨s, hs, hhead, hsoq, -⟩ := hback b s' hb
    rw [hsoq]
    exact (h.linked b s hs (hhead ▸ hnone) w).congr fun c _ => hnext w c
  · intro b s' hb w
    obtain ⟨s, hs, -, -, hlen⟩ := hback b s' hb
    rw [hlen]
    exact h.len b s hs w
  · intro b s' head hb hhead'
    obtain ⟨s, hs, hhead, -, -⟩ := hback b s' hb
    exact h.pending b s head hs (hhead ▸ hhead')
  · intro head w b hb
    obtain ⟨⟨p, hp, hnone⟩, s, hs, hhead⟩ := h.listed head w b hb
    obtain ⟨p', hp', hpeq⟩ := hforth head p hp
    obtain ⟨s', hs', hseq⟩ := hforth b s hs
    exact ⟨⟨p', hp', hpeq.trans hnone⟩, s', hs', hseq.trans hhead⟩

theorem Consistent.free (h : Consistent m q) (hs : m so = some s) (hnone : s.soHead = none) (hnil : ∀ w, q so w = []) :
    Consistent (m.free so) q := by
  have hother : ∀ b, b ≠ so → m.free so b = m b := fun b hb => Function.update_of_ne hb ..
  have hself : m.free so so = none := Function.update_self ..
  have hmem : ∀ head w b, b ∈ q head w → b ≠ so ∧ head ≠ so := by
    intro head w b hb
    refine ⟨h.ne_head hb hs hnone, ?_⟩
    rintro rfl
    rw [hnil w] at hb
    cases hb
  have halloc : ∀ b p, m.free so b = some p → b ≠ so ∧ m b = some p := by
    intro b p hb
    have hne : b ≠ so := by
      rintro rfl
      rw [hself] at hb
      cases hb
    exact ⟨hne, hother b hne ▸ hb⟩
  refine ⟨?_, ?_, ?_, ?_⟩
  · intro b p hb hp w
    obtain ⟨-, hb⟩ := halloc b p hb
    apply (h.linked b p hb hp w).congr
    intro c hc
    unfold Sockets.next
    rw [hother c (hmem b w c hc).1]
  · exact fun b p hb => h.len b p (halloc b p hb).2
  · exact fun b s head hb => h.pending b s head (halloc b s hb).2
  · intro head w b hb
    obtain ⟨hb', hhead'⟩ := hmem head w b hb
    rw [hother head hhead', hother b hb']
    exact h.listed head w b hb

theorem Consistent.create (h : Consistent m q) (hfree : m so = none) (hs : s.soHead = none)
    (hsoq : ∀ w, s.soq w = none) (hlen : ∀ w, s.soqlen w = 0) : Consistent (Function.update m so (some s)) q := by
  have hother : ∀ b, b ≠ so → Function.update m so (some s) b = m b := fun b hb => Function.update_of_ne hb ..
  have hself : Function.update m so (some s) so = some s := Function.update_self ..
  have hmem : ∀ head w b, b ∈ q head w → b ≠ so ∧ head ≠ so := by
    intro head w b hb
    obtain ⟨⟨p, hp, -⟩, s', hs', -⟩ := h.listed head w b hb
    constructor
    · rintro rfl
      rw [hfree] at hs'
      cases hs'
    · rintro rfl
      rw [hfree] at hp
      cases hp
  have hnil : ∀ w, q so w = [] := by
    intro w
    apply List.eq_nil_iff_forall_not_mem.mpr
    exact fun b hb => (hmem so w b hb).2 rfl
  refine ⟨?_, ?_, ?_, ?_⟩
  · intro b p hb hp w
    by_cases hbso : b = so
    · subst hbso
      obtain rfl := Option.some.inj (hself.symm.trans hb)
      rw [hnil w]
      exact hsoq w
    · rw [hother b hbso] at hb
      apply (h.linked b p hb hp w).congr
      intro c hc
      unfold Sockets.next
      rw [hother c (hmem b w c hc).1]
  · intro b p hb w
    by_cases hbso : b = so
    · subst hbso
      obtain rfl := Option.some.inj (hself.symm.trans hb)
      rw [hlen w, hnil w]
      rfl
    · rw [hother b hbso] at hb
      exact h.len b p hb w
  · intro b s' head hb hhead
    by_cases hbso : b = so
    · subst hbso
      obtain rfl := Option.some.inj (hself.symm.trans hb)
      rw [hs] at hhead
      cases hhead
    · rw [hother b hbso] at hb
      exact h.pending b s' head hb hhead
  · intro head w b hb
    obtain ⟨hb', hhead'⟩ := hmem head w b hb
    rw [hother head hhead', hother b hb']
    exact h.listed head w b hb

end NetBSD.Uipc
