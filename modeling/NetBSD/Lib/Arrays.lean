import Mathlib.Logic.Equiv.Basic
import Mathlib.Order.Lattice

/-!
# Arrays that are sorted in place

An array lies between two positions of a memory. Programs that only move its elements about rearrange it; a comparison function, as C
has it, is a total preorder.
-/

namespace NetBSD.Lib

open Function (update)

variable {α : Type*} {a b c d i j : Nat} {m m' m'' : Nat → α} {cmp : α → α → Int}

/-- Between `a` and `b` the same elements are in some other order, and outside nothing has changed. -/
def Rearranged (a b : Nat) (m m' : Nat → α) : Prop :=
  ∃ σ : Equiv.Perm Nat, (∀ i, ¬(a ≤ i ∧ i < b) → σ i = i) ∧ m' = m ∘ σ

theorem Rearranged.refl (a b : Nat) (m : Nat → α) : Rearranged a b m m := ⟨.refl _, fun _ _ => rfl, rfl⟩

theorem Rearranged.trans (h : Rearranged a b m m') (h' : Rearranged a b m' m'') : Rearranged a b m m'' := by
  obtain ⟨σ, hσ, rfl⟩ := h
  obtain ⟨τ, hτ, rfl⟩ := h'
  refine ⟨τ.trans σ, fun i hi => ?_, rfl⟩
  rw [Equiv.trans_apply, hτ i hi, hσ i hi]

theorem Rearranged.mono (h : Rearranged a b m m') (ha : c ≤ a) (hb : b ≤ d) : Rearranged c d m m' := by
  obtain ⟨σ, hσ, rfl⟩ := h
  exact ⟨σ, fun i hi => hσ i fun hin => hi ⟨ha.trans hin.1, hin.2.trans_le hb⟩, rfl⟩

theorem Rearranged.outside (h : Rearranged a b m m') (hi : ¬(a ≤ i ∧ i < b)) : m' i = m i := by
  obtain ⟨σ, hσ, rfl⟩ := h
  exact congrArg m (hσ i hi)

theorem Rearranged.from (h : Rearranged a b m m') (hi : a ≤ i ∧ i < b) : ∃ j, (a ≤ j ∧ j < b) ∧ m' i = m j := by
  obtain ⟨σ, hσ, rfl⟩ := h
  refine ⟨σ i, ?_, rfl⟩
  by_contra hout
  rw [σ.injective (hσ (σ i) hout)] at hout
  exact hout hi

def exchange (m : Nat → α) (i j : Nat) : Nat → α := update (update m j (m i)) i (m j)

theorem exchange_eq (m : Nat → α) (i j : Nat) : exchange m i j = m ∘ Equiv.swap i j := (Equiv.comp_swap_eq_update i j m).symm

theorem exchange_left (m : Nat → α) (i j : Nat) : exchange m i j i = m j := Function.update_self ..

theorem exchange_right (m : Nat → α) (i j : Nat) : exchange m i j j = m i := by
  rw [exchange_eq, Function.comp_apply, Equiv.swap_apply_right]

theorem exchange_of_ne {k : Nat} (hi : k ≠ i) (hj : k ≠ j) (m : Nat → α) : exchange m i j k = m k := by
  rw [exchange_eq, Function.comp_apply, Equiv.swap_apply_of_ne_of_ne hi hj]

theorem rearranged_exchange (hi : a ≤ i ∧ i < b) (hj : a ≤ j ∧ j < b) (m : Nat → α) : Rearranged a b m (exchange m i j) := by
  refine ⟨Equiv.swap i j, fun k hk => Equiv.swap_apply_of_ne_of_ne ?_ ?_, exchange_eq m i j⟩
  · rintro rfl
    exact hk hi
  · rintro rfl
    exact hk hj

theorem update_hole (hij : i ≠ j) (m : Nat → α) (x : α) : update (update m i (m j)) j x = exchange (update m i x) i j := by
  rw [exchange, Function.update_self, Function.update_of_ne hij.symm, Function.update_comm hij x x m, Function.update_idem,
    Function.update_comm hij]

structure TotalPreorder (cmp : α → α → Int) : Prop where
  trans : ∀ x y z, cmp x y ≤ 0 → cmp y z ≤ 0 → cmp x z ≤ 0
  pos_iff : ∀ x y, 0 < cmp x y ↔ cmp y x < 0

namespace TotalPreorder

variable {x y z : α}

theorem self (hcmp : TotalPreorder cmp) (x : α) : cmp x x = 0 := by
  have := hcmp.pos_iff x x
  omega

theorem le_of_pos (hcmp : TotalPreorder cmp) (h : 0 < cmp x y) : cmp y x ≤ 0 := ((hcmp.pos_iff x y).1 h).le

theorem nonneg_iff (hcmp : TotalPreorder cmp) : 0 ≤ cmp x y ↔ cmp y x ≤ 0 := by
  have := hcmp.pos_iff y x
  omega

end TotalPreorder

def Ordered (cmp : α → α → Int) (a b : Nat) (m : Nat → α) : Prop := ∀ i j, a ≤ i → i < j → j < b → cmp (m i) (m j) ≤ 0

theorem Ordered.of_short (h : b ≤ a + 1) (m : Nat → α) : Ordered cmp a b m := fun i j ha hij hb => absurd hb (by omega)

theorem Ordered.congr (h : Ordered cmp a b m) (heq : ∀ i, a ≤ i → i < b → m' i = m i) : Ordered cmp a b m' := by
  intro i j ha hij hb
  rw [heq i ha (hij.trans hb), heq j (by omega) hb]
  exact h i j ha hij hb

theorem Ordered.append (h : Ordered cmp a b m) (h' : Ordered cmp b c m)
    (hle : ∀ i j, a ≤ i → i < b → b ≤ j → j < c → cmp (m i) (m j) ≤ 0) : Ordered cmp a c m := by
  intro i j ha hij hc
  rcases Nat.lt_or_ge j b with hj | hj
  · exact h i j ha hij hj
  · rcases Nat.lt_or_ge i b with hi | hi
    · exact hle i j ha hi hj hc
    · exact h' i j hi hij hc

end NetBSD.Lib
