import Mathlib.Data.List.Perm.Basic
import Mathlib.Data.List.Pairwise
import Mathlib.Data.Nat.Notation

/-!
# Words of a memory that are turned round

A word is a range of cells. Words that do not meet can be turned round in any order, and twice is not at all.
-/

namespace NetBSD.Lib

universe u

structure Span where
  start : ℕ
  width : ℕ
  deriving DecidableEq

namespace Span

variable {α : Type u} {v w : Span} {vs ws : List Span} {m : ℕ → α} {x : ℕ}

def Has (w : Span) (x : ℕ) : Prop := w.start ≤ x ∧ x < w.start + w.width

instance (w : Span) (x : ℕ) : Decidable (w.Has x) := inferInstanceAs (Decidable (_ ∧ _))

theorem has_mk {a n : ℕ} : Has ⟨a, n⟩ x ↔ a ≤ x ∧ x < a + n := Iff.rfl

def Apart (v w : Span) : Prop := v.start + v.width ≤ w.start ∨ w.start + w.width ≤ v.start

instance (v w : Span) : Decidable (v.Apart w) := inferInstanceAs (Decidable (_ ∨ _))

theorem Apart.symm (h : v.Apart w) : w.Apart v := Or.symm h

theorem Apart.not_has (h : v.Apart w) (hx : v.Has x) : ¬w.Has x := by
  unfold Apart at h
  unfold Has at *
  omega

def mirror (w : Span) (x : ℕ) : ℕ := w.start + (w.start + w.width - 1 - x)

theorem mirror_mk {a n : ℕ} : mirror ⟨a, n⟩ x = a + (a + n - 1 - x) := rfl

theorem has_mirror (hx : w.Has x) : w.Has (w.mirror x) := by
  unfold Has mirror at *
  omega

theorem mirror_mirror (hx : w.Has x) : w.mirror (w.mirror x) = x := by
  unfold Has mirror at *
  omega

def reverse (w : Span) (m : ℕ → α) : ℕ → α := fun x => if w.Has x then m (w.mirror x) else m x

def reverseAll : List Span → (ℕ → α) → ℕ → α
  | [], m => m
  | w :: ws, m => reverseAll ws (w.reverse m)

theorem reverseAll_append : reverseAll (vs ++ ws) m = reverseAll ws (reverseAll vs m) := by
  induction vs generalizing m with
  | nil => rfl
  | cons v vs ih => exact ih

theorem reverseAll_of_not_has (h : ∀ w ∈ ws, ¬w.Has x) : reverseAll ws m x = m x := by
  induction ws generalizing m with
  | nil => rfl
  | cons w ws ih =>
    rw [reverseAll, ih fun w hw => h w (List.mem_cons_of_mem _ hw), reverse, if_neg (h w List.mem_cons_self)]

theorem reverseAll_of_has (hws : ws.Pairwise Apart) (hw : w ∈ ws) (hx : w.Has x) : reverseAll ws m x = m (w.mirror x) := by
  induction ws generalizing m with
  | nil => cases hw
  | cons v ws ih =>
    obtain ⟨hv, hws⟩ := List.pairwise_cons.1 hws
    rcases List.mem_cons.1 hw with rfl | hw
    · rw [reverseAll, reverseAll_of_not_has fun u hu => (hv u hu).not_has hx, reverse, if_pos hx]
    · rw [reverseAll, ih hws hw, reverse, if_neg ((hv w hw).symm.not_has (has_mirror hx))]

theorem reverseAll_perm (hws : ws.Pairwise Apart) (h : vs.Perm ws) : reverseAll vs m = reverseAll ws m := by
  have hvs : vs.Pairwise Apart := (h.pairwise_iff fun hab => hab.symm).2 hws
  funext x
  by_cases hx : ∃ w ∈ ws, w.Has x
  · obtain ⟨w, hw, hx⟩ := hx
    rw [reverseAll_of_has hws hw hx, reverseAll_of_has hvs (h.mem_iff.2 hw) hx]
  · have hnot : ∀ w ∈ ws, ¬w.Has x := fun w hw hxw => hx ⟨w, hw, hxw⟩
    rw [reverseAll_of_not_has hnot, reverseAll_of_not_has fun w hw => hnot w (h.mem_iff.1 hw)]

theorem reverseAll_reverseAll (hws : ws.Pairwise Apart) : reverseAll ws (reverseAll ws m) = m := by
  funext x
  by_cases hx : ∃ w ∈ ws, w.Has x
  · obtain ⟨w, hw, hx⟩ := hx
    rw [reverseAll_of_has hws hw hx, reverseAll_of_has hws hw (has_mirror hx), mirror_mirror hx]
  · have hnot : ∀ w ∈ ws, ¬w.Has x := fun w hw hxw => hx ⟨w, hw, hxw⟩
    rw [reverseAll_of_not_has hnot, reverseAll_of_not_has hnot]

end Span

end NetBSD.Lib
