import Mathlib.Logic.Function.Basic

/-!
# Caches that write back

A cache holds some of the cells of a store. A cell that is given back dirty is written before the cache lets go of it; one that is
given back clean is let go as it is.
-/

namespace NetBSD.Lib

universe u v

structure Held (α : Type v) where
  data : α
  dirty : Bool

structure Writeback (κ : Type u) (α : Type v) where
  store : κ → α
  held : κ → Option (Held α)

namespace Writeback

variable {κ : Type u} {α : Type v} {w : Writeback κ α} {last : κ → α}

def read (w : Writeback κ α) (k : κ) : Held α := (w.held k).getD ⟨w.store k, false⟩

structure Keeps (w : Writeback κ α) (last : κ → α) : Prop where
  data : ∀ k, (w.read k).data = last k
  stored : ∀ k, (w.read k).dirty = false → w.store k = last k

theorem Keeps.start (h : ∀ k, w.held k = none) : Keeps w w.store := by
  refine ⟨fun k => ?_, fun _ _ => rfl⟩
  rw [read, h k]
  rfl

variable [DecidableEq κ]

def release (w : Writeback κ α) (k : κ) (a : α) (dirty : Bool) : Writeback κ α :=
  { w with held := Function.update w.held k (some ⟨a, dirty⟩) }

def writeOut (w : Writeback κ α) (k : κ) : Writeback κ α :=
  if (w.read k).dirty then
    { store := Function.update w.store k (w.read k).data
      held := Function.update w.held k (some ⟨(w.read k).data, false⟩) }
  else w

def letGo (w : Writeback κ α) (k : κ) : Writeback κ α :=
  { w.writeOut k with held := Function.update (w.writeOut k).held k none }

theorem read_release (w : Writeback κ α) (k : κ) (a : α) (dirty : Bool) (j : κ) :
    (w.release k a dirty).read j = if j = k then ⟨a, dirty⟩ else w.read j := by
  unfold read release
  dsimp only
  by_cases h : j = k
  · rw [if_pos h, h, Function.update_self]
    rfl
  · rw [if_neg h, Function.update_of_ne h]

theorem Keeps.release (h : Keeps w last) {k : κ} {a : α} {dirty : Bool} (ha : dirty = true ∨ a = w.store k) :
    Keeps (w.release k a dirty) (Function.update last k a) := by
  refine ⟨fun j => ?_, fun j hj => ?_⟩
  · rw [read_release]
    by_cases hjk : j = k
    · rw [if_pos hjk, hjk, Function.update_self]
    · rw [if_neg hjk, Function.update_of_ne hjk]
      exact h.data j
  · rw [read_release] at hj
    by_cases hjk : j = k
    · rw [if_pos hjk] at hj
      rw [hjk, Function.update_self]
      exact (ha.resolve_left fun hd => Bool.false_ne_true (hj.symm.trans hd)).symm
    · rw [if_neg hjk] at hj
      rw [Function.update_of_ne hjk]
      exact h.stored j hj

theorem Keeps.giveBack (h : Keeps w last) {k : κ} {a : α} (ha : (w.read k).dirty = true ∨ a = (w.read k).data) :
    Keeps (w.release k a (w.read k).dirty) (Function.update last k a) := by
  refine h.release ?_
  cases hd : (w.read k).dirty with
  | true => exact .inl rfl
  | false =>
    rw [hd] at ha
    right
    rw [ha.resolve_left Bool.false_ne_true, h.data k, h.stored k hd]

theorem Keeps.writeOut (h : Keeps w last) (k : κ) : Keeps (w.writeOut k) last := by
  unfold Writeback.writeOut
  split
  · have hread : ∀ j, read ⟨Function.update w.store k (w.read k).data,
        Function.update w.held k (some ⟨(w.read k).data, false⟩)⟩ j = if j = k then ⟨(w.read k).data, false⟩ else w.read j := by
      intro j
      rw [read]
      dsimp only
      by_cases hjk : j = k
      · rw [if_pos hjk, hjk, Function.update_self]
        rfl
      · rw [if_neg hjk, Function.update_of_ne hjk, Function.update_of_ne hjk]
        rfl
    refine ⟨fun j => ?_, fun j hj => ?_⟩
    · rw [hread]
      by_cases hjk : j = k
      · rw [if_pos hjk, hjk]
        exact h.data k
      · rw [if_neg hjk]
        exact h.data j
    · rw [hread] at hj
      dsimp only
      by_cases hjk : j = k
      · rw [hjk, Function.update_self]
        exact h.data k
      · rw [if_neg hjk] at hj
        rw [Function.update_of_ne hjk]
        exact h.stored j hj
  · exact h

theorem clean_writeOut (w : Writeback κ α) (k : κ) : ((w.writeOut k).read k).dirty = false := by
  unfold writeOut
  split
  · rw [read]
    dsimp only
    rw [Function.update_self]
    rfl
  · next h => exact Bool.eq_false_iff.2 h

theorem Keeps.letGo (h : Keeps w last) (k : κ) : Keeps (w.letGo k) last := by
  have hw := h.writeOut k
  have hstored := hw.stored k (clean_writeOut w k)
  have hread : ∀ j, (w.letGo k).read j = if j = k then ⟨(w.writeOut k).store k, false⟩ else (w.writeOut k).read j := by
    intro j
    unfold Writeback.letGo read
    dsimp only
    by_cases hjk : j = k
    · rw [if_pos hjk, hjk, Function.update_self]
      rfl
    · rw [if_neg hjk, Function.update_of_ne hjk]
  refine ⟨fun j => ?_, fun j hj => ?_⟩
  · rw [hread]
    by_cases hjk : j = k
    · rw [if_pos hjk, hjk]
      exact hstored
    · rw [if_neg hjk]
      exact hw.data j
  · rw [hread] at hj
    by_cases hjk : j = k
    · rw [hjk]
      exact hstored
    · rw [if_neg hjk] at hj
      exact hw.stored j hj

end Writeback

end NetBSD.Lib
