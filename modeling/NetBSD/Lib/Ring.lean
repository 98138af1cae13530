import Mathlib.Data.List.Basic
import Mathlib.Data.List.Range

/-!
# Rings

A memory of `n` cells that is used round and round: the `k`-th item behind cell `f` is in `slot n f k`. A ring
holds a list of items when they are in the cells from `f` on.
-/

namespace NetBSD.Lib.Ring

universe u

variable {α : Type u} {mem mem' : Nat → α} {n f c k : Nat} {items block : List α} {x : α}

def slot (n f k : Nat) : Nat := if f + k < n then f + k else f + k - n

@[simp] theorem slot_zero (h : f < n) : slot n f 0 = f := if_pos h

theorem slot_lt (hf : f < n) (hk : k ≤ n) : slot n f k < n := by
  unfold slot
  split <;> omega

theorem slot_succ (hf : f < n) (hk : k < n) :
    slot n f (k + 1) = if slot n f k + 1 = n then 0 else slot n f k + 1 := by
  unfold slot
  split <;> split <;> split <;> omega

theorem slot_slot (hf : f < n) (hkc : c + k ≤ n) : slot n (slot n f c) k = slot n f (c + k) := by
  unfold slot
  split <;> split <;> split <;> omega

theorem slot_inj {j : Nat} (hf : f < n) (hj : j < n) (hk : k < n) (h : slot n f j = slot n f k) : j = k := by
  unfold slot at h
  split at h <;> split at h <;> omega

theorem slot_add (h : slot n f c + k < n) (hf : f < n) (hc : c + k ≤ n) : slot n f (c + k) = slot n f c + k := by
  unfold slot at h ⊢
  by_cases hin : f + c < n
  · rw [if_pos hin] at h ⊢
    rw [if_pos (by omega), Nat.add_assoc]
  · rw [if_neg hin] at h ⊢
    rw [if_neg (by omega)]
    omega

theorem slot_wrap (hf : f < n) (hc : c + k ≤ n) (hrow : slot n f c + k ≤ n) :
    (if slot n f c + k = n then 0 else slot n f c + k) = slot n f (c + k) := by
  by_cases hend : slot n f c + k = n
  · rw [if_pos hend]
    unfold slot at hend ⊢
    split at hend <;> split <;> omega
  · rw [if_neg hend, slot_add (by omega) hf hc]

theorem slot_mem_block {j : Nat} (hf : f < n) (hj : j < n) (hkc : k + c ≤ n) (hc : 0 < c) :
    (if slot n f k + c ≤ n then slot n f k ≤ slot n f j ∧ slot n f j < slot n f k + c
      else (slot n f k ≤ slot n f j ∧ slot n f j < n) ∨ slot n f j < slot n f k + c - n) ↔
      k ≤ j ∧ j < k + c := by
  have hsk : slot n f k = f + k ∧ f + k < n ∨ slot n f k = f + k - n ∧ n ≤ f + k := by
    unfold slot
    split <;> omega
  have hsj : slot n f j = f + j ∧ f + j < n ∨ slot n f j = f + j - n ∧ n ≤ f + j := by
    unfold slot
    split <;> omega
  split <;> omega

structure Holds (mem : Nat → α) (n f : Nat) (items : List α) : Prop where
  start : f < n
  fits : items.length ≤ n
  get : ∀ k x, items[k]? = some x → mem (slot n f k) = x

namespace Holds

theorem nil (h : f < n) : Holds mem n f [] := ⟨h, Nat.zero_le n, by simp⟩

theorem append (h : Holds mem n f items) (hfit : items.length + block.length ≤ n)
    (hrow : slot n f items.length + block.length ≤ n)
    (hin : ∀ i x, block[i]? = some x → mem' (slot n f items.length + i) = x)
    (hout : ∀ j, j < slot n f items.length ∨ slot n f items.length + block.length ≤ j → mem' j = mem j) :
    Holds mem' n f (items ++ block) := by
  have hf := h.start
  refine ⟨hf, by rwa [List.length_append], fun k x hk => ?_⟩
  rcases lt_or_ge k items.length with hlt | hge
  · rw [List.getElem?_append_left hlt] at hk
    rw [hout, h.get k x hk]
    -- A cell in use is not one of those that are written.
    unfold slot at hrow ⊢
    split at hrow <;> split <;> omega
  · rw [List.getElem?_append_right hge] at hk
    have hlen : k - items.length < block.length := (List.getElem?_eq_some_iff.mp hk).1
    have hslot : slot n f k = slot n f items.length + (k - items.length) := by
      have hadd := slot_add (k := k - items.length) (by omega) hf (c := items.length) (by omega)
      rwa [Nat.add_sub_cancel' hge] at hadd
    rw [hslot, hin _ x hk]

theorem drop (h : Holds mem n f items) (hc : c ≤ items.length) : Holds mem n (slot n f c) (items.drop c) := by
  have hf := h.start
  have hfits := h.fits
  refine ⟨slot_lt hf (hc.trans hfits), ?_, fun k x hk => ?_⟩
  · rw [List.length_drop]
    omega
  · rw [List.getElem?_drop] at hk
    have hlen : c + k < items.length := (List.getElem?_eq_some_iff.mp hk).1
    rw [slot_slot hf (by omega), h.get _ x hk]

theorem take (h : Holds mem n f items) (c : Nat) : Holds mem n f (items.take c) := by
  refine ⟨h.start, (List.length_take_le' ..).trans h.fits, fun k x hk => h.get k x ?_⟩
  rw [List.getElem?_take] at hk
  split at hk
  · exact hk
  · cases hk

theorem read (h : Holds mem n f items) (hc : c ≤ items.length) (hrow : f + c ≤ n) :
    (List.range c).map (fun i => mem (f + i)) = items.take c := by
  apply List.ext_getElem
  · simp [hc]
  · intro k hk hk'
    simp only [List.length_map, List.length_range] at hk
    rw [List.getElem_map, List.getElem_range, List.getElem_take]
    have hget := h.get k items[k] (by simp)
    rwa [slot, if_pos (by omega)] at hget

end Holds

end NetBSD.Lib.Ring
