import Mathlib.Tactic.Ring
import Mathlib.Tactic.Linarith
import Mathlib.Algebra.Order.Ring.Int
import Mathlib.Algebra.Order.Group.Int

/-!
# Long division

Numerals in an arbitrary base, most significant digit first, and the estimate of a quotient digit by the leading digits.
-/

namespace NetBSD.Lib

variable {b : Int} {p p' : Nat → Int} {a k l : Nat}

def numeral (b : Int) (p : Nat → Int) (a : Nat) : Nat → Int
  | 0 => 0
  | k + 1 => numeral b p a k * b + p (a + k)

def Digits (b : Int) (p : Nat → Int) (a k : Nat) : Prop := ∀ i, a ≤ i → i < a + k → 0 ≤ p i ∧ p i < b

theorem Digits.init (h : Digits b p a (k + 1)) : Digits b p a k := fun i hlo hhi => h i hlo (by omega)

theorem Digits.tail (h : Digits b p a (k + 1)) : Digits b p (a + 1) k := fun i hlo hhi => h i (by omega) (by omega)

theorem Digits.congr (h : Digits b p a k) (heq : ∀ i, a ≤ i → i < a + k → p' i = p i) : Digits b p' a k := by
  intro i hlo hhi
  rw [heq i hlo hhi]
  exact h i hlo hhi

theorem numeral_congr (p' : Nat → Int) (h : ∀ i, a ≤ i → i < a + k → p i = p' i) : numeral b p a k = numeral b p' a k := by
  induction k with
  | zero => rfl
  | succ k ih => rw [numeral, numeral, ih fun i hlo hhi => h i hlo (by omega), h (a + k) (by omega) (by omega)]

theorem numeral_add (a k l : Nat) : numeral b p a (k + l) = numeral b p a k * b ^ l + numeral b p (a + k) l := by
  induction l with
  | zero => simp [numeral]
  | succ l ih =>
    rw [← Nat.add_assoc, numeral, ih, numeral, pow_succ, Nat.add_assoc]
    ring

theorem numeral_front (a k : Nat) : numeral b p a (k + 1) = p a * b ^ k + numeral b p (a + 1) k := by
  rw [Nat.add_comm k 1, numeral_add, numeral, numeral]
  simp

theorem numeral_nonneg (hb : 0 ≤ b) (h : Digits b p a k) : 0 ≤ numeral b p a k := by
  induction k with
  | zero => exact le_refl 0
  | succ k ih => exact Int.add_nonneg (Int.mul_nonneg (ih h.init) hb) (h (a + k) (by omega) (by omega)).1

theorem numeral_lt (hb : 0 < b) (h : Digits b p a k) : numeral b p a k < b ^ k := by
  induction k with
  | zero => simp [numeral]
  | succ k ih =>
    have hlast := (h (a + k) (by omega) (by omega)).2
    calc numeral b p a k * b + p (a + k)
        < numeral b p a k * b + b := by linarith
      _ = (numeral b p a k + 1) * b := by ring
      _ ≤ b ^ k * b := Int.mul_le_mul_of_nonneg_right (ih h.init) hb.le
      _ = b ^ (k + 1) := (pow_succ b k).symm

theorem front_eq_zero (hb : 0 < b) (h : Digits b p (a + 1) k) (hlo : 0 ≤ numeral b p a (k + 1))
    (hhi : numeral b p a (k + 1) < b ^ k) : p a = 0 := by
  rw [numeral_front] at hlo hhi
  have hrest := numeral_nonneg hb.le h
  have hrest_lt := numeral_lt hb h
  have hpow : 0 < b ^ k := pow_pos hb k
  apply le_antisymm
  · by_contra hpos
    have hmul : b ^ k ≤ p a * b ^ k := by nlinarith
    linarith
  · by_contra hneg
    have hmul : p a * b ^ k ≤ -1 * b ^ k := Int.mul_le_mul_of_nonneg_right (by omega) hpow.le
    linarith

section Estimate

variable {P W V u₀ u₁ u₂ v₁ v₂ w y qhat rhat : Int}

/-- The dividend and the divisor by their leading digits: `P` is the weight of the second digit of the divisor. -/
structure Leading (b P W V u₀ u₁ u₂ v₁ v₂ : Int) : Prop where
  base : 0 < b
  weight : 0 < P
  second : 0 ≤ v₂
  dividend_le : ((u₀ * b + u₁) * b + u₂) * P ≤ W
  lt_dividend : W < ((u₀ * b + u₁) * b + u₂ + 1) * P
  divisor_le : (v₁ * b + v₂) * P ≤ V
  lt_divisor : V < (v₁ * b + v₂ + 1) * P

theorem Leading.lt_of_first (h : Leading b P W V u₀ u₁ u₂ v₁ v₂) (hq : 0 ≤ qhat) (hr : rhat < v₁) (hu₂ : u₂ < b)
    (hsplit : qhat * v₁ + rhat = u₀ * b + u₁) : W < (qhat + 1) * V := by
  have hfirst : u₀ * b + u₁ + 1 ≤ (qhat + 1) * v₁ := by linarith
  have hb := h.base
  have hP := h.weight
  have hv₂ := h.second
  calc W < ((u₀ * b + u₁) * b + u₂ + 1) * P := h.lt_dividend
    _ ≤ (u₀ * b + u₁ + 1) * b * P := Int.mul_le_mul_of_nonneg_right (by nlinarith) hP.le
    _ ≤ (qhat + 1) * v₁ * b * P :=
        Int.mul_le_mul_of_nonneg_right (Int.mul_le_mul_of_nonneg_right hfirst hb.le) hP.le
    _ ≤ (qhat + 1) * ((v₁ * b + v₂) * P) := by nlinarith [Int.mul_nonneg (Int.mul_nonneg (by omega : 0 ≤ qhat + 1) hv₂) hP.le]
    _ ≤ (qhat + 1) * V := Int.mul_le_mul_of_nonneg_left h.divisor_le (by omega)

theorem Leading.lt_of_test (h : Leading b P W V u₀ u₁ u₂ v₁ v₂) (hq : 0 ≤ qhat)
    (htest : (u₀ * b + u₁) * b + u₂ < qhat * (v₁ * b + v₂)) : W < qhat * V := by
  have hP := h.weight
  calc W < ((u₀ * b + u₁) * b + u₂ + 1) * P := h.lt_dividend
    _ ≤ qhat * (v₁ * b + v₂) * P := Int.mul_le_mul_of_nonneg_right htest hP.le
    _ = qhat * ((v₁ * b + v₂) * P) := by ring
    _ ≤ qhat * V := Int.mul_le_mul_of_nonneg_left h.divisor_le hq

theorem Leading.lt_add_of_test (h : Leading b P W V u₀ u₁ u₂ v₁ v₂) (hqb : qhat ≤ b) (hv₁ : 1 ≤ v₁)
    (htest : qhat * (v₁ * b + v₂) ≤ (u₀ * b + u₁) * b + u₂) : qhat * V < W + V := by
  have hP := h.weight
  have hb := h.base
  have hv₂ := h.second
  have hlow : qhat * (V - (v₁ * b + v₂) * P) < V := by
    have hrest : V - (v₁ * b + v₂) * P ≤ P - 1 := by linarith [h.lt_divisor]
    have hrest_nonneg : 0 ≤ V - (v₁ * b + v₂) * P := by linarith [h.divisor_le]
    calc qhat * (V - (v₁ * b + v₂) * P) ≤ b * (V - (v₁ * b + v₂) * P) := Int.mul_le_mul_of_nonneg_right hqb hrest_nonneg
      _ ≤ b * (P - 1) := Int.mul_le_mul_of_nonneg_left hrest hb.le
      _ < b * P := by linarith
      _ ≤ (v₁ * b + v₂) * P := by nlinarith [Int.mul_nonneg hv₂ hP.le, Int.mul_pos hb hP]
      _ ≤ V := h.divisor_le
  have hhigh : qhat * ((v₁ * b + v₂) * P) ≤ W :=
    calc qhat * ((v₁ * b + v₂) * P) = qhat * (v₁ * b + v₂) * P := by ring
      _ ≤ ((u₀ * b + u₁) * b + u₂) * P := Int.mul_le_mul_of_nonneg_right htest hP.le
      _ ≤ W := h.dividend_le
  calc qhat * V = qhat * ((v₁ * b + v₂) * P) + qhat * (V - (v₁ * b + v₂) * P) := by ring
    _ < W + V := Int.add_lt_add_of_le_of_lt hhigh hlow

end Estimate

end NetBSD.Lib
