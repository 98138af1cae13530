import NetBSD.Quad.Qdivrem
import Mathlib.Tactic.LinearCombination
import Mathlib.Tactic.Positivity

/-!
# The shifts of a division of quads

What `shl` and the loop that shifts the remainder back do to the numbers in the arrays.
-/

namespace NetBSD.Quad

open NetBSD.Lib Function

variable {α : Type} {R : α → Prop} {P : Space → Prop} {p : Space} {a i k : Nat} {x y : Int}

abbrev onMachine : CType → Int → Int := wrapped CType.size

abbrev exactly : CType → Int → Int := unwrapped

theorem agrees_set {f g : Space → Logged CType α} (hnonneg : 0 ≤ x) (hlt : x < B)
    (hrest : Agrees CType.size (f (update p i x)) (g (update p i x)) R) :
    Agrees CType.size (set onMachine p i x >>= f) (set exactly p i x >>= g) R := by
  apply Agrees.bind (P := fun p' => p' = update p i x)
  · exact Agrees.store_fits hnonneg hlt (Agrees.pure rfl)
  · rintro p' rfl
    exact hrest

theorem agrees_set_last (hnonneg : 0 ≤ x) (hlt : x < B) (h : P (update p i x)) :
    Agrees CType.size (set onMachine p i x) (set exactly p i x) P := Agrees.store_fits hnonneg hlt (Agrees.pure h)

theorem agrees_uLong {f g : Int → Logged CType α} (hnonneg : 0 ≤ x) (hlt : x < 4294967296)
    (hrest : Agrees CType.size (f x) (g x) R) :
    Agrees CType.size (.store onMachine .uLong x >>= f) (.store exactly .uLong x >>= g) R := Agrees.store_fits hnonneg hlt hrest

theorem agrees_digit {f g : Int → Logged CType α} (hnonneg : 0 ≤ x) (hlt : x < B) (hrest : Agrees CType.size (f x) (g x) R) :
    Agrees CType.size (.store onMachine .digit x >>= f) (.store exactly .digit x >>= g) R := Agrees.store_fits hnonneg hlt hrest

theorem or_eq_add {d : Nat} (hx : 0 ≤ x) (hy : 0 ≤ y) (hlt : y < 2 ^ d) : or (2 ^ d * x) y = 2 ^ d * x + y := by
  obtain ⟨n, rfl⟩ := Int.eq_ofNat_of_zero_le hx
  obtain ⟨r, rfl⟩ := Int.eq_ofNat_of_zero_le hy
  have hr : r < 2 ^ d := by exact_mod_cast hlt
  have hn : ((2 : Int) ^ d * (n : Int)).toNat = 2 ^ d * n := by
    rw [← Int.toNat_natCast (2 ^ d * n)]
    congr 1
  rw [or, hn, Int.toNat_natCast, ← Nat.two_pow_add_eq_or_of_lt hr]
  push_cast
  rfl

theorem combine_eq (hx : 0 ≤ x) (hy : 0 ≤ y) (hlt : y < B) : or (x * 65536) y = x * B + y := by
  have h := or_eq_add (d := 16) hx hy hlt
  rw [Int.mul_comm] at h
  exact h

theorem agrees_combine {f g : Int → Logged CType α} (hx : 0 ≤ x) (hxB : x < B) (hy : 0 ≤ y) (hyB : y < B)
    (hrest : Agrees CType.size (f (x * B + y)) (g (x * B + y)) R) :
    Agrees CType.size (combine onMachine x y >>= f) (combine exactly x y >>= g) R := by
  rw [combine, combine, combine_eq hx hy hyB]
  simp only [B] at *
  exact Agrees.store_fits (by omega) (show x * 65536 + y < 4294967296 by omega) hrest

theorem agrees_quad {d₁ d₂ d₃ d₄ : Int} {f g : Int → Logged CType α} (h₁ : 0 ≤ d₁ ∧ d₁ < B) (h₂ : 0 ≤ d₂ ∧ d₂ < B)
    (h₃ : 0 ≤ d₃ ∧ d₃ < B) (h₄ : 0 ≤ d₄ ∧ d₄ < B)
    (hrest : Agrees CType.size (f (((d₁ * B + d₂) * B + d₃) * B + d₄)) (g (((d₁ * B + d₂) * B + d₃) * B + d₄)) R) :
    Agrees CType.size (quad onMachine d₁ d₂ d₃ d₄ >>= f) (quad exactly d₁ d₂ d₃ d₄ >>= g) R := by
  apply Agrees.bind (P := fun q => q = ((d₁ * B + d₂) * B + d₃) * B + d₄)
  · apply agrees_combine h₁.1 h₁.2 h₂.1 h₂.2
    apply agrees_combine h₃.1 h₃.2 h₄.1 h₄.2
    apply Agrees.pure
    simp only [B]
    omega
  · rintro q rfl
    exact hrest

section Shift

variable {d : Nat}

theorem pow_mul_pow (hd : d ≤ 16) : (2 : Int) ^ d * 2 ^ (16 - d) = B := by
  rw [← pow_add, Nat.add_sub_cancel' hd]
  rfl

theorem lhalf_shl (hd : d ≤ 16) (x : Int) : lhalf (x * 2 ^ d) = 2 ^ d * (x % 2 ^ (16 - d)) := by
  have hpow : (0 : Int) < 2 ^ d := by positivity
  rw [lhalf, show (65536 : Int) = 2 ^ d * 2 ^ (16 - d) from (pow_mul_pow hd).symm, Int.mul_comm x,
    Int.mul_emod_mul_of_pos _ _ hpow]

theorem div_lt_pow (hd : d ≤ 16) (hx : x < B) : x / 2 ^ (16 - d) < 2 ^ d := by
  apply Int.ediv_lt_of_lt_mul (by positivity)
  rw [pow_mul_pow hd]
  exact hx

theorem shl_digit (hd : d ≤ 16) (hy : 0 ≤ y) (hyB : y < B) :
    or (lhalf (x * 2 ^ d)) (y / 2 ^ (16 - d)) = 2 ^ d * (x % 2 ^ (16 - d)) + y / 2 ^ (16 - d) ∧
      0 ≤ 2 ^ d * (x % 2 ^ (16 - d)) + y / 2 ^ (16 - d) ∧ 2 ^ d * (x % 2 ^ (16 - d)) + y / 2 ^ (16 - d) < B := by
  have hpos : (0 : Int) < 2 ^ (16 - d) := by positivity
  have hposd : (0 : Int) < 2 ^ d := by positivity
  have hmod := Int.emod_nonneg x hpos.ne'
  have hmod_lt := Int.emod_lt_of_pos x hpos
  have hdiv : 0 ≤ y / 2 ^ (16 - d) := Int.ediv_nonneg hy hpos.le
  have hdiv_lt := div_lt_pow hd hyB
  refine ⟨?_, by positivity, ?_⟩
  · rw [lhalf_shl hd]
    exact or_eq_add hmod hdiv hdiv_lt
  · calc 2 ^ d * (x % 2 ^ (16 - d)) + y / 2 ^ (16 - d) < 2 ^ d * (x % 2 ^ (16 - d)) + 2 ^ d := by linarith
      _ = 2 ^ d * (x % 2 ^ (16 - d) + 1) := by ring
      _ ≤ 2 ^ d * 2 ^ (16 - d) := Int.mul_le_mul_of_nonneg_left hmod_lt hposd.le
      _ = B := pow_mul_pow hd

theorem agrees_shl (hd : d ≤ 16) (len : Nat) (p : Space) (a : Nat) (h : Digits B p a (len + 1)) :
    Agrees CType.size (shl onMachine d len p a) (shl exactly d len p a) fun p' =>
      Digits B p' a (len + 1) ∧
        numeral B p' a (len + 1) = numeral B p a (len + 1) * 2 ^ d - p a / 2 ^ (16 - d) * B ^ (len + 1) ∧
          ∀ i, i < a ∨ a + len < i → p' i = p i := by
  induction len generalizing p a with
  | zero =>
    have hpos : (0 : Int) < 2 ^ (16 - d) := by positivity
    obtain ⟨-, hlo, hhi⟩ := shl_digit (x := p a) (y := 0) hd (le_refl 0) (by decide)
    rw [Int.zero_ediv, Int.add_zero] at hlo hhi
    rw [shl, shl, lhalf_shl hd]
    apply agrees_set_last hlo hhi
    refine ⟨?_, ?_, fun i hi => update_of_ne (by omega) _ _⟩
    · intro i h₁ h₂
      obtain rfl : i = a := by omega
      rw [update_self]
      exact ⟨hlo, hhi⟩
    · have hsplit := Int.mul_ediv_add_emod (p a) (2 ^ (16 - d))
      simp only [numeral, Nat.add_zero, Nat.zero_add, Int.zero_mul, Int.zero_add, update_self, pow_one]
      rw [← pow_mul_pow hd]
      linear_combination (2 : Int) ^ d * hsplit
  | succ len ih =>
    obtain ⟨hor, hlo, hhi⟩ := shl_digit (x := p a) hd (h (a + 1) (by omega) (by omega)).1 (h (a + 1) (by omega) (by omega)).2
    rw [shl, shl, hor]
    apply agrees_set hlo hhi
    have hsame : ∀ i, i ≠ a → update p a (2 ^ d * (p a % 2 ^ (16 - d)) + p (a + 1) / 2 ^ (16 - d)) i = p i :=
      fun i hi => update_of_ne hi _ _
    apply (ih _ (a + 1) (h.tail.congr fun i hi _ => hsame i (by omega))).mono
    rintro p' ⟨hdigits, hnum, hrest⟩
    have hfirst : p' a = 2 ^ d * (p a % 2 ^ (16 - d)) + p (a + 1) / 2 ^ (16 - d) := by
      rw [hrest a (.inl (by omega)), update_self]
    refine ⟨?_, ?_, ?_⟩
    · intro i h₁ h₂
      by_cases hi : i = a
      · rw [hi, hfirst]
        exact ⟨hlo, hhi⟩
      · exact hdigits i (by omega) (by omega)
    · rw [numeral_congr p fun i hi _ => hsame i (by omega), hsame (a + 1) (by omega)] at hnum
      have hsplit := Int.mul_ediv_add_emod (p a) (2 ^ (16 - d))
      rw [numeral_front a (len + 1), hnum, hfirst, numeral_front a (len + 1), pow_succ B (len + 1), ← pow_mul_pow hd]
      linear_combination (2 : Int) ^ d * (2 ^ d * 2 ^ (16 - d)) ^ (len + 1) * hsplit
    · intro i hi
      rw [hrest i (by omega), hsame i (by omega)]

theorem or_comm (x y : Int) : or x y = or y x := by rw [or, or, Nat.or_comm]

theorem shiftBack_digit (hd : d ≤ 16) (hy : 0 ≤ y) (hyB : y < B) :
    or (y / 2 ^ d) (lhalf (x * 2 ^ (16 - d))) = 2 ^ (16 - d) * (x % 2 ^ d) + y / 2 ^ d ∧
      0 ≤ 2 ^ (16 - d) * (x % 2 ^ d) + y / 2 ^ d ∧ 2 ^ (16 - d) * (x % 2 ^ d) + y / 2 ^ d < B := by
  have h := shl_digit (d := 16 - d) (x := x) (Nat.sub_le 16 d) hy hyB
  rw [show 16 - (16 - d) = d by omega, or_comm] at h
  exact h

theorem mul_add_div_pow (hd : d ≤ 16) (n x : Int) :
    (n * B + x) / 2 ^ d = n / 2 ^ d * B + (2 ^ (16 - d) * (n % 2 ^ d) + x / 2 ^ d) := by
  have hpow : (2 : Int) ^ d ≠ 0 := by positivity
  have hsplit := Int.mul_ediv_add_emod n (2 ^ d)
  have hfactor : n * B + x = x + 2 ^ d * (n * 2 ^ (16 - d)) := by
    rw [← pow_mul_pow hd]
    ring
  rw [hfactor, Int.add_mul_ediv_left _ _ hpow, ← pow_mul_pow hd]
  linear_combination (-(2 : Int) ^ (16 - d)) * hsplit

theorem mul_add_emod_mul {n x c : Int} (hc : 0 < c) (hx : 0 ≤ x) (hxB : x < B) : (n * B + x) % (c * B) = n % c * B + x := by
  have hB : (0 : Int) < B := by decide
  have hmod := Int.emod_nonneg n hc.ne'
  have hmod_lt := Int.emod_lt_of_pos n hc
  have hsplit := Int.mul_ediv_add_emod n c
  have hfactor : n * B + x = n % c * B + x + c * B * (n / c) := by linear_combination (-B) * hsplit
  rw [hfactor, Int.add_mul_emod_self_left]
  exact Int.emod_eq_of_lt (by positivity) (by nlinarith)

theorem agrees_shiftBack (hd : d ≤ 16) (k : Nat) (p : Space) (m : Nat) (h : Digits B p m (k + 1)) :
    Agrees CType.size (shiftBack onMachine d m k p) (shiftBack exactly d m k p) fun p' =>
      Digits B p' (m + 1) k ∧ p' m = 0 ∧ numeral B p' (m + 1) k = numeral B p m (k + 1) / 2 ^ d % B ^ k ∧
        ∀ i, i < m ∨ m + k < i → p' i = p i := by
  induction k generalizing p with
  | zero =>
    rw [shiftBack, shiftBack]
    apply agrees_set_last (le_refl 0) (by decide)
    refine ⟨fun i h₁ h₂ => absurd h₂ (by omega), update_self _ _ _, ?_, fun i hi => update_of_ne (by omega) _ _⟩
    rw [numeral, pow_zero, Int.emod_one]
  | succ k ih =>
    have hlast := h (m + (k + 1)) (by omega) (by omega)
    obtain ⟨hor, hlo, hhi⟩ := shiftBack_digit (x := p (m + k)) hd hlast.1 hlast.2
    rw [shiftBack, shiftBack, hor]
    apply agrees_set hlo hhi
    have hsame : ∀ i, i ≠ m + (k + 1) →
        update p (m + (k + 1)) (2 ^ (16 - d) * (p (m + k) % 2 ^ d) + p (m + (k + 1)) / 2 ^ d) i = p i :=
      fun i hi => update_of_ne hi _ _
    apply (ih _ (h.init.congr fun i _ hi => hsame i (by omega))).mono
    rintro p' ⟨hdigits, hzero, hnum, hrest⟩
    have hset : p' (m + (k + 1)) = 2 ^ (16 - d) * (p (m + k) % 2 ^ d) + p (m + (k + 1)) / 2 ^ d := by
      rw [hrest _ (.inr (by omega)), update_self]
    refine ⟨?_, hzero, ?_, ?_⟩
    · intro i h₁ h₂
      by_cases hi : i = m + (k + 1)
      · rw [hi, hset]
        exact ⟨hlo, hhi⟩
      · exact hdigits i h₁ (by omega)
    · rw [numeral_congr p fun i _ hi => hsame i (by omega)] at hnum
      have hlow : numeral B p m (k + 1) % 2 ^ d = p (m + k) % 2 ^ d := by
        rw [numeral, ← pow_mul_pow hd, show numeral (2 ^ d * 2 ^ (16 - d)) p m k * (2 ^ d * 2 ^ (16 - d)) + p (m + k) =
          p (m + k) + 2 ^ d * (numeral (2 ^ d * 2 ^ (16 - d)) p m k * 2 ^ (16 - d)) by ring, Int.add_mul_emod_self_left]
      calc numeral B p' (m + 1) (k + 1)
          = numeral B p m (k + 1) / 2 ^ d % B ^ k * B + (2 ^ (16 - d) * (p (m + k) % 2 ^ d) + p (m + (k + 1)) / 2 ^ d) := by
            rw [numeral, hnum, show m + 1 + k = m + (k + 1) by omega, hset]
        _ = (numeral B p m (k + 1) / 2 ^ d * B + (2 ^ (16 - d) * (p (m + k) % 2 ^ d) + p (m + (k + 1)) / 2 ^ d)) % (B ^ k * B) :=
            (mul_add_emod_mul (pow_pos (by decide) k) hlo hhi).symm
        _ = numeral B p m (k + 1 + 1) / 2 ^ d % B ^ (k + 1) := by
            rw [← hlow, ← mul_add_div_pow hd, ← pow_succ]
            rfl
    · intro i hi
      rw [hrest i (by omega), hsame i (by omega)]

end Shift

theorem agrees_digits {q : Int} (hq : 0 ≤ q) (hlt : q < B ^ 4) (p : Space) :
    Agrees CType.size (digits onMachine q p) (digits exactly q p) fun p' =>
      Digits B p' 1 4 ∧ numeral B p' 1 4 = q ∧ p' 0 = p 0 := by
  have hlt' : q < 18446744073709551616 := hlt
  rw [digits, digits]
  simp only [hhalf, lhalf]
  apply agrees_set (by omega) (show q / 4294967296 / 65536 < 65536 by omega)
  apply agrees_set (by omega) (show q / 4294967296 % 65536 < 65536 by omega)
  apply agrees_set (by omega) (show q % 4294967296 / 65536 < 65536 by omega)
  apply agrees_set_last (by omega) (show q % 4294967296 % 65536 < 65536 by omega)
  refine ⟨?_, ?_, rfl⟩
  · intro i hlo hhi
    have hi : i = 1 ∨ i = 2 ∨ i = 3 ∨ i = 4 := by omega
    simp only [B]
    rcases hi with rfl | rfl | rfl | rfl <;> simp [update] <;> omega
  · simp [numeral, update, B]
    omega

end NetBSD.Quad
