import NetBSD.Quad.ProgramD

/-!
# The quotient and the remainder

`__qdivrem` divides.
-/

namespace NetBSD.Quad

open NetBSD.Lib Function

variable {vspace uspace qspace : Space} {v u j n m q : Nat}

theorem ediv_emod_unique {a d w r : Int} (h : w = a * d + r) (hr : 0 ≤ r) (hlt : r < d) : a = w / d ∧ r = w % d := by
  have hunique := (Int.ediv_emod_unique (lt_of_le_of_lt hr hlt)).mpr ⟨show r + d * a = w by rw [h]; ring, hr, hlt⟩
  exact ⟨hunique.1.symm, hunique.2.symm⟩

theorem normalized (hn : 2 ≤ n) (hu : Digits B uspace j (n + 1)) (hv : Digits B vspace (v + 1) n) (hnormal : B / 2 ≤ vspace (v + 1))
    (hlt : numeral B uspace j (n + 1) < B * numeral B vspace (v + 1) n) :
    Normalized (B ^ (n - 2)) (numeral B uspace j (n + 1)) (numeral B vspace (v + 1) n) (uspace j) (uspace (j + 1)) (uspace (j + 2))
      (vspace (v + 1)) (vspace (v + 2)) := by
  obtain ⟨e, rfl⟩ := Nat.exists_eq_add_of_le hn
  rw [Nat.add_sub_cancel_left]
  have hW : numeral B uspace j (2 + e + 1) = ((uspace j * B + uspace (j + 1)) * B + uspace (j + 2)) * B ^ e +
      numeral B uspace (j + 3) e := by
    rw [show 2 + e + 1 = 3 + e by omega, numeral_add]
    simp [numeral]
  have hV : numeral B vspace (v + 1) (2 + e) = (vspace (v + 1) * B + vspace (v + 2)) * B ^ e + numeral B vspace (v + 3) e := by
    rw [numeral_add]
    simp [numeral, Nat.add_assoc]
  have hlow : Digits B uspace (j + 3) e := fun i h₁ h₂ => hu i (by omega) (by omega)
  have hlow' : Digits B vspace (v + 3) e := fun i h₁ h₂ => hv i (by omega) (by omega)
  have hlow_nonneg := numeral_nonneg base_pos.le hlow
  have hlow_lt := numeral_lt base_pos hlow
  have hlow_nonneg' := numeral_nonneg base_pos.le hlow'
  have hlow_lt' := numeral_lt base_pos hlow'
  exact {
    leading := {
      base := base_pos
      weight := pow_pos base_pos e
      second := (hv (v + 2) (by omega) (by omega)).1
      dividend_le := by linarith
      lt_dividend := by linarith
      divisor_le := by linarith
      lt_divisor := by linarith }
    uj₀_nonneg := (hu j (by omega) (by omega)).1
    uj₁_nonneg := (hu (j + 1) (by omega) (by omega)).1
    uj₁_lt := (hu (j + 1) (by omega) (by omega)).2
    uj₂_nonneg := (hu (j + 2) (by omega) (by omega)).1
    uj₂_lt := (hu (j + 2) (by omega) (by omega)).2
    half_le := hnormal
    v₁_lt := (hv (v + 1) (by omega) (by omega)).2
    v₂_lt := (hv (v + 2) (by omega) (by omega)).2
    lt := hlt }

theorem numeral_update_front (p : Space) (x : Int) (j n : Nat) :
    numeral B (update p j x) j (n + 1) = x * B ^ n + numeral B p (j + 1) n := by
  rw [numeral_front, update_self, numeral_congr _ fun i hi _ => update_of_ne (by omega) _ _]

theorem digits_update_front {p : Space} {x : Int} (h : Digits B p (j + 1) n) (hx : 0 ≤ x) (hxB : x < B) :
    Digits B (update p j x) j (n + 1) := by
  intro i h₁ h₂
  by_cases hi : i = j
  · rw [hi, update_self]
    exact ⟨hx, hxB⟩
  · rw [update_of_ne hi]
    exact h i (by omega) (by omega)

theorem agrees_turn (hn : 2 ≤ n) (hu : Digits B uspace j (n + 1)) (hv : Digits B vspace (v + 1) n)
    (hnormal : B / 2 ≤ vspace (v + 1)) (hlt : numeral B uspace j (n + 1) < B * numeral B vspace (v + 1) n) :
    Agrees CType.size (turn onMachine vspace v n j uspace) (turn exactly vspace v n j uspace) fun left =>
      Digits B left.1 j (n + 1) ∧
        numeral B left.1 j (n + 1) = numeral B uspace j (n + 1) % numeral B vspace (v + 1) n ∧
          left.2 = numeral B uspace j (n + 1) / numeral B vspace (v + 1) n ∧ ∀ k, k < j ∨ j + n < k → left.1 k = uspace k := by
  rw [turn, turn]
  apply Agrees.bind (agrees_calculateQhat (normalized hn hu hv hnormal hlt))
  intro qhat hnear
  apply Agrees.bind (agrees_mulSub hnear.nonneg hnear.lt_base n uspace 0 hu.tail hv (le_refl 0) base_pos)
  rintro subtracted ⟨hdigits, ht, ht_lt, hnum, hrest⟩
  have hV_lt := numeral_lt base_pos hv
  have hM := numeral_nonneg base_pos.le hdigits
  have hM_lt := numeral_lt base_pos hdigits
  have hW := numeral_nonneg base_pos.le hu
  have hfirst := hu j (by omega) (by omega)
  have hpow : (0 : Int) < B ^ n := pow_pos base_pos n
  have hdiff : numeral B uspace j (n + 1) - qhat * numeral B vspace (v + 1) n =
      (uspace j - subtracted.2) * B ^ n + numeral B subtracted.1 (j + 1) n := by
    rw [numeral_front]
    linarith
  generalize numeral B uspace j (n + 1) = W at *
  generalize hdivisor : numeral B vspace (v + 1) n = V at *
  rw [hrest j (.inl (by omega))]
  generalize hx : uspace j - subtracted.2 = x at *
  have hx_lo : -65536 < x := by
    simp only [B] at ht_lt
    omega
  have hx_hi : x < 65536 := by
    simp only [B] at hfirst
    omega
  have hlow : lhalf (x % 4294967296) = lhalf x := by
    simp only [lhalf]
    omega
  have hdigit : 0 ≤ lhalf x ∧ lhalf x < B := by
    simp only [lhalf, B]
    omega
  apply Agrees.store_wrapping rfl
  change Agrees CType.size (set onMachine _ _ (lhalf (x % 4294967296)) >>= fun uspace =>
    if hhalf (x % 4294967296) ≠ 0 then _ else _) _ _
  rw [hlow]
  apply agrees_set hdigit.1 hdigit.2
  by_cases hneg : x < 0
  · have hmachine : hhalf (x % 4294967296) ≠ 0 := by
      simp only [hhalf]
      omega
    have hexact : hhalf x ≠ 0 := by
      simp only [hhalf]
      omega
    rw [if_pos hmachine, if_pos hexact]
    have hbelow : W - qhat * V < 0 := by nlinarith
    have hone : 1 ≤ qhat := by
      have hnonneg := hnear.nonneg
      by_contra hzero
      obtain rfl : qhat = 0 := by omega
      linarith
    have hqhat_lt := hnear.lt_base
    apply agrees_uLong (by omega) (by simp only [B] at hqhat_lt; omega)
    have hsame : ∀ k, k ≠ j → update subtracted.1 j (lhalf x) k = subtracted.1 k := fun k hk => update_of_ne hk _ _
    apply Agrees.bind (agrees_addBack n _ 0 (hdigits.congr fun k hk _ => hsame k (by omega)) hv (le_refl 0) (by decide))
    rintro added ⟨hdigits', hc, hc_le, hnum', hrest'⟩
    rw [numeral_congr subtracted.1 fun k hk _ => hsame k (by omega), hdivisor] at hnum'
    have hN := numeral_nonneg base_pos.le hdigits'
    have hN_lt := numeral_lt base_pos hdigits'
    have hzero : x + added.2 = 0 := by
      have hnear_lt := hnear.lt_add
      have hsum : W - qhat * V + V = (x + added.2) * B ^ n + numeral B added.1 (j + 1) n := by linarith
      apply le_antisymm
      · by_contra hpos
        have hmul : B ^ n ≤ (x + added.2) * B ^ n := by nlinarith
        linarith
      · by_contra hneg'
        have hmul : (x + added.2) * B ^ n ≤ -1 * B ^ n := Int.mul_le_mul_of_nonneg_right (by omega) hpow.le
        linarith
    have hlast : lhalf (added.1 j + added.2) = 0 := by
      rw [hrest' j (.inl (by omega)), update_self]
      simp only [lhalf]
      omega
    rw [hlast]
    apply agrees_set (le_refl 0) base_pos
    apply Agrees.pure
    have hresult : W = (qhat - 1) * V + numeral B added.1 (j + 1) n := by
      have hx' : x = -added.2 := by omega
      rw [hx'] at hdiff
      linarith
    obtain ⟨hquotient, hremainder⟩ := ediv_emod_unique hresult hN (by linarith [hnear.lt_add])
    refine ⟨digits_update_front hdigits' (le_refl 0) base_pos, ?_, hquotient, ?_⟩
    · rw [numeral_update_front, Int.zero_mul, Int.zero_add]
      exact hremainder
    · intro k hk
      change update added.1 j 0 k = uspace k
      rw [update_of_ne (by omega), hrest' k (by omega), hsame k (by omega), hrest k (by omega)]
  · have hmachine : ¬ hhalf (x % 4294967296) ≠ 0 := by
      simp only [hhalf]
      omega
    have hexact : ¬ hhalf x ≠ 0 := by
      simp only [hhalf]
      omega
    rw [if_neg hmachine, if_neg hexact]
    have hkept : lhalf x = x := by
      simp only [lhalf]
      omega
    apply Agrees.pure
    have hnonneg : 0 ≤ x * B ^ n := Int.mul_nonneg (by omega) hpow.le
    obtain ⟨hquotient, hremainder⟩ := ediv_emod_unique (show W = qhat * V + (x * B ^ n + numeral B subtracted.1 (j + 1) n) by linarith)
      (by linarith) (by linarith [hnear.lt])
    refine ⟨digits_update_front hdigits hdigit.1 hdigit.2, ?_, hquotient, ?_⟩
    · rw [numeral_update_front, hkept]
      exact hremainder
    · intro k hk
      change update subtracted.1 j (lhalf x) k = uspace k
      rw [update_of_ne (by omega), hrest k (by omega)]

theorem agrees_turns (hn : 2 ≤ n) (hv : Digits B vspace (v + 1) n) (hnormal : B / 2 ≤ vspace (v + 1)) (rest j q : Nat)
    (uspace qspace : Space) (hu : Digits B uspace j (n + rest))
    (hlt : numeral B uspace j (n + rest) < numeral B vspace (v + 1) n * B ^ rest) :
    Agrees CType.size (turns onMachine vspace v n rest j q uspace qspace) (turns exactly vspace v n rest j q uspace qspace)
      fun left => Digits B left.1 (j + rest) n ∧ Digits B left.2 q rest ∧
        numeral B left.1 (j + rest) n = numeral B uspace j (n + rest) % numeral B vspace (v + 1) n ∧
        numeral B left.2 q rest = numeral B uspace j (n + rest) / numeral B vspace (v + 1) n ∧
        (∀ k, k < j → left.1 k = uspace k) ∧ (∀ k, j ≤ k → k < j + rest → left.1 k = 0) ∧ ∀ k < q, left.2 k = qspace k := by
  have hV_nonneg := numeral_nonneg base_pos.le hv
  have hV_lt := numeral_lt base_pos hv
  induction rest generalizing j q uspace qspace with
  | zero =>
    have hnum := numeral_nonneg base_pos.le hu
    rw [pow_zero, Int.mul_one] at hlt
    rw [turns, turns]
    exact Agrees.pure ⟨hu, fun k h₁ h₂ => absurd h₂ (by omega), (Int.emod_eq_of_lt hnum hlt).symm,
      (Int.ediv_eq_zero_of_lt hnum hlt).symm, fun _ _ => rfl, fun k h₁ h₂ => absurd h₂ (by omega), fun _ _ => rfl⟩
  | succ rest ih =>
    have hwindow : Digits B uspace j (n + 1) := fun k h₁ h₂ => hu k h₁ (by omega)
    have hlow : Digits B uspace (j + (n + 1)) rest := fun k h₁ h₂ => hu k (by omega) (by omega)
    have hlow_nonneg := numeral_nonneg base_pos.le hlow
    have hlow_lt := numeral_lt base_pos hlow
    have hpow : (0 : Int) < B ^ rest := pow_pos base_pos rest
    have hsplit : numeral B uspace j (n + (rest + 1)) =
        numeral B uspace j (n + 1) * B ^ rest + numeral B uspace (j + (n + 1)) rest := by
      rw [show n + (rest + 1) = n + 1 + rest by omega, numeral_add]
    have hlt_window : numeral B uspace j (n + 1) < B * numeral B vspace (v + 1) n := by
      by_contra hge
      have hmul : B * numeral B vspace (v + 1) n * B ^ rest ≤ numeral B uspace j (n + 1) * B ^ rest :=
        Int.mul_le_mul_of_nonneg_right (by omega) hpow.le
      rw [hsplit, pow_succ] at hlt
      linarith
    have hV_pos : 0 < numeral B vspace (v + 1) n := by
      have hwindow_nonneg := numeral_nonneg base_pos.le hwindow
      by_contra hzero
      have hV : numeral B vspace (v + 1) n = 0 := by omega
      rw [hV] at hlt_window
      omega
    rw [turns, turns]
    apply Agrees.bind (agrees_turn hn hwindow hv hnormal hlt_window)
    rintro left ⟨hdigits, hnum, hquotient, hrest⟩
    have hmod := Int.emod_nonneg (numeral B uspace j (n + 1)) hV_pos.ne'
    have hmod_lt := Int.emod_lt_of_pos (numeral B uspace j (n + 1)) hV_pos
    have hdiv := Int.mul_ediv_add_emod (numeral B uspace j (n + 1)) (numeral B vspace (v + 1) n)
    have hzero : left.1 j = 0 := front_eq_zero base_pos hdigits.tail (by linarith) (by linarith)
    have htail : numeral B left.1 (j + 1) n = numeral B uspace j (n + 1) % numeral B vspace (v + 1) n := by
      rw [numeral_front, hzero, Int.zero_mul, Int.zero_add] at hnum
      exact hnum
    have hnext : numeral B left.1 (j + 1) (n + rest) =
        numeral B uspace j (n + 1) % numeral B vspace (v + 1) n * B ^ rest + numeral B uspace (j + (n + 1)) rest := by
      rw [numeral_add, htail, show j + 1 + n = j + (n + 1) by omega, numeral_congr _ fun k hk _ => hrest k (by omega)]
    have hq_nonneg : 0 ≤ left.2 := hquotient ▸ Int.ediv_nonneg (numeral_nonneg base_pos.le hwindow) hV_nonneg
    have hq_lt : left.2 < B := hquotient ▸ Int.ediv_lt_of_lt_mul hV_pos hlt_window
    apply agrees_set hq_nonneg hq_lt
    have hu' : Digits B left.1 (j + 1) (n + rest) := by
      intro k h₁ h₂
      by_cases hk : k < j + (n + 1)
      · exact hdigits k (by omega) hk
      · rw [hrest k (by omega)]
        exact hu k (by omega) (by omega)
    have hlt' : numeral B left.1 (j + 1) (n + rest) < numeral B vspace (v + 1) n * B ^ rest := by
      have hmul : numeral B uspace j (n + 1) % numeral B vspace (v + 1) n * B ^ rest ≤
          (numeral B vspace (v + 1) n - 1) * B ^ rest := Int.mul_le_mul_of_nonneg_right (by omega) hpow.le
      rw [hnext]
      linarith
    apply (ih (j + 1) (q + 1) _ _ hu' hlt').mono
    rintro result ⟨hdigits', hdigitsq, hremainder, hquot, hbefore, hzeros, hqbefore⟩
    have hfirst : result.2 q = left.2 := by rw [hqbefore q (by omega), update_self]
    rw [hnext] at hremainder hquot
    have hdividend : numeral B uspace j (n + (rest + 1)) = left.2 * B ^ rest * numeral B vspace (v + 1) n +
        (numeral B uspace j (n + 1) % numeral B vspace (v + 1) n * B ^ rest + numeral B uspace (j + (n + 1)) rest) := by
      rw [hsplit, hquotient]
      linear_combination (-B ^ rest) * hdiv
    rw [hdividend, show j + (rest + 1) = j + 1 + rest by omega]
    refine ⟨hdigits', ?_, ?_, ?_, fun k hk => ?_, fun k h₁ h₂ => ?_, fun k hk => ?_⟩
    · intro k h₁ h₂
      by_cases hk : k = q
      · rw [hk, hfirst]
        exact ⟨hq_nonneg, hq_lt⟩
      · exact hdigitsq k (by omega) (by omega)
    · rw [hremainder, Int.add_comm (left.2 * B ^ rest * _), Int.add_mul_emod_self_right]
    · rw [numeral_front, hquot, hfirst, Int.add_comm (left.2 * B ^ rest * _), Int.add_mul_ediv_right _ _ hV_pos.ne', Int.add_comm]
    · rw [hbefore k (by omega), hrest k (by omega)]
    · by_cases hk : k = j
      · rw [hk, hbefore j (by omega), hzero]
      · exact hzeros k (by omega) (by omega)
    · rw [hqbefore k (by omega), update_of_ne (by omega)]

theorem leadV_spec (vspace : Space) :
    leadV vspace 4 0 = (1, 2) ∧ numeral B vspace 1 4 = vspace 4 ∨
      ∃ n, 2 ≤ n ∧ n ≤ 4 ∧ leadV vspace 4 0 = (n, 4 - n) ∧ vspace (4 - n + 1) ≠ 0 ∧
        numeral B vspace 1 4 = numeral B vspace (4 - n + 1) n := by
  by_cases h₁ : vspace 1 = 0
  · by_cases h₂ : vspace 2 = 0
    · by_cases h₃ : vspace 3 = 0
      · exact .inl ⟨by simp [leadV, h₁, h₂, h₃], by simp [numeral, h₁, h₂, h₃]⟩
      · exact .inr ⟨2, le_refl 2, by decide, by simp [leadV, h₁, h₂, h₃], h₃, by simp [numeral, h₁, h₂]⟩
    · exact .inr ⟨3, by decide, by decide, by simp [leadV, h₁, h₂], h₂, by simp [numeral, h₁]⟩
  · exact .inr ⟨4, by decide, le_refl 4, by simp [leadV, h₁], h₁, rfl⟩

theorem agrees_leadU (hu : Digits B uspace 1 4) (m u : Nat) (hmn : u + m + n = 4) (hn : 1 ≤ n) (hzeros : ∀ i ≤ u, uspace i = 0)
    (hle : B ^ (n - 1) ≤ numeral B uspace (u + 1) (m + n)) :
    Agrees CType.size (leadU uspace m u) (leadU uspace m u) fun lead => lead.2 + lead.1 + n = 4 ∧
      (∀ i ≤ lead.2, uspace i = 0) ∧ numeral B uspace (lead.2 + 1) (lead.1 + n) = numeral B uspace (u + 1) (m + n) := by
  induction m generalizing u with
  | zero =>
    rw [leadU, if_neg]
    · exact Agrees.pure ⟨hmn, hzeros, rfl⟩
    · intro hzero
      obtain ⟨e, rfl⟩ := Nat.exists_eq_add_of_le' hn
      have hlt := numeral_lt base_pos (fun k h₁ h₂ => hu k (by omega) (by omega) : Digits B uspace (u + 1 + 1) e)
      rw [Nat.zero_add, numeral_front, hzero, Int.zero_mul, Int.zero_add] at hle
      exact absurd hle (not_le.mpr hlt)
  | succ m ih =>
    rw [leadU]
    by_cases hzero : uspace (u + 1) = 0
    · have hskip : numeral B uspace (u + 1) (m + 1 + n) = numeral B uspace (u + 1 + 1) (m + n) := by
        rw [show m + 1 + n = m + n + 1 by omega, numeral_front, hzero, Int.zero_mul, Int.zero_add]
      rw [hskip] at hle ⊢
      rw [if_pos hzero]
      apply ih (u + 1) (by omega) _ hle
      intro i hi
      by_cases hlast : i = u + 1
      · rw [hlast, hzero]
      · exact hzeros i (by omega)
    · rw [if_neg hzero]
      exact Agrees.pure ⟨hmn, hzeros, rfl⟩

theorem agrees_shift (fuel : Nat) (t : Int) (d : Nat) (v₁ : Int) (ht : t = v₁ * 2 ^ d) (hpos : 0 < t) (hlt : t < B)
    (hfuel : B / 2 ≤ t * 2 ^ fuel) (hd : d + fuel ≤ 15) :
    Agrees CType.size (shift onMachine (fuel + 1) t d) (shift exactly (fuel + 1) t d) fun d' =>
      d' ≤ 15 ∧ B / 2 ≤ v₁ * 2 ^ d' ∧ v₁ * 2 ^ d' < B := by
  induction fuel generalizing t d with
  | zero =>
    rw [pow_zero, Int.mul_one] at hfuel
    rw [shift, shift, if_neg (not_lt.mpr hfuel), if_neg (not_lt.mpr hfuel)]
    exact Agrees.pure ⟨hd, ht ▸ hfuel, ht ▸ hlt⟩
  | succ fuel ih =>
    rw [shift, shift]
    by_cases hsmall : t < B / 2
    · rw [if_pos hsmall, if_pos hsmall]
      simp only [B] at hsmall hlt
      apply agrees_uLong (by omega) (by omega)
      apply ih (t * 2) (d + 1) (by rw [ht, pow_succ]; ring) (by omega) (by simp only [B]; omega) _ (by omega)
      rw [pow_succ] at hfuel
      linarith
    · rw [if_neg hsmall, if_neg hsmall]
      exact Agrees.pure ⟨by omega, ht ▸ not_lt.mp hsmall, ht ▸ hlt⟩

theorem agrees_zeros (k : Nat) (qspace : Space) :
    Agrees CType.size (zeros onMachine k qspace) (zeros exactly k qspace) fun q' => ∀ i < k, q' i = 0 := by
  suffices h : Agrees CType.size (zeros onMachine k qspace) (zeros exactly k qspace) fun q' =>
    (∀ i < k, q' i = 0) ∧ ∀ i, k ≤ i → q' i = qspace i from h.mono fun _ h => h.1
  induction k generalizing qspace with
  | zero =>
    rw [zeros, zeros]
    exact Agrees.pure ⟨fun i hi => absurd hi (Nat.not_lt_zero i), fun _ _ => rfl⟩
  | succ k ih =>
    rw [zeros, zeros]
    apply agrees_set (le_refl 0) base_pos
    apply (ih _).mono
    rintro q' ⟨hbefore, hafter⟩
    refine ⟨fun i hi => ?_, fun i hi => ?_⟩
    · by_cases hik : i = k
      · rw [hik, hafter k (le_refl k), update_self]
      · exact hbefore i (by omega)
    · rw [hafter i (by omega), update_of_ne (by omega)]

theorem short_step {t r x : Int} (hr : 0 ≤ r) (hrt : r < t) (hx : 0 ≤ x) (hxB : x < B) :
    (0 ≤ (r * B + x) / t ∧ (r * B + x) / t < B) ∧ 0 ≤ (r * B + x) % t ∧ (r * B + x) % t < t ∧
      t * ((r * B + x) / t) + (r * B + x) % t = r * B + x := by
  have ht : 0 < t := lt_of_le_of_lt hr hrt
  have hnonneg : 0 ≤ r * B + x := Int.add_nonneg (Int.mul_nonneg hr base_pos.le) hx
  refine ⟨⟨Int.ediv_nonneg hnonneg ht.le, Int.ediv_lt_of_lt_mul ht ?_⟩, Int.emod_nonneg _ ht.ne', Int.emod_lt_of_pos _ ht,
    Int.mul_ediv_add_emod _ _⟩
  calc r * B + x < (r + 1) * B := by linarith
    _ ≤ t * B := Int.mul_le_mul_of_nonneg_right hrt base_pos.le
    _ = B * t := Int.mul_comm t B

theorem agrees_short {t : Int} (hu : Digits B uspace 1 4) (ht : 0 < t) (htB : t < B) :
    Agrees CType.size (short onMachine uspace t) (short exactly uspace t) fun r =>
      r = (numeral B uspace 1 4 / t, numeral B uspace 1 4 % t) := by
  have h₁ := hu 1 (by decide) (by decide)
  have h₂ := hu 2 (by decide) (by decide)
  have h₃ := hu 3 (by decide) (by decide)
  have h₄ := hu 4 (by decide) (by decide)
  obtain ⟨hq₁, hr₁, hr₁t, hs₁⟩ := short_step (le_refl 0) ht h₁.1 h₁.2
  rw [Int.zero_mul, Int.zero_add] at hq₁ hr₁ hr₁t hs₁
  obtain ⟨hq₂, hr₂, hr₂t, hs₂⟩ := short_step hr₁ hr₁t h₂.1 h₂.2
  obtain ⟨hq₃, hr₃, hr₃t, hs₃⟩ := short_step hr₂ hr₂t h₃.1 h₃.2
  obtain ⟨hq₄, hr₄, hr₄t, hs₄⟩ := short_step hr₃ hr₃t h₄.1 h₄.2
  rw [short, short]
  apply agrees_digit hq₁.1 hq₁.2
  apply agrees_combine hr₁ (lt_trans hr₁t htB) h₂.1 h₂.2
  apply agrees_digit hq₂.1 hq₂.2
  apply agrees_combine hr₂ (lt_trans hr₂t htB) h₃.1 h₃.2
  apply agrees_digit hq₃.1 hq₃.2
  apply agrees_combine hr₃ (lt_trans hr₃t htB) h₄.1 h₄.2
  apply agrees_digit hq₄.1 hq₄.2
  apply agrees_quad hq₁ hq₂ hq₃ hq₄
  apply Agrees.pure
  apply Prod.ext_iff.mpr
  apply ediv_emod_unique _ hr₄ hr₄t
  simp only [numeral, Int.zero_mul, Int.zero_add]
  linear_combination (-B ^ 3) * hs₁ - B ^ 2 * hs₂ - B * hs₃ - hs₄

theorem agrees_normalize {d : Nat} (hd : d ≤ 15) {len : Nat} {p : Space} {a : Nat} (h : Digits B p a (len + 1))
    (hfits : p a * 2 ^ d < B) :
    Agrees CType.size (normalize onMachine d len p a) (normalize exactly d len p a) fun p' =>
      Digits B p' a (len + 1) ∧ numeral B p' a (len + 1) = numeral B p a (len + 1) * 2 ^ d ∧ ∀ i < a, p' i = p i := by
  rw [normalize, normalize]
  by_cases hpos : 0 < d
  · rw [if_pos hpos, if_pos hpos]
    apply (agrees_shl (by omega) len p a h).mono
    rintro p' ⟨hdigits, hnum, hrest⟩
    have hfirst : p a / 2 ^ (16 - d) = 0 := by
      apply Int.ediv_eq_zero_of_lt (h a (le_refl a) (by omega)).1
      have hpow : (0 : Int) < 2 ^ d := by positivity
      have hB := pow_mul_pow (d := d) (by omega)
      by_contra hge
      have hmul : 2 ^ d * 2 ^ (16 - d) ≤ 2 ^ d * p a := Int.mul_le_mul_of_nonneg_left (not_lt.mp hge) hpow.le
      linarith
    rw [hfirst, Int.zero_mul, Int.sub_zero] at hnum
    exact ⟨hdigits, hnum, fun i hi => hrest i (.inl hi)⟩
  · obtain rfl : d = 0 := by omega
    rw [if_neg hpos, if_neg hpos]
    exact Agrees.pure ⟨h, by rw [pow_zero, Int.mul_one], fun _ _ => rfl⟩

theorem agrees_denormalize {d : Nat} (hd : d ≤ 15) {p : Space} {m : Nat} (h : Digits B p (m + 1) n) (hm : p m = 0) {r : Int}
    (hr : 0 ≤ r) (hrB : r < B ^ n) (hnum : numeral B p (m + 1) n = r * 2 ^ d) :
    Agrees CType.size (denormalize onMachine d m n p) (denormalize exactly d m n p) fun p' =>
      Digits B p' (m + 1) n ∧ p' m = 0 ∧ numeral B p' (m + 1) n = r ∧ ∀ i < m, p' i = p i := by
  rw [denormalize, denormalize]
  by_cases hpos : 0 < d
  · rw [if_pos hpos, if_pos hpos]
    have hall : Digits B p m (n + 1) := by
      intro i h₁ h₂
      by_cases hi : i = m
      · rw [hi, hm]
        exact ⟨le_refl 0, base_pos⟩
      · exact h i (by omega) (by omega)
    apply (agrees_shiftBack (by omega) n p m hall).mono
    rintro p' ⟨hdigits, hzero, hnum', hrest⟩
    rw [numeral_front, hm, Int.zero_mul, Int.zero_add, hnum, Int.mul_ediv_cancel _ (by positivity), Int.emod_eq_of_lt hr hrB] at hnum'
    exact ⟨hdigits, hzero, hnum', fun i hi => hrest i (.inl hi)⟩
  · obtain rfl : d = 0 := by omega
    rw [if_neg hpos, if_neg hpos]
    rw [pow_zero, Int.mul_one] at hnum
    exact Agrees.pure ⟨h, hm, hnum, fun _ _ => rfl⟩

theorem numeral_zeros {p : Space} {a k : Nat} (h : ∀ i, a ≤ i → i < a + k → p i = 0) : numeral B p a k = 0 := by
  induction k with
  | zero => rfl
  | succ k ih =>
    rw [numeral, ih fun i h₁ h₂ => h i h₁ (by omega), h (a + k) (by omega) (by omega)]
    rfl

theorem numeral_of_last {p : Space} {k l : Nat} (hkl : k + l = 4) (hzeros : ∀ i ≤ k, p i = 0) (hdigits : Digits B p (k + 1) l) :
    Digits B p 1 4 ∧ numeral B p 1 4 = numeral B p (k + 1) l := by
  constructor
  · intro i h₁ h₂
    by_cases hi : i ≤ k
    · rw [hzeros i hi]
      exact ⟨le_refl 0, base_pos⟩
    · exact hdigits i (by omega) (by omega)
  · rw [← hkl, numeral_add, numeral_zeros fun i _ hi => hzeros i (by omega), Int.zero_mul, Int.zero_add, Nat.add_comm 1 k]

theorem agrees_quad_of_numeral {α : Type} {f g : Int → Logged CType α} {R : α → Prop} {p : Space} (h : Digits B p 1 4)
    (hrest : Agrees CType.size (f (numeral B p 1 4)) (g (numeral B p 1 4)) R) :
    Agrees CType.size (quad onMachine (p 1) (p 2) (p 3) (p 4) >>= f) (quad exactly (p 1) (p 2) (p 3) (p 4) >>= g) R := by
  have hnum : numeral B p 1 4 = ((p 1 * B + p 2) * B + p 3) * B + p 4 := by simp [numeral]
  rw [hnum] at hrest
  exact agrees_quad (h 1 (by decide) (by decide)) (h 2 (by decide) (by decide)) (h 3 (by decide) (by decide))
    (h 4 (by decide) (by decide)) hrest

theorem agrees_long (hn : 2 ≤ n) (hn4 : n ≤ 4) (hv : Digits B vspace (4 - n + 1) n) (hfirst : vspace (4 - n + 1) ≠ 0)
    (hu : Digits B uspace 1 4) (hu₀ : uspace 0 = 0) (hle : numeral B vspace (4 - n + 1) n ≤ numeral B uspace 1 4) :
    Agrees CType.size (long onMachine uspace vspace qspace n (4 - n)) (long exactly uspace vspace qspace n (4 - n)) fun r =>
      r = (numeral B uspace 1 4 / numeral B vspace (4 - n + 1) n, numeral B uspace 1 4 % numeral B vspace (4 - n + 1) n) := by
  obtain ⟨e, rfl⟩ := Nat.exists_eq_add_of_le' (show 1 ≤ n by omega)
  have hv₁ := hv (4 - (e + 1) + 1) (by omega) (by omega)
  have hv_low : Digits B vspace (4 - (e + 1) + 1 + 1) e := hv.tail
  have hV : numeral B vspace (4 - (e + 1) + 1) (e + 1) =
      vspace (4 - (e + 1) + 1) * B ^ e + numeral B vspace (4 - (e + 1) + 1 + 1) e := numeral_front _ _
  have hV_low := numeral_nonneg base_pos.le hv_low
  have hV_lt := numeral_lt base_pos hv
  have hpow : (0 : Int) < B ^ e := pow_pos base_pos e
  have hV_ge : B ^ e ≤ numeral B vspace (4 - (e + 1) + 1) (e + 1) := by
    have hmul : 1 * B ^ e ≤ vspace (4 - (e + 1) + 1) * B ^ e := Int.mul_le_mul_of_nonneg_right (by omega) hpow.le
    linarith
  have hU := numeral_nonneg base_pos.le hu
  rw [long, long]
  apply Agrees.bind (agrees_leadU hu (4 - (e + 1)) 0 (by omega) (show 1 ≤ e + 1 by omega) (fun i hi => by
    obtain rfl : i = 0 := by omega
    exact hu₀) (by
      rw [Nat.add_sub_cancel, show 4 - (e + 1) + (e + 1) = 4 by omega]
      exact le_trans hV_ge hle))
  rintro ⟨m, u⟩ ⟨hmu, hzeros, hnum⟩
  rw [show 4 - (e + 1) + (e + 1) = 4 by omega] at hnum
  change u + m + (e + 1) = 4 at hmu
  change ∀ i ≤ u, uspace i = 0 at hzeros
  change numeral B uspace (u + 1) (m + (e + 1)) = numeral B uspace (0 + 1) 4 at hnum
  have hdividend : numeral B uspace u (m + (e + 1) + 1) = numeral B uspace 1 4 := by
    rw [numeral_front, hzeros u (le_refl u), Int.zero_mul, Int.zero_add, hnum]
  have hdigits : Digits B uspace u (m + (e + 1) + 1) := by
    intro i h₁ h₂
    by_cases hi : i = u
    · rw [hi, hzeros u (le_refl u)]
      exact ⟨le_refl 0, base_pos⟩
    · exact hu i (by omega) (by omega)
  have hU_lt : numeral B uspace 1 4 < B ^ (m + (e + 1)) := by
    rw [Nat.zero_add] at hnum
    rw [← hnum]
    exact numeral_lt base_pos fun i h₁ h₂ => hu i (by omega) (by omega)
  apply Agrees.bind (agrees_zeros (4 - m) qspace)
  intro q₀ hq₀
  apply Agrees.bind (agrees_shift 15 (vspace (4 - (e + 1) + 1)) 0 (vspace (4 - (e + 1) + 1)) (by rw [pow_zero, Int.mul_one])
    (by omega) hv₁.2 (by simp only [B]; omega) (by decide))
  rintro d ⟨hd, hhalf, hfits⟩
  have hpow2 : (0 : Int) < 2 ^ d := by positivity
  apply Agrees.bind (agrees_normalize hd hdigits (by
    rw [hzeros u (le_refl u), Int.zero_mul]
    exact base_pos))
  rintro u₁ ⟨hu₁, hnum₁, hbefore₁⟩
  apply Agrees.bind (agrees_normalize hd (show Digits B vspace (4 - (e + 1) + 1) (e + 1 - 1 + 1) from hv) hfits)
  rintro v₁ ⟨hv₁', hnumv, -⟩
  rw [Nat.add_sub_cancel] at hv₁' hnumv
  have hnormal : B / 2 ≤ v₁ (4 - (e + 1) + 1) := by
    have hlow_lt := numeral_lt base_pos hv₁'.tail
    have hmul : B / 2 * B ^ e ≤ vspace (4 - (e + 1) + 1) * 2 ^ d * B ^ e := Int.mul_le_mul_of_nonneg_right hhalf hpow.le
    have hV_low' : 0 ≤ numeral B vspace (4 - (e + 1) + 1 + 1) e * 2 ^ d := Int.mul_nonneg hV_low hpow2.le
    have hfront := numeral_front (b := B) (p := v₁) (4 - (e + 1) + 1) e
    rw [hnumv, hV] at hfront
    by_contra hsmall
    have hmul' : (v₁ (4 - (e + 1) + 1) + 1) * B ^ e ≤ B / 2 * B ^ e := Int.mul_le_mul_of_nonneg_right (by omega) hpow.le
    linarith
  have hlt : numeral B u₁ u (e + 1 + (m + 1)) < numeral B v₁ (4 - (e + 1) + 1) (e + 1) * B ^ (m + 1) := by
    rw [show e + 1 + (m + 1) = m + (e + 1) + 1 by omega, hnum₁, hnumv, hdividend]
    calc numeral B uspace 1 4 * 2 ^ d < B ^ (m + (e + 1)) * 2 ^ d := Int.mul_lt_mul_of_pos_right hU_lt hpow2
      _ = B ^ e * (2 ^ d * B ^ (m + 1)) := by ring
      _ ≤ numeral B vspace (4 - (e + 1) + 1) (e + 1) * (2 ^ d * B ^ (m + 1)) :=
          Int.mul_le_mul_of_nonneg_right hV_ge (Int.mul_nonneg hpow2.le (pow_pos base_pos _).le)
      _ = numeral B vspace (4 - (e + 1) + 1) (e + 1) * 2 ^ d * B ^ (m + 1) := by ring
  apply Agrees.bind (agrees_turns hn hv₁' hnormal (m + 1) u (4 - m) u₁ q₀ (fun i h₁ h₂ => hu₁ i h₁ (by omega)) hlt)
  rintro left ⟨hleft, hquot, hremainder, hquotient, hbefore, hzeros', hqbefore⟩
  rw [show e + 1 + (m + 1) = m + (e + 1) + 1 by omega, hnum₁, hnumv, hdividend, Int.mul_comm _ (2 ^ d), Int.mul_comm _ (2 ^ d),
    Int.mul_emod_mul_of_pos _ _ hpow2, Int.mul_comm] at hremainder
  rw [show e + 1 + (m + 1) = m + (e + 1) + 1 by omega, hnum₁, hnumv, hdividend, Int.mul_comm _ (2 ^ d), Int.mul_comm _ (2 ^ d),
    Int.mul_ediv_mul_of_pos _ _ hpow2] at hquotient
  have hV_pos : 0 < numeral B vspace (4 - (e + 1) + 1) (e + 1) := lt_of_lt_of_le hpow hV_ge
  have hmod := Int.emod_nonneg (numeral B uspace 1 4) hV_pos.ne'
  have hmod_lt := Int.emod_lt_of_pos (numeral B uspace 1 4) hV_pos
  apply Agrees.bind (agrees_denormalize hd (show Digits B left.1 (u + m + 1) (e + 1) from hleft) (hzeros' (u + m) (by omega) (by omega))
    hmod (lt_trans hmod_lt hV_lt) hremainder)
  rintro u₂ ⟨hu₂, hzero₂, hnum₂, hbefore₂⟩
  have hzeros₂ : ∀ i ≤ u + m, u₂ i = 0 := by
    intro i hi
    rcases Nat.lt_or_eq_of_le hi with hlow | heq
    · rw [hbefore₂ i hlow]
      rcases Nat.lt_or_ge i u with hiu | hiu
      · rw [hbefore i hiu, hbefore₁ i hiu, hzeros i (by omega)]
      · exact hzeros' i hiu (by omega)
    · rw [heq, hzero₂]
  have hzerosq : ∀ i ≤ 3 - m, left.2 i = 0 := by
    intro i hi
    rw [hqbefore i (by omega), hq₀ i (by omega)]
  obtain ⟨hdigits_r, hr⟩ := numeral_of_last (by omega : u + m + (e + 1) = 4) hzeros₂ hu₂
  obtain ⟨hdigits_q, hq⟩ := numeral_of_last (by omega : 3 - m + (m + 1) = 4) hzerosq (by
    rw [show 3 - m + 1 = 4 - m by omega]
    exact hquot)
  apply agrees_quad_of_numeral hdigits_r
  apply agrees_quad_of_numeral hdigits_q
  apply Agrees.pure
  rw [hr, hnum₂, hq, show 3 - m + 1 = 4 - m by omega, hquotient]

/-- What `__qdivrem` returns is the quotient, and `*arq` the remainder; each value it stores on the way is that of a computation
with unbounded integers, modulo the size of its type. -/
theorem qdivrem_eq (uspace vspace qspace : Space) (uq vq : BitVec 64) (hvq : 0 < vq.toNat) :
    (qdivrem onMachine uspace vspace qspace uq.toNat vq.toNat).value = some (((uq / vq).toNat : Int), ((uq % vq).toNat : Int)) ∧
      (qdivrem onMachine uspace vspace qspace uq.toNat vq.toNat).log =
        (qdivrem exactly uspace vspace qspace uq.toNat vq.toNat).log.map fun stored => (stored.1, stored.2 % stored.1.size) := by
  suffices h : Agrees CType.size (qdivrem onMachine uspace vspace qspace uq.toNat vq.toNat)
      (qdivrem exactly uspace vspace qspace uq.toNat vq.toNat) fun r => r = ((uq.toNat : Int) / vq.toNat, (uq.toNat : Int) % vq.toNat) by
    obtain ⟨r, rfl, hm, he, hlog⟩ := h
    exact ⟨by rw [hm, BitVec.toNat_udiv, BitVec.toNat_umod]; rfl, hlog⟩
  have hu := uq.isLt
  have hv := vq.isLt
  rw [qdivrem, qdivrem]
  by_cases hlt : (uq.toNat : Int) < vq.toNat
  · rw [if_pos hlt, if_pos hlt]
    apply Agrees.pure
    rw [Int.ediv_eq_zero_of_lt (Int.natCast_nonneg _) hlt, Int.emod_eq_of_lt (Int.natCast_nonneg _) hlt]
  rw [if_neg hlt, if_neg hlt]
  apply agrees_set (le_refl 0) base_pos
  apply Agrees.bind (agrees_digits (Int.natCast_nonneg _) (show (uq.toNat : Int) < 18446744073709551616 by omega) _)
  rintro u ⟨hdigits, hnum, hzero⟩
  apply Agrees.bind (agrees_digits (Int.natCast_nonneg _) (show (vq.toNat : Int) < 18446744073709551616 by omega) _)
  rintro v ⟨hdigits', hnum', -⟩
  rcases leadV_spec v with ⟨hlead, hone⟩ | ⟨n, hn, hn4, hlead, hfirst, hdivisor⟩
  · rw [hlead, if_pos rfl, if_pos rfl]
    have hv₄ := hdigits' 4 (by decide) (by decide)
    rw [hone] at hnum'
    rw [← hnum, ← hnum']
    exact agrees_short hdigits (by rw [hnum']; omega) hv₄.2
  · rw [hlead, if_neg (by omega), if_neg (by omega)]
    rw [hdivisor] at hnum'
    rw [← hnum, ← hnum']
    exact agrees_long hn hn4 (fun i h₁ h₂ => hdigits' i (by omega) (by omega)) hfirst hdigits (by rw [hzero, update_self]) (by
      rw [hnum, hnum']
      omega)

/-- A division in which D6 adds the divisor back. -/
theorem qdivrem_eq_addBack :
    (qdivrem onMachine (fun _ => 7) (fun _ => 7) (fun _ => 7) (BitVec.ofNat 64 0x800000000003).toNat
        (BitVec.ofNat 64 0x200000000001).toNat).value =
      some (((BitVec.ofNat 64 0x800000000003 / BitVec.ofNat 64 0x200000000001).toNat : Int),
        ((BitVec.ofNat 64 0x800000000003 % BitVec.ofNat 64 0x200000000001).toNat : Int)) :=
  (qdivrem_eq (fun _ => 7) (fun _ => 7) (fun _ => 7) (BitVec.ofNat 64 0x800000000003) (BitVec.ofNat 64 0x200000000001)
    (by decide)).1

end NetBSD.Quad
