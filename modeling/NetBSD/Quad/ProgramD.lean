import NetBSD.Quad.Shifts

/-!
# Program D

One turn of the loop of `__qdivrem` divides the leading digits by the divisor.
-/

namespace NetBSD.Quad

open NetBSD.Lib Function

variable {α : Type} {vspace uspace : Space} {v j n : Nat}

theorem base_pos : (0 : Int) < B := by decide

section Estimate

variable {P W V uj₀ uj₁ uj₂ v₁ v₂ qhat rhat : Int}

structure Normalized (P W V uj₀ uj₁ uj₂ v₁ v₂ : Int) : Prop where
  leading : Leading B P W V uj₀ uj₁ uj₂ v₁ v₂
  uj₀_nonneg : 0 ≤ uj₀
  uj₁_nonneg : 0 ≤ uj₁
  uj₁_lt : uj₁ < B
  uj₂_nonneg : 0 ≤ uj₂
  uj₂_lt : uj₂ < B
  half_le : B / 2 ≤ v₁
  v₁_lt : v₁ < B
  v₂_lt : v₂ < B
  lt : W < B * V

structure Near (W V qhat : Int) : Prop where
  nonneg : 0 ≤ qhat
  lt_base : qhat < B
  lt : W < (qhat + 1) * V
  lt_add : qhat * V < W + V

theorem agrees_qhatTooBig {again again' : Int → Int → Logged CType Int} (h : Normalized P W V uj₀ uj₁ uj₂ v₁ v₂)
    (hpos : 1 ≤ qhat) (hle : qhat ≤ B) (hrhat : 0 ≤ rhat) (hrhat_lt : rhat < B)
    (hsplit : qhat * v₁ + rhat = uj₀ * B + uj₁) (hlt : W < qhat * V)
    (hagain : rhat + v₁ < B → Agrees CType.size (again (qhat - 1) (rhat + v₁)) (again' (qhat - 1) (rhat + v₁)) (Near W V)) :
    Agrees CType.size (qhatTooBig onMachine v₁ again qhat rhat) (qhatTooBig exactly v₁ again' qhat rhat) (Near W V) := by
  have hhalf := h.half_le
  have hv₁ := h.v₁_lt
  have hv₂ := h.v₂_lt
  have hv₂_nonneg := h.leading.second
  have huj₂ := h.uj₂_nonneg
  rw [qhatTooBig, qhatTooBig]
  simp only [B] at hle hrhat_lt hhalf hv₁
  apply agrees_uLong (by omega) (by omega)
  apply agrees_uLong (by omega) (by omega)
  by_cases hbig : B ≤ rhat + v₁
  · rw [if_pos hbig, if_pos hbig]
    apply Agrees.pure
    refine ⟨by omega, by simp only [B]; omega, by simpa using hlt, ?_⟩
    apply h.leading.lt_add_of_test (by simp only [B]; omega) (by omega)
    have hsecond : (qhat - 1) * v₂ ≤ B * B :=
      Int.mul_le_mul (by simp only [B]; omega) hv₂.le hv₂_nonneg base_pos.le
    have hfirst : (qhat - 1) * v₁ * B ≤ (uj₀ * B + uj₁ - B) * B :=
      Int.mul_le_mul_of_nonneg_right (by linarith) base_pos.le
    linarith
  · rw [if_neg hbig, if_neg hbig]
    exact hagain (by omega)

theorem agrees_whileTooBig (h : Normalized P W V uj₀ uj₁ uj₂ v₁ v₂) (fuel : Nat) (hfuel : B ≤ rhat + fuel * v₁)
    (hqhat : 0 ≤ qhat) (hqhat_lt : qhat < B) (hrhat : 0 ≤ rhat) (hrhat_lt : rhat < B)
    (hsplit : qhat * v₁ + rhat = uj₀ * B + uj₁) (hlt : W < (qhat + 1) * V) :
    Agrees CType.size (whileTooBig onMachine v₁ v₂ uj₂ fuel qhat rhat) (whileTooBig exactly v₁ v₂ uj₂ fuel qhat rhat)
      (Near W V) := by
  induction fuel generalizing qhat rhat with
  | zero =>
    push_cast at hfuel
    omega
  | succ fuel ih =>
    have hhalf := h.half_le
    have hv₂_nonneg := h.leading.second
    have huj₂ := h.uj₂_nonneg
    have hproduct : v₂ * qhat ≤ B * B := Int.mul_le_mul h.v₂_lt.le hqhat_lt.le hqhat base_pos.le
    have hproduct_nonneg : 0 ≤ v₂ * qhat := Int.mul_nonneg hv₂_nonneg hqhat
    have hproduct_lt : v₂ * qhat < 4294967296 := by
      have hv₂ := h.v₂_lt
      simp only [B] at hv₂ hqhat_lt
      nlinarith
    rw [whileTooBig, whileTooBig]
    apply agrees_uLong hproduct_nonneg hproduct_lt
    apply agrees_combine hrhat hrhat_lt huj₂ h.uj₂_lt
    have hexpand : qhat * (v₁ * B + v₂) = (uj₀ * B + uj₁) * B - rhat * B + v₂ * qhat := by
      rw [← hsplit]
      ring
    by_cases htest : rhat * B + uj₂ < v₂ * qhat
    · rw [if_pos htest, if_pos htest]
      have hpos : 1 ≤ qhat := by
        by_contra hzero
        obtain rfl : qhat = 0 := by omega
        have hpair : 0 ≤ rhat * B := Int.mul_nonneg hrhat base_pos.le
        linarith
      have hlt' : W < qhat * V := h.leading.lt_of_test hqhat (by linarith)
      apply agrees_qhatTooBig h hpos hqhat_lt.le hrhat hrhat_lt hsplit hlt'
      intro hsmall
      simp only [B] at hhalf
      apply ih _ (by omega) (by omega) (by omega) hsmall (by linarith) (by simpa using hlt')
      push_cast at hfuel
      linarith
    · rw [if_neg htest, if_neg htest]
      apply Agrees.pure
      refine ⟨hqhat, hqhat_lt, hlt, ?_⟩
      apply h.leading.lt_add_of_test hqhat_lt.le _ (by linarith)
      simp only [B] at hhalf
      omega

theorem agrees_calculateQhat (h : Normalized P W V uj₀ uj₁ uj₂ v₁ v₂) :
    Agrees CType.size (calculateQhat onMachine v₁ v₂ uj₀ uj₁ uj₂) (calculateQhat exactly v₁ v₂ uj₀ uj₁ uj₂) (Near W V) := by
  have hhalf := h.half_le
  have hv₁ := h.v₁_lt
  have huj₁ := h.uj₁_nonneg
  have huj₁_lt := h.uj₁_lt
  simp only [B] at hhalf hv₁ huj₁_lt
  by_cases heq : uj₀ = v₁
  · rw [calculateQhat, calculateQhat, if_pos heq, if_pos heq]
    apply agrees_uLong (by decide) (by decide)
    apply agrees_uLong huj₁ (by omega)
    apply agrees_qhatTooBig h (by decide) (le_refl B) huj₁ h.uj₁_lt (by rw [heq, Int.mul_comm]) h.lt
    intro hsmall
    apply agrees_whileTooBig h 2 _ (by decide) (by decide) (by omega) hsmall (by rw [heq]; ring) (by simpa using h.lt)
    simp only [B]
    push_cast
    omega
  · have hle : uj₀ ≤ v₁ := by
      by_contra hgt
      have hP := h.leading.weight
      have hsecond := h.v₂_lt
      have hdividend : (v₁ + 1) * B * B * P ≤ W :=
        calc (v₁ + 1) * B * B * P ≤ ((uj₀ * B + uj₁) * B + uj₂) * P := by
              apply Int.mul_le_mul_of_nonneg_right _ hP.le
              have huj₂ := h.uj₂_nonneg
              simp only [B]
              omega
          _ ≤ W := h.leading.dividend_le
      have hdivisor : B * V ≤ B * ((v₁ + 1) * B * P) := by
        apply Int.mul_le_mul_of_nonneg_left _ base_pos.le
        calc V ≤ (v₁ * B + v₂ + 1) * P := h.leading.lt_divisor.le
          _ ≤ (v₁ + 1) * B * P := by
              apply Int.mul_le_mul_of_nonneg_right _ hP.le
              linarith
      linarith [h.lt]
    rw [calculateQhat, calculateQhat, if_neg heq, if_neg heq]
    have huj₀ := h.uj₀_nonneg
    have hpos : 0 < v₁ := by omega
    have hdiv := Int.mul_ediv_add_emod (uj₀ * B + uj₁) v₁
    have hmod := Int.emod_nonneg (uj₀ * B + uj₁) hpos.ne'
    have hmod_lt := Int.emod_lt_of_pos (uj₀ * B + uj₁) hpos
    have hnonneg : 0 ≤ uj₀ * B + uj₁ := Int.add_nonneg (Int.mul_nonneg huj₀ base_pos.le) huj₁
    have hqhat : 0 ≤ (uj₀ * B + uj₁) / v₁ := Int.ediv_nonneg hnonneg hpos.le
    have hqhat_lt : (uj₀ * B + uj₁) / v₁ < B := by
      apply Int.ediv_lt_of_lt_mul hpos
      simp only [B]
      omega
    have hsplit : (uj₀ * B + uj₁) / v₁ * v₁ + (uj₀ * B + uj₁) % v₁ = uj₀ * B + uj₁ := by
      rw [Int.mul_comm]
      exact hdiv
    apply agrees_combine huj₀ (by simp only [B]; omega) huj₁ h.uj₁_lt
    apply agrees_uLong hqhat (lt_trans hqhat_lt (by decide))
    apply agrees_uLong hmod (by omega)
    apply agrees_whileTooBig h 2 _ hqhat hqhat_lt hmod (lt_trans hmod_lt h.v₁_lt) hsplit
      (h.leading.lt_of_first hqhat hmod_lt h.uj₂_lt hsplit)
    have htwice : B ≤ 2 * v₁ := by
      simp only [B]
      omega
    push_cast
    linarith

end Estimate

section Subtract

variable {qhat : Int}

theorem agrees_mulSub (hqhat : 0 ≤ qhat) (hqhat_lt : qhat < B) (i : Nat) (uspace : Space) (t : Int)
    (hu : Digits B uspace (j + 1) i) (hv : Digits B vspace (v + 1) i) (ht : 0 ≤ t) (ht_lt : t < B) :
    Agrees CType.size (mulSub onMachine qhat vspace v j i uspace t) (mulSub exactly qhat vspace v j i uspace t) fun left =>
      Digits B left.1 (j + 1) i ∧ 0 ≤ left.2 ∧ left.2 < B ∧
        numeral B uspace (j + 1) i - qhat * numeral B vspace (v + 1) i - t = numeral B left.1 (j + 1) i - left.2 * B ^ i ∧
          ∀ k, k < j + 1 ∨ j + i < k → left.1 k = uspace k := by
  induction i generalizing uspace t with
  | zero =>
    rw [mulSub, mulSub]
    exact Agrees.pure ⟨hu, ht, ht_lt, by simp [numeral], fun _ _ => rfl⟩
  | succ i ih =>
    have hlast := hu (j + (i + 1)) (by omega) (by omega)
    have hlast' := hv (v + (i + 1)) (by omega) (by omega)
    rw [mulSub, mulSub]
    generalize hx : uspace (j + (i + 1)) - vspace (v + (i + 1)) * qhat - t = x
    have hlow : lhalf (x % 4294967296) = lhalf x := by
      simp only [lhalf]
      omega
    have hhigh : (B - hhalf (x % 4294967296)) % B = (B - hhalf x) % B := by
      simp only [hhalf, B]
      omega
    have hproduct : vspace (v + (i + 1)) * qhat ≤ 65535 * 65535 := by
      simp only [B] at hlast' hqhat_lt
      exact Int.mul_le_mul (by omega) (by omega) hqhat (by decide)
    have hproduct_nonneg : 0 ≤ vspace (v + (i + 1)) * qhat := Int.mul_nonneg hlast'.1 hqhat
    simp only [B] at hlast ht_lt
    apply Agrees.store_wrapping rfl
    change Agrees CType.size (set onMachine _ _ (lhalf (x % 4294967296)) >>= fun _ =>
      Logged.store onMachine .uLong ((B - hhalf (x % 4294967296)) % B) >>= _) _ _
    rw [hlow, hhigh]
    have hdigit : 0 ≤ lhalf x ∧ lhalf x < B := by
      simp only [lhalf, B]
      omega
    have hborrow : (B - hhalf x) % B = -(x / 65536) := by
      simp only [hhalf, B]
      omega
    rw [hborrow]
    apply agrees_set hdigit.1 hdigit.2
    apply agrees_uLong (by omega) (by omega)
    have hsame : ∀ k, k ≠ j + (i + 1) → update uspace (j + (i + 1)) (lhalf x) k = uspace k := fun k hk => update_of_ne hk _ _
    apply (ih _ _ (hu.init.congr fun k _ hk => hsame k (by omega)) hv.init (by omega) (by simp only [B]; omega)).mono
    rintro left ⟨hdigits, hnonneg, hlt, hnum, hrest⟩
    have hset : left.1 (j + (i + 1)) = lhalf x := by
      rw [hrest _ (.inr (by omega)), update_self]
    refine ⟨?_, hnonneg, hlt, ?_, ?_⟩
    · intro k h₁ h₂
      by_cases hk : k = j + (i + 1)
      · rw [hk, hset]
        exact hdigit
      · exact hdigits k h₁ (by omega)
    · rw [numeral_congr uspace fun k _ hk => hsame k (by omega)] at hnum
      have hsplit : x = lhalf x + B * (x / 65536) := by
        simp only [lhalf, B]
        omega
      rw [numeral, numeral, numeral, show j + 1 + i = j + (i + 1) by omega, show v + 1 + i = v + (i + 1) by omega, hset, pow_succ]
      linear_combination hsplit + hx + B * hnum
    · intro k hk
      rw [hrest k (by omega), hsame k (by omega)]

theorem agrees_addBack (i : Nat) (uspace : Space) (t : Int)
    (hu : Digits B uspace (j + 1) i) (hv : Digits B vspace (v + 1) i) (ht : 0 ≤ t) (ht_le : t ≤ 1) :
    Agrees CType.size (addBack onMachine vspace v j i uspace t) (addBack exactly vspace v j i uspace t) fun left =>
      Digits B left.1 (j + 1) i ∧ 0 ≤ left.2 ∧ left.2 ≤ 1 ∧
        numeral B uspace (j + 1) i + numeral B vspace (v + 1) i + t = numeral B left.1 (j + 1) i + left.2 * B ^ i ∧
          ∀ k, k < j + 1 ∨ j + i < k → left.1 k = uspace k := by
  induction i generalizing uspace t with
  | zero =>
    rw [addBack, addBack]
    exact Agrees.pure ⟨hu, ht, ht_le, by simp [numeral], fun _ _ => rfl⟩
  | succ i ih =>
    have hlast := hu (j + (i + 1)) (by omega) (by omega)
    have hlast' := hv (v + (i + 1)) (by omega) (by omega)
    rw [addBack, addBack]
    generalize hx : t + (uspace (j + (i + 1)) + vspace (v + (i + 1))) = x
    have hdigit : 0 ≤ lhalf x ∧ lhalf x < B := by
      simp only [lhalf, B]
      omega
    simp only [B] at hlast hlast'
    have hcarry : 0 ≤ hhalf x ∧ hhalf x ≤ 1 := by
      simp only [hhalf]
      omega
    apply agrees_uLong (by omega) (by omega)
    apply agrees_set hdigit.1 hdigit.2
    apply agrees_uLong hcarry.1 (by omega)
    have hsame : ∀ k, k ≠ j + (i + 1) → update uspace (j + (i + 1)) (lhalf x) k = uspace k := fun k hk => update_of_ne hk _ _
    apply (ih _ _ (hu.init.congr fun k _ hk => hsame k (by omega)) hv.init hcarry.1 hcarry.2).mono
    rintro left ⟨hdigits, hnonneg, hle, hnum, hrest⟩
    have hset : left.1 (j + (i + 1)) = lhalf x := by
      rw [hrest _ (.inr (by omega)), update_self]
    refine ⟨?_, hnonneg, hle, ?_, ?_⟩
    · intro k h₁ h₂
      by_cases hk : k = j + (i + 1)
      · rw [hk, hset]
        exact hdigit
      · exact hdigits k h₁ (by omega)
    · rw [numeral_congr uspace fun k _ hk => hsame k (by omega)] at hnum
      have hsplit : x = lhalf x + B * hhalf x := by
        simp only [lhalf, hhalf, B]
        omega
      rw [numeral, numeral, numeral, show j + 1 + i = j + (i + 1) by omega, show v + 1 + i = v + (i + 1) by omega, hset, pow_succ]
      linear_combination hsplit + hx + B * hnum
    · intro k hk
      rw [hrest k (by omega), hsame k (by omega)]

end Subtract

end NetBSD.Quad
