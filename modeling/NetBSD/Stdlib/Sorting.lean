import NetBSD.Stdlib.Qsort

/-!
# qsort sorts

The blocks of equal elements go to the middle, and the blocks on both sides are sorted in turn.
-/

namespace NetBSD.Stdlib

open Lib (Rearranged Ordered TotalPreorder exchange exchange_left exchange_right exchange_of_ne rearranged_exchange)

variable {α : Type*} {cmp : α → α → Int} {lo hi a e i j n r x y z : Nat} {m : Nat → α} {v : α} {s : Parting α}

theorem vecswap_spec (hlo : lo ≤ i) (hdisj : i + r ≤ j) (hhi : j + r ≤ hi) :
    ∃ m', vecswap lo hi r i j m = some m' ∧ Rearranged i (j + r) m m' ∧ (∀ k, k < r → m' (i + k) = m (j + k) ∧ m' (j + k) = m (i + k)) ∧
      ∀ k, ¬(i ≤ k ∧ k < i + r) → ¬(j ≤ k ∧ k < j + r) → m' k = m k := by
  induction r generalizing i j m with
  | zero => exact ⟨m, rfl, .refl .., fun k hk => absurd hk (Nat.not_lt_zero k), fun _ _ _ => rfl⟩
  | succ r ih =>
    have hij : i < j := by omega
    rw [vecswap, swap_eq (by omega) (by omega), Option.bind_some]
    obtain ⟨m', hm', hre, hin, hout⟩ := ih (m := exchange m i j) (show lo ≤ i + 1 by omega) (show i + 1 + r ≤ j + 1 by omega) (by omega)
    have hend : j + 1 + r = j + (r + 1) := by omega
    rw [hend] at hre
    refine ⟨m', hm', (rearranged_exchange (by omega) (by omega) m).trans (hre.mono (Nat.le_succ i) (Nat.le_refl _)), fun k hk => ?_,
      fun k hki hkj => ?_⟩
    · cases k with
      | zero =>
        have hi' := hout i (by omega) (by omega)
        have hj' := hout j (by omega) (by omega)
        exact ⟨hi'.trans (exchange_left m i j), hj'.trans (exchange_right m i j)⟩
      | succ k =>
        obtain ⟨h₁, h₂⟩ := hin k (by omega)
        have heqi : i + 1 + k = i + (k + 1) := by omega
        have heqj : j + 1 + k = j + (k + 1) := by omega
        rw [heqi, heqj] at h₁ h₂
        exact ⟨h₁.trans (exchange_of_ne (by omega) (by omega) m), h₂.trans (exchange_of_ne (by omega) (by omega) m)⟩
    · rw [hout k (by omega) (by omega), exchange_of_ne (by omega) (by omega)]

theorem vecswap_blocks {P Q : α → Prop} (hlo : lo ≤ x) (hxy : x ≤ y) (hyz : y ≤ z) (hhi : z ≤ hi) (hP : ∀ i, x ≤ i → i < y → P (m i))
    (hQ : ∀ i, y ≤ i → i < z → Q (m i)) :
    ∃ m', vecswap lo hi (min (y - x) (z - y)) x (z - min (y - x) (z - y)) m = some m' ∧ Rearranged x z m m' ∧
      (∀ i, x ≤ i → i < x + (z - y) → Q (m' i)) ∧ ∀ i, x + (z - y) ≤ i → i < z → P (m' i) := by
  generalize hr : min (y - x) (z - y) = r
  obtain ⟨m', hm', hre, hin, hout⟩ := vecswap_spec (m := m) hlo (show x + r ≤ z - r by omega) (show z - r + r ≤ hi by omega)
  have hend : z - r + r = z := by omega
  rw [hend] at hre hout
  refine ⟨m', hm', hre, fun i hxi hi => ?_, fun i hxi hi => ?_⟩
  · rcases Nat.lt_or_ge i (x + r) with hlt | hge
    · obtain ⟨k, rfl⟩ := Nat.exists_eq_add_of_le hxi
      rw [(hin k (by omega)).1]
      exact hQ _ (by omega) (by omega)
    · rw [hout i (by omega) (by omega)]
      exact hQ i (by omega) (by omega)
  · rcases Nat.lt_or_ge i (z - r) with hlt | hge
    · rw [hout i (by omega) (by omega)]
      exact hP i (by omega) (by omega)
    · obtain ⟨k, rfl⟩ := Nat.exists_eq_add_of_le hge
      rw [(hin k (by omega)).2]
      exact hP _ (by omega) (by omega)

structure InBlocks (cmp : α → α → Int) (a l g e : Nat) (v : α) (m : Nat → α) : Prop where
  less : ∀ i, a ≤ i → i < l → cmp (m i) v < 0
  equal : ∀ i, l ≤ i → i < g → cmp (m i) v = 0
  more : ∀ i, g ≤ i → i < e → 0 < cmp (m i) v

theorem Parts.blocks (h : Parts cmp a e v s) (hend : s.pb = s.pc + 1) (hlo : lo ≤ a) (hhi : e ≤ hi) :
    ∃ m₁ m₂, vecswap lo hi (min (s.pa - a) (s.pb - s.pa)) a (s.pb - min (s.pa - a) (s.pb - s.pa)) s.m = some m₁ ∧
      vecswap lo hi (min (s.pd - s.pc) (e - s.pd - 1)) s.pb (e - min (s.pd - s.pc) (e - s.pd - 1)) m₁ = some m₂ ∧
        Rearranged a e s.m m₂ ∧ InBlocks cmp a (a + (s.pb - s.pa)) (e - (s.pd - s.pc)) e v m₂ := by
  have hpa := h.pa_gt
  have hpb := h.pa_le
  have hpc := h.pc_le
  have hpd := h.pd_lt
  obtain ⟨m₁, hm₁, hre₁, hless, hleft⟩ := vecswap_blocks (P := fun x => cmp x v = 0) (Q := fun x => cmp x v < 0) hlo hpa.le hpb
    (show s.pb ≤ hi by omega) h.left h.less
  have hsame : ∀ i, s.pb ≤ i → m₁ i = s.m i := fun i hi => hre₁.outside (by omega)
  obtain ⟨m₂, hm₂, hre₂, hright, hmore⟩ := vecswap_blocks (P := fun x => 0 < cmp x v) (Q := fun x => cmp x v = 0) (m := m₁)
    (show lo ≤ s.pb by omega) (show s.pb ≤ s.pd + 1 by omega) (show s.pd + 1 ≤ e from hpd) hhi
    (fun i hi hi' => by
      rw [hsame i hi]
      exact h.more i (by omega) (by omega))
    fun i hi hi' => by
      rw [hsame i (by omega)]
      exact h.right i (by omega) hi'
  have hsame₂ : ∀ i, i < s.pb → m₂ i = m₁ i := fun i hi => hre₂.outside (by omega)
  have h₁ : s.pd + 1 - s.pb = s.pd - s.pc := by omega
  have h₂ : e - (s.pd + 1) = e - s.pd - 1 := by omega
  rw [h₁, h₂] at hm₂
  refine ⟨m₁, m₂, hm₁, hm₂, (hre₁.mono (Nat.le_refl a) (by omega)).trans (hre₂.mono (by omega) (Nat.le_refl e)), fun i hi hi' => ?_,
    fun i hi hi' => ?_, fun i hi hi' => hmore i (by omega) hi'⟩
  · rw [hsame₂ i (by omega)]
    exact hless i hi hi'
  · rcases Nat.lt_or_ge i s.pb with hlt | hge
    · rw [hsame₂ i hlt]
      exact hleft i hi hlt
    · exact hright i hge (by omega)

theorem InBlocks.ordered {l g : Nat} (hcmp : TotalPreorder cmp) (h : InBlocks cmp a l g e v m) (hless : Ordered cmp a l m)
    (hmore : Ordered cmp g e m) : Ordered cmp a e m := by
  have hle : ∀ i j, cmp (m i) v ≤ 0 → 0 ≤ cmp (m j) v → cmp (m i) (m j) ≤ 0 := fun i j hi hj =>
    hcmp.trans _ _ _ hi (hcmp.nonneg_iff.1 hj)
  intro i j hai hij hje
  rcases Nat.lt_or_ge j l with hjl | hjl
  · exact hless i j hai hij hjl
  have hj : 0 ≤ cmp (m j) v := by
    rcases Nat.lt_or_ge j g with hjg | hjg
    · exact (h.equal j hjl hjg).ge
    · exact (h.more j hjg hje).le
  rcases Nat.lt_or_ge i g with hig | hig
  · refine hle i j ?_ hj
    rcases Nat.lt_or_ge i l with hil | hil
    · exact (h.less i hai hil).le
    · exact (h.equal i hil hig).le
  · exact hmore i j hig hij hje

theorem InBlocks.rearranged {l g c d : Nat} {m' : Nat → α} (h : InBlocks cmp a l g e v m) (hre : Rearranged c d m m')
    (hcd : a ≤ c ∧ d ≤ l ∨ g ≤ c ∧ d ≤ e) (hal : a ≤ l) (hlg : l ≤ g) : InBlocks cmp a l g e v m' := by
  have hall : ∀ {P : α → Prop} {x y : Nat}, (∀ i, x ≤ i → i < y → P (m i)) → (x ≤ c ∧ d ≤ y ∨ y ≤ c ∨ d ≤ x) →
      ∀ i, x ≤ i → i < y → P (m' i) := by
    intro P x y hP hxy i hxi hiy
    by_cases hin : c ≤ i ∧ i < d
    · obtain ⟨j, hj, heq⟩ := hre.from hin
      rw [heq]
      exact hP j (by omega) (by omega)
    · rw [hre.outside hin]
      exact hP i hxi hiy
  exact ⟨hall (P := fun x => cmp x v < 0) h.less (by omega), hall (P := fun x => cmp x v = 0) h.equal (by omega),
    hall (P := fun x => 0 < cmp x v) h.more (by omega)⟩

theorem Parts.start (hcmp : TotalPreorder cmp) (hn : 1 < n) (m : Nat → α) :
    Parts cmp a (a + n) (m a) ⟨a + 1, a + 1, a + (n - 1), a + (n - 1), false, m⟩ := by
  refine ⟨rfl, Nat.lt_succ_self a, Nat.le_refl _, by dsimp only; omega, Nat.le_refl _, by dsimp only; omega, fun i hi hi' => ?_,
    fun i hi hi' => absurd hi' (Nat.not_lt.2 hi), fun i hi hi' => absurd hi (Nat.not_lt.2 hi'), fun i hi hi' => ?_⟩
  · obtain rfl : i = a := Nat.le_antisymm (Nat.le_of_lt_succ hi') hi
    exact hcmp.self _
  · dsimp only at hi
    omega

theorem qsortLoop_spec (hcmp : TotalPreorder cmp) {fuel : Nat} (hfuel : n < fuel) (hlo : lo ≤ a) (hhi : a + n ≤ hi) :
    ∃ m', qsortLoop cmp lo hi fuel a n m = some m' ∧ Rearranged a (a + n) m m' ∧ Ordered cmp a (a + n) m' := by
  induction fuel generalizing a n m with
  | zero => exact absurd hfuel (Nat.not_lt_zero n)
  | succ fuel ih =>
    have hblock : ∀ c k m, k < fuel → lo ≤ c → c + k ≤ hi → ∃ m', (if k > 1 then qsortLoop cmp lo hi fuel c k m else some m) = some m' ∧
        Rearranged c (c + k) m m' ∧ Ordered cmp c (c + k) m' := by
      intro c k m hk hc hck
      split
      · exact ih hk hc hck
      · next hshort => exact ⟨m, rfl, .refl .., .of_short (by omega) m⟩
    rw [qsortLoop]
    split
    · exact insertionSort_spec hcmp hlo hhi
    next hn =>
    obtain ⟨pm, hpm, hle, hlt⟩ := choose_spec cmp m hlo hhi (Nat.not_lt.1 hn)
    rw [hpm, Option.bind_some, swap_eq (by omega) (by omega), Option.bind_some]
    have hre₀ := rearranged_exchange (show a ≤ a ∧ a < a + n by omega) (show a ≤ pm ∧ pm < a + n by omega) m
    generalize exchange m a pm = m₀ at *
    obtain ⟨s, hs, hparts, hre, hend⟩ := partLoop_spec hlo hhi (show a + (n - 1) + 1 - (a + 1) < n + 1 by omega)
      (Parts.start hcmp (by omega) m₀)
    rw [hs, Option.bind_some]
    replace hre : Rearranged a (a + n) m s.m := hre₀.trans hre
    split
    · obtain ⟨m', hm', hre', hord⟩ := insertionSort_spec (m := s.m) hcmp hlo hhi
      exact ⟨m', hm', hre.trans hre', hord⟩
    obtain ⟨m₁, m₂, hm₁, hm₂, hre₂, hblocks⟩ := hparts.blocks hend hlo hhi
    have hpa := hparts.pa_gt
    have hpb := hparts.pa_le
    have hpc := hparts.pc_le
    have hpd := hparts.pd_lt
    dsimp only
    rw [hm₁, Option.bind_some, hm₂, Option.bind_some]
    have hright : a + n - (s.pd - s.pc) + (s.pd - s.pc) = a + n := by omega
    obtain ⟨m₃, hm₃, hre₃, hord₃⟩ := hblock a (s.pb - s.pa) m₂ (by omega) hlo (by omega)
    obtain ⟨m₄, hm₄, hre₄, hord₄⟩ := hblock (a + n - (s.pd - s.pc)) (s.pd - s.pc) m₃ (by omega) (by omega) (by omega)
    rw [hright] at hre₄ hord₄
    rw [hm₃, Option.bind_some]
    refine ⟨m₄, hm₄, ?_, ?_⟩
    · have hleft := hre₃.mono (d := a + n) (Nat.le_refl a) (by omega)
      exact ((hre.trans hre₂).trans hleft).trans (hre₄.mono (by omega) (Nat.le_refl _))
    · have hb₃ := hblocks.rearranged hre₃ (by omega) (by omega) (by omega)
      have hb₄ := hb₃.rearranged hre₄ (by omega) (by omega) (by omega)
      exact hb₄.ordered hcmp (hord₃.congr fun i hi hi' => hre₄.outside (by omega)) hord₄

theorem qsort_spec (hcmp : TotalPreorder cmp) (hle : lo ≤ hi) (m : Nat → α) :
    ∃ m', qsort cmp lo hi m = some m' ∧ Rearranged lo hi m m' ∧ Ordered cmp lo hi m' := by
  have heq : lo + (hi - lo) = hi := by omega
  have hsorted := qsortLoop_spec (m := m) hcmp (Nat.lt_succ_self (hi - lo)) (Nat.le_refl lo) (Nat.le_of_eq heq)
  rw [heq] at hsorted
  exact hsorted

end NetBSD.Stdlib
