import NetBSD.Lib.Arrays
import Mathlib.Tactic.Common

/-!
# qsort

`qsort.c`. A pointer is the number of an element; swapping two elements byte by byte, or long by long, is one step. The array lies from
`lo` to `hi` in memory, and there is no result where something else is touched or a loop does not end. The `int`s hold differences of
pointers into the array, which fit.
-/

namespace NetBSD.Stdlib

open Lib (exchange)

variable {α : Type*} (cmp : α → α → Int) (lo hi : Nat)

def inside (i : Nat) : Bool := lo ≤ i ∧ i < hi

def compare (i j : Nat) (m : Nat → α) : Option Int := if inside lo hi i ∧ inside lo hi j then some (cmp (m i) (m j)) else none

def swap (i j : Nat) (m : Nat → α) : Option (Nat → α) := if inside lo hi i ∧ inside lo hi j then some (exchange m i j) else none

def insertLoop (a : Nat) : Nat → (Nat → α) → Option (Nat → α)
  | 0, m => some m
  | pl + 1, m =>
    if pl + 1 > a then
      (compare cmp lo hi pl (pl + 1) m).bind fun r => if r > 0 then (swap lo hi (pl + 1) pl m).bind (insertLoop a pl) else some m
    else some m

def insertionSort (a n : Nat) (m : Nat → α) : Option (Nat → α) :=
  (List.range' (a + 1) (n - 1)).foldlM (fun m pm => insertLoop cmp lo hi a pm m) m

def med3 (a b c : Nat) (m : Nat → α) : Option Nat :=
  (compare cmp lo hi a b m).bind fun r =>
    if r < 0 then
      (compare cmp lo hi b c m).bind fun r =>
        if r < 0 then some b else (compare cmp lo hi a c m).map fun r => if r < 0 then c else a
    else
      (compare cmp lo hi b c m).bind fun r =>
        if r > 0 then some b else (compare cmp lo hi a c m).map fun r => if r < 0 then a else c

def choose (a n : Nat) (m : Nat → α) : Option Nat :=
  let pm := a + n / 2
  if n > 7 then
    let pl := a
    let pn := a + (n - 1)
    if n > 40 then
      let d := n / 8
      (med3 cmp lo hi pl (pl + d) (pl + 2 * d) m).bind fun pl =>
        (med3 cmp lo hi (pm - d) pm (pm + d) m).bind fun pm =>
          (med3 cmp lo hi (pn - 2 * d) (pn - d) pn m).bind fun pn => med3 cmp lo hi pl pm pn m
    else med3 cmp lo hi pl pm pn m
  else some pm

structure Parting (α : Type*) where
  pa : Nat
  pb : Nat
  pc : Nat
  pd : Nat
  swapCnt : Bool
  m : Nat → α

def upLoop (a : Nat) : Nat → Parting α → Option (Parting α)
  | 0, _ => none
  | fuel + 1, s =>
    if s.pb ≤ s.pc then
      (compare cmp lo hi s.pb a s.m).bind fun r =>
        if r ≤ 0 then
          if r = 0 then
            (swap lo hi s.pa s.pb s.m).bind fun m =>
              upLoop a fuel { s with pa := s.pa + 1, pb := s.pb + 1, swapCnt := true, m := m }
          else upLoop a fuel { s with pb := s.pb + 1 }
        else some s
    else some s

def downLoop (a : Nat) : Nat → Parting α → Option (Parting α)
  | 0, _ => none
  | fuel + 1, s =>
    if s.pb ≤ s.pc then
      (compare cmp lo hi s.pc a s.m).bind fun r =>
        if r ≥ 0 then
          if r = 0 then
            (swap lo hi s.pc s.pd s.m).bind fun m =>
              downLoop a fuel { s with pc := s.pc - 1, pd := s.pd - 1, swapCnt := true, m := m }
          else downLoop a fuel { s with pc := s.pc - 1 }
        else some s
    else some s

def partLoop (a : Nat) : Nat → Parting α → Option (Parting α)
  | 0, _ => none
  | fuel + 1, s =>
    (upLoop cmp lo hi a (fuel + 1) s).bind fun s =>
      (downLoop cmp lo hi a (fuel + 1) s).bind fun s =>
        if s.pb > s.pc then some s
        else
          (swap lo hi s.pb s.pc s.m).bind fun m =>
            partLoop a fuel { s with pb := s.pb + 1, pc := s.pc - 1, swapCnt := true, m := m }

def vecswap : Nat → Nat → Nat → (Nat → α) → Option (Nat → α)
  | 0, _, _, m => some m
  | r + 1, i, j, m => (swap lo hi i j m).bind (vecswap r (i + 1) (j + 1))

def qsortLoop : Nat → Nat → Nat → (Nat → α) → Option (Nat → α)
  | 0, _, _, _ => none
  | fuel + 1, a, n, m =>
    if n < 7 then insertionSort cmp lo hi a n m
    else
      (choose cmp lo hi a n m).bind fun pm =>
        (swap lo hi a pm m).bind fun m =>
          (partLoop cmp lo hi a (n + 1) ⟨a + 1, a + 1, a + (n - 1), a + (n - 1), false, m⟩).bind fun s =>
            if s.swapCnt = false then insertionSort cmp lo hi a n s.m
            else
              let pn := a + n
              let r := min (s.pa - a) (s.pb - s.pa)
              (vecswap lo hi r a (s.pb - r) s.m).bind fun m =>
                let r := min (s.pd - s.pc) (pn - s.pd - 1)
                (vecswap lo hi r s.pb (pn - r) m).bind fun m =>
                  (if s.pb - s.pa > 1 then qsortLoop fuel a (s.pb - s.pa) m else some m).bind fun m =>
                    if s.pd - s.pc > 1 then qsortLoop fuel (pn - (s.pd - s.pc)) (s.pd - s.pc) m else some m

def qsort (m : Nat → α) : Option (Nat → α) := qsortLoop cmp lo hi (hi - lo + 1) lo (hi - lo) m

end NetBSD.Stdlib

/-!
## The parts of qsort

The insertion sort, and the parting of an array by one of its elements: what is less, what is equal and what is more.
-/

namespace NetBSD.Stdlib

open Lib (Rearranged Ordered TotalPreorder exchange exchange_left exchange_right exchange_of_ne rearranged_exchange)

variable {α : Type*} {cmp : α → α → Int} {lo hi a e i j n : Nat} {m : Nat → α} {v : α} {s : Parting α}

theorem inside_eq (h : lo ≤ i ∧ i < hi) : inside lo hi i = true := decide_eq_true h

theorem compare_eq (h : lo ≤ i ∧ i < hi) (h' : lo ≤ j ∧ j < hi) (m : Nat → α) : compare cmp lo hi i j m = some (cmp (m i) (m j)) :=
  if_pos ⟨inside_eq h, inside_eq h'⟩

theorem swap_eq (h : lo ≤ i ∧ i < hi) (h' : lo ≤ j ∧ j < hi) (m : Nat → α) : swap lo hi i j m = some (exchange m i j) :=
  if_pos ⟨inside_eq h, inside_eq h'⟩

def InFlight (cmp : α → α → Int) (a pl e : Nat) (m : Nat → α) : Prop := ∀ i j, a ≤ i → i < j → j < e → j ≠ pl → cmp (m i) (m j) ≤ 0

theorem InFlight.ordered {pl : Nat} (hcmp : TotalPreorder cmp) (h : InFlight cmp a pl e m) (hlt : pl < e)
    (hprev : a < pl → cmp (m (pl - 1)) (m pl) ≤ 0) : Ordered cmp a e m := by
  intro i j ha hij hj
  by_cases heq : j = pl
  · subst heq
    have hlast := hprev (Nat.lt_of_le_of_lt ha hij)
    rcases Nat.lt_or_ge i (j - 1) with hi | hi
    · exact hcmp.trans _ _ _ (h i (j - 1) ha hi (by omega) (by omega)) hlast
    · obtain rfl : i = j - 1 := by omega
      exact hlast
  · exact h i j ha hij hj heq

theorem InFlight.down {pl : Nat} (hcmp : TotalPreorder cmp) (h : InFlight cmp a (pl + 1) e m) (ha : a ≤ pl) (he : pl + 1 < e)
    (hpos : 0 < cmp (m pl) (m (pl + 1))) : InFlight cmp a pl e (exchange m (pl + 1) pl) := by
  intro i j hi hij hj hne
  by_cases hjeq : j = pl + 1
  · subst hjeq
    rw [exchange_left]
    by_cases hieq : i = pl
    · subst hieq
      rw [exchange_right]
      exact hcmp.le_of_pos hpos
    · rw [exchange_of_ne (by omega) hieq]
      exact h i pl hi (by omega) (by omega) (by omega)
  rw [exchange_of_ne hjeq hne]
  by_cases hieq : i = pl + 1
  · subst hieq
    rw [exchange_left]
    exact h pl j ha (by omega) hj hjeq
  by_cases hieq' : i = pl
  · subst hieq'
    rw [exchange_right]
    exact h (i + 1) j (by omega) (by omega) hj hjeq
  · rw [exchange_of_ne hieq hieq']
    exact h i j hi hij hj hjeq

theorem insertLoop_spec {pl : Nat} (hcmp : TotalPreorder cmp) (hlo : lo ≤ a) (hhi : e ≤ hi) (ha : a ≤ pl) (he : pl < e)
    (h : InFlight cmp a pl e m) : ∃ m', insertLoop cmp lo hi a pl m = some m' ∧ Rearranged a e m m' ∧ Ordered cmp a e m' := by
  induction pl generalizing m with
  | zero => exact ⟨m, rfl, .refl a e m, h.ordered hcmp he fun hlt => absurd hlt (Nat.not_lt_zero a)⟩
  | succ pl ih =>
    rw [insertLoop]
    split
    · next hgt =>
      rw [compare_eq (by omega) (by omega), Option.bind_some]
      split
      · next hpos =>
        rw [swap_eq (by omega) (by omega), Option.bind_some]
        obtain ⟨m', hm', hre, hord⟩ := ih (by omega) (by omega) (h.down hcmp (by omega) he hpos)
        exact ⟨m', hm', (rearranged_exchange (by omega) (by omega) m).trans hre, hord⟩
      · next hle => exact ⟨m, rfl, .refl a e m, h.ordered hcmp he fun _ => Int.not_lt.1 hle⟩
    · next hge => exact ⟨m, rfl, .refl a e m, h.ordered hcmp he fun hlt => absurd hlt hge⟩

theorem insertionLoop_spec {pm k : Nat} (hcmp : TotalPreorder cmp) (hlo : lo ≤ a) (hhi : pm + k ≤ hi) (ha : a ≤ pm) (h : Ordered cmp a pm m) :
    ∃ m', (List.range' pm k).foldlM (fun m pm => insertLoop cmp lo hi a pm m) m = some m' ∧ Rearranged a (pm + k) m m' ∧
      Ordered cmp a (pm + k) m' := by
  induction k generalizing pm m with
  | zero => exact ⟨m, rfl, .refl .., h⟩
  | succ k ih =>
    have hflight : InFlight cmp a pm (pm + 1) m := fun i j hi hij hj hne => h i j hi hij (by omega)
    obtain ⟨m₁, hm₁, hre₁, hord₁⟩ := insertLoop_spec hcmp hlo (show pm + 1 ≤ hi by omega) ha (Nat.lt_succ_self pm) hflight
    obtain ⟨m', hm', hre, hord⟩ := ih (show pm + 1 + k ≤ hi by omega) (by omega) hord₁
    have heq : pm + 1 + k = pm + (k + 1) := by omega
    rw [heq] at hre hord
    refine ⟨m', ?_, (hre₁.mono (Nat.le_refl a) (by omega)).trans hre, hord⟩
    rw [List.range'_succ, List.foldlM_cons, hm₁]
    exact hm'

theorem insertionSort_spec (hcmp : TotalPreorder cmp) (hlo : lo ≤ a) (hhi : a + n ≤ hi) :
    ∃ m', insertionSort cmp lo hi a n m = some m' ∧ Rearranged a (a + n) m m' ∧ Ordered cmp a (a + n) m' := by
  rcases Nat.eq_zero_or_pos n with rfl | hpos
  · exact ⟨m, rfl, .refl .., .of_short (by omega) m⟩
  · have heq : a + 1 + (n - 1) = a + n := by omega
    have hsorted := insertionLoop_spec hcmp hlo (show a + 1 + (n - 1) ≤ hi by omega) (by omega) (.of_short (Nat.le_refl _) m)
    rw [heq] at hsorted
    exact hsorted

theorem med3_spec {b c : Nat} (cmp : α → α → Int) (m : Nat → α) (ha : lo ≤ a ∧ a < hi) (hb : lo ≤ b ∧ b < hi) (hc : lo ≤ c ∧ c < hi) :
    ∃ p, med3 cmp lo hi a b c m = some p ∧ (p = a ∨ p = b ∨ p = c) := by
  rw [med3, compare_eq ha hb, Option.bind_some]
  split <;> rw [compare_eq hb hc, Option.bind_some] <;> split
  · exact ⟨b, rfl, .inr (.inl rfl)⟩
  · refine ⟨_, by rw [compare_eq ha hc]; rfl, ?_⟩
    dsimp only
    split
    · exact .inr (.inr rfl)
    · exact .inl rfl
  · exact ⟨b, rfl, .inr (.inl rfl)⟩
  · refine ⟨_, by rw [compare_eq ha hc]; rfl, ?_⟩
    dsimp only
    split
    · exact .inl rfl
    · exact .inr (.inr rfl)

theorem choose_spec (cmp : α → α → Int) (m : Nat → α) (hlo : lo ≤ a) (hhi : a + n ≤ hi) (hn : 7 ≤ n) : ∃ p, choose cmp lo hi a n m = some p ∧ a ≤ p ∧ p < a + n := by
  have hin : ∀ p, a ≤ p → p < a + n → lo ≤ p ∧ p < hi := fun p hle hlt => ⟨hlo.trans hle, hlt.trans_le hhi⟩
  rw [choose]
  dsimp only
  have hd : 8 * (n / 8) ≤ n := Nat.mul_div_le n 8
  have hh : 2 * (n / 2) ≤ n := Nat.mul_div_le n 2
  have hh' : n < 2 * (n / 2) + 2 := by omega
  generalize n / 8 = d at hd ⊢
  generalize n / 2 = h at hh hh' ⊢
  split
  · split
    · obtain ⟨pl, hpl, hl⟩ := med3_spec cmp m (hin a (by omega) (by omega)) (hin (a + d) (by omega) (by omega))
        (hin (a + 2 * d) (by omega) (by omega))
      replace hl : a ≤ pl ∧ pl < a + n := by omega
      obtain ⟨pm, hpm, hm⟩ := med3_spec cmp m (hin (a + h - d) (by omega) (by omega)) (hin (a + h) (by omega) (by omega))
        (hin (a + h + d) (by omega) (by omega))
      replace hm : a ≤ pm ∧ pm < a + n := by omega
      obtain ⟨pn, hpn, hn'⟩ := med3_spec cmp m (hin (a + (n - 1) - 2 * d) (by omega) (by omega))
        (hin (a + (n - 1) - d) (by omega) (by omega)) (hin (a + (n - 1)) (by omega) (by omega))
      replace hn' : a ≤ pn ∧ pn < a + n := by omega
      obtain ⟨p, hp, hmid⟩ := med3_spec cmp m (hin pl hl.1 hl.2) (hin pm hm.1 hm.2) (hin pn hn'.1 hn'.2)
      refine ⟨p, ?_, by omega, by omega⟩
      rw [hpl, Option.bind_some, hpm, Option.bind_some, hpn, Option.bind_some, hp]
    · obtain ⟨p, hp, hmid⟩ := med3_spec cmp m (hin a (by omega) (by omega)) (hin (a + h) (by omega) (by omega))
        (hin (a + (n - 1)) (by omega) (by omega))
      exact ⟨p, hp, by omega, by omega⟩
  · exact ⟨_, rfl, by omega, by omega⟩

/-- How the elements compare with the one at `a`, which is `v`; those from `pb` to `pc` have not been looked at. -/
structure Parts (cmp : α → α → Int) (a e : Nat) (v : α) (s : Parting α) : Prop where
  pivot : s.m a = v
  pa_gt : a < s.pa
  pa_le : s.pa ≤ s.pb
  pb_le : s.pb ≤ s.pc + 1
  pc_le : s.pc ≤ s.pd
  pd_lt : s.pd < e
  left : ∀ i, a ≤ i → i < s.pa → cmp (s.m i) v = 0
  less : ∀ i, s.pa ≤ i → i < s.pb → cmp (s.m i) v < 0
  more : ∀ i, s.pc < i → i ≤ s.pd → 0 < cmp (s.m i) v
  right : ∀ i, s.pd < i → i < e → cmp (s.m i) v = 0

theorem Parts.up_equal (h : Parts cmp a e v s) (hle : s.pb ≤ s.pc) (hv : cmp (s.m s.pb) v = 0) :
    Parts cmp a e v { s with pa := s.pa + 1, pb := s.pb + 1, swapCnt := true, m := exchange s.m s.pa s.pb } := by
  have hpa := h.pa_gt
  have hpb := h.pa_le
  have hpc := h.pc_le
  have hself : ∀ i, i < s.pa ∨ s.pb < i → exchange s.m s.pa s.pb i = s.m i := fun i hi => exchange_of_ne (by omega) (by omega) s.m
  refine ⟨?_, by dsimp only; omega, by dsimp only; omega, by dsimp only; omega, hpc, h.pd_lt, fun i hai hi => ?_, fun i hai hi => ?_,
    fun i hci hi => ?_, fun i hdi hi => ?_⟩ <;> dsimp only at *
  · rw [hself a (.inl hpa)]
    exact h.pivot
  · by_cases heq : i = s.pa
    · rw [heq, exchange_left]
      exact hv
    · rw [hself i (.inl (by omega))]
      exact h.left i hai (by omega)
  · by_cases heq : i = s.pb
    · rw [heq, exchange_right]
      exact h.less s.pa (Nat.le_refl _) (by omega)
    · rw [exchange_of_ne (by omega) heq]
      exact h.less i (by omega) (by omega)
  · rw [hself i (.inr (by omega))]
    exact h.more i hci hi
  · rw [hself i (.inr (by omega))]
    exact h.right i hdi hi

theorem Parts.up_less (h : Parts cmp a e v s) (hle : s.pb ≤ s.pc) (hv : cmp (s.m s.pb) v < 0) :
    Parts cmp a e v { s with pb := s.pb + 1 } := by
  have hpb := h.pa_le
  refine { h with pa_le := by dsimp only; omega, pb_le := by dsimp only; omega, less := fun i hai hi => ?_ }
  by_cases heq : i = s.pb
  · exact heq ▸ hv
  · exact h.less i hai (Nat.lt_of_le_of_ne (Nat.le_of_lt_succ hi) heq)

theorem Parts.down_equal (h : Parts cmp a e v s) (hle : s.pb ≤ s.pc) (hv : cmp (s.m s.pc) v = 0) :
    Parts cmp a e v { s with pc := s.pc - 1, pd := s.pd - 1, swapCnt := true, m := exchange s.m s.pc s.pd } := by
  have hpa := h.pa_gt
  have hpb := h.pa_le
  have hpc := h.pc_le
  have hpd := h.pd_lt
  have hself : ∀ i, i < s.pc ∨ s.pd < i → exchange s.m s.pc s.pd i = s.m i := fun i hi => exchange_of_ne (by omega) (by omega) s.m
  refine ⟨?_, hpa, hpb, by dsimp only; omega, by dsimp only; omega, by dsimp only; omega, fun i hai hi => ?_, fun i hai hi => ?_,
    fun i hci hi => ?_, fun i hdi hi => ?_⟩ <;> dsimp only at *
  · rw [hself a (.inl (by omega))]
    exact h.pivot
  · rw [hself i (.inl (by omega))]
    exact h.left i hai hi
  · rw [hself i (.inl (by omega))]
    exact h.less i hai hi
  · by_cases heq : i = s.pc
    · rw [heq, exchange_left]
      exact h.more s.pd (by omega) (Nat.le_refl _)
    · rw [exchange_of_ne heq (by omega)]
      exact h.more i (by omega) (by omega)
  · by_cases heq : i = s.pd
    · rw [heq, exchange_right]
      exact hv
    · rw [hself i (.inr (by omega))]
      exact h.right i (by omega) hi

theorem Parts.down_more (h : Parts cmp a e v s) (hle : s.pb ≤ s.pc) (hv : 0 < cmp (s.m s.pc) v) :
    Parts cmp a e v { s with pc := s.pc - 1 } := by
  have hpa := h.pa_gt
  have hpb := h.pa_le
  have hpc := h.pc_le
  refine { h with pb_le := by dsimp only; omega, pc_le := by dsimp only; omega, more := fun i hci hi => ?_ }
  by_cases heq : i = s.pc
  · exact heq ▸ hv
  · exact h.more i (by dsimp only at hci; omega) hi

theorem Parts.cross (h : Parts cmp a e v s) (hlt : s.pb < s.pc) (hmore : 0 < cmp (s.m s.pb) v) (hless : cmp (s.m s.pc) v < 0) :
    Parts cmp a e v { s with pb := s.pb + 1, pc := s.pc - 1, swapCnt := true, m := exchange s.m s.pb s.pc } := by
  have hpa := h.pa_gt
  have hpb := h.pa_le
  have hpc := h.pc_le
  have hself : ∀ i, i < s.pb ∨ s.pc < i → exchange s.m s.pb s.pc i = s.m i := fun i hi => exchange_of_ne (by omega) (by omega) s.m
  refine ⟨?_, hpa, by dsimp only; omega, by dsimp only; omega, by dsimp only; omega, h.pd_lt, fun i hai hi => ?_, fun i hai hi => ?_,
    fun i hci hi => ?_, fun i hdi hi => ?_⟩ <;> dsimp only at *
  · rw [hself a (.inl (by omega))]
    exact h.pivot
  · rw [hself i (.inl (by omega))]
    exact h.left i hai hi
  · by_cases heq : i = s.pb
    · rw [heq, exchange_left]
      exact hless
    · rw [hself i (.inl (by omega))]
      exact h.less i hai (by omega)
  · by_cases heq : i = s.pc
    · rw [heq, exchange_right]
      exact hmore
    · rw [hself i (.inr (by omega))]
      exact h.more i (by omega) hi
  · rw [hself i (.inr (by omega))]
    exact h.right i hdi hi

theorem upLoop_spec (hlo : lo ≤ a) (hhi : e ≤ hi) {fuel : Nat} (hfuel : s.pc + 1 - s.pb < fuel) (h : Parts cmp a e v s) :
    ∃ s', upLoop cmp lo hi a fuel s = some s' ∧ Parts cmp a e v s' ∧ Rearranged a e s.m s'.m ∧ s'.pc = s.pc ∧ s.pb ≤ s'.pb ∧
      (s'.pb ≤ s'.pc → 0 < cmp (s'.m s'.pb) v) := by
  induction fuel generalizing s with
  | zero => exact absurd hfuel (Nat.not_lt_zero _)
  | succ fuel ih =>
    have hpa := h.pa_gt
    have hpb := h.pa_le
    have hpc := h.pc_le
    have hpd := h.pd_lt
    rw [upLoop]
    split
    · next hle =>
      rw [compare_eq (by omega) (by omega), Option.bind_some, h.pivot]
      split
      · next hnpos =>
        split
        · next heq =>
          rw [swap_eq (by omega) (by omega), Option.bind_some]
          obtain ⟨s', hs', hparts, hre, hpc', hpb', hstop⟩ := ih (by dsimp only; omega) (h.up_equal hle heq)
          exact ⟨s', hs', hparts, (rearranged_exchange (by omega) (by omega) s.m).trans hre, hpc', (Nat.le_succ _).trans hpb', hstop⟩
        · next hne =>
          obtain ⟨s', hs', hparts, hre, hpc', hpb', hstop⟩ := ih (by dsimp only; omega) (h.up_less hle (by omega))
          exact ⟨s', hs', hparts, hre, hpc', (Nat.le_succ _).trans hpb', hstop⟩
      · next hpos => exact ⟨s, rfl, h, .refl .., rfl, Nat.le_refl _, fun _ => Int.not_le.1 hpos⟩
    · next hgt => exact ⟨s, rfl, h, .refl .., rfl, Nat.le_refl _, fun hle => absurd hle hgt⟩

theorem downLoop_spec (hlo : lo ≤ a) (hhi : e ≤ hi) {fuel : Nat} (hfuel : s.pc + 1 - s.pb < fuel) (h : Parts cmp a e v s)
    (hmore : s.pb ≤ s.pc → 0 < cmp (s.m s.pb) v) :
    ∃ s', downLoop cmp lo hi a fuel s = some s' ∧ Parts cmp a e v s' ∧ Rearranged a e s.m s'.m ∧ s'.pb = s.pb ∧ s'.pc ≤ s.pc ∧
      (s'.pb ≤ s'.pc → 0 < cmp (s'.m s'.pb) v ∧ cmp (s'.m s'.pc) v < 0) := by
  induction fuel generalizing s with
  | zero => exact absurd hfuel (Nat.not_lt_zero _)
  | succ fuel ih =>
    have hpa := h.pa_gt
    have hpb := h.pa_le
    have hpc := h.pc_le
    have hpd := h.pd_lt
    rw [downLoop]
    split
    · next hle =>
      rw [compare_eq (by omega) (by omega), Option.bind_some, h.pivot]
      split
      · next hnneg =>
        split
        · next heq =>
          rw [swap_eq (by omega) (by omega), Option.bind_some]
          have hne : s.pb ≠ s.pc := fun hpbc => by
            have := hmore hle
            rw [hpbc] at this
            omega
          obtain ⟨s', hs', hparts, hre, hpb', hpc', hstop⟩ := ih (by dsimp only; omega) (h.down_equal hle heq) fun _ => by
            dsimp only
            rw [exchange_of_ne hne (by omega)]
            exact hmore hle
          exact ⟨s', hs', hparts, (rearranged_exchange (by omega) (by omega) s.m).trans hre, hpb', hpc'.trans (Nat.sub_le ..), hstop⟩
        · next hne =>
          obtain ⟨s', hs', hparts, hre, hpb', hpc', hstop⟩ := ih (by dsimp only; omega) (h.down_more hle (by omega)) fun _ => hmore hle
          exact ⟨s', hs', hparts, hre, hpb', hpc'.trans (Nat.sub_le ..), hstop⟩
      · next hneg => exact ⟨s, rfl, h, .refl .., rfl, Nat.le_refl _, fun _ => ⟨hmore hle, Int.not_le.1 hneg⟩⟩
    · next hgt => exact ⟨s, rfl, h, .refl .., rfl, Nat.le_refl _, fun hle => absurd hle hgt⟩

theorem partLoop_spec (hlo : lo ≤ a) (hhi : e ≤ hi) {fuel : Nat} (hfuel : s.pc + 1 - s.pb < fuel) (h : Parts cmp a e v s) :
    ∃ s', partLoop cmp lo hi a fuel s = some s' ∧ Parts cmp a e v s' ∧ Rearranged a e s.m s'.m ∧ s'.pb = s'.pc + 1 := by
  induction fuel generalizing s with
  | zero => exact absurd hfuel (Nat.not_lt_zero _)
  | succ fuel ih =>
    obtain ⟨s₁, hs₁, h₁, hre₁, hpc₁, hpb₁, hmore₁⟩ := upLoop_spec hlo hhi hfuel h
    obtain ⟨s₂, hs₂, h₂, hre₂, hpb₂, hpc₂, hstop⟩ := downLoop_spec hlo hhi (show s₁.pc + 1 - s₁.pb < fuel + 1 by omega) h₁ hmore₁
    rw [partLoop, hs₁, Option.bind_some, hs₂, Option.bind_some]
    have hpb := h₂.pb_le
    split
    · next hgt => exact ⟨s₂, rfl, h₂, hre₁.trans hre₂, by omega⟩
    · next hle =>
      obtain ⟨hmore, hless⟩ := hstop (by omega)
      have hlt : s₂.pb < s₂.pc := by
        refine Nat.lt_of_le_of_ne (by omega) fun heq => ?_
        rw [heq] at hmore
        omega
      have hpa := h₂.pa_gt
      have hpa' := h₂.pa_le
      have hpc := h₂.pc_le
      have hpd := h₂.pd_lt
      rw [swap_eq (by omega) (by omega), Option.bind_some]
      obtain ⟨s', hs', h', hre, hend⟩ := ih (by dsimp only; omega) (h₂.cross hlt hmore hless)
      exact ⟨s', hs', h', (hre₁.trans hre₂).trans ((rearranged_exchange (by omega) (by omega) s₂.m).trans hre), hend⟩

end NetBSD.Stdlib
