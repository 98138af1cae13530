import Mathlib.Algebra.BigOperators.Intervals
import Mathlib.Algebra.Order.BigOperators.Group.Finset

/-!
# Maximal spans of a bit map

The spans of set bits in a stretch of a bit map that cannot be made longer, and how many of each length there are.
When a piece of a span is cleared, the span goes and what is left of it on either side comes.
-/

namespace NetBSD.Lib

variable {p q : Nat → Bool} {a b i j k m s e : Nat}

/-- The `k` bits from `i` are set, and those around them are not, as far as they are from `a` up to `b`. -/
def IsSpan (p : Nat → Bool) (a b i k : Nat) : Prop :=
  a ≤ i ∧ i + k ≤ b ∧ (∀ j < k, p (i + j) = true) ∧ (i = a ∨ p (i - 1) = false) ∧ (i + k = b ∨ p (i + k) = false)

instance : Decidable (IsSpan p a b i k) := inferInstanceAs (Decidable (_ ∧ _ ∧ _ ∧ _ ∧ _))

def spans (p : Nat → Bool) (a b k : Nat) : Nat := ((Finset.Ico a b).filter fun i => IsSpan p a b i k).card

def capped (p : Nat → Bool) (a b c k : Nat) : Nat := ∑ l ∈ Finset.Icc 1 (b - a), if min l c = k then spans p a b l else 0

theorem IsSpan.get (h : IsSpan p a b i k) (hij : i ≤ j) (hj : j < i + k) : p j = true := by
  have hget := h.2.2.1 (j - i) (by omega)
  rwa [Nat.add_sub_cancel' hij] at hget

theorem spans_pos (h : 0 < spans p a b k) : ∃ i, IsSpan p a b i k := by
  obtain ⟨i, hi⟩ := Finset.card_pos.mp h
  exact ⟨i, (Finset.mem_filter.mp hi).2⟩

theorem IsSpan.pos (h : IsSpan p a b i k) (hk : 0 < k) : 0 < spans p a b k := by
  have hab : a ≤ i ∧ i + k ≤ b := ⟨h.1, h.2.1⟩
  obtain ⟨ha, hb⟩ := hab
  apply Finset.card_pos.mpr
  exact ⟨i, Finset.mem_filter.mpr ⟨Finset.mem_Ico.mpr ⟨ha, by omega⟩, h⟩⟩

theorem IsSpan.congr (h : IsSpan p a b i k) (hpq : ∀ j, a ≤ j → j < b → q j = p j) : IsSpan q a b i k := by
  obtain ⟨ha, hb, hset, hleft, hright⟩ := h
  refine ⟨ha, hb, ?_, ?_, ?_⟩
  · intro j hj
    rw [hpq (i + j) (by omega) (by omega), hset j hj]
  · by_cases hi : i = a
    · exact Or.inl hi
    · rw [hpq (i - 1) (by omega) (by omega)]
      exact hleft
  · by_cases hi : i + k = b
    · exact Or.inl hi
    · rw [hpq (i + k) (by omega) (by omega)]
      exact hright

theorem spans_congr (hpq : ∀ j, a ≤ j → j < b → q j = p j) (k : Nat) : spans q a b k = spans p a b k := by
  unfold spans
  congr 1
  apply Finset.filter_congr
  intro i _
  constructor
  · exact fun h => h.congr fun j ha hb => (hpq j ha hb).symm
  · exact fun h => h.congr hpq

theorem isSpan_add (c n : Nat) : IsSpan p c (c + n) (c + i) k ↔ IsSpan (fun j => p (c + j)) 0 n i k := by
  unfold IsSpan
  constructor
  · rintro ⟨-, hb, hset, hleft, hright⟩
    refine ⟨Nat.zero_le _, by omega, fun j hj => ?_, ?_, ?_⟩
    · dsimp only
      rw [← Nat.add_assoc]
      exact hset j hj
    · dsimp only
      rcases Nat.eq_zero_or_pos i with hi | hi
      · exact Or.inl hi
      · rw [← Nat.add_sub_assoc hi]
        exact Or.inr (hleft.resolve_left (by omega))
    · rcases hright with hright | hright
      · exact Or.inl (by omega)
      · dsimp only
        rw [← Nat.add_assoc]
        exact Or.inr hright
  · rintro ⟨-, hb, hset, hleft, hright⟩
    refine ⟨Nat.le_add_right .., by omega, fun j hj => ?_, ?_, ?_⟩
    · rw [Nat.add_assoc]
      exact hset j hj
    · rcases Nat.eq_zero_or_pos i with hi | hi
      · exact Or.inl (by omega)
      · rw [Nat.add_sub_assoc hi]
        exact Or.inr (hleft.resolve_left hi.ne')
    · rcases hright with hright | hright
      · exact Or.inl (by omega)
      · exact Or.inr (by rwa [Nat.add_assoc])

theorem spans_add (p : Nat → Bool) (c n k : Nat) : spans p c (c + n) k = spans (fun j => p (c + j)) 0 n k := by
  unfold spans
  symm
  apply Finset.card_bij fun i _ => c + i
  · intro i hi
    obtain ⟨hi, hspan⟩ := Finset.mem_filter.mp hi
    have hlt := (Finset.mem_Ico.mp hi).2
    exact Finset.mem_filter.mpr ⟨Finset.mem_Ico.mpr ⟨by omega, by omega⟩, (isSpan_add c n).mpr hspan⟩
  · intro i _ j _ heq
    exact Nat.add_left_cancel heq
  · intro i hi
    obtain ⟨hi, hspan⟩ := Finset.mem_filter.mp hi
    obtain ⟨hle, hlt⟩ := Finset.mem_Ico.mp hi
    obtain ⟨d, rfl⟩ := Nat.exists_eq_add_of_le hle
    exact ⟨d, Finset.mem_filter.mpr ⟨Finset.mem_Ico.mpr ⟨by omega, by omega⟩, (isSpan_add c n).mp hspan⟩, rfl⟩

structure Block (p : Nat → Bool) (a b s e : Nat) : Prop where
  start : a ≤ s
  stop : e ≤ b
  set : ∀ j, s ≤ j → j < e → p j = true
  left : s = a ∨ p (s - 1) = false
  right : e = b ∨ p e = false

theorem IsSpan.block (h : IsSpan p a b i k) : Block p a b i (i + k) :=
  ⟨h.1, h.2.1, fun _ hij hj => h.get hij hj, h.2.2.2.1, h.2.2.2.2⟩

theorem Block.isSpan (h : Block p a b s e) (hk : 0 < k) (hs : s ≤ j) (he : j < e) :
    IsSpan p a b j k ↔ j = s ∧ k = e - s := by
  constructor
  · intro hspan
    have hget : ∀ d, j ≤ d → d < j + k → p d = true := fun d => hspan.get
    obtain ⟨ha, hb, -, hleft, hright⟩ := hspan
    have hj : j = s := by
      by_contra hne
      have hprev := h.set (j - 1) (by omega) (by omega)
      have hjle := h.start
      rcases hleft with hleft | hleft
      · omega
      · rw [hprev] at hleft
        cases hleft
    subst hj
    refine ⟨rfl, ?_⟩
    by_contra hne
    rcases Nat.lt_or_gt_of_ne hne with hlt | hgt
    · have hnext := h.set (j + k) (by omega) (by omega)
      have heb := h.stop
      rcases hright with hright | hright
      · omega
      · rw [hnext] at hright
        cases hright
    · have hin := hget e (by omega) (by omega)
      rcases h.right with hright | hright
      · omega
      · rw [hin] at hright
        cases hright
  · rintro ⟨rfl, rfl⟩
    have heb := h.stop
    have hend : j + (e - j) = e := by omega
    refine ⟨h.start, by omega, fun d hd => h.set (j + d) (by omega) (by omega), h.left, ?_⟩
    rw [hend]
    exact h.right

theorem IsSpan.of_outside (hspan : IsSpan p a b j k) (hk : 0 < k) (hj : j < s ∨ e ≤ j)
    (hsedge : s = a ∨ p (s - 1) = false) (heedge : e = b ∨ p e = false) (hpq : ∀ j, j < s ∨ e ≤ j → q j = p j) :
    IsSpan q a b j k := by
  obtain ⟨ha, hb, hset, hleft, hright⟩ := hspan
  rcases hj with hj | hj
  · have hend : j + k < s := by
      by_contra hge
      rcases hsedge with hs | hs
      · omega
      · have hin := hset (s - 1 - j) (by omega)
        rw [show j + (s - 1 - j) = s - 1 by omega, hs] at hin
        cases hin
    refine ⟨ha, hb, fun d hd => ?_, ?_, ?_⟩
    · rw [hpq _ (by omega), hset d hd]
    · rw [hpq _ (by omega)]
      exact hleft
    · rw [hpq _ (by omega)]
      exact hright
  · have hgt : e < j := by
      by_contra hge
      have hin := hset 0 hk
      rw [Nat.add_zero, show j = e by omega] at hin
      rcases heedge with he | he
      · omega
      · rw [hin] at he
        cases he
    refine ⟨ha, hb, fun d hd => ?_, ?_, ?_⟩
    · rw [hpq _ (by omega), hset d hd]
    · rw [hpq _ (by omega)]
      exact hleft
    · rw [hpq _ (by omega)]
      exact hright

structure Cleared (p q : Nat → Bool) (a b s e i m : Nat) : Prop where
  block : Block p a b s e
  le : s ≤ i
  pos : 0 < m
  within : i + m ≤ e
  clear : ∀ j, i ≤ j → j < i + m → q j = false
  same : ∀ j, j < i ∨ i + m ≤ j → q j = p j

namespace Cleared

theorem left (h : Cleared p q a b s e i m) : s = a ∨ q (s - 1) = false := by
  rcases h.block.left with hs | hs
  · exact Or.inl hs
  · rcases Nat.eq_zero_or_pos s with hz | hz
    · have hstart := h.block.start
      exact Or.inl (by omega)
    · have hle := h.le
      rw [h.same (s - 1) (by omega)]
      exact Or.inr hs

theorem right (h : Cleared p q a b s e i m) : e = b ∨ q e = false := by
  have hwithin := h.within
  rw [h.same e (by omega)]
  exact h.block.right

theorem before (h : Cleared p q a b s e i m) : Block q a b s i := by
  have hpos := h.pos
  have hwithin := h.within
  have hstop := h.block.stop
  refine ⟨h.block.start, by omega, fun j hs hj => ?_, h.left, Or.inr (h.clear i (Nat.le_refl _) (by omega))⟩
  rw [h.same j (by omega)]
  exact h.block.set j hs (by omega)

theorem after (h : Cleared p q a b s e i m) : Block q a b (i + m) e := by
  have hle := h.le
  have hpos := h.pos
  have hstart := h.block.start
  refine ⟨by omega, h.block.stop, fun j hs hj => ?_, Or.inr (h.clear _ (by omega) (by omega)), h.right⟩
  rw [h.same j (by omega)]
  exact h.block.set j (by omega) hj

theorem indicator (h : Cleared p q a b s e i m) (hk : 0 < k) (j : Nat) :
    ((if IsSpan q a b j k then 1 else 0) + if j = s then if k = e - s then 1 else 0 else 0) =
      (if IsSpan p a b j k then 1 else 0) + (if j = s then if k = i - s then 1 else 0 else 0) +
        if j = i + m then if k = e - (i + m) then 1 else 0 else 0 := by
  have hle := h.le
  have hpos := h.pos
  have hwithin := h.within
  have hse : s < e := by omega
  by_cases hin : s ≤ j ∧ j < e
  · obtain ⟨hs, he⟩ := hin
    have hp := h.block.isSpan hk hs he
    by_cases hji : j < i
    · have hq := h.before.isSpan hk hs hji
      have hjm : j ≠ i + m := by omega
      simp only [hp, hq, hjm, if_false, Nat.add_zero]
      by_cases hjs : j = s
      · simp only [hjs, true_and, if_true]
        exact Nat.add_comm ..
      · simp only [hjs, false_and, if_false]
    · by_cases hjm : j < i + m
      · have hq : ¬IsSpan q a b j k := by
          intro hspan
          have hclear := h.clear j (by omega) hjm
          rw [hspan.get (Nat.le_refl j) (by omega)] at hclear
          cases hclear
        have hne : j ≠ i + m := by omega
        simp only [hp, hq, hne, if_false, Nat.add_zero, Nat.zero_add]
        by_cases hjs : j = s
        · have hki : k ≠ i - s := by omega
          simp only [hjs, hki, true_and, if_true, if_false, Nat.add_zero]
        · simp only [hjs, false_and, if_false]
      · have hq := h.after.isSpan hk (Nat.le_of_not_lt hjm) he
        have hjs : j ≠ s := by omega
        simp only [hp, hq, hjs, false_and, if_false, Nat.add_zero, Nat.zero_add]
        by_cases hji : j = i + m
        · simp only [hji, true_and, if_true]
        · simp only [hji, false_and, if_false]
  · have hout : j < s ∨ e ≤ j := by omega
    have hjs : j ≠ s := by omega
    have hsedge : s = a ∨ q (s - 1) = false := h.left
    have heedge : e = b ∨ q e = false := h.right
    have hiff : IsSpan q a b j k ↔ IsSpan p a b j k := by
      constructor
      · exact fun hspan => hspan.of_outside hk hout hsedge heedge fun d hd => (h.same d (by omega)).symm
      · exact fun hspan => hspan.of_outside hk hout h.block.left h.block.right fun d hd => h.same d (by omega)
    simp only [hiff, hjs, if_false, Nat.add_zero]
    by_cases hjm : j = i + m
    · have hke : k ≠ e - (i + m) := by omega
      simp only [hjm, hke, if_true, if_false, Nat.add_zero]
    · simp only [hjm, if_false, Nat.add_zero]

theorem spans_eq (h : Cleared p q a b s e i m) (hk : 0 < k) :
    spans q a b k + (if k = e - s then 1 else 0) =
      spans p a b k + (if k = i - s then 1 else 0) + if k = e - (i + m) then 1 else 0 := by
  have hpos := h.pos
  have hle := h.le
  have hwithin := h.within
  have hstart := h.block.start
  have hstop := h.block.stop
  have hone : ∀ (c : Nat) (P : Prop) [Decidable P], a ≤ c → (P → c < b) →
      (∑ j ∈ Finset.Ico a b, if j = c then if P then 1 else 0 else 0) = if P then 1 else 0 := by
    intro c P _ hac hcb
    by_cases hP : P
    · simp only [hP, if_true]
      rw [Finset.sum_ite_eq', if_pos (Finset.mem_Ico.mpr ⟨hac, hcb hP⟩)]
    · simp only [hP, if_false, ite_self, Finset.sum_const_zero]
  have hsum := Finset.sum_congr rfl fun j (_ : j ∈ Finset.Ico a b) => h.indicator hk j
  simp only [Finset.sum_add_distrib] at hsum
  rw [hone s _ (by omega) (by omega), hone s _ (by omega) (by omega), hone (i + m) _ (by omega) (by omega)] at hsum
  rw [spans, spans, Finset.card_filter, Finset.card_filter]
  exact hsum

theorem capped_eq (h : Cleared p q a b s e i m) (c k : Nat) :
    capped q a b c k + (if min (e - s) c = k then 1 else 0) =
      capped p a b c k + (if 0 < i - s ∧ min (i - s) c = k then 1 else 0) +
        if 0 < e - (i + m) ∧ min (e - (i + m)) c = k then 1 else 0 := by
  have hpos := h.pos
  have hle := h.le
  have hwithin := h.within
  have hstart := h.block.start
  have hstop := h.block.stop
  have hone : ∀ len, len ≤ b - a → (∑ l ∈ Finset.Icc 1 (b - a), if min l c = k then if l = len then 1 else 0 else 0) =
      if 0 < len ∧ min len c = k then 1 else 0 := by
    intro len hlen
    have hswap : ∀ l, (if min l c = k then if l = len then 1 else 0 else 0) =
        if l = len then if min len c = k then 1 else 0 else 0 := by
      intro l
      by_cases hl : l = len
      · rw [hl, if_pos rfl, if_pos rfl]
      · rw [if_neg hl, if_neg hl, ite_self]
    simp only [hswap]
    rw [Finset.sum_ite_eq']
    by_cases hz : 0 < len
    · rw [if_pos (Finset.mem_Icc.mpr ⟨hz, hlen⟩)]
      simp only [hz, true_and]
    · rw [if_neg (fun hmem => hz (Finset.mem_Icc.mp hmem).1)]
      simp only [hz, false_and, if_false]
  have hsum := Finset.sum_congr rfl fun l (hl : l ∈ Finset.Icc 1 (b - a)) =>
    congrArg (fun n => if min l c = k then n else 0) (h.spans_eq (Finset.mem_Icc.mp hl).1)
  have hadd : ∀ l x y : Nat, (if min l c = k then x + y else 0) = (if min l c = k then x else 0) + if min l c = k then y else 0 := by
    intro l x y
    split <;> rfl
  simp only [hadd, Finset.sum_add_distrib] at hsum
  rw [hone _ (by omega), hone _ (by omega), hone _ (by omega)] at hsum
  have hse : 0 < e - s := by omega
  simp only [hse, true_and] at hsum
  exact hsum

end Cleared

end NetBSD.Lib
