import Mathlib.Algebra.GroupWithZero.Nat
import NetBSD.Stdlib.Sorting

/-!
# heapsort

`heapsort.c`. The elements have the numbers 1 to `total`; there is no result where something else is touched or a loop does not end. The
largest element of the heap is taken out by letting the hole sink to the bottom, from where another element rises.
-/

namespace NetBSD.Stdlib

open Function (update)
open Lib (Rearranged Ordered TotalPreorder exchange exchange_left exchange_right exchange_of_ne rearranged_exchange update_hole)

inductive SortError where
  | einval
  | enomem
  deriving DecidableEq

variable {α : Type*} (cmp : α → α → Int) (total : Nat)

def copy (i j : Nat) (m : Nat → α) : Option (Nat → α) :=
  if inside 1 (total + 1) i ∧ inside 1 (total + 1) j then some (update m i (m j)) else none

def load (i : Nat) (m : Nat → α) : Option α := if inside 1 (total + 1) i then some (m i) else none

def store (i : Nat) (k : α) (m : Nat → α) : Option (Nat → α) := if inside 1 (total + 1) i then some (update m i k) else none

def child (nmemb i : Nat) (m : Nat → α) : Option Nat :=
  if i * 2 < nmemb then (compare cmp 1 (total + 1) (i * 2) (i * 2 + 1) m).map fun r => if r < 0 then i * 2 + 1 else i * 2
  else some (i * 2)

def create (nmemb : Nat) : Nat → Nat → (Nat → α) → Option (Nat → α)
  | 0, _, _ => none
  | fuel + 1, i, m =>
    if i * 2 ≤ nmemb then
      (child cmp total nmemb i m).bind fun j =>
        (compare cmp 1 (total + 1) j i m).bind fun r =>
          if r ≤ 0 then some m else (swap 1 (total + 1) i j m).bind (create nmemb fuel j)
    else some m

def createAll (nmemb : Nat) : Nat → (Nat → α) → Option (Nat → α)
  | 0, m => some m
  | l + 1, m => (create cmp total nmemb (nmemb + 1) (l + 1) m).bind (createAll nmemb l)

def sink (nmemb : Nat) : Nat → Nat → (Nat → α) → Option (Nat × (Nat → α))
  | 0, _, _ => none
  | fuel + 1, i, m =>
    if i * 2 ≤ nmemb then (child cmp total nmemb i m).bind fun j => (copy total i j m).bind (sink nmemb fuel j)
    else some (i, m)

def rise (k : α) : Nat → Nat → (Nat → α) → Option (Nat → α)
  | 0, _, _ => none
  | fuel + 1, j, m =>
    if j = 1 then store total j k m
    else
      (load total (j / 2) m).bind fun par =>
        if cmp k par < 0 then store total j k m else (copy total j (j / 2) m).bind (rise k fuel (j / 2))

def selectAll : Nat → (Nat → α) → Option (Nat → α)
  | 0, m => some m
  | 1, m => some m
  | nmemb + 2, m =>
    (load total (nmemb + 2) m).bind fun k =>
      (copy total (nmemb + 2) 1 m).bind fun m =>
        (sink cmp total (nmemb + 1) (nmemb + 2) 1 m).bind fun r =>
          (rise cmp total k (nmemb + 2) r.1 r.2).bind (selectAll (nmemb + 1))

def heapsort (size : Nat) (alloc : Bool) (m : Nat → α) : Option (Option SortError × (Nat → α)) :=
  if total ≤ 1 then some (none, m)
  else if size = 0 then some (some .einval, m)
  else if alloc = false then some (some .enomem, m)
  else ((createAll cmp total total (total / 2) m).bind (selectAll cmp total total)).map fun m => (none, m)

variable {cmp} {total} {i j l n p c fuel : Nat} {m : Nat → α} {k : α}

def Heap (cmp : α → α → Int) (l n : Nat) (m : Nat → α) : Prop := ∀ i, 2 ≤ i → i ≤ n → l ≤ i / 2 → cmp (m i) (m (i / 2)) ≤ 0

theorem child_spec (hcmp : TotalPreorder cmp) (hpos : 0 < i) (hle : i * 2 ≤ n) (hn : n ≤ total) (m : Nat → α) :
    ∃ c, child cmp total n i m = some c ∧ c / 2 = i ∧ i < c ∧ c ≤ n ∧ ∀ j, j / 2 = i → j ≤ n → cmp (m j) (m c) ≤ 0 := by
  rw [child]
  split
  · next hlt =>
    rw [compare_eq (by omega) (by omega)]
    refine ⟨_, rfl, ?_⟩
    dsimp only
    split
    · next hless =>
      refine ⟨by omega, by omega, by omega, fun j hj hjn => ?_⟩
      have hcases : j = i * 2 ∨ j = i * 2 + 1 := by omega
      rcases hcases with rfl | rfl
      · exact hless.le
      · exact (hcmp.self _).le
    · next hmore =>
      refine ⟨by omega, by omega, by omega, fun j hj hjn => ?_⟩
      have hcases : j = i * 2 ∨ j = i * 2 + 1 := by omega
      rcases hcases with rfl | rfl
      · exact (hcmp.self _).le
      · exact hcmp.nonneg_iff.1 (Int.not_lt.1 hmore)
  · refine ⟨i * 2, rfl, by omega, by omega, hle, fun j hj hjn => ?_⟩
    obtain rfl : j = i * 2 := by omega
    exact (hcmp.self _).le

structure Sifting (cmp : α → α → Int) (l n p : Nat) (m : Nat → α) : Prop where
  rest : ∀ i, 2 ≤ i → i ≤ n → l ≤ i / 2 → i / 2 ≠ p → cmp (m i) (m (i / 2)) ≤ 0
  above : ∀ i, i ≤ n → i / 2 = p → l ≤ p / 2 → cmp (m i) (m (p / 2)) ≤ 0

theorem Sifting.down (hcmp : TotalPreorder cmp) (h : Sifting cmp l n p m) (hl : 0 < l) (hp : l ≤ p) (hc : c / 2 = p) (hn : c ≤ n)
    (hmax : ∀ j, j / 2 = p → j ≤ n → cmp (m j) (m c) ≤ 0) (hpos : 0 < cmp (m c) (m p)) : Sifting cmp l n c (exchange m p c) := by
  refine ⟨fun i hi hin hli hne => ?_, fun i hin hic hlc => ?_⟩
  · by_cases hpar : i / 2 = p
    · rw [hpar, exchange_left]
      by_cases heq : i = c
      · rw [heq, exchange_right]
        exact hcmp.le_of_pos hpos
      · rw [exchange_of_ne (by omega) heq]
        exact hmax i hpar hin
    · rw [exchange_of_ne hpar hne m (k := i / 2)]
      by_cases heq : i = p
      · rw [heq, exchange_left]
        exact h.above c hn hc (heq ▸ hli)
      · rw [exchange_of_ne heq (by rintro rfl; exact hpar hc)]
        exact h.rest i hi hin hli hpar
  · rw [hc, exchange_left, exchange_of_ne (by omega) (by omega)]
    have hrest := h.rest i (by omega) hin (by omega) (by omega)
    rw [hic] at hrest
    exact hrest

theorem create_spec (hcmp : TotalPreorder cmp) (hfuel : n - p < fuel) (hl : 0 < l) (hp : l ≤ p) (hn : n ≤ total) (h : Sifting cmp l n p m) :
    ∃ m', create cmp total n fuel p m = some m' ∧ Rearranged 1 (n + 1) m m' ∧ Heap cmp l n m' := by
  induction fuel generalizing p m with
  | zero => exact absurd hfuel (Nat.not_lt_zero _)
  | succ fuel ih =>
    rw [create]
    split
    · next hle =>
      obtain ⟨c, hchild, hc, hpc, hcn, hmax⟩ := child_spec hcmp (by omega) hle hn m
      rw [hchild, Option.bind_some, compare_eq (by omega) (by omega), Option.bind_some]
      split
      · next hstop =>
        refine ⟨m, rfl, .refl .., fun i hi hin hli => ?_⟩
        by_cases hpar : i / 2 = p
        · rw [hpar]
          exact hcmp.trans _ _ _ (hmax i hpar hin) hstop
        · exact h.rest i hi hin hli hpar
      · next hpos =>
        rw [swap_eq (by omega) (by omega), Option.bind_some]
        obtain ⟨m', hm', hre, hheap⟩ := ih (by omega) (by omega) (h.down hcmp hl hp hc hcn hmax (Int.not_le.1 hpos))
        exact ⟨m', hm', (rearranged_exchange (by omega) (by omega) m).trans hre, hheap⟩
    · next hgt =>
      refine ⟨m, rfl, .refl .., fun i hi hin hli => h.rest i hi hin hli (by omega)⟩

theorem createAll_spec (hcmp : TotalPreorder cmp) (hn : n ≤ total) (h : Heap cmp (l + 1) n m) :
    ∃ m', createAll cmp total n l m = some m' ∧ Rearranged 1 (n + 1) m m' ∧ Heap cmp 1 n m' := by
  induction l generalizing m with
  | zero => exact ⟨m, rfl, .refl .., h⟩
  | succ l ih =>
    have hsifting : Sifting cmp (l + 1) n (l + 1) m :=
      ⟨fun i hi hin hli hne => h i hi hin (by omega), fun i hin hic hlc => absurd hlc (by omega)⟩
    obtain ⟨m₁, hm₁, hre₁, hheap⟩ := create_spec hcmp (show n - (l + 1) < n + 1 by omega) (Nat.succ_pos l) (Nat.le_refl _) hn hsifting
    obtain ⟨m', hm', hre, hheap'⟩ := ih hheap
    rw [createAll, hm₁, Option.bind_some]
    exact ⟨m', hm', hre₁.trans hre, hheap'⟩

theorem Heap.le_root (hcmp : TotalPreorder cmp) (h : Heap cmp 1 n m) (hpos : 0 < i) (hi : i ≤ n) : cmp (m i) (m 1) ≤ 0 := by
  induction i using Nat.strongRecOn with
  | ind i ih =>
    by_cases hone : i = 1
    · rw [hone]
      exact (hcmp.self _).le
    · exact hcmp.trans _ _ _ (h i (by omega) hi (by omega)) (ih (i / 2) (by omega) (by omega) (by omega))

theorem sink_spec (hcmp : TotalPreorder cmp) (hfuel : n - p < fuel) (hpos : 0 < p) (hp : p ≤ n) (hn : n ≤ total) (h : Heap cmp 1 n m) :
    ∃ c m', sink cmp total n fuel p m = some (c, m') ∧ 0 < c ∧ c ≤ n ∧ n < c * 2 ∧ Heap cmp 1 n m' ∧
      ∀ x, Rearranged 1 (n + 1) (update m p x) (update m' c x) := by
  induction fuel generalizing p m with
  | zero => exact absurd hfuel (Nat.not_lt_zero _)
  | succ fuel ih =>
    rw [sink]
    split
    · next hle =>
      obtain ⟨c, hchild, hc, hpc, hcn, hmax⟩ := child_spec hcmp hpos hle hn m
      have hcopy : copy total p c m = some (update m p (m c)) := if_pos ⟨inside_eq (by omega), inside_eq (by omega)⟩
      rw [hchild, Option.bind_some, hcopy, Option.bind_some]
      have hheap : Heap cmp 1 n (update m p (m c)) := by
        intro i hi hin hli
        by_cases hpar : i / 2 = p
        · rw [hpar, Function.update_self, Function.update_of_ne (by omega)]
          exact hmax i hpar hin
        · rw [Function.update_of_ne hpar]
          by_cases heq : i = p
          · rw [heq, Function.update_self]
            have hup := h c (by omega) hcn (by omega)
            rw [hc] at hup
            exact hcmp.trans _ _ _ hup (h p (by omega) hp (by omega))
          · rw [Function.update_of_ne heq]
            exact h i hi hin hli
      obtain ⟨c', m', hsink, hc', hcn', hbottom, hheap', hre⟩ := ih (by omega) (by omega) hcn hheap
      refine ⟨c', m', hsink, hc', hcn', hbottom, hheap', fun x => ?_⟩
      have hmoved := hre x
      rw [update_hole (by omega)] at hmoved
      exact (rearranged_exchange (by omega) (by omega) _).trans hmoved
    · exact ⟨p, m, rfl, hpos, hp, by omega, h, fun x => .refl ..⟩

theorem rise_spec (hcmp : TotalPreorder cmp) (hfuel : c < fuel) (hpos : 0 < c) (hc : c ≤ n) (hn : n ≤ total) (h : Heap cmp 1 n m)
    (hbelow : ∀ i, i ≤ n → i / 2 = c → cmp (m i) k ≤ 0) :
    ∃ m', rise cmp total k fuel c m = some m' ∧ Heap cmp 1 n m' ∧ Rearranged 1 (n + 1) (update m c k) m' := by
  induction fuel generalizing c m with
  | zero => exact absurd hfuel (Nat.not_lt_zero _)
  | succ fuel ih =>
    have hstore : store total c k m = some (update m c k) := if_pos (inside_eq (by omega))
    have hplaced : (c ≠ 1 → cmp k (m (c / 2)) ≤ 0) → Heap cmp 1 n (update m c k) := by
      intro hup i hi hin hli
      by_cases hpar : i / 2 = c
      · rw [hpar, Function.update_self, Function.update_of_ne (by omega)]
        exact hbelow i hin hpar
      · rw [Function.update_of_ne hpar]
        by_cases heq : i = c
        · rw [heq, Function.update_self]
          exact hup (by omega)
        · rw [Function.update_of_ne heq]
          exact h i hi hin hli
    rw [rise]
    split
    · next hone => exact ⟨_, hstore, hplaced fun hne => absurd hone hne, .refl ..⟩
    next hne =>
    have hload : load total (c / 2) m = some (m (c / 2)) := if_pos (inside_eq (by omega))
    rw [hload, Option.bind_some]
    split
    · next hless => exact ⟨_, hstore, hplaced fun _ => hless.le, .refl ..⟩
    next hmore =>
    have hcopy : copy total c (c / 2) m = some (update m c (m (c / 2))) := if_pos ⟨inside_eq (by omega), inside_eq (by omega)⟩
    rw [hcopy, Option.bind_some]
    have hpar := hcmp.nonneg_iff.1 (Int.not_lt.1 hmore)
    have hup := h c (by omega) hc (by omega)
    have hheap : Heap cmp 1 n (update m c (m (c / 2))) := by
      intro i hi hin hli
      by_cases hchild : i / 2 = c
      · rw [hchild, Function.update_self, Function.update_of_ne (by omega)]
        have hle := h i hi hin hli
        rw [hchild] at hle
        exact hcmp.trans _ _ _ hle hup
      · rw [Function.update_of_ne hchild]
        by_cases heq : i = c
        · rw [heq, Function.update_self]
          exact (hcmp.self _).le
        · rw [Function.update_of_ne heq]
          exact h i hi hin hli
    obtain ⟨m', hm', hheap', hre⟩ := ih (c := c / 2) (by omega) (by omega) (by omega) hheap fun i hin hi => by
      by_cases heq : i = c
      · rw [heq, Function.update_self]
        exact hpar
      · rw [Function.update_of_ne heq]
        have hle := h i (by omega) hin (by omega)
        rw [hi] at hle
        exact hcmp.trans _ _ _ hle hpar
    rw [update_hole (by omega)] at hre
    exact ⟨m', hm', hheap', (rearranged_exchange (by omega) (by omega) _).trans hre⟩

structure Selecting (cmp : α → α → Int) (total n : Nat) (m : Nat → α) : Prop where
  heap : Heap cmp 1 n m
  tail : Ordered cmp (n + 1) (total + 1) m
  below : ∀ i j, 0 < i → i ≤ n → n < j → j ≤ total → cmp (m i) (m j) ≤ 0

theorem Selecting.step {m' : Nat → α} (hcmp : TotalPreorder cmp) (hn : n + 2 ≤ total) (h : Selecting cmp total (n + 2) m)
    (hre : Rearranged 1 (n + 2) (exchange m 1 (n + 2)) m') (hheap : Heap cmp 1 (n + 1) m') : Selecting cmp total (n + 1) m' := by
  have hroot : m' (n + 2) = m 1 := (hre.outside (by omega)).trans (exchange_right m 1 (n + 2))
  have hbehind : ∀ j, n + 2 < j → m' j = m j := fun j hj =>
    (hre.outside (by omega)).trans (exchange_of_ne (by omega) (by omega) m)
  have hall : Rearranged 1 (n + 3) m m' :=
    (rearranged_exchange (by omega) (by omega) m).trans (hre.mono (Nat.le_refl 1) (Nat.le_succ _))
  refine ⟨hheap, fun i j hi hij hj => ?_, fun i j hi hin hj hjt => ?_⟩
  · rw [hbehind j (by omega)]
    by_cases heq : i = n + 2
    · rw [heq, hroot]
      exact h.below 1 j Nat.one_pos (by omega) (by omega) (by omega)
    · rw [hbehind i (by omega)]
      exact h.tail i j (by omega) hij hj
  · obtain ⟨i', hi', heq'⟩ := hall.from ⟨hi, (by omega : i < n + 3)⟩
    rw [heq']
    by_cases heq : j = n + 2
    · rw [heq, hroot]
      exact h.heap.le_root hcmp hi'.1 (by omega)
    · rw [hbehind j (by omega)]
      exact h.below i' j hi'.1 (by omega) (by omega) hjt

theorem selectAll_spec (hcmp : TotalPreorder cmp) (hn : n ≤ total) (h : Selecting cmp total n m) :
    ∃ m', selectAll cmp total n m = some m' ∧ Rearranged 1 (total + 1) m m' ∧ Ordered cmp 1 (total + 1) m' := by
  induction n using Nat.strongRecOn generalizing m with
  | ind n ih =>
    cases n with
    | zero => exact ⟨m, rfl, .refl .., h.tail⟩
    | succ n =>
      cases n with
      | zero =>
        refine ⟨m, rfl, .refl .., Ordered.append (.of_short (Nat.le_refl 2) m) h.tail fun i j hi hi' hj hj' => ?_⟩
        exact h.below i j hi (by omega) hj (by omega)
      | succ n =>
        have hload : load total (n + 2) m = some (m (n + 2)) := if_pos (inside_eq (by omega))
        have hcopy : copy total (n + 2) 1 m = some (update m (n + 2) (m 1)) := if_pos ⟨inside_eq (by omega), inside_eq (by omega)⟩
        have hheap : Heap cmp 1 (n + 1) (update m (n + 2) (m 1)) := by
          intro i hi hin hli
          rw [Function.update_of_ne (by omega), Function.update_of_ne (by omega)]
          exact h.heap i hi (by omega) hli
        obtain ⟨c, m₁, hsink, hc, hcn, hbottom, hheap₁, hre₁⟩ :=
          sink_spec hcmp (show n + 1 - 1 < n + 2 by omega) Nat.one_pos (by omega) (show n + 1 ≤ total by omega) hheap
        obtain ⟨m₂, hrise, hheap₂, hre₂⟩ := rise_spec (k := m (n + 2)) hcmp (show c < n + 2 by omega) hc hcn (show n + 1 ≤ total by omega) hheap₁
          fun i hin hi => absurd hin (by omega)
        have hstep := h.step hcmp hn ((hre₁ (m (n + 2))).trans hre₂) hheap₂
        obtain ⟨m', hm', hre', hord⟩ := ih (n + 1) (by omega) (by omega) hstep
        rw [selectAll, hload, Option.bind_some, hcopy, Option.bind_some, hsink, Option.bind_some, hrise, Option.bind_some]
        refine ⟨m', hm', ?_, hord⟩
        have hfirst := rearranged_exchange (show 1 ≤ 1 ∧ 1 < total + 1 by omega) (show 1 ≤ n + 2 ∧ n + 2 < total + 1 by omega) m
        exact (hfirst.trans (((hre₁ (m (n + 2))).trans hre₂).mono (Nat.le_refl 1) (by omega))).trans hre'

theorem heapsort_spec (hcmp : TotalPreorder cmp) {size : Nat} (hsize : 0 < size) (m : Nat → α) :
    ∃ m', heapsort cmp total size true m = some (none, m') ∧ Rearranged 1 (total + 1) m m' ∧ Ordered cmp 1 (total + 1) m' := by
  rw [heapsort]
  split
  · next hshort => exact ⟨m, rfl, .refl .., .of_short (by omega) m⟩
  next hlong =>
  have hbottom : Heap cmp (total / 2 + 1) total m := fun i hi hin hli => absurd hli (by omega)
  obtain ⟨m₁, hm₁, hre₁, hheap⟩ := createAll_spec hcmp (Nat.le_refl total) hbottom
  obtain ⟨m', hm', hre', hord⟩ := selectAll_spec hcmp (Nat.le_refl total)
    ⟨hheap, .of_short (Nat.le_succ _) m₁, fun i j hi hin hj hjt => absurd hj (Nat.not_lt.2 hjt)⟩
  refine ⟨m', ?_, hre₁.trans hre', hord⟩
  rw [if_neg hsize.ne', if_neg (Bool.false_ne_true ∘ Eq.symm), hm₁, Option.bind_some, hm']
  rfl

/-- `qsort` and `heapsort` sort every array of `nmemb` elements. -/
theorem sorts (hcmp : TotalPreorder cmp) {size : Nat} (hsize : 0 < size) (lo nmemb : Nat) (m : Nat → α) :
    (∃ m', qsort cmp lo (lo + nmemb) m = some m' ∧ Rearranged lo (lo + nmemb) m m' ∧ Ordered cmp lo (lo + nmemb) m') ∧
      ∃ m', heapsort cmp nmemb size true m = some (none, m') ∧ Rearranged 1 (nmemb + 1) m m' ∧ Ordered cmp 1 (nmemb + 1) m' :=
  ⟨qsort_spec hcmp (Nat.le_add_right lo nmemb) m, heapsort_spec hcmp hsize m⟩

def difference (x y : Int) : Int := x - y

theorem difference_totalPreorder : TotalPreorder difference :=
  ⟨fun x y z hxy hyz => by unfold difference at *; omega, fun x y => by unfold difference; omega⟩

def threeNumbers (i : Nat) : Int := if i = 1 then 5 else 2

theorem sorts_threeNumbers :
    (∃ m', qsort difference 1 (1 + 3) threeNumbers = some m' ∧ Rearranged 1 (1 + 3) threeNumbers m' ∧ Ordered difference 1 (1 + 3) m') ∧
      ∃ m', heapsort difference 3 4 true threeNumbers = some (none, m') ∧ Rearranged 1 (3 + 1) threeNumbers m' ∧
        Ordered difference 1 (3 + 1) m' :=
  sorts difference_totalPreorder (by decide) 1 3 threeNumbers

example : ((qsort difference 0 9 fun i => (4 * i % 9 : Nat)).map fun m => (List.range 9).map m) = some [0, 1, 2, 3, 4, 5, 6, 7, 8] := by
  decide

end NetBSD.Stdlib

/-!
## bsearch

`bsearch` in an array that `qsort` has sorted.
-/

namespace NetBSD.Stdlib

open Lib (Rearranged Ordered TotalPreorder)

variable {α : Type*} {cmp : α → α → Int} {key : α} {lo hi base lim nmemb i : Nat} {m m' : Nat → α}

def bsearchLoop (cmp : α → α → Int) (key : α) (lo hi : Nat) (m : Nat → α) : Nat → Nat → Nat → Option (Option Nat)
  | 0, _, _ => none
  | fuel + 1, base, lim =>
    if lim ≠ 0 then
      let p := base + lim / 2
      if inside lo hi p then
        let r := cmp key (m p)
        if r = 0 then some (some p)
        else if r > 0 then bsearchLoop cmp key lo hi m fuel (p + 1) ((lim - 1) / 2)
        else bsearchLoop cmp key lo hi m fuel base (lim / 2)
      else none
    else some none

def bsearch (cmp : α → α → Int) (key : α) (lo nmemb : Nat) (m : Nat → α) : Option (Option Nat) :=
  bsearchLoop cmp key lo (lo + nmemb) m 32 lo nmemb

/-- What is before `base` is less than the key, and what is behind the `lim` elements there greater. -/
structure Narrowed (cmp : α → α → Int) (key : α) (lo hi : Nat) (m : Nat → α) (base lim : Nat) : Prop where
  le : lo ≤ base
  fits : base + lim ≤ hi
  less : ∀ i, lo ≤ i → i < base → 0 < cmp key (m i)
  more : ∀ i, base + lim ≤ i → i < hi → cmp key (m i) < 0

theorem Narrowed.right {p : Nat} (hcmp : TotalPreorder cmp) (hord : Ordered cmp lo hi m) (h : Narrowed cmp key lo hi m base lim)
    (hp : base ≤ p) (hlt : p < base + lim) (hpos : 0 < cmp key (m p)) : Narrowed cmp key lo hi m (p + 1) (base + lim - (p + 1)) := by
  have hle := h.le
  have hfits := h.fits
  refine ⟨by omega, by omega, fun i hi hip => ?_, fun i hi hlast => h.more i (by omega) hlast⟩
  rcases Nat.lt_or_eq_of_le (Nat.le_of_lt_succ hip) with hip | rfl
  · by_contra hneg
    exact absurd (hcmp.trans _ _ _ (Int.not_lt.1 hneg) (hord i p hi hip (by omega))) (Int.not_le.2 hpos)
  · exact hpos

theorem Narrowed.left {p : Nat} (hcmp : TotalPreorder cmp) (hord : Ordered cmp lo hi m) (h : Narrowed cmp key lo hi m base lim)
    (hp : base ≤ p) (hlt : p < base + lim) (hneg : cmp key (m p) < 0) : Narrowed cmp key lo hi m base (p - base) := by
  have hle := h.le
  have hfits := h.fits
  refine ⟨hle, by omega, h.less, fun i hi hlast => ?_⟩
  rcases Nat.lt_or_eq_of_le (show p ≤ i by omega) with hip | rfl
  · rw [← hcmp.pos_iff] at hneg ⊢
    by_contra hle
    exact absurd (hcmp.trans _ _ _ (hord p i (by omega) hip hlast) (Int.not_lt.1 hle)) (Int.not_le.2 hneg)
  · exact hneg

theorem Narrowed.not_found (h : Narrowed cmp key lo hi m base 0) : ∀ i, lo ≤ i → i < hi → cmp key (m i) ≠ 0 := by
  intro i hlo hhi
  rcases Nat.lt_or_ge i base with hlt | hge
  · exact (h.less i hlo hlt).ne'
  · exact (h.more i hge hhi).ne

theorem bsearchLoop_spec (hcmp : TotalPreorder cmp) (hord : Ordered cmp lo hi m) {fuel : Nat} (hfuel : lim < 2 ^ fuel)
    (h : Narrowed cmp key lo hi m base lim) :
    ∃ r, bsearchLoop cmp key lo hi m (fuel + 1) base lim = some r ∧ (∀ i ∈ r, (lo ≤ i ∧ i < hi) ∧ cmp key (m i) = 0) ∧
      (r = none → ∀ i, lo ≤ i → i < hi → cmp key (m i) ≠ 0) := by
  induction fuel generalizing base lim with
  | zero =>
    obtain rfl : lim = 0 := by simpa using hfuel
    exact ⟨none, rfl, nofun, fun _ => h.not_found⟩
  | succ fuel ih =>
    rw [Nat.pow_succ] at hfuel
    have hle := h.le
    have hfits := h.fits
    rw [bsearchLoop]
    split
    · rename_i hlim
      have hin : lo ≤ base + lim / 2 ∧ base + lim / 2 < hi := by omega
      have hlt : base + lim / 2 < base + lim := by omega
      rw [if_pos (inside_eq hin)]
      dsimp only
      split_ifs with hzero hpos
      · exact ⟨_, rfl, fun i hi => by obtain rfl := Option.some.inj hi; exact ⟨hin, hzero⟩, nofun⟩
      · have hright := h.right hcmp hord (Nat.le_add_right _ _) hlt hpos
        rw [show base + lim - (base + lim / 2 + 1) = (lim - 1) / 2 by omega] at hright
        exact ih (by omega) hright
      · have hleft := h.left hcmp hord (Nat.le_add_right _ _) hlt (by omega)
        rw [Nat.add_sub_cancel_left] at hleft
        exact ih (by omega) hleft
    · rename_i hlim
      obtain rfl : lim = 0 := not_not.1 hlim
      exact ⟨none, rfl, nofun, fun _ => h.not_found⟩

theorem Rearranged.exists_at (h : Rearranged lo hi m m') (hi' : lo ≤ i ∧ i < hi) : ∃ j, (lo ≤ j ∧ j < hi) ∧ m i = m' j := by
  obtain ⟨σ, hσ, rfl⟩ := h
  refine ⟨σ.symm i, ?_, congrArg m (σ.apply_symm_apply i).symm⟩
  by_contra hout
  have hfix := hσ _ hout
  rw [σ.apply_symm_apply] at hfix
  exact hout (hfix ▸ hi')

/-- In an array that `qsort` has sorted, `bsearch` finds an element equal to the key when there was one, wherever it was. -/
theorem bsearch_qsort (hcmp : TotalPreorder cmp) (key : α) (hnmemb : nmemb < 2 ^ 31) (lo : Nat) (m : Nat → α) :
    ∃ m' r, qsort cmp lo (lo + nmemb) m = some m' ∧ bsearch cmp key lo nmemb m' = some r ∧
      (∀ i ∈ r, (lo ≤ i ∧ i < lo + nmemb) ∧ cmp key (m' i) = 0) ∧
      (r = none ↔ ∀ i, lo ≤ i → i < lo + nmemb → cmp key (m i) ≠ 0) := by
  obtain ⟨m', hsort, hre, hord⟩ := qsort_spec hcmp (Nat.le_add_right lo nmemb) m
  have hstart : Narrowed cmp key lo (lo + nmemb) m' lo nmemb :=
    ⟨Nat.le_refl lo, Nat.le_refl _, fun i hi hlt => absurd hlt (by omega), fun i hi hlt => absurd hlt (by omega)⟩
  obtain ⟨r, hr, hfound, hnone⟩ := bsearchLoop_spec hcmp hord hnmemb hstart
  refine ⟨m', r, hsort, hr, hfound, fun hr i hlo hhi => ?_, fun hall => ?_⟩
  · obtain ⟨j, hj, heq⟩ := Rearranged.exists_at hre ⟨hlo, hhi⟩
    exact heq ▸ hnone hr j hj.1 hj.2
  · cases r with
    | none => rfl
    | some i =>
      obtain ⟨hin, hzero⟩ := hfound i rfl
      obtain ⟨j, hj, heq⟩ := hre.from hin
      exact absurd (heq ▸ hzero) (hall j hj.1 hj.2)

theorem bsearch_qsort_threeNumbers :
    ∃ m' r, qsort difference 1 (1 + 3) threeNumbers = some m' ∧ bsearch difference 5 1 3 m' = some r ∧
      (∀ i ∈ r, (1 ≤ i ∧ i < 1 + 3) ∧ difference 5 (m' i) = 0) ∧
      (r = none ↔ ∀ i, 1 ≤ i → i < 1 + 3 → difference 5 (threeNumbers i) ≠ 0) :=
  bsearch_qsort difference_totalPreorder 5 (by decide) 1 threeNumbers

end NetBSD.Stdlib
