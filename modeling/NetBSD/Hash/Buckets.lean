import Mathlib.Algebra.GroupWithZero.Nat
import Mathlib.Data.List.Count
import Mathlib.Logic.Function.Basic
import Mathlib.Data.Nat.Notation

/-!
# Buckets of a hash table

`__call_hash`, and the masks as `init_htab` and `__expand_table` set them. A bucket is the list of its records: pages are left out,
and of `__split_page` what it puts where.
-/

namespace NetBSD.Hash

open Function (update update_self update_of_ne)

structure Masks where
  maxBucket : Nat
  lowMask : Nat
  highMask : Nat

def Masks.init (l2 : Nat) : Masks :=
  let nbuckets := 2 ^ l2
  ⟨nbuckets - 1, nbuckets - 1, 2 * nbuckets - 1⟩

def Masks.callHash (h : Masks) (n : Nat) : Nat :=
  let bucket := n &&& h.highMask
  if h.maxBucket < bucket then bucket &&& h.lowMask else bucket

def Masks.oldBucket (h : Masks) : Nat := (h.maxBucket + 1) &&& h.lowMask

def Masks.expand (h : Masks) : Masks :=
  let newBucket := h.maxBucket + 1
  -- Starting a new doubling
  if h.highMask < newBucket then ⟨newBucket, h.highMask, newBucket ||| h.highMask⟩ else { h with maxBucket := newBucket }

structure Buckets (α : Type*) where
  masks : Masks
  records : Nat → List α

inductive BucketOp (α : Type*) where
  | add (record : α)
  | expand

namespace Buckets

variable {α : Type*} (hash : α → Nat)

def splitPage (t : Buckets α) (obucket nbucket : Nat) : Nat → List α :=
  let stays := fun r => decide (t.masks.callHash (hash r) = obucket)
  update (update t.records obucket ((t.records obucket).filter stays)) nbucket ((t.records obucket).filter fun r => !stays r)

def step (t : Buckets α) : BucketOp α → Buckets α
  | .add r => { t with records := update t.records (t.masks.callHash (hash r)) (r :: t.records (t.masks.callHash (hash r))) }
  | .expand =>
    let t' := { t with masks := t.masks.expand }
    { t' with records := t'.splitPage hash t.masks.oldBucket t'.masks.maxBucket }

def run (t : Buckets α) (ops : List (BucketOp α)) : Buckets α := ops.foldl (step hash) t

def init (l2 : Nat) : Buckets α := ⟨Masks.init l2, fun _ => []⟩

end Buckets

def BucketOp.record? {α : Type*} : BucketOp α → Option α
  | .add r => some r
  | .expand => none

structure Masks.Ok (h : Masks) (p : Nat) : Prop where
  pow : ∃ j, p = 2 ^ j
  low : h.lowMask = p - 1
  high : h.highMask = 2 * p - 1
  le : p ≤ h.maxBucket + 1
  lt : h.maxBucket < 2 * p

variable {h : Masks} {p n : Nat}

theorem Masks.Ok.pos (hok : h.Ok p) : 0 < p := by
  obtain ⟨j, rfl⟩ := hok.pow
  exact Nat.two_pow_pos j

theorem Masks.Ok.and_low (hok : h.Ok p) (n : Nat) : n &&& h.lowMask = n % p := by
  obtain ⟨j, rfl⟩ := hok.pow
  rw [hok.low, Nat.and_two_pow_sub_one_eq_mod]

theorem Masks.Ok.and_high (hok : h.Ok p) (n : Nat) : n &&& h.highMask = n % (2 * p) := by
  obtain ⟨j, rfl⟩ := hok.pow
  rw [hok.high, ← Nat.pow_succ', Nat.and_two_pow_sub_one_eq_mod]

theorem mod_double (n p : Nat) : n % (2 * p) = n % p ∨ n % (2 * p) = n % p + p := by
  rw [Nat.mul_comm, Nat.mod_mul]
  rcases Nat.mod_two_eq_zero_or_one (n / p) with h | h <;> simp [h]

theorem Masks.Ok.callHash_eq (hok : h.Ok p) (n : Nat) :
    h.callHash n = if h.maxBucket < n % (2 * p) then n % p else n % (2 * p) := by
  rw [Masks.callHash, hok.and_high, hok.and_low, Nat.mul_comm, Nat.mod_mul_right_mod]

theorem Masks.Ok.callHash_le (hok : h.Ok p) (n : Nat) : h.callHash n ≤ h.maxBucket := by
  have hlt := Nat.mod_lt n hok.pos
  have hle := hok.le
  rw [hok.callHash_eq]
  split <;> omega

theorem Masks.Ok.expand (hok : h.Ok p) :
    h.expand.maxBucket = h.maxBucket + 1 ∧ (h.expand.Ok p ∨ h.maxBucket + 1 = 2 * p ∧ h.expand.Ok (2 * p)) := by
  obtain ⟨⟨j, rfl⟩, hlow, hhigh, hle, hlt⟩ := hok
  rw [Masks.expand]
  split_ifs with hdouble
  · have hnew : h.maxBucket + 1 = 2 * 2 ^ j := by omega
    have hor := Nat.two_pow_add_eq_or_of_lt (b := 2 ^ (j + 1) - 1) (i := j + 1) (by have := Nat.two_pow_pos (j + 1); omega) 1
    rw [Nat.mul_one, Nat.pow_succ'] at hor
    refine ⟨rfl, .inr ⟨hnew, ⟨j + 1, (Nat.pow_succ' ..).symm⟩, hhigh, ?_, ?_, ?_⟩⟩
    all_goals dsimp only
    · rw [hhigh, hnew, ← hor]
      omega
    · omega
    · omega
  · refine ⟨rfl, .inl ⟨⟨j, rfl⟩, hlow, hhigh, ?_, ?_⟩⟩
    all_goals
      dsimp only
      omega

theorem Masks.Ok.oldBucket_le (hok : h.Ok p) : h.oldBucket ≤ h.maxBucket := by
  have := Nat.mod_lt (h.maxBucket + 1) hok.pos
  have := hok.le
  rw [Masks.oldBucket, hok.and_low]
  omega

/-- A record of the old bucket stays or goes to the new one, and every other record stays where it is. -/
theorem Masks.Ok.callHash_expand (hok : h.Ok p) (n : Nat) :
    h.expand.callHash n = h.callHash n ∨ h.callHash n = h.oldBucket ∧ h.expand.callHash n = h.maxBucket + 1 := by
  have hpos := hok.pos
  have hle := hok.le
  have hlt := hok.lt
  have hmod := Nat.mod_lt n hpos
  rw [hok.callHash_eq, Masks.oldBucket, hok.and_low]
  obtain ⟨hmax, hok' | ⟨htwice, hok'⟩⟩ := hok.expand
  · have hlt' := hok'.lt
    have hold : (h.maxBucket + 1) % p = h.maxBucket + 1 - p := by
      rw [Nat.mod_eq_sub_mod hle, Nat.mod_eq_of_lt (by omega)]
    rw [hok'.callHash_eq, hmax, hold]
    rcases mod_double n p with heq | heq
    all_goals
      rw [heq]
      split_ifs <;> omega
  · have hold : (h.maxBucket + 1) % p = 0 := by rw [htwice, Nat.mul_mod_left]
    have hmod' := Nat.mod_lt n (show 0 < 2 * p by omega)
    rw [hok'.callHash_eq, hmax, hold, htwice]
    rcases mod_double n (2 * p) with heq | heq
    all_goals
      rw [heq]
      split_ifs <;> omega

namespace Buckets

variable {α : Type*} [DecidableEq α] {hash : α → Nat} {t : Buckets α} {added : List α}

/-- Every record that was added is in its bucket as often as it was added, and in no other. -/
structure Inv (hash : α → Nat) (t : Buckets α) (added : List α) : Prop where
  ok : ∃ p, t.masks.Ok p
  count : ∀ b r, (t.records b).count r = if t.masks.callHash (hash r) = b then added.count r else 0

theorem count_filter_eq (f : α → Bool) (l : List α) (r : α) : (l.filter f).count r = if f r then l.count r else 0 := by
  split_ifs with h
  · exact List.count_filter h
  · exact List.count_eq_zero.2 fun hmem => h (List.mem_filter.1 hmem).2

theorem Inv.add (h : Inv hash t added) (r : α) : Inv hash (t.step hash (.add r)) (added ++ [r]) := by
  refine ⟨h.ok, fun b r' => ?_⟩
  have hcount := h.count b r'
  rw [step, List.count_append, List.count_singleton]
  dsimp only
  by_cases hb : b = t.masks.callHash (hash r)
  · rw [hb, update_self, List.count_cons, ← hb, hcount]
    by_cases heq : r = r'
    · subst heq
      simp [hb]
    · simp [heq]
  · rw [update_of_ne hb, hcount]
    by_cases heq : r = r'
    · subst heq
      simp [Ne.symm hb]
    · simp [heq]

theorem Inv.expand (h : Inv hash t added) : Inv hash (t.step hash .expand) added := by
  obtain ⟨p, hok⟩ := h.ok
  obtain ⟨hmax, hok'⟩ := hok.expand
  refine ⟨hok'.elim (fun h => ⟨_, h⟩) fun h => ⟨_, h.2⟩, fun b r => ?_⟩
  have hold := hok.oldBucket_le
  have hle := hok.callHash_le (hash r)
  have hmove := hok.callHash_expand (hash r)
  have hcount := h.count b r
  rw [step, splitPage]
  dsimp only
  rw [hmax]
  have hcount' := h.count t.masks.oldBucket r
  by_cases hnew : b = t.masks.maxBucket + 1
  · rw [hnew, update_self, count_filter_eq, hcount']
    simp only [Bool.not_eq_true', decide_eq_false_iff_not]
    split_ifs <;> omega
  · rw [update_of_ne hnew]
    by_cases hb : b = t.masks.oldBucket
    · rw [hb, update_self, count_filter_eq, hcount']
      simp only [decide_eq_true_eq]
      split_ifs <;> omega
    · rw [update_of_ne hb, hcount]
      split_ifs <;> omega

theorem Inv.run (h : Inv hash t added) (ops : List (BucketOp α)) :
    Inv hash (t.run hash ops) (added ++ ops.filterMap BucketOp.record?) ∧
      (t.run hash ops).masks.maxBucket = t.masks.maxBucket + ops.countP (fun op => op.record?.isNone) := by
  induction ops generalizing t added with
  | nil => exact ⟨(List.append_nil added).symm ▸ h, rfl⟩
  | cons op ops ih =>
    cases op with
    | add r =>
      obtain ⟨hinv, hmax⟩ := ih (h.add r)
      rw [List.append_assoc] at hinv
      exact ⟨hinv, hmax.trans (by simp [step, BucketOp.record?])⟩
    | expand =>
      obtain ⟨hinv, hmax⟩ := ih h.expand
      obtain ⟨p, hok⟩ := h.ok
      refine ⟨hinv, hmax.trans ?_⟩
      rw [List.countP_cons_of_pos rfl, step]
      dsimp only
      rw [hok.expand.1]
      omega

end Buckets

end NetBSD.Hash
