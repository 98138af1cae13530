import Mathlib.Data.BitVec
import Mathlib.Tactic.Ring

/-!
# Multiplication of quads

`__muldi3` and `__lmulq`, with a `u_long` of 32 bits.
-/

namespace NetBSD.Quad

abbrev ULong := BitVec 32

def quadOf (h l : ULong) : BitVec 64 := h ++ l

def hhalfOf (x : ULong) : ULong := x >>> 16

def lhalfOf (x : ULong) : ULong := x &&& 0xffff

def lhup (x : ULong) : ULong := x <<< 16

def diff (x y : ULong) : ULong × Bool := if y ≤ x then (x - y, false) else (y - x, true)

def plusHalf (prodh prodl x : ULong) : ULong × ULong :=
  let was := prodl
  let prodl := prodl + lhup x
  (prodh + (hhalfOf x + if prodl < was then 1 else 0), prodl)

def minusHalf (prodh prodl x : ULong) : ULong × ULong :=
  let was := prodl
  let prodl := prodl - lhup x
  (prodh - (hhalfOf x + if was < prodl then 1 else 0), prodl)

def lmulq (u v : ULong) : BitVec 64 :=
  let u1 := hhalfOf u
  let u0 := lhalfOf u
  let v1 := hhalfOf v
  let v0 := lhalfOf v
  let low := u0 * v0
  if u1 = 0 ∧ v1 = 0 then low.setWidth 64
  else
    let udiff := diff u1 u0
    let vdiff := diff v0 v1
    let mid := udiff.1 * vdiff.1
    let high := u1 * v1
    -- prod = (high << 2N) + (high << N)
    let prodh := high + hhalfOf high
    let prodl := lhup high
    let prod := if udiff.2 ^^ vdiff.2 then minusHalf prodh prodl mid else plusHalf prodh prodl mid
    let prod := plusHalf prod.1 prod.2 low
    let prodl := prod.2 + low
    quadOf (if prodl < low then prod.1 + 1 else prod.1) prodl

def muldi3 (a b : BitVec 64) : BitVec 64 :=
  let u := if 0 ≤ a.toInt then a else -a
  let v := if 0 ≤ b.toInt then b else -b
  let negall := decide (a.toInt < 0) ^^ decide (b.toInt < 0)
  let u1 : ULong := (u >>> 32).setWidth 32
  let u0 : ULong := u.setWidth 32
  let v1 : ULong := (v >>> 32).setWidth 32
  let v0 : ULong := v.setWidth 32
  let low := lmulq u0 v0
  let prod :=
    if u1 = 0 ∧ v1 = 0 then low
    else
      let udiff := diff u1 u0
      let vdiff := diff v0 v1
      let mid := udiff.1 * vdiff.1
      let high := u1 * v1
      let lowl : ULong := low.setWidth 32
      quadOf (high + (if udiff.2 ^^ vdiff.2 then -mid else mid) + lowl + (low >>> 32).setWidth 32) lowl
  if negall then -prod else prod

variable {h l x y u v : ULong}

def low64 (x : ULong) : BitVec 64 := x.setWidth 64

theorem toNat_low64 : (low64 x).toNat = x.toNat := by
  rw [low64, BitVec.toNat_setWidth_of_le (by decide)]

theorem toNat_quadOf : (quadOf h l).toNat = h.toNat * 2 ^ 32 + l.toNat := by
  rw [quadOf, BitVec.toNat_append, ← Nat.shiftLeft_add_eq_or_of_lt l.isLt, Nat.shiftLeft_eq]

theorem toNat_hhalfOf (x : ULong) : (hhalfOf x).toNat = x.toNat / 65536 := by
  rw [hhalfOf, BitVec.toNat_ushiftRight, Nat.shiftRight_eq_div_pow]

theorem toNat_lhalfOf (x : ULong) : (lhalfOf x).toNat = x.toNat % 65536 := by
  rw [lhalfOf, BitVec.toNat_and]
  exact Nat.and_two_pow_sub_one_eq_mod _ 16

theorem toNat_lhup (x : ULong) : (lhup x).toNat = x.toNat * 65536 % 4294967296 := by
  rw [lhup, BitVec.toNat_shiftLeft, Nat.shiftLeft_eq]

theorem hhalfOf_lt (x : ULong) : (hhalfOf x).toNat < 2 ^ 16 := by
  have := x.isLt
  rw [toNat_hhalfOf]
  omega

theorem lhalfOf_lt (x : ULong) : (lhalfOf x).toNat < 2 ^ 16 := by
  rw [toNat_lhalfOf]
  omega

theorem toNat_mul_half (x : BitVec 64) : (x * 65536).toNat = x.toNat * 65536 % 18446744073709551616 := BitVec.toNat_mul ..

theorem low64_sub (h : y ≤ x) : low64 (x - y) = low64 x - low64 y := by
  have h := BitVec.le_def.mp h
  apply BitVec.eq_of_toNat_eq
  rw [BitVec.toNat_sub, toNat_low64, toNat_low64, toNat_low64, BitVec.toNat_sub]
  omega

theorem low64_mul (hx : x.toNat < 2 ^ 16) (hy : y.toNat < 2 ^ 16) : low64 (x * y) = low64 x * low64 y := by
  have hlt : x.toNat * y.toNat < 2 ^ 32 := by
    calc x.toNat * y.toNat < 2 ^ 16 * 2 ^ 16 := Nat.mul_lt_mul'' hx hy
      _ = 2 ^ 32 := by norm_num
  apply BitVec.eq_of_toNat_eq
  rw [BitVec.toNat_mul, toNat_low64, toNat_low64, toNat_low64, BitVec.toNat_mul, Nat.mod_eq_of_lt hlt, Nat.mod_eq_of_lt (by omega)]

theorem diff_spec (x y : ULong) : low64 x - low64 y = if (diff x y).2 then -low64 (diff x y).1 else low64 (diff x y).1 := by
  rw [diff]
  split
  · exact (low64_sub ‹_›).symm
  · rw [if_pos rfl, low64_sub (by rw [BitVec.le_def] at *; omega), neg_sub]

def high64 (x : ULong) : BitVec 64 := quadOf x 0

theorem high64_eq (x : ULong) : high64 x = low64 x * 4294967296 := by
  apply BitVec.eq_of_toNat_eq
  have := x.isLt
  rw [high64, toNat_quadOf, BitVec.toNat_mul, toNat_low64]
  change x.toNat * 2 ^ 32 + 0 = x.toNat * 4294967296 % 2 ^ 64
  omega

theorem quadOf_eq (h l : ULong) : quadOf h l = high64 h + low64 l := by
  apply BitVec.eq_of_toNat_eq
  have := h.isLt; have := l.isLt
  simp only [high64, toNat_quadOf, BitVec.toNat_add, toNat_low64]
  simp
  omega

theorem high64_add (x y : ULong) : high64 (x + y) = high64 x + high64 y := by
  apply BitVec.eq_of_toNat_eq
  simp only [high64, toNat_quadOf, BitVec.toNat_add]
  simp
  omega

theorem high64_mul (x y : ULong) : high64 (x * y) = high64 x * low64 y := by
  apply BitVec.eq_of_toNat_eq
  rw [high64, high64, toNat_quadOf, BitVec.toNat_mul, BitVec.toNat_mul, toNat_quadOf, toNat_low64]
  change x.toNat * y.toNat % 2 ^ 32 * 2 ^ 32 + 0 = (x.toNat * 2 ^ 32 + 0) * y.toNat % 2 ^ 64
  rw [Nat.add_zero, Nat.add_zero, Nat.mul_right_comm, ← Nat.mul_mod_mul_right, ← Nat.pow_add]

theorem low64_lhup (x : ULong) : high64 (hhalfOf x) + low64 (lhup x) = low64 x * 65536 := by
  apply BitVec.eq_of_toNat_eq
  have := x.isLt
  simp only [high64, toNat_lhup, toNat_hhalfOf, toNat_quadOf, BitVec.toNat_add, toNat_mul_half, toNat_low64]
  simp
  omega

theorem quadOf_add_high (h l x : ULong) : quadOf (h + x) l = quadOf h l + high64 x := by
  rw [quadOf_eq, quadOf_eq, high64_add]
  ring

theorem quadOf_carry (h l x : ULong) : quadOf (h + if l + x < l then 1 else 0) (l + x) = quadOf h l + low64 x := by
  apply BitVec.eq_of_toNat_eq
  have := x.isLt; have := h.isLt; have := l.isLt
  simp only [toNat_quadOf, BitVec.toNat_add, toNat_low64, BitVec.lt_def]
  split <;> simp <;> omega

theorem quadOf_borrow (h l x : ULong) : quadOf (h - if l < l - x then 1 else 0) (l - x) = quadOf h l - low64 x := by
  apply BitVec.eq_of_toNat_eq
  have := x.isLt; have := h.isLt; have := l.isLt
  simp only [toNat_quadOf, BitVec.toNat_sub, toNat_low64, BitVec.lt_def]
  split <;> simp <;> omega

theorem quadOf_plusHalf (h l x : ULong) : quadOf (plusHalf h l x).1 (plusHalf h l x).2 = quadOf h l + low64 x * 65536 := by
  dsimp only [plusHalf]
  rw [add_comm (hhalfOf x), ← add_assoc, quadOf_add_high, quadOf_carry, add_assoc, add_comm (low64 _), low64_lhup]

theorem quadOf_minusHalf (h l x : ULong) : quadOf (minusHalf h l x).1 (minusHalf h l x).2 = quadOf h l - low64 x * 65536 := by
  dsimp only [minusHalf]
  have hback := quadOf_add_high (h - (hhalfOf x + if l < l - lhup x then 1 else 0)) (l - lhup x) (hhalfOf x)
  rw [show ∀ c : ULong, h - (hhalfOf x + c) + hhalfOf x = h - c by intro c; ring, quadOf_borrow] at hback
  rw [eq_sub_of_add_eq hback.symm, ← low64_lhup]
  ring

theorem quadOf_addLow (h l x : ULong) : quadOf (if l + x < x then h + 1 else h) (l + x) = quadOf h l + low64 x := by
  calc quadOf (if l + x < x then h + 1 else h) (l + x) = quadOf (h + if l + x < x then 1 else 0) (l + x) := by
        split <;> simp
    _ = quadOf h x + low64 l := by rw [add_comm l x, quadOf_carry]
    _ = quadOf h l + low64 x := by rw [quadOf_eq, quadOf_eq, add_right_comm]

theorem quadOf_signed (neg : Bool) (h l x : ULong) :
    quadOf (if neg then minusHalf h l x else plusHalf h l x).1 (if neg then minusHalf h l x else plusHalf h l x).2 =
      quadOf h l + (if neg then -low64 x else low64 x) * 65536 := by
  cases neg with
  | true => exact (quadOf_minusHalf h l x).trans (by rw [if_pos rfl, neg_mul, sub_eq_add_neg])
  | false => exact quadOf_plusHalf h l x

theorem quadOf_high (x : ULong) : quadOf (x + hhalfOf x) (lhup x) = low64 x * 4294967296 + low64 x * 65536 := by
  rw [quadOf_eq, high64_add, add_assoc, low64_lhup, high64_eq]

theorem low64_halves (x : ULong) : low64 x = low64 (hhalfOf x) * 65536 + low64 (lhalfOf x) := by
  apply BitVec.eq_of_toNat_eq
  have := x.isLt
  rw [BitVec.toNat_add, toNat_mul_half, toNat_low64, toNat_low64, toNat_low64, toNat_lhalfOf, toNat_hhalfOf]
  omega

theorem diff_lt (hx : x.toNat < 2 ^ 16) (hy : y.toNat < 2 ^ 16) : (diff x y).1.toNat < 2 ^ 16 := by
  rw [diff]
  split
  · rename_i h
    rw [BitVec.toNat_sub_of_le h]
    omega
  · rw [BitVec.toNat_sub_of_le (by rw [BitVec.le_def] at *; omega)]
    omega

theorem mid_spec {w : Nat} {s t : Bool} {a b c d : BitVec w} (hs : a = if s then -c else c) (ht : b = if t then -d else d) :
    a * b = if s ^^ t then -(c * d) else c * d := by
  cases s <;> cases t <;> simp_all

theorem lmulq_eq (u v : ULong) : lmulq u v = low64 u * low64 v := by
  have hlow := low64_mul (lhalfOf_lt u) (lhalfOf_lt v)
  have hhigh := low64_mul (hhalfOf_lt u) (hhalfOf_lt v)
  have hmid := mid_spec (diff_spec (hhalfOf u) (lhalfOf u)) (diff_spec (lhalfOf v) (hhalfOf v))
  rw [← low64_mul (diff_lt (hhalfOf_lt u) (lhalfOf_lt u)) (diff_lt (lhalfOf_lt v) (hhalfOf_lt v))] at hmid
  rw [low64_halves u, low64_halves v, lmulq]
  split_ifs with hzero
  · rw [← low64, hlow, hzero.1, hzero.2]
    simp [low64]
  · dsimp only
    rw [quadOf_addLow, quadOf_plusHalf, quadOf_signed, ← hmid, quadOf_high, hlow, hhigh]
    ring

theorem diff_signed (x y : ULong) : x - y = if (diff x y).2 then -(diff x y).1 else (diff x y).1 := by
  rw [diff]
  split
  · rfl
  · exact (neg_sub y x).symm

theorem longs (x : BitVec 64) : x = high64 ((x >>> 32).setWidth 32) + low64 (x.setWidth 32) := by
  apply BitVec.eq_of_toNat_eq
  have := x.isLt
  rw [← quadOf_eq, toNat_quadOf, BitVec.toNat_setWidth, BitVec.toNat_setWidth, BitVec.toNat_ushiftRight, Nat.shiftRight_eq_div_pow]
  omega

theorem high64_zero : high64 0 = 0 := rfl

theorem high64_mul_high64 (x y : ULong) : high64 x * high64 y = 0 := by
  have hzero : (4294967296 : BitVec 64) * 4294967296 = 0 := rfl
  rw [high64_eq, high64_eq, mul_mul_mul_comm, hzero, mul_zero]

theorem high64_sum (u1 u0 v1 v0 : ULong) :
    high64 (u1 * v1 + (u1 - u0) * (v0 - v1) + u0 * v0 + x) = high64 u1 * low64 v0 + high64 v1 * low64 u0 + high64 x := by
  rw [show u1 * v1 + (u1 - u0) * (v0 - v1) + u0 * v0 + x = u1 * v0 + v1 * u0 + x by ring, high64_add, high64_add, high64_mul,
    high64_mul]

/-- `__muldi3` is the product, modulo the size of a quad, for operands of any signs. -/
theorem muldi3_eq (a b : BitVec 64) : muldi3 a b = a * b := by
  have hsigns : ∀ {p u v : BitVec 64}, p = u * v → u = (if 0 ≤ a.toInt then a else -a) → v = (if 0 ≤ b.toInt then b else -b) →
      (if decide (a.toInt < 0) ^^ decide (b.toInt < 0) then -p else p) = a * b := by
    rintro p u v rfl rfl rfl
    by_cases ha : a.toInt < 0 <;> by_cases hb : b.toInt < 0 <;> simp [ha, hb, Int.not_le.2, Int.not_lt.1]
  rw [muldi3]
  generalize hu : (if 0 ≤ a.toInt then a else -a) = u
  generalize hv : (if 0 ≤ b.toInt then b else -b) = v
  refine hsigns ?_ hu.symm hv.symm
  have hu' := longs u
  have hv' := longs v
  generalize (u >>> 32).setWidth 32 = u1 at *
  generalize (v >>> 32).setWidth 32 = v1 at *
  dsimp only
  generalize u.setWidth 32 = u0 at *
  generalize v.setWidth 32 = v0 at *
  split
  · rename_i hzero
    rw [lmulq_eq, hu', hv', hzero.1, hzero.2, high64_zero, zero_add, zero_add]
  have hlow := longs (lmulq u0 v0)
  have hlowl : (lmulq u0 v0).setWidth 32 = u0 * v0 := by
    rw [lmulq_eq, BitVec.setWidth_mul _ _ (by decide), low64, low64, BitVec.setWidth_setWidth_of_le _ (by decide),
      BitVec.setWidth_setWidth_of_le _ (by decide), BitVec.setWidth_eq, BitVec.setWidth_eq]
  rw [hlowl] at hlow ⊢
  rw [quadOf_eq, ← mid_spec (diff_signed u1 u0) (diff_signed v0 v1), high64_sum, add_assoc, ← hlow, lmulq_eq, hu', hv',
    show (high64 u1 + low64 u0) * (high64 v1 + low64 v0) =
      high64 u1 * high64 v1 + (high64 u1 * low64 v0 + high64 v1 * low64 u0 + low64 u0 * low64 v0) by ring,
    high64_mul_high64, zero_add]

end NetBSD.Quad
