import Mathlib.Algebra.BigOperators.Group.List.Basic
import Mathlib.Data.BitVec

/-!
# One's complement sums of 16-bit words

Adding the carries of a sum back twice leaves its representative modulo `2 ^ 16 - 1` between 1 and
`2 ^ 16 - 1`. Swapping the bytes of a word multiplies it by 256, so a sum taken in the other byte order
and swapped back is the same sum, and the complement of the sum of some words is the only other word,
apart from all ones, that makes their sum all ones.
-/

namespace NetBSD.Lib

def carry (n : Nat) : Nat := n % 2 ^ 16 + n / 2 ^ 16

def wordSum (words : List (BitVec 16)) : Nat := (words.map BitVec.toNat).sum

def swapBytes (w : BitVec 16) : BitVec 16 := w.setWidth 8 ++ (w >>> 8).setWidth 8

section Carry

variable {n : Nat}

theorem carry_mod (n : Nat) : carry n % 65535 = n % 65535 := by
  unfold carry
  omega

theorem carry_carry_mod (n : Nat) : carry (carry n) % 65535 = n % 65535 := by
  rw [carry_mod, carry_mod]

theorem carry_carry_bounds (hpos : 0 < n) (hlt : n < 2 ^ 31) :
    0 < carry (carry n) ∧ carry (carry n) ≤ 65535 := by
  unfold carry
  omega

end Carry

section Sum

variable {words : List (BitVec 16)} {w c : BitVec 16}

@[simp] theorem wordSum_nil : wordSum [] = 0 := rfl

@[simp] theorem wordSum_cons : wordSum (w :: words) = w.toNat + wordSum words := by
  simp [wordSum]

theorem wordSum_append (front back : List (BitVec 16)) :
    wordSum (front ++ back) = wordSum front + wordSum back := by
  simp [wordSum]

theorem wordSum_lt (hlen : words.length < 2 ^ 15) : wordSum words < 2 ^ 31 := by
  have hle : wordSum words ≤ words.length * 65535 := by
    clear hlen
    induction words with
    | nil => simp
    | cons w words ih =>
      have hw := w.isLt
      rw [wordSum_cons, List.length_cons]
      omega
  omega

theorem toNat_append_bytes (high low : BitVec 8) : (high ++ low).toNat = high.toNat * 256 + low.toNat := by
  rw [BitVec.toNat_append, ← Nat.shiftLeft_add_eq_or_of_lt low.isLt, Nat.shiftLeft_eq]

theorem toNat_swapBytes (w : BitVec 16) : (swapBytes w).toNat = w.toNat % 256 * 256 + w.toNat / 256 := by
  have hhigh : w.toNat / 256 < 2 ^ 8 := by
    have hw := w.isLt
    omega
  rw [swapBytes, toNat_append_bytes, BitVec.toNat_setWidth, BitVec.toNat_setWidth,
    BitVec.toNat_ushiftRight, Nat.shiftRight_eq_div_pow, Nat.mod_eq_of_lt hhigh]

theorem append_bytes (w : BitVec 16) : (w >>> 8).setWidth 8 ++ w.setWidth 8 = w := by
  have hw := w.isLt
  apply BitVec.eq_of_toNat_eq
  rw [toNat_append_bytes, BitVec.toNat_setWidth, BitVec.toNat_setWidth, BitVec.toNat_ushiftRight,
    Nat.shiftRight_eq_div_pow]
  omega

theorem swapBytes_mod (w : BitVec 16) : (swapBytes w).toNat % 65535 = w.toNat * 256 % 65535 := by
  rw [toNat_swapBytes]
  omega

theorem wordSum_map_swapBytes_mod (words : List (BitVec 16)) :
    wordSum (words.map swapBytes) % 65535 = wordSum words * 256 % 65535 := by
  induction words with
  | nil => rfl
  | cons w words ih =>
    have hw := swapBytes_mod w
    rw [List.map_cons, wordSum_cons, wordSum_cons]
    omega

theorem wordSum_map_swapBytes_pos (hpos : 0 < wordSum words) : 0 < wordSum (words.map swapBytes) := by
  induction words with
  | nil => exact hpos
  | cons w words ih =>
    rw [wordSum_cons] at hpos
    rw [List.map_cons, wordSum_cons, toNat_swapBytes]
    by_cases hw : 0 < w.toNat
    · omega
    · have := ih (by omega)
      omega

theorem swapBytes_complement_wordSum (hlen : words.length < 2 ^ 15) (hpos : 0 < wordSum words)
    (hvalid : carry (carry (wordSum words + c.toNat)) = 65535) (hc : c ≠ 0xffff) :
    swapBytes (~~~BitVec.ofNat 16 (carry (carry (wordSum (words.map swapBytes))))) = c := by
  have hlt : wordSum (words.map swapBytes) < 2 ^ 31 := wordSum_lt (by simpa using hlen)
  obtain ⟨hfoldPos, hfoldLe⟩ := carry_carry_bounds (wordSum_map_swapBytes_pos hpos) hlt
  have hfoldMod := carry_carry_mod (wordSum (words.map swapBytes))
  rw [wordSum_map_swapBytes_mod] at hfoldMod
  obtain ⟨s, hs⟩ : ∃ s, s = carry (carry (wordSum (words.map swapBytes))) := ⟨_, rfl⟩
  rw [← hs] at hfoldPos hfoldLe hfoldMod ⊢
  have hcomplement : (~~~BitVec.ofNat 16 s).toNat = 65535 - s := by
    rw [BitVec.toNat_not, BitVec.toNat_ofNat, Nat.mod_eq_of_lt (by omega)]
  -- both sides are below 65535 and congruent to the negated sum
  have hswap := toNat_swapBytes (~~~BitVec.ofNat 16 s)
  rw [hcomplement] at hswap
  have hsum := carry_carry_mod (wordSum words + c.toNat)
  rw [hvalid] at hsum
  have hclt : c.toNat < 65535 := by
    have hlt := c.isLt
    have hne : c.toNat ≠ 65535 := fun h => hc (BitVec.eq_of_toNat_eq h)
    omega
  apply BitVec.eq_of_toNat_eq
  rw [hswap]
  omega

end Sum

structure OnesEq (m n : Nat) : Prop where
  mod : m % 65535 = n % 65535
  zero : m = 0 ↔ n = 0

section OnesEq

variable {m n k l : Nat} {words : List (BitVec 16)}

theorem OnesEq.refl (n : Nat) : OnesEq n n := ⟨rfl, Iff.rfl⟩

theorem OnesEq.symm (h : OnesEq m n) : OnesEq n m := ⟨h.mod.symm, h.zero.symm⟩

theorem OnesEq.trans (h : OnesEq m n) (h' : OnesEq n k) : OnesEq m k :=
  ⟨h.mod.trans h'.mod, h.zero.trans h'.zero⟩

theorem OnesEq.add (h : OnesEq m n) (h' : OnesEq k l) : OnesEq (m + k) (n + l) where
  mod := by rw [Nat.add_mod, h.mod, h'.mod, ← Nat.add_mod]
  zero := by rw [Nat.add_eq_zero_iff, Nat.add_eq_zero_iff, h.zero, h'.zero]

theorem OnesEq.mul_left (h : OnesEq m n) (k : Nat) : OnesEq (k * m) (k * n) where
  mod := by rw [Nat.mul_mod, h.mod, ← Nat.mul_mod]
  zero := by
    rw [Nat.mul_eq_zero, Nat.mul_eq_zero, h.zero]

theorem onesEq_mul_two_pow (n : Nat) : OnesEq (65536 * n) n := by
  constructor <;> omega

theorem onesEq_carry (n : Nat) : OnesEq (carry n) n where
  mod := carry_mod n
  zero := by
    unfold carry
    omega

theorem OnesEq.unique (h : OnesEq m n) (hm : m ≤ 65535) (hn : n ≤ 65535) : m = n := by
  obtain ⟨hmod, hzero⟩ := h
  omega

theorem onesEq_swapBytes (w : BitVec 16) : OnesEq (swapBytes w).toNat (256 * w.toNat) := by
  have hw := w.isLt
  rw [toNat_swapBytes]
  constructor <;> omega

theorem swapBytes_not (w : BitVec 16) : swapBytes (~~~w) = ~~~swapBytes w := by
  have hw := w.isLt
  apply BitVec.eq_of_toNat_eq
  rw [BitVec.toNat_not, toNat_swapBytes, toNat_swapBytes, BitVec.toNat_not]
  omega

def onesAdd (a b : BitVec 16) : BitVec 16 := BitVec.ofNat 16 (carry (a.toNat + b.toNat))

def onesSum (words : List (BitVec 16)) : BitVec 16 := words.foldr onesAdd 0

theorem onesEq_onesSum (words : List (BitVec 16)) : OnesEq (onesSum words).toNat (wordSum words) := by
  induction words with
  | nil => exact OnesEq.refl 0
  | cons w words ih =>
    have hw := w.isLt
    have hs := (onesSum words).isLt
    have hle : carry (w.toNat + (onesSum words).toNat) < 2 ^ 16 := by
      unfold carry
      omega
    have hnat : (onesSum (w :: words)).toNat = carry (w.toNat + (onesSum words).toNat) := by
      show (onesAdd w (onesSum words)).toNat = _
      rw [onesAdd, BitVec.toNat_ofNat, Nat.mod_eq_of_lt hle]
    rw [hnat, wordSum_cons]
    exact (onesEq_carry _).trans ((OnesEq.refl _).add ih)

end OnesEq

end NetBSD.Lib
