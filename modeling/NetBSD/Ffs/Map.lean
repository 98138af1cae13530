import NetBSD.Ffs.Alloc
import NetBSD.Lib.Spans

/-!
# The map of free fragments

What the functions on blocks, the tables and the searches do to the bits of the map.
-/

namespace NetBSD.Ffs

open Lib (Bitmap IsSpan spans)
open Lib.Bitmap (isset_setMask isset_clrMask)

namespace Fs

variable (fs : Fs) {m : Bitmap} {b h i j k : Nat}

theorem frag_pos : 0 < fs.frag := by
  rcases fs.frag_eq with h | h | h | h <;> omega

theorem frag_le : fs.frag ≤ 8 := by
  rcases fs.frag_eq with h | h | h | h <;> omega

theorem frag_dvd_eight : fs.frag ∣ 8 := by
  rcases fs.frag_eq with h | h | h | h <;> rw [h] <;> decide

theorem byte_eq (hi : i < fs.frag) : (b * fs.frag + i) / 8 = b * fs.frag / 8 ∧
    (b * fs.frag + i) % 8 = b * fs.frag % 8 + i := by
  rcases fs.frag_eq with h | h | h | h <;> rw [h] at hi ⊢ <;> omega

theorem isset_byte (hi : i < fs.frag) : m.isset (b * fs.frag + i) = (m (b * fs.frag / 8)).getLsbD (b * fs.frag % 8 + i) := by
  rw [Bitmap.isset, (fs.byte_eq hi).1, (fs.byte_eq hi).2]

theorem isset_blkmap (hi : i < fs.frag) : (fs.blkmap m (b * fs.frag)).getLsbD i = m.isset (b * fs.frag + i) := by
  have hmask : (0xff#8 >>> (8 - fs.frag)).getLsbD i = true := by
    have hall : ∀ f ≤ 8, ∀ i < f, (0xff#8 >>> (8 - f)).getLsbD i = true := by decide
    exact hall fs.frag fs.frag_le i hi
  rw [fs.isset_byte hi, blkmap, BitVec.getLsbD_and, BitVec.getLsbD_ushiftRight, hmask, Bool.and_true]

theorem blkmap_lt : (fs.blkmap m h).toNat < 2 ^ fs.frag := by
  have hall : ∀ f, f = 8 ∨ f = 4 ∨ f = 2 ∨ f = 1 → (0xff#8 >>> (8 - f)).toNat < 2 ^ f := by
    rintro f (rfl | rfl | rfl | rfl) <;> decide
  rw [blkmap, BitVec.toNat_and]
  exact (Nat.and_le_right).trans_lt (hall fs.frag fs.frag_eq)

def mask (h : Nat) : BitVec 8 := (0xff#8 >>> (8 - fs.frag)) <<< (h * fs.frag % 8)

theorem getLsbD_mask (hi : i < 8) :
    (fs.mask h).getLsbD i = decide (h * fs.frag % 8 ≤ i ∧ i < h * fs.frag % 8 + fs.frag) := by
  have hall : ∀ f ∈ [8, 4, 2, 1], ∀ c < 8, ∀ i < 8,
      ((0xff#8 >>> (8 - f)) <<< c).getLsbD i = decide (c ≤ i ∧ i < c + f) := by decide +kernel
  have hmem : fs.frag ∈ [8, 4, 2, 1] := by simpa using fs.frag_eq
  exact hall fs.frag hmem (h * fs.frag % 8) (Nat.mod_lt _ (by decide)) i hi

theorem mask_eq : (fs.frag = 8 ∧ h * fs.frag / 8 = h ∧ fs.mask h = 0xff#8) ∨
    (fs.frag = 4 ∧ h * fs.frag / 8 = h >>> 1 ∧ fs.mask h = 0x0f#8 <<< ((h &&& 0x1) <<< 2)) ∨
    (fs.frag = 2 ∧ h * fs.frag / 8 = h >>> 2 ∧ fs.mask h = 0x03#8 <<< ((h &&& 0x3) <<< 1)) ∨
    (fs.frag = 1 ∧ h * fs.frag / 8 = h >>> 3 ∧ fs.mask h = 0x01#8 <<< (h &&& 0x7)) := by
  have hand : ∀ n, h &&& (2 ^ n - 1) = h % 2 ^ n := fun n => Nat.and_two_pow_sub_one_eq_mod h n
  have hand1 : h &&& 0x1 = h % 2 := hand 1
  have hand3 : h &&& 0x3 = h % 4 := hand 2
  have hand7 : h &&& 0x7 = h % 8 := hand 3
  rcases fs.frag_eq with hf | hf | hf | hf
  · have hmod : h * 8 % 8 = 0 := Nat.mul_mod_left ..
    refine Or.inl ⟨hf, ?_, ?_⟩
    · rw [hf]
      exact Nat.mul_div_left h (by decide)
    rw [mask, hf, hmod]
    rfl
  · have hmod : h * 4 % 8 = h % 2 * 4 := by omega
    refine Or.inr (Or.inl ⟨hf, ?_, ?_⟩)
    · rw [hf, Nat.shiftRight_eq_div_pow]
      omega
    · rw [mask, hf, hmod, hand1, Nat.shiftLeft_eq]
      rfl
  · have hmod : h * 2 % 8 = h % 4 * 2 := by omega
    refine Or.inr (Or.inr (Or.inl ⟨hf, ?_, ?_⟩))
    · rw [hf, Nat.shiftRight_eq_div_pow]
      omega
    · rw [mask, hf, hmod, hand3, Nat.shiftLeft_eq]
      rfl
  · refine Or.inr (Or.inr (Or.inr ⟨hf, ?_, ?_⟩))
    · rw [hf, Nat.shiftRight_eq_div_pow]
      omega
    · rw [mask, hf, Nat.mul_one, hand7]
      rfl

theorem isblock_eq : fs.isblock m h = decide (m (h * fs.frag / 8) &&& fs.mask h = fs.mask h) := by
  rcases fs.mask_eq (h := h) with ⟨hf, hbyte, hmask⟩ | ⟨hf, hbyte, hmask⟩ | ⟨hf, hbyte, hmask⟩ | ⟨hf, hbyte, hmask⟩
  · rw [hbyte, hmask]
    simp only [isblock, hf]
    have hand : m h &&& 0xff#8 = m h := BitVec.and_allOnes
    rw [hand]
  all_goals
    rw [hbyte, hmask]
    simp only [isblock, hf]

theorem clrblock_eq : fs.clrblock m h = m.clrMask (h * fs.frag / 8) (fs.mask h) := by
  rcases fs.mask_eq (h := h) with ⟨hf, hbyte, hmask⟩ | ⟨hf, hbyte, hmask⟩ | ⟨hf, hbyte, hmask⟩ | ⟨hf, hbyte, hmask⟩
  · rw [hbyte, hmask]
    simp only [clrblock, hf, Bitmap.clrMask]
    congr 1
    exact (BitVec.and_zero).symm
  all_goals
    rw [hbyte, hmask]
    simp only [clrblock, hf]

theorem setblock_eq : fs.setblock m h = m.setMask (h * fs.frag / 8) (fs.mask h) := by
  rcases fs.mask_eq (h := h) with ⟨hf, hbyte, hmask⟩ | ⟨hf, hbyte, hmask⟩ | ⟨hf, hbyte, hmask⟩ | ⟨hf, hbyte, hmask⟩
  · rw [hbyte, hmask]
    simp only [setblock, hf, Bitmap.setMask]
    congr 1
    exact (BitVec.or_allOnes).symm
  all_goals
    rw [hbyte, hmask]
    simp only [setblock, hf]

theorem mem_block : (decide (j / 8 = h * fs.frag / 8) && (fs.mask h).getLsbD (j % 8)) = decide (j / fs.frag = h) := by
  rw [fs.getLsbD_mask (Nat.mod_lt j (by decide)), ← Bool.decide_and]
  congr 1
  apply propext
  rcases fs.frag_eq with hf | hf | hf | hf <;> rw [hf] <;> omega

theorem isset_clrblock : (fs.clrblock m h).isset j = (m.isset j && !decide (j / fs.frag = h)) := by
  rw [clrblock_eq, isset_clrMask, mem_block]

theorem isset_setblock : (fs.setblock m h).isset j = (m.isset j || decide (j / fs.frag = h)) := by
  rw [setblock_eq, isset_setMask, mem_block]

theorem isblock_iff : fs.isblock m h = true ↔ ∀ i < fs.frag, m.isset (h * fs.frag + i) = true := by
  rw [isblock_eq, decide_eq_true_eq]
  constructor
  · intro hand i hi
    have hlt : h * fs.frag % 8 + i < 8 := by
      rw [← (fs.byte_eq hi).2]
      exact Nat.mod_lt _ (by decide)
    have hbit : (fs.mask h).getLsbD (h * fs.frag % 8 + i) = true := by
      rw [fs.getLsbD_mask hlt, decide_eq_true_eq]
      omega
    rw [← hand, BitVec.getLsbD_and, Bool.and_eq_true] at hbit
    rw [fs.isset_byte hi]
    exact hbit.1
  · intro hset
    apply BitVec.eq_of_getLsbD_eq
    intro i hi
    rw [BitVec.getLsbD_and]
    cases hbit : (fs.mask h).getLsbD i with
    | false => rw [Bool.and_false]
    | true =>
      rw [fs.getLsbD_mask hi, decide_eq_true_eq] at hbit
      have hone := hset (i - h * fs.frag % 8) (by omega)
      rw [fs.isset_byte (by omega), Nat.add_sub_cancel' hbit.1] at hone
      rw [hone, Bool.true_and]

end Fs

end NetBSD.Ffs
