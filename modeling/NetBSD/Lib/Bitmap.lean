import Mathlib.Logic.Function.Basic
import Mathlib.Data.Nat.Notation

/-!
# Bit maps in bytes

Bit `i` of a map is bit `i % 8` of its byte `i / 8`.
-/

namespace NetBSD.Lib

abbrev Bitmap := Nat → BitVec 8

namespace Bitmap

def isset (a : Bitmap) (i : Nat) : Bool := (a (i / 8)).getLsbD (i % 8)

def setMask (a : Bitmap) (k : Nat) (mask : BitVec 8) : Bitmap := Function.update a k (a k ||| mask)

def clrMask (a : Bitmap) (k : Nat) (mask : BitVec 8) : Bitmap := Function.update a k (a k &&& ~~~mask)

def setbit (a : Bitmap) (i : Nat) : Bitmap := a.setMask (i / 8) (1#8 <<< (i % 8))

def clrbit (a : Bitmap) (i : Nat) : Bitmap := a.clrMask (i / 8) (1#8 <<< (i % 8))

variable {a : Bitmap} {i j k : Nat} {mask : BitVec 8}

theorem isset_setMask : (a.setMask k mask).isset j = (a.isset j || (decide (j / 8 = k) && mask.getLsbD (j % 8))) := by
  unfold isset setMask
  by_cases h : j / 8 = k
  · rw [h, Function.update_self, BitVec.getLsbD_or]
    simp
  · rw [Function.update_of_ne h]
    simp [h]

theorem isset_clrMask : (a.clrMask k mask).isset j = (a.isset j && !(decide (j / 8 = k) && mask.getLsbD (j % 8))) := by
  have hlt : j % 8 < 8 := Nat.mod_lt j (by decide)
  unfold isset clrMask
  by_cases h : j / 8 = k
  · rw [h, Function.update_self, BitVec.getLsbD_and, BitVec.getLsbD_not]
    simp [hlt]
  · rw [Function.update_of_ne h]
    simp [h]

theorem getLsbD_one_shift : ∀ i < 8, ∀ j < 8, (1#8 <<< i).getLsbD j = decide (j = i) := by
  decide

theorem isset_setbit : (a.setbit i).isset j = (a.isset j || decide (j = i)) := by
  have hj : j % 8 < 8 := Nat.mod_lt j (by decide)
  have hi : i % 8 < 8 := Nat.mod_lt i (by decide)
  rw [setbit, isset_setMask, getLsbD_one_shift _ hi _ hj, ← Bool.decide_and]
  congr 2
  apply propext
  omega

theorem isset_clrbit : (a.clrbit i).isset j = (a.isset j && !decide (j = i)) := by
  have hj : j % 8 < 8 := Nat.mod_lt j (by decide)
  have hi : i % 8 < 8 := Nat.mod_lt i (by decide)
  rw [clrbit, isset_clrMask, getLsbD_one_shift _ hi _ hj, ← Bool.decide_and]
  congr 3
  apply propext
  omega

end Bitmap

end NetBSD.Lib
