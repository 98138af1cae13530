import Mathlib.Data.BitVec

/-!
# Bytes and mbuf chains

An mbuf is modelled by the `m_len` bytes at its `m_data`, a chain by the list its `m_next` pointers
make. Big-endian integers are what `ntohs` and `ntohl` read from such bytes.
-/

namespace NetBSD

abbrev Byte := BitVec 8

abbrev Word16 := BitVec 16

abbrev Word32 := BitVec 32

abbrev Mbuf := List Byte

def bigEndian (bytes : List Byte) : Word32 :=
  bytes.foldl (fun acc b => (acc <<< 8) ||| b.setWidth 32) 0

def bytesAt (mem : List Byte) (i : Int) (n : Nat) : Option (List Byte) :=
  if 0 ≤ i ∧ i + n ≤ mem.length then some ((mem.drop i.toNat).take n) else none

theorem bytesAt_of_neg {mem : List Byte} {i : Int} {n : Nat} (h : i < 0) : bytesAt mem i n = none :=
  if_neg (by omega)

theorem bytesAt_natCast {mem : List Byte} {i n : Nat} (h : i + n ≤ mem.length) :
    bytesAt mem (i : Int) n = some ((mem.drop i).take n) := by
  rw [bytesAt, if_pos (by omega), Int.toNat_natCast]

theorem bytesAt_eq_none_iff {mem : List Byte} {i : Int} {n : Nat} :
    bytesAt mem i n = none ↔ i < 0 ∨ mem.length < i + n := by
  unfold bytesAt
  split
  · simp only [reduceCtorEq, false_iff]
    omega
  · simp only [true_iff]
    omega

end NetBSD
