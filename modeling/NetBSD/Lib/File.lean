import Mathlib.Data.List.Basic
import Mathlib.Order.Lattice.Nat

/-!
# Files

A file has a size and a byte at each offset. Reading ends where the file does; writing behind the end leaves a
hole of zeros.
-/

namespace NetBSD.Lib

structure File where
  size : Nat
  byte : Nat → UInt8

namespace File

def read (f : File) (off n : Nat) : List UInt8 := (List.range (min n (f.size - off))).map fun i => f.byte (off + i)

def write (f : File) (off : Nat) (l : List UInt8) : File where
  size := max f.size (off + l.length)
  byte i := if off ≤ i ∧ i < off + l.length then l.getD (i - off) 0 else if i < f.size then f.byte i else 0

variable {f : File} {off off' n : Nat} {l : List UInt8}

theorem length_read (h : off + n ≤ f.size) : (f.read off n).length = n := by
  rw [read, List.length_map, List.length_range]
  omega

theorem size_le_write : f.size ≤ (f.write off l).size := Nat.le_max_left ..

theorem le_size_write : off + l.length ≤ (f.write off l).size := Nat.le_max_right ..

theorem read_write : (f.write off l).read off l.length = l := by
  have hlen : ((f.write off l).read off l.length).length = l.length := length_read le_size_write
  apply List.ext_getElem hlen
  intro i hi hi'
  simp only [read, List.getElem_map, List.getElem_range, write]
  rw [if_pos ⟨by omega, by omega⟩, Nat.add_sub_cancel_left, List.getD_eq_getElem?_getD, List.getElem?_eq_getElem hi',
    Option.getD_some]

theorem read_write_of_disjoint (hin : off' + n ≤ f.size) (h : off' + n ≤ off ∨ off + l.length ≤ off') :
    (f.write off l).read off' n = f.read off' n := by
  have hsize : f.size ≤ (f.write off l).size := size_le_write
  have hmin : min n ((f.write off l).size - off') = n := by omega
  have hmin' : min n (f.size - off') = n := by omega
  rw [read, read, hmin, hmin']
  apply List.map_congr_left
  intro i hi
  rw [List.mem_range] at hi
  simp only [write]
  rw [if_neg (by omega), if_pos (by omega)]

end File

end NetBSD.Lib
