import Mathlib.Data.Finset.Image
import Mathlib.Data.Finset.Range
import NetBSD.Lib.Runs

/-!
# The kernel memory allocator

`kern_malloc.c`, for one bucket, without `DIAGNOSTIC` and `KMEMSTATS`. A `malloc` that finds the bucket empty goes on
when `kmem_malloc` returns, and others may run before that.
-/

namespace NetBSD.Kern

structure Bucket where
  pgshift : Nat
  clshift : Nat
  indx : Nat
  shift_le : 3 ≤ pgshift + clshift
  shift_lt : pgshift + clshift < 18

namespace Bucket

variable (kb : Bucket)

def nbpg : Nat := 1 <<< kb.pgshift

def clsize : Nat := 1 <<< kb.clshift

def clbytes : Nat := kb.clsize * kb.nbpg

def maxallocsave : Nat := 2 * kb.clbytes

def btoc (x : Nat) : Nat := (x + (kb.nbpg - 1)) >>> kb.pgshift

def clrnd (i : Nat) : Nat := (i + (kb.clsize - 1)) / kb.clsize * kb.clsize

def ctob (x : Nat) : Nat := x <<< kb.pgshift

def roundup (x y : Nat) : Nat := (x + (y - 1)) / y * y

end Bucket

def minbucket : Nat := 4

def minallocsize : Nat := 1 <<< minbucket

def bucketindx (size : Nat) : Nat := minbucket + ((List.range 15).find? fun i => size ≤ minallocsize <<< i).getD 15

structure Kmem where
  kbNext : Option Nat
  kbLast : Option Nat
  next : Nat → Option Nat

section

variable (kb : Bucket)

def allocsize (size : Nat) : Nat := if size > kb.maxallocsave then Bucket.roundup size kb.clbytes else 1 <<< kb.indx

def npg (size : Nat) : Nat := kb.clrnd (kb.btoc (allocsize kb size))

def mallocStart (k : Kmem) : Option Nat × Kmem :=
  match k.kbNext with
  | none => (none, { k with kbLast := none })
  | some va => (some va, { k with kbNext := k.next va })

/-- The loop that links the blocks of new pages, from `cp` down to `va`: the links, and the last block. -/
def carveLoop (va size : Nat) : Nat → Nat → (Nat → Option Nat) → (Nat → Option Nat) × Nat
  | 0, cp, next => (next, cp)
  | fuel + 1, cp, next =>
    if cp ≤ va then (next, cp)
    else carveLoop va size fuel (cp - size) (Function.update next cp (some (cp - size)))

def mallocWake (size : Nat) (va : Option Nat) (k : Kmem) : Option Nat × Kmem :=
  match va with
  | none => (none, k)
  | some va =>
    if allocsize kb size > kb.maxallocsave then (some va, k)
    else
      let savedlist := k.kbNext
      let cp := va + kb.ctob (npg kb size) - allocsize kb size
      let (next, freep) := carveLoop va (allocsize kb size) (kb.ctob (npg kb size)) cp k.next
      let next := Function.update next freep savedlist
      let kbLast := if k.kbLast = none then some freep else k.kbLast
      (some cp, { kbNext := next cp, kbLast, next })

/-- `free`, and the blocks that it writes to. There is no result when it follows a null pointer. -/
def free (addr : Nat) (k : Kmem) : Option (List Nat × Kmem) :=
  if 1 <<< kb.indx > kb.maxallocsave then some ([], k)
  else
    match k.kbNext, k.kbLast with
    | none, _ => some ([addr], { kbNext := some addr, kbLast := some addr, next := Function.update k.next addr none })
    | some _, none => none
    | some _, some last =>
      some ([last, addr], { k with
        kbLast := some addr
        next := Function.update (Function.update k.next last (some addr)) addr none })

/-- The allocator with the calls that wait for `kmem_malloc`, by their sizes; the pages that the bucket has, with their
number of bytes; the blocks that were made of them; and the blocks that are allocated. -/
structure Heap where
  kmem : Kmem
  asleep : List Nat
  pages : List (Nat × Nat)
  blocks : Finset Nat
  alloc : Finset Nat

inductive Call where
  | malloc (size : Nat)
  | wake (i : Nat) (va : Option Nat)
  | free (addr : Nat)

def blocksOf (va size n : Nat) : Finset Nat := (Finset.range n).image fun i => va + i * size

/-- What `kmem_malloc` has returned becomes blocks of the bucket, or one that is too large for that. -/
def Heap.carve (h : Heap) (size va : Nat) : Heap where
  kmem := h.kmem
  asleep := h.asleep
  pages := (va, kb.ctob (npg kb size)) :: h.pages
  blocks := if allocsize kb size > kb.maxallocsave then h.blocks
    else h.blocks ∪ blocksOf va (allocsize kb size) (kb.ctob (npg kb size) / allocsize kb size)
  alloc := h.alloc

def Heap.call (h : Heap) : Call → Option (Option Nat × Heap)
  | .malloc size =>
    match mallocStart h.kmem with
    | (none, kmem) => some (none, { h with kmem, asleep := h.asleep ++ [size] })
    | (some va, kmem) => some (some va, { h with kmem, alloc := insert va h.alloc })
  | .wake i va =>
    match h.asleep[i]? with
    | none => none
    | some size =>
      let h' : Heap := { h with asleep := h.asleep.eraseIdx i }
      match mallocWake kb size va h.kmem with
      | (none, kmem) => some (none, { h' with kmem })
      | (some got, kmem) =>
        let h' := h'.carve kb size (va.getD 0)
        some (some got, { h' with kmem, alloc := insert got h'.alloc })
  | .free addr =>
    (free kb addr h.kmem).map fun r =>
      (none, { h with
        kmem := r.2
        pages := if 1 <<< kb.indx > kb.maxallocsave then h.pages.filter fun p => p.1 ≠ addr else h.pages
        alloc := h.alloc.erase addr })

def Heap.step (h : Heap) (c : Call) : Option Heap := (h.call kb c).map Prod.snd

def Heap.Boot (h : Heap) : Prop :=
  h.kmem.kbNext = none ∧ h.kmem.kbLast = none ∧ h.asleep = [] ∧ h.pages = [] ∧ h.blocks = ∅ ∧ h.alloc = ∅

/-- The calls for the bucket: `kmem_malloc` returns pages that are not in use, and what is freed is allocated. -/
def Heap.Allowed (h : Heap) : Call → Prop
  | .malloc size => bucketindx size = kb.indx
  | .wake i va => ∃ size, h.asleep[i]? = some size ∧ ∀ va', va = some va' → ∀ p ∈ h.pages,
      va' + kb.ctob (npg kb size) ≤ p.1 ∨ p.1 + p.2 ≤ va'
  | .free addr => addr ∈ h.alloc

def Heap.Careful (h : Heap) : Call → Prop
  | .wake _ (some _) => 1 <<< kb.indx < kb.clbytes → h.kmem.kbNext = none → h.kmem.kbLast = none
  | _ => True

end

end NetBSD.Kern
