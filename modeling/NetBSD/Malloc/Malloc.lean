import NetBSD.Lib.Links

/-!
# The allocator of the C library

`malloc.c` without `RCHECK`. Memory is bytes, and the header of a block is its first four: the address of the next free block, with the
low byte first, or a magic number and the number of a bucket. What `sbrk` returns is given with each call; fresh memory is zero.
-/

namespace NetBSD.Malloc

open Function (update)

abbrev Byte := BitVec 8

def overhead : Nat := 4

def magic : Byte := 0xef

def nbuckets : Nat := 30

/-- What `sbrk` does in a call: the break, whether it can be aligned, and the memory that `morecore` gets. -/
structure Sbrk where
  brk : Nat
  aligned : Bool
  more : Option Nat

structure Heap where
  mem : Nat → Byte
  nextf : Nat → Option Nat
  pagesz : Nat
  pagebucket : Nat
  areas : List (Nat × Nat)

def next (m : Nat → Byte) (p : Nat) : Option Nat :=
  let q := (m p).toNat + 256 * (m (p + 1)).toNat + 65536 * (m (p + 2)).toNat + 16777216 * (m (p + 3)).toNat
  if q = 0 then none else some q

def putNext (p : Nat) (q : Option Nat) (m : Nat → Byte) : Nat → Byte :=
  let q := q.getD 0
  update (update (update (update m p (.ofNat 8 q)) (p + 1) (.ofNat 8 (q / 256))) (p + 2) (.ofNat 8 (q / 65536))) (p + 3)
    (.ofNat 8 (q / 16777216))

def putUsed (p bucket : Nat) (m : Nat → Byte) : Nat → Byte := update (update m p magic) (p + 1) (.ofNat 8 bucket)

def double (amt : Nat) : Nat := amt * 2 % 4294967296

def pageLoop (pagesz : Nat) : Nat → Nat → Nat → Nat
  | 0, _, bucket => bucket
  | fuel + 1, amt, bucket => if pagesz > amt then pageLoop pagesz fuel (double amt) (bucket + 1) else bucket

def padding (pagesz : Nat) (e : Sbrk) : Int :=
  let n : Int := pagesz - overhead - e.brk % pagesz
  if n < 0 then n + pagesz else n

def setup (getpagesize : Nat) (e : Sbrk) (h : Heap) : Bool × Heap :=
  if h.pagesz ≠ 0 then (true, h)
  else if padding getpagesize e ≠ 0 ∧ e.aligned = false then (false, { h with pagesz := getpagesize })
  else (true, { h with pagesz := getpagesize, pagebucket := pageLoop getpagesize 32 8 0 })

def sizeLoop (nbytes : Nat) (n : Int) : Nat → Nat → Nat → Option Nat
  | 0, _, _ => none
  | fuel + 1, amt, bucket =>
    if (nbytes : Int) > (amt + n) % 4294967296 then
      if double amt = 0 then none else sizeLoop nbytes n fuel (double amt) (bucket + 1)
    else some bucket

def bucketFor (h : Heap) (nbytes : Nat) : Option Nat :=
  if nbytes ≤ h.pagesz - overhead then sizeLoop nbytes (-overhead) 33 8 0
  else sizeLoop nbytes (h.pagesz - overhead) 33 h.pagesz h.pagebucket

def carve (sz : Nat) : Nat → Nat → (Nat → Byte) → (Nat → Byte)
  | 0, _, m => m
  | nblks + 1, op, m => carve sz nblks (op + sz) (putNext op (some (op + sz)) m)

def request (pagesz sz : Nat) : Nat × Nat := if sz < pagesz then (pagesz, pagesz / sz) else (sz + pagesz, 1)

def morecore (e : Sbrk) (bucket : Nat) (h : Heap) : Heap :=
  if bucket + 3 ≥ 31 then h
  else
    let sz := 1 <<< (bucket + 3)
    let r := request h.pagesz sz
    match e.more with
    | none => h
    | some op =>
      { h with
        mem := carve sz (r.2 - 1) op fun x => if op ≤ x ∧ x < op + r.1 then 0 else h.mem x
        nextf := update h.nextf bucket (some op)
        areas := (op, r.1) :: h.areas }

def pop (bucket : Nat) (h : Heap) : Option Nat × Heap :=
  match h.nextf bucket with
  | none => (none, h)
  | some op => (some (op + overhead), { h with nextf := update h.nextf bucket (next h.mem op), mem := putUsed op bucket h.mem })

def allocate (e : Sbrk) (nbytes : Nat) (h : Heap) : Option Nat × Heap :=
  match bucketFor h nbytes with
  | none => (none, h)
  | some bucket => pop bucket (if h.nextf bucket = none then morecore e bucket h else h)

def malloc (getpagesize : Nat) (e : Sbrk) (nbytes : Nat) (h : Heap) : Option Nat × Heap :=
  let r := setup getpagesize e h
  if r.1 = false then (none, r.2) else allocate e nbytes r.2

def free (cp : Option Nat) (h : Heap) : Heap :=
  match cp with
  | none => h
  | some cp =>
    let op := cp - overhead
    if h.mem op ≠ magic then h
    else
      let size := (h.mem (op + 1)).toNat
      { h with mem := putNext op (h.nextf size) h.mem, nextf := update h.nextf size (some op) }

def capacity (pagesz i : Nat) : Nat :=
  let onb := (1 <<< (i + 3)) % 4294967296
  if onb < pagesz then (onb + 4294967296 - overhead) % 4294967296 else onb + pagesz - overhead

def findLoop (m : Nat → Byte) (freep : Nat) : Nat → Option Nat → Bool
  | 0, _ => false
  | _ + 1, none => false
  | srchlen + 1, some p => if p = freep then true else findLoop m freep srchlen (next m p)

def findbucket (h : Heap) (freep srchlen : Nat) : Option Nat :=
  (List.range nbuckets).find? fun i => findLoop h.mem freep srchlen (h.nextf i)

def reallocSrchlen : Nat := 4

def bcopy (src dst len : Nat) (m : Nat → Byte) : Nat → Byte := fun x => if dst ≤ x ∧ x < dst + len then m (src + (x - dst)) else m x

def move (getpagesize : Nat) (e : Sbrk) (cp nbytes onb : Nat) (h : Heap) : Option Nat × Heap :=
  match malloc getpagesize e nbytes h with
  | (none, h) => (none, h)
  | (some res, h) =>
    (some res, if cp = res then h else { h with mem := bcopy cp res (if nbytes < onb then nbytes else onb) h.mem })

def sameBlock (pagesz i nbytes : Nat) : Bool := nbytes ≤ capacity pagesz i ∧ nbytes > if i = 0 then 0 else capacity pagesz (i - 1)

def realloc (getpagesize : Nat) (e : Sbrk) (cp : Option Nat) (nbytes : Nat) (h : Heap) : Option Nat × Heap :=
  match cp with
  | none => malloc getpagesize e nbytes h
  | some cp =>
    let op := cp - overhead
    if h.mem op = magic then
      let i := (h.mem (op + 1)).toNat
      if sameBlock h.pagesz i nbytes then (some cp, h) else move getpagesize e cp nbytes (capacity h.pagesz i) (free (some cp) h)
    else
      let i := ((findbucket h op 1).or (findbucket h op reallocSrchlen)).getD nbuckets
      move getpagesize e cp nbytes (capacity h.pagesz i) h

inductive Call where
  | malloc (nbytes : Nat) (e : Sbrk)
  | free (cp : Option Nat)
  | realloc (cp : Option Nat) (nbytes : Nat) (e : Sbrk)
  | write (cp i : Nat) (b : Byte)

structure World where
  heap : Heap
  live : List (Nat × Nat)

namespace World

variable (w : World)

def without (cp : Option Nat) : List (Nat × Nat) := w.live.filter fun x => some x.1 ≠ cp

def call (getpagesize : Nat) : Call → Option Nat × World
  | .malloc nbytes e =>
    match Malloc.malloc getpagesize e nbytes w.heap with
    | (none, h) => (none, { w with heap := h })
    | (some p, h) => (some p, ⟨h, (p, nbytes) :: w.live⟩)
  | .free cp => (none, ⟨Malloc.free cp w.heap, w.without cp⟩)
  | .realloc cp nbytes e =>
    match Malloc.realloc getpagesize e cp nbytes w.heap with
    | (none, h) => (none, { w with heap := h })
    | (some p, h) => (some p, ⟨h, (p, nbytes) :: w.without cp⟩)
  | .write cp i b => (none, { w with heap := { w.heap with mem := update w.heap.mem (cp + i) b } })

end World

end NetBSD.Malloc
