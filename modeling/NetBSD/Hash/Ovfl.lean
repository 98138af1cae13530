import Mathlib.Algebra.GroupWithZero.Nat
import Mathlib.Data.Nat.Basic
import Mathlib.Data.List.Nodup
import Mathlib.Logic.Function.Basic
import Mathlib.Data.Nat.Notation

/-!
# Overflow pages of a hash file

An overflow page has an address, the split point at which it was made and its number there, and a bit in the bitmap pages.
`SPARES` counts the pages made up to each split point.
-/

namespace NetBSD.Hash

open Function (update)

def ncached : Nat := 32

def splitmask : Nat := 0x7FF

def bitsPerMap : Nat := 32

/-- What `HTAB` has for the allocation of pages; `mapp i` are the bits of the bitmap page `i` in memory. -/
structure Htab where
  bshift : Nat
  hdrpages : Nat
  maxBucket : Nat
  ovflPoint : Nat
  lastFreed : Nat
  spares : Nat → Nat
  bitmaps : Nat → Nat
  nmaps : Nat
  mapp : Nat → Nat → Bool

def log2Loop (num : Nat) : Nat → Nat → Nat → Nat
  | 0, i, _ => i
  | n + 1, i, limit => if limit < num then log2Loop num n (i + 1) (2 * limit) else i

def log2 (num : Nat) : Nat := log2Loop num 32 0 1

def splitnum (addr : Nat) : Nat := addr / (splitmask + 1)

def opagenum (addr : Nat) : Nat := addr % (splitmask + 1)

def oaddrOf (s o : Nat) : Nat := (s * (splitmask + 1) + o) % 65536

namespace Htab

def bits (h : Htab) : Nat := 2 ^ (h.bshift + 3)

def before (h : Htab) (s : Nat) : Nat := if s = 0 then 0 else h.spares (s - 1)

def bucketToPage (h : Htab) (b : Nat) : Nat := b + h.hdrpages + if b = 0 then 0 else h.spares (log2 (b + 1) - 1)

def oaddrToPage (h : Htab) (addr : Nat) : Nat := h.bucketToPage (2 ^ splitnum addr - 1) + opagenum addr

def setbit (h : Htab) (i bit : Nat) : Htab := { h with mapp := update h.mapp i (update (h.mapp i) bit true) }

def clrbit (h : Htab) (i bit : Nat) : Htab := { h with mapp := update h.mapp i (update (h.mapp i) bit false) }

/-- The bits of a new bitmap page: the first one for itself, and from `nbits` on those that are not in use. -/
def ibit (nbits bit : Nat) : Bool :=
  let clearints := (nbits - 1) / bitsPerMap + 1
  bit == 0 || if bit / bitsPerMap + 1 < clearints then false
    else if bit / bitsPerMap + 1 = clearints then nbits % bitsPerMap ≤ bit % bitsPerMap else true

def ibitmap (h : Htab) (pnum nbits ndx : Nat) : Htab :=
  { h with nmaps := h.nmaps + 1, bitmaps := update h.bitmaps ndx pnum, mapp := update h.mapp ndx (ibit nbits) }

def init (bshift nelem ffactor : Nat) : Htab :=
  let l2 := log2 (max ((nelem - 1) / ffactor + 1) 2)
  ibitmap
    { bshift := bshift
      hdrpages := (max 260 512 - 1) / 2 ^ bshift + 1
      maxBucket := 2 ^ l2 - 1
      ovflPoint := l2
      lastFreed := 2
      spares := update (update (fun _ => 0) l2 (l2 + 1)) (l2 + 1) (l2 + 1)
      bitmaps := fun _ => 0
      nmaps := 0
      mapp := fun _ _ => false } (oaddrOf l2 1) (l2 + 1) 0

end Htab

def allSet (map : Nat → Bool) (bit : Nat) : Bool := (List.range bitsPerMap).all fun k => map (bit + k)

def firstFree (map : Nat → Bool) (bit : Nat) : Nat := ((List.range bitsPerMap).find? fun k => !map (bit + k)).getD bitsPerMap

def scanWords (map : Nat → Bool) (inUseBits : Nat) : Nat → Nat → Option Nat
  | 0, _ => none
  | n + 1, bit =>
    if bit ≤ inUseBits then if allSet map bit then scanWords map inUseBits n (bit + bitsPerMap) else some bit else none

inductive Scan where
  | undefined
  | unfetched
  | full
  | found (i bit : Nat)

namespace Htab

def maxFree (h : Htab) : Nat := h.spares h.ovflPoint

def freePage (h : Htab) : Nat := (h.maxFree - 1) / h.bits

def freeBit (h : Htab) : Nat := (h.maxFree - 1) % h.bits

def firstPage (h : Htab) : Nat := h.lastFreed / h.bits

def scanMaps (h : Htab) : Nat → Nat → Scan
  | 0, _ => .full
  | n + 1, i =>
    if i ≤ h.freePage then
      if ncached ≤ i then .undefined
      else if h.nmaps ≤ i then .unfetched
      else
        let inUseBits := if i = h.freePage then h.freeBit else h.bits - 1
        let bit := if i = h.firstPage then h.lastFreed % h.bits / bitsPerMap * bitsPerMap else 0
        match scanWords (h.mapp i) inUseBits (inUseBits + 1) bit with
        | some bit => .found i (bit + firstFree (h.mapp i) bit)
        | none => scanMaps h n (i + 1)
    else .full

def scan (h : Htab) : Scan := if h.freePage < h.firstPage then .undefined else h.scanMaps (h.freePage + 1) h.firstPage

def splitLoop (spares : Nat → Nat) (bit : Nat) : Nat → Nat → Nat
  | 0, i => i
  | n + 1, i => if spares i < bit then splitLoop spares bit n (i + 1) else i

def reuse (h : Htab) (i bit : Nat) : Option (Nat × Nat) × Htab :=
  let h := h.setbit i bit
  let num := 1 + bit + i * h.bits
  let h := if h.lastFreed ≤ num then { h with lastFreed := num - 1 } else h
  let s := splitLoop h.spares num h.ovflPoint 0
  let offset := num - h.before s
  if splitmask ≤ offset then (none, h) else (some (oaddrOf s offset, num - 1), h)

def addSpare (h : Htab) (s : Nat) : Htab := { h with spares := update h.spares s (h.spares s + 1) }

def nextSplit (h : Htab) (s offset restart : Nat) : Option (Htab × Nat × Nat) :=
  if splitmask < offset then
    if ncached ≤ s + 1 then none
    else some ({ h with
      ovflPoint := s + 1
      spares := update (update h.spares (s + 1) (h.spares s)) s (h.spares s - 1) }, s + 1, restart)
  else some (h, s, offset)

def extend (h : Htab) : Option (Nat × Nat) × Htab :=
  let freePage := h.freePage
  let freeBit := h.freeBit
  let s := h.ovflPoint
  let h := { h.addSpare s with lastFreed := h.maxFree }
  match h.nextSplit s (h.spares s - h.before s) 1 with
  | none => (none, h)
  | some (h, s, offset) =>
    if freeBit = h.bits - 1 then
      if ncached ≤ freePage + 1 then (none, h)
      else
        let h := (h.ibitmap (oaddrOf s offset) 1 (freePage + 1)).addSpare s
        match h.nextSplit s (offset + 1) 0 with
        | none => (none, h)
        | some (h, s, offset) => (some (oaddrOf s offset, (freePage + 1) * h.bits + 1), h)
    else (some (oaddrOf s offset, freePage * h.bits + (freeBit + 1)), h.setbit freePage (freeBit + 1))

def overflowPage (h : Htab) : Option (Option (Nat × Nat) × Htab) :=
  match h.scan with
  | .undefined => none
  | .unfetched => some (none, h)
  | .found i bit => some (h.reuse i bit)
  | .full => some h.extend

def bitAddress (h : Htab) (addr : Nat) : Nat := h.before (splitnum addr) + opagenum addr - 1

def freeOvflpage (h : Htab) (addr : Nat) : Htab :=
  let bit := h.bitAddress addr
  let h := if bit < h.lastFreed then { h with lastFreed := bit } else h
  h.clrbit (bit / h.bits) (bit % h.bits)

def expandTable (h : Htab) : Option Htab :=
  if h.maxBucket + 2 < 2 ^ 31 then
    let h := { h with maxBucket := h.maxBucket + 1 }
    let spareNdx := log2 (h.maxBucket + 1)
    some (if h.ovflPoint < spareNdx then { h with
      spares := update h.spares spareNdx (h.spares h.ovflPoint)
      ovflPoint := spareNdx } else h)
  else none

end Htab

structure Pool where
  table : Htab
  live : List (Nat × Nat)

inductive Op where
  | alloc
  | free (addr : Nat)
  | expand

namespace Pool

def step (p : Pool) : Op → Option Pool
  | .alloc => p.table.overflowPage.map fun r => ⟨r.2, r.1.toList ++ p.live⟩
  | .free addr => some ⟨p.table.freeOvflpage addr, p.live.filter fun q => q.1 ≠ addr⟩
  | .expand => p.table.expandTable.map fun h => ⟨h, p.live⟩

def run (p : Pool) : List Op → Option Pool
  | [] => some p
  | op :: ops => (p.step op).bind fun p => run p ops

end Pool

variable {num n i j r s o b addr m : Nat} {h h' h'' : Htab}

theorem log2Loop_spec (hn : num ≤ 2 ^ (i + n)) : num ≤ 2 ^ log2Loop num n i (2 ^ i) ∧ i ≤ log2Loop num n i (2 ^ i) ∧
    ∀ j, i ≤ j → j < log2Loop num n i (2 ^ i) → 2 ^ j < num := by
  induction n generalizing i with
  | zero => exact ⟨hn, le_refl i, fun j hij hj => absurd hj (by rw [log2Loop]; omega)⟩
  | succ n ih =>
    rw [log2Loop]
    split
    · rename_i hlt
      rw [show 2 * 2 ^ i = 2 ^ (i + 1) by rw [Nat.pow_succ, Nat.mul_comm]]
      obtain ⟨hle, hi, hbelow⟩ := ih (i := i + 1) (by rwa [Nat.add_right_comm])
      refine ⟨hle, by omega, fun j hij hj => ?_⟩
      rcases Nat.eq_or_lt_of_le hij with rfl | hij
      · exact hlt
      · exact hbelow j hij hj
    · rename_i hge
      exact ⟨Nat.le_of_not_lt hge, le_refl i, fun j hij hj => absurd hj (by omega)⟩

theorem le_two_pow_log2 (hn : num ≤ 2 ^ 32) : num ≤ 2 ^ log2 num := (log2Loop_spec (i := 0) (by rwa [Nat.zero_add])).1

theorem two_pow_lt_of_lt_log2 (hn : num ≤ 2 ^ 32) (hj : j < log2 num) : 2 ^ j < num :=
  (log2Loop_spec (i := 0) (by rwa [Nat.zero_add])).2.2 j (Nat.zero_le j) hj

theorem log2_le (hn : num ≤ 2 ^ 32) (h : num ≤ 2 ^ r) : log2 num ≤ r := by
  by_contra hlt
  exact absurd (two_pow_lt_of_lt_log2 hn (Nat.lt_of_not_le hlt)) (Nat.not_lt.2 h)

theorem lt_log2 (hn : num ≤ 2 ^ 32) (h : 2 ^ r < num) : r < log2 num := by
  by_contra hle
  have hpow := Nat.pow_le_pow_right (show 0 < 2 by decide) (Nat.le_of_not_lt hle)
  have := le_two_pow_log2 hn
  omega

theorem log2_two_pow (hs : s ≤ 32) : log2 (2 ^ s) = s := by
  have hn : 2 ^ s ≤ 2 ^ 32 := Nat.pow_le_pow_right (by decide) hs
  refine Nat.le_antisymm (log2_le hn (le_refl _)) ?_
  rcases s with _ | s
  · exact Nat.zero_le _
  · exact lt_log2 hn (Nat.pow_lt_pow_right (by decide) (by omega))

theorem log2_mono (hmn : m ≤ n) (hn : n ≤ 2 ^ 32) : log2 m ≤ log2 n :=
  log2_le (Nat.le_trans hmn hn) (Nat.le_trans hmn (le_two_pow_log2 hn))

theorem log2_succ_le (hpos : 1 ≤ n) (hn : n + 1 ≤ 2 ^ 32) : log2 (n + 1) ≤ log2 n + 1 := by
  refine log2_le hn ?_
  have hle := le_two_pow_log2 (show n ≤ 2 ^ 32 by omega)
  rw [Nat.pow_succ]
  omega

theorem scanWords_some {map : Nat → Bool} {inUse bit : Nat} (h : scanWords map inUse n i = some bit) (hi : 32 ∣ i) :
    bit ≤ inUse ∧ allSet map bit = false ∧ 32 ∣ bit := by
  induction n generalizing i with
  | zero => cases h
  | succ n ih =>
    rw [scanWords] at h
    split at h
    · rename_i hle
      split at h
      · exact ih h ((Nat.dvd_add_right hi).2 (Nat.dvd_refl 32))
      · rename_i hnot
        obtain rfl := Option.some.inj h
        exact ⟨hle, Bool.not_eq_true _ ▸ hnot, hi⟩
    · cases h

theorem firstFree_spec {map : Nat → Bool} (h : allSet map b = false) : map (b + firstFree map b) = false ∧ firstFree map b < 32 := by
  unfold firstFree
  cases hfind : (List.range bitsPerMap).find? fun k => !map (b + k) with
  | none =>
    have hall := List.find?_eq_none.1 hfind
    rw [allSet, List.all_eq_false] at h
    obtain ⟨k, hk, hnot⟩ := h
    exact absurd (by simpa using hnot) (hall k hk)
  | some k =>
    have hk := List.find?_some hfind
    have hmem := List.mem_range.1 (List.mem_of_find?_eq_some hfind)
    exact ⟨by simpa using hk, hmem⟩

namespace Htab

theorem bits_pos (h : Htab) : 0 < h.bits := Nat.two_pow_pos _

theorem div_mod_bits (h : Htab) (i : Nat) (hb : b < h.bits) : (i * h.bits + b) / h.bits = i ∧ (i * h.bits + b) % h.bits = b := by
  rw [Nat.mul_comm, Nat.mul_add_div h.bits_pos, Nat.mul_add_mod, Nat.div_eq_of_lt hb, Nat.mod_eq_of_lt hb]
  exact ⟨rfl, rfl⟩

theorem dvd_bits (hb : 2 ≤ h.bshift) : 32 ∣ h.bits := Nat.pow_dvd_pow 2 (show 5 ≤ h.bshift + 3 by omega)

theorem scanMaps_found (hb : 2 ≤ h.bshift) (hscan : h.scanMaps n j = .found i b) :
    i < ncached ∧ i < h.nmaps ∧ b < h.bits ∧ h.mapp i b = false := by
  induction n generalizing j with
  | zero => cases hscan
  | succ n ih =>
    rw [scanMaps] at hscan
    split at hscan
    · split at hscan
      · cases hscan
      · rename_i hcached
        split at hscan
        · cases hscan
        · rename_i hnmaps
          dsimp only at hscan
          split at hscan
          · rename_i bit hwords
            obtain ⟨rfl, rfl⟩ := Scan.found.inj hscan
            have hstart : 32 ∣ (if j = h.firstPage then h.lastFreed % h.bits / bitsPerMap * bitsPerMap else 0) := by
              split
              · exact Nat.dvd_mul_left _ _
              · exact Nat.dvd_zero _
            obtain ⟨hle, hset, hdvd⟩ := scanWords_some hwords hstart
            obtain ⟨hclear, hff⟩ := firstFree_spec hset
            have hlt : bit < h.bits := by
              have hmod : h.freeBit < h.bits := Nat.mod_lt _ h.bits_pos
              have hpos := h.bits_pos
              split at hle <;> omega
            have hbits := dvd_bits hb
            exact ⟨Nat.lt_of_not_le hcached, Nat.lt_of_not_le hnmaps, by omega, hclear⟩
          · exact ih hscan
    · cases hscan

theorem scanMaps_full (hn : h.freePage < j + n) (hj : j ≤ h.freePage) (hscan : h.scanMaps n j = .full) :
    h.freePage < h.nmaps ∧ h.freePage < ncached := by
  induction n generalizing j with
  | zero => omega
  | succ n ih =>
    rw [scanMaps, if_pos hj] at hscan
    split at hscan
    · cases hscan
    · rename_i hcached
      split at hscan
      · cases hscan
      · rename_i hnmaps
        dsimp only at hscan
        split at hscan
        · cases hscan
        · rcases Nat.eq_or_lt_of_le hj with rfl | hlt
          · exact ⟨Nat.lt_of_not_le hnmaps, Nat.lt_of_not_le hcached⟩
          · exact ih (by omega) hlt hscan

theorem scanMaps_undefined (hpage : h.freePage < ncached) : h.scanMaps n j ≠ .undefined := by
  induction n generalizing j with
  | zero => exact fun hscan => by cases hscan
  | succ n ih =>
    rw [scanMaps]
    split
    · rename_i hj
      rw [if_neg (by omega)]
      split
      · exact fun hscan => by cases hscan
      · dsimp only
        split
        · exact fun hscan => by cases hscan
        · exact ih
    · exact fun hscan => by cases hscan

structure Ok (h : Htab) : Prop where
  bshift : 2 ≤ h.bshift
  bucket : h.maxBucket + 1 < 2 ^ 31
  log : log2 (h.maxBucket + 1) ≤ h.ovflPoint
  point : h.ovflPoint < ncached
  mono : ∀ i < h.ovflPoint, h.spares i ≤ h.spares (i + 1)
  pos : 1 ≤ h.maxFree
  first : h.firstPage ≤ h.freePage
  nmaps : h.nmaps ≤ h.freePage + 1
  beyond : ∀ i < h.nmaps, ∀ b < h.bits, h.maxFree ≤ i * h.bits + b → h.mapp i b = true

structure Placed (h : Htab) (addr b : Nat) : Prop where
  split : splitnum addr ≤ h.ovflPoint
  offset : 1 ≤ opagenum addr
  bit : h.before (splitnum addr) + opagenum addr = b + 1
  lt : b < h.spares (splitnum addr)
  map : b / h.bits < h.nmaps
  set : h.mapp (b / h.bits) (b % h.bits) = true

theorem before_succ (h : Htab) (s : Nat) : h.before (s + 1) = h.spares s := rfl

theorem before_congr (hlow : ∀ i < s, h'.spares i = h.spares i) : h'.before s = h.before s := by
  unfold before
  rcases s with _ | s
  · rfl
  · exact hlow s (Nat.lt_succ_self s)

theorem Ok.before_mono (hok : h.Ok) (hrs : r ≤ s) (hs : s ≤ h.ovflPoint + 1) : h.before r ≤ h.before s := by
  induction s with
  | zero =>
    rw [Nat.le_zero.1 hrs]
  | succ s ih =>
    rcases Nat.eq_or_lt_of_le hrs with rfl | hlt
    · exact Nat.le_refl _
    · refine Nat.le_trans (ih (Nat.le_of_lt_succ hlt) (by omega)) ?_
      rcases s with _ | s
      · exact Nat.zero_le _
      · exact hok.mono s (by omega)

structure Grows (h h' : Htab) : Prop where
  bshift : h'.bshift = h.bshift
  point : h.ovflPoint ≤ h'.ovflPoint
  low : ∀ i < h.ovflPoint, h'.spares i = h.spares i
  top : h.maxFree ≤ h'.spares h.ovflPoint
  nmaps : h.nmaps ≤ h'.nmaps
  bitmaps : ∀ i < h.nmaps, h'.bitmaps i = h.bitmaps i
  set : ∀ i < h.nmaps, ∀ b, h.mapp i b = true → h'.mapp i b = true

theorem Placed.grows (hp : h.Placed addr b) (hg : h.Grows h') : h'.Placed addr b := by
  have hbits : h'.bits = h.bits := by
    unfold bits
    rw [hg.bshift]
  have hbefore : h'.before (splitnum addr) = h.before (splitnum addr) :=
    before_congr fun i hi => hg.low i (Nat.lt_of_lt_of_le hi hp.split)
  refine ⟨Nat.le_trans hp.split hg.point, hp.offset, by rw [hbefore, hp.bit], ?_, ?_, ?_⟩
  · have hlt := hp.lt
    rcases Nat.eq_or_lt_of_le hp.split with hs | hs
    · rw [hs] at hlt ⊢
      exact Nat.lt_of_lt_of_le hlt hg.top
    · rwa [hg.low _ hs]
  · rw [hbits]
    exact Nat.lt_of_lt_of_le hp.map hg.nmaps
  · rw [hbits]
    exact hg.set _ hp.map _ hp.set

theorem oaddrOf_eq (hs : s < ncached) (ho : o ≤ splitmask) : splitnum (oaddrOf s o) = s ∧ opagenum (oaddrOf s o) = o := by
  unfold ncached at hs
  unfold splitmask at ho
  unfold splitnum opagenum oaddrOf splitmask
  omega

/-- What is left of a table when a page has been counted, as the page `o` of the split point `s`. -/
structure Counted (h h' : Htab) (s o : Nat) : Prop where
  bshift : h'.bshift = h.bshift
  maxBucket : h'.maxBucket = h.maxBucket
  bitmaps : h'.bitmaps = h.bitmaps
  nmaps : h'.nmaps = h.nmaps
  mapp : h'.mapp = h.mapp
  point : h'.ovflPoint = s
  le : h.ovflPoint ≤ s
  lt : s < ncached
  low : ∀ i < h.ovflPoint, h'.spares i = h.spares i
  same : h.ovflPoint < s → h'.spares h.ovflPoint = h.maxFree ∧ s = h.ovflPoint + 1
  maxFree : h'.maxFree = h.maxFree + 1
  number : h'.before s + o = h.maxFree + 1
  pos : 1 ≤ o

theorem counted_addSpare (hok : h.Ok) (hoff : h.before h.ovflPoint + o = h.maxFree + 1) :
    h.Counted { h.addSpare h.ovflPoint with lastFreed := m } h.ovflPoint o := by
  have htop : h.before h.ovflPoint ≤ h.maxFree := hok.before_mono (Nat.le_succ h.ovflPoint) (Nat.le_refl _)
  have hother : ∀ i < h.ovflPoint, (h.addSpare h.ovflPoint).spares i = h.spares i := fun i hi => Function.update_of_ne (Nat.ne_of_lt hi) _ _
  exact ⟨rfl, rfl, rfl, rfl, rfl, rfl, Nat.le_refl _, hok.point, hother, fun hlt => absurd hlt (Nat.lt_irrefl _), Function.update_self _ _ _,
    (congrArg (· + o) (before_congr hother)).trans hoff, by omega⟩

theorem nextSplit_addSpare (hok : h.Ok) (hoff : h.before h.ovflPoint + o = h.maxFree + 1)
    (hnext : nextSplit { h.addSpare h.ovflPoint with lastFreed := m } h.ovflPoint o 1 = some (h', s, i)) :
    h.Counted h' s i ∧ i ≤ splitmask ∧ h'.lastFreed = m := by
  have hself : (h.addSpare h.ovflPoint).spares h.ovflPoint = h.maxFree + 1 := Function.update_self _ _ _
  have hother : ∀ i, i ≠ h.ovflPoint → (h.addSpare h.ovflPoint).spares i = h.spares i := fun i hi => Function.update_of_ne hi _ _
  unfold nextSplit at hnext
  split at hnext
  · split at hnext
    · cases hnext
    · rename_i hcached
      obtain ⟨rfl, rfl, rfl⟩ : _ = h' ∧ h.ovflPoint + 1 = s ∧ 1 = i := by simpa using hnext
      have hback : update (update (h.addSpare h.ovflPoint).spares (h.ovflPoint + 1) ((h.addSpare h.ovflPoint).spares h.ovflPoint)) h.ovflPoint
          ((h.addSpare h.ovflPoint).spares h.ovflPoint - 1) h.ovflPoint = h.maxFree := by
        rw [Function.update_self, hself, Nat.add_sub_cancel]
      have hnew : update (update (h.addSpare h.ovflPoint).spares (h.ovflPoint + 1) ((h.addSpare h.ovflPoint).spares h.ovflPoint)) h.ovflPoint
          ((h.addSpare h.ovflPoint).spares h.ovflPoint - 1) (h.ovflPoint + 1) = h.maxFree + 1 := by
        rw [Function.update_of_ne (by omega), Function.update_self, hself]
      refine ⟨⟨rfl, rfl, rfl, rfl, rfl, rfl, Nat.le_succ _, Nat.lt_of_not_le hcached, fun i hi => ?_, fun _ => ⟨hback, rfl⟩, hnew,
        congrArg (· + 1) hback, Nat.le_refl 1⟩, by decide, rfl⟩
      exact (Function.update_of_ne (by omega) _ _).trans ((Function.update_of_ne (by omega) _ _).trans (hother i (by omega)))
  · rename_i hsmall
    obtain ⟨rfl, rfl, rfl⟩ : _ = h' ∧ h.ovflPoint = s ∧ o = i := by simpa using hnext
    exact ⟨counted_addSpare hok hoff, Nat.le_of_not_lt hsmall, rfl⟩

namespace Counted

theorem bits (hc : h.Counted h' s o) : h'.bits = h.bits := by
  unfold Htab.bits
  rw [hc.bshift]

theorem grows (hc : h.Counted h' s o) : h.Grows h' := by
  refine ⟨hc.bshift, hc.point.symm ▸ hc.le, hc.low, ?_, Nat.le_of_eq hc.nmaps.symm, fun i _ => by rw [hc.bitmaps], fun i _ b hb => by rwa [hc.mapp]⟩
  rcases Nat.eq_or_lt_of_le hc.le with hs | hs
  · have hmax := hc.maxFree
    rw [Htab.maxFree, hc.point, ← hs] at hmax
    omega
  · exact Nat.le_of_eq (hc.same hs).1.symm

theorem ok (hc : h.Counted h' s o) (hok : h.Ok) (hlast : h'.lastFreed ≤ h.maxFree) : h'.Ok := by
  have hmax : h'.spares s = h.maxFree + 1 := by
    rw [← hc.maxFree, Htab.maxFree, hc.point]
  have hfree : h'.freePage = h.maxFree / h.bits := by
    rw [freePage, hc.maxFree, hc.bits, Nat.add_sub_cancel]
  refine ⟨hc.bshift ▸ hok.bshift, hc.maxBucket.symm ▸ hok.bucket, ?_, hc.point.symm ▸ hc.lt, fun i hi => ?_, ?_, ?_, ?_, fun i hi b hb hle => ?_⟩
  · rw [hc.maxBucket, hc.point]
    exact Nat.le_trans hok.log hc.le
  · rw [hc.point] at hi
    have hs := hc.le
    rcases Nat.lt_or_ge i h.ovflPoint with hlt | hge
    · have hmono := hok.mono i hlt
      have hlow := hc.low i hlt
      rcases Nat.lt_or_ge (i + 1) h.ovflPoint with hlt' | hge'
      · rw [hlow, hc.low _ hlt']
        exact hmono
      · have htop := hc.grows.top
        rw [show i + 1 = h.ovflPoint by omega] at hmono ⊢
        rw [hlow]
        exact Nat.le_trans hmono htop
    · obtain ⟨hsame, hsucc⟩ := hc.same (by omega)
      rw [show i = h.ovflPoint by omega, hsame, ← hsucc, hmax]
      exact Nat.le_succ _
  · rw [hc.maxFree]
    exact Nat.succ_pos _
  · rw [firstPage, hfree, hc.bits]
    exact Nat.div_le_div_right hlast
  · rw [hc.nmaps, hfree]
    have hle : h.freePage ≤ h.maxFree / h.bits := Nat.div_le_div_right (Nat.sub_le _ _)
    exact Nat.le_trans hok.nmaps (Nat.succ_le_succ hle)
  · rw [hc.maxFree, hc.bits] at hle
    rw [hc.bits] at hb
    rw [hc.nmaps] at hi
    rw [hc.mapp]
    exact hok.beyond i hi b hb (by omega)

end Counted

theorem ibit_one (b : Nat) : ibit 1 b = true := by
  unfold ibit bitsPerMap
  simp
  omega

theorem Counted.placed (hc : h.Counted h' s o) (ho : o ≤ splitmask) (hg : h'.Grows h'') (hmap : h.maxFree / h.bits < h''.nmaps)
    (hset : h''.mapp (h.maxFree / h.bits) (h.maxFree % h.bits) = true) : h''.Placed (oaddrOf s o) h.maxFree := by
  obtain ⟨hsplit, hnum⟩ := oaddrOf_eq hc.lt ho
  have hbits : h''.bits = h.bits := by
    unfold Htab.bits
    rw [hg.bshift, hc.bshift]
  have hbefore : h''.before s = h'.before s := before_congr fun i hi => hg.low i (hc.point.symm ▸ hi)
  refine ⟨?_, ?_, ?_, ?_, ?_, ?_⟩
  · rw [hsplit, ← hc.point]
    exact hg.point
  · rw [hnum]
    exact hc.pos
  · rw [hsplit, hnum, hbefore, hc.number]
  · rw [hsplit, ← hc.point]
    exact Nat.lt_of_lt_of_le (hc.maxFree ▸ Nat.lt_succ_self _) hg.top
  · rwa [hbits]
  · rwa [hbits]

theorem Grows.refl (h : Htab) : h.Grows h :=
  ⟨rfl, Nat.le_refl _, fun _ _ => rfl, Nat.le_refl _, Nat.le_refl _, fun _ _ => rfl, fun _ _ _ hb => hb⟩

theorem Grows.trans (hg : h.Grows h') (hg' : h'.Grows h'') : h.Grows h'' := by
  refine ⟨hg'.bshift.trans hg.bshift, Nat.le_trans hg.point hg'.point, fun i hi => ?_, Nat.le_trans hg.top ?_, Nat.le_trans hg.nmaps hg'.nmaps,
    fun i hi => ?_, fun i hi b hb => ?_⟩
  · rw [hg'.low i (Nat.lt_of_lt_of_le hi hg.point), hg.low i hi]
  · rcases Nat.eq_or_lt_of_le hg.point with hs | hs
    · rw [hs]
      exact hg'.top
    · exact Nat.le_of_eq (hg'.low _ hs).symm
  · rw [hg'.bitmaps i (Nat.lt_of_lt_of_le hi hg.nmaps), hg.bitmaps i hi]
  · exact hg'.set i (Nat.lt_of_lt_of_le hi hg.nmaps) b (hg.set i hi b hb)

theorem setbit_grows (h : Htab) (i b : Nat) : h.Grows (h.setbit i b) := by
  refine ⟨rfl, Nat.le_refl _, fun _ _ => rfl, Nat.le_refl _, Nat.le_refl _, fun _ _ => rfl, fun j _ c hc => ?_⟩
  have hset : update (h.mapp i) b true c = true ∨ h.mapp i c = false := by
    rcases eq_or_ne c b with rfl | hcb
    · exact Or.inl (Function.update_self _ _ _)
    · rw [Function.update_of_ne hcb]
      cases h.mapp i c
      · exact Or.inr rfl
      · exact Or.inl rfl
  rcases eq_or_ne j i with rfl | hji
  · refine (congrFun (Function.update_self _ _ _) c).trans (hset.resolve_right ?_)
    rw [hc]
    exact Bool.noConfusion
  · exact (congrFun (Function.update_of_ne hji _ _) c).trans hc

theorem setbit_mapp (h : Htab) (i b : Nat) : (h.setbit i b).mapp i b = true :=
  (congrFun (Function.update_self _ _ _) b).trans (Function.update_self _ _ _)

theorem Ok.setbit (hok : h.Ok) (i b : Nat) : (h.setbit i b).Ok :=
  ⟨hok.bshift, hok.bucket, hok.log, hok.point, hok.mono, hok.pos, hok.first, hok.nmaps,
    fun j hj c hc hle => (h.setbit_grows i b).set j hj c (hok.beyond j hj c hc hle)⟩

theorem ibitmap_grows (h : Htab) (a : Nat) : h.Grows (h.ibitmap a 1 h.nmaps) :=
  ⟨rfl, Nat.le_refl _, fun _ _ => rfl, Nat.le_refl _, Nat.le_succ _, fun _ hi => Function.update_of_ne (Nat.ne_of_lt hi) _ _,
    fun _ hi b hb => (congrFun (Function.update_of_ne (Nat.ne_of_lt hi) _ _) b).trans hb⟩

theorem Ok.ibitmap (hok : h.Ok) (hnmaps : h.nmaps = h.freePage) (a : Nat) : (h.ibitmap a 1 h.nmaps).Ok := by
  refine ⟨hok.bshift, hok.bucket, hok.log, hok.point, hok.mono, hok.pos, hok.first, Nat.succ_le_succ (Nat.le_of_eq hnmaps),
    fun i hi b hb hle => ?_⟩
  rcases Nat.eq_or_lt_of_le (Nat.le_of_lt_succ hi) with rfl | hlt
  · exact (congrFun (Function.update_self _ _ _) b).trans (ibit_one b)
  · exact (h.ibitmap_grows a).set i hlt b (hok.beyond i hlt b hb hle)

theorem Placed.lt_maxFree (hok : h.Ok) (hp : h.Placed addr b) : b < h.maxFree :=
  Nat.lt_of_lt_of_le hp.lt (hok.before_mono (Nat.succ_le_succ hp.split) (Nat.le_refl _))

structure Result (h : Htab) (r : Option (Nat × Nat) × Htab) : Prop where
  ok : r.2.Ok
  grows : h.Grows r.2
  bitmap : ∀ i, h.nmaps ≤ i → i < r.2.nmaps → r.2.Placed (r.2.bitmaps i) (i * h.bits) ∧ ∀ addr, ¬h.Placed addr (i * h.bits)
  page : ∀ q, r.1 = some q → r.2.Placed q.1 q.2 ∧ (∀ addr, ¬h.Placed addr q.2) ∧
    ∀ i, h.nmaps ≤ i → i < r.2.nmaps → q.2 ≠ i * h.bits

theorem Result.of_nmaps {r : Option (Nat × Nat) × Htab} (hok : r.2.Ok) (hgrows : h.Grows r.2) (hnmaps : r.2.nmaps = h.nmaps)
    (hpage : ∀ q, r.1 = some q → r.2.Placed q.1 q.2 ∧ ∀ addr, ¬h.Placed addr q.2) : h.Result r :=
  ⟨hok, hgrows, fun _ hle hlt => absurd hlt (hnmaps ▸ Nat.not_lt.2 hle),
    fun q hq => ⟨(hpage q hq).1, (hpage q hq).2, fun _ hle hlt => absurd hlt (hnmaps ▸ Nat.not_lt.2 hle)⟩⟩

def Slip (h : Htab) : Prop :=
  h.scan = .full ∧ h.freeBit = h.bits - 1 ∧ h.freePage + 1 < ncached ∧ h.before h.ovflPoint + splitmask = h.maxFree + 1 ∧
    h.ovflPoint + 1 < ncached

theorem Result.of_counted (hok : h.Ok) (hc : h.Counted h' s o) (hlast : h'.lastFreed ≤ h.maxFree) : h.Result (none, h') :=
  Result.of_nmaps (hc.ok hok hlast) hc.grows hc.nmaps fun _ hq => by cases hq

theorem not_placed (hok : h.Ok) (hb : h.maxFree ≤ b) (addr : Nat) : ¬h.Placed addr b := fun hp =>
  absurd (hp.lt_maxFree hok) (Nat.not_lt.2 hb)

theorem extend_setbit (hok : h.Ok) (hc : h.Counted h' s o) (ho : o ≤ splitmask) (hlast : h'.lastFreed = h.maxFree) (hnmaps : h.freePage < h.nmaps)
    (hbit : h.freeBit ≠ h.bits - 1) :
    h.Result (some (oaddrOf s o, h.freePage * h.bits + (h.freeBit + 1)), h'.setbit h.freePage (h.freeBit + 1)) := by
  have hpos := hok.pos
  have hdiv : h.bits * h.freePage + h.freeBit = h.maxFree - 1 := Nat.div_add_mod _ _
  have hmod : h.freeBit < h.bits := Nat.mod_lt _ h.bits_pos
  have hmax : h.freePage * h.bits + (h.freeBit + 1) = h.maxFree := by
    rw [Nat.mul_comm]
    omega
  obtain ⟨hpage, hrest⟩ := h.div_mod_bits h.freePage (show h.freeBit + 1 < h.bits by omega)
  rw [hmax] at hpage hrest
  have hg := h'.setbit_grows h.freePage (h.freeBit + 1)
  rw [hmax]
  refine Result.of_nmaps ((hc.ok hok (Nat.le_of_eq hlast)).setbit _ _) (hc.grows.trans hg) hc.nmaps fun q hq => ?_
  obtain rfl := Option.some.inj hq
  refine ⟨hc.placed ho hg ?_ ?_, not_placed hok (Nat.le_refl _)⟩
  · rw [hpage]
    exact hc.nmaps.symm ▸ hnmaps
  · rw [hpage, hrest]
    exact h'.setbit_mapp _ _

theorem extend_ibitmap (hok : h.Ok) (hc : h.Counted h' s o) (ho : o ≤ splitmask) (hlast : h'.lastFreed = h.maxFree) (hnmaps : h.freePage < h.nmaps)
    (hbit : h.freeBit = h.bits - 1) {r : Option (Nat × Nat)}
    (hr : r = none ∨ r = some (oaddrOf s (o + 1), (h.freePage + 1) * h.bits + 1) ∧ o + 1 ≤ splitmask) :
    h.Result (r, (h'.ibitmap (oaddrOf s o) 1 (h.freePage + 1)).addSpare s) := by
  have hpos := hok.pos
  have hbits := h.bits_pos
  have hdvd := dvd_bits hok.bshift
  have hdiv : h.bits * h.freePage + h.freeBit = h.maxFree - 1 := Nat.div_add_mod _ _
  have hmax : h.maxFree = (h.freePage + 1) * h.bits := by
    rw [Nat.add_mul, Nat.mul_comm]
    omega
  have hpage : h.maxFree / h.bits = h.freePage + 1 := by rw [hmax, Nat.mul_div_cancel _ hbits]
  have hnew : h.nmaps = h.freePage + 1 := Nat.le_antisymm hok.nmaps hnmaps
  have hnew' : h'.nmaps = h.freePage + 1 := hc.nmaps.trans hnew
  have hfree' : h'.freePage = h.freePage + 1 := by
    rw [freePage, hc.maxFree, hc.bits, Nat.add_sub_cancel, hpage]
  have hok' := hc.ok hok (Nat.le_of_eq hlast)
  have hok3 := hok'.ibitmap (hnew'.trans hfree'.symm) (oaddrOf s o)
  have hg3 := h'.ibitmap_grows (oaddrOf s o)
  rw [hnew'] at hok3 hg3
  have hmax3 : (h'.ibitmap (oaddrOf s o) 1 (h.freePage + 1)).maxFree = h.maxFree + 1 := hc.maxFree
  have hc4 : (h'.ibitmap (oaddrOf s o) 1 (h.freePage + 1)).Counted ((h'.ibitmap (oaddrOf s o) 1 (h.freePage + 1)).addSpare s) s (o + 1) := by
    have hcount := counted_addSpare (m := (h'.ibitmap (oaddrOf s o) 1 (h.freePage + 1)).lastFreed) hok3
      (o := o + 1) (by rw [hmax3, ← hc.number, ← hc.point]; rfl)
    rwa [show (h'.ibitmap (oaddrOf s o) 1 (h.freePage + 1)).ovflPoint = s from hc.point] at hcount
  have hmapp : ∀ b, ((h'.ibitmap (oaddrOf s o) 1 (h.freePage + 1)).addSpare s).mapp (h.freePage + 1) b = true := fun b =>
    (congrFun (Function.update_self _ _ _) b).trans (ibit_one b)
  have hnmaps4 : ((h'.ibitmap (oaddrOf s o) 1 (h.freePage + 1)).addSpare s).nmaps = h.freePage + 2 := congrArg (· + 1) hnew'
  refine ⟨hc4.ok hok3 (by rw [hmax3]; exact Nat.le_succ_of_le (Nat.le_of_eq hlast)), (hc.grows.trans hg3).trans hc4.grows,
    fun i hle hlt => ?_, fun q hq => ?_⟩
  · obtain rfl : i = h.freePage + 1 := by
      have hlt : i < h.freePage + 2 := hnmaps4 ▸ hlt
      omega
    have haddr : ((h'.ibitmap (oaddrOf s o) 1 (h.freePage + 1)).addSpare s).bitmaps (h.freePage + 1) = oaddrOf s o :=
      Function.update_self _ _ _
    rw [haddr, ← hmax]
    refine ⟨hc.placed ho (hg3.trans hc4.grows) ?_ ?_, not_placed hok (Nat.le_refl _)⟩
    · rw [hpage, hnmaps4]
      exact Nat.lt_succ_self _
    · rw [hpage]
      exact hmapp _
  · obtain rfl | ⟨rfl, ho'⟩ := hr
    · cases hq
    obtain rfl := Option.some.inj hq
    have hbits3 : (h'.ibitmap (oaddrOf s o) 1 (h.freePage + 1)).bits = h.bits := hc.bits
    have hpage3 : (h.maxFree + 1) / h.bits = h.freePage + 1 := by
      rw [hmax]
      exact (h.div_mod_bits _ (by omega)).1
    rw [← hmax, ← hmax3]
    refine ⟨hc4.placed ho' (Grows.refl _) ?_ ?_, fun addr => not_placed hok (by rw [hmax3]; exact Nat.le_succ _) addr, fun i hle hlt => ?_⟩
    · rw [hmax3, hbits3, hpage3, hnmaps4]
      exact Nat.lt_succ_self _
    · rw [hmax3, hbits3, hpage3]
      exact hmapp _
    · obtain rfl : i = h.freePage + 1 := by
        have hlt : i < h.freePage + 2 := hnmaps4 ▸ hlt
        omega
      rw [hmax3, ← hmax]
      exact Nat.succ_ne_self _

theorem extend_result (hok : h.Ok) (hscan : h.scan = .full) (hslip : ¬h.Slip) : h.Result h.extend := by
  have htop : h.before h.ovflPoint ≤ h.maxFree := hok.before_mono (Nat.le_succ h.ovflPoint) (Nat.le_refl _)
  have hfull : h.freePage < h.nmaps ∧ h.freePage < ncached := by
    unfold scan at hscan
    rw [if_neg (Nat.not_lt.2 hok.first)] at hscan
    exact scanMaps_full (by omega) hok.first hscan
  have hself : (h.addSpare h.ovflPoint).spares h.ovflPoint = h.maxFree + 1 := Function.update_self _ _ _
  have hbefore : (h.addSpare h.ovflPoint).before h.ovflPoint = h.before h.ovflPoint :=
    before_congr fun i hi => Function.update_of_ne (Nat.ne_of_lt hi) _ _
  have hoff : h.before h.ovflPoint + ((h.addSpare h.ovflPoint).spares h.ovflPoint - (h.addSpare h.ovflPoint).before h.ovflPoint) =
      h.maxFree + 1 := by
    rw [hself, hbefore]
    omega
  unfold extend
  dsimp only
  split
  · exact Result.of_counted hok (counted_addSpare hok hoff) (Nat.le_refl _)
  · rename_i h' s o hnext
    obtain ⟨hc, ho, hlast⟩ := nextSplit_addSpare hok hoff hnext
    rw [hc.bits]
    split
    · rename_i hbit
      split
      · exact Result.of_counted hok hc (Nat.le_of_eq hlast)
      · rename_i hcached
        split
        · exact extend_ibitmap hok hc ho hlast hfull.1 hbit (Or.inl rfl)
        · rename_i h5 s5 o5 hnext5
          unfold nextSplit at hnext5
          split at hnext5
          · rename_i hlarge
            split at hnext5
            · cases hnext5
            · rename_i hsplit
              -- the bitmap page would be the last page of the split point
              have hs : h.ovflPoint = s := by
                rcases Nat.eq_or_lt_of_le hc.le with hs | hs
                · exact hs
                · obtain ⟨hsame, rfl⟩ := hc.same hs
                  have hnumber := hc.number
                  rw [before_succ, hsame] at hnumber
                  unfold splitmask at hlarge
                  omega
              have hnumber := hc.number
              rw [← hs, before_congr hc.low, show o = splitmask by omega] at hnumber
              rw [← hs] at hsplit
              exact absurd ⟨hscan, hbit, Nat.lt_of_not_le hcached, hnumber, Nat.lt_of_not_le hsplit⟩ hslip
          · rename_i hsmall
            obtain ⟨rfl, rfl, rfl⟩ : _ = h5 ∧ s = s5 ∧ o + 1 = o5 := by simpa using hnext5
            exact extend_ibitmap hok hc ho hlast hfull.1 hbit (Or.inr
              ⟨congrArg (fun n => some (oaddrOf s (o + 1), (h.freePage + 1) * n + 1)) hc.bits, Nat.le_of_not_lt hsmall⟩)
    · rename_i hbit
      exact extend_setbit hok hc ho hlast hfull.1 hbit

theorem splitLoop_spec (spares : Nat → Nat) (hi : ∀ j < i, spares j < num) :
    splitLoop spares num n i ≤ i + n ∧ (∀ j < splitLoop spares num n i, spares j < num) ∧
      (splitLoop spares num n i < i + n → num ≤ spares (splitLoop spares num n i)) := by
  induction n generalizing i with
  | zero => exact ⟨Nat.le_refl _, hi, fun hlt => absurd hlt (Nat.lt_irrefl _)⟩
  | succ n ih =>
    rw [splitLoop]
    split
    · rename_i hlt
      rw [← Nat.add_assoc, Nat.add_right_comm]
      exact ih fun j hj => (Nat.lt_succ_iff_lt_or_eq.1 hj).elim (hi j) fun hji => hji ▸ hlt
    · rename_i hge
      exact ⟨Nat.le_add_right _ _, hi, fun _ => Nat.le_of_not_lt hge⟩

theorem reuse_eq (hok : h.Ok) (hlt : i * h.bits + b < h.maxFree) : ∃ m, m / h.bits ≤ h.freePage ∧
    h.reuse i b = (if splitmask ≤ i * h.bits + b + 1 - h.before (splitLoop h.spares (i * h.bits + b + 1) h.ovflPoint 0) then none
      else some (oaddrOf (splitLoop h.spares (i * h.bits + b + 1) h.ovflPoint 0)
        (i * h.bits + b + 1 - h.before (splitLoop h.spares (i * h.bits + b + 1) h.ovflPoint 0)), i * h.bits + b),
      { h.setbit i b with lastFreed := m }) := by
  have hnum : 1 + b + i * (h.setbit i b).bits = i * h.bits + b + 1 := Nat.add_comm (1 + b) _ ▸ by rw [Nat.add_comm 1 b]; rfl
  unfold reuse
  dsimp only
  rw [hnum]
  by_cases hcond : (h.setbit i b).lastFreed ≤ i * h.bits + b + 1
  · refine ⟨i * h.bits + b, Nat.div_le_div_right (by omega), ?_⟩
    simp only [if_pos hcond]
    split
    · rename_i hoff
      exact Prod.ext (if_pos hoff).symm rfl
    · rename_i hoff
      exact Prod.ext (if_neg hoff).symm rfl
  · refine ⟨h.lastFreed, hok.first, ?_⟩
    simp only [if_neg hcond]
    split
    · rename_i hoff
      exact Prod.ext (if_pos hoff).symm rfl
    · rename_i hoff
      exact Prod.ext (if_neg hoff).symm rfl

theorem reuse_result (hok : h.Ok) (hnmaps : i < h.nmaps) (hb : b < h.bits) (hclear : h.mapp i b = false) : h.Result (h.reuse i b) := by
  have hlt : i * h.bits + b < h.maxFree := by
    by_contra hge
    exact absurd (hok.beyond i hnmaps b hb (Nat.le_of_not_lt hge)) (by rw [hclear]; exact Bool.noConfusion)
  obtain ⟨hmap, hmod⟩ := h.div_mod_bits i hb
  have hnum : 1 + b + i * h.bits = i * h.bits + b + 1 := by omega
  have hfresh : ∀ addr, ¬h.Placed addr (i * h.bits + b) := fun addr hp => by
    have hset := hp.set
    rw [hmap, hmod, hclear] at hset
    cases hset
  obtain ⟨m, hm, hreuse⟩ := reuse_eq hok hlt
  have hmoved : Ok { h.setbit i b with lastFreed := m } :=
    ⟨hok.bshift, hok.bucket, hok.log, hok.point, hok.mono, hok.pos, hm, hok.nmaps, (hok.setbit i b).beyond⟩
  have hgrows : h.Grows { h.setbit i b with lastFreed := m } :=
    ⟨rfl, Nat.le_refl _, fun _ _ => rfl, Nat.le_refl _, Nat.le_refl _, fun _ _ => rfl, (h.setbit_grows i b).set⟩
  obtain ⟨hs, hbelow, habove⟩ :=
    splitLoop_spec (n := h.ovflPoint) h.spares fun j (hj : j < 0) => show h.spares j < i * h.bits + b + 1 from absurd hj (Nat.not_lt_zero j)
  rw [Nat.zero_add] at hs habove
  rw [hreuse]
  generalize hsplit : splitLoop h.spares (i * h.bits + b + 1) h.ovflPoint 0 = s at hs hbelow habove
  refine Result.of_nmaps hmoved hgrows rfl fun q hq => ?_
  split at hq
  · cases hq
  · rename_i hoffset
    obtain rfl := Option.some.inj hq
    have hbefore : h.before s < i * h.bits + b + 1 := by
      rcases s with _ | s
      · exact Nat.succ_pos _
      · exact hbelow s (Nat.lt_succ_self s)
    have hspares : i * h.bits + b < h.spares s := by
      rcases Nat.eq_or_lt_of_le hs with hs | hs
      · rw [hs]
        exact hlt
      · exact habove hs
    obtain ⟨hsplitnum, hopagenum⟩ := oaddrOf_eq (s := s) (o := i * h.bits + b + 1 - h.before s) (Nat.lt_of_le_of_lt hs hok.point) (by omega)
    refine ⟨⟨?_, ?_, ?_, ?_, ?_, ?_⟩, hfresh⟩
    · rw [hsplitnum]
      exact hs
    · rw [hopagenum]
      omega
    · rw [hsplitnum, hopagenum]
      exact Nat.add_sub_cancel' (Nat.le_of_lt hbefore)
    · rw [hsplitnum]
      exact hspares
    · exact hmap.symm ▸ hnmaps
    · exact (congrArg₂ (h.setbit i b).mapp hmap hmod).trans (h.setbit_mapp i b)

theorem overflowPage_result (hok : h.Ok) (hpage : h.freePage < ncached) (hslip : ¬h.Slip) : ∃ r, h.overflowPage = some r ∧ h.Result r := by
  unfold overflowPage
  cases hscan : h.scan with
  | undefined =>
    unfold scan at hscan
    rw [if_neg (Nat.not_lt.2 hok.first)] at hscan
    exact absurd hscan (scanMaps_undefined hpage)
  | unfetched => exact ⟨_, rfl, Result.of_nmaps hok (Grows.refl h) rfl fun _ hq => by cases hq⟩
  | full => exact ⟨_, rfl, extend_result hok hscan hslip⟩
  | found i b =>
    unfold scan at hscan
    rw [if_neg (Nat.not_lt.2 hok.first)] at hscan
    obtain ⟨-, hnmaps, hb, hclear⟩ := scanMaps_found hok.bshift hscan
    exact ⟨_, rfl, reuse_result hok hnmaps hb hclear⟩

theorem Placed.bitAddress (hp : h.Placed addr b) : h.bitAddress addr = b := by
  rw [Htab.bitAddress, hp.bit, Nat.add_sub_cancel]

theorem freeOvflpage_eq (h : Htab) (hp : h.Placed addr b) :
    ∃ m ≤ h.lastFreed, h.freeOvflpage addr = { h.clrbit (b / h.bits) (b % h.bits) with lastFreed := m } := by
  unfold freeOvflpage
  dsimp only
  rw [hp.bitAddress]
  by_cases hlt : b < h.lastFreed
  · refine ⟨b, Nat.le_of_lt hlt, ?_⟩
    simp only [if_pos hlt]
    rfl
  · refine ⟨h.lastFreed, Nat.le_refl _, ?_⟩
    simp only [if_neg hlt]
    rfl

theorem clrbit_mapp (h : Htab) {c : Nat} (hcb : c ≠ b) :
    (h.clrbit (b / h.bits) (b % h.bits)).mapp (c / h.bits) (c % h.bits) = h.mapp (c / h.bits) (c % h.bits) := by
  unfold clrbit
  dsimp only
  rcases eq_or_ne (c / h.bits) (b / h.bits) with hdiv | hdiv
  · rw [hdiv, Function.update_self, Function.update_of_ne]
    intro hmod
    have hb := Nat.div_add_mod b h.bits
    have hc := Nat.div_add_mod c h.bits
    rw [hdiv, hmod, hb] at hc
    exact hcb hc.symm
  · rw [Function.update_of_ne hdiv]

theorem Ok.freeOvflpage (hok : h.Ok) (hp : h.Placed addr b) : (h.freeOvflpage addr).Ok := by
  obtain ⟨m, hm, heq⟩ := h.freeOvflpage_eq hp
  rw [heq]
  refine ⟨hok.bshift, hok.bucket, hok.log, hok.point, hok.mono, hok.pos, Nat.le_trans (Nat.div_le_div_right hm) hok.first, hok.nmaps,
    fun i hi c hc hle => ?_⟩
  have hlt := hp.lt_maxFree hok
  obtain ⟨hdiv, hmod⟩ := h.div_mod_bits i (show c < h.bits from hc)
  have hkept := h.clrbit_mapp (b := b) (c := i * h.bits + c) (Nat.ne_of_gt (Nat.lt_of_lt_of_le hlt hle))
  rw [hdiv, hmod] at hkept
  exact hkept.trans (hok.beyond i hi c hc hle)

theorem Placed.freeOvflpage {a c : Nat} (hp : h.Placed addr b) (hpa : h.Placed a c) (hcb : c ≠ b) : (h.freeOvflpage addr).Placed a c := by
  obtain ⟨m, -, heq⟩ := h.freeOvflpage_eq hp
  rw [heq]
  exact ⟨hpa.split, hpa.offset, hpa.bit, hpa.lt, hpa.map, (h.clrbit_mapp hcb).trans hpa.set⟩

theorem expandTable_ok (hok : h.Ok) (hexp : h.expandTable = some h') : h'.Ok ∧ h.Grows h' ∧ h'.nmaps = h.nmaps := by
  unfold expandTable at hexp
  split at hexp
  · rename_i hlt
    obtain rfl := Option.some.inj hexp
    split
    · rename_i hpoint
      have hlog : log2 (h.maxBucket + 1 + 1) ≤ log2 (h.maxBucket + 1) + 1 := log2_succ_le (Nat.succ_pos _) (by omega)
      have hsucc : log2 (h.maxBucket + 1 + 1) = h.ovflPoint + 1 := by
        have := hok.log
        dsimp only at hpoint
        omega
      have hbound : log2 (h.maxBucket + 1 + 1) ≤ 31 := log2_le (by omega) (by omega)
      have hold : ∀ i < h.ovflPoint + 1, update h.spares (log2 (h.maxBucket + 1 + 1)) (h.spares h.ovflPoint) i = h.spares i := fun i hi =>
        Function.update_of_ne (by omega) _ _
      have hnew : update h.spares (log2 (h.maxBucket + 1 + 1)) (h.spares h.ovflPoint) (log2 (h.maxBucket + 1 + 1)) = h.maxFree :=
        Function.update_self _ _ _
      refine ⟨⟨hok.bshift, by dsimp only; omega, Nat.le_refl _, by unfold ncached; dsimp only; omega, fun i hi => ?_, ?_, ?_, ?_, fun i hi c hc hle => ?_⟩,
        ⟨rfl, by dsimp only; omega, fun i hi => hold i (by omega), Nat.le_of_eq (hold _ (Nat.lt_succ_self _)).symm, Nat.le_refl _, fun _ _ => rfl,
          fun _ _ _ hb => hb⟩, rfl⟩
      · dsimp only at hi ⊢
        rw [hold i (by omega)]
        rcases Nat.lt_or_ge (i + 1) (h.ovflPoint + 1) with hlt | hge
        · rw [hold _ hlt]
          exact hok.mono i (by omega)
        · rw [show i + 1 = log2 (h.maxBucket + 1 + 1) by omega, hnew, show i = h.ovflPoint by omega]
          exact Nat.le_refl _
      · exact Nat.le_trans hok.pos (Nat.le_of_eq hnew.symm)
      · exact Nat.le_trans hok.first (Nat.le_of_eq (congrArg (fun n => (n - 1) / h.bits) hnew.symm))
      · exact Nat.le_trans hok.nmaps (Nat.le_of_eq (congrArg (fun n => (n - 1) / h.bits + 1) hnew.symm))
      · exact hok.beyond i hi c hc (Nat.le_trans (Nat.le_of_eq hnew.symm) hle)
    · rename_i hpoint
      exact ⟨⟨hok.bshift, by dsimp only; omega, Nat.le_of_not_lt hpoint, hok.point, hok.mono, hok.pos, hok.first, hok.nmaps, hok.beyond⟩,
        ⟨rfl, Nat.le_refl _, fun _ _ => rfl, Nat.le_refl _, Nat.le_refl _, fun _ _ => rfl, fun _ _ _ hb => hb⟩, rfl⟩
  · cases hexp

theorem bucketToPage_eq (h : Htab) (hb : b < 2 ^ 31) : h.bucketToPage b = b + h.hdrpages + h.before (log2 (b + 1)) := by
  unfold bucketToPage before
  rcases Nat.eq_zero_or_pos b with rfl | hpos
  · rfl
  · have hlog : 0 < log2 (b + 1) := lt_log2 (by omega) (by omega)
    rw [if_neg (by omega), if_neg (by omega)]

theorem Placed.oaddrToPage (hp : h.Placed addr b) (hok : h.Ok) : h.oaddrToPage addr = 2 ^ splitnum addr + h.hdrpages + b := by
  have hs : splitnum addr ≤ 31 := by
    have hle := hp.split
    have hlt := hok.point
    unfold ncached at hlt
    omega
  have hpow : 2 ^ splitnum addr ≤ 2 ^ 31 := Nat.pow_le_pow_right (by decide) hs
  have hone : 1 ≤ 2 ^ splitnum addr := Nat.two_pow_pos _
  have hbit := hp.bit
  rw [Htab.oaddrToPage, bucketToPage_eq h (by omega), Nat.sub_add_cancel hone, log2_two_pow (by omega)]
  omega

theorem Ok.bucketToPage_lt {c : Nat} (hok : h.Ok) (hbc : b < c) (hc : c ≤ h.maxBucket) : h.bucketToPage b < h.bucketToPage c := by
  have hbucket := hok.bucket
  have hlog : log2 (c + 1) ≤ h.ovflPoint + 1 :=
    Nat.le_succ_of_le (Nat.le_trans (log2_mono (Nat.add_le_add_right hc 1) (by omega)) hok.log)
  have hbefore := hok.before_mono (log2_mono (Nat.add_le_add_right (Nat.le_of_lt hbc) 1) (by omega)) hlog
  rw [bucketToPage_eq h (by omega), bucketToPage_eq h (by omega)]
  omega

theorem Placed.oaddrToPage_lt {a c : Nat} (hp : h.Placed addr b) (hok : h.Ok) (hpa : h.Placed a c) (hbc : b < c) :
    h.oaddrToPage addr < h.oaddrToPage a := by
  have hsplit : splitnum addr ≤ splitnum a := by
    by_contra hgt
    have hmono := hok.before_mono (r := splitnum a + 1) (s := splitnum addr) (by omega) (Nat.le_succ_of_le hp.split)
    have hlt := hpa.lt
    have hbit := hp.bit
    have hoff := hp.offset
    rw [before_succ] at hmono
    omega
  have hpow : 2 ^ splitnum addr ≤ 2 ^ splitnum a := Nat.pow_le_pow_right (by decide) hsplit
  rw [hp.oaddrToPage hok, hpa.oaddrToPage hok]
  omega

theorem Placed.oaddrToPage_ne {c : Nat} (hp : h.Placed addr b) (hok : h.Ok) (hc : c ≤ h.maxBucket) :
    h.bucketToPage c ≠ h.oaddrToPage addr := by
  have hbucket := hok.bucket
  have hlog : log2 (c + 1) ≤ h.ovflPoint := Nat.le_trans (log2_mono (Nat.add_le_add_right hc 1) (by omega)) hok.log
  have hlt := hp.lt
  have hsplit := hp.split
  rw [bucketToPage_eq h (by omega), hp.oaddrToPage hok]
  rcases Nat.lt_or_ge (splitnum addr) (log2 (c + 1)) with hs | hs
  · have hbefore := hok.before_mono hs (Nat.le_succ_of_le hlog)
    have hpow := two_pow_lt_of_lt_log2 (show c + 1 ≤ 2 ^ 32 by omega) hs
    rw [before_succ] at hbefore
    omega
  · have hbefore := hok.before_mono hs (Nat.le_succ_of_le hsplit)
    have hpow : 2 ^ log2 (c + 1) ≤ 2 ^ splitnum addr := Nat.pow_le_pow_right (by decide) hs
    have hle := le_two_pow_log2 (show c + 1 ≤ 2 ^ 32 by omega)
    have hbit := hp.bit
    have hoff := hp.offset
    omega

end Htab

namespace Pool

def pages (p : Pool) : List (Nat × Nat) := p.live ++ (List.range p.table.nmaps).map fun i => (p.table.bitmaps i, i * p.table.bits)

structure Sound (p : Pool) : Prop where
  addrs : (p.pages.map Prod.fst).Nodup
  file : ((List.range (p.table.maxBucket + 1)).map p.table.bucketToPage ++ p.pages.map fun q => p.table.oaddrToPage q.1).Nodup
  bits : ∀ q ∈ p.pages, p.table.bitAddress q.1 = q.2 ∧ p.table.mapp (q.2 / p.table.bits) (q.2 % p.table.bits) = true

structure Inv (p : Pool) : Prop where
  ok : p.table.Ok
  placed : ∀ q ∈ p.pages, p.table.Placed q.1 q.2
  live : (p.live.map Prod.snd).Nodup
  apart : ∀ q ∈ p.live, ∀ i < p.table.nmaps, q.2 ≠ i * p.table.bits

variable {p p' : Pool} {op : Op} {ops : List Op}

theorem mem_pages {q : Nat × Nat} : q ∈ p.pages ↔ q ∈ p.live ∨ ∃ i < p.table.nmaps, q = (p.table.bitmaps i, i * p.table.bits) := by
  unfold pages
  simp [eq_comm]

theorem Inv.nodup (hinv : p.Inv) : (p.pages.map Prod.snd).Nodup := by
  unfold pages
  rw [List.map_append, List.map_map]
  refine List.nodup_append.2 ⟨hinv.live, ?_, fun a ha b hb => ?_⟩
  · refine List.Nodup.map_on (fun i _ j _ hij => ?_) List.nodup_range
    exact Nat.eq_of_mul_eq_mul_right p.table.bits_pos hij
  · obtain ⟨q, hq, rfl⟩ := List.mem_map.1 ha
    obtain ⟨i, hi, rfl⟩ := List.mem_map.1 hb
    exact hinv.apart q hq i (List.mem_range.1 hi)

theorem Inv.sound (hinv : p.Inv) : p.Sound := by
  have hok := hinv.ok
  have haddrs : (p.pages.map Prod.fst).Nodup := by
    refine List.Nodup.of_map p.table.bitAddress ?_
    have hbits : p.pages.map (p.table.bitAddress ∘ Prod.fst) = p.pages.map Prod.snd :=
      List.map_congr_left fun q hq => (hinv.placed q hq).bitAddress
    rw [List.map_map, hbits]
    exact hinv.nodup
  refine ⟨haddrs, List.nodup_append.2 ⟨?_, ?_, fun a ha c hc => ?_⟩, fun q hq => ⟨(hinv.placed q hq).bitAddress, (hinv.placed q hq).set⟩⟩
  · refine List.Nodup.map_on (fun b hb c hc hbc => ?_) List.nodup_range
    rcases Nat.lt_trichotomy b c with hlt | heq | hlt
    · exact absurd hbc (Nat.ne_of_lt (hok.bucketToPage_lt hlt (Nat.le_of_lt_succ (List.mem_range.1 hc))))
    · exact heq
    · exact absurd hbc.symm (Nat.ne_of_lt (hok.bucketToPage_lt hlt (Nat.le_of_lt_succ (List.mem_range.1 hb))))
  · have hpairs : p.pages.Pairwise fun q q' => q.2 ≠ q'.2 := List.pairwise_map.1 hinv.nodup
    refine List.pairwise_map.2 (hpairs.imp_of_mem fun {q q'} hq hq' hne => ?_)
    rcases Nat.lt_or_gt_of_ne hne with hlt | hlt
    · exact Nat.ne_of_lt ((hinv.placed q hq).oaddrToPage_lt hok (hinv.placed q' hq') hlt)
    · exact Nat.ne_of_gt ((hinv.placed q' hq').oaddrToPage_lt hok (hinv.placed q hq) hlt)
  · obtain ⟨b, hb, rfl⟩ := List.mem_map.1 ha
    obtain ⟨q, hq, rfl⟩ := List.mem_map.1 hc
    exact (hinv.placed q hq).oaddrToPage_ne hok (Nat.le_of_lt_succ (List.mem_range.1 hb))

def Valid (p : Pool) : Op → Prop
  | .alloc => True
  | .free addr => addr ∈ p.live.map Prod.fst
  | .expand => p.table.maxBucket + 2 < 2 ^ 31

/-- No allocation is made after all the bitmap pages have been used up, and none for which the new bitmap page is the last page of
its split point. -/
def Clear (p : Pool) : Op → Prop
  | .alloc => p.table.freePage < ncached ∧ ¬p.table.Slip
  | _ => True

theorem Inv.alloc {r : Option (Nat × Nat) × Htab} (hinv : p.Inv) (hr : p.table.Result r) : (Pool.mk r.2 (r.1.toList ++ p.live)).Inv := by
  have hbits : r.2.bits = p.table.bits := by
    unfold Htab.bits
    rw [hr.grows.bshift]
  have hlive : ∀ q ∈ r.1.toList ++ p.live, r.2.Placed q.1 q.2 := fun q hq => (List.mem_append.1 hq).elim
    (fun hq => (hr.page q (Option.mem_toList.1 hq)).1) fun hq => (hinv.placed q (mem_pages.2 (Or.inl hq))).grows hr.grows
  have hold : ∀ i < p.table.nmaps, p.table.Placed (p.table.bitmaps i) (i * p.table.bits) := fun i hi =>
    hinv.placed _ (mem_pages.2 (Or.inr ⟨i, hi, rfl⟩))
  refine ⟨hr.ok, fun q hq => ?_, ?_, fun q hq i hi => ?_⟩
  · rcases mem_pages.1 hq with hq | ⟨i, hi, rfl⟩
    · exact hlive q hq
    · dsimp only at hi ⊢
      rw [hbits]
      rcases Nat.lt_or_ge i p.table.nmaps with hlt | hge
      · rw [hr.grows.bitmaps i hlt]
        exact (hold i hlt).grows hr.grows
      · exact (hr.bitmap i hge hi).1
  · cases hq : r.1 with
    | none => exact hinv.live
    | some q =>
      refine List.nodup_cons.2 ⟨fun hmem => ?_, hinv.live⟩
      obtain ⟨q', hq', heq⟩ := List.mem_map.1 hmem
      have hplaced := hinv.placed q' (mem_pages.2 (Or.inl hq'))
      rw [heq] at hplaced
      exact (hr.page q hq).2.1 _ hplaced
  · dsimp only at hi ⊢
    rw [hbits]
    rcases List.mem_append.1 hq with hq | hq
    · have hpage := hr.page q (Option.mem_toList.1 hq)
      rcases Nat.lt_or_ge i p.table.nmaps with hlt | hge
      · exact fun heq => hpage.2.1 _ (heq ▸ hold i hlt)
      · exact hpage.2.2 i hge hi
    · rcases Nat.lt_or_ge i p.table.nmaps with hlt | hge
      · exact hinv.apart q hq i hlt
      · exact fun heq => (hr.bitmap i hge hi).2 _ (heq ▸ hinv.placed q (mem_pages.2 (Or.inl hq)))

theorem Inv.free {addr : Nat} (hinv : p.Inv) (haddr : addr ∈ p.live.map Prod.fst) :
    (Pool.mk (p.table.freeOvflpage addr) (p.live.filter fun q => q.1 ≠ addr)).Inv := by
  obtain ⟨q₀, hmem, rfl⟩ := List.mem_map.1 haddr
  have hp := hinv.placed q₀ (mem_pages.2 (Or.inl hmem))
  have hsub : (p.live.filter fun q => q.1 ≠ q₀.1).Sublist p.live := List.filter_sublist
  obtain ⟨m, -, heq⟩ := p.table.freeOvflpage_eq hp
  have hnmaps : (p.table.freeOvflpage q₀.1).nmaps = p.table.nmaps := by
    rw [heq]
    rfl
  have hbitmaps : (p.table.freeOvflpage q₀.1).bitmaps = p.table.bitmaps := by
    rw [heq]
    rfl
  have hbits : (p.table.freeOvflpage q₀.1).bits = p.table.bits := by
    rw [heq]
    rfl
  refine ⟨hinv.ok.freeOvflpage hp, fun q hq => ?_, hinv.live.sublist (hsub.map _), fun q hq i hi => ?_⟩
  · rcases mem_pages.1 hq with hq | ⟨i, hi, rfl⟩
    · obtain ⟨hq, hne⟩ := List.mem_filter.1 hq
      refine hp.freeOvflpage (hinv.placed q (mem_pages.2 (Or.inl hq))) fun hbit => ?_
      have hsame : q = q₀ := List.inj_on_of_nodup_map hinv.live hq hmem hbit
      simp [hsame] at hne
    · dsimp only at hi ⊢
      rw [hnmaps] at hi
      rw [hbitmaps, hbits]
      exact hp.freeOvflpage (hinv.placed _ (mem_pages.2 (Or.inr ⟨i, hi, rfl⟩))) (hinv.apart q₀ hmem i hi).symm
  · dsimp only at hi ⊢
    rw [hnmaps] at hi
    rw [hbits]
    exact hinv.apart q (List.mem_filter.1 hq).1 i hi

theorem Inv.expand {h : Htab} (hinv : p.Inv) (hexp : p.table.expandTable = some h) : (Pool.mk h p.live).Inv := by
  obtain ⟨hok, hgrows, hnmaps⟩ := Htab.expandTable_ok hinv.ok hexp
  have hbits : h.bits = p.table.bits := by
    unfold Htab.bits
    rw [hgrows.bshift]
  refine ⟨hok, fun q hq => ?_, hinv.live, fun q hq i hi => ?_⟩
  · rcases mem_pages.1 hq with hq | ⟨i, hi, rfl⟩
    · exact (hinv.placed q (mem_pages.2 (Or.inl hq))).grows hgrows
    · dsimp only at hi ⊢
      rw [hnmaps] at hi
      rw [hgrows.bitmaps i hi, hbits]
      exact (hinv.placed _ (mem_pages.2 (Or.inr ⟨i, hi, rfl⟩))).grows hgrows
  · dsimp only at hi ⊢
    rw [hnmaps] at hi
    rw [hbits]
    exact hinv.apart q hq i hi

theorem Inv.step (hinv : p.Inv) (hvalid : p.Valid op) (hclear : p.Clear op) : ∃ p', p.step op = some p' ∧ p'.Inv := by
  cases op with
  | alloc =>
    obtain ⟨r, hr, hresult⟩ := Htab.overflowPage_result hinv.ok hclear.1 hclear.2
    exact ⟨_, by rw [Pool.step, hr]; rfl, hinv.alloc hresult⟩
  | free addr => exact ⟨_, rfl, hinv.free hvalid⟩
  | expand =>
    cases hexp : p.table.expandTable with
    | none =>
      unfold Htab.expandTable at hexp
      rw [if_pos (show p.table.maxBucket + 2 < 2 ^ 31 from hvalid)] at hexp
      cases hexp
    | some h => exact ⟨_, by rw [Pool.step, hexp]; rfl, hinv.expand hexp⟩

def Keeps (cond : Pool → Op → Prop) : Pool → List Op → Prop
  | _, [] => True
  | p, op :: ops => cond p op ∧ ∀ p', p.step op = some p' → Keeps cond p' ops

theorem Inv.run (hinv : p.Inv) (hvalid : Keeps Valid p ops) (hclear : Keeps Clear p ops) : ∃ p', p.run ops = some p' ∧ p'.Inv := by
  induction ops generalizing p with
  | nil => exact ⟨p, rfl, hinv⟩
  | cons op ops ih =>
    obtain ⟨q, hstep, hq⟩ := hinv.step hvalid.1 hclear.1
    obtain ⟨p', hrun, hp'⟩ := ih hq (hvalid.2 q hstep) (hclear.2 q hstep)
    exact ⟨p', by rw [Pool.run, hstep]; exact hrun, hp'⟩

def init (bshift nelem ffactor : Nat) : Pool := ⟨Htab.init bshift nelem ffactor, []⟩

theorem scanWords_none {map : Nat → Bool} {inUse : Nat} (hall : ∀ b, map b = true) : scanWords map inUse n i = none := by
  have hset : ∀ b, allSet map b = true := fun b => List.all_eq_true.2 fun _ _ => hall _
  induction n generalizing i with
  | zero => rfl
  | succ n ih =>
    rw [scanWords, hset, if_pos rfl, ih]
    exact ite_self _

/-- A table of 256 byte pages and three buckets with `k` overflow pages, all but two of them of the last split point. -/
structure Filled (k : Nat) (h : Htab) : Prop where
  bshift : h.bshift = 8
  point : h.ovflPoint = 2
  low : h.spares 1 = 2
  top : h.spares 2 = k
  nmaps : h.nmaps = 1
  last : h.lastFreed < k
  set : ∀ b, h.mapp 0 b = true

namespace Filled

variable {k : Nat} {h : Htab}

theorem bits (hf : Filled k h) : h.bits = 2048 := by
  simp [Htab.bits, hf.bshift]

theorem maxFree (hf : Filled k h) : h.maxFree = k := by
  rw [Htab.maxFree, hf.point, hf.top]

theorem freePage (hf : Filled k h) (hk : k ≤ 2048) : h.freePage = 0 := by
  rw [Htab.freePage, hf.maxFree, hf.bits]
  omega

theorem freeBit (hf : Filled k h) (hk : k ≤ 2048) : h.freeBit = k - 1 := by
  rw [Htab.freeBit, hf.maxFree, hf.bits]
  omega

theorem scan (hf : Filled k h) (hk : k ≤ 2048) : h.scan = .full := by
  have hlast := hf.last
  have hfirst : h.firstPage = 0 := by
    rw [Htab.firstPage, hf.bits]
    omega
  have hcached : ¬ncached ≤ 0 := by decide
  rw [Htab.scan, hf.freePage hk, hfirst, if_neg (Nat.lt_irrefl 0), Htab.scanMaps, hf.freePage hk, if_pos (Nat.le_refl 0), if_neg hcached, hf.nmaps,
    if_neg (by decide)]
  dsimp only
  rw [scanWords_none hf.set]
  rfl

theorem nextSplit (hf : Filled k h) (hk : k ≤ 2048) (r : Nat) :
    Htab.nextSplit { h.addSpare 2 with lastFreed := k } 2 ((h.addSpare 2).spares 2 - Htab.before { h.addSpare 2 with lastFreed := k } 2) r =
      some ({ h.addSpare 2 with lastFreed := k }, 2, k - 1) := by
  have hself : (h.addSpare 2).spares 2 = k + 1 := by
    show update h.spares 2 (h.spares 2 + 1) 2 = k + 1
    rw [Function.update_self, hf.top]
  have hbefore : Htab.before { h.addSpare 2 with lastFreed := k } 2 = 2 := by
    show update h.spares 2 (h.spares 2 + 1) 1 = 2
    rw [Function.update_of_ne (by decide), hf.low]
  rw [hself, hbefore, Htab.nextSplit, if_neg (by unfold splitmask; omega)]
  rfl

theorem alloc (hf : Filled k h) (hk : k < 2048) : ∃ q h', h.overflowPage = some (some q, h') ∧ Filled (k + 1) h' := by
  have hbits : Htab.bits { h.addSpare 2 with lastFreed := k } = 2048 := hf.bits
  refine ⟨(oaddrOf 2 (k - 1), 0 * 2048 + (k - 1 + 1)), Htab.setbit { h.addSpare 2 with lastFreed := k } 0 (k - 1 + 1), ?_, ?_⟩
  · rw [Htab.overflowPage, hf.scan (Nat.le_of_lt hk)]
    dsimp only
    rw [Htab.extend, hf.point, hf.maxFree]
    dsimp only
    rw [hf.nextSplit (Nat.le_of_lt hk)]
    dsimp only
    rw [hbits, hf.freeBit (Nat.le_of_lt hk), if_neg (by omega), hf.freePage (Nat.le_of_lt hk)]
  · refine ⟨hf.bshift, hf.point, ?_, ?_, hf.nmaps, Nat.lt_succ_self k, fun b => ?_⟩
    · show update h.spares 2 (h.spares 2 + 1) 1 = 2
      rw [Function.update_of_ne (by decide), hf.low]
    · show update h.spares 2 (h.spares 2 + 1) 2 = k + 1
      rw [Function.update_self, hf.top]
    · exact (Htab.setbit_grows { h.addSpare 2 with lastFreed := k } 0 (k - 1 + 1)).set 0 (Nat.lt_of_lt_of_eq Nat.one_pos hf.nmaps.symm) b (hf.set b)

end Filled

end Pool

end NetBSD.Hash
