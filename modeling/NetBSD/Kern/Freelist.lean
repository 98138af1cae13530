import NetBSD.Kern.Malloc
import NetBSD.Lib.Links
import Mathlib.Algebra.Ring.Nat
import Mathlib.Algebra.Order.Ring.Nat

/-!
# The list of free blocks

No block of a bucket is lost or handed out twice, as long as no call that waited for pages finds the list refilled
and drained.
-/

namespace NetBSD.Kern

open Lib (Linked Runs linked_append linked_concat)

section

variable {kb : Bucket} {size : Nat}

theorem clbytes_eq : kb.clbytes = 2 ^ (kb.clshift + kb.pgshift) := by
  rw [Bucket.clbytes, Bucket.clsize, Bucket.nbpg, Nat.one_shiftLeft, Nat.one_shiftLeft, Nat.pow_add]

theorem size_gt_iff (h : bucketindx size = kb.indx) : size > kb.maxallocsave ↔ 1 <<< kb.indx > kb.maxallocsave := by
  have hmax : kb.maxallocsave = 2 ^ (kb.clshift + kb.pgshift + 1) := by
    rw [Bucket.maxallocsave, clbytes_eq, Nat.pow_succ, Nat.mul_comm]
  have hlow := kb.shift_le
  have hhigh := kb.shift_lt
  have hshift : ∀ i, minallocsize <<< i = 2 ^ (4 + i) := by
    intro i
    rw [Nat.shiftLeft_eq, Nat.pow_add]
    rfl
  rw [hmax, ← h, bucketindx, Nat.one_shiftLeft, minbucket]
  have hlt : ∀ i j : Nat, 2 ^ i < 2 ^ j ↔ i < j := fun i j => Nat.pow_lt_pow_iff_right (by decide)
  cases hfind : (List.range 15).find? fun i => size ≤ minallocsize <<< i with
  | none =>
    rw [List.find?_eq_none] at hfind
    have hlast := hfind 14 (by decide)
    rw [decide_eq_true_eq, hshift] at hlast
    have hle := Nat.pow_le_pow_right (n := 2) (by decide) (show kb.clshift + kb.pgshift + 1 ≤ 4 + 14 by omega)
    refine iff_of_true (by omega) ?_
    exact (hlt _ _).mpr (by rw [Option.getD_none]; omega)
  | some i =>
    rw [List.find?_range_eq_some] at hfind
    obtain ⟨hfits, hi, hbefore⟩ := hfind
    rw [decide_eq_true_eq, hshift] at hfits
    rw [Option.getD_some, gt_iff_lt, gt_iff_lt, hlt]
    constructor
    · intro hgt
      exact (hlt _ _).mp (hgt.trans_le hfits)
    · intro hgt
      have hprev := hbefore (i - 1) (by omega)
      rw [Bool.not_eq_true', decide_eq_false_iff_not, hshift] at hprev
      have hle := Nat.pow_le_pow_right (n := 2) (by decide) (show kb.clshift + kb.pgshift + 1 ≤ 4 + (i - 1) by omega)
      omega

theorem ctob_eq (x : Nat) : kb.ctob (kb.clrnd (kb.btoc x)) = kb.clrnd (kb.btoc x) / kb.clsize * kb.clbytes := by
  have hpos : 0 < kb.clsize := by
    rw [Bucket.clsize, Nat.one_shiftLeft]
    exact Nat.two_pow_pos _
  rw [Bucket.clrnd, Nat.mul_div_cancel _ hpos, Bucket.ctob, Nat.shiftLeft_eq, Bucket.clbytes, Bucket.nbpg,
    Nat.one_shiftLeft, Nat.mul_assoc]

theorem le_ctob (kb : Bucket) (x : Nat) : x ≤ kb.ctob (kb.clrnd (kb.btoc x)) := by
  have hround : ∀ y z : Nat, 0 < z → y ≤ (y + (z - 1)) / z * z := by
    intro y z hz
    have hmod := Nat.mod_lt (y + (z - 1)) hz
    have hdiv := Nat.div_add_mod' (y + (z - 1)) z
    omega
  have hpage : 0 < 2 ^ kb.pgshift := Nat.two_pow_pos _
  have hcl : 0 < kb.clsize := by
    rw [Bucket.clsize, Nat.one_shiftLeft]
    exact Nat.two_pow_pos _
  have hbtoc : x ≤ kb.btoc x * 2 ^ kb.pgshift := by
    rw [Bucket.btoc, Bucket.nbpg, Nat.one_shiftLeft, Nat.shiftRight_eq_div_pow]
    exact hround x _ hpage
  rw [Bucket.ctob, Nat.shiftLeft_eq]
  exact hbtoc.trans (Nat.mul_le_mul_right _ (hround _ _ hcl))

theorem ctob_lt (kb : Bucket) (x : Nat) : kb.ctob (kb.clrnd (kb.btoc x)) < x + kb.clbytes := by
  have hround : ∀ y z : Nat, (y + (z - 1)) / z * z ≤ y + (z - 1) := fun y z => Nat.div_mul_le_self ..
  have hpage : 0 < 2 ^ kb.pgshift := Nat.two_pow_pos _
  have hcl : 0 < kb.clsize := by
    rw [Bucket.clsize, Nat.one_shiftLeft]
    exact Nat.two_pow_pos _
  have hbtoc : kb.btoc x * 2 ^ kb.pgshift ≤ x + (2 ^ kb.pgshift - 1) := by
    rw [Bucket.btoc, Bucket.nbpg, Nat.one_shiftLeft, Nat.shiftRight_eq_div_pow]
    exact hround x _
  have hclrnd : kb.clrnd (kb.btoc x) * 2 ^ kb.pgshift ≤ (kb.btoc x + (kb.clsize - 1)) * 2 ^ kb.pgshift :=
    Nat.mul_le_mul_right _ (hround _ _)
  rw [Nat.add_mul, Nat.sub_mul, Nat.one_mul] at hclrnd
  have hle : 2 ^ kb.pgshift ≤ kb.clsize * 2 ^ kb.pgshift := Nat.le_mul_of_pos_left _ hcl
  rw [Bucket.ctob, Nat.shiftLeft_eq, Bucket.clbytes, Bucket.nbpg, Nat.one_shiftLeft]
  omega

theorem blocks_dvd (h : 1 <<< kb.indx ≤ kb.maxallocsave) :
    1 <<< kb.indx ∣ kb.ctob (kb.clrnd (kb.btoc (1 <<< kb.indx))) := by
  rw [Nat.one_shiftLeft] at h ⊢
  rw [Bucket.maxallocsave, clbytes_eq, Nat.mul_comm, ← Nat.pow_succ, Nat.pow_le_pow_iff_right (by decide)] at h
  by_cases hle : kb.indx ≤ kb.clshift + kb.pgshift
  · rw [ctob_eq, clbytes_eq]
    exact Nat.dvd_mul_left_of_dvd (Nat.pow_dvd_pow 2 hle) _
  · have heq : kb.indx = 1 + kb.clshift + kb.pgshift := by omega
    have hpage : 0 < 2 ^ kb.pgshift := Nat.two_pow_pos _
    have hcl : 0 < 2 ^ kb.clshift := Nat.two_pow_pos _
    have hdown : ∀ y z : Nat, 0 < z → (y * z + (z - 1)) / z = y := by
      intro y z hz
      rw [Nat.add_comm, Nat.add_mul_div_right _ _ hz, Nat.div_eq_of_lt (by omega), Nat.zero_add]
    have hbtoc : kb.btoc (2 ^ kb.indx) = 2 * 2 ^ kb.clshift := by
      rw [Bucket.btoc, Bucket.nbpg, Nat.one_shiftLeft, Nat.shiftRight_eq_div_pow, heq, Nat.pow_add, hdown _ _ hpage,
        Nat.pow_add]
    rw [hbtoc, Bucket.clrnd, Bucket.clsize, Nat.one_shiftLeft, hdown _ _ hcl, Bucket.ctob, Nat.shiftLeft_eq, heq,
      Nat.pow_add, Nat.pow_add]

end

def descending (va size : Nat) : Nat → List Nat
  | 0 => []
  | n + 1 => (va + n * size) :: descending va size n

theorem mem_descending {va size n a : Nat} : a ∈ descending va size n ↔ ∃ i < n, va + i * size = a := by
  induction n with
  | zero => simp [descending]
  | succ n ih =>
    rw [descending, List.mem_cons, ih]
    constructor
    · rintro (rfl | ⟨i, hi, rfl⟩)
      · exact ⟨n, Nat.lt_succ_self n, rfl⟩
      · exact ⟨i, by omega, rfl⟩
    · rintro ⟨i, hi, rfl⟩
      rcases Nat.lt_succ_iff_lt_or_eq.mp hi with hlt | rfl
      · exact Or.inr ⟨i, hlt, rfl⟩
      · exact Or.inl rfl

theorem getLast_descending (va size n : Nat) : (descending va size (n + 1)).getLast? = some va := by
  induction n with
  | zero => simp [descending]
  | succ n ih => rw [descending, descending, List.getLast?_cons_cons, ← descending, ih]

theorem carveLoop_spec (va : Nat) {size n : Nat} (fuel : Nat) (hsize : 0 < size) (hfuel : n ≤ fuel) (next : Nat → Option Nat) :
    (carveLoop va size fuel (va + n * size) next).2 = va ∧
      (∀ a, a ∉ descending va size (n + 1) → (carveLoop va size fuel (va + n * size) next).1 a = next a) ∧
      ∀ q, Linked (Function.update (carveLoop va size fuel (va + n * size) next).1 va q) (some (va + n * size))
        (descending va size (n + 1)) q := by
  induction n generalizing fuel next with
  | zero =>
    have hdone : carveLoop va size fuel (va + 0 * size) next = (next, va) := by
      cases fuel with
      | zero => rw [carveLoop, Nat.zero_mul, Nat.add_zero]
      | succ fuel => rw [carveLoop, if_pos (by omega), Nat.zero_mul, Nat.add_zero]
    rw [hdone]
    refine ⟨rfl, fun a _ => rfl, fun q => ⟨rfl, ?_⟩⟩
    simp [descending]
  | succ n ih =>
    obtain ⟨fuel, rfl⟩ := Nat.exists_eq_succ_of_ne_zero (show fuel ≠ 0 by omega)
    have hpos : 0 < (n + 1) * size := Nat.mul_pos (Nat.succ_pos n) hsize
    have hdown : va + (n + 1) * size - size = va + n * size := by
      rw [Nat.succ_mul]
      omega
    have hstep : carveLoop va size (fuel + 1) (va + (n + 1) * size) next =
        carveLoop va size fuel (va + n * size) (Function.update next (va + (n + 1) * size) (some (va + n * size))) := by
      rw [carveLoop, if_neg (by omega), hdown]
    obtain ⟨hlast, hsame, hlinked⟩ := ih fuel (by omega)
      (Function.update next (va + (n + 1) * size) (some (va + n * size)))
    have hnot : va + (n + 1) * size ∉ descending va size (n + 1) := by
      rw [mem_descending]
      rintro ⟨i, hi, heq⟩
      have hlt := Nat.mul_lt_mul_of_pos_right hi hsize
      omega
    rw [hstep]
    refine ⟨hlast, fun a ha => ?_, fun q => ⟨rfl, ?_⟩⟩
    · rw [descending, List.mem_cons, not_or] at ha
      rw [hsame a ha.2, Function.update_of_ne ha.1]
    · rw [Function.update_of_ne (by omega), hsame _ hnot, Function.update_self]
      exact hlinked q

structure Listed (h : Heap) (l : List Nat) : Prop where
  linked : Linked h.kmem.next h.kmem.kbNext l none
  mem : ∀ a, a ∈ l ↔ a ∈ h.blocks ∧ a ∉ h.alloc
  last : l ≠ [] → h.kmem.kbLast = l.getLast?

/-- The list has the blocks that are not allocated; blocks are in the pages of the bucket and apart from each other, and
what is allocated is such a block, or pages. -/
structure Conserved (kb : Bucket) (h : Heap) : Prop where
  listed : ∃ l, Listed h l
  asleep : ∀ size ∈ h.asleep, bucketindx size = kb.indx
  small : 1 <<< kb.indx ≤ kb.maxallocsave → h.alloc ⊆ h.blocks
  large : kb.maxallocsave < 1 <<< kb.indx → h.blocks = ∅ ∧ ∀ a ∈ h.alloc, ∃ p ∈ h.pages, p.1 = a ∧ 0 < p.2
  inside : ∀ b ∈ h.blocks, ∃ p ∈ h.pages, p.1 ≤ b ∧ b + (1 <<< kb.indx) ≤ p.1 + p.2
  apart : ∀ a ∈ h.blocks, ∀ b ∈ h.blocks, a < b → a + (1 <<< kb.indx) ≤ b

section

variable {kb : Bucket} {h : Heap} {l : List Nat} {size va addr i : Nat}

theorem Listed.kbNext_eq (hl : Listed h l) : h.kmem.kbNext = l.head? := hl.linked.eq_head?

theorem Listed.pop {l : List Nat} (hl : Listed h (va :: l)) :
    h.kmem.kbNext = some va ∧ va ∉ h.alloc ∧ va ∈ h.blocks ∧
      Listed { h with kmem := { h.kmem with kbNext := h.kmem.next va }, alloc := insert va h.alloc } l := by
  obtain ⟨hva, hnot⟩ := (hl.mem va).mp List.mem_cons_self
  have hnodup := List.nodup_cons.mp hl.linked.nodup
  refine ⟨hl.kbNext_eq, hnot, hva, hl.linked.2, fun a => ?_, fun hne => ?_⟩
  · show a ∈ l ↔ a ∈ h.blocks ∧ a ∉ insert va h.alloc
    rw [Finset.mem_insert, not_or]
    constructor
    · intro ha
      have hmem := (hl.mem a).mp (List.mem_cons_of_mem va ha)
      exact ⟨hmem.1, fun heq => hnodup.1 (heq ▸ ha), hmem.2⟩
    · rintro ⟨hblk, hne, halloc⟩
      exact ((List.mem_cons.mp ((hl.mem a).mpr ⟨hblk, halloc⟩)).resolve_left hne)
  · obtain ⟨b, l', rfl⟩ := List.exists_cons_of_ne_nil hne
    exact (hl.last (List.cons_ne_nil _ _)).trans List.getLast?_cons_cons

theorem allocsize_small (hsize : bucketindx size = kb.indx) (hsmall : 1 <<< kb.indx ≤ kb.maxallocsave) :
    ¬size > kb.maxallocsave ∧ allocsize kb size = 1 <<< kb.indx := by
  have hnot : ¬size > kb.maxallocsave := fun hgt => absurd ((size_gt_iff hsize).mp hgt) (Nat.not_lt.mpr hsmall)
  exact ⟨hnot, if_neg hnot⟩

theorem le_roundup (x y : Nat) (hy : 0 < y) : x ≤ Bucket.roundup x y := by
  have hmod := Nat.mod_lt (x + (y - 1)) hy
  have hdiv := Nat.div_add_mod' (x + (y - 1)) y
  rw [Bucket.roundup]
  omega

theorem allocsize_large (hsize : bucketindx size = kb.indx) (hlarge : kb.maxallocsave < 1 <<< kb.indx) :
    allocsize kb size > kb.maxallocsave := by
  have hgt := (size_gt_iff hsize).mpr hlarge
  have hpos : 0 < kb.clbytes := by
    rw [clbytes_eq]
    exact Nat.two_pow_pos _
  have hle := le_roundup size _ hpos
  rw [allocsize, if_pos hgt]
  omega

theorem Conserved.sleep (hc : Conserved kb h) (hsize : bucketindx size = kb.indx) (hnone : h.kmem.kbNext = none) :
    Conserved kb { h with kmem := { h.kmem with kbLast := none }, asleep := h.asleep ++ [size] } := by
  obtain ⟨⟨l, hlinked, hmem, hlast⟩, hasleep, hsmall, hlarge, hinside, hapart⟩ := hc
  obtain rfl := hlinked.eq_nil hnone
  refine ⟨⟨[], hlinked, hmem, fun hne => absurd rfl hne⟩, fun s hs => ?_, hsmall, hlarge, hinside, hapart⟩
  rcases List.mem_append.mp hs with hs | hs
  · exact hasleep s hs
  · rw [List.mem_singleton.mp hs, hsize]

theorem Conserved.pop (hc : Conserved kb h) (hnext : h.kmem.kbNext = some va) : va ∉ h.alloc ∧
    Conserved kb { h with kmem := { h.kmem with kbNext := h.kmem.next va }, alloc := insert va h.alloc } := by
  obtain ⟨⟨l, hl⟩, hasleep, hsmall, hlarge, hinside, hapart⟩ := hc
  cases l with
  | nil =>
    have hnil : h.kmem.kbNext = none := hl.linked
    rw [hnext] at hnil
    cases hnil
  | cons a l =>
    have hfirst := hl.kbNext_eq
    rw [hnext] at hfirst
    obtain rfl : va = a := Option.some.inj hfirst
    obtain ⟨-, hnot, hblk, hrest⟩ := hl.pop
    refine ⟨hnot, ⟨l, hrest⟩, hasleep, fun hs => ?_, fun hl => ?_, hinside, hapart⟩
    · exact Finset.insert_subset hblk (hsmall hs)
    · rw [(hlarge hl).1] at hblk
      cases hblk

theorem Conserved.free (hc : Conserved kb h) (haddr : addr ∈ h.alloc) : ∃ writes k,
    free kb addr h.kmem = some (writes, k) ∧ (∀ b ∈ writes, b ∈ h.alloc → b = addr) ∧
      Conserved kb { h with
        kmem := k
        pages := if 1 <<< kb.indx > kb.maxallocsave then h.pages.filter fun p => p.1 ≠ addr else h.pages
        alloc := h.alloc.erase addr } := by
  obtain ⟨⟨l, hl⟩, hasleep, hsmall, hlarge, hinside, hapart⟩ := hc
  obtain ⟨hlinked, hmem, hlast⟩ := id hl
  by_cases hbig : 1 <<< kb.indx > kb.maxallocsave
  · obtain ⟨hempty, hpages⟩ := hlarge hbig
    refine ⟨[], h.kmem, if_pos hbig, fun b hb => absurd hb List.not_mem_nil, ⟨l, hlinked, fun a => ?_, hlast⟩, hasleep,
      fun hs => absurd hbig (Nat.not_lt.mpr hs), fun _ => ⟨hempty, fun a ha => ?_⟩, fun b hb => ?_, hapart⟩
    · have hnil : ∀ a, a ∉ l := fun a ha => by
        have hblk := ((hmem a).mp ha).1
        rw [hempty] at hblk
        cases hblk
      refine iff_of_false (hnil a) fun ha => ?_
      have hblk : a ∈ h.blocks := ha.1
      rw [hempty] at hblk
      cases hblk
    · obtain ⟨hne, ha⟩ := Finset.mem_erase.mp ha
      obtain ⟨p, hp, rfl, hpos⟩ := hpages a ha
      refine ⟨p, ?_, rfl, hpos⟩
      show p ∈ if 1 <<< kb.indx > kb.maxallocsave then _ else _
      rw [if_pos hbig, List.mem_filter]
      exact ⟨hp, decide_eq_true hne⟩
    · have hblk : b ∈ h.blocks := hb
      rw [hempty] at hblk
      cases hblk
  · have hblk := hsmall (Nat.le_of_not_lt hbig) haddr
    have hnotin : addr ∉ l := fun hin => ((hmem addr).mp hin).2 haddr
    have hmem' : ∀ a, a ∈ l ++ [addr] ↔ a ∈ h.blocks ∧ a ∉ h.alloc.erase addr := by
      intro a
      rw [List.mem_append, List.mem_singleton, hmem, Finset.mem_erase]
      constructor
      · rintro (⟨hb, hnot⟩ | rfl)
        · exact ⟨hb, fun ha => hnot ha.2⟩
        · exact ⟨hblk, fun ha => ha.1 rfl⟩
      · rintro ⟨hb, hnot⟩
        by_cases heq : a = addr
        · exact Or.inr heq
        · exact Or.inl ⟨hb, fun ha => hnot ⟨heq, ha⟩⟩
    have hpages : (if 1 <<< kb.indx > kb.maxallocsave then h.pages.filter fun p => p.1 ≠ addr else h.pages) = h.pages :=
      if_neg hbig
    have hrest : ∀ k : Kmem, Linked k.next k.kbNext (l ++ [addr]) none → k.kbLast = some addr → Conserved kb { h with
        kmem := k
        pages := if 1 <<< kb.indx > kb.maxallocsave then h.pages.filter fun p => p.1 ≠ addr else h.pages
        alloc := h.alloc.erase addr } := by
      intro k hk hkl
      rw [hpages]
      refine ⟨⟨l ++ [addr], hk, hmem', fun _ => ?_⟩, hasleep,
        fun hs => (Finset.erase_subset ..).trans (hsmall hs), fun hl => absurd hl hbig, hinside, hapart⟩
      rw [List.getLast?_append, List.getLast?_singleton]
      exact hkl
    unfold Kern.free
    rw [if_neg hbig]
    cases hnext : h.kmem.kbNext with
    | none =>
      obtain rfl := hlinked.eq_nil hnext
      refine ⟨_, _, rfl, fun b hb _ => List.mem_singleton.mp hb, hrest _ ⟨rfl, ?_⟩ rfl⟩
      exact Function.update_self ..
    | some first =>
      have hne : l ≠ [] := by
        rintro rfl
        have hnil : h.kmem.kbNext = none := hlinked
        rw [hnext] at hnil
        cases hnil
      obtain ⟨s, last, rfl⟩ : ∃ s last, l = s ++ [last] := ⟨_, _, (List.dropLast_append_getLast hne).symm⟩
      have hkl : h.kmem.kbLast = some last := by
        rw [hlast hne, List.getLast?_append, List.getLast?_singleton]
        rfl
      have hlastmem : last ∈ s ++ [last] := List.mem_append_right s List.mem_cons_self
      have hlastne : last ≠ addr := fun heq => hnotin (heq ▸ hlastmem)
      rw [hkl]
      refine ⟨_, _, rfl, fun b hb halloc => ?_, hrest _ ?_ rfl⟩
      · rcases List.mem_cons.mp hb with rfl | hb
        · exact absurd halloc ((hmem b).mp hlastmem).2
        · exact List.mem_singleton.mp hb
      · rw [hnext] at hlinked
        have hnodup : (s ++ [last]).Nodup := hlinked.nodup
        have hlasts : last ∉ s := fun hin => (List.nodup_append.mp hnodup).2.2 last hin last List.mem_cons_self rfl
        have hto : Linked (Function.update h.kmem.next last (some addr)) (some first) (s ++ [last]) (some addr) :=
          linked_concat.mpr ⟨(linked_concat.mp hlinked).1.update hlasts _, Function.update_self ..⟩
        exact linked_concat.mpr ⟨hto.update hnotin _, Function.update_self ..⟩

theorem npg_blocks (hsize : bucketindx size = kb.indx) (hsmall : 1 <<< kb.indx ≤ kb.maxallocsave) :
    ∃ n, kb.ctob (npg kb size) = (n + 1) * (1 <<< kb.indx) ∧ (kb.clbytes ≤ 1 <<< kb.indx → n = 0) := by
  have hblk := (allocsize_small hsize hsmall).2
  have hpos : 0 < 1 <<< kb.indx := by
    rw [Nat.one_shiftLeft]
    exact Nat.two_pow_pos _
  obtain ⟨m, hm⟩ := blocks_dvd hsmall
  have hle := le_ctob kb (1 <<< kb.indx)
  rw [npg, hblk]
  cases m with
  | zero =>
    rw [hm, Nat.mul_zero] at hle
    omega
  | succ n =>
    refine ⟨n, hm.trans (Nat.mul_comm _ _), fun hbig => ?_⟩
    have hlt := ctob_lt kb (1 <<< kb.indx)
    have htwo : (1 <<< kb.indx) * (n + 1) < (1 <<< kb.indx) * 2 := by omega
    have hn := Nat.lt_of_mul_lt_mul_left htwo
    omega

theorem mem_blocksOf {va size n a : Nat} : a ∈ blocksOf va size (n + 1) ↔ a ∈ descending va size (n + 1) := by
  rw [mem_descending, blocksOf, Finset.mem_image]
  simp only [Finset.mem_range]

theorem mallocWake_small {n : Nat} {k : Kmem} (hsize : bucketindx size = kb.indx)
    (hsmall : 1 <<< kb.indx ≤ kb.maxallocsave) (hbytes : kb.ctob (npg kb size) = (n + 1) * (1 <<< kb.indx))
    (hlinked : Linked k.next k.kbNext l none) (hfresh : ∀ a ∈ l, a ∉ descending va (1 <<< kb.indx) (n + 1)) :
    ∃ next, mallocWake kb size (some va) k = (some (va + n * (1 <<< kb.indx)), {
        kbNext := next (va + n * (1 <<< kb.indx))
        kbLast := if k.kbLast = none then some va else k.kbLast
        next := next }) ∧
      Linked next (some (va + n * (1 <<< kb.indx))) (descending va (1 <<< kb.indx) (n + 1) ++ l) none := by
  have hblk := (allocsize_small hsize hsmall).2
  have hpos : 0 < 1 <<< kb.indx := by
    rw [Nat.one_shiftLeft]
    exact Nat.two_pow_pos _
  have hcp : va + kb.ctob (npg kb size) - allocsize kb size = va + n * (1 <<< kb.indx) := by
    rw [hbytes, hblk, Nat.succ_mul]
    omega
  have hfuel : n ≤ kb.ctob (npg kb size) := by
    rw [hbytes]
    exact (Nat.le_succ n).trans (Nat.le_mul_of_pos_right _ hpos)
  obtain ⟨hend, hsame, hchain⟩ := carveLoop_spec va _ hpos hfuel k.next
  obtain ⟨next, hloop⟩ : ∃ next, carveLoop va (1 <<< kb.indx) (kb.ctob (npg kb size)) (va + n * (1 <<< kb.indx))
      k.next = (next, va) := ⟨_, Prod.ext rfl hend⟩
  rw [hloop] at hsame hchain
  refine ⟨Function.update next va k.kbNext, ?_, linked_append.mpr ⟨_, hchain k.kbNext, hlinked.congr fun a ha => ?_⟩⟩
  · unfold mallocWake
    dsimp only
    rw [if_neg (by rw [hblk]; omega), hcp, hblk, hloop]
  · have hne : a ≠ va := by
      rintro rfl
      exact hfresh a ha (mem_descending.mpr ⟨0, Nat.succ_pos n, by rw [Nat.zero_mul, Nat.add_zero]⟩)
    rw [Function.update_of_ne hne]
    exact hsame a (hfresh a ha)

theorem Conserved.wake (hc : Conserved kb h) (hi : h.asleep[i]? = some size)
    (hfree : ∀ p ∈ h.pages, va + kb.ctob (npg kb size) ≤ p.1 ∨ p.1 + p.2 ≤ va)
    (hcareful : 1 <<< kb.indx < kb.clbytes → h.kmem.kbNext = none → h.kmem.kbLast = none) :
    ∃ got k, mallocWake kb size (some va) h.kmem = (some got, k) ∧ got ∉ h.alloc ∧
      Conserved kb { ({ h with asleep := h.asleep.eraseIdx i } : Heap).carve kb size va with
        kmem := k
        alloc := insert got h.alloc } := by
  obtain ⟨⟨l, hl⟩, hasleep, hsmall, hlarge, hinside, hapart⟩ := hc
  obtain ⟨hlinked, hmem, hlast⟩ := id hl
  have hsize : bucketindx size = kb.indx := hasleep size (List.mem_of_getElem? hi)
  have hasleep' : ∀ s ∈ h.asleep.eraseIdx i, bucketindx s = kb.indx :=
    fun s hs => hasleep s (List.mem_of_mem_eraseIdx hs)
  by_cases hbig : 1 <<< kb.indx ≤ kb.maxallocsave
  · obtain ⟨hnot, hblk⟩ := allocsize_small hsize hbig
    obtain ⟨n, hbytes, hone⟩ := npg_blocks hsize hbig
    have hpos : 0 < 1 <<< kb.indx := by
      rw [Nat.one_shiftLeft]
      exact Nat.two_pow_pos _
    have hsep : ∀ a ∈ descending va (1 <<< kb.indx) (n + 1), ∀ b ∈ h.blocks,
        a + (1 <<< kb.indx) ≤ b ∨ b + (1 <<< kb.indx) ≤ a := by
      intro a ha b hb
      obtain ⟨j, hj, rfl⟩ := mem_descending.mp ha
      obtain ⟨p, hp, hlo, hhi⟩ := hinside b hb
      have hle := Nat.mul_le_mul_right (1 <<< kb.indx) (Nat.succ_le_of_lt hj)
      rw [Nat.succ_mul] at hle
      rcases hfree p hp with hbefore | hafter
      · left
        omega
      · right
        omega
    have hfresh : ∀ a ∈ descending va (1 <<< kb.indx) (n + 1), a ∉ h.blocks := by
      intro a ha hb
      have hapart := hsep a ha a hb
      omega
    have hcpmem : va + n * (1 <<< kb.indx) ∈ descending va (1 <<< kb.indx) (n + 1) := List.mem_cons_self
    have hunion : (({ h with asleep := h.asleep.eraseIdx i } : Heap).carve kb size va).blocks =
        h.blocks ∪ blocksOf va (1 <<< kb.indx) (n + 1) := by
      rw [Heap.carve, if_neg (by rw [hblk]; omega), hblk, hbytes, Nat.mul_div_cancel _ hpos]
    obtain ⟨next, hrun, hall⟩ := mallocWake_small hsize hbig hbytes hlinked
      fun a ha hin => hfresh a hin ((hmem a).mp ha).1
    refine ⟨_, _, hrun, fun hin => hfresh _ hcpmem (hsmall hbig hin), ?_⟩
    · refine ⟨⟨descending va (1 <<< kb.indx) n ++ l, hall.2, fun a => ?_, fun hne => ?_⟩, hasleep',
        fun _ => ?_, fun hl => absurd hl (Nat.not_lt.mpr hbig), ?_, ?_⟩
      · show a ∈ _ ↔ a ∈ (Heap.carve kb _ size va).blocks ∧ a ∉ insert _ h.alloc
        rw [hunion, Finset.mem_union, mem_blocksOf, Finset.mem_insert, not_or, List.mem_append, hmem, descending,
          List.mem_cons]
        have hcpnot : va + n * (1 <<< kb.indx) ∉ descending va (1 <<< kb.indx) n ++ l :=
          (List.nodup_cons.mp hall.nodup).1
        have hnew : a ∈ descending va (1 <<< kb.indx) n → a ∉ h.alloc :=
          fun hin ha => hfresh a (List.mem_cons_of_mem _ hin) (hsmall hbig ha)
        have hne : ∀ b ∈ descending va (1 <<< kb.indx) n ++ l, b ≠ va + n * (1 <<< kb.indx) :=
          fun b hb heq => hcpnot (heq ▸ hb)
        constructor
        · rintro (hin | hold)
          · exact ⟨Or.inr (Or.inr hin), hne a (List.mem_append_left _ hin), hnew hin⟩
          · exact ⟨Or.inl hold.1, hne a (List.mem_append_right _ ((hmem a).mpr hold)), hold.2⟩
        · rintro ⟨hold | heq | hin, hcp, halloc⟩
          · exact Or.inr ⟨hold, halloc⟩
          · exact absurd heq hcp
          · exact Or.inl hin
      · show (if h.kmem.kbLast = none then some va else h.kmem.kbLast) = _
        cases l with
        | nil =>
          rw [List.append_nil] at hne ⊢
          cases n with
          | zero => exact absurd rfl hne
          | succ n =>
            have hmany : 1 <<< kb.indx < kb.clbytes := by
              by_contra hle
              exact absurd (hone (Nat.le_of_not_lt hle)) (Nat.succ_ne_zero n)
            rw [if_pos (hcareful hmany hlinked), getLast_descending]
        | cons b l =>
          have hold := hlast (List.cons_ne_nil b l)
          rw [List.getLast?_append, ← hold]
          have hsome : ∃ c, h.kmem.kbLast = some c := ⟨_, hold.trans (List.getLast?_eq_some_getLast (List.cons_ne_nil b l))⟩
          obtain ⟨c, hc⟩ := hsome
          rw [hc, if_neg (Option.some_ne_none c)]
          rfl
      · show insert _ h.alloc ⊆ (Heap.carve kb _ size va).blocks
        rw [hunion]
        exact Finset.insert_subset (Finset.mem_union_right _ (mem_blocksOf.mpr hcpmem))
          ((hsmall hbig).trans Finset.subset_union_left)
      · show ∀ b ∈ (Heap.carve kb _ size va).blocks, ∃ p ∈ (va, kb.ctob (npg kb size)) :: h.pages, _
        rw [hunion]
        intro b hb
        rcases Finset.mem_union.mp hb with hold | hnew
        · obtain ⟨p, hp, hin⟩ := hinside b hold
          exact ⟨p, List.mem_cons_of_mem _ hp, hin⟩
        · obtain ⟨j, hj, rfl⟩ := mem_descending.mp (mem_blocksOf.mp hnew)
          have hle := Nat.mul_le_mul_right (1 <<< kb.indx) (Nat.succ_le_of_lt hj)
          rw [Nat.succ_mul] at hle
          refine ⟨_, List.mem_cons_self, Nat.le_add_right .., ?_⟩
          show va + j * (1 <<< kb.indx) + (1 <<< kb.indx) ≤ va + kb.ctob (npg kb size)
          omega
      · show ∀ a ∈ (Heap.carve kb _ size va).blocks, ∀ b ∈ (Heap.carve kb _ size va).blocks, _
        rw [hunion]
        intro a ha b hb hlt
        rcases Finset.mem_union.mp ha with ha | ha <;> rcases Finset.mem_union.mp hb with hb | hb
        · exact hapart a ha b hb hlt
        · exact (hsep b (mem_blocksOf.mp hb) a ha).resolve_left (by omega)
        · exact (hsep a (mem_blocksOf.mp ha) b hb).resolve_right (by omega)
        · obtain ⟨j, hj, rfl⟩ := mem_descending.mp (mem_blocksOf.mp ha)
          obtain ⟨m, hm, rfl⟩ := mem_descending.mp (mem_blocksOf.mp hb)
          have hjm : j < m := Nat.lt_of_mul_lt_mul_right (Nat.lt_of_add_lt_add_left hlt)
          have hle := Nat.mul_le_mul_right (1 <<< kb.indx) (Nat.succ_le_of_lt hjm)
          rw [Nat.succ_mul] at hle
          omega
  · have hlt : kb.maxallocsave < 1 <<< kb.indx := Nat.lt_of_not_le hbig
    have hsizes := allocsize_large hsize hlt
    have hbytes : 0 < kb.ctob (npg kb size) := by
      have hle := le_ctob kb (allocsize kb size)
      rw [← npg] at hle
      omega
    obtain ⟨hempty, hpages⟩ := hlarge hlt
    refine ⟨va, h.kmem, ?_, fun hin => ?_, ?_⟩
    · unfold mallocWake
      dsimp only
      rw [if_pos hsizes]
    · obtain ⟨p, hp, heq, hpos⟩ := hpages va hin
      rcases hfree p hp with hbefore | hafter <;> omega
    · have hsame : (({ h with asleep := h.asleep.eraseIdx i } : Heap).carve kb size va).blocks = ∅ :=
        (if_pos hsizes).trans hempty
      have hl' : l = [] := by
        cases l with
        | nil => rfl
        | cons a l =>
          have hblk := ((hmem a).mp List.mem_cons_self).1
          rw [hempty] at hblk
          cases hblk
      refine ⟨⟨[], ?_, fun a => ?_, fun hne => absurd rfl hne⟩, hasleep', fun hs => absurd hlt (Nat.not_lt.mpr hs),
        fun _ => ⟨hsame, fun a ha => ?_⟩, fun b hb => ?_, fun a ha => ?_⟩
      · rw [hl'] at hlinked
        exact hlinked
      · show a ∈ [] ↔ a ∈ (Heap.carve kb _ size va).blocks ∧ _
        rw [hsame]
        simp
      · rcases Finset.mem_insert.mp ha with rfl | ha
        · exact ⟨_, List.mem_cons_self, rfl, hbytes⟩
        · obtain ⟨p, hp, heq⟩ := hpages a ha
          exact ⟨p, List.mem_cons_of_mem _ hp, heq⟩
      · rw [hsame] at hb
        cases hb
      · rw [hsame] at ha
        cases ha

theorem Conserved.call {c : Call} (hc : Conserved kb h) (hallowed : h.Allowed kb c) (hcareful : h.Careful kb c) :
    ∃ got h', h.call kb c = some (got, h') ∧ (∀ addr, got = some addr → addr ∉ h.alloc) ∧ Conserved kb h' := by
  cases c with
  | malloc size =>
    cases hnext : h.kmem.kbNext with
    | none =>
      have hstart : mallocStart h.kmem = (none, { h.kmem with kbLast := none }) := by
        unfold mallocStart
        split
        · rfl
        · exact absurd hnext (by simp_all)
      refine ⟨none, _, ?_, (fun _ heq => absurd heq (Option.some_ne_none _).symm), hc.sleep hallowed hnext⟩
      unfold Heap.call
      dsimp only
      rw [hstart]
    | some va =>
      have hstart : mallocStart h.kmem = (some va, { h.kmem with kbNext := h.kmem.next va }) := by
        rw [mallocStart, hnext]
      obtain ⟨hnot, hpop⟩ := hc.pop hnext
      refine ⟨some va, _, ?_, fun addr heq => Option.some.inj heq ▸ hnot, hpop⟩
      unfold Heap.call
      dsimp only
      rw [hstart]
  | wake i va =>
    obtain ⟨size, hi, hfree⟩ := hallowed
    unfold Heap.call
    dsimp only
    rw [hi]
    cases va with
    | none =>
      refine ⟨none, _, rfl, (fun _ heq => absurd heq (Option.some_ne_none _).symm), ?_⟩
      obtain ⟨⟨l, hl⟩, hasleep, hsmall, hlarge, hinside, hapart⟩ := hc
      exact ⟨⟨l, hl.linked, hl.mem, hl.last⟩, fun s hs => hasleep s (List.mem_of_mem_eraseIdx hs), hsmall, hlarge,
        hinside, hapart⟩
    | some va =>
      obtain ⟨got, k, hrun, hnot, hwake⟩ := hc.wake hi (hfree va rfl) hcareful
      refine ⟨some got, _, ?_, fun addr heq => Option.some.inj heq ▸ hnot, hwake⟩
      dsimp only
      rw [hrun]
      rfl
  | free addr =>
    obtain ⟨writes, k, hrun, -, hfree⟩ := hc.free hallowed
    refine ⟨none, _, ?_, (fun _ heq => absurd heq (Option.some_ne_none _).symm), hfree⟩
    unfold Heap.call
    dsimp only
    rw [hrun]
    rfl

theorem Heap.Boot.conserved (hb : h.Boot) : Conserved kb h := by
  obtain ⟨hnext, hlast, hasleep, hpages, hblocks, halloc⟩ := hb
  refine ⟨⟨[], hnext, fun a => ?_, fun hne => absurd rfl hne⟩, fun s hs => ?_, fun _ a ha => ?_,
    fun _ => ⟨hblocks, fun a ha => ?_⟩, fun b hb => ?_, fun a ha => ?_⟩
  · simp [hblocks]
  · simp [hasleep] at hs
  · simp [halloc] at ha
  · simp [halloc] at ha
  · simp [hblocks] at hb
  · simp [hblocks] at ha

/-- In a run whose calls come back to an empty list only when it has no last block: the list has each block that is not
allocated once, a block that is handed out is not allocated, and `free` writes to no other block that is. -/
theorem freelist_conserved {heap : Heap} (hruns : Runs Heap.Boot (Heap.step kb)
      (fun heap c => heap.Allowed kb c ∧ heap.Careful kb c) heap) :
    Conserved kb heap ∧
      (∀ c, heap.Allowed kb c → heap.Careful kb c → ∃ got heap', heap.call kb c = some (got, heap') ∧
        ∀ addr, got = some addr → addr ∉ heap.alloc) ∧
      ∀ addr ∈ heap.alloc, ∃ writes k, free kb addr heap.kmem = some (writes, k) ∧
        ∀ b ∈ writes, b ∈ heap.alloc → b = addr := by
  have hc : Conserved kb heap := by
    refine hruns.invariant (fun _ hb => hb.conserved) fun s c s' hs hok hstep => ?_
    obtain ⟨got, s'', hcall, -, hs''⟩ := hs.call hok.1 hok.2
    rw [Heap.step, hcall] at hstep
    exact Option.some.inj hstep ▸ hs''
  refine ⟨hc, fun c hallowed hcareful => ?_, fun addr haddr => ?_⟩
  · obtain ⟨got, h', hcall, hnot, -⟩ := hc.call hallowed hcareful
    exact ⟨got, h', hcall, hnot⟩
  · obtain ⟨writes, k, hrun, hwrites, -⟩ := hc.free haddr
    exact ⟨writes, k, hrun, hwrites⟩

end

def twoBlocks : Bucket where
  pgshift := 12
  clshift := 0
  indx := 11
  shift_le := by decide
  shift_lt := by decide

def booted : Heap where
  kmem := { kbNext := none, kbLast := none, next := fun _ => none }
  asleep := []
  pages := []
  blocks := ∅
  alloc := ∅

def Heap.after (h : Heap) (c : Call) : Heap := (h.step twoBlocks c).getD h

theorem Heap.runs_after {p : Heap → Call → Prop} {h : Heap} (hruns : Runs Heap.Boot (Heap.step twoBlocks) p h)
    (c : Call) (hok : p h c) (hsome : (h.step twoBlocks c).isSome = true) :
    Runs Heap.Boot (Heap.step twoBlocks) p (h.after c) :=
  hruns.after c hok hsome

theorem allowed_malloc (h : Heap) : h.Allowed twoBlocks (.malloc 2048) := by
  have hindx : bucketindx 2048 = twoBlocks.indx := by decide
  exact hindx

theorem allowed_wake {h : Heap} {va : Nat} (hasleep : h.asleep = [2048])
    (hpages : ∀ p ∈ h.pages, va + 4096 ≤ p.1 ∨ p.1 + p.2 ≤ va) : h.Allowed twoBlocks (.wake 0 (some va)) := by
  have hbytes : twoBlocks.ctob (npg twoBlocks 2048) = 4096 := by decide
  refine ⟨2048, by rw [hasleep]; rfl, fun va' heq => ?_⟩
  obtain rfl := Option.some.inj heq
  rw [hbytes]
  exact hpages

theorem freelist_conserved_two : Conserved twoBlocks
    (((booted.after (.malloc 2048)).after (.wake 0 (some 4096))).after (.free 6144)) := by
  have hstart : booted.Boot := ⟨rfl, rfl, rfl, rfl, rfl, rfl⟩
  have hmalloc := Heap.runs_after (p := fun h c => h.Allowed twoBlocks c ∧ h.Careful twoBlocks c) (Runs.start hstart)
    (.malloc 2048) ⟨allowed_malloc _, trivial⟩ rfl
  have hwake := Heap.runs_after hmalloc (.wake 0 (some 4096))
    ⟨allowed_wake rfl (fun p hp => absurd hp List.not_mem_nil), fun _ _ => rfl⟩ (by decide)
  have halloc : 6144 ∈ ((booted.after (.malloc 2048)).after (.wake 0 (some 4096))).alloc := by decide
  exact (freelist_conserved (Heap.runs_after hwake (.free 6144) ⟨halloc, trivial⟩ (by decide))).1

def refilled : Heap :=
  ((((booted.after (.malloc 2048)).after (.wake 0 (some 4096))).after (.malloc 2048)).after (.malloc 2048)).after
    (.free 6144)

def drained : Heap := (refilled.after (.malloc 2048)).after (.wake 0 (some 8192))

theorem block_lost : ¬∀ (kb : Bucket) (heap : Heap),
    Runs Heap.Boot (Heap.step kb) (fun heap c => heap.Allowed kb c) heap → heap.asleep = [] →
    Conserved kb heap ∧ ∀ addr ∈ heap.alloc, ∃ writes k, free kb addr heap.kmem = some (writes, k) ∧
      ∀ b ∈ writes, b ∈ heap.alloc → b = addr := by
  intro hall
  have hstart : booted.Boot := ⟨rfl, rfl, rfl, rfl, rfl, rfl⟩
  have hmalloc := Heap.runs_after (p := fun h c => h.Allowed twoBlocks c) (Runs.start hstart) (.malloc 2048)
    (allowed_malloc _) rfl
  have hwake := Heap.runs_after hmalloc (.wake 0 (some 4096)) (allowed_wake rfl (fun p hp => absurd hp List.not_mem_nil))
    (by decide)
  have hboth := Heap.runs_after hwake (.malloc 2048) (allowed_malloc _) (by decide)
  have hwaits := Heap.runs_after hboth (.malloc 2048) (allowed_malloc _) (by decide)
  have halloc : 6144 ∈ ((((booted.after (.malloc 2048)).after (.wake 0 (some 4096))).after (.malloc 2048)).after
    (.malloc 2048)).alloc := by decide
  have hrefilled : Runs Heap.Boot (Heap.step twoBlocks) (fun h c => h.Allowed twoBlocks c) refilled :=
    Heap.runs_after hwaits (.free 6144) halloc (by decide)
  have hagain := Heap.runs_after hrefilled (.malloc 2048) (allowed_malloc _) (by decide)
  have hpages : (refilled.after (.malloc 2048)).pages = [(4096, 4096)] := by decide
  have hdrained : Runs Heap.Boot (Heap.step twoBlocks) (fun h c => h.Allowed twoBlocks c) drained := by
    refine Heap.runs_after hagain (.wake 0 (some 8192)) (allowed_wake (by decide) ?_) (by decide)
    rw [hpages]
    intro p hp
    rw [List.mem_singleton.mp hp]
    exact Or.inr le_rfl
  have hfirst : 4096 ∈ drained.alloc := by decide
  have hlast : 6144 ∈ drained.alloc := by decide
  obtain ⟨writes, k, hfree, hwrites⟩ := (hall twoBlocks drained hdrained (by decide)).2 4096 hfirst
  have hboth : (free twoBlocks 4096 drained.kmem).map Prod.fst = some [6144, 4096] := by decide
  rw [hfree] at hboth
  obtain rfl : writes = [6144, 4096] := Option.some.inj hboth
  exact absurd (hwrites 6144 List.mem_cons_self hlast) (by decide)

end NetBSD.Kern
