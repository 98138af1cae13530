import NetBSD.Btree.Dleaf
import NetBSD.Lib.Reversal

/-!
# Pages in the other byte order

`__bt_pgin` and `__bt_pgout` on the bytes of an internal page or a leaf, for a file whose byte order is not that of the
machine.
-/

namespace NetBSD.Btree

open NetBSD.Lib (Span)
open NetBSD.Lib.Span (reverse reverseAll)
open Function (update)

variable {be leaf : Bool} {psize i j k off top x cnt : Nat} {mem mem' m : Nat → UInt8} {w : Span}

def get16 (be : Bool) (mem : Nat → UInt8) (a : Nat) : Nat :=
  if be then (mem a).toNat * 256 + (mem (a + 1)).toNat else (mem (a + 1)).toNat * 256 + (mem a).toNat

def swap32 (a : Nat) (mem : Nat → UInt8) : Nat → UInt8 := reverse ⟨a, 4⟩ mem

def swap16 (a : Nat) (mem : Nat → UInt8) : Nat → UInt8 := reverse ⟨a, 2⟩ mem

def pageType (be : Bool) (mem : Nat → UInt8) : Option Bool :=
  if get32 be mem 12 % 32 = 1 then some false else if get32 be mem 12 % 32 = 2 then some true else none

def nextIndex (be : Bool) (mem : Nat → UInt8) : Nat := (get16 be mem 16 - btdataoff) / 2

def linpOf (be : Bool) (mem : Nat → UInt8) (i : Nat) : Nat := get16 be mem (btdataoff + 2 * i)

def swapHeader (mem : Nat → UInt8) : Nat → UInt8 := swap16 18 (swap16 16 (swap32 12 (swap32 8 (swap32 4 (swap32 0 mem)))))

def swapInternal (p : Nat) (mem : Nat → UInt8) : Nat → UInt8 :=
  let mem := swap32 (p + 4) (swap32 p mem)
  if mem (p + 8) &&& pBigkey ≠ 0 then swap32 (p + 13) (swap32 (p + 9) mem) else mem

/-- With `P_BIGDATA` the pointer is 4 behind the start of the key, or behind where the key's reference ends. -/
def swapLeaf (p : Nat) (mem : Nat → UInt8) : Nat → UInt8 :=
  let mem := swap32 (p + 4) (swap32 p mem)
  let flags := mem (p + 8)
  let p := p + 9
  let (p, mem) := if flags &&& pBigkey ≠ 0 then (p + 4, swap32 (p + 4) (swap32 p mem)) else (p, mem)
  if flags &&& pBigdata ≠ 0 then swap32 (p + 8) (swap32 (p + 4) mem) else mem

def swapItem (leaf : Bool) (p : Nat) (mem : Nat → UInt8) : Nat → UInt8 := if leaf then swapLeaf p mem else swapInternal p mem

def outLoop (be leaf : Bool) : Nat → Nat → (Nat → UInt8) → Nat → UInt8
  | 0, _, mem => mem
  | cnt + 1, i, mem => outLoop be leaf cnt (i + 1) (swap16 (btdataoff + 2 * i) (swapItem leaf (linpOf be mem i) mem))

def inLoop (be leaf : Bool) : Nat → Nat → (Nat → UInt8) → Nat → UInt8
  | 0, _, mem => mem
  | cnt + 1, i, mem =>
    let mem := swap16 (btdataoff + 2 * i) mem
    inLoop be leaf cnt (i + 1) (swapItem leaf (linpOf be mem i) mem)

def btPgout (be : Bool) (mem : Nat → UInt8) : Nat → UInt8 :=
  match pageType be mem with
  | none => swapHeader mem
  | some leaf => swapHeader (outLoop be leaf (nextIndex be mem) 0 mem)

def btPgin (be : Bool) (mem : Nat → UInt8) : Nat → UInt8 :=
  let mem := swapHeader mem
  match pageType be mem with
  | none => mem
  | some leaf => inLoop be leaf (nextIndex be mem) 0 mem

def headerWords : List Span := [⟨0, 4⟩, ⟨4, 4⟩, ⟨8, 4⟩, ⟨12, 4⟩, ⟨16, 2⟩, ⟨18, 2⟩]

def itemWords (be leaf : Bool) (mem : Nat → UInt8) (p : Nat) : List Span :=
  ⟨p, 4⟩ :: ⟨p + 4, 4⟩ ::
    ((if mem (p + 8) &&& pBigkey ≠ 0 then [⟨p + 9, 4⟩, ⟨p + 13, 4⟩] else []) ++
      if leaf ∧ mem (p + 8) &&& pBigdata ≠ 0 then [⟨p + 9 + get32 be mem p, 4⟩, ⟨p + 13 + get32 be mem p, 4⟩] else [])

def itemsWords (be leaf : Bool) (mem : Nat → UInt8) (n : Nat) : List Span :=
  (List.range n).flatMap fun i => ⟨btdataoff + 2 * i, 2⟩ :: itemWords be leaf mem (linpOf be mem i)

def pageWords (be leaf : Bool) (mem : Nat → UInt8) (n : Nat) : List Span := headerWords ++ itemsWords be leaf mem n

def image (be leaf : Bool) (mem : Nat → UInt8) : Nat → UInt8 := reverseAll (pageWords be leaf mem (nextIndex be mem)) mem

def codeWords (leaf : Bool) (mem : Nat → UInt8) (p : Nat) : List Span :=
  ⟨p, 4⟩ :: ⟨p + 4, 4⟩ ::
    ((if mem (p + 8) &&& pBigkey ≠ 0 then [⟨p + 9, 4⟩, ⟨p + 13, 4⟩] else []) ++
      if leaf ∧ mem (p + 8) &&& pBigdata ≠ 0 then
        if mem (p + 8) &&& pBigkey ≠ 0 then [⟨p + 17, 4⟩, ⟨p + 21, 4⟩] else [⟨p + 13, 4⟩, ⟨p + 17, 4⟩]
      else [])

def itemSize (be leaf : Bool) (mem : Nat → UInt8) (p : Nat) : Nat := if leaf then size be mem p else nbinternal (get32 be mem p)

structure PageOk (be leaf : Bool) (psize : Nat) (mem : Nat → UInt8) : Prop where
  type : pageType be mem = some leaf
  lower : btdataoff ≤ get16 be mem 16
  inside : ∀ i < nextIndex be mem, get16 be mem 16 ≤ linpOf be mem i ∧ linpOf be mem i + itemSize be leaf mem (linpOf be mem i) ≤ psize
  apart : ∀ i < nextIndex be mem, ∀ j < nextIndex be mem, i ≠ j →
    linpOf be mem i + itemSize be leaf mem (linpOf be mem i) ≤ linpOf be mem j ∨
      linpOf be mem j + itemSize be leaf mem (linpOf be mem j) ≤ linpOf be mem i
  bigkey : ∀ i < nextIndex be mem, mem (linpOf be mem i + 8) &&& pBigkey ≠ 0 → get32 be mem (linpOf be mem i) = novflsize
  bigdata : leaf = true → ∀ i < nextIndex be mem, mem (linpOf be mem i + 8) &&& pBigdata ≠ 0 →
    get32 be mem (linpOf be mem i + 4) = novflsize

theorem swapItem_eq (leaf : Bool) (p : Nat) (m : Nat → UInt8) : swapItem leaf p m = reverseAll (codeWords leaf m p) m := by
  have hflags : swap32 (p + 4) (swap32 p m) (p + 8) = m (p + 8) := by
    rw [swap32, swap32, reverse, if_neg (by rw [Span.has_mk]; omega), reverse, if_neg (by rw [Span.has_mk]; omega)]
  cases leaf with
  | false =>
    unfold swapItem swapInternal codeWords
    dsimp only
    rw [hflags]
    rcases eq_or_ne (m (p + 8) &&& pBigkey) 0 with hkey | hkey <;> simp [hkey, reverseAll, swap32]
  | true =>
    unfold swapItem swapLeaf codeWords
    dsimp only
    rw [hflags]
    rcases eq_or_ne (m (p + 8) &&& pBigkey) 0 with hkey | hkey <;> rcases eq_or_ne (m (p + 8) &&& pBigdata) 0 with hdata | hdata <;>
      simp [hkey, hdata, reverseAll, swap32, Nat.add_assoc]

theorem swapHeader_eq (m : Nat → UInt8) : swapHeader m = reverseAll headerWords m := rfl

theorem itemSize_internal (be : Bool) (mem : Nat → UInt8) (p : Nat) : itemSize be false mem p = (12 + get32 be mem p) / 4 * 4 := by
  rw [itemSize, if_neg (by decide), nbinternal, lalign]
  omega

theorem itemSize_leaf (be : Bool) (mem : Nat → UInt8) (p : Nat) :
    itemSize be true mem p = (12 + get32 be mem p + get32 be mem (p + 4)) / 4 * 4 := by
  rw [itemSize, if_pos rfl, size, nbleafdbt, lalign]
  omega

theorem le_itemSize (be leaf : Bool) (mem : Nat → UInt8) (p : Nat) : 12 ≤ itemSize be leaf mem p := by
  cases leaf with
  | false =>
    rw [itemSize_internal]
    omega
  | true =>
    rw [itemSize_leaf]
    omega

theorem codeWords_congr (h : m (off + 8) = mem (off + 8)) : codeWords leaf m off = codeWords leaf mem off := by
  unfold codeWords
  rw [h]

theorem get16_congr (h : m k = mem k) (h' : m (k + 1) = mem (k + 1)) : get16 be m k = get16 be mem k := by
  unfold get16
  rw [h, h']

theorem get32_congr (h : ∀ x, k ≤ x → x < k + 4 → m x = mem x) : get32 be m k = get32 be mem k := by
  unfold get32
  rw [h k (by omega) (by omega), h (k + 1) (by omega) (by omega), h (k + 2) (by omega) (by omega), h (k + 3) (by omega) (by omega)]

theorem nextIndex_congr (h : get16 be m 16 = get16 be mem 16) : nextIndex be m = nextIndex be mem := by
  unfold nextIndex
  rw [h]

theorem pageType_congr (h : get32 be m 12 = get32 be mem 12) : pageType be m = pageType be mem := by
  unfold pageType
  rw [h]

theorem codeWords_range (hbigkey : mem (off + 8) &&& pBigkey ≠ 0 → get32 be mem off = novflsize)
    (hbigdata : leaf = true → mem (off + 8) &&& pBigdata ≠ 0 → get32 be mem (off + 4) = novflsize) :
    ∀ w ∈ codeWords leaf mem off, off ≤ w.start ∧ w.start + w.width ≤ off + itemSize be leaf mem off + 1 ∧ ¬w.Has (off + 8) := by
  unfold codeWords
  unfold novflsize at hbigkey hbigdata
  cases leaf with
  | false =>
    have hsize := itemSize_internal be mem off
    rcases eq_or_ne (mem (off + 8) &&& pBigkey) 0 with hkey | hkey
    · simp [hkey, Span.has_mk]
      omega
    · have hks := hbigkey hkey
      simp [hkey, Span.has_mk]
      omega
  | true =>
    have hsize := itemSize_leaf be mem off
    rcases eq_or_ne (mem (off + 8) &&& pBigkey) 0 with hkey | hkey <;> rcases eq_or_ne (mem (off + 8) &&& pBigdata) 0 with hdata | hdata
    · simp [hkey, hdata, Span.has_mk]
      omega
    · have hds := hbigdata rfl hdata
      simp [hkey, hdata, Span.has_mk]
      omega
    · have hks := hbigkey hkey
      simp [hkey, hdata, Span.has_mk]
      omega
    · have hks := hbigkey hkey
      have hds := hbigdata rfl hdata
      simp [hkey, hdata, Span.has_mk]
      omega

theorem itemWords_range (hbigkey : mem (off + 8) &&& pBigkey ≠ 0 → get32 be mem off = novflsize)
    (hbigdata : leaf = true → mem (off + 8) &&& pBigdata ≠ 0 → get32 be mem (off + 4) = novflsize) :
    (∀ w ∈ itemWords be leaf mem off, off ≤ w.start ∧ w.start + w.width ≤ off + itemSize be leaf mem off ∧ ¬w.Has (off + 8)) ∧
      (itemWords be leaf mem off).Pairwise Span.Apart := by
  unfold itemWords
  unfold novflsize at hbigkey hbigdata
  cases leaf with
  | false =>
    have hsize := itemSize_internal be mem off
    rcases eq_or_ne (mem (off + 8) &&& pBigkey) 0 with hkey | hkey
    · simp [hkey, Span.has_mk, Span.Apart]
      omega
    · have hks := hbigkey hkey
      simp [hkey, Span.has_mk, Span.Apart]
      omega
  | true =>
    have hsize := itemSize_leaf be mem off
    rcases eq_or_ne (mem (off + 8) &&& pBigkey) 0 with hkey | hkey <;> rcases eq_or_ne (mem (off + 8) &&& pBigdata) 0 with hdata | hdata
    · simp [hkey, hdata, Span.has_mk, Span.Apart]
      omega
    · have hds := hbigdata rfl hdata
      simp [hkey, hdata, Span.has_mk, Span.Apart]
      omega
    · have hks := hbigkey hkey
      simp [hkey, hdata, Span.has_mk, Span.Apart]
      omega
    · have hks := hbigkey hkey
      have hds := hbigdata rfl hdata
      simp [hkey, hdata, Span.has_mk, Span.Apart]
      omega

namespace PageOk

theorem linp_lt (hp : PageOk be leaf psize mem) (hi : i < nextIndex be mem) : btdataoff + 2 * i + 1 < get16 be mem 16 := by
  have := hp.lower
  unfold nextIndex at hi
  omega

theorem codeWords_low (hp : PageOk be leaf psize mem) (hi : i < nextIndex be mem) (hx : x < get16 be mem 16) :
    ∀ w ∈ codeWords leaf mem (linpOf be mem i), ¬w.Has x := fun w hw hhas => by
  have hrange := codeWords_range (hp.bigkey i hi) (fun hl => hp.bigdata hl i hi) w hw
  have hin := hp.inside i hi
  unfold Span.Has at hhas
  omega

theorem codeWords_other (hp : PageOk be leaf psize mem) (hi : i < nextIndex be mem) (hj : j < nextIndex be mem) (hij : i ≠ j)
    (hlo : linpOf be mem j + 1 ≤ x) (hhi : x < linpOf be mem j + itemSize be leaf mem (linpOf be mem j)) :
    ∀ w ∈ codeWords leaf mem (linpOf be mem i), ¬w.Has x := fun w hw hhas => by
  have hrange := codeWords_range (hp.bigkey i hi) (fun hl => hp.bigdata hl i hi) w hw
  have hapart := hp.apart i hi j hj hij
  unfold Span.Has at hhas
  omega

theorem outLoop_eq (hp : PageOk be leaf psize mem) (hcnt : i + cnt = nextIndex be mem)
    (hlinp : ∀ j, i ≤ j → j < nextIndex be mem →
      m (btdataoff + 2 * j) = mem (btdataoff + 2 * j) ∧ m (btdataoff + 2 * j + 1) = mem (btdataoff + 2 * j + 1))
    (hflags : ∀ j, i ≤ j → j < nextIndex be mem → m (linpOf be mem j + 8) = mem (linpOf be mem j + 8)) :
    outLoop be leaf cnt i m =
      reverseAll ((List.range' i cnt).flatMap fun j => codeWords leaf mem (linpOf be mem j) ++ [⟨btdataoff + 2 * j, 2⟩]) m := by
  induction cnt generalizing i m with
  | zero => rfl
  | succ cnt ih =>
    have hi : i < nextIndex be mem := by omega
    have hstep : swap16 (btdataoff + 2 * i) (swapItem leaf (linpOf be m i) m) =
        reverseAll (codeWords leaf mem (linpOf be mem i) ++ [⟨btdataoff + 2 * i, 2⟩]) m := by
      obtain ⟨hlo, hhi⟩ := hlinp i (le_refl i) hi
      rw [show linpOf be m i = linpOf be mem i from get16_congr hlo hhi, swapItem_eq, codeWords_congr (hflags i (le_refl i) hi), Span.reverseAll_append]
      rfl
    have hkept : ∀ x, (∀ w ∈ codeWords leaf mem (linpOf be mem i), ¬w.Has x) → ¬(btdataoff + 2 * i ≤ x ∧ x < btdataoff + 2 * i + 2) →
        reverseAll (codeWords leaf mem (linpOf be mem i) ++ [⟨btdataoff + 2 * i, 2⟩]) m x = m x := fun x hx hx' =>
      Span.reverseAll_of_not_has fun w hw => (List.mem_append.1 hw).elim (hx w) fun hw => by
        rw [List.mem_singleton.1 hw]
        exact hx'
    rw [outLoop, hstep, List.range'_succ, List.flatMap_cons]
    refine (ih (show i + 1 + cnt = nextIndex be mem by omega) (fun j hij hj => ?_) fun j hij hj => ?_).trans Span.reverseAll_append.symm
    · have hlow := hp.linp_lt hj
      have hlo := hkept (btdataoff + 2 * j) (hp.codeWords_low hi (by omega)) (by omega)
      have hhi := hkept (btdataoff + 2 * j + 1) (hp.codeWords_low hi (by omega)) (by omega)
      rw [hlo, hhi]
      exact hlinp j (by omega) hj
    · have hsize := le_itemSize be leaf mem (linpOf be mem j)
      have hin := hp.inside j hj
      have hlow := hp.linp_lt hi
      have hne : i ≠ j := by omega
      rw [hkept (linpOf be mem j + 8) (hp.codeWords_other hi hj hne (by omega) (by omega)) (by omega)]
      exact hflags j (by omega) hj

theorem inLoop_eq (hp : PageOk be leaf psize mem) (hcnt : i + cnt = nextIndex be mem)
    (hlinp : ∀ j, i ≤ j → j < nextIndex be mem →
      m (btdataoff + 2 * j) = mem (btdataoff + 2 * j + 1) ∧ m (btdataoff + 2 * j + 1) = mem (btdataoff + 2 * j))
    (hflags : ∀ j, i ≤ j → j < nextIndex be mem → m (linpOf be mem j + 8) = mem (linpOf be mem j + 8)) :
    inLoop be leaf cnt i m =
      reverseAll ((List.range' i cnt).flatMap fun j => ⟨btdataoff + 2 * j, 2⟩ :: codeWords leaf mem (linpOf be mem j)) m := by
  induction cnt generalizing i m with
  | zero => rfl
  | succ cnt ih =>
    have hi : i < nextIndex be mem := by omega
    have hlow := hp.linp_lt hi
    have hin := hp.inside i hi
    have hstep : swapItem leaf (linpOf be (swap16 (btdataoff + 2 * i) m) i) (swap16 (btdataoff + 2 * i) m) =
        reverseAll (⟨btdataoff + 2 * i, 2⟩ :: codeWords leaf mem (linpOf be mem i)) m := by
      obtain ⟨hlo, hhi⟩ := hlinp i (le_refl i) hi
      have hlo' : swap16 (btdataoff + 2 * i) m (btdataoff + 2 * i) = mem (btdataoff + 2 * i) := by
        rw [swap16, reverse, if_pos (by rw [Span.has_mk]; omega), ← hhi, Span.mirror_mk]
        exact congrArg m (by omega)
      have hhi' : swap16 (btdataoff + 2 * i) m (btdataoff + 2 * i + 1) = mem (btdataoff + 2 * i + 1) := by
        rw [swap16, reverse, if_pos (by rw [Span.has_mk]; omega), ← hlo, Span.mirror_mk]
        exact congrArg m (by omega)
      have hflag : swap16 (btdataoff + 2 * i) m (linpOf be mem i + 8) = mem (linpOf be mem i + 8) := by
        rw [swap16, reverse, if_neg (by rw [Span.has_mk]; omega)]
        exact hflags i (le_refl i) hi
      rw [show linpOf be (swap16 (btdataoff + 2 * i) m) i = linpOf be mem i from get16_congr hlo' hhi', swapItem_eq, codeWords_congr hflag]
      rfl
    have hkept : ∀ x, (∀ w ∈ codeWords leaf mem (linpOf be mem i), ¬w.Has x) → ¬(btdataoff + 2 * i ≤ x ∧ x < btdataoff + 2 * i + 2) →
        reverseAll (⟨btdataoff + 2 * i, 2⟩ :: codeWords leaf mem (linpOf be mem i)) m x = m x := fun x hx hx' =>
      Span.reverseAll_of_not_has fun w hw => (List.mem_cons.1 hw).elim (fun hw => by rw [hw]; exact hx') (hx w)
    rw [inLoop, hstep, List.range'_succ, List.flatMap_cons]
    refine (ih (show i + 1 + cnt = nextIndex be mem by omega) (fun j hij hj => ?_) fun j hij hj => ?_).trans Span.reverseAll_append.symm
    · have hlow := hp.linp_lt hj
      have hlo := hkept (btdataoff + 2 * j) (hp.codeWords_low hi (by omega)) (by omega)
      have hhi := hkept (btdataoff + 2 * j + 1) (hp.codeWords_low hi (by omega)) (by omega)
      rw [hlo, hhi]
      exact hlinp j (by omega) hj
    · have hsize := le_itemSize be leaf mem (linpOf be mem j)
      have hin := hp.inside j hj
      have hne : i ≠ j := by omega
      rw [hkept (linpOf be mem j + 8) (hp.codeWords_other hi hj hne (by omega) (by omega)) (by omega)]
      exact hflags j (by omega) hj

theorem words_range (hp : PageOk be leaf psize mem) (hi : i < nextIndex be mem) :
    ∀ w ∈ (⟨btdataoff + 2 * i, 2⟩ :: itemWords be leaf mem (linpOf be mem i) : List Span), btdataoff ≤ w.start ∧
      (w.start = btdataoff + 2 * i ∧ w.width = 2 ∨ linpOf be mem i ≤ w.start ∧
        w.start + w.width ≤ linpOf be mem i + itemSize be leaf mem (linpOf be mem i) ∧ ¬w.Has (linpOf be mem i + 8)) := fun w hw => by
  have hlow := hp.linp_lt hi
  have hin := hp.inside i hi
  rcases List.mem_cons.1 hw with rfl | hw
  · exact ⟨Nat.le_add_right _ _, Or.inl ⟨rfl, rfl⟩⟩
  · have hrange := (itemWords_range (hp.bigkey i hi) fun hl => hp.bigdata hl i hi).1 w hw
    exact ⟨by omega, Or.inr hrange⟩

theorem itemsWords_apart (hp : PageOk be leaf psize mem) : (itemsWords be leaf mem (nextIndex be mem)).Pairwise Span.Apart := by
  unfold itemsWords
  refine List.pairwise_flatMap.2 ⟨fun i hi => ?_, List.Pairwise.imp_of_mem ?_ (List.nodup_range (n := nextIndex be mem))⟩
  · replace hi := List.mem_range.1 hi
    have hlow := hp.linp_lt hi
    have hin := hp.inside i hi
    have hwords := itemWords_range (hp.bigkey i hi) fun hl => hp.bigdata hl i hi
    refine List.pairwise_cons.2 ⟨fun w hw => ?_, hwords.2⟩
    have hrange := hwords.1 w hw
    unfold Span.Apart
    dsimp only
    omega
  · intro i j hi hj hij v hv w hw
    replace hi := List.mem_range.1 hi
    replace hj := List.mem_range.1 hj
    have hilow := hp.linp_lt hi
    have hjlow := hp.linp_lt hj
    have hiin := hp.inside i hi
    have hjin := hp.inside j hj
    have hapart := hp.apart i hi j hj hij
    have hv := hp.words_range hi v hv
    have hw := hp.words_range hj w hw
    unfold Span.Apart
    omega

theorem pageWords_apart (hp : PageOk be leaf psize mem) : (pageWords be leaf mem (nextIndex be mem)).Pairwise Span.Apart := by
  refine List.pairwise_append.2 ⟨by decide, hp.itemsWords_apart, fun v hv w hw => Or.inl ?_⟩
  obtain ⟨i, hi, hw⟩ := List.mem_flatMap.1 hw
  have hstart := (hp.words_range (List.mem_range.1 hi) w hw).1
  have hend : ∀ v ∈ headerWords, v.start + v.width ≤ btdataoff := by decide
  exact (hend v hv).trans hstart

end PageOk

def KeysOfFour (be leaf : Bool) (mem : Nat → UInt8) : Prop :=
  leaf = true → ∀ i < nextIndex be mem, mem (linpOf be mem i + 8) &&& pBigdata ≠ 0 → mem (linpOf be mem i + 8) &&& pBigkey = 0 →
    get32 be mem (linpOf be mem i) = 4

theorem codeWords_eq (hbigkey : mem (off + 8) &&& pBigkey ≠ 0 → get32 be mem off = novflsize)
    (hfour : leaf = true → mem (off + 8) &&& pBigdata ≠ 0 → mem (off + 8) &&& pBigkey = 0 → get32 be mem off = 4) :
    codeWords leaf mem off = itemWords be leaf mem off := by
  unfold codeWords itemWords
  by_cases hdata : leaf = true ∧ mem (off + 8) &&& pBigdata ≠ 0
  · rcases eq_or_ne (mem (off + 8) &&& pBigkey) 0 with hkey | hkey
    · rw [if_pos hdata, if_pos hdata, if_neg (not_not.2 hkey), if_neg (not_not.2 hkey), hfour hdata.1 hdata.2 hkey]
    · rw [if_pos hdata, if_pos hdata, if_pos hkey, if_pos hkey, hbigkey hkey, novflsize]
  · rw [if_neg hdata, if_neg hdata]

namespace PageOk

theorem codeWords_eq (hp : PageOk be leaf psize mem) (hfour : KeysOfFour be leaf mem) (hi : i < nextIndex be mem) :
    codeWords leaf mem (linpOf be mem i) = itemWords be leaf mem (linpOf be mem i) :=
  Btree.codeWords_eq (hp.bigkey i hi) fun hl => hfour hl i hi

theorem btPgout_eq (hp : PageOk be leaf psize mem) :
    btPgout be mem = reverseAll (((List.range (nextIndex be mem)).flatMap fun i =>
      codeWords leaf mem (linpOf be mem i) ++ [⟨btdataoff + 2 * i, 2⟩]) ++ headerWords) mem := by
  have hloop := hp.outLoop_eq (m := mem) (Nat.zero_add _) (fun j _ _ => ⟨rfl, rfl⟩) fun j _ _ => rfl
  rw [btPgout, hp.type]
  dsimp only
  rw [hloop, swapHeader_eq, ← Span.reverseAll_append, List.range_eq_range']

theorem btPgout_image (hp : PageOk be leaf psize mem) (hfour : KeysOfFour be leaf mem) : btPgout be mem = image be leaf mem := by
  rw [hp.btPgout_eq, image]
  refine Span.reverseAll_perm hp.pageWords_apart (List.perm_append_comm.trans (List.Perm.append_left _ ?_))
  refine List.Perm.flatMap_left _ fun i hi => ?_
  rw [hp.codeWords_eq hfour (List.mem_range.1 hi)]
  exact List.perm_append_singleton _ _

theorem swapHeader_image (hp : PageOk be leaf psize mem) :
    swapHeader (image be leaf mem) = reverseAll (itemsWords be leaf mem (nextIndex be mem)) mem := by
  have hheader : headerWords.Pairwise Span.Apart := by decide
  have himage : image be leaf mem = reverseAll headerWords (reverseAll (itemsWords be leaf mem (nextIndex be mem)) mem) := by
    rw [image, ← Span.reverseAll_append]
    exact (Span.reverseAll_perm hp.pageWords_apart List.perm_append_comm).symm
  rw [swapHeader_eq, himage, Span.reverseAll_reverseAll hheader]

theorem btPgin_image (hp : PageOk be leaf psize mem) (hfour : KeysOfFour be leaf mem) : btPgin be (image be leaf mem) = mem := by
  have hkept : ∀ x < btdataoff, reverseAll (itemsWords be leaf mem (nextIndex be mem)) mem x = mem x := fun x hx =>
    Span.reverseAll_of_not_has fun w hw hhas => by
      obtain ⟨i, hi, hw⟩ := List.mem_flatMap.1 hw
      have hstart := (hp.words_range (List.mem_range.1 hi) w hw).1
      exact absurd (hstart.trans hhas.1) (by omega)
  have htype : pageType be (reverseAll (itemsWords be leaf mem (nextIndex be mem)) mem) = some leaf :=
    (pageType_congr (get32_congr fun x _ hx => hkept x (hx.trans (by decide)))).trans hp.type
  have hnext : nextIndex be (reverseAll (itemsWords be leaf mem (nextIndex be mem)) mem) = nextIndex be mem :=
    nextIndex_congr (get16_congr (hkept 16 (by decide)) (hkept 17 (by decide)))
  have hword : ∀ j < nextIndex be mem, ∀ w ∈ (⟨btdataoff + 2 * j, 2⟩ :: itemWords be leaf mem (linpOf be mem j) : List Span),
      w ∈ itemsWords be leaf mem (nextIndex be mem) := fun j hj w hw =>
    List.mem_flatMap.2 ⟨j, List.mem_range.2 hj, hw⟩
  have hloop := hp.inLoop_eq (m := reverseAll (itemsWords be leaf mem (nextIndex be mem)) mem) (Nat.zero_add _)
    (fun j _ hj => ?_) fun j _ hj => ?_
  · rw [btPgin, hp.swapHeader_image, htype, hnext]
    dsimp only
    rw [hloop, ← List.range_eq_range']
    have hitems : ((List.range (nextIndex be mem)).flatMap fun j => ⟨btdataoff + 2 * j, 2⟩ :: codeWords leaf mem (linpOf be mem j)) =
        itemsWords be leaf mem (nextIndex be mem) :=
      List.flatMap_congr fun j hj => by rw [hp.codeWords_eq hfour (List.mem_range.1 hj)]
    rw [hitems, Span.reverseAll_reverseAll hp.itemsWords_apart]
  · have hlinp := hword j hj _ List.mem_cons_self
    rw [Span.reverseAll_of_has hp.itemsWords_apart hlinp ⟨by dsimp only; omega, by dsimp only; omega⟩,
      Span.reverseAll_of_has hp.itemsWords_apart hlinp ⟨by dsimp only; omega, by dsimp only; omega⟩, Span.mirror_mk, Span.mirror_mk]
    exact ⟨congrArg mem (by omega), congrArg mem (by omega)⟩
  · refine Span.reverseAll_of_not_has fun w hw hhas => ?_
    obtain ⟨i, hi, hw⟩ := List.mem_flatMap.1 hw
    replace hi := List.mem_range.1 hi
    have hrange := hp.words_range hi w hw
    have hilow := hp.linp_lt hi
    have hjin := hp.inside j hj
    have hsize := le_itemSize be leaf mem (linpOf be mem j)
    rcases eq_or_ne i j with rfl | hij
    · obtain ⟨-, ⟨hstart, hwidth⟩ | hw⟩ := hrange
      · unfold Span.Has at hhas
        omega
      · exact hw.2.2 hhas
    · have hapart := hp.apart i hi j hj hij
      unfold Span.Has at hhas
      omega

end PageOk

structure SameLayout (be : Bool) (mem mem' : Nat → UInt8) : Prop where
  low : ∀ x < get16 be mem 16, mem' x = mem x
  items : ∀ i < nextIndex be mem, ∀ x, linpOf be mem i ≤ x → x < linpOf be mem i + 9 → mem' x = mem x

namespace SameLayout

variable (h : SameLayout be mem mem') (hp : PageOk be leaf psize mem)

include h hp

theorem type : pageType be mem' = pageType be mem := by
  have hlower : 20 ≤ get16 be mem 16 := hp.lower
  exact pageType_congr (get32_congr fun x _ hx => h.low x (by omega))

theorem lower : get16 be mem' 16 = get16 be mem 16 := by
  have hlower : 20 ≤ get16 be mem 16 := hp.lower
  exact get16_congr (h.low 16 (by omega)) (h.low 17 (by omega))

theorem nextIndex : Btree.nextIndex be mem' = Btree.nextIndex be mem := nextIndex_congr (h.lower hp)

theorem linpOf (hi : i < Btree.nextIndex be mem) : Btree.linpOf be mem' i = Btree.linpOf be mem i := by
  have hlow := hp.linp_lt hi
  exact get16_congr (h.low _ (by omega)) (h.low _ (by omega))

omit hp in
theorem ksize (hi : i < Btree.nextIndex be mem) : get32 be mem' (Btree.linpOf be mem i) = get32 be mem (Btree.linpOf be mem i) :=
  get32_congr fun x hlo hhi => h.items i hi x hlo (by omega)

omit hp in
theorem dsize (hi : i < Btree.nextIndex be mem) : get32 be mem' (Btree.linpOf be mem i + 4) = get32 be mem (Btree.linpOf be mem i + 4) :=
  get32_congr fun x hlo hhi => h.items i hi x (by omega) (by omega)

omit hp in
theorem flags (hi : i < Btree.nextIndex be mem) : mem' (Btree.linpOf be mem i + 8) = mem (Btree.linpOf be mem i + 8) :=
  h.items i hi _ (by omega) (by omega)

omit hp in
theorem itemSize (hi : i < Btree.nextIndex be mem) :
    Btree.itemSize be leaf mem' (Btree.linpOf be mem i) = Btree.itemSize be leaf mem (Btree.linpOf be mem i) := by
  unfold Btree.itemSize size
  rw [h.ksize hi, h.dsize hi]

theorem pageOk : PageOk be leaf psize mem' where
  type := (h.type hp).trans hp.type
  lower := (h.lower hp).symm ▸ hp.lower
  inside i hi := by
    rw [h.nextIndex hp] at hi
    rw [h.lower hp, h.linpOf hp hi, h.itemSize hi]
    exact hp.inside i hi
  apart i hi j hj hij := by
    rw [h.nextIndex hp] at hi hj
    rw [h.linpOf hp hi, h.linpOf hp hj, h.itemSize hi, h.itemSize hj]
    exact hp.apart i hi j hj hij
  bigkey i hi := by
    rw [h.nextIndex hp] at hi
    rw [h.linpOf hp hi, h.flags hi, h.ksize hi]
    exact hp.bigkey i hi
  bigdata hl i hi := by
    rw [h.nextIndex hp] at hi
    rw [h.linpOf hp hi, h.flags hi, h.dsize hi]
    exact hp.bigdata hl i hi

theorem keysOfFour (hfour : KeysOfFour be leaf mem) : KeysOfFour be leaf mem' := fun hl i hi => by
  rw [h.nextIndex hp] at hi
  rw [h.linpOf hp hi, h.flags hi, h.ksize hi]
  exact hfour hl i hi

end SameLayout

theorem PageOk.exists_missed (hp : PageOk be true psize mem) (hi : i < nextIndex be mem)
    (hdata : mem (linpOf be mem i + 8) &&& pBigdata ≠ 0) (hkey : mem (linpOf be mem i + 8) &&& pBigkey = 0)
    (hfour : get32 be mem (linpOf be mem i) ≠ 4) :
    ∃ x, ∃ w ∈ itemWords be true mem (linpOf be mem i), w.Has x ∧ linpOf be mem i + 9 ≤ x ∧
      x < linpOf be mem i + itemSize be true mem (linpOf be mem i) ∧ w.mirror x ≠ x ∧
      ∀ v ∈ codeWords true mem (linpOf be mem i), ¬v.Has x := by
  have hds := hp.bigdata rfl i hi hdata
  have hsize := itemSize_leaf be mem (linpOf be mem i)
  rw [hds, novflsize] at hsize
  unfold itemWords codeWords
  rcases Nat.lt_or_ge (get32 be mem (linpOf be mem i)) 4 with hlt | hge
  · refine ⟨linpOf be mem i + 9 + get32 be mem (linpOf be mem i), ⟨linpOf be mem i + 9 + get32 be mem (linpOf be mem i), 4⟩, ?_⟩
    simp [hdata, hkey, Span.has_mk, Span.mirror_mk]
    omega
  · refine ⟨linpOf be mem i + 16 + get32 be mem (linpOf be mem i), ⟨linpOf be mem i + 13 + get32 be mem (linpOf be mem i), 4⟩, ?_⟩
    simp [hdata, hkey, Span.has_mk, Span.mirror_mk]
    omega

/-- The pages with a layout are converted and come back exactly when data on overflow pages is behind a key of 4 bytes or a
reference. -/
theorem btPgout_btPgin_iff (hp : PageOk be leaf psize mem) :
    (∀ mem', SameLayout be mem mem' → btPgout be mem' = image be leaf mem' ∧ btPgin be (image be leaf mem') = mem') ↔
      KeysOfFour be leaf mem := by
  refine ⟨fun h hl i hi hdata hkey => ?_, fun hfour mem' hlayout => ?_⟩
  · subst hl
    by_contra hfour
    obtain ⟨x, w, hw, hx, hlo, hhi, hne, hcode⟩ := hp.exists_missed hi hdata hkey hfour
    have hin := hp.inside i hi
    have hlower : 20 ≤ get16 be mem 16 := hp.lower
    -- another byte at the place that the code forgets
    have hlayout : SameLayout be mem (update mem x (mem (w.mirror x) + 1)) := by
      refine ⟨fun y hy => Function.update_of_ne (by omega) _ _, fun j hj y hylo hyhi => Function.update_of_ne (fun hyx => ?_) _ _⟩
      have hsize := le_itemSize be true mem (linpOf be mem j)
      rcases eq_or_ne i j with rfl | hij
      · omega
      · have hapart := hp.apart i hi j hj hij
        omega
    have hp' := hlayout.pageOk hp
    have hlinp' := hlayout.linpOf hp hi
    have hflags' := hlayout.flags hi
    have hout : btPgout be (update mem x (mem (w.mirror x) + 1)) x = update mem x (mem (w.mirror x) + 1) x := by
      rw [hp'.btPgout_eq]
      refine Span.reverseAll_of_not_has fun v hv hhas => ?_
      rcases List.mem_append.1 hv with hv | hv
      · obtain ⟨j, hj, hv⟩ := List.mem_flatMap.1 hv
        replace hj : j < nextIndex be mem := hlayout.nextIndex hp ▸ List.mem_range.1 hj
        have hjlow := hp.linp_lt hj
        rw [hlayout.linpOf hp hj, codeWords_congr (hlayout.flags hj)] at hv
        rcases List.mem_append.1 hv with hv | hv
        · rcases eq_or_ne j i with rfl | hji
          · exact hcode v hv hhas
          · exact hp.codeWords_other hj hi hji (by omega) hhi v hv hhas
        · rw [List.mem_singleton.1 hv, Span.has_mk] at hhas
          omega
      · have hend : ∀ v ∈ headerWords, v.start + v.width ≤ 20 := by decide
        have hvend := hend v hv
        unfold Span.Has at hhas
        omega
    have himage : image be true (update mem x (mem (w.mirror x) + 1)) x = update mem x (mem (w.mirror x) + 1) (w.mirror x) := by
      refine Span.reverseAll_of_has hp'.pageWords_apart (List.mem_append_right _ (List.mem_flatMap.2 ⟨i, ?_, List.mem_cons_of_mem _ ?_⟩)) hx
      · exact List.mem_range.2 ((hlayout.nextIndex hp).symm ▸ hi)
      · rw [hlinp']
        unfold itemWords
        rw [hflags', hlayout.ksize hi]
        exact hw
    rw [(h _ hlayout).1, himage, Function.update_of_ne hne, Function.update_self] at hout
    exact absurd hout (by simp)
  · exact ⟨(hlayout.pageOk hp).btPgout_image (hlayout.keysOfFour hp hfour), (hlayout.pageOk hp).btPgin_image (hlayout.keysOfFour hp hfour)⟩

def bigdataLeaf (key : List UInt8) (x : Nat) : UInt8 :=
  ([1, 0, 0, 0, 0, 0, 0, 0, 0, 0, 0, 0, 2, 0, 0, 0, 22, 0, 40, 0, 40, 0, 0, 0, 0, 0, 0, 0, 0, 0, 0, 0, 0, 0, 0, 0, 0, 0, 0, 0,
    UInt8.ofNat key.length, 0, 0, 0, 8, 0, 0, 0, 1] ++ key ++ [7, 0, 0, 0, 232, 3, 0, 0]).getD x 0

theorem bigdataLeaf_ok : ∀ key ∈ [[97, 98, 99, 100], [97, 98, 99, 100, 101]], PageOk false true 64 (bigdataLeaf key) := fun key hkey => by
  rcases List.mem_pair.1 hkey with rfl | rfl
  · exact ⟨by decide, by decide, by decide, by decide, by decide, by decide⟩
  · exact ⟨by decide, by decide, by decide, by decide, by decide, by decide⟩

theorem btPgout_btPgin_iff_four : PageOk false true 64 (bigdataLeaf [97, 98, 99, 100]) ∧
    ((∀ mem', SameLayout false (bigdataLeaf [97, 98, 99, 100]) mem' →
      btPgout false mem' = image false true mem' ∧ btPgin false (image false true mem') = mem') ↔
        KeysOfFour false true (bigdataLeaf [97, 98, 99, 100])) :=
  ⟨bigdataLeaf_ok _ (by decide), btPgout_btPgin_iff (bigdataLeaf_ok _ (by decide))⟩

/-- With a key of 5 bytes the reference to the data is one byte behind the place where it is swapped. -/
theorem btPgout_not_image : ¬∀ (be leaf : Bool) (psize : Nat) (mem : Nat → UInt8), PageOk be leaf psize mem →
    btPgout be mem = image be leaf mem ∧ btPgin be (image be leaf mem) = mem := fun h => by
  have hpage := congrFun (h false true 64 (bigdataLeaf [97, 98, 99, 100, 101]) (bigdataLeaf_ok _ (by decide))).1 61
  exact absurd hpage (by decide)

end NetBSD.Btree
