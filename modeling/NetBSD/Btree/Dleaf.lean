import NetBSD.Btree.Tree

/-!
# The bytes of a leaf

A leaf as it lies in memory, with the indices at its start and the records packed at its end, and what `__bt_dleaf`
does to it. Offsets are `indx_t`s, which are cut to 16 bits where they are stored.
-/

namespace NetBSD.Btree

open Function (update)

variable {be : Bool} {psize index n i j : Nat} {mem : Nat → UInt8} {linp : Nat → Nat}

/-- A page: `lower`, `upper`, the index array and the bytes by their offsets. The array does not meet the records, as
`lower` is not above `upper`. -/
structure RawPage where
  lower : Nat
  upper : Nat
  linp : Nat → Nat
  mem : Nat → UInt8

def btdataoff : Nat := 20

def indx (n : Nat) : Nat := n % 65536

def get32 (be : Bool) (mem : Nat → UInt8) (a : Nat) : Nat :=
  if be then (mem a).toNat * 16777216 + (mem (a + 1)).toNat * 65536 + (mem (a + 2)).toNat * 256 + (mem (a + 3)).toNat
  else (mem (a + 3)).toNat * 16777216 + (mem (a + 2)).toNat * 65536 + (mem (a + 1)).toNat * 256 + (mem a).toNat

def pBigdata : UInt8 := 0x01

def pBigkey : UInt8 := 0x02

def size (be : Bool) (mem : Nat → UInt8) (a : Nat) : Nat := nbleafdbt (get32 be mem a) (get32 be mem (a + 4))

def nbleaf (be : Bool) (mem : Nat → UInt8) (a : Nat) : Nat :=
  (9 + get32 be mem a + get32 be mem (a + 4) + 3) % 4294967296 / 4 * 4

namespace RawPage

variable {h h' : RawPage}

def nextIndex (h : RawPage) : Nat := (h.lower - btdataoff) / 2

end RawPage

def memmove (dst src len : Nat) (mem : Nat → UInt8) : Nat → UInt8 := fun a =>
  if dst ≤ a ∧ a < dst + len then mem (a - dst + src) else mem a

def moved (offset nbytes a : Nat) : Nat := if a < offset then indx (a + nbytes) else a

def adjustBelow (offset nbytes : Nat) : Nat → Nat → (Nat → Nat) → Nat → Nat
  | 0, _, linp => linp
  | cnt + 1, ip, linp =>
    adjustBelow offset nbytes cnt (ip + 1) (if linp ip < offset then update linp ip (indx (linp ip + nbytes)) else linp)

def shiftDown (offset nbytes : Nat) : Nat → Nat → (Nat → Nat) → Nat → Nat
  | 0, _, linp => linp
  | cnt + 1, ip, linp =>
    shiftDown offset nbytes cnt (ip + 1) (update linp ip (if linp (ip + 1) < offset then indx (linp (ip + 1) + nbytes) else linp (ip + 1)))

/-- `__bt_dleaf`; `ovflDelete` says whether the chain whose reference is at an offset could be deleted. -/
def btDleaf (be : Bool) (ovflDelete : Nat → Bool) (h : RawPage) (index : Nat) : Option RawPage :=
  let bl := h.linp index
  let flags := h.mem (bl + 8)
  if flags &&& pBigkey ≠ 0 ∧ !ovflDelete (bl + 9) then none
  else if flags &&& pBigdata ≠ 0 ∧ !ovflDelete (bl + 9 + get32 be h.mem bl) then none
  else
    let nbytes := nbleaf be h.mem bl
    let offset := h.linp index
    -- `--cnt` before each step: one step less than there are indices from this one on
    let cnt := indx (h.nextIndex - index + 65535)
    some
      { lower := indx (h.lower + 65534)
        upper := indx (h.upper + nbytes)
        linp := shiftDown offset nbytes cnt index (adjustBelow offset nbytes index 0 h.linp)
        mem := memmove (h.upper + nbytes) h.upper (bl - h.upper) h.mem }

def total (be : Bool) (mem : Nat → UInt8) (linp : Nat → Nat) : Nat → Nat
  | 0 => 0
  | n + 1 => total be mem linp n + size be mem (linp n)

/-- The records lie between `upper` and the end of the page without gaps or overlaps: each is in there, no two meet,
and together they take all of it. The `upper` of an empty page of 65536 bytes is 0. -/
structure RawPage.Packed (be : Bool) (psize : Nat) (h : RawPage) : Prop where
  lower : h.lower = btdataoff + 2 * h.nextIndex
  room : h.lower + total be h.mem h.linp h.nextIndex ≤ psize
  upper : h.upper = indx (psize - total be h.mem h.linp h.nextIndex)
  inside : ∀ i < h.nextIndex, psize - total be h.mem h.linp h.nextIndex ≤ h.linp i ∧ h.linp i + size be h.mem (h.linp i) ≤ psize
  apart : ∀ i < h.nextIndex, ∀ j < h.nextIndex, i ≠ j →
    h.linp i + size be h.mem (h.linp i) ≤ h.linp j ∨ h.linp j + size be h.mem (h.linp j) ≤ h.linp i

def RawPage.entry (be : Bool) (h : RawPage) (i : Nat) : List UInt8 :=
  (List.range (size be h.mem (h.linp i))).map fun k => h.mem (h.linp i + k)

def RawPage.entries (be : Bool) (h : RawPage) : List (List UInt8) := (List.range h.nextIndex).map (h.entry be)

def RawPage.free (h : RawPage) : Nat := indx (h.upper + 65536 - h.lower)

theorem adjustBelow_apply (offset nbytes cnt ip : Nat) (linp : Nat → Nat) (j : Nat) :
    adjustBelow offset nbytes cnt ip linp j = if ip ≤ j ∧ j < ip + cnt then moved offset nbytes (linp j) else linp j := by
  induction cnt generalizing ip linp with
  | zero => rw [adjustBelow, if_neg (by omega)]
  | succ cnt ih =>
    rw [adjustBelow, ih]
    have hval : (if linp ip < offset then update linp ip (indx (linp ip + nbytes)) else linp) =
        update linp ip (moved offset nbytes (linp ip)) := by
      unfold moved
      split
      · rfl
      · rw [Function.update_eq_self]
    rw [hval]
    rcases Nat.lt_trichotomy j ip with hlt | rfl | hgt
    · rw [if_neg (by omega), if_neg (by omega), Function.update_of_ne hlt.ne]
    · rw [if_neg (by omega), if_pos (by omega), Function.update_self]
    · rw [Function.update_of_ne hgt.ne']
      split_ifs <;> first | rfl | omega

theorem shiftDown_apply (offset nbytes cnt ip : Nat) (linp : Nat → Nat) (j : Nat) :
    shiftDown offset nbytes cnt ip linp j = if ip ≤ j ∧ j < ip + cnt then moved offset nbytes (linp (j + 1)) else linp j := by
  induction cnt generalizing ip linp with
  | zero => rw [shiftDown, if_neg (by omega)]
  | succ cnt ih =>
    rw [shiftDown, ih]
    show (if ip + 1 ≤ j ∧ j < ip + 1 + cnt then moved offset nbytes (update linp ip (moved offset nbytes (linp (ip + 1))) (j + 1))
      else update linp ip (moved offset nbytes (linp (ip + 1))) j) = _
    rcases Nat.lt_trichotomy j ip with hlt | rfl | hgt
    · rw [if_neg (by omega), if_neg (by omega), Function.update_of_ne hlt.ne]
    · rw [if_neg (by omega), if_pos (by omega), Function.update_self]
    · rw [Function.update_of_ne (show j + 1 ≠ ip by omega), Function.update_of_ne hgt.ne']
      split_ifs <;> first | rfl | omega

theorem size_congr {mem' : Nat → UInt8} {a b : Nat} (h : ∀ k < 8, mem' (b + k) = mem (a + k)) : size be mem' b = size be mem a := by
  have hget : ∀ k, k + 3 < 8 → get32 be mem' (b + k) = get32 be mem (a + k) := fun k hk => by
    simp only [get32, Nat.add_assoc]
    rw [h k (by omega), h (k + 1) (by omega), h (k + 2) (by omega), h (k + 3) (by omega)]
  have h0 := hget 0 (by decide)
  rw [Nat.add_zero, Nat.add_zero] at h0
  rw [size, size, h0, hget 4 (by decide)]

theorem le_size (be : Bool) (mem : Nat → UInt8) (a : Nat) : 12 ≤ size be mem a := by
  rw [size, nbleafdbt, lalign]
  omega

theorem nbleaf_eq {a : Nat} (h : size be mem a ≤ 65536) : nbleaf be mem a = size be mem a := by
  rw [size, nbleafdbt, lalign] at h ⊢
  rw [nbleaf, Nat.mod_eq_of_lt (by omega)]

theorem total_erase {mem' : Nat → UInt8} {linp' : Nat → Nat} (hindex : index ≤ n)
    (hsize : ∀ j < n, size be mem' (linp' j) = size be mem (linp (if j < index then j else j + 1))) :
    total be mem' linp' n + size be mem (linp index) = total be mem linp (n + 1) := by
  induction n with
  | zero =>
    obtain rfl := Nat.le_zero.1 hindex
    simp [total]
  | succ n ih =>
    have hlast := hsize n (Nat.lt_succ_self n)
    rcases Nat.lt_or_eq_of_le hindex with hlt | rfl
    · have hrest := ih (Nat.le_of_lt_succ hlt) fun j hj => hsize j (Nat.lt_succ_of_lt hj)
      rw [if_neg (by omega)] at hlast
      rw [total, hlast, total, ← hrest]
      omega
    · have hsame : ∀ m ≤ n + 1, total be mem' linp' m = total be mem linp m := by
        intro m hm
        induction m with
        | zero => rfl
        | succ m ihm => rw [total, total, ihm (by omega), hsize m hm, if_pos (show m < n + 1 from hm)]
      rw [hsame (n + 1) (le_refl _)]
      rfl

theorem moved_cases {a b size size' : Nat} (happart : b + size' ≤ a ∨ a + size ≤ b) (hpos : 0 < size) (hpos' : 0 < size')
    (hend : a + size ≤ 65536) : (b + size' ≤ a ∧ moved a size b = b + size) ∨ (a + size ≤ b ∧ moved a size b = b) := by
  unfold moved indx
  rcases happart with h | h
  · rw [if_pos (by omega), Nat.mod_eq_of_lt (by omega)]
    exact .inl ⟨h, rfl⟩
  · rw [if_neg (by omega)]
    exact .inr ⟨h, rfl⟩

/-- **Deletion from a leaf**: a page whose records are packed stays so, it has the other records in their order, and the
record's bytes and its index become free. -/
theorem btDleaf_spec {h : RawPage} (ovflDelete : Nat → Bool) (hpacked : h.Packed be psize) (hpsize : psize ≤ 65536)
    (hindex : index < h.nextIndex) (hkey : h.mem (h.linp index + 8) &&& pBigkey = 0) (hdata : h.mem (h.linp index + 8) &&& pBigdata = 0) :
    ∃ h', btDleaf be ovflDelete h index = some h' ∧ h'.Packed be psize ∧ h'.entries be = (h.entries be).eraseIdx index ∧
      h'.free = indx (h.free + size be h.mem (h.linp index) + 2) := by
  obtain ⟨hlower, hroom, hupper, hinside, happart⟩ := hpacked
  obtain ⟨n, hn⟩ : ∃ n, h.nextIndex = n + 1 := ⟨h.nextIndex - 1, by omega⟩
  rw [hn] at hlower hroom hupper hinside happart hindex
  have hpos := fun a => le_size be h.mem a
  generalize hu : psize - total be h.mem h.linp (n + 1) = u at hupper hinside
  generalize ha : h.linp index = a at hkey hdata
  have hin := hinside index hindex
  rw [ha] at hin
  have hnbleaf := nbleaf_eq (show size be h.mem a ≤ 65536 by omega)
  have ha12 := hpos a
  generalize hs : size be h.mem a = s at hin hnbleaf ha12
  have hupper' : h.upper = u := by rw [hupper, indx, Nat.mod_eq_of_lt (by omega)]
  unfold btdataoff at hlower
  have hcnt : indx (h.nextIndex - index + 65535) = n - index := by
    rw [hn, indx]
    omega
  -- each other record, before and after
  have hmoved : ∀ i < n + 1, i ≠ index → (h.linp i + size be h.mem (h.linp i) ≤ a ∧ moved a s (h.linp i) = h.linp i + s) ∨
      (a + s ≤ h.linp i ∧ moved a s (h.linp i) = h.linp i) := fun i hi hne => by
    have hi' := happart i hi index hindex hne
    rw [ha, hs] at hi'
    exact moved_cases hi' (by omega) (Nat.lt_of_lt_of_le (by decide) (hpos _)) (by omega)
  have hmem : ∀ i < n + 1, i ≠ index → ∀ k < size be h.mem (h.linp i),
      memmove (u + s) u (a - u) h.mem (moved a s (h.linp i) + k) = h.mem (h.linp i + k) := fun i hi hne k hk => by
    have hi' := hinside i hi
    unfold memmove
    rcases hmoved i hi hne with ⟨hbelow, heq⟩ | ⟨habove, heq⟩
    · rw [heq, if_pos (by omega)]
      exact congrArg h.mem (by omega)
    · rw [heq, if_neg (by omega)]
  have hsize : ∀ i < n + 1, i ≠ index → size be (memmove (u + s) u (a - u) h.mem) (moved a s (h.linp i)) = size be h.mem (h.linp i) :=
    fun i hi hne => size_congr fun k hk => hmem i hi hne k (Nat.lt_of_lt_of_le hk (le_trans (by decide) (hpos _)))
  -- the indices afterwards
  have hold : ∀ j < n, (if j < index then j else j + 1) < n + 1 ∧ (if j < index then j else j + 1) ≠ index := fun j hj => by
    split <;> omega
  have hlinp : ∀ j < n, shiftDown a s (n - index) index (adjustBelow a s index 0 h.linp) j =
      moved a s (h.linp (if j < index then j else j + 1)) := fun j hj => by
    rw [shiftDown_apply, adjustBelow_apply, adjustBelow_apply]
    split_ifs <;> first | rfl | omega
  have hdelete : btDleaf be ovflDelete h index = some ⟨indx (h.lower + 65534), indx (u + s),
      shiftDown a s (n - index) index (adjustBelow a s index 0 h.linp), memmove (u + s) u (a - u) h.mem⟩ := by
    unfold btDleaf
    dsimp only
    rw [ha, if_neg (fun h => h.1 hkey), if_neg (fun h => h.1 hdata), hnbleaf, hcnt, hupper']
  have hlow : indx (h.lower + 65534) = h.lower - 2 := by
    rw [indx]
    omega
  have htotal : total be (memmove (u + s) u (a - u) h.mem) (shiftDown a s (n - index) index (adjustBelow a s index 0 h.linp)) n + s =
      total be h.mem h.linp (n + 1) := by
    rw [← hs, ← ha]
    refine total_erase (Nat.le_of_lt_succ hindex) fun j hj => ?_
    rw [ha, hs, hlinp j hj]
    exact hsize _ (hold j hj).1 (hold j hj).2
  rw [hlow] at hdelete
  generalize shiftDown a s (n - index) index (adjustBelow a s index 0 h.linp) = linp' at hdelete hlinp htotal
  generalize memmove (u + s) u (a - u) h.mem = mem' at hdelete hmem hsize htotal
  have hnext : (⟨h.lower - 2, indx (u + s), linp', mem'⟩ : RawPage).nextIndex = n := by
    show (h.lower - 2 - 20) / 2 = n
    omega
  refine ⟨_, hdelete, ⟨?_, ?_, ?_, ?_, ?_⟩, ?_, ?_⟩
  · rw [hnext]
    show h.lower - 2 = 20 + 2 * n
    omega
  · rw [hnext]
    dsimp only
    omega
  · rw [hnext]
    have hend : u + s = psize - total be mem' linp' n := by omega
    exact congrArg indx hend
  · rw [hnext]
    intro i hi
    dsimp only
    rw [hlinp i hi, hsize _ (hold i hi).1 (hold i hi).2]
    have hi' := hinside _ (hold i hi).1
    rcases hmoved _ (hold i hi).1 (hold i hi).2 with ⟨hbelow, heq⟩ | ⟨habove, heq⟩ <;> rw [heq] <;> omega
  · rw [hnext]
    intro i hi j hj hij
    dsimp only
    have hne : (if i < index then i else i + 1) ≠ if j < index then j else j + 1 := by
      split_ifs <;> omega
    rw [hlinp i hi, hlinp j hj, hsize _ (hold i hi).1 (hold i hi).2, hsize _ (hold j hj).1 (hold j hj).2]
    have hij' := happart _ (hold i hi).1 _ (hold j hj).1 hne
    rcases hmoved _ (hold i hi).1 (hold i hi).2 with ⟨hbelow, heq⟩ | ⟨habove, heq⟩ <;>
      rcases hmoved _ (hold j hj).1 (hold j hj).2 with ⟨hbelow', heq'⟩ | ⟨habove', heq'⟩ <;> rw [heq, heq'] <;> omega
  · have hentry : ∀ j < n, (⟨h.lower - 2, indx (u + s), linp', mem'⟩ : RawPage).entry be j = h.entry be (if j < index then j else j + 1) :=
      fun j hj => by
        unfold RawPage.entry
        dsimp only
        rw [hlinp j hj, hsize _ (hold j hj).1 (hold j hj).2]
        exact List.map_congr_left fun k hk => hmem _ (hold j hj).1 (hold j hj).2 k (List.mem_range.1 hk)
    refine List.ext_getElem ?_ fun j hj hj' => ?_
    · rw [RawPage.entries, RawPage.entries, List.length_eraseIdx_of_lt (by simpa [hn] using hindex)]
      simp [hnext, hn]
    · have hjn : j < n := by simpa [RawPage.entries, hnext] using hj
      simp only [RawPage.entries, List.getElem_map, List.getElem_range, List.getElem_eraseIdx]
      rw [hentry j hjn]
      split <;> rfl
  · show indx (indx (u + s) + 65536 - (h.lower - 2)) = indx (indx (h.upper + 65536 - h.lower) + s + 2)
    rw [hupper', indx, indx, indx, indx]
    omega

def twoRecords : RawPage where
  lower := 24
  upper := 24
  linp i := if i = 0 then 36 else 24
  mem a := if a = 24 ∨ a = 36 then 1 else if a = 33 then 7 else if a = 45 then 9 else 0

theorem twoRecords_packed : twoRecords.Packed false 48 where
  lower := by decide
  room := by decide
  upper := by decide
  inside := by decide
  apart := by decide

theorem btDleaf_spec_twoRecords : ∃ h', btDleaf false (fun _ => false) twoRecords 0 = some h' ∧ h'.Packed false 48 ∧
    h'.entries false = (twoRecords.entries false).eraseIdx 0 ∧
      h'.free = indx (twoRecords.free + size false twoRecords.mem (twoRecords.linp 0) + 2) :=
  btDleaf_spec (fun _ => false) twoRecords_packed (by decide) (by decide) (by decide) (by decide)

end NetBSD.Btree
