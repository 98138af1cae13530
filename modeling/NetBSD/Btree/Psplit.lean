import NetBSD.Btree.Split

/-!
# The split of a page

`bt_psplit` on the indices of a page: which items the left and the right page get, with a slot left open for a new
item. The bytes of a page are those of its items, copied down from its end.
-/

namespace NetBSD.Btree

variable {α : Type} [Item α] {full skip ilen fuel k n : Nat} {page : List α} {a b : List (Option α)}

def slotBytes (ilen : Nat) (s : Option α) : Nat := s.elim ilen Item.nbytes

def slotBig (s : Option α) : Bool := s.any fun item => (Item.key item).chain.isSome

def bytes (ilen : Nat) : List (Option α) → Nat
  | [] => 0
  | s :: rest => slotBytes ilen s + bytes ilen rest

def filled (ilen : Nat) (l : List (Option α)) : Nat := bytes ilen l + 2 * l.length

def slots (page : List α) (skip : Nat) : List (Option α) := (page.map some).insertIdx skip none

def firstLoop (full skip ilen : Nat) (page : List α) : Nat → Nat → Nat → Nat → Nat → List (Option α) → List (Option α) × Nat × Nat
  | 0, nxt, off, _, _, linp => (linp, off, nxt)
  | fuel + 1, nxt, off, used, bigkeycnt, linp =>
    match page[nxt]? with
    | none => (linp, off, nxt)
    | some item =>
      let nbytes := if skip = off then ilen else Item.nbytes item
      let isbigkey := if skip = off then false else (Item.key item).chain.isSome
      -- `--off`, which is not 0 unless the new item is as long as the page
      if skip ≤ off ∧ full ≤ used + nbytes then (linp, off - 1, nxt)
      else
        let linp := linp ++ [if skip = off then none else some item]
        let nxt := if skip = off then nxt else nxt + 1
        let used := used + nbytes
        if full / 2 ≤ used then
          if !isbigkey ∨ bigkeycnt = 3 then (linp, off, nxt)
          else firstLoop full skip ilen page fuel nxt (off + 1) used (bigkeycnt + 1) linp
        else firstLoop full skip ilen page fuel nxt (off + 1) used bigkeycnt linp

def secondLoop : List α → Nat → Nat → List (Option α)
  | [], nxt, skip => if skip = nxt then [none] else []
  | item :: rest, nxt, skip =>
    if skip = nxt then none :: some item :: secondLoop rest (nxt + 1) 0 else some item :: secondLoop rest (nxt + 1) skip

structure Halves (α : Type) where
  left : List (Option α)
  right : List (Option α)
  onLeft : Bool
  pskip : Nat
  deriving DecidableEq

def btPsplit (full skip ilen : Nat) (page : List α) : Halves α :=
  let (linp, off, nxt) := firstLoop full skip ilen page (page.length + 2) 0 0 0 0 []
  -- a slot that nothing was copied to is left open too
  let left := linp ++ List.replicate (off + 1 - linp.length) none
  if skip ≤ off then ⟨left, secondLoop (page.drop nxt) nxt 0, true, skip⟩
  else ⟨left, secondLoop (page.drop nxt) nxt skip, false, skip - nxt⟩

structure Parted (full skip ilen : Nat) (page : List α) (halves : Halves α) : Prop where
  slots : halves.left ++ halves.right = slots page skip
  hole : (if halves.onLeft then halves.left else halves.right)[halves.pskip]? = some none
  left : filled ilen halves.left ≤ full
  right : filled ilen halves.right ≤ full

def upTo (skip ilen : Nat) (page : List α) (k : Nat) : Nat := bytes ilen ((slots page skip).take k)

/-- The first `k` slots are half of the page, and the last of them is not a big key or the third after the half. -/
def StopsAfter (full skip ilen : Nat) (page : List α) (k : Nat) : Prop :=
  full / 2 ≤ upTo skip ilen page k ∧
    ((∃ s, (slots page skip)[k - 1]? = some s ∧ slotBig s = false) ∨ full / 2 ≤ upTo skip ilen page (k - 3))

def StopsBefore (full skip ilen : Nat) (page : List α) (k : Nat) : Prop :=
  skip ≤ k ∧ skip < page.length ∧ full ≤ upTo skip ilen page (k + 1)

def CutAt (full skip ilen : Nat) (page : List α) (k : Nat) : Prop :=
  (∀ j < k, ¬StopsAfter full skip ilen page j ∧ ¬StopsBefore full skip ilen page j) ∧
    (StopsAfter full skip ilen page k ∨ StopsBefore full skip ilen page k)

theorem bytes_append : bytes ilen (a ++ b) = bytes ilen a + bytes ilen b := by
  induction a with
  | nil => exact (Nat.zero_add _).symm
  | cons s a ih => rw [List.cons_append, bytes, bytes, ih, Nat.add_assoc]

theorem filled_append : filled ilen (a ++ b) = filled ilen a + filled ilen b := by
  rw [filled, filled, filled, bytes_append, List.length_append]
  omega

theorem filled_map_some (ilen : Nat) (page : List α) : filled ilen (page.map some) = used page := by
  induction page with
  | nil => rfl
  | cons item page ih =>
    rw [List.map_cons, ← List.singleton_append, filled_append, ih]
    rfl

omit [Item α] in
theorem slots_eq (hskip : skip ≤ page.length) : slots page skip = (page.take skip).map some ++ none :: (page.drop skip).map some := by
  have h := insertIdx_append ((page.take skip).map some) ((page.drop skip).map some) none 0
  rw [← List.map_append, List.take_append_drop, List.length_map, List.length_take, Nat.min_eq_left hskip] at h
  exact h

omit [Item α] in
theorem length_slots (hskip : skip ≤ page.length) : (slots page skip).length = page.length + 1 := by
  rw [slots, List.length_insertIdx_of_le_length (by rw [List.length_map]; exact hskip), List.length_map]

theorem filled_slots (hskip : skip ≤ page.length) : filled ilen (slots page skip) = used page + ilen + 2 := by
  have hpage := filled_map_some ilen page
  rw [← List.take_append_drop skip page, List.map_append, filled_append, List.take_append_drop] at hpage
  rw [slots_eq hskip, ← List.singleton_append, filled_append, filled_append, ← hpage]
  show _ + ((ilen + 0) + 2 * 1 + _) = _
  omega

omit [Item α] in
theorem slots_get (hskip : skip ≤ page.length) {item : α} (hitem : page[if skip < k then k - 1 else k]? = some item) :
    (slots page skip)[k]? = some (if skip = k then none else some item) := by
  have hlen : ((page.take skip).map some).length = skip := by simp [hskip]
  rw [slots_eq hskip]
  rcases Nat.lt_trichotomy k skip with hlt | rfl | hgt
  · rw [if_neg (by omega)] at hitem
    rw [if_neg (by omega), List.getElem?_append_left (by omega), List.getElem?_map, List.getElem?_take_of_lt hlt, hitem]
    rfl
  · rw [if_pos rfl, List.getElem?_append_right (by omega), hlen, Nat.sub_self]
    rfl
  · rw [if_pos hgt] at hitem
    obtain ⟨j, rfl⟩ : ∃ j, k = skip + 1 + j := ⟨k - skip - 1, by omega⟩
    rw [if_neg (by omega), List.getElem?_append_right (by omega), hlen, show skip + 1 + j - skip = j + 1 from by omega,
      List.getElem?_cons_succ, List.getElem?_map, List.getElem?_drop, show skip + j = skip + 1 + j - 1 from by omega, hitem]
    rfl

theorem upTo_succ {s : Option α} (hs : (slots page skip)[k]? = some s) :
    upTo skip ilen page (k + 1) = upTo skip ilen page k + slotBytes ilen s := by
  rw [upTo, upTo, List.take_add_one, hs, bytes_append]
  rfl

theorem upTo_mono {j : Nat} (hjk : j ≤ k) : upTo skip ilen page j ≤ upTo skip ilen page k := by
  have h : (slots page skip).take k = ((slots page skip).take k).take j ++ ((slots page skip).take k).drop j :=
    (List.take_append_drop _ _).symm
  rw [List.take_take, Nat.min_eq_left hjk] at h
  rw [upTo, upTo, h, bytes_append]
  exact Nat.le_add_right _ _

/-- How the first loop ends: with `m` slots on the left page, and `off` on the last of them or, when all items were
copied, behind it. -/
def Ends (full skip ilen : Nat) (page : List α) (r : List (Option α) × Nat × Nat) : Prop :=
  ∃ m, m ≤ page.length + 1 ∧ r.1 = (slots page skip).take m ∧ r.2.2 = (if skip < m then m - 1 else m) ∧
    (∀ j < m, ¬StopsAfter full skip ilen page j ∧ ¬StopsBefore full skip ilen page j) ∧
    ((r.2.2 = page.length ∧ ¬StopsAfter full skip ilen page m ∧ r.2.1 = m) ∨
      ((StopsAfter full skip ilen page m ∨ StopsBefore full skip ilen page m) ∧ r.2.1 = m - 1))

theorem firstLoop_ends (hskip : skip ≤ page.length) {bigkeycnt nxt : Nat} (hfuel : page.length + 2 ≤ fuel + k)
    (hk : k ≤ page.length + 1) (hnxt : nxt = if skip < k then k - 1 else k)
    (hbefore : ∀ j < k, ¬StopsAfter full skip ilen page j ∧ ¬StopsBefore full skip ilen page j) (hafter : ¬StopsAfter full skip ilen page k)
    (hcnt : ∀ i, 1 ≤ i → i ≤ 3 → (i ≤ bigkeycnt ↔ full / 2 ≤ upTo skip ilen page (k + 1 - i))) (hcnt3 : bigkeycnt ≤ 3) :
    Ends full skip ilen page
      (firstLoop full skip ilen page fuel nxt k (upTo skip ilen page k) bigkeycnt ((slots page skip).take k)) := by
  induction fuel generalizing k bigkeycnt nxt with
  | zero => omega
  | succ fuel ih =>
    unfold firstLoop
    split
    · next hnone =>
      have hlen := List.getElem?_eq_none_iff.1 hnone
      have heq : nxt = page.length := by
        split at hnxt <;> omega
      exact ⟨k, hk, rfl, hnxt, hbefore, .inl ⟨heq, hafter, rfl⟩⟩
    · next item hitem =>
      have hlt : nxt < page.length := (List.getElem?_eq_some_iff.1 hitem).1
      have hs := slots_get hskip (hnxt ▸ hitem)
      have hsucc : upTo skip ilen page (k + 1) = upTo skip ilen page k + if skip = k then ilen else Item.nbytes item := by
        rw [upTo_succ hs]
        split <;> rfl
      have htake : (slots page skip).take (k + 1) = (slots page skip).take k ++ [if skip = k then none else some item] := by
        rw [List.take_add_one, hs]
        rfl
      have hnxt' : (if skip = k then nxt else nxt + 1) = if skip < k + 1 then k + 1 - 1 else k + 1 := by
        split_ifs at hnxt ⊢ <;> omega
      have hbig : slotBig (if skip = k then none else some item) = if skip = k then false else (Item.key item).chain.isSome := by
        split <;> rfl
      dsimp only
      rw [← hsucc, ← htake, ← hbig]
      split
      · next hstop =>
        refine ⟨k, hk, rfl, hnxt, hbefore, .inr ⟨.inr ⟨hstop.1, ?_, hstop.2⟩, rfl⟩⟩
        have := hstop.1
        split at hnxt <;> omega
      · next hgo =>
        have hbefore' : ¬StopsAfter full skip ilen page (k + 1) →
            ∀ j < k + 1, ¬StopsAfter full skip ilen page j ∧ ¬StopsBefore full skip ilen page j := fun _ j hj => by
          rcases Nat.lt_succ_iff_lt_or_eq.1 hj with hj | rfl
          · exact hbefore j hj
          · exact ⟨hafter, fun h => hgo ⟨h.1, h.2.2⟩⟩
        have hk' : k + 1 ≤ page.length + 1 := by
          split at hnxt <;> omega
        have hmono : upTo skip ilen page k ≤ upTo skip ilen page (k + 1) := upTo_mono (Nat.le_succ k)
        by_cases hhalf : full / 2 ≤ upTo skip ilen page (k + 1)
        · rw [if_pos hhalf]
          by_cases hstop : (!slotBig (if skip = k then none else some item)) = true ∨ bigkeycnt = 3
          · rw [if_pos hstop]
            refine ⟨k + 1, hk', rfl, hnxt', fun j hj => ?_, .inr ⟨.inl ⟨hhalf, ?_⟩, rfl⟩⟩
            · rcases Nat.lt_succ_iff_lt_or_eq.1 hj with hj | rfl
              · exact hbefore j hj
              · exact ⟨hafter, fun h => hgo ⟨h.1, h.2.2⟩⟩
            · rcases hstop with hsmall | hthree
              · exact .inl ⟨_, hs, by simpa using hsmall⟩
              · exact .inr ((hcnt 3 (by decide) (le_refl 3)).1 hthree.ge)
          · rw [if_neg hstop]
            have hafter' : ¬StopsAfter full skip ilen page (k + 1) := by
              rintro ⟨-, ⟨s, hs', hsmall⟩ | hthree⟩
              · rw [Nat.add_sub_cancel, hs] at hs'
                cases hs'
                exact hstop (.inl (by simpa using hsmall))
              · exact hstop (.inr (le_antisymm hcnt3 ((hcnt 3 (by decide) (le_refl 3)).2 hthree)))
            refine ih (by omega) hk' hnxt' (hbefore' hafter') hafter' (fun i hi hi3 => ?_) ?_
            · rcases Nat.lt_or_eq_of_le hi with hi | rfl
              · rw [show k + 1 + 1 - i = k + 1 - (i - 1) from by omega, ← hcnt (i - 1) (by omega) (by omega)]
                omega
              · exact ⟨fun _ => hhalf, fun _ => Nat.le_add_left _ _⟩
            · have : bigkeycnt ≠ 3 := fun h => hstop (.inr h)
              omega
        · rw [if_neg hhalf]
          have hafter' : ¬StopsAfter full skip ilen page (k + 1) := fun h => hhalf h.1
          refine ih (by omega) hk' hnxt' (hbefore' hafter') hafter' (fun i hi hi3 => ?_) hcnt3
          have hle : upTo skip ilen page (k + 1 + 1 - i) ≤ upTo skip ilen page (k + 1) := upTo_mono (by omega)
          have hle' : upTo skip ilen page (k + 1 - i) ≤ upTo skip ilen page (k + 1) := upTo_mono (by omega)
          rw [hcnt i hi hi3]
          omega

omit [Item α] in
theorem secondLoop_left (items : List α) {nxt skip : Nat} (hlt : skip < nxt) : secondLoop items nxt skip = items.map some := by
  induction items generalizing nxt with
  | nil => rw [secondLoop, if_neg hlt.ne]; rfl
  | cons item items ih => rw [secondLoop, if_neg hlt.ne, ih (Nat.lt_succ_of_lt hlt)]; rfl

omit [Item α] in
theorem secondLoop_zero (items : List α) : (secondLoop (items.drop (1 - 1)) (1 - 1) 0).length = items.length + 1 := by
  cases items with
  | nil => rfl
  | cons item items =>
    show (none :: some item :: secondLoop items 1 0).length = _
    rw [secondLoop_left items Nat.one_pos]
    simp

omit [Item α] in
theorem secondLoop_right (items : List α) {nxt skip : Nat} (hle : nxt ≤ skip) (hskip : skip ≤ nxt + items.length) :
    secondLoop items nxt skip = (items.map some).insertIdx (skip - nxt) none := by
  induction items generalizing nxt with
  | nil =>
    obtain rfl : skip = nxt := le_antisymm hskip hle
    rw [secondLoop, if_pos rfl, Nat.sub_self]
    rfl
  | cons item items ih =>
    rw [secondLoop]
    split
    · next heq =>
      rw [secondLoop_left items (Nat.succ_pos nxt), heq, Nat.sub_self]
      rfl
    · next hne =>
      rw [ih (by omega) (by rw [List.length_cons] at hskip; omega), show skip - nxt = skip - (nxt + 1) + 1 from by omega]
      rfl

omit [Item α] in
theorem drop_slots_of_lt (hskip : skip ≤ page.length) (hlt : skip < k) : (slots page skip).drop k = (page.drop (k - 1)).map some := by
  have hlen : ((page.take skip).map some).length = skip := by simp [hskip]
  obtain ⟨j, rfl⟩ : ∃ j, k = skip + 1 + j := ⟨k - skip - 1, by omega⟩
  rw [slots_eq hskip, List.drop_append, List.drop_of_length_le (by omega), List.nil_append, hlen, show skip + 1 + j - skip = j + 1 from by omega, List.drop_succ_cons,
    ← List.map_drop, List.drop_drop, show skip + j = skip + 1 + j - 1 from by omega]

omit [Item α] in
theorem drop_slots_of_le (hskip : skip ≤ page.length) (hle : k ≤ skip) :
    (slots page skip).drop k = ((page.drop k).map some).insertIdx (skip - k) none := by
  have hlen : skip - k ≤ (page.drop k).length := by
    rw [List.length_drop]
    omega
  have hright := slots_eq hlen
  rw [slots] at hright
  have hk : k ≤ ((page.take skip).map some).length := by
    simp only [List.length_map, List.length_take]
    omega
  rw [hright, slots_eq hskip, List.drop_append_of_le_length hk, ← List.map_drop, List.drop_take, List.drop_drop, Nat.add_sub_cancel' hle]

theorem filled_of_none (ilen : Nat) {l : List (Option α)} (h : none ∈ l) : ilen + 2 ≤ filled ilen l := by
  obtain ⟨a, b, rfl⟩ := List.append_of_mem h
  rw [← List.singleton_append, filled_append, filled_append]
  show _ ≤ _ + ((ilen + 0) + 2 * 1 + _)
  omega

/-- **The split of a page**: the items and the slot are parted as they should be just when the page is cut behind the
first slots of which there are not all, and not only the slot for the new item, and when both parts have room. -/
theorem parted_btPsplit_iff (hfull : 2 ≤ full) (hskip : skip ≤ page.length) (hroom : full < used page + ilen + 2) :
    Parted full skip ilen page (btPsplit full skip ilen page) ↔
      ∃ k, 0 < k ∧ k ≤ page.length ∧ (k = 1 → skip ≠ 0) ∧ CutAt full skip ilen page k ∧
        filled ilen ((slots page skip).take k) ≤ full ∧ filled ilen ((slots page skip).drop k) ≤ full := by
  have hlen := length_slots hskip
  have hnone : none ∈ slots page skip := by
    rw [slots_eq hskip]
    simp
  have hall : full < filled ilen (slots page skip) := by rwa [filled_slots hskip]
  have hslot : (slots page skip)[skip]? = some none := by
    rw [slots_eq hskip, List.getElem?_append_right (by simp)]
    simp [hskip]
  by_cases hlong : full ≤ ilen
  · -- the new item has no room on any page
    have hno : ∀ a b : List (Option α), a ++ b = slots page skip → filled ilen a ≤ full → ¬filled ilen b ≤ full := by
      intro a b hab ha hb
      rcases List.mem_append.1 (hab ▸ hnone) with h | h
      · have := filled_of_none ilen h
        omega
      · have := filled_of_none ilen h
        omega
    constructor
    · rintro ⟨hslots, -, hleft, hright⟩
      exact absurd hright (hno _ _ hslots hleft)
    · rintro ⟨k, -, -, -, -, hleft, hright⟩
      exact absurd hright (hno _ _ (List.take_append_drop _ _) hleft)
  have hends : Ends full skip ilen page
      (firstLoop full skip ilen page (page.length + 2) 0 0 (upTo skip ilen page 0) 0 ((slots page skip).take 0)) :=
    firstLoop_ends hskip (le_refl _) (Nat.zero_le _) rfl (fun j hj => absurd hj (Nat.not_lt_zero j))
      (fun h => absurd h.1 (by show ¬full / 2 ≤ 0; omega))
      (fun i hi _ => by rw [show 0 + 1 - i = 0 from by omega]; show _ ↔ full / 2 ≤ 0; omega) (Nat.zero_le _)
  have hup : upTo skip ilen page 0 = 0 := rfl
  rw [hup, List.take_zero] at hends
  unfold btPsplit
  generalize firstLoop full skip ilen page (page.length + 2) 0 0 0 0 [] = r at hends
  obtain ⟨linp, off, nxt⟩ := r
  obtain ⟨m, hm, hlinp, hnxt, hbefore, hcase⟩ := hends
  dsimp only at hlinp hnxt hcase ⊢
  subst hlinp
  have hlinp : ((slots page skip).take m).length = m := by rw [List.length_take, hlen, Nat.min_eq_left hm]
  have hunique : ∀ k, CutAt full skip ilen page k → ¬k < m := fun k hk hlt => by
    obtain ⟨hafter, hbef⟩ := hbefore k hlt
    exact hk.2.elim hafter hbef
  rcases hcase with ⟨hend, hafter, rfl⟩ | ⟨hstops, rfl⟩
  · -- all items are on the left page
    constructor
    · rintro ⟨hslots, -, hleft, -⟩
      rw [hlinp, show off + 1 - off = 1 from by omega] at hslots hleft
      rw [if_pos (show skip ≤ off by split at hnxt <;> omega)] at hslots hleft
      dsimp only at hslots hleft
      have hlength := congrArg List.length hslots
      rw [List.length_append, List.length_append, hlinp, hlen, List.length_replicate] at hlength
      have hright : secondLoop (page.drop nxt) nxt 0 = [] := List.length_eq_zero_iff.1 (by split at hnxt <;> omega)
      rw [hright, List.append_nil] at hslots
      rw [hslots] at hleft
      omega
    · rintro ⟨k, hk0, hk, -, hcut, -, -⟩
      have hge := Nat.not_lt.1 (hunique k hcut)
      obtain rfl : k = off := by split at hnxt <;> omega
      rcases hcut.2 with h | h
      · exact absurd h hafter
      · have := h.2.1
        split at hnxt <;> omega
  · have hm0 : m ≠ 0 := by
      rintro rfl
      rcases hstops with h | h
      · have : full / 2 ≤ 0 := h.1
        omega
      · obtain rfl := Nat.le_zero.1 h.1
        have hfirst : full ≤ upTo 0 ilen page 0 + slotBytes ilen (none : Option α) := by
          rw [← upTo_succ hslot]
          exact h.2.2
        exact hlong (by rwa [hup, Nat.zero_add] at hfirst)
    have hpad : m - 1 + 1 - m = 0 := by omega
    rw [hlinp, hpad, List.replicate_zero, List.append_nil]
    have hcut : (∃ k, 0 < k ∧ k ≤ page.length ∧ (k = 1 → skip ≠ 0) ∧ CutAt full skip ilen page k ∧
          filled ilen ((slots page skip).take k) ≤ full ∧ filled ilen ((slots page skip).drop k) ≤ full) ↔
        (m = 1 → skip ≠ 0) ∧ filled ilen ((slots page skip).take m) ≤ full ∧ filled ilen ((slots page skip).drop m) ≤ full := by
      constructor
      · rintro ⟨k, -, -, hk1, hcut, hleft, hright⟩
        have hge := Nat.not_lt.1 (hunique k hcut)
        obtain rfl : k = m := by
          refine le_antisymm (Nat.not_lt.1 fun hlt => ?_) hge
          exact hstops.elim (hcut.1 m hlt).1 (hcut.1 m hlt).2
        exact ⟨hk1, hleft, hright⟩
      · rintro ⟨hm1, hleft, hright⟩
        refine ⟨m, Nat.pos_of_ne_zero hm0, Nat.not_lt.1 fun hlt => ?_, hm1, ⟨hbefore, hstops⟩, hleft, hright⟩
        rw [List.take_of_length_le (by omega)] at hleft
        omega
    rw [hcut]
    by_cases hlt : skip < m
    · rw [if_pos (by omega), hnxt, if_pos hlt]
      by_cases hm1 : m = 1 ∧ skip = 0
      · -- the second loop takes the index 0 for the slot once more
        obtain ⟨rfl, rfl⟩ := hm1
        refine ⟨fun h => ?_, fun h => absurd rfl (h.1 rfl)⟩
        have hlength := congrArg List.length h.slots
        rw [List.length_append, hlinp, hlen, secondLoop_zero] at hlength
        omega
      · have hright : secondLoop (page.drop (m - 1)) (m - 1) 0 = (slots page skip).drop m := by
          rw [secondLoop_left _ (by omega), drop_slots_of_lt hskip hlt]
        rw [hright]
        refine ⟨fun h => ⟨fun h1 h0 => hm1 ⟨h1, h0⟩, h.left, h.right⟩, fun h => ⟨List.take_append_drop _ _, ?_, h.2.1, h.2.2⟩⟩
        show ((slots page skip).take m)[skip]? = some none
        rw [List.getElem?_take_of_lt hlt, hslot]
    · rw [if_neg (by omega), hnxt, if_neg hlt]
      have hright : secondLoop (page.drop m) m skip = (slots page skip).drop m := by
        rw [secondLoop_right _ (by omega) (by rw [List.length_drop]; omega), drop_slots_of_le hskip (by omega)]
      rw [hright]
      refine ⟨fun h => ⟨fun h1 h0 => by omega, h.left, h.right⟩, fun h => ⟨List.take_append_drop _ _, ?_, h.2.1, h.2.2⟩⟩
      show ((slots page skip).drop m)[skip - m]? = some none
      rw [List.getElem?_drop, Nat.add_sub_cancel' (by omega), hslot]

def tiny : Bleaf := ⟨⟨[], none⟩, [], false⟩

theorem parted_btPsplit_iff_tiny : Parted 492 3 20 (List.replicate 34 tiny) (btPsplit 492 3 20 (List.replicate 34 tiny)) ↔
    ∃ k, 0 < k ∧ k ≤ (List.replicate 34 tiny).length ∧ (k = 1 → 3 ≠ 0) ∧ CutAt 492 3 20 (List.replicate 34 tiny) k ∧
      filled 20 ((slots (List.replicate 34 tiny) 3).take k) ≤ 492 ∧ filled 20 ((slots (List.replicate 34 tiny) 3).drop k) ≤ 492 :=
  parted_btPsplit_iff (by decide) (by decide) (by decide)

def ovflsize (full minkeypage : Nat) : Nat :=
  if full / minkeypage - (2 + nbleafdbt 0 0) < nbleafdbt novflsize novflsize + 2 then nbleafdbt novflsize novflsize + 2
  else full / minkeypage - (2 + nbleafdbt 0 0)

/-- On a page of 512 bytes with twenty small records the largest one that is put behind them all has no room on the left
page, where all of them go. -/
theorem not_parted_behind : ¬∀ (page : List Bleaf) (skip ilen : Nat), used page ≤ 492 → skip ≤ page.length →
    ilen ≤ nbleafdbt (ovflsize 492 2) 0 → 492 < used page + ilen + 2 → Parted 492 skip ilen page (btPsplit 492 skip ilen page) := fun h =>
  absurd (h (List.replicate 20 tiny) 20 244 (by decide) (by decide) (by decide) (by decide)).left (by decide)

end NetBSD.Btree
