import NetBSD.Btree.Tree
import Mathlib.Tactic.Order

/-!
# Keys in order

The internal pages of a tree bracket the records below them, and the search comes down where a key belongs.
-/

namespace NetBSD.Btree

universe u

variable {ω : Type u} [LinearOrder ω] {α : Type} {o : Info ω} {key : Dbt} {pg next n base lim fuel i : Nat}

theorem locate_spec {pages before after : List (Page α)} {h : Page α} (hloc : locate pg pages = some (before, h, after)) :
    pages = before ++ h :: after ∧ h.pgno = pg := by
  induction pages generalizing before with
  | nil => cases hloc
  | cons p rest ih =>
    unfold locate at hloc
    split at hloc
    · next heq =>
      cases hloc
      exact ⟨rfl, heq⟩
    · obtain ⟨⟨b, x, a⟩, hrest, heq⟩ := Option.map_eq_some_iff.1 hloc
      cases heq
      obtain ⟨hpages, hpg⟩ := ih hrest
      exact ⟨congrArg (p :: ·) hpages, hpg⟩

theorem locate_append {before after : List (Page α)} {h : Page α} (hnodup : ((before ++ h :: after).map (·.pgno)).Nodup) :
    locate h.pgno (before ++ h :: after) = some (before, h, after) := by
  induction before with
  | nil => simp [locate]
  | cons p before ih =>
    have hp := List.nodup_cons.1 hnodup
    have hne : p.pgno ≠ h.pgno := fun heq => hp.1 (by simp [heq])
    rw [List.cons_append, locate, if_neg hne, ih hp.2]
    rfl

theorem binary_spec {cmp : Nat → Ordering} (fuel base lim : Nat) (hgt : ∀ i j, i < j → j < n → cmp j = .gt → cmp i = .gt)
    (hlt : ∀ i j, i < j → j < n → cmp i = .lt → cmp j = .lt) (hfuel : lim ≤ fuel) (hn : base + lim ≤ n)
    (hbelow : ∀ i < base, cmp i = .gt) (habove : ∀ i, base + lim ≤ i → i < n → cmp i = .lt) :
    ((binary cmp fuel base lim).1 = true ∧ (binary cmp fuel base lim).2 < n ∧ cmp (binary cmp fuel base lim).2 = .eq) ∨
      ((binary cmp fuel base lim).1 = false ∧ (binary cmp fuel base lim).2 ≤ n ∧
        (∀ i < (binary cmp fuel base lim).2, cmp i = .gt) ∧ ∀ i, (binary cmp fuel base lim).2 ≤ i → i < n → cmp i = .lt) := by
  induction fuel generalizing base lim with
  | zero =>
    obtain rfl : lim = 0 := Nat.le_zero.1 hfuel
    exact .inr ⟨rfl, hn, hbelow, habove⟩
  | succ fuel ih =>
    unfold binary
    split_ifs with hlim
    · subst hlim
      exact .inr ⟨rfl, hn, hbelow, habove⟩
    · have hmid : base + lim / 2 < n := by omega
      cases hcmp : cmp (base + lim / 2) with
      | eq => exact .inl ⟨rfl, hmid, hcmp⟩
      | gt =>
        refine ih _ _ (by omega) (by omega) (fun i hi => ?_) fun i hi => habove i (by omega)
        rcases Nat.lt_or_eq_of_le (Nat.le_of_lt_succ hi) with hi | rfl
        · exact hgt i _ hi hmid hcmp
        · exact hcmp
      | lt =>
        refine ih _ _ (by omega) (by omega) hbelow fun i hi hin => ?_
        rcases Nat.lt_or_eq_of_le hi with hi | rfl
        · exact hlt _ i hi hin hcmp
        · exact hcmp

def entries (level : Level) : List Binternal := level.flatMap (·.items)

def tops : List Level → List Key
  | [] => [⟨[], none⟩]
  | level :: _ => (entries level).map (·.key)

/-- The levels lead to the pages with the numbers `pgs`. The key for a page is that of its first item; nothing
is asked of the leftmost one. -/
def Leads (next : Nat) : List Nat → List Level → Prop
  | pgs, [] => pgs = [pRoot]
  | pgs, level :: above =>
    (entries level).map (·.pgno) = pgs ∧ (∀ h ∈ level, h.items ≠ []) ∧ (level.map (·.pgno)).Nodup ∧
      (∀ h ∈ level, h.pgno < next) ∧ pRoot ∉ pgs ∧
      level.tail.map (fun h => h.items.head?.map (·.key)) = (tops above).tail.map some ∧ Leads next (level.map (·.pgno)) above

def Info.InOrder (o : Info ω) (keys : List Key) : Prop := (keys.tail.map fun k => o.rank k.bytes).Pairwise (· ≤ ·)

/-- The key for page `i` is at most `key`, and the next one is greater, unless it is `key` itself. -/
structure Info.Lands (o : Info ω) (key : Dbt) (keys : List Key) (i : Nat) : Prop where
  le : ∀ x, i ≠ 0 → keys[i]? = some x → o.rank x.bytes ≤ o.rank key
  after : (i ≠ 0 ∧ ∃ x, keys[i]? = some x ∧ o.rank x.bytes = o.rank key) ∨
    ∀ j x, i < j → keys[j]? = some x → o.rank key < o.rank x.bytes

def Stacked : List Level → List (Nat × Nat) → Nat → Prop
  | level :: above, (pg, index) :: stack, i =>
    ∃ before h after, level = before ++ h :: after ∧ h.pgno = pg ∧ index < h.items.length ∧
      i = (entries before).length + index ∧ Stacked above stack before.length
  | [], [], i => i = 0
  | _, _, _ => False

theorem entries_append (a b : Level) : entries (a ++ b) = entries a ++ entries b := List.flatMap_append

theorem inOrder_above {pgs : List Nat} {level : Level} {above : List Level} (h : Leads next pgs (level :: above))
    (horder : o.InOrder (tops (level :: above))) : o.InOrder (tops above) := by
  obtain ⟨-, hne, -, -, -, hheads, -⟩ := h
  have hsub : List.Sublist ((tops above).tail.map some) (((entries level).map (·.key)).tail.map some) := by
    rw [← hheads]
    cases level with
    | nil => exact List.nil_sublist _
    | cons p rest =>
      obtain ⟨a, as, hp⟩ := List.exists_cons_of_ne_nil (hne p List.mem_cons_self)
      have hrest : List.Sublist (rest.map fun h => h.items.head?.map (·.key)) (((entries rest).map (·.key)).map some) := by
        have hne' : ∀ h ∈ rest, h.items ≠ [] := fun h hh => hne h (List.mem_cons_of_mem _ hh)
        clear hheads hp hne horder
        induction rest with
        | nil => exact List.nil_sublist _
        | cons q rest ih =>
          obtain ⟨b, bs, hq⟩ := List.exists_cons_of_ne_nil (hne' q List.mem_cons_self)
          have htail := ih fun h hh => hne' h (List.mem_cons_of_mem _ hh)
          simp only [entries, List.flatMap_cons, hq, List.map_append, List.map_cons, List.head?_cons, Option.map_some,
            List.cons_append] at htail ⊢
          exact (htail.trans (List.sublist_append_right _ _)).cons_cons _
      simp only [entries, List.flatMap_cons, hp, List.map_append, List.map_cons, List.cons_append, List.tail_cons] at hrest ⊢
      exact hrest.trans (List.sublist_append_right _ _)
  have hsub' := hsub.map fun k : Option Key => k.elim (o.rank []) fun k => o.rank k.bytes
  simp only [List.map_map] at hsub'
  exact List.Pairwise.sublist hsub' horder

theorem btCmp_of_lt [Item α] {first : Bool} {items : List α} {x : α} (hx : items[i]? = some x) (hi : first = true → i ≠ 0) :
    o.btCmp key first items i = compare (o.rank key) (o.rank (Item.key x).bytes) := by
  rw [Info.btCmp, if_neg fun h => hi h.2 h.1, hx]
  rfl

theorem searchPage_spec [Item α] (key : Dbt) {first : Bool} {items : List α}
    (hsorted : ∀ i j x y, i < j → (first = true → i ≠ 0) → items[i]? = some x → items[j]? = some y →
      o.rank (Item.key x).bytes ≤ o.rank (Item.key y).bytes) :
    (∃ i x, o.searchPage key first items = (true, i) ∧ (first = true → i ≠ 0) ∧ items[i]? = some x ∧
        o.rank key = o.rank (Item.key x).bytes) ∨
      ∃ base, o.searchPage key first items = (false, base) ∧ base ≤ items.length ∧ (first = true → items ≠ [] → base ≠ 0) ∧
        (∀ i x, i < base → (first = true → i ≠ 0) → items[i]? = some x → o.rank (Item.key x).bytes < o.rank key) ∧
        ∀ i x, base ≤ i → items[i]? = some x → o.rank key < o.rank (Item.key x).bytes := by
  have hzero : first = true → o.btCmp key first items 0 = .gt := fun h => if_pos ⟨rfl, h⟩
  have hval : ∀ {i}, i < items.length → (first = true → i ≠ 0) →
      ∃ x, items[i]? = some x ∧ o.btCmp key first items i = compare (o.rank key) (o.rank (Item.key x).bytes) := fun hi hf =>
    ⟨_, List.getElem?_eq_getElem hi, btCmp_of_lt (List.getElem?_eq_getElem hi) hf⟩
  have hgt : ∀ i j, i < j → j < items.length → o.btCmp key first items j = .gt → o.btCmp key first items i = .gt := by
    intro i j hij hj hcmp
    by_cases hf : first = true → i ≠ 0
    · obtain ⟨x, hx, hcx⟩ := hval (hij.trans hj) hf
      obtain ⟨y, hy, hcy⟩ := hval hj fun _ => Nat.ne_of_gt (Nat.zero_lt_of_lt hij)
      rw [hcy, compare_gt_iff_gt] at hcmp
      rw [hcx, compare_gt_iff_gt]
      exact lt_of_le_of_lt (hsorted i j x y hij hf hx hy) hcmp
    · obtain ⟨hfirst, rfl⟩ : first = true ∧ i = 0 := by simpa using hf
      exact hzero hfirst
  have hlt : ∀ i j, i < j → j < items.length → o.btCmp key first items i = .lt → o.btCmp key first items j = .lt := by
    intro i j hij hj hcmp
    have hf : first = true → i ≠ 0 := fun hfirst hi => by
      rw [hi, hzero hfirst] at hcmp
      cases hcmp
    obtain ⟨x, hx, hcx⟩ := hval (hij.trans hj) hf
    obtain ⟨y, hy, hcy⟩ := hval hj fun _ => Nat.ne_of_gt (Nat.zero_lt_of_lt hij)
    rw [hcx, compare_lt_iff_lt] at hcmp
    rw [hcy, compare_lt_iff_lt]
    exact lt_of_lt_of_le hcmp (hsorted i j x y hij hf hx hy)
  have hsearch := binary_spec items.length 0 items.length hgt hlt (Nat.le_refl _)
    (Nat.le_of_eq (Nat.zero_add _)) (fun i hi => absurd hi (Nat.not_lt_zero i)) fun i hi hin => absurd hin (by omega)
  rcases hsearch with ⟨hfound, hlen, heq⟩ | ⟨hfound, hlen, hbelow, habove⟩
  · have hf : first = true → (o.searchPage key first items).2 ≠ 0 := fun hfirst hi => by
      rw [show (binary (o.btCmp key first items) items.length 0 items.length).2 = 0 from hi, hzero hfirst] at heq
      cases heq
    obtain ⟨x, hx, hcx⟩ := hval hlen hf
    rw [hcx, compare_eq_iff_eq] at heq
    exact .inl ⟨_, x, Prod.ext hfound rfl, hf, hx, heq⟩
  · refine .inr ⟨_, Prod.ext hfound rfl, hlen, fun hfirst hne hbase => ?_, fun i x hi hf hx => ?_, fun i x hi hx => ?_⟩
    · have hcmp := habove 0 (Nat.le_of_eq hbase) (List.length_pos_of_ne_nil hne)
      rw [hzero hfirst] at hcmp
      cases hcmp
    · have hcmp := hbelow i hi
      rw [btCmp_of_lt hx hf, compare_gt_iff_gt] at hcmp
      exact hcmp
    · have hcmp := habove i hi (List.getElem?_eq_some_iff.1 hx).1
      have hf : first = true → i ≠ 0 := fun hfirst hi => by
        rw [hi, hzero hfirst] at hcmp
        cases hcmp
      rw [btCmp_of_lt hx hf, compare_lt_iff_lt] at hcmp
      exact hcmp

theorem Info.InOrder.le {keys : List Key} {j : Nat} {x y : Key} (h : o.InOrder keys) (hi : i ≠ 0) (hij : i < j) (hx : keys[i]? = some x)
    (hy : keys[j]? = some y) : o.rank x.bytes ≤ o.rank y.bytes := by
  obtain ⟨i, rfl⟩ := Nat.exists_eq_succ_of_ne_zero hi
  obtain ⟨j, rfl⟩ := Nat.exists_eq_succ_of_ne_zero (Nat.ne_of_gt (Nat.zero_lt_of_lt hij))
  have hget : ∀ {m : Nat} {z : Key}, keys[m + 1]? = some z → (keys.tail.map fun k => o.rank k.bytes)[m]? = some (o.rank z.bytes) := by
    intro m z hz
    rw [List.getElem?_map, List.getElem?_tail, hz]
    rfl
  obtain ⟨hi, hxi⟩ := List.getElem?_eq_some_iff.1 (hget hx)
  obtain ⟨hj, hyj⟩ := List.getElem?_eq_some_iff.1 (hget hy)
  rw [← hxi, ← hyj]
  exact List.pairwise_iff_getElem.1 h i j hi hj (Nat.lt_of_succ_lt_succ hij)

theorem getElem?_entries {before after : Level} {h : Page Binternal} (hi : i < h.items.length) :
    (entries (before ++ h :: after))[(entries before).length + i]? = h.items[i]? := by
  rw [entries_append, List.getElem?_append_right (Nat.le_add_right _ _), Nat.add_sub_cancel_left]
  exact List.getElem?_append_left hi

theorem getElem?_heads {level : Level} {above : List Level} {h : Page Binternal}
    (hheads : level.tail.map (fun h => h.items.head?.map (·.key)) = (tops above).tail.map some) (hi : i ≠ 0) (hh : level[i]? = some h) :
    ∃ x, (tops above)[i]? = some x ∧ h.items.head?.map (·.key) = some x := by
  obtain ⟨i, rfl⟩ := Nat.exists_eq_succ_of_ne_zero hi
  have hget := congrArg (fun l => l[i]?) hheads
  simp only [List.getElem?_map, List.getElem?_tail] at hget
  rw [show level[i + 1]? = some h from hh] at hget
  obtain ⟨x, hx, heq⟩ := Option.map_eq_some_iff.1 hget.symm
  exact ⟨x, hx, heq.symm⟩

theorem descend_spec {levels : List Level} {pgs : List Nat} {stack : List (Nat × Nat)} (h : Leads next pgs levels)
    (horder : o.InOrder (tops levels)) (hdown : o.descend key levels = some (pg, stack)) :
    ∃ i, pgs[i]? = some pg ∧ Stacked levels stack i ∧ o.Lands key (tops levels) i := by
  induction levels generalizing pgs pg stack with
  | nil =>
    cases hdown
    subst h
    exact ⟨0, rfl, rfl, fun _ hne => absurd rfl hne, .inr fun j x hj hx => by
      rw [List.getElem?_eq_none (by simp [tops]; omega)] at hx
      cases hx⟩
  | cons level above ih =>
    have habove := inOrder_above h horder
    obtain ⟨hpgs, hne, hnodup, -, -, hheads, hleads⟩ := h
    obtain ⟨⟨pg', stack'⟩, hdown', hrest⟩ := Option.bind_eq_some_iff.1 hdown
    obtain ⟨⟨before, p, after⟩, hloc, hrest⟩ := Option.bind_eq_some_iff.1 hrest
    obtain ⟨child, hchild, heq⟩ := Option.bind_eq_some_iff.1 hrest
    cases heq
    obtain ⟨u, hu, hstacked, hlands⟩ := ih hleads habove hdown'
    obtain ⟨rfl, rfl⟩ := locate_spec hloc
    have hplace : u = before.length := by
      have hget : ((before ++ p :: after).map (·.pgno))[before.length]? = some p.pgno := by simp
      obtain ⟨hlu, hu'⟩ := List.getElem?_eq_some_iff.1 hu
      obtain ⟨hlb, hb'⟩ := List.getElem?_eq_some_iff.1 hget
      exact (List.Nodup.getElem_inj_iff hnodup).1 (hu'.trans hb'.symm)
    subst hplace
    have hkey : ∀ {i : Nat} {x : Binternal}, p.items[i]? = some x →
        (tops ((before ++ p :: after) :: above))[(entries before).length + i]? = some x.key := fun {i x} hx => by
      rw [tops, List.getElem?_map, getElem?_entries (List.getElem?_eq_some_iff.1 hx).1, hx]
      rfl
    have hbefore : before.isEmpty = false → (entries before).length ≠ 0 ∧ before.length ≠ 0 := fun hb => by
      cases before with
      | nil => cases hb
      | cons q rest =>
        have hq := List.length_pos_of_ne_nil (hne q List.mem_cons_self)
        refine ⟨?_, Nat.succ_ne_zero _⟩
        rw [entries, List.flatMap_cons, List.length_append]
        omega
    have hpos : ∀ {i : Nat}, (before.isEmpty = true → i ≠ 0) → (entries before).length + i ≠ 0 := fun {i} hi => by
      cases hb : before.isEmpty with
      | true => exact fun h => hi hb (Nat.eq_zero_of_add_eq_zero_left h)
      | false => exact fun h => (hbefore hb).1 (Nat.eq_zero_of_add_eq_zero_right h)
    have hhead : before.isEmpty = false → ∃ x, p.items[0]? = some x ∧ (tops above)[before.length]? = some x.key := fun hb => by
      obtain ⟨x, hx, hxp⟩ := getElem?_heads hheads (hbefore hb).2 (h := p) (by simp)
      obtain ⟨a, ha, rfl⟩ := Option.map_eq_some_iff.1 hxp
      exact ⟨a, by rw [← List.head?_eq_getElem?]; exact ha, hx⟩
    have hsorted : ∀ i j x y, i < j → (before.isEmpty = true → i ≠ 0) → p.items[i]? = some x → p.items[j]? = some y →
        o.rank (Item.key x).bytes ≤ o.rank (Item.key y).bytes := fun i j x y hij hi hx hy =>
      horder.le (hpos hi) (Nat.add_lt_add_left hij _) (hkey hx) (hkey hy)
    rcases searchPage_spec key hsorted with ⟨i, x, hfound, hi, hx, heq⟩ | ⟨base, hfound, hbase, hfirst, hbelow, habove'⟩
    · have hindex : o.childIndex key before.isEmpty p.items = i := by rw [Info.childIndex, hfound]
      rw [hindex] at hchild ⊢
      obtain rfl := Option.some.inj (hx.symm.trans hchild)
      refine ⟨(entries before).length + i, ?_, ⟨before, p, after, rfl, rfl, (List.getElem?_eq_some_iff.1 hx).1, rfl, hstacked⟩,
        fun y _ hy => ?_, .inl ⟨hpos hi, _, hkey hx, heq.symm⟩⟩
      · rw [← hpgs, List.getElem?_map, getElem?_entries (List.getElem?_eq_some_iff.1 hx).1, hx]
        rfl
      · obtain rfl := Option.some.inj ((hkey hx).symm.trans hy)
        exact le_of_eq heq.symm
    · have hbase0 : base ≠ 0 := fun hzero => by
        cases hb : before.isEmpty with
        | true => exact hfirst hb (hne p (by simp)) hzero
        | false =>
          obtain ⟨x, hx, htop⟩ := hhead hb
          exact absurd (hlands.le _ (hbefore hb).2 htop) (not_le_of_gt (habove' 0 x (Nat.le_of_eq hzero) hx))
      have hindex : o.childIndex key before.isEmpty p.items = base - 1 := by rw [Info.childIndex, hfound]
      rw [hindex] at hchild ⊢
      refine ⟨(entries before).length + (base - 1), ?_, ⟨before, p, after, rfl, rfl, by omega, rfl, hstacked⟩,
        fun y hy0 hy => ?_, .inr fun j y hj hy => ?_⟩
      · rw [← hpgs, List.getElem?_map, getElem?_entries (by omega), hchild]
        rfl
      · obtain rfl := Option.some.inj ((hkey hchild).symm.trans hy)
        refine le_of_lt (hbelow (base - 1) child (by omega) (fun hb hz => hy0 ?_) hchild)
        rw [hz, List.isEmpty_iff.1 hb]
        rfl
      · by_cases hjp : j < (entries before).length + p.items.length
        · obtain ⟨i, rfl⟩ := Nat.exists_eq_add_of_le (show (entries before).length ≤ j by omega)
          obtain ⟨x, hx⟩ : ∃ x, p.items[i]? = some x := ⟨_, List.getElem?_eq_getElem (by omega)⟩
          obtain rfl := Option.some.inj ((hkey hx).symm.trans hy)
          exact habove' i x (by omega) hx
        · have hnext : ∀ j' x', before.length < j' → (tops above)[j']? = some x' → o.rank key < o.rank x'.bytes := by
            rcases hlands.after with ⟨hu0, x, htop, heq⟩ | hafter
            · cases hb : before.isEmpty with
              | true => exact absurd (by rw [List.isEmpty_iff.1 hb]; rfl) hu0
              | false =>
                obtain ⟨z, hz, htop'⟩ := hhead hb
                obtain rfl := Option.some.inj (htop.symm.trans htop')
                exact absurd heq (ne_of_lt (hbelow 0 z (Nat.pos_of_ne_zero hbase0) (fun h => by rw [hb] at h; cases h) hz))
            · exact hafter
          cases after with
          | nil =>
            rw [tops, List.getElem?_eq_none (by simp [entries] at hjp ⊢; omega)] at hy
            cases hy
          | cons q after =>
            obtain ⟨x, htop, hxq⟩ := getElem?_heads hheads (Nat.succ_ne_zero before.length) (h := q) (by simp)
            obtain ⟨a, ha, rfl⟩ := Option.map_eq_some_iff.1 hxq
            have hlt := hnext _ _ (Nat.lt_succ_self _) htop
            have hqkey : (tops ((before ++ p :: q :: after) :: above))[(entries before).length + p.items.length]? = some a.key := by
              obtain ⟨as, hq⟩ := List.head?_eq_some_iff.1 ha
              simp [tops, entries, hq]
            rcases Nat.lt_or_eq_of_le (Nat.le_of_not_lt hjp) with hlt' | rfl
            · exact lt_of_lt_of_le hlt (horder.le (by have := List.length_pos_of_ne_nil (hne p (by simp)); omega) hlt' hqkey hy)
            · obtain rfl := Option.some.inj (hqkey.symm.trans hy)
              exact hlt

def Info.ranks (o : Info ω) (items : List Bleaf) : List ω := items.map fun bl => o.rank bl.key.bytes

def Info.fenced (o : Info ω) : List Key → List (Page Bleaf) → List ω
  | k :: keys, h :: rest => o.rank k.bytes :: (o.ranks h.items ++ o.fenced keys rest)
  | _, _ => []

def Info.Fenced (o : Info ω) (keys : List Key) (leaves : List (Page Bleaf)) : Prop := (o.fenced keys leaves).tail.Pairwise (· ≤ ·)

def Info.Fits (o : Info ω) (key : Dbt) (keys : List Key) (before : List (Page Bleaf)) (h : Page Bleaf) (after : List (Page Bleaf))
    (index : Nat) : Prop :=
  ∃ kb x ka, keys = kb ++ x :: ka ∧ kb.length = before.length ∧ index ≤ h.items.length ∧
    (∀ a ∈ (o.fenced kb before ++ o.rank x.bytes :: o.ranks (h.items.take index)).tail, a ≤ o.rank key) ∧
    ∀ b ∈ o.ranks (h.items.drop index) ++ o.fenced ka after, o.rank key ≤ b

variable {keys kb ka : List Key} {x : Key} {leaves before after : List (Page Bleaf)} {h : Page Bleaf} {e : Found} {index : Nat}

theorem fenced_append (hlen : kb.length = before.length) :
    o.fenced (kb ++ keys) (before ++ leaves) = o.fenced kb before ++ o.fenced keys leaves := by
  induction kb generalizing before with
  | nil =>
    obtain rfl := List.length_eq_zero_iff.1 hlen.symm
    rfl
  | cons k kb ih =>
    cases before with
    | nil => cases hlen
    | cons p before =>
      simp only [List.cons_append, Info.fenced, List.append_assoc]
      rw [ih (Nat.succ.inj hlen)]

theorem fenced_split (hlen : kb.length = before.length) (index : Nat) :
    (o.fenced (kb ++ x :: ka) (before ++ h :: after)).tail =
      (o.fenced kb before ++ o.rank x.bytes :: o.ranks (h.items.take index)).tail ++
        (o.ranks (h.items.drop index) ++ o.fenced ka after) := by
  have hne : o.fenced kb before ++ o.rank x.bytes :: o.ranks (h.items.take index) ≠ [] := by simp
  rw [fenced_append hlen, ← List.tail_append_of_ne_nil hne]
  congr 1
  have hitems : o.ranks h.items = o.ranks (h.items.take index) ++ o.ranks (h.items.drop index) := by
    rw [Info.ranks, Info.ranks, Info.ranks, ← List.map_append, List.take_append_drop]
  rw [Info.fenced, hitems]
  simp only [List.append_assoc, List.cons_append]

theorem exists_split (hlen : keys.length = (before ++ h :: after).length) :
    ∃ kb x ka, keys = kb ++ x :: ka ∧ kb.length = before.length ∧ keys[before.length]? = some x ∧ ka.length = after.length := by
  have hlt : before.length < keys.length := by rw [hlen]; simp
  refine ⟨keys.take before.length, keys[before.length], keys.drop (before.length + 1), ?_, ?_, List.getElem?_eq_getElem hlt, ?_⟩
  · rw [← List.drop_eq_getElem_cons hlt, List.take_append_drop]
  · rw [List.length_take, Nat.min_eq_left hlt.le]
  · rw [List.length_drop, hlen, List.length_append, List.length_cons]
    omega

theorem fits_of_exact {bl : Bleaf} (hfenced : o.Fenced keys (before ++ h :: after)) (hlen : keys.length = (before ++ h :: after).length)
    (hbl : h.items[index]? = some bl) (heq : o.rank key = o.rank bl.key.bytes) : o.Fits key keys before h after index := by
  obtain ⟨kb, x, ka, rfl, hkb, -, -⟩ := exists_split hlen
  obtain ⟨hlt, hget⟩ := List.getElem?_eq_some_iff.1 hbl
  have hdrop : o.ranks (h.items.drop index) = o.rank key :: o.ranks (h.items.drop (index + 1)) := by
    rw [List.drop_eq_getElem_cons hlt, hget, heq]
    rfl
  unfold Info.Fenced at hfenced
  rw [fenced_split hkb index, hdrop, List.cons_append, List.pairwise_append] at hfenced
  obtain ⟨-, hrest, hacross⟩ := hfenced
  refine ⟨kb, x, ka, rfl, hkb, hlt.le, fun a ha => hacross a ha _ List.mem_cons_self, fun b hb => ?_⟩
  rw [hdrop] at hb
  rcases List.mem_cons.1 hb with rfl | hb
  · exact le_refl _
  · exact (List.pairwise_cons.1 hrest).1 b hb

theorem fits_of_lands (hfenced : o.Fenced keys (before ++ h :: after)) (hlen : keys.length = (before ++ h :: after).length)
    (hlands : o.Lands key keys before.length) (hindex : index ≤ h.items.length) (hbelow : ∀ a ∈ o.ranks (h.items.take index), a ≤ o.rank key)
    (habove : ∀ b ∈ o.ranks (h.items.drop index), o.rank key ≤ b) : o.Fits key keys before h after index := by
  obtain ⟨kb, x, ka, rfl, hkb, hx, hka⟩ := exists_split hlen
  unfold Info.Fenced at hfenced
  rw [fenced_split hkb 0] at hfenced
  simp only [List.take_zero, List.drop_zero, Info.ranks, List.map_nil] at hfenced
  refine ⟨kb, x, ka, rfl, hkb, hindex, fun a ha => ?_, fun b hb => ?_⟩
  · cases kb with
    | nil => exact hbelow a (by simpa [Info.fenced] using ha)
    | cons k kb =>
      have hxk : o.rank x.bytes ≤ o.rank key := hlands.le x (by rw [← hkb]; exact Nat.succ_ne_zero _) hx
      cases before with
      | nil => cases hkb
      | cons p before =>
        simp only [Info.fenced, List.cons_append, List.tail_cons] at ha hfenced
        rcases List.mem_append.1 ha with ha | ha
        · have hsorted := (List.pairwise_append.1 (List.pairwise_append.1 hfenced).1).2.2
          exact (hsorted a ha _ List.mem_cons_self).trans hxk
        · rcases List.mem_cons.1 ha with rfl | ha
          · exact hxk
          · exact hbelow a ha
  · rcases List.mem_append.1 hb with hb | hb
    · exact habove b hb
    · rcases hlands.after with ⟨h0, y, hy, heq⟩ | hafter
      · obtain rfl := Option.some.inj (hx.symm.trans hy)
        cases kb with
        | nil => exact absurd hkb.symm h0
        | cons k kb =>
          cases before with
          | nil => cases hkb
          | cons p before =>
            simp only [Info.fenced, List.cons_append, List.tail_cons] at hfenced
            have hsorted := (List.pairwise_append.1 hfenced).2.2
            rw [← heq]
            exact hsorted _ (List.mem_append_right _ List.mem_cons_self) b (List.mem_append_right _ hb)
      · cases ka with
        | nil => cases hb
        | cons y ka =>
          have hy : o.rank key < o.rank y.bytes := hafter (before.length + 1) y (Nat.lt_succ_self _) (by simp [← hkb])
          cases after with
          | nil => cases hb
          | cons q after =>
            rcases List.mem_cons.1 hb with rfl | hb
            · exact hy.le
            · have hsorted := (List.pairwise_append.1 (List.pairwise_append.1 hfenced).2.1).2.1
              exact hy.le.trans ((List.pairwise_cons.1 hsorted).1 b hb)

theorem lastOf_spec {pages : List (Page Bleaf)} (hlast : o.lastOf key pages = some e) :
    ∃ tp ∈ pages, tp.pgno = e.pgno ∧ e.exact = true ∧ ∃ bl, tp.items[e.index]? = some bl ∧ o.rank key = o.rank bl.key.bytes := by
  unfold Info.lastOf at hlast
  split at hlast
  · cases hlast
  · next tp htp =>
    split at hlast
    · next hcmp =>
      cases hlast
      have hne : tp.items ≠ [] := by
        have := List.find?_some htp
        intro hnil
        rw [hnil] at this
        cases this
      have hlt : tp.items.length - 1 < tp.items.length := Nat.sub_lt (List.length_pos_of_ne_nil hne) Nat.one_pos
      have hget : tp.items[tp.items.length - 1]? = some tp.items[tp.items.length - 1] := List.getElem?_eq_getElem hlt
      rw [btCmp_of_lt hget (fun h => by cases h), compare_eq_iff_eq] at hcmp
      exact ⟨tp, List.mem_of_find?_eq_some htp, rfl, rfl, _, hget, hcmp⟩
    · cases hlast

theorem items_sorted (hfenced : o.Fenced keys (before ++ h :: after)) (hlen : keys.length = (before ++ h :: after).length) :
    (o.ranks h.items).Pairwise (· ≤ ·) := by
  obtain ⟨kb, x, ka, rfl, hkb, -, -⟩ := exists_split hlen
  unfold Info.Fenced at hfenced
  rw [fenced_split hkb 0] at hfenced
  exact (List.pairwise_append.1 (List.pairwise_append.1 hfenced).2.1).1

theorem items_le (hfenced : o.Fenced keys (before ++ h :: after)) (hlen : keys.length = (before ++ h :: after).length) (i j : Nat)
    (x y : Bleaf) (hij : i < j) (_ : false = true → i ≠ 0) (hx : h.items[i]? = some x) (hy : h.items[j]? = some y) :
    o.rank (Item.key x).bytes ≤ o.rank (Item.key y).bytes := by
  obtain ⟨hi, rfl⟩ := List.getElem?_eq_some_iff.1 hx
  obtain ⟨hj, rfl⟩ := List.getElem?_eq_some_iff.1 hy
  have hpair := List.pairwise_iff_getElem.1 (items_sorted hfenced hlen) i j (by simpa [Info.ranks] using hi)
    (by simpa [Info.ranks] using hj) hij
  simp only [Info.ranks, List.getElem_map] at hpair
  exact hpair

theorem searchLeaf_spec (hfenced : o.Fenced keys (before ++ h :: after)) (hlen : keys.length = (before ++ h :: after).length)
    (hlands : o.Lands key keys before.length) :
    ∃ before' h' after', before ++ h :: after = before' ++ h' :: after' ∧ h'.pgno = (o.searchLeaf key before h after).pgno ∧
      o.Fits key keys before' h' after' (o.searchLeaf key before h after).index ∧
      ((o.searchLeaf key before h after).exact = true →
        ∃ bl, h'.items[(o.searchLeaf key before h after).index]? = some bl ∧ o.rank key = o.rank bl.key.bytes) ∧
      ((o.searchLeaf key before h after).exact = false → h' = h) := by
  -- a match that is found on another page
  have hother : ∀ {e : Found} {pages : List (Page Bleaf)}, o.lastOf key pages = some e → (∀ tp ∈ pages, tp ∈ before ++ h :: after) →
      ∃ before' h' after', before ++ h :: after = before' ++ h' :: after' ∧ h'.pgno = e.pgno ∧ o.Fits key keys before' h' after' e.index ∧
        (e.exact = true → ∃ bl, h'.items[e.index]? = some bl ∧ o.rank key = o.rank bl.key.bytes) ∧ (e.exact = false → h' = h) := by
    intro e pages hlast hsub
    obtain ⟨tp, htp, hpg, hexact, bl, hbl, heq⟩ := lastOf_spec hlast
    obtain ⟨before', after', hsplit⟩ := List.append_of_mem (hsub tp htp)
    refine ⟨before', tp, after', hsplit, hpg, ?_, fun _ => ⟨bl, hbl, heq⟩, fun hfalse => by rw [hexact] at hfalse; cases hfalse⟩
    rw [hsplit] at hfenced hlen
    exact fits_of_exact hfenced hlen hbl heq
  rcases searchPage_spec key (items_le hfenced hlen) with ⟨i, x, hfound, -, hx, heq⟩ | ⟨base, hfound, hbase, -, hbelow, habove⟩
  · simp only [Info.searchLeaf, hfound]
    exact ⟨before, h, after, rfl, rfl, fits_of_exact hfenced hlen hx heq, fun _ => ⟨x, hx, heq⟩, fun _ => rfl⟩
  · simp only [Info.searchLeaf, hfound]
    generalize hprev : (if !o.nodups ∧ base = 0 then o.btSprev key before else none) = prev
    generalize hnext : (if !o.nodups ∧ base = h.items.length then o.btSnext key before h after else none) = next
    cases prev with
    | some e =>
      obtain ⟨-, hprev⟩ := Option.ite_none_right_eq_some.1 hprev
      exact hother hprev fun tp htp => List.mem_append_left _ (List.mem_reverse.1 htp)
    | none =>
      cases next with
      | some e =>
        obtain ⟨-, hnext⟩ := Option.ite_none_right_eq_some.1 hnext
        cases after with
        | nil => cases hnext
        | cons q after =>
          refine hother hnext fun tp htp => ?_
          simp only [List.mem_cons, List.mem_reverse, List.mem_append] at htp ⊢
          tauto
      | none =>
        dsimp only [Option.or, Option.getD]
        refine ⟨before, h, after, rfl, rfl, fits_of_lands hfenced hlen hlands hbase (fun a ha => ?_) fun b hb => ?_,
          fun htrue => (by cases htrue), fun _ => rfl⟩
        · obtain ⟨bl, hbl, rfl⟩ := List.mem_map.1 ha
          obtain ⟨i, hi, rfl⟩ := List.mem_take_iff_getElem.1 hbl
          exact (hbelow i _ (by omega) (fun h => by cases h) (List.getElem?_eq_getElem (by omega))).le
        · obtain ⟨bl, hbl, rfl⟩ := List.mem_map.1 hb
          obtain ⟨i, hi, rfl⟩ := List.mem_drop_iff_getElem.1 hbl
          exact (habove _ _ (Nat.le_add_right _ _) (List.getElem?_eq_getElem (by omega))).le

end NetBSD.Btree
