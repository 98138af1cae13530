import NetBSD.Btree.Split

/-!
# Trees with duplicates

What `__bt_get` and `__bt_delete` do in a tree that was opened with `R_DUP`. The look at the pages to the right
stops too early, and a record at the start of a page is not deleted on the way to the left.
-/

namespace NetBSD.Btree

open NetBSD.Lib (Runs)

universe u

variable {ω : Type u} [LinearOrder ω] {o : Info ω} {key : Dbt} {pg n base lim fuel index : Nat} {t t' : Tree} {h : Page Bleaf}
  {before after pages : List (Page Bleaf)} {keys : List Key} {stack : List (Nat × Nat)} {items : List Bleaf}

def records (leaves : List (Page Bleaf)) : List Bleaf := leaves.flatMap (·.items)

def Info.Matches (o : Info ω) (key : Dbt) (bl : Bleaf) : Prop := o.rank bl.key.bytes = o.rank key

instance (bl : Bleaf) : Decidable (o.Matches key bl) := inferInstanceAs (Decidable (_ = _))

def Info.Reached (o : Info ω) : Tree → Prop := Runs (fun t => t = {}) o.after o.Careful

theorem Info.Reached.inv (hdups : o.nodups = false) (h : o.Reached t) : o.Inv t := by
  refine Runs.invariant (I := o.Inv) h ?_ fun t c t' hi hcareful hafter => hi.call hdups hcareful hafter
  rintro _ rfl
  exact Info.Inv.start

theorem records_append (a b : List (Page Bleaf)) : records (a ++ b) = records a ++ records b := List.flatMap_append

theorem ranks_append (a b : List Bleaf) : o.ranks (a ++ b) = o.ranks a ++ o.ranks b := List.map_append

theorem records_sublist (hlen : keys.length = pages.length) : List.Sublist (o.ranks (records pages)) (o.fenced keys pages) := by
  induction pages generalizing keys with
  | nil => exact List.nil_sublist _
  | cons p pages ih =>
    cases keys with
    | nil => cases hlen
    | cons k keys =>
      have hrest := ih (Nat.succ.inj hlen)
      show List.Sublist (o.ranks (p.items ++ records pages)) _
      rw [ranks_append]
      exact ((List.Sublist.refl _).append hrest).cons _

theorem records_sorted (hfenced : o.Fenced keys pages) (hlen : keys.length = pages.length) :
    (o.ranks (records pages)).Pairwise (· ≤ ·) := by
  cases pages with
  | nil => exact List.Pairwise.nil
  | cons p pages =>
    cases keys with
    | nil => cases hlen
    | cons k keys =>
      have hsub : List.Sublist (o.ranks (p.items ++ records pages)) (o.ranks p.items ++ o.fenced keys pages) := by
        rw [ranks_append]
        exact (List.Sublist.refl _).append (records_sublist (Nat.succ.inj hlen))
      exact List.Pairwise.sublist hsub hfenced

theorem Info.Fits.records {index : Nat} (hfits : o.Fits key keys before h after index) (hlen : keys.length = (before ++ h :: after).length) :
    (∀ bl ∈ records before ++ h.items.take index, o.rank bl.key.bytes ≤ o.rank key) ∧
      ∀ bl ∈ h.items.drop index ++ Btree.records after, o.rank key ≤ o.rank bl.key.bytes := by
  obtain ⟨kb, x, ka, rfl, hkb, -, hbelow, habove⟩ := hfits
  have hka : ka.length = after.length := by
    simp only [List.length_append, List.length_cons] at hlen
    omega
  constructor
  · intro bl hbl
    refine hbelow _ ?_
    have hsub : List.Sublist (o.ranks (Btree.records before ++ h.items.take index))
        (o.fenced kb before ++ o.rank x.bytes :: o.ranks (h.items.take index)).tail := by
      rw [ranks_append]
      cases before with
      | nil =>
        obtain rfl := List.length_eq_zero_iff.1 hkb
        exact List.Sublist.refl _
      | cons p before =>
        cases kb with
        | nil => cases hkb
        | cons k kb =>
          show List.Sublist (o.ranks (p.items ++ Btree.records before) ++ _) _
          rw [ranks_append, Info.fenced, List.cons_append, List.tail_cons]
          exact ((List.Sublist.refl _).append (records_sublist (Nat.succ.inj hkb))).append (List.sublist_cons_self _ _)
    exact hsub.subset (List.mem_map_of_mem hbl)
  · intro bl hbl
    refine habove _ ?_
    rcases List.mem_append.1 hbl with hbl | hbl
    · exact List.mem_append_left _ (List.mem_map_of_mem hbl)
    · exact List.mem_append_right _ ((records_sublist hka).subset (List.mem_map_of_mem hbl))

theorem Info.Lands.records (hfenced : o.Fenced keys (before ++ h :: after)) (hlen : keys.length = (before ++ h :: after).length)
    (hlands : o.Lands key keys before.length) :
    (∀ bl ∈ h.items, o.rank key ≤ o.rank bl.key.bytes) ∨ ∀ bl ∈ Btree.records after, o.rank key < o.rank bl.key.bytes := by
  obtain ⟨kb, x, ka, rfl, hkb, hx, hka⟩ := exists_split hlen
  unfold Info.Fenced at hfenced
  rw [fenced_split hkb 0] at hfenced
  simp only [List.take_zero, List.drop_zero] at hfenced
  rcases hlands.after with ⟨h0, y, hy, heq⟩ | hafter
  · left
    obtain rfl := Option.some.inj (hx.symm.trans hy)
    intro bl hbl
    rw [← heq]
    refine (List.pairwise_append.1 hfenced).2.2 _ ?_ _ (List.mem_append_left _ (List.mem_map_of_mem hbl))
    cases kb with
    | nil => exact absurd hkb.symm h0
    | cons k kb =>
      cases before with
      | nil => cases hkb
      | cons p before => simp [Info.fenced]
  · right
    intro bl hbl
    cases ka with
    | nil =>
      obtain rfl := List.length_eq_zero_iff.1 hka.symm
      cases hbl
    | cons y ka =>
      have hy : o.rank key < o.rank y.bytes := hafter (before.length + 1) y (Nat.lt_succ_self _) (by simp [← hkb])
      cases after with
      | nil => cases hbl
      | cons q after =>
        have hsorted := (List.pairwise_append.1 (List.pairwise_append.1 hfenced).2.1).2.1
        refine lt_of_lt_of_le hy ((List.pairwise_cons.1 hsorted).1 _ ?_)
        have hsub : List.Sublist (o.ranks (q.items ++ Btree.records after)) (o.ranks q.items ++ o.fenced ka after) := by
          rw [ranks_append]
          exact (List.Sublist.refl _).append (records_sublist (Nat.succ.inj hka))
        exact hsub.subset (List.mem_map_of_mem hbl)

theorem binary_le (cmp : Nat → Ordering) (hfuel : lim ≤ fuel) (hn : base + lim ≤ n) :
    (binary cmp fuel base lim).2 ≤ n ∧ ((binary cmp fuel base lim).1 = true → (binary cmp fuel base lim).2 < n) := by
  induction fuel generalizing base lim with
  | zero =>
    obtain rfl : lim = 0 := Nat.le_zero.1 hfuel
    exact ⟨hn, fun h => by cases h⟩
  | succ fuel ih =>
    unfold binary
    split_ifs with hlim
    · subst hlim
      exact ⟨hn, fun h => by cases h⟩
    · split
      · exact ⟨by omega, fun _ => by dsimp only; omega⟩
      · exact ih (by omega) (by omega)
      · exact ih (by omega) (by omega)

theorem childIndex_lt (o : Info ω) (key : Dbt) (first : Bool) {items : List Binternal} (hne : items ≠ []) : o.childIndex key first items < items.length := by
  have hpos := List.length_pos_of_ne_nil hne
  obtain ⟨hle, hlt⟩ := binary_le (o.btCmp key first items) (Nat.le_refl items.length) (Nat.le_of_eq (Nat.zero_add items.length))
  unfold Info.childIndex
  split
  · next i hfound =>
    have hsearch : binary (o.btCmp key first items) items.length 0 items.length = (true, i) := hfound
    rw [hsearch] at hlt
    exact hlt rfl
  · next i hfound =>
    have hsearch : binary (o.btCmp key first items) items.length 0 items.length = (false, i) := hfound
    rw [hsearch] at hle
    dsimp only at hle
    omega

theorem exists_locate {pages : List (Page Bleaf)} {i : Nat} (hnodup : (pages.map (·.pgno)).Nodup) (hget : (pages.map (·.pgno))[i]? = some pg) :
    ∃ before h after, locate pg pages = some (before, h, after) := by
  rw [List.getElem?_map] at hget
  obtain ⟨h, hh, rfl⟩ := Option.map_eq_some_iff.1 hget
  obtain ⟨before, after, rfl⟩ := List.append_of_mem (List.mem_of_getElem? hh)
  exact ⟨before, h, after, locate_append hnodup⟩

theorem descend_isSome (key : Dbt) {next : Nat} {levels : List Level} {pgs : List Nat} (h : Leads next pgs levels) (horder : o.InOrder (tops levels)) :
    ∃ r, o.descend key levels = some r := by
  induction levels generalizing pgs with
  | nil => exact ⟨_, rfl⟩
  | cons level above ih =>
    have habove := inOrder_above h horder
    obtain ⟨-, hne, hnodup, -, -, -, hleads⟩ := h
    obtain ⟨⟨pg, stack⟩, hdown⟩ := ih hleads habove
    obtain ⟨i, hget, -, -⟩ := descend_spec hleads habove hdown
    rw [List.getElem?_map] at hget
    obtain ⟨p, hp, rfl⟩ := Option.map_eq_some_iff.1 hget
    obtain ⟨before, after, rfl⟩ := List.append_of_mem (List.mem_of_getElem? hp)
    have hindex := childIndex_lt o key before.isEmpty (hne p (by simp))
    refine ⟨((p.items[o.childIndex key before.isEmpty p.items]).pgno, (p.pgno, o.childIndex key before.isEmpty p.items) :: stack), ?_⟩
    rw [Info.descend, hdown]
    dsimp only [bind, Option.bind]
    rw [locate_append hnodup]
    dsimp only
    rw [List.getElem?_eq_getElem hindex]
    rfl

theorem Info.Inv.exists_btSearch (hi : o.Inv t) (key : Dbt) : ∃ r, o.btSearch key t = some r := by
  obtain ⟨⟨pg, stack⟩, hdown⟩ := descend_isSome key hi.leads hi.inOrder
  obtain ⟨i, hget, -, -⟩ := descend_spec hi.leads hi.inOrder hdown
  obtain ⟨before, h, after, hloc⟩ := exists_locate hi.nodup hget
  refine ⟨(o.searchLeaf key before h after, pg, stack), ?_⟩
  rw [Info.btSearch, hdown]
  dsimp only [bind, Option.bind]
  rw [hloc]
  rfl

/-- The search comes down on an empty page, with no match before it, and `bt_snext` does not see one: the next
page is empty or its last record does not match. -/
def Info.Missed (o : Info ω) (key : Dbt) (t : Tree) : Prop :=
  ∃ pg stack before h after, o.descend key t.levels = some (pg, stack) ∧ locate pg t.leaves = some (before, h, after) ∧ h.items = [] ∧
    (∀ bl ∈ records before, ¬o.Matches key bl) ∧ ∀ q ∈ after.head?, ∀ bl ∈ q.items.getLast?, ¬o.Matches key bl

theorem lastOf_getLast {tp : Page Bleaf} (rest : List (Page Bleaf)) (hne : tp.items ≠ []) :
    (o.lastOf key (tp :: rest)).isSome = true ↔ o.Matches key (tp.items.getLast hne) := by
  have hlast : tp.items[tp.items.length - 1]? = some (tp.items.getLast hne) := by
    rw [List.getLast_eq_getElem, List.getElem?_eq_getElem]
  have hfind : (tp :: rest).find? (!·.items.isEmpty) = some tp := List.find?_cons_of_pos (by simp [hne])
  rw [Info.lastOf, hfind]
  dsimp only
  rw [btCmp_of_lt hlast (fun h => by cases h)]
  split
  · next heq => exact ⟨fun _ => (compare_eq_iff_eq.1 heq).symm, fun _ => rfl⟩
  · next hcmp => exact ⟨fun h => (by cases h), fun h => absurd (compare_eq_iff_eq.2 h.symm) hcmp⟩

theorem Info.Missed.exact (hmissed : o.Missed key t) {e : Found} {r : Nat × List (Nat × Nat)} (hsearch : o.btSearch key t = some (e, r)) :
    e.exact = false := by
  obtain ⟨pg, stack, before, h, after, hdown, hloc, hempty, hbefore, hafter⟩ := hmissed
  rw [Info.btSearch, hdown] at hsearch
  dsimp only [bind, Option.bind] at hsearch
  rw [hloc] at hsearch
  obtain ⟨rfl, -⟩ := Prod.mk.inj (Option.some.inj hsearch)
  have hpage : o.searchPage key false h.items = (false, 0) := by rw [hempty]; rfl
  have hnone : ∀ {pages : List (Page Bleaf)}, (∀ bl ∈ records pages, ¬o.Matches key bl) → o.lastOf key pages = none := fun {pages} hp => by
    cases hlast : o.lastOf key pages with
    | none => rfl
    | some e =>
      obtain ⟨tp, htp, -, -, bl, hbl, heq⟩ := lastOf_spec hlast
      exact absurd heq.symm (hp bl (List.mem_flatMap.2 ⟨tp, htp, List.mem_of_getElem? hbl⟩))
  have hrev : ∀ bl ∈ records before.reverse, ¬o.Matches key bl := fun bl hbl => by
    obtain ⟨p, hp, hbl⟩ := List.mem_flatMap.1 hbl
    exact hbefore bl (List.mem_flatMap.2 ⟨p, List.mem_reverse.1 hp, hbl⟩)
  have hprev : o.btSprev key before = none := hnone hrev
  have hnext : o.btSnext key before h after = none := by
    cases after with
    | nil => rfl
    | cons q after =>
      show o.lastOf key (q :: h :: before.reverse) = none
      by_cases hne : q.items = []
      · refine hnone fun bl hbl => ?_
        have hall : records (q :: h :: before.reverse) = records before.reverse := by
          show q.items ++ (h.items ++ _) = _
          rw [hne, hempty]
          rfl
        exact hrev bl (hall ▸ hbl)
      · refine Option.not_isSome_iff_eq_none.1 fun hsome => ?_
        exact hafter q rfl _ (List.getLast?_eq_some_getLast hne) ((lastOf_getLast _ hne).1 hsome)
  simp [Info.searchLeaf, hpage, hprev, hnext]

def Info.Finds (o : Info ω) (key : Dbt) (t : Tree) : Prop :=
  ∃ bl ∈ records t.leaves, o.Matches key bl ∧ o.btGet key t = some (.success, some bl.data)

def Info.others (o : Info ω) (key : Dbt) (items : List Bleaf) : List Bleaf := items.filter fun bl => ¬o.Matches key bl

theorem others_append (a b : List Bleaf) : o.others key (a ++ b) = o.others key a ++ o.others key b := List.filter_append ..

theorem others_eq_self (hnone : ∀ bl ∈ items, ¬o.Matches key bl) : o.others key items = items :=
  List.filter_eq_self.2 fun bl hbl => decide_eq_true (hnone bl hbl)

theorem others_of_lt {bl : Bleaf} (hle : ∀ x ∈ items, o.rank x.key.bytes ≤ o.rank bl.key.bytes) (hlt : o.rank bl.key.bytes < o.rank key) :
    o.others key items = items :=
  others_eq_self fun x hx => ne_of_lt (lt_of_le_of_lt (hle x hx) hlt)

theorem deleteRun_eq (hsorted : (o.ranks items).Pairwise (· ≤ ·)) (habove : ∀ bl ∈ items, o.rank key ≤ o.rank bl.key.bytes) :
    o.deleteRun key items = o.others key items := by
  induction items with
  | nil => rfl
  | cons bl rest ih =>
    obtain ⟨hle, hrest⟩ := List.pairwise_cons.1 hsorted
    unfold Info.deleteRun
    split
    · next hcmp =>
      have hmatch : o.Matches key bl := (compare_eq_iff_eq.1 hcmp).symm
      rw [ih hrest fun x hx => habove x (List.mem_cons_of_mem _ hx), Info.others, Info.others, List.filter_cons_of_neg (by simpa using hmatch)]
    · next hcmp =>
      have hlt : o.rank key < o.rank bl.key.bytes :=
        lt_of_le_of_ne (habove bl List.mem_cons_self) fun heq => hcmp (compare_eq_iff_eq.2 heq)
      refine (others_eq_self fun x hx hmatch => ?_).symm
      rcases List.mem_cons.1 hx with rfl | hx
      · exact absurd hmatch.symm (ne_of_lt hlt)
      · exact absurd hmatch.symm (ne_of_lt (lt_of_lt_of_le hlt (hle _ (List.mem_map_of_mem hx))))

theorem left_items {items : List Bleaf} (hnil : h.items = [] → items = []) : (h.left items).items = items := by
  unfold Page.left
  split
  · next hempty => rw [hempty, hnil hempty]
  · rfl

theorem forward_eq (hsorted : (o.ranks (records pages)).Pairwise (· ≤ ·)) (habove : ∀ bl ∈ records pages, o.rank key ≤ o.rank bl.key.bytes) :
    records (o.forward key pages) = o.others key (records pages) := by
  induction pages with
  | nil => rfl
  | cons p pages ih =>
    have hall : records (p :: pages) = p.items ++ records pages := rfl
    rw [hall, ranks_append] at hsorted
    rw [hall] at habove
    obtain ⟨hp, hrest, hacross⟩ := List.pairwise_append.1 hsorted
    have hrun : o.deleteRun key p.items = o.others key p.items :=
      deleteRun_eq hp fun bl hbl => habove bl (List.mem_append_left _ hbl)
    have hleft : (p.left (o.deleteRun key p.items)).items = o.others key p.items := by
      rw [hrun]
      exact left_items fun hnil => by rw [hnil]; rfl
    unfold Info.forward
    dsimp only
    rw [hall, others_append]
    split
    · show (p.left _).items ++ records _ = _
      rw [hleft, ih hrest fun bl hbl => habove bl (List.mem_append_right _ hbl)]
    · next hne =>
      show (p.left _).items ++ records pages = _
      obtain ⟨x, hx⟩ := List.exists_mem_of_ne_nil _ hne
      rw [hrun] at hx
      obtain ⟨hxp, hxm⟩ := List.mem_filter.1 hx
      have hlt : o.rank key < o.rank x.key.bytes :=
        lt_of_le_of_ne (habove x (List.mem_append_left _ hxp)) fun heq => of_decide_eq_true hxm heq.symm
      have hself : o.others key (records pages) = records pages := others_eq_self fun bl hbl hmatch =>
        absurd hmatch.symm (ne_of_lt (lt_of_lt_of_le hlt (hacross _ (List.mem_map_of_mem hxp) _ (List.mem_map_of_mem hbl))))
      rw [hleft, hself]

theorem backLoop_eq (a : Bleaf) {m : List Bleaf} (rest : List Bleaf) (hsorted : (o.ranks m).Pairwise (· ≤ ·))
    (hbelow : ∀ bl ∈ m, o.rank bl.key.bytes ≤ o.rank key) :
    (o.backLoop key m.length (a :: (m ++ rest))).1 = a :: (o.others key m ++ rest) ∧
      ((o.backLoop key m.length (a :: (m ++ rest))).2 = false → ∃ bl ∈ m, o.rank bl.key.bytes < o.rank key) := by
  induction m using List.reverseRecOn with
  | nil => exact ⟨rfl, fun h => by cases h⟩
  | append_singleton m x ih =>
    rw [ranks_append] at hsorted
    obtain ⟨hm, -, hacross⟩ := List.pairwise_append.1 hsorted
    have hget : (a :: (m ++ [x] ++ rest))[m.length + 1]? = some x := by simp
    have herase : (a :: (m ++ [x] ++ rest)).eraseIdx (m.length + 1) = a :: (m ++ rest) := by
      simp [List.eraseIdx_append_of_length_le]
    rw [List.length_append, List.length_singleton, Info.backLoop, btCmp_of_lt hget (fun h => by cases h)]
    split
    · next hcmp =>
      have hmatch : o.Matches key x := (compare_eq_iff_eq.1 hcmp).symm
      obtain ⟨heq, hstop⟩ := ih hm fun bl hbl => hbelow bl (List.mem_append_left _ hbl)
      rw [herase]
      refine ⟨?_, fun hfalse => ?_⟩
      · rw [heq, others_append, show o.others key [x] = [] from List.filter_cons_of_neg (by simpa using hmatch), List.append_nil]
      · obtain ⟨bl, hbl, hlt⟩ := hstop hfalse
        exact ⟨bl, List.mem_append_left _ hbl, hlt⟩
    · next hcmp =>
      have hlt : o.rank x.key.bytes < o.rank key :=
        lt_of_le_of_ne (hbelow x (by simp)) fun heq => hcmp (compare_eq_iff_eq.2 heq.symm)
      refine ⟨?_, fun _ => ⟨x, by simp, hlt⟩⟩
      rw [others_eq_self fun bl hbl hmatch => ?_]
      rcases List.mem_append.1 hbl with hbl | hbl
      · exact absurd hmatch (ne_of_lt (lt_of_le_of_lt (hacross _ (List.mem_map_of_mem hbl) _ List.mem_cons_self) hlt))
      · rw [List.mem_singleton.1 hbl] at hmatch
        exact absurd hmatch (ne_of_lt hlt)

theorem backward_eq (pages : List (Page Bleaf)) (hsorted : (o.ranks (records pages.reverse)).Pairwise (· ≤ ·))
    (hbelow : ∀ bl ∈ records pages.reverse, o.rank bl.key.bytes ≤ o.rank key)
    (hheads : ∀ p ∈ pages, ∀ bl ∈ p.items.head?, ¬o.Matches key bl) :
    records (o.backward key pages).reverse = o.others key (records pages.reverse) := by
  induction pages with
  | nil => rfl
  | cons p pages ih =>
    have hall : ∀ (q : Page Bleaf) (l : List (Page Bleaf)), records (q :: l).reverse = records l.reverse ++ q.items := fun q l => by
      rw [List.reverse_cons, records_append]
      simp [records]
    rw [hall, ranks_append] at hsorted
    rw [hall] at hbelow
    obtain ⟨hrest, hp, hacross⟩ := List.pairwise_append.1 hsorted
    have hih := ih hrest (fun bl hbl => hbelow bl (List.mem_append_left _ hbl)) fun q hq => hheads q (List.mem_cons_of_mem _ hq)
    unfold Info.backward
    dsimp only
    rw [hall, hall, others_append]
    dsimp only
    cases hitems : p.items with
    | nil =>
      rw [if_pos (by rfl), hih]
      rfl
    | cons a m =>
      rw [hitems] at hp hacross hbelow
      obtain ⟨hle, hm⟩ := List.pairwise_cons.1 hp
      obtain ⟨heq, hstop⟩ := backLoop_eq a [] hm fun bl hbl =>
        hbelow bl (List.mem_append_right _ (List.mem_cons_of_mem _ hbl))
      rw [List.append_nil, List.append_nil] at heq
      rw [List.append_nil] at hstop
      have ha : ¬o.Matches key a := hheads p List.mem_cons_self a (by rw [hitems]; rfl)
      have hothers : o.others key (a :: m) = a :: o.others key m := List.filter_cons_of_pos (decide_eq_true ha)
      rw [List.length_cons, Nat.add_sub_cancel, heq, hothers]
      congr 1
      split
      · exact hih
      · next hfalse =>
        obtain ⟨bl, hbl, hlt⟩ := hstop (by simpa using hfalse)
        exact (others_of_lt (fun x hx =>
          hacross _ (List.mem_map_of_mem hx) _ (List.mem_map_of_mem (List.mem_cons_of_mem _ hbl))) hlt).symm

theorem found_eq {e : Found} (hlen : keys.length = (before ++ h :: after).length) (hfenced : o.Fenced keys (before ++ h :: after))
    (hfits : o.Fits key keys before h after e.index) :
    o.deleteRun key (h.items.drop e.index) = o.others key (h.items.drop e.index) ∧
      records (if o.others key (h.items.drop e.index) = [] then o.forward key after else after) = o.others key (records after) := by
  have hsorted := records_sorted hfenced hlen
  rw [records_append, ranks_append] at hsorted
  have hpage : records (h :: after) = h.items.take e.index ++ (h.items.drop e.index ++ records after) := by
    rw [← List.append_assoc, List.take_append_drop]
    rfl
  rw [hpage, ranks_append] at hsorted
  obtain ⟨-, habove⟩ := hfits.records hlen
  have hpair := (List.pairwise_append.1 (List.pairwise_append.1 hsorted).2.1).2.1
  rw [ranks_append] at hpair
  obtain ⟨hdrop, hafter, hacross⟩ := List.pairwise_append.1 hpair
  refine ⟨deleteRun_eq hdrop fun bl hbl => habove bl (List.mem_append_left _ hbl), ?_⟩
  split
  · exact forward_eq hafter fun bl hbl => habove bl (List.mem_append_right _ hbl)
  · next hne =>
    obtain ⟨x, hx⟩ := List.exists_mem_of_ne_nil _ hne
    obtain ⟨hxd, hxm⟩ := List.mem_filter.1 hx
    have hlt : o.rank key < o.rank x.key.bytes :=
      lt_of_le_of_ne (habove x (List.mem_append_left _ hxd)) fun heq => of_decide_eq_true hxm heq.symm
    refine (others_eq_self fun bl hbl hmatch => ?_).symm
    exact absurd hmatch.symm (ne_of_lt (lt_of_lt_of_le hlt (hacross _ (List.mem_map_of_mem hxd) _ (List.mem_map_of_mem hbl))))

theorem deletes_of_heads {e : Found} (hfenced : o.Fenced keys (before ++ h :: after)) (hlen : keys.length = (before ++ h :: after).length)
    (hfits : o.Fits key keys before h after e.index) (hheads : ∀ p ∈ before, ∀ bl ∈ p.items.head?, ¬o.Matches key bl)
    (hhead : e.index ≠ 0 → ∀ bl ∈ h.items.head?, ¬o.Matches key bl) {rest : List Bleaf} :
    records (if (o.backLoop key (e.index - 1) (h.items.take e.index ++ rest)).2 then (o.backward key before.reverse).reverse else before) ++
        (o.backLoop key (e.index - 1) (h.items.take e.index ++ rest)).1 =
      o.others key (records before) ++ (o.others key (h.items.take e.index) ++ rest) := by
  have hsorted := records_sorted hfenced hlen
  have hpage : records (h :: after) = h.items.take e.index ++ (h.items.drop e.index ++ records after) := by
    rw [← List.append_assoc, List.take_append_drop]
    rfl
  rw [records_append, hpage, ← List.append_assoc, ranks_append] at hsorted
  have hpair := (List.pairwise_append.1 hsorted).1
  rw [ranks_append] at hpair
  obtain ⟨hbefore, htake, hacross⟩ := List.pairwise_append.1 hpair
  obtain ⟨hbelow, -⟩ := hfits.records hlen
  have hback : records (o.backward key before.reverse).reverse = o.others key (records before) := by
    have := backward_eq before.reverse (by rw [List.reverse_reverse]; exact hbefore)
      (by rw [List.reverse_reverse]; exact fun bl hbl => hbelow bl (List.mem_append_left _ hbl))
      fun p hp => hheads p (List.mem_reverse.1 hp)
    rwa [List.reverse_reverse] at this
  cases hitems : h.items.take e.index with
  | nil =>
    have hindex : e.index = 0 := by
      obtain ⟨-, -, -, -, -, hindex, -, -⟩ := hfits
      have := congrArg List.length hitems
      rw [List.length_take, Nat.min_eq_left hindex] at this
      exact this
    rw [hindex, List.nil_append, show (o.backLoop key (0 - 1) rest) = (rest, true) from rfl, if_pos rfl, hback]
    rfl
  | cons a m =>
    have hlength : e.index = m.length + 1 := by
      obtain ⟨-, -, -, -, -, hindex, -, -⟩ := hfits
      have := congrArg List.length hitems
      rw [List.length_take, Nat.min_eq_left hindex] at this
      exact this
    rw [hitems] at htake hacross hbelow
    obtain ⟨-, hm⟩ := List.pairwise_cons.1 htake
    have ha : ¬o.Matches key a := hhead (by omega) a (by
      have := congrArg List.head? hitems
      rw [List.head?_take, if_neg (by omega)] at this
      rw [this]
      rfl)
    obtain ⟨heq, hstop⟩ := backLoop_eq a rest hm fun bl hbl =>
      hbelow bl (List.mem_append_right _ (List.mem_cons_of_mem _ hbl))
    have hothers : o.others key (a :: m) = a :: o.others key m := List.filter_cons_of_pos (decide_eq_true ha)
    rw [hlength, Nat.add_sub_cancel, List.cons_append, heq, hothers, List.cons_append]
    congr 1
    split
    · exact hback
    · next hfalse =>
      obtain ⟨bl, hbl, hlt⟩ := hstop (by simpa using hfalse)
      exact (others_of_lt (fun x hx =>
        hacross _ (List.mem_map_of_mem hx) _ (List.mem_map_of_mem (List.mem_cons_of_mem _ hbl))) hlt).symm

theorem btBdelete_found {e : Found} {bl : Bleaf} (hi : o.Inv t) (hsearch : o.btSearch key t = some (e, pg, stack)) (hexact : e.exact = true)
    (hleaves : t.leaves = before ++ h :: after) (hpg : h.pgno = e.pgno) (hfits : o.Fits key (tops t.levels) before h after e.index)
    (hbl : h.items[e.index]? = some bl) : ∃ leaves, o.btBdelete key t = some (.success, { t with leaves := leaves }) ∧
      records leaves = records (if (o.backLoop key (e.index - 1) (h.items.take e.index ++ o.others key (h.items.drop e.index))).2 then
          (o.backward key before.reverse).reverse else before) ++
        (o.backLoop key (e.index - 1) (h.items.take e.index ++ o.others key (h.items.drop e.index))).1 ++ o.others key (records after) := by
  have hloc : locate e.pgno t.leaves = some (before, h, after) := by
    rw [hleaves, ← hpg]
    exact locate_append (hleaves ▸ hi.nodup)
  have hlen : (tops t.levels).length = (before ++ h :: after).length := by rw [hi.length, hleaves]
  have hfenced := hi.fenced
  rw [hleaves] at hfenced
  obtain ⟨hrest, hafter⟩ := found_eq hlen hfenced hfits
  have hne : h.items ≠ [] := List.ne_nil_of_mem (List.mem_of_getElem? hbl)
  refine ⟨(if (o.backLoop key (e.index - 1) (h.items.take e.index ++ o.others key (h.items.drop e.index))).2 then
      (o.backward key before.reverse).reverse else before) ++
    h.left (o.backLoop key (e.index - 1) (h.items.take e.index ++ o.others key (h.items.drop e.index))).1 ::
      (if o.others key (h.items.drop e.index) = [] then o.forward key after else after), ?_, ?_⟩
  · rw [Info.btBdelete, hsearch]
    dsimp only [bind, Option.bind]
    rw [if_pos hexact, hloc]
    dsimp only
    rw [hrest]
    rfl
  · rw [records_append, List.append_assoc, ← hafter]
    show _ ++ ((h.left _).items ++ records _) = _
    rw [left_items fun hnil => absurd hnil hne]

theorem others_leaves (hleaves : t.leaves = before ++ h :: after) (index : Nat) : o.others key (records t.leaves) =
    o.others key (records before) ++ (o.others key (h.items.take index) ++ o.others key (h.items.drop index)) ++
      o.others key (records after) := by
  have hpage : records (h :: after) = (h.items.take index ++ h.items.drop index) ++ records after := by
    rw [List.take_append_drop]
    rfl
  rw [hleaves, records_append, hpage, others_append, others_append, others_append]
  simp only [List.append_assoc]

theorem deletes_of_found {e : Found} {bl : Bleaf} (hi : o.Inv t) (hsearch : o.btSearch key t = some (e, pg, stack)) (hexact : e.exact = true)
    (hleaves : t.leaves = before ++ h :: after) (hpg : h.pgno = e.pgno) (hfits : o.Fits key (tops t.levels) before h after e.index)
    (hbl : h.items[e.index]? = some bl) (hheads : ∀ p ∈ before, ∀ bl ∈ p.items.head?, ¬o.Matches key bl)
    (hhead : e.index ≠ 0 → ∀ bl ∈ h.items.head?, ¬o.Matches key bl) :
    ∃ leaves, o.btBdelete key t = some (.success, { t with leaves := leaves }) ∧ records leaves = o.others key (records t.leaves) := by
  obtain ⟨leaves, hdelete, hrecords⟩ := btBdelete_found hi hsearch hexact hleaves hpg hfits hbl
  have hlen : (tops t.levels).length = (before ++ h :: after).length := by rw [hi.length, hleaves]
  have hfenced := hi.fenced
  rw [hleaves] at hfenced
  refine ⟨leaves, hdelete, ?_⟩
  rw [hrecords, others_leaves hleaves e.index, deletes_of_heads hfenced hlen hfits hheads hhead]

def byFirst : Info ℕ where
  full := 100
  ovflsize := 40
  nodups := false
  rank key := (key.headD 0).toNat
  pfx := none
  pfx_pos := fun _ h => by cases h
  pfx_between := fun _ h => by cases h
  pfx_lt := fun _ h => by cases h

end NetBSD.Btree
