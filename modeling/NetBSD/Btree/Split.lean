import NetBSD.Btree.Fences

/-!
# Splits and deletions

A put and a delete leave the keys in order and the internal pages leading to the leaves.
-/

namespace NetBSD.Btree

universe u

variable {ω : Type u} [LinearOrder ω] {α : Type} {o : Info ω} {key : Dbt} {pg next n i : Nat}

theorem insertIdx_append (a b : List α) (x : α) (i : Nat) : (a ++ b).insertIdx (a.length + i) x = a ++ b.insertIdx i x := by
  induction a with
  | nil => simp
  | cons y a ih =>
    rw [List.cons_append, List.length_cons, Nat.add_right_comm, List.insertIdx_succ_cons, ih, List.cons_append]

theorem insertIdx_append_left (a b : List α) (x : α) (hi : i ≤ a.length) : (a ++ b).insertIdx i x = a.insertIdx i x ++ b := by
  induction a generalizing i with
  | nil =>
    obtain rfl := Nat.le_zero.1 hi
    rfl
  | cons y a ih =>
    cases i with
    | zero => rfl
    | succ i => rw [List.cons_append, List.insertIdx_succ_cons, ih (Nat.le_of_succ_le_succ hi), List.insertIdx_succ_cons, List.cons_append]

theorem insertIdx_middle (a b c : List α) (x : α) (hi : i ≤ b.length) :
    (a ++ (b ++ c)).insertIdx (a.length + i) x = a ++ (b.insertIdx i x ++ c) := by
  rw [insertIdx_append, insertIdx_append_left b c x hi]

theorem insertIdx_after (a b : List α) (x y : α) : (a ++ x :: b).insertIdx (a.length + 1) y = a ++ x :: y :: b := by
  rw [insertIdx_append]
  rfl

theorem tail_insertIdx {l : List α} (hl : l ≠ []) (x : α) : (l.insertIdx (i + 1) x).tail = l.tail.insertIdx i x := by
  obtain ⟨a, l, rfl⟩ := List.exists_cons_of_ne_nil hl
  rfl

section

variable [Item α] {items l r : List α} {skip : Nat} {item : α} {final : Bool}

theorem psplit_spec (h : o.psplit items skip item = some (l, r)) : l ++ r = items.insertIdx skip item ∧ l ≠ [] ∧ r ≠ [] := by
  obtain ⟨n, -, h⟩ := Option.bind_eq_some_iff.1 h
  dsimp only at h
  split at h
  · cases h
  · next hnot =>
    cases h
    exact ⟨List.take_append_drop _ _, fun h => hnot (.inl h), fun h => hnot (.inr (.inl h))⟩

theorem btPage_spec (h : o.btPage final items skip item = some (l, r)) :
    l ++ r = items.insertIdx skip item ∧ (items ≠ [] → l ≠ []) ∧ r ≠ [] := by
  unfold Info.btPage at h
  split at h
  · next hskip =>
    cases h
    rw [hskip.2, List.insertIdx_length_self]
    exact ⟨rfl, fun hne => hne, List.cons_ne_nil _ _⟩
  · obtain ⟨hsplit, hl, hr⟩ := psplit_spec h
    exact ⟨hsplit, fun _ => hl, hr⟩

end

theorem Leads.mono {pgs : List Nat} {levels : List Level} {next' : Nat} (h : Leads next pgs levels) (hle : next ≤ next') :
    Leads next' pgs levels := by
  induction levels generalizing pgs with
  | nil => exact h
  | cons level above ih =>
    obtain ⟨hpgs, hne, hnodup, hfresh, hroot, hheads, habove⟩ := h
    exact ⟨hpgs, hne, hnodup, fun p hp => Nat.lt_of_lt_of_le (hfresh p hp) hle, hroot, hheads, ih habove⟩

theorem head?_insertIdx {l : List α} (hl : l ≠ []) (x : α) : (l.insertIdx (i + 1) x).head? = l.head? := by
  obtain ⟨a, l, rfl⟩ := List.exists_cons_of_ne_nil hl
  rfl

theorem Leads.level_of_root {pgs : List Nat} {level : Level} {above : List Level} {p : Page Binternal}
    (h : Leads next pgs (level :: above)) (hp : p ∈ level) (hroot : p.pgno = pRoot) : above = [] ∧ level = [p] := by
  obtain ⟨-, -, -, -, -, -, habove⟩ := h
  cases above with
  | nil =>
    have hlen : level.length = 1 := by
      have := congrArg List.length habove
      simpa using this
    obtain ⟨q, rfl⟩ := List.length_eq_one_iff.1 hlen
    exact ⟨rfl, by rw [List.mem_singleton.1 hp]⟩
  | cons level' above => exact absurd (List.mem_map.2 ⟨p, hp, hroot⟩) habove.2.2.2.2.1

theorem insertUp_spec {levels levels' : List Level} {pgs : List Nat} {stack : List (Nat × Nat)}
    {entry : Bool → Binternal} {x next' : Nat} (hlevels : levels ≠ []) (h : Leads next pgs levels) (hrootlt : pRoot < next)
    (hstack : Stacked levels stack i) (hentry : ∀ b, (entry b).pgno = x) (hx : x ≠ pRoot)
    (hup : o.insertUp levels stack next entry = some (levels', next')) :
    next ≤ next' ∧ Leads next' (pgs.insertIdx (i + 1) x) levels' ∧
      ∃ b, tops levels' = (tops levels).insertIdx (i + 1) (entry b).key := by
  induction levels generalizing pgs stack i entry x next levels' with
  | nil => exact absurd rfl hlevels
  | cons level above ih =>
    clear hlevels
    cases stack with
    | nil => exact absurd hstack (by simp [Stacked])
    | cons top stack =>
      obtain ⟨pg, index⟩ := top
      obtain ⟨before, p, after, rfl, rfl, hindex, rfl, hstack⟩ := hstack
      have hlevel := h
      obtain ⟨hpgs, hne, hnodup, hfresh, hroot, hheads, habove⟩ := h
      rw [Info.insertUp, locate_append hnodup] at hup
      dsimp only [bind, Option.bind] at hup
      generalize (!before.isEmpty || decide (index + 1 > 1)) = b at hup
      have hpne := hne p (by simp)
      have hinsert : ∀ {β : Type} (f : Binternal → β) {l : List Binternal}, l = p.items.insertIdx (index + 1) (entry b) →
          (entries before ++ (l ++ entries after)).map f =
            ((entries (before ++ p :: after)).map f).insertIdx ((entries before).length + index + 1) (f (entry b)) := by
        rintro β f l rfl
        rw [← List.map_insertIdx, entries_append, Nat.add_assoc]
        exact congrArg (List.map f) (insertIdx_middle _ _ _ _ hindex).symm
      have hnew : pRoot ∉ pgs.insertIdx ((entries before).length + index + 1) x := fun hmem => by
        rcases List.eq_or_mem_of_mem_insertIdx hmem with heq | hmem
        · exact hx heq.symm
        · exact hroot hmem
      split at hup
      · -- the parent has room
        cases hup
        have hentries : entries (before ++ ⟨p.pgno, p.items.insertIdx (index + 1) (entry b), none⟩ :: after) =
            entries before ++ (p.items.insertIdx (index + 1) (entry b) ++ entries after) := entries_append ..
        refine ⟨Nat.le_refl _, ⟨?_, fun q hq => ?_, ?_, fun q hq => ?_, hnew, ?_, ?_⟩, b, ?_⟩
        · rw [hentries, hinsert _ rfl, hpgs, hentry]
        · rcases List.mem_append.1 hq with hq | hq
          · exact hne q (by simp [hq])
          · rcases List.mem_cons.1 hq with rfl | hq
            · exact List.ne_nil_of_length_pos (by rw [List.length_insertIdx_of_le_length hindex]; exact Nat.succ_pos _)
            · exact hne q (by simp [hq])
        · simpa using hnodup
        · rcases List.mem_append.1 hq with hq | hq
          · exact hfresh q (by simp [hq])
          · rcases List.mem_cons.1 hq with rfl | hq
            · exact hfresh p (by simp)
            · exact hfresh q (by simp [hq])
        · rw [← hheads]
          cases before with
          | nil => rfl
          | cons q before => simp [head?_insertIdx hpne]
        · simpa using habove
        · rw [tops, hentries, hinsert _ rfl]
          rfl
      · split at hup
        · -- the root is split
          next hpg =>
          obtain ⟨rfl, hsingle⟩ := hlevel.level_of_root (p := p) (by simp) hpg
          obtain ⟨⟨l, r⟩, hsplit, hup⟩ := Option.bind_eq_some_iff.1 hup
          obtain ⟨bi, hbi, hup⟩ := Option.bind_eq_some_iff.1 hup
          cases hup
          obtain ⟨hlr, hl, hr⟩ := psplit_spec hsplit
          obtain ⟨rfl, rfl⟩ : before = [] ∧ after = [] := by
            cases before with
            | nil => exact ⟨rfl, (List.cons.inj hsingle).2⟩
            | cons q before => simp at hsingle
          have hentries : entries [⟨next, l, none⟩, ⟨next + 1, r, none⟩] = entries [] ++ ((l ++ r) ++ entries []) := by
            simp [entries]
          refine ⟨by omega, ⟨?_, fun q hq => ?_, by simp, fun q hq => ?_, hnew, by simp [tops, entries, rootPage, hbi], ?_⟩, b, ?_⟩
          · rw [hentries, hinsert _ hlr, hpgs, hentry]
          · rcases List.mem_cons.1 hq with rfl | hq
            · exact hl
            · obtain rfl := List.mem_singleton.1 hq
              exact hr
          · rcases List.mem_cons.1 hq with rfl | hq
            · exact Nat.lt_add_of_pos_right (by decide)
            · obtain rfl := List.mem_singleton.1 hq
              exact Nat.lt_succ_self _
          · refine ⟨by simp [entries, rootPage], by simp [rootPage], by simp [rootPage], ?_, ?_, by simp [tops, rootPage], rfl⟩
            · intro q hq
              obtain rfl := List.mem_singleton.1 hq
              exact Nat.lt_of_lt_of_le hrootlt (Nat.le_add_right _ _)
            · simp
              omega
          · rw [tops, hentries, hinsert _ hlr]
            rfl
        · next hpg =>
          obtain ⟨⟨l, r⟩, hsplit, hup⟩ := Option.bind_eq_some_iff.1 hup
          obtain ⟨bi, hbi, hup⟩ := Option.bind_eq_some_iff.1 hup
          obtain ⟨⟨above', next''⟩, hup', hup⟩ := Option.bind_eq_some_iff.1 hup
          cases hup
          obtain ⟨hlr, hl, hr⟩ := btPage_spec hsplit
          have hlne := hl hpne
          cases above with
          | nil =>
            have hpgs' : (before ++ p :: after).map (·.pgno) = [pRoot] := habove
            have hmem : p.pgno ∈ (before ++ p :: after).map (·.pgno) := List.mem_map_of_mem (by simp)
            rw [hpgs'] at hmem
            exact absurd (List.mem_singleton.1 hmem) hpg
          | cons level' above =>
            obtain ⟨hnext, hleads, b', htops⟩ := ih (List.cons_ne_nil _ _) (habove.mono (Nat.le_succ _)) (Nat.lt_succ_of_lt hrootlt) hstack (fun _ => rfl)
              (Nat.ne_of_gt hrootlt) hup'
            have hfreshnext : next ∉ (before ++ p :: after).map (·.pgno) := fun hmem => by
              obtain ⟨q, hq, heq⟩ := List.mem_map.1 hmem
              exact Nat.lt_irrefl _ (heq ▸ hfresh q hq)
            have hpgnos : (before ++ (⟨p.pgno, l, none⟩ : Page Binternal) :: ⟨next, r, none⟩ :: after).map (·.pgno) =
                ((before ++ p :: after).map (·.pgno)).insertIdx (before.length + 1) next := by
              have := insertIdx_after (before.map (·.pgno)) (after.map (·.pgno)) p.pgno next
              rw [List.length_map] at this
              simp [this]
            have hentries : entries (before ++ ⟨p.pgno, l, none⟩ :: ⟨next, r, none⟩ :: after) =
                entries before ++ ((l ++ r) ++ entries after) := by
              rw [entries_append]
              simp [entries]
            refine ⟨Nat.le_of_succ_le hnext, ⟨?_, fun q hq => ?_, ?_, fun q hq => ?_, hnew, ?_, ?_⟩, b, ?_⟩
            · rw [hentries, hinsert _ hlr, hpgs, hentry]
            · simp only [List.mem_append, List.mem_cons] at hq
              rcases hq with hq | rfl | rfl | hq
              · exact hne q (by simp [hq])
              · exact hlne
              · exact hr
              · exact hne q (by simp [hq])
            · rw [hpgnos]
              exact ((List.perm_insertIdx next _ (by simp)).nodup_iff).2 (List.nodup_cons.2 ⟨hfreshnext, hnodup⟩)
            · simp only [List.mem_append, List.mem_cons] at hq
              rcases hq with hq | rfl | rfl | hq
              · exact Nat.lt_of_lt_of_le (hfresh q (by simp [hq])) (Nat.le_of_succ_le hnext)
              · exact Nat.lt_of_lt_of_le (hfresh p (by simp)) (Nat.le_of_succ_le hnext)
              · exact hnext
              · exact Nat.lt_of_lt_of_le (hfresh q (by simp [hq])) (Nat.le_of_succ_le hnext)
            · have hhead : l.head? = p.items.head? := by
                obtain ⟨a, l, rfl⟩ := List.exists_cons_of_ne_nil hlne
                have := congrArg List.head? hlr
                rw [head?_insertIdx hpne] at this
                exact this
              have hne' : tops (level' :: above) ≠ [] := fun hnil => by
                have hpgnos := habove.1
                rw [List.map_eq_nil_iff.1 hnil] at hpgnos
                simp at hpgnos
              rw [htops, tail_insertIdx hne', List.map_insertIdx, ← hheads]
              cases before with
              | nil => simp [hbi]
              | cons q before =>
                have := insertIdx_after (before.map fun h => h.items.head?.map (·.key)) (after.map fun h => h.items.head?.map (·.key))
                  (p.items.head?.map (·.key)) (some bi.key)
                rw [List.length_map] at this
                simp [hhead, hbi, this]
            · rw [hpgnos]
              exact hleads
            · rw [tops, hentries, hinsert _ hlr]
              rfl

structure Info.Inv (o : Info ω) (t : Tree) : Prop where
  leads : Leads t.next (t.leaves.map (·.pgno)) t.levels
  nodup : (t.leaves.map (·.pgno)).Nodup
  fresh : ∀ h ∈ t.leaves, h.pgno < t.next
  root : pRoot < t.next
  fenced : o.Fenced (tops t.levels) t.leaves
  plain : ∀ h ∈ t.leaves, ∀ bl ∈ h.items, bl.key.chain = none
  stale : ∀ h rest, t.leaves = h :: rest → h.items = [] → ∀ bl ∈ h.stale, ∀ b ∈ (o.fenced (tops t.levels) t.leaves).tail,
    o.rank bl.key.bytes ≤ b

theorem Leads.length {pgs : List Nat} {levels : List Level} (h : Leads next pgs levels) : (tops levels).length = pgs.length := by
  cases levels with
  | nil =>
    subst h
    rfl
  | cons level above =>
    rw [← h.1]
    simp [tops]

def Info.Cut (o : Info ω) (t t' : Tree) (before after : List (Page Bleaf)) (items : List Bleaf) : Prop :=
  ∃ l r s tbl bl lpg rpg, l ++ r = items ∧ l.getLast? = some tbl ∧ r.head? = some bl ∧
    (o.rank tbl.key.bytes < o.rank bl.key.bytes → o.rank tbl.key.bytes < o.rank s.bytes) ∧ o.rank s.bytes ≤ o.rank bl.key.bytes ∧
    tops t'.levels = (tops t.levels).insertIdx (before.length + 1) s ∧ t'.leaves = before ++ ⟨lpg, l, none⟩ :: ⟨rpg, r, none⟩ :: after

def Info.Placed (o : Info ω) (t t' : Tree) (before : List (Page Bleaf)) (h : Page Bleaf) (after : List (Page Bleaf)) (items : List Bleaf) :
    Prop :=
  (t'.levels = t.levels ∧ t'.leaves = before ++ ⟨h.pgno, items, none⟩ :: after) ∨ o.Cut t t' before after items

namespace Info.Inv

variable {t t' : Tree} {h : Page Bleaf} {before after : List (Page Bleaf)} {e : Found} {stack : List (Nat × Nat)} {index : Nat}
  {item : Bleaf} {keys : List Key}

theorem length (hi : o.Inv t) : (tops t.levels).length = t.leaves.length := by rw [hi.leads.length, List.length_map]

theorem inOrder (hi : o.Inv t) : o.InOrder (tops t.levels) := by
  have hsub : ∀ {keys : List Key} {leaves : List (Page Bleaf)}, keys.length = leaves.length →
      List.Sublist (keys.map fun k => o.rank k.bytes) (o.fenced keys leaves) := by
    intro keys
    induction keys with
    | nil => exact fun _ => List.nil_sublist _
    | cons k keys ih =>
      intro leaves hlen
      cases leaves with
      | nil => cases hlen
      | cons p rest => exact ((ih (Nat.succ.inj hlen)).trans (List.sublist_append_right _ _)).cons_cons _
  have htail := (hsub hi.length).tail
  rw [← List.map_tail] at htail
  exact hi.fenced.sublist htail

theorem btSearch_spec (hi : o.Inv t) (hsearch : o.btSearch key t = some (e, pg, stack)) :
    ∃ before h after, t.leaves = before ++ h :: after ∧ h.pgno = pg ∧ e = o.searchLeaf key before h after ∧
      Stacked t.levels stack before.length ∧ o.Lands key (tops t.levels) before.length := by
  obtain ⟨⟨pg', stack'⟩, hdown, hrest⟩ := Option.bind_eq_some_iff.1 hsearch
  obtain ⟨⟨before, h, after⟩, hloc, heq⟩ := Option.bind_eq_some_iff.1 hrest
  cases heq
  obtain ⟨hleaves, hpg⟩ := locate_spec hloc
  obtain ⟨i, hget, hstack, hlands⟩ := descend_spec hi.leads hi.inOrder hdown
  have hplace : i = before.length := by
    have hget' : (t.leaves.map (·.pgno))[before.length]? = some pg := by simp [hleaves, hpg]
    obtain ⟨hli, hi'⟩ := List.getElem?_eq_some_iff.1 hget
    obtain ⟨hlb, hb'⟩ := List.getElem?_eq_some_iff.1 hget'
    exact (List.Nodup.getElem_inj_iff hi.nodup).1 (hi'.trans hb'.symm)
  subst hplace
  exact ⟨before, h, after, hleaves, hpg, rfl, hstack, hlands⟩

theorem page_unique (hi : o.Inv t) {before' after' : List (Page Bleaf)} {h' : Page Bleaf} (hleaves : t.leaves = before ++ h :: after)
    (hleaves' : t.leaves = before' ++ h' :: after') (hpg : h.pgno = h'.pgno) : before = before' ∧ h = h' ∧ after = after' := by
  have hloc := locate_append (hleaves ▸ hi.nodup)
  have hloc' := locate_append (hleaves' ▸ hi.nodup)
  rw [hpg, ← hleaves, hleaves', hloc'] at hloc
  cases hloc
  exact ⟨rfl, rfl, rfl⟩

theorem pairwise_insert {β : Type*} {R : β → β → Prop} {a b : List β} {x : β} (hab : (a ++ b).Pairwise R) (ha : ∀ y ∈ a, R y x)
    (hb : ∀ y ∈ b, R x y) : (a ++ x :: b).Pairwise R := by
  obtain ⟨hpa, hpb, hacross⟩ := List.pairwise_append.1 hab
  refine List.pairwise_append.2 ⟨hpa, List.pairwise_cons.2 ⟨hb, hpb⟩, fun y hy z hz => ?_⟩
  rcases List.mem_cons.1 hz with rfl | hz
  · exact ha y hy
  · exact hacross y hy z hz

theorem ranks_insertIdx {items : List Bleaf} (hindex : index ≤ items.length) :
    o.ranks (items.insertIdx index item) =
      o.ranks (items.take index) ++ o.rank item.key.bytes :: o.ranks (items.drop index) := by
  have hsplit : items.insertIdx index item = items.take index ++ item :: items.drop index := by
    have := insertIdx_append (items.take index) (items.drop index) item 0
    rw [List.take_append_drop, List.length_take, Nat.min_eq_left hindex] at this
    exact this
  rw [hsplit]
  simp [Info.ranks]

theorem insert_spec (hi : o.Inv t) (hleaves : t.leaves = before ++ h :: after) (hitem : item.key.bytes = key)
    (hfits : o.Fits key (tops t.levels) before h after index) (pgno : Nat) :
    (o.fenced (tops t.levels) (before ++ ⟨pgno, h.items.insertIdx index item, none⟩ :: after)).tail.Pairwise (· ≤ ·) ∧
      ∀ q rest, before = q :: rest → q.items = [] → ∀ bl ∈ q.stale,
        ∀ b ∈ (o.fenced (tops t.levels) (before ++ ⟨pgno, h.items.insertIdx index item, none⟩ :: after)).tail, o.rank bl.key.bytes ≤ b := by
  have hfenced := hi.fenced
  have hstale := hi.stale
  obtain ⟨kb, x, ka, hkeys, hkb, hindex, hbelow, habove⟩ := hfits
  unfold Info.Fenced at hfenced
  rw [hkeys, hleaves, fenced_split hkb index] at hfenced
  have hsplit : (o.fenced (kb ++ x :: ka) (before ++ ⟨pgno, h.items.insertIdx index item, none⟩ :: after)).tail =
      (o.fenced kb before ++ o.rank x.bytes :: o.ranks (h.items.take index)).tail ++ o.rank key ::
        (o.ranks (h.items.drop index) ++ o.fenced ka after) := by
    rw [fenced_append hkb, Info.fenced, ranks_insertIdx hindex, hitem]
    have hne : o.fenced kb before ++ o.rank x.bytes :: o.ranks (h.items.take index) ≠ [] := by simp
    rw [← List.tail_append_of_ne_nil hne]
    simp only [List.append_assoc, List.cons_append]
  rw [hkeys, hsplit]
  refine ⟨pairwise_insert hfenced hbelow habove, fun q rest hq hnil bl hbl b hb => ?_⟩
  have hold := hstale q (rest ++ h :: after) (by rw [hleaves, hq]; rfl) hnil bl hbl
  rw [hkeys, hleaves, fenced_split hkb index] at hold
  rcases List.mem_append.1 hb with hb | hb
  · exact hold b (List.mem_append_left _ hb)
  · rcases List.mem_cons.1 hb with rfl | hb
    · have hx : o.rank x.bytes ∈ (o.fenced kb before ++ o.rank x.bytes :: o.ranks (h.items.take index)).tail := by
        cases kb with
        | nil =>
          rw [hq] at hkb
          cases hkb
        | cons k kb =>
          rw [hq]
          simp [Info.fenced]
      exact (hold _ (List.mem_append_left _ hx)).trans (hbelow _ hx)
    · exact hold b (List.mem_append_right _ hb)

theorem plain_insert (hi : o.Inv t) (hleaves : t.leaves = before ++ h :: after) (hplain : item.key.chain = none) :
    ∀ bl ∈ h.items.insertIdx index item, bl.key.chain = none := fun bl hbl => by
  rcases List.eq_or_mem_of_mem_insertIdx hbl with rfl | hbl
  · exact hplain
  · exact hi.plain h (by simp [hleaves]) bl hbl

theorem inserted (hi : o.Inv t) (hleaves : t.leaves = before ++ h :: after) (hitem : item.key.bytes = key) (hplain : item.key.chain = none)
    (hfits : o.Fits key (tops t.levels) before h after index) (hlevels : t'.levels = t.levels) (hnext : t'.next = t.next)
    (hleaves' : t'.leaves = before ++ ⟨h.pgno, h.items.insertIdx index item, none⟩ :: after) : o.Inv t' := by
  obtain ⟨hsorted, hstale⟩ := hi.insert_spec hleaves hitem hfits h.pgno
  have hpgnos : t'.leaves.map (·.pgno) = t.leaves.map (·.pgno) := by simp [hleaves, hleaves']
  have hne : h.items.insertIdx index item ≠ [] := by
    obtain ⟨-, -, -, -, -, hindex, -, -⟩ := hfits
    exact List.ne_nil_of_length_pos (by rw [List.length_insertIdx_of_le_length hindex]; exact Nat.succ_pos _)
  refine ⟨by rw [hpgnos, hlevels, hnext]; exact hi.leads, by rw [hpgnos]; exact hi.nodup, fun p hp => ?_, by rw [hnext]; exact hi.root,
    by rw [hlevels, hleaves']; exact hsorted, fun p hp bl hbl => ?_, fun q rest hq hnil bl hbl b hb => ?_⟩
  · obtain ⟨q, hq, heq⟩ := List.mem_map.1 (hpgnos ▸ List.mem_map_of_mem (f := fun p : Page Bleaf => p.pgno) hp)
    rw [hnext, ← heq]
    exact hi.fresh q hq
  · rw [hleaves'] at hp
    simp only [List.mem_append, List.mem_cons] at hp
    rcases hp with hp | rfl | hp
    · exact hi.plain p (by simp [hleaves, hp]) bl hbl
    · exact hi.plain_insert hleaves hplain bl hbl
    · exact hi.plain p (by simp [hleaves, hp]) bl hbl
  · rw [hlevels, hleaves'] at hb
    rw [hleaves'] at hq
    cases before with
    | nil =>
      cases hq
      exact absurd hnil hne
    | cons p before =>
      cases hq
      exact hstale q before rfl hnil bl hbl b hb

theorem split (hi : o.Inv t) (hleaves : t.leaves = before ++ h :: after) (hitem : item.key.bytes = key) (hplain : item.key.chain = none)
    (hfits : o.Fits key (tops t.levels) before h after index) {l r : List Bleaf} {s : Key} {lpg rpg : Nat}
    (hlr : l ++ r = h.items.insertIdx index item) {tbl bl : Bleaf} (htbl : l.getLast? = some tbl) (hbl : r.head? = some bl)
    (hsl : o.rank tbl.key.bytes ≤ o.rank s.bytes) (hsr : o.rank s.bytes ≤ o.rank bl.key.bytes)
    (hleads : Leads t'.next (t'.leaves.map (·.pgno)) t'.levels) (hnodup : (t'.leaves.map (·.pgno)).Nodup)
    (hfresh : ∀ p ∈ t'.leaves, p.pgno < t'.next) (hroot : pRoot < t'.next)
    (htops : tops t'.levels = (tops t.levels).insertIdx (before.length + 1) s)
    (hleaves' : t'.leaves = before ++ ⟨lpg, l, none⟩ :: ⟨rpg, r, none⟩ :: after) : o.Inv t' := by
  obtain ⟨hsorted, hstale⟩ := hi.insert_spec hleaves hitem hfits lpg
  obtain ⟨kb, x, ka, hkeys, hkb, hindex, -, -⟩ := hfits
  rw [← hlr] at hsorted hstale
  rw [hkeys, fenced_split hkb l.length] at hsorted hstale
  simp only [List.take_left', List.drop_left'] at hsorted hstale
  obtain ⟨l', rfl⟩ : ∃ l', l = l' ++ [tbl] := by
    obtain ⟨l', hl'⟩ := List.getLast?_eq_some_iff.1 htbl
    exact ⟨l', hl'⟩
  obtain ⟨r', rfl⟩ := List.head?_eq_some_iff.1 hbl
  have hlast : ∃ a, (o.fenced kb before ++ o.rank x.bytes :: o.ranks (l' ++ [tbl])).tail = a ++ [o.rank tbl.key.bytes] := by
    refine ⟨(o.fenced kb before ++ o.rank x.bytes :: o.ranks l').tail, ?_⟩
    have hne : o.fenced kb before ++ o.rank x.bytes :: o.ranks l' ≠ [] := by simp
    rw [← List.tail_append_of_ne_nil hne]
    simp [Info.ranks]
  obtain ⟨a, ha⟩ := hlast
  have hbelow : ∀ y ∈ (o.fenced kb before ++ o.rank x.bytes :: o.ranks (l' ++ [tbl])).tail, y ≤ o.rank s.bytes := fun y hy => by
    have hpair := (List.pairwise_append.1 hsorted).1
    rw [ha] at hy hpair
    rcases List.mem_append.1 hy with hy | hy
    · exact ((List.pairwise_append.1 hpair).2.2 y hy _ List.mem_cons_self).trans hsl
    · rw [List.mem_singleton.1 hy]
      exact hsl
  have habove : ∀ y ∈ o.ranks (bl :: r') ++ o.fenced ka after, o.rank s.bytes ≤ y := fun y hy => by
    have hpair := (List.pairwise_append.1 hsorted).2.1
    rcases List.mem_cons.1 hy with rfl | hy
    · exact hsr
    · exact hsr.trans ((List.pairwise_cons.1 hpair).1 y hy)
  have hfenced : (o.fenced (tops t'.levels) t'.leaves).tail =
      (o.fenced kb before ++ o.rank x.bytes :: o.ranks (l' ++ [tbl])).tail ++
        o.rank s.bytes :: (o.ranks (bl :: r') ++ o.fenced ka after) := by
    rw [htops, hkeys, hleaves', ← hkb, insertIdx_after, fenced_append hkb, Info.fenced, Info.fenced]
    have hne : o.fenced kb before ++ o.rank x.bytes :: o.ranks (l' ++ [tbl]) ≠ [] := by simp
    rw [← List.tail_append_of_ne_nil hne]
    simp only [List.append_assoc, List.cons_append]
  refine ⟨hleads, hnodup, hfresh, hroot, ?_, fun p hp b hb => ?_, fun q rest hq hnil b hb y hy => ?_⟩
  · unfold Info.Fenced
    rw [hfenced]
    exact pairwise_insert hsorted hbelow habove
  · have hall : ∀ b ∈ l' ++ [tbl] ++ bl :: r', b.key.chain = none := by
      rw [hlr]
      exact hi.plain_insert hleaves hplain
    rw [hleaves'] at hp
    simp only [List.mem_append, List.mem_cons] at hp
    rcases hp with hp | rfl | rfl | hp
    · exact hi.plain p (by simp [hleaves, hp]) b hb
    · exact hall b (List.mem_append_left _ hb)
    · exact hall b (List.mem_append_right _ hb)
    · exact hi.plain p (by simp [hleaves, hp]) b hb
  · rw [hleaves'] at hq
    rw [hfenced] at hy
    cases before with
    | nil =>
      cases hq
      exact absurd hnil (by simp)
    | cons p before =>
      cases hq
      have hold := hstale q before rfl hnil b hb
      rcases List.mem_append.1 hy with hy | hy
      · exact hold y (List.mem_append_left _ hy)
      · rcases List.mem_cons.1 hy with rfl | hy
        · refine (hold (o.rank tbl.key.bytes) (List.mem_append_left _ ?_)).trans hsl
          rw [ha]
          exact List.mem_append_right _ List.mem_cons_self
        · exact hold y (List.mem_append_right _ hy)

theorem cut_le (hi : o.Inv t) (hleaves : t.leaves = before ++ h :: after) (hitem : item.key.bytes = key)
    (hfits : o.Fits key (tops t.levels) before h after index) {l r : List Bleaf} (hlr : l ++ r = h.items.insertIdx index item)
    {tbl bl : Bleaf} (htbl : l.getLast? = some tbl) (hbl : r.head? = some bl) : o.rank tbl.key.bytes ≤ o.rank bl.key.bytes := by
  have hsorted := items_sorted (hi.insert_spec hleaves hitem hfits h.pgno).1 (by rw [hi.length, hleaves]; simp)
  rw [← hlr] at hsorted
  simp only [Info.ranks, List.map_append] at hsorted
  exact (List.pairwise_append.1 hsorted).2.2 _ (List.mem_map_of_mem (List.mem_of_getLast? htbl)) _
    (List.mem_map_of_mem (List.mem_of_head? hbl))

theorem parentKey_between {left right : Key} (shorten : Bool) (hleft : left.chain = none) (hle : o.rank left.bytes ≤ o.rank right.bytes) :
    o.rank left.bytes ≤ o.rank (o.parentKey left right shorten).bytes ∧ o.rank (o.parentKey left right shorten).bytes ≤ o.rank right.bytes := by
  unfold Info.parentKey
  split
  · exact ⟨hle, le_refl _⟩
  · next f hf =>
    split
    · have honpage : left.onPage = left.bytes := by rw [Key.onPage, hleft]; rfl
      rw [honpage]
      exact o.pfx_between f hf _ _ hle
    · exact ⟨hle, le_refl _⟩

theorem parentKey_lt {left right : Key} (shorten : Bool) (hleft : left.chain = none) (hlt : o.rank left.bytes < o.rank right.bytes) :
    o.rank left.bytes < o.rank (o.parentKey left right shorten).bytes := by
  unfold Info.parentKey
  split
  · exact hlt
  · next f hf =>
    split
    · have honpage : left.onPage = left.bytes := by rw [Key.onPage, hleft]; rfl
      rw [honpage]
      exact o.pfx_lt f hf _ _ hlt
    · exact hlt

theorem btSplit (hi : o.Inv t) (hleaves : t.leaves = before ++ h :: after) (hitem : item.key.bytes = key) (hplain : item.key.chain = none)
    (hfits : o.Fits key (tops t.levels) before h after index) (hstack : Stacked t.levels stack before.length)
    (hsplit : o.btSplit t stack h.pgno index item = some t') : o.Inv t' ∧ o.Cut t t' before after (h.items.insertIdx index item) := by
  have hloc : locate h.pgno t.leaves = some (before, h, after) := by
    rw [hleaves]
    exact locate_append (hleaves ▸ hi.nodup)
  have hmem : h.pgno ∈ t.leaves.map (·.pgno) := List.mem_map_of_mem (by simp [hleaves])
  have hall : ∀ {l r : List Bleaf}, l ++ r = h.items.insertIdx index item → ∀ b ∈ l ++ r, b.key.chain = none := fun hlr => by
    rw [hlr]
    exact hi.plain_insert hleaves hplain
  rw [Info.btSplit, hloc] at hsplit
  dsimp only [bind, Option.bind] at hsplit
  split at hsplit
  · next hpg =>
    -- the root is the only leaf
    have hlevels : t.levels = [] := by
      have hleads := hi.leads
      cases hl : t.levels with
      | nil => rfl
      | cons level above =>
        rw [hl] at hleads
        exact absurd (hpg ▸ hmem) hleads.2.2.2.2.1
    have hsingle : t.leaves.map (·.pgno) = [pRoot] := by
      have hleads := hi.leads
      rw [hlevels] at hleads
      exact hleads
    obtain ⟨rfl, rfl⟩ : before = [] ∧ after = [] := by
      have hlen := congrArg List.length hsingle
      simp [hleaves] at hlen
      exact ⟨List.length_eq_zero_iff.1 (by omega), List.length_eq_zero_iff.1 (by omega)⟩
    obtain ⟨⟨l, r⟩, hlr, hrest⟩ := Option.bind_eq_some_iff.1 hsplit
    obtain ⟨bl, hbl, heq⟩ := Option.bind_eq_some_iff.1 hrest
    cases heq
    obtain ⟨hlr, hl, -⟩ := psplit_spec hlr
    obtain ⟨tbl, htbl⟩ : ∃ tbl, l.getLast? = some tbl := ⟨_, List.getLast?_eq_some_getLast hl⟩
    have hbroot : bl.key.broot.bytes = bl.key.bytes := by
      rw [Key.broot, Key.onPage, hall hlr bl (List.mem_append_right _ (List.mem_of_head? hbl))]
      rfl
    have hroot := hi.root
    have hle := hi.cut_le hleaves hitem hfits hlr htbl hbl
    refine ⟨hi.split hleaves hitem hplain hfits hlr htbl hbl (s := bl.key.broot) (by rw [hbroot]; exact hle) (by rw [hbroot]) ?_ (by simp) ?_ ?_
      ?_ rfl, l, r, bl.key.broot, tbl, bl, _, _, hlr, htbl, hbl, by rw [hbroot]; exact fun hlt => hlt, by rw [hbroot], ?_, rfl⟩
    · rw [hlevels]
      refine ⟨by simp [entries, rootPage], by simp [rootPage], by simp, fun q hq => ?_, ?_, by simp [tops], rfl⟩
      · obtain rfl := List.mem_singleton.1 hq
        exact Nat.lt_of_lt_of_le hroot (Nat.le_add_right _ _)
      · simp
        omega
    · simp
    · exact Nat.lt_of_lt_of_le hroot (Nat.le_add_right _ _)
    · rw [hlevels]
      rfl
    · rw [hlevels]
      rfl
  · next hpg =>
    obtain ⟨⟨l, r⟩, hlr, hrest⟩ := Option.bind_eq_some_iff.1 hsplit
    obtain ⟨tbl, htbl, hrest⟩ := Option.bind_eq_some_iff.1 hrest
    obtain ⟨bl, hbl, hrest⟩ := Option.bind_eq_some_iff.1 hrest
    obtain ⟨⟨levels, next⟩, hup, heq⟩ := Option.bind_eq_some_iff.1 hrest
    cases heq
    obtain ⟨hlr, -, -⟩ := btPage_spec hlr
    have hlevels : t.levels ≠ [] := fun hnil => by
      have hleads := hi.leads
      rw [hnil] at hleads
      rw [show t.leaves.map (·.pgno) = [pRoot] from hleads] at hmem
      exact hpg (List.mem_singleton.1 hmem)
    have hentry : ∀ b, ((fun shorten => (⟨o.parentKey tbl.key bl.key shorten, t.next⟩ : Binternal)) b).pgno = t.next := fun _ => rfl
    obtain ⟨hnext, hleads, b, htops⟩ := insertUp_spec hlevels (hi.leads.mono (Nat.le_succ _)) (Nat.lt_succ_of_lt hi.root) hstack
      hentry (Nat.ne_of_gt hi.root) hup
    have hpgnos : (before ++ ⟨h.pgno, l, none⟩ :: ⟨t.next, r, none⟩ :: after).map (·.pgno) =
        (t.leaves.map (·.pgno)).insertIdx (before.length + 1) t.next := by
      have := insertIdx_after (before.map (·.pgno)) (after.map (·.pgno)) h.pgno t.next
      rw [List.length_map] at this
      simp [hleaves, this]
    have hle := hi.cut_le hleaves hitem hfits hlr htbl hbl
    have hbetween := parentKey_between b
      (hall hlr tbl (List.mem_append_left _ (List.mem_of_getLast? htbl))) hle
    have hnew : t.next ∉ t.leaves.map (·.pgno) := fun hmem => by
      obtain ⟨q, hq, heq⟩ := List.mem_map.1 hmem
      exact Nat.lt_irrefl _ (heq ▸ hi.fresh q hq)
    refine ⟨hi.split hleaves hitem hplain hfits hlr htbl hbl hbetween.1 hbetween.2 (by rw [hpgnos]; exact hleads) ?_ (fun p hp => ?_)
      (Nat.lt_of_lt_of_le (Nat.lt_succ_of_lt hi.root) hnext) htops rfl, l, r, _, tbl, bl, _, _, hlr, htbl, hbl,
      parentKey_lt b (hall hlr tbl (List.mem_append_left _ (List.mem_of_getLast? htbl))), hbetween.2, htops, rfl⟩
    · rw [hpgnos]
      exact ((List.perm_insertIdx _ _ (by simp [hleaves])).nodup_iff).2 (List.nodup_cons.2 ⟨hnew, hi.nodup⟩)
    · simp only [List.mem_append, List.mem_cons] at hp
      have hold : ∀ q ∈ t.leaves, q.pgno < next := fun q hq => Nat.lt_of_lt_of_le (hi.fresh q hq) (Nat.le_of_succ_le hnext)
      rcases hp with hp | rfl | rfl | hp
      · exact hold p (by simp [hleaves, hp])
      · exact hold h (by simp [hleaves])
      · exact hnext
      · exact hold p (by simp [hleaves, hp])

theorem btFast_spec (hi : o.Inv t) {nbytes : Nat} (hfast : o.btFast key nbytes t = some (some e)) :
    ∃ before h after, t.leaves = before ++ h :: after ∧ h.pgno = e.pgno ∧ o.Fits key (tops t.levels) before h after e.index ∧
      o.fits h.items nbytes = true := by
  unfold Info.btFast at hfast
  split at hfast
  · cases hfast
  obtain ⟨⟨before, h, after⟩, hloc, hfast⟩ := Option.bind_eq_some_iff.1 hfast
  obtain ⟨hleaves, -⟩ := locate_spec hloc
  have hlen : (tops t.levels).length = (before ++ h :: after).length := by rw [hi.length, hleaves]
  have hfenced := hi.fenced
  rw [hleaves] at hfenced
  dsimp only at hfast
  split at hfast
  · cases hfast
  next hfits =>
  have hroom : o.fits h.items nbytes = true := by simpa using hfits
  split at hfast
  · split at hfast
    · cases hfast
    next hlast =>
    obtain ⟨hafter, hindex⟩ : after = [] ∧ t.last.2 + 1 = h.items.length := by
      rw [not_or, not_not, not_not] at hlast
      exact hlast
    have hbl : h.items[t.last.2]? = some h.items[t.last.2] := List.getElem?_eq_getElem (by omega)
    rw [btCmp_of_lt hbl (fun h => by cases h)] at hfast
    split at hfast
    · cases hfast
    · next hcmp =>
      cases hfast
      exact ⟨before, h, after, hleaves, rfl, fits_of_exact hfenced hlen hbl (compare_eq_iff_eq.1 hcmp), hroom⟩
    · next hcmp =>
      cases hfast
      -- the key is behind the last record of all
      obtain ⟨kb, x, ka, hkeys, hkb, -, hka⟩ := exists_split hlen
      unfold Info.Fenced at hfenced
      rw [hkeys, fenced_split hkb (t.last.2 + 1)] at hfenced
      refine ⟨before, h, after, hleaves, rfl, ⟨kb, x, ka, hkeys, hkb, Nat.le_of_eq hindex, fun a ha => ?_, fun b hb => ?_⟩, hroom⟩
      · have htake : h.items.take (t.last.2 + 1) = h.items.take t.last.2 ++ [h.items[t.last.2]] := by
          rw [List.take_add_one, hbl]
          rfl
        have hne : o.fenced kb before ++ o.rank x.bytes :: o.ranks (h.items.take t.last.2) ≠ [] := by simp
        have hsplit : (o.fenced kb before ++ o.rank x.bytes :: o.ranks (h.items.take (t.last.2 + 1))).tail =
            (o.fenced kb before ++ o.rank x.bytes :: o.ranks (h.items.take t.last.2)).tail ++ [o.rank h.items[t.last.2].key.bytes] := by
          rw [← List.tail_append_of_ne_nil hne, htake]
          simp only [Info.ranks, List.map_append, List.map_cons, List.map_nil, List.append_assoc, List.cons_append]
        rw [hsplit] at ha hfenced
        have hlt : o.rank h.items[t.last.2].key.bytes < o.rank key := compare_gt_iff_gt.1 hcmp
        rcases List.mem_append.1 ha with ha | ha
        · exact ((List.pairwise_append.1 (List.pairwise_append.1 hfenced).1).2.2 a ha _ List.mem_cons_self).trans hlt.le
        · rw [List.mem_singleton.1 ha]
          exact hlt.le
      · rw [List.drop_of_length_le (Nat.le_of_eq hindex.symm)] at hb
        subst hafter
        rw [List.length_eq_zero_iff.1 hka] at hb
        simp [Info.ranks, Info.fenced] at hb
  · split at hfast
    · cases hfast
    next hlast =>
    obtain ⟨hbefore, -⟩ : before = [] ∧ t.last.2 = 0 := by
      rw [not_or, not_not, not_not] at hlast
      exact hlast
    obtain ⟨bl, hbl, hfast⟩ := Option.bind_eq_some_iff.1 hfast
    have hle : e = ⟨h.pgno, 0, e.exact⟩ ∧ o.rank key ≤ o.rank bl.key.bytes := by
      split at hfast
      · cases hfast
      · next hcmp =>
        cases hfast
        exact ⟨rfl, not_lt.1 fun hlt => hcmp (compare_gt_iff_gt.2 hlt)⟩
    obtain ⟨he, hle⟩ := hle
    subst hbefore
    obtain ⟨kb, x, ka, hkeys, hkb, -, -⟩ := exists_split hlen
    obtain rfl := List.length_eq_zero_iff.1 hkb
    have hall : ∀ b ∈ (o.fenced (tops t.levels) t.leaves).tail, o.rank bl.key.bytes ≤ b := by
      cases hitems : h.items with
      | nil =>
        rw [hitems] at hbl
        exact hi.stale h after (by rw [hleaves]; rfl) hitems bl hbl
      | cons bl' rest =>
        rw [hitems] at hbl
        obtain rfl : bl' = bl := Option.some.inj hbl
        unfold Info.Fenced at hfenced
        rw [hleaves]
        rw [hkeys] at hfenced ⊢
        simp only [List.nil_append, Info.fenced, List.tail_cons, hitems, Info.ranks, List.map_cons, List.cons_append] at hfenced ⊢
        intro b hb
        rcases List.mem_cons.1 hb with rfl | hb
        · exact le_refl _
        · exact (List.pairwise_cons.1 hfenced).1 b hb
    rw [he]
    refine ⟨[], h, after, hleaves, rfl, ⟨[], x, ka, hkeys, rfl, Nat.zero_le _, fun a ha => ?_, fun b hb => hle.trans (hall b ?_)⟩, hroom⟩
    · simp [Info.fenced, Info.ranks] at ha
    · rw [hleaves, hkeys]
      exact hb

theorem hinted (hi : o.Inv t) {index length : Nat} {first final : Bool} : o.Inv (hint t pg index length first final) := by
  unfold hint
  split_ifs <;> exact ⟨hi.leads, hi.nodup, hi.fresh, hi.root, hi.fenced, hi.plain, hi.stale⟩

theorem hint_levels (t : Tree) (pg index length : Nat) (first final : Bool) :
    (hint t pg index length first final).levels = t.levels ∧ (hint t pg index length first final).leaves = t.leaves := by
  unfold hint
  split_ifs <;> exact ⟨rfl, rfl⟩

theorem placed (hi : o.Inv t) (hleaves : t.leaves = before ++ h :: after) (hitem : item.key.bytes = key) (hplain : item.key.chain = none)
    (hfits : o.Fits key (tops t.levels) before h after index)
    (hstack : o.fits h.items (Item.nbytes item) = true ∨ Stacked t.levels stack before.length)
    (hput : (if o.fits h.items (Item.nbytes item) = true then
        some (hint { t with leaves := before ++ ⟨h.pgno, h.items.insertIdx index item, none⟩ :: after } h.pgno index
          (h.items.insertIdx index item).length before.isEmpty after.isEmpty)
      else o.btSplit t stack h.pgno index item) = some t') : o.Inv t' ∧ o.Placed t t' before h after (h.items.insertIdx index item) := by
  split at hput
  · cases hput
    have hinserted : o.Inv { t with leaves := before ++ ⟨h.pgno, h.items.insertIdx index item, none⟩ :: after } :=
      hi.inserted hleaves hitem hplain hfits rfl rfl rfl
    exact ⟨hinserted.hinted, .inl (hint_levels _ _ _ _ _ _)⟩
  · next hroom =>
    obtain ⟨hi', hcut⟩ := hi.btSplit hleaves hitem hplain hfits (hstack.resolve_left hroom) hput
    exact ⟨hi', .inr hcut⟩

theorem putAt (hi : o.Inv t) (hdups : o.nodups = false) (hleaves : t.leaves = before ++ h :: after) (hpg : h.pgno = e.pgno)
    (hitem : item.key.bytes = key) (hplain : item.key.chain = none) (hfits : o.Fits key (tops t.levels) before h after e.index)
    (hstack : o.fits h.items (Item.nbytes item) = true ∨ Stacked t.levels stack before.length)
    (hput : o.putAt t stack e item = some t') : o.Inv t' := by
  have hloc : locate e.pgno t.leaves = some (before, h, after) := by
    rw [hleaves, ← hpg]
    exact locate_append (hleaves ▸ hi.nodup)
  rw [Info.putAt, hloc] at hput
  dsimp only [bind, Option.bind] at hput
  simp only [hdups, Bool.false_eq_true, and_false, if_false] at hput
  have hi' : o.Inv { t with leaves := before ++ h :: after } := by
    rw [← hleaves]
    exact ⟨hi.leads, hi.nodup, hi.fresh, hi.root, hi.fenced, hi.plain, hi.stale⟩
  exact (hi'.placed rfl hitem hplain hfits hstack hput).1

end Info.Inv

def Info.Careful (o : Info ω) (t : Tree) : Call → Prop
  | .put kb key data _ =>
    (o.storeKey kb key data).1.key.chain = none ∧
      ∀ e pg stack before h after, o.btSearch key t = some (e, pg, stack) → e.pgno ≠ pg →
        locate e.pgno t.leaves = some (before, h, after) → o.fits h.items (Item.nbytes (o.storeKey kb key data).1) = true
  | .delete _ => True

theorem storeKey_plain {kb data : Dbt} (h : (o.storeKey kb key data).1.key.chain = none) :
    (o.storeKey kb key data).1.key.bytes = key ∧ (o.storeKey kb key data).2 = key := by
  unfold Info.storeKey at h ⊢
  split_ifs at h ⊢ <;> exact ⟨rfl, rfl⟩

namespace Info.Inv

variable {t t' : Tree} {h : Page Bleaf} {before after : List (Page Bleaf)} {status : Status}

theorem btPut (hi : o.Inv t) (hdups : o.nodups = false) {kb data : Dbt} {nooverwrite : Bool}
    (hcareful : o.Careful t (.put kb key data nooverwrite)) (hput : o.btPut kb key data nooverwrite t = some (status, t')) : o.Inv t' := by
  obtain ⟨hplain, hland⟩ := hcareful
  obtain ⟨hbytes, hk⟩ := storeKey_plain hplain
  unfold Info.btPut at hput
  generalize o.storeKey kb key data = stored at *
  obtain ⟨item, k⟩ := stored
  dsimp only at hbytes hk hplain hland hput
  subst hk
  obtain ⟨fast, hfast, hput⟩ := Option.bind_eq_some_iff.1 hput
  have hrest : ∀ (e : Found) (stack : List (Nat × Nat)) (t₁ : Tree),
      (if e.exact = true ∧ nooverwrite = true then some (Status.special, t₁)
        else (o.putAt t₁ stack e item).bind fun t₂ => some (Status.success, t₂)) = some (status, t') → o.Inv t₁ →
      (∃ before h after, t₁.leaves = before ++ h :: after ∧ h.pgno = e.pgno ∧ o.Fits k (tops t₁.levels) before h after e.index ∧
        (o.fits h.items (Item.nbytes item) = true ∨ Stacked t₁.levels stack before.length)) → o.Inv t' := by
    rintro e stack t₁ hput hi₁ ⟨before, h, after, hleaves, hpg, hfits, hstack⟩
    split at hput
    · cases hput
      exact hi₁
    · obtain ⟨t₂, hput, heq⟩ := Option.bind_eq_some_iff.1 hput
      cases heq
      exact hi₁.putAt hdups hleaves hpg hbytes hplain hfits hstack hput
  cases fast with
  | some e =>
    obtain ⟨before, h, after, hleaves, hpg, hfits, hroom⟩ := hi.btFast_spec hfast
    exact hrest e [] { t with last := (t.last.1, e.index) } hput
      ⟨hi.leads, hi.nodup, hi.fresh, hi.root, hi.fenced, hi.plain, hi.stale⟩ ⟨before, h, after, hleaves, hpg, hfits, .inl hroom⟩
  | none =>
    obtain ⟨⟨e, stack, t₁⟩, hfound, hput⟩ := Option.bind_eq_some_iff.1 hput
    obtain ⟨⟨e', pg, stack'⟩, hsearch, heq⟩ := Option.map_eq_some_iff.1 hfound
    cases heq
    refine hrest _ _ _ hput ⟨hi.leads, hi.nodup, hi.fresh, hi.root, hi.fenced, hi.plain, hi.stale⟩ ?_
    obtain ⟨before, h, after, hleaves, hpg, rfl, hstack, hlands⟩ := hi.btSearch_spec hsearch
    have hlen : (tops t.levels).length = (before ++ h :: after).length := by rw [hi.length, hleaves]
    have hfenced := hi.fenced
    rw [hleaves] at hfenced
    obtain ⟨before', h', after', hsplit, hpg', hfits, -⟩ := searchLeaf_spec hfenced hlen hlands
    rw [← hleaves] at hsplit
    refine ⟨before', h', after', hsplit, hpg', hfits, ?_⟩
    by_cases hsame : (o.searchLeaf k before h after).pgno = pg
    · right
      obtain ⟨rfl, -⟩ := hi.page_unique hleaves hsplit ((hpg.trans hsame.symm).trans hpg'.symm)
      exact hstack
    · left
      refine hland _ pg _ before' h' after' hsearch hsame ?_
      rw [hsplit, ← hpg']
      exact locate_append (hsplit ▸ hi.nodup)

structure Shrunk (h h' : Page Bleaf) : Prop where
  pgno : h'.pgno = h.pgno
  items : List.Sublist h'.items h.items
  stale : h'.items = [] → ∀ bl ∈ h'.stale, (h.items = [] ∧ bl ∈ h.stale) ∨ bl ∈ h.items

theorem Shrunk.refl (h : Page Bleaf) : Shrunk h h := ⟨rfl, List.Sublist.refl _, fun hnil _ hbl => .inl ⟨hnil, hbl⟩⟩

theorem Shrunk.left {items : List Bleaf} (hsub : List.Sublist items h.items) : Shrunk h (h.left items) := by
  unfold Page.left
  split
  · exact .refl h
  · refine ⟨rfl, hsub, fun _ bl hbl => .inr ?_⟩
    have hbl' : bl ∈ (if items = [] then h.items.getLast?.filter (·.key.chain.isNone) else none) := hbl
    by_cases hnil : items = []
    · rw [if_pos hnil] at hbl'
      exact List.mem_of_getLast? (Option.mem_filter_iff.1 hbl').1
    · rw [if_neg hnil] at hbl'
      cases hbl'

theorem shrink (hi : o.Inv t) {leaves : List (Page Bleaf)} (hshrunk : List.Forall₂ Shrunk t.leaves leaves) :
    o.Inv { t with leaves := leaves } := by
  have hpgnos : ∀ {l l' : List (Page Bleaf)}, List.Forall₂ Shrunk l l' → l'.map (·.pgno) = l.map (·.pgno) := by
    intro l l' hl
    induction hl with
    | nil => rfl
    | cons hp _ ih => simp only [List.map_cons, hp.pgno, ih]
  have hpgnos := hpgnos hshrunk
  have hsub : ∀ (keys : List Key) {l l' : List (Page Bleaf)}, List.Forall₂ Shrunk l l' →
      List.Sublist (o.fenced keys l') (o.fenced keys l) := by
    intro keys l l' hl
    induction hl generalizing keys with
    | nil => exact List.Sublist.refl _
    | cons hp _ ih =>
      cases keys with
      | nil => exact List.Sublist.refl _
      | cons k keys => exact ((hp.items.map _).append (ih _)).cons_cons _
  have htail := (hsub (tops t.levels) hshrunk).tail
  have hmem : ∀ p' ∈ leaves, ∃ p ∈ t.leaves, Shrunk p p' := fun p' hp' => by
    obtain ⟨i, hi', rfl⟩ := List.getElem_of_mem hp'
    have hlen := hshrunk.length_eq
    exact ⟨t.leaves[i], List.getElem_mem _, hshrunk.get (by omega) hi'⟩
  refine ⟨by rw [show ({ t with leaves := leaves } : Tree).leaves.map (·.pgno) = _ from hpgnos]; exact hi.leads, by
    rw [show ({ t with leaves := leaves } : Tree).leaves.map (·.pgno) = _ from hpgnos]; exact hi.nodup, fun p' hp' => ?_, hi.root,
    hi.fenced.sublist htail, fun p' hp' bl hbl => ?_, fun q' rest hq hnil bl hbl b hb => ?_⟩
  · obtain ⟨p, hp, hsh⟩ := hmem p' hp'
    rw [hsh.pgno]
    exact hi.fresh p hp
  · obtain ⟨p, hp, hsh⟩ := hmem p' hp'
    exact hi.plain p hp bl (hsh.items.subset hbl)
  · dsimp only at hq hb
    subst hq
    obtain ⟨q, rest₀, hsh, -, hleaves⟩ := List.forall₂_cons_right_iff.1 hshrunk
    rcases hsh.stale hnil bl hbl with ⟨hnil', hstale⟩ | hbl'
    · exact hi.stale q rest₀ hleaves hnil' bl hstale b (htail.subset hb)
    · have hlen := hi.length
      have hfenced := hi.fenced
      unfold Info.Fenced at hfenced
      cases hkeys : tops t.levels with
      | nil =>
        rw [hkeys, hleaves] at hlen
        cases hlen
      | cons k keys =>
        rw [hkeys, hleaves] at hfenced
        rw [hkeys] at hb
        simp only [Info.fenced, List.tail_cons, hnil, Info.ranks, List.map_nil, List.nil_append] at hfenced hb
        obtain ⟨hsub'⟩ : List.Forall₂ Shrunk rest₀ rest ∧ True := by
          rw [hleaves] at hshrunk
          exact ⟨(List.forall₂_cons.1 hshrunk).2, trivial⟩
        exact (List.pairwise_append.1 hfenced).2.2 _ (List.mem_map_of_mem hbl') b ((hsub _ hsub').subset hb)

theorem deleteRun_sublist (o : Info ω) (key : Dbt) (items : List Bleaf) : List.Sublist (o.deleteRun key items) items := by
  induction items with
  | nil => exact List.Sublist.refl _
  | cons bl rest ih =>
    unfold Info.deleteRun
    split
    · exact ih.cons _
    · exact List.Sublist.refl _

theorem forall₂_refl (pages : List (Page Bleaf)) : List.Forall₂ Shrunk pages pages := by
  induction pages with
  | nil => exact .nil
  | cons p pages ih => exact .cons (.refl p) ih

theorem forward_shrunk (pages : List (Page Bleaf)) : List.Forall₂ Shrunk pages (o.forward key pages) := by
  induction pages with
  | nil => exact .nil
  | cons p pages ih =>
    unfold Info.forward
    dsimp only
    split
    · exact .cons (.left (deleteRun_sublist o key _)) ih
    · exact .cons (.left (deleteRun_sublist o key _)) (forall₂_refl pages)

theorem backLoop_sublist (o : Info ω) (key : Dbt) (index : Nat) (items : List Bleaf) : List.Sublist (o.backLoop key index items).1 items ∧
    (items ≠ [] → (o.backLoop key index items).1.head? = items.head?) := by
  induction index generalizing items with
  | zero => exact ⟨List.Sublist.refl _, fun _ => rfl⟩
  | succ index ih =>
    unfold Info.backLoop
    split
    · obtain ⟨hsub, hhead⟩ := ih (items.eraseIdx (index + 1))
      refine ⟨hsub.trans (List.eraseIdx_sublist _ _), fun hne => ?_⟩
      obtain ⟨a, items, rfl⟩ := List.exists_cons_of_ne_nil hne
      exact hhead (by simp)
    · exact ⟨List.Sublist.refl _, fun _ => rfl⟩

theorem backward_shrunk (o : Info ω) (key : Dbt) (pages : List (Page Bleaf)) : List.Forall₂ Shrunk pages (o.backward key pages) := by
  induction pages with
  | nil => exact .nil
  | cons p pages ih =>
    unfold Info.backward
    dsimp only
    obtain ⟨hsub, hhead⟩ := backLoop_sublist o key (p.items.length - 1) p.items
    refine .cons ⟨rfl, hsub, fun hnil bl hbl => .inl ⟨?_, hbl⟩⟩ ?_
    · by_contra hne
      have hhead := hhead hne
      rw [show (o.backLoop key (p.items.length - 1) p.items).1 = [] from hnil] at hhead
      exact hne (List.head?_eq_none_iff.1 hhead.symm)
    · split
      · exact ih
      · exact forall₂_refl pages

theorem btBdelete_leaves (hdelete : o.btBdelete key t = some (status, t')) :
    (status = .special ∧ t' = t) ∨ ∃ leaves, t' = { t with leaves := leaves } ∧ List.Forall₂ Shrunk t.leaves leaves := by
  unfold Info.btBdelete at hdelete
  obtain ⟨⟨e, pg, stack⟩, -, hdelete⟩ := Option.bind_eq_some_iff.1 hdelete
  dsimp only at hdelete
  split at hdelete
  · obtain ⟨⟨before, h, after⟩, hloc, heq⟩ := Option.bind_eq_some_iff.1 hdelete
    cases heq
    right
    obtain ⟨hleaves, -⟩ := locate_spec hloc
    refine ⟨_, rfl, ?_⟩
    rw [hleaves]
    refine List.rel_append ?_ (.cons ?_ ?_)
    · split
      · have hback := List.rel_reverse (backward_shrunk o key before.reverse)
        rwa [List.reverse_reverse] at hback
      · exact forall₂_refl before
    · refine .left ((backLoop_sublist o key _ _).1.trans ?_)
      have hsub := (List.Sublist.refl (h.items.take e.index)).append (deleteRun_sublist o key (h.items.drop e.index))
      rwa [List.take_append_drop] at hsub
    · split
      · exact forward_shrunk after
      · exact forall₂_refl after
  · cases hdelete
    exact .inl ⟨rfl, rfl⟩

theorem btBdelete (hi : o.Inv t) (hdelete : o.btBdelete key t = some (status, t')) : o.Inv t' := by
  rcases btBdelete_leaves hdelete with ⟨-, rfl⟩ | ⟨leaves, rfl, hshrunk⟩
  · exact hi
  · exact hi.shrink hshrunk

theorem call (hi : o.Inv t) (hdups : o.nodups = false) {c : Call} (hcareful : o.Careful t c) (hafter : o.after t c = some t') :
    o.Inv t' := by
  obtain ⟨⟨status, t''⟩, hstep, rfl⟩ := Option.map_eq_some_iff.1 hafter
  cases c with
  | put kb key data nooverwrite => exact hi.btPut hdups hcareful hstep
  | delete key => exact hi.btBdelete hstep

theorem start : o.Inv {} := by
  refine ⟨rfl, by simp, fun h hh => ?_, by decide, ?_, fun h hh bl hbl => ?_, fun h rest hh _ bl hbl => ?_⟩
  · obtain rfl := List.mem_singleton.1 hh
    decide
  · exact List.Pairwise.nil
  · obtain rfl := List.mem_singleton.1 hh
    cases hbl
  · cases hh
    cases hbl

end Info.Inv

end NetBSD.Btree
