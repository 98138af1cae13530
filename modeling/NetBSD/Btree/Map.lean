import NetBSD.Btree.Dups

/-!
# Trees without duplicates

A tree that was opened without `R_DUP` is a finite map, as long as no key is moved to overflow pages and no put
is placed by what is left of a deleted record.
-/

namespace NetBSD.Btree

open NetBSD.Lib (Runs replies)
open Function (update)

universe u

variable {ω : Type u} [LinearOrder ω] {o : Info ω} {key : Dbt} {pg n index : Nat} {t t' : Tree} {h : Page Bleaf} {x s : Key}
  {before after leaves leaves' : List (Page Bleaf)} {keys kb ka : List Key} {stack : List (Nat × Nat)} {items : List Bleaf} {item : Bleaf}

def Info.recs (o : Info ω) (items : List Bleaf) : List (Bool × ω) := items.map fun bl => (false, o.rank bl.key.bytes)

def Info.tags (o : Info ω) : List Key → List (Page Bleaf) → List (Bool × ω)
  | k :: keys, h :: rest => (true, o.rank k.bytes) :: (o.recs h.items ++ o.tags keys rest)
  | _, _ => []

def Apart (a b : Bool × ω) : Prop := a.2 < b.2 ∨ (a.1 = true ∧ b.1 = false ∧ a.2 = b.2)

theorem Apart.le {a b : Bool × ω} (h : Apart a b) : a.2 ≤ b.2 := h.elim le_of_lt fun h => h.2.2.le

theorem Apart.lt_of_record {a b : Bool × ω} (h : Apart a b) (ha : a.1 = false) : a.2 < b.2 :=
  h.resolve_right fun h => by simp [ha] at h

theorem Apart.lt_of_key {a b : Bool × ω} (h : Apart a b) (hb : b.1 = true) : a.2 < b.2 :=
  h.resolve_right fun h => by simp [hb] at h

theorem recs_append (a b : List Bleaf) : o.recs (a ++ b) = o.recs a ++ o.recs b := List.map_append

theorem tags_append (hlen : kb.length = before.length) :
    o.tags (kb ++ keys) (before ++ leaves) = o.tags kb before ++ o.tags keys leaves := by
  induction kb generalizing before with
  | nil =>
    obtain rfl := List.length_eq_zero_iff.1 hlen.symm
    rfl
  | cons k kb ih =>
    cases before with
    | nil => cases hlen
    | cons p before =>
      simp only [List.cons_append, Info.tags, List.append_assoc]
      rw [ih (Nat.succ.inj hlen)]

theorem tags_split (hlen : kb.length = before.length) (index : Nat) :
    (o.tags (kb ++ x :: ka) (before ++ h :: after)).tail =
      (o.tags kb before ++ (true, o.rank x.bytes) :: o.recs (h.items.take index)).tail ++
        (o.recs (h.items.drop index) ++ o.tags ka after) := by
  have hne : o.tags kb before ++ (true, o.rank x.bytes) :: o.recs (h.items.take index) ≠ [] := by simp
  rw [tags_append hlen, ← List.tail_append_of_ne_nil hne]
  congr 1
  have hitems : o.recs h.items = o.recs (h.items.take index) ++ o.recs (h.items.drop index) := by
    rw [← recs_append, List.take_append_drop]
  rw [Info.tags, hitems]
  simp only [List.append_assoc, List.cons_append]

theorem tags_snd (keys : List Key) (leaves : List (Page Bleaf)) : (o.tags keys leaves).map Prod.snd = o.fenced keys leaves := by
  induction keys generalizing leaves with
  | nil => rfl
  | cons k keys ih =>
    cases leaves with
    | nil => rfl
    | cons p rest =>
      simp only [Info.tags, Info.fenced, List.map_cons, List.map_append, ih]
      congr 2
      simp [Info.recs, Info.ranks]

theorem recs_snd (items : List Bleaf) : (o.recs items).map Prod.snd = o.ranks items := by simp [Info.recs, Info.ranks]

theorem recs_sublist (hlen : keys.length = leaves.length) : List.Sublist (o.recs (records leaves)) (o.tags keys leaves) := by
  induction leaves generalizing keys with
  | nil => exact List.nil_sublist _
  | cons p rest ih =>
    cases keys with
    | nil => cases hlen
    | cons k keys =>
      show List.Sublist (o.recs (p.items ++ records rest)) _
      rw [recs_append]
      exact ((List.Sublist.refl _).append (ih (Nat.succ.inj hlen))).cons _

theorem mem_tags {b : Bool × ω} (hb : b ∈ o.tags keys leaves) :
    (b.1 = false ∧ ∃ bl ∈ records leaves, o.rank bl.key.bytes = b.2) ∨ (b.1 = true ∧ ∃ y ∈ keys, o.rank y.bytes = b.2) := by
  induction keys generalizing leaves with
  | nil => cases hb
  | cons k keys ih =>
    cases leaves with
    | nil => cases hb
    | cons p rest =>
      rcases List.mem_cons.1 hb with rfl | hb
      · exact .inr ⟨rfl, k, List.mem_cons_self, rfl⟩
      · rcases List.mem_append.1 hb with hb | hb
        · obtain ⟨bl, hbl, rfl⟩ := List.mem_map.1 hb
          exact .inl ⟨rfl, bl, List.mem_append_left _ hbl, rfl⟩
        · rcases ih hb with ⟨hfalse, bl, hbl, heq⟩ | ⟨htrue, y, hy, heq⟩
          · exact .inl ⟨hfalse, bl, List.mem_append_right _ hbl, heq⟩
          · exact .inr ⟨htrue, y, List.mem_cons_of_mem _ hy, heq⟩

theorem mem_tags_of_key (hlen : keys.length = leaves.length) {y : Key} (hy : y ∈ keys) : (true, o.rank y.bytes) ∈ o.tags keys leaves := by
  induction keys generalizing leaves with
  | nil => cases hy
  | cons k keys ih =>
    cases leaves with
    | nil => cases hlen
    | cons p rest =>
      rcases List.mem_cons.1 hy with rfl | hy
      · exact List.mem_cons_self
      · exact List.mem_cons_of_mem _ (List.mem_append_right _ (ih (Nat.succ.inj hlen) hy))

structure Info.Distinct (o : Info ω) (t : Tree) : Prop where
  apart : (o.tags (tops t.levels) t.leaves).tail.Pairwise Apart
  stale : ∀ h rest, t.leaves = h :: rest → h.items = [] → ∀ bl ∈ h.stale, ∀ b ∈ (o.tags (tops t.levels) t.leaves).tail,
    o.rank bl.key.bytes < b.2

structure Info.Absent (o : Info ω) (key : Dbt) (keys : List Key) (leaves : List (Page Bleaf)) (n : Nat) : Prop where
  records : ∀ bl ∈ records leaves, ¬o.Matches key bl
  keys : ∀ y ∈ keys.drop (n + 1), o.rank y.bytes ≠ o.rank key

theorem drop_keys (hkb : kb.length = n) : (kb ++ x :: ka).drop (n + 1) = ka := by
  rw [← hkb, ← List.singleton_append, ← List.append_assoc]
  exact List.drop_left' (by simp)

theorem below_snd : (o.tags kb before ++ (true, o.rank x.bytes) :: o.recs items).tail.map Prod.snd =
    (o.fenced kb before ++ o.rank x.bytes :: o.ranks items).tail := by
  rw [List.map_tail, List.map_append, tags_snd, List.map_cons, recs_snd]

theorem tags_insert {item : Bleaf} (hkb : kb.length = before.length) (hindex : index ≤ h.items.length) (hitem : item.key.bytes = key) (pgno : Nat) :
    (o.tags (kb ++ x :: ka) (before ++ ⟨pgno, h.items.insertIdx index item, none⟩ :: after)).tail =
      (o.tags kb before ++ (true, o.rank x.bytes) :: o.recs (h.items.take index)).tail ++ (false, o.rank key) ::
        (o.recs (h.items.drop index) ++ o.tags ka after) := by
  have hinsert : o.recs (h.items.insertIdx index item) = o.recs (h.items.take index) ++ (false, o.rank key) :: o.recs (h.items.drop index) := by
    have := insertIdx_append (h.items.take index) (h.items.drop index) item 0
    rw [List.take_append_drop, List.length_take, Nat.min_eq_left hindex] at this
    rw [show index = index + 0 from rfl, this, ← hitem]
    simp [Info.recs]
  rw [tags_append hkb, Info.tags, hinsert]
  have hne : o.tags kb before ++ (true, o.rank x.bytes) :: o.recs (h.items.take index) ≠ [] := by simp
  rw [← List.tail_append_of_ne_nil hne]
  simp only [List.append_assoc, List.cons_append]

theorem tags_cut {l r : List Bleaf} {lpg rpg : Nat} (hkb : kb.length = before.length) :
    (o.tags ((kb ++ x :: ka).insertIdx (before.length + 1) s) (before ++ ⟨lpg, l, none⟩ :: ⟨rpg, r, none⟩ :: after)).tail =
      (o.tags kb before ++ (true, o.rank x.bytes) :: o.recs l).tail ++ (true, o.rank s.bytes) :: (o.recs r ++ o.tags ka after) := by
  rw [← hkb, insertIdx_after, tags_append hkb, Info.tags, Info.tags]
  have hne : o.tags kb before ++ (true, o.rank x.bytes) :: o.recs l ≠ [] := by simp
  rw [← List.tail_append_of_ne_nil hne]
  simp only [List.append_assoc, List.cons_append]

theorem apart_insert {item : Bleaf} (hapart : (o.tags keys (before ++ h :: after)).tail.Pairwise Apart)
    (hfits : o.Fits key keys before h after index) (habsent : o.Absent key keys (before ++ h :: after) before.length)
    (hitem : item.key.bytes = key) (pgno : Nat) :
    (o.tags keys (before ++ ⟨pgno, h.items.insertIdx index item, none⟩ :: after)).tail.Pairwise Apart := by
  obtain ⟨kb, x, ka, rfl, hkb, hindex, hbelow, habove⟩ := hfits
  have hmem : ∀ b ∈ (o.tags (kb ++ x :: ka) (before ++ h :: after)).tail, b.1 = false → b.2 ≠ o.rank key := fun b hb hfalse heq => by
    rcases mem_tags (List.mem_of_mem_tail hb) with ⟨-, bl, hbl, hrank⟩ | ⟨htrue, -⟩
    · exact habsent.records bl hbl (hrank.trans heq)
    · rw [hfalse] at htrue
      cases htrue
  rw [tags_split hkb index] at hapart hmem
  rw [tags_insert hkb hindex hitem]
  refine Info.Inv.pairwise_insert hapart (fun b hb => ?_) fun b hb => ?_
  · have hle : b.2 ≤ o.rank key := hbelow _ (by
      have := List.mem_map_of_mem (f := Prod.snd) hb
      rwa [below_snd] at this)
    cases hb1 : b.1 with
    | true => exact hle.lt_or_eq.imp_right fun heq => ⟨hb1, rfl, heq⟩
    | false => exact .inl (lt_of_le_of_ne hle (hmem b (List.mem_append_left _ hb) hb1))
  · have hle : o.rank key ≤ b.2 := habove _ (by
      have := List.mem_map_of_mem (f := Prod.snd) hb
      rwa [List.map_append, recs_snd, tags_snd] at this)
    refine .inl (lt_of_le_of_ne hle ?_)
    cases hb1 : b.1 with
    | false => exact (hmem b (List.mem_append_right _ hb) hb1).symm
    | true =>
      rcases List.mem_append.1 hb with hb | hb
      · obtain ⟨bl, -, rfl⟩ := List.mem_map.1 hb
        cases hb1
      · rcases mem_tags hb with ⟨hfalse, -⟩ | ⟨-, y, hy, heq⟩
        · rw [hfalse] at hb1
          cases hb1
        · rw [← heq]
          exact (habsent.keys y (by rw [drop_keys hkb]; exact hy)).symm

theorem apart_split {l r : List Bleaf} {tbl bl : Bleaf} {pgno : Nat} (lpg rpg : Nat) (hkb : kb.length = before.length)
    (hapart : (o.tags (kb ++ x :: ka) (before ++ ⟨pgno, l ++ r, none⟩ :: after)).tail.Pairwise Apart) (htbl : l.getLast? = some tbl)
    (hbl : r.head? = some bl) (hsl : o.rank tbl.key.bytes < o.rank s.bytes) (hsr : o.rank s.bytes ≤ o.rank bl.key.bytes) :
    (o.tags ((kb ++ x :: ka).insertIdx (before.length + 1) s) (before ++ ⟨lpg, l, none⟩ :: ⟨rpg, r, none⟩ :: after)).tail.Pairwise Apart := by
  obtain ⟨l', rfl⟩ := List.getLast?_eq_some_iff.1 htbl
  obtain ⟨r', rfl⟩ := List.head?_eq_some_iff.1 hbl
  rw [tags_split hkb (l' ++ [tbl]).length] at hapart
  simp only [List.take_left', List.drop_left'] at hapart
  have hlast : (o.tags kb before ++ (true, o.rank x.bytes) :: o.recs (l' ++ [tbl])).tail =
      (o.tags kb before ++ (true, o.rank x.bytes) :: o.recs l').tail ++ [(false, o.rank tbl.key.bytes)] := by
    have hne : o.tags kb before ++ (true, o.rank x.bytes) :: o.recs l' ≠ [] := by simp
    rw [← List.tail_append_of_ne_nil hne]
    simp [Info.recs]
  rw [tags_cut hkb]
  obtain ⟨hleft, hright, -⟩ := List.pairwise_append.1 hapart
  refine Info.Inv.pairwise_insert hapart (fun b hb => .inl ?_) fun b hb => ?_
  · rw [hlast] at hb hleft
    rcases List.mem_append.1 hb with hb | hb
    · exact lt_of_le_of_lt ((List.pairwise_append.1 hleft).2.2 b hb _ List.mem_cons_self).le hsl
    · rw [List.mem_singleton.1 hb]
      exact hsl
  · rcases List.mem_cons.1 hb with rfl | hb
    · exact hsr.lt_or_eq.imp_right fun heq => ⟨rfl, rfl, heq⟩
    · exact .inl (lt_of_le_of_lt hsr (((List.pairwise_cons.1 hright).1 b hb).lt_of_record rfl))

theorem absent_erase {bl : Bleaf} {items : List Bleaf} (hapart : (o.tags keys (before ++ h :: after)).tail.Pairwise Apart)
    (hlen : keys.length = (before ++ h :: after).length) (hbl : h.items[index]? = some bl) (hmatch : o.Matches key bl)
    (hitems : items = h.items.eraseIdx index) (pgno : Nat) (stale : Option Bleaf) :
    o.Absent key keys (before ++ ⟨pgno, items, stale⟩ :: after) before.length := by
  obtain ⟨kb, x, ka, rfl, hkb, -, hka⟩ := exists_split hlen
  obtain ⟨hlt, hget⟩ := List.getElem?_eq_some_iff.1 hbl
  rw [tags_split hkb index, List.drop_eq_getElem_cons hlt, hget] at hapart
  obtain ⟨-, habove, hacross⟩ := List.pairwise_append.1 hapart
  have hkey : ((false, o.rank bl.key.bytes) : Bool × ω) ∈ o.recs (bl :: h.items.drop (index + 1)) ++ o.tags ka after :=
    List.mem_append_left _ List.mem_cons_self
  have hbefore : ∀ b ∈ (o.tags kb before ++ (true, o.rank x.bytes) :: o.recs (h.items.take index)).tail, b.1 = false → b.2 ≠ o.rank key :=
    fun b hb hfalse => by
      rw [← show o.rank bl.key.bytes = o.rank key from hmatch]
      exact ((hacross b hb _ hkey).lt_of_record hfalse).ne
  have hafter : ∀ b ∈ o.recs (h.items.drop (index + 1)) ++ o.tags ka after, b.2 ≠ o.rank key := fun b hb => by
    rw [← show o.rank bl.key.bytes = o.rank key from hmatch]
    exact (((List.pairwise_cons.1 habove).1 b hb).lt_of_record rfl).ne'
  constructor
  · intro r hr hr'
    rw [records_append] at hr
    have hpage : Btree.records (⟨pgno, items, stale⟩ :: after) = h.items.take index ++ (h.items.drop (index + 1) ++ Btree.records after) := by
      show items ++ Btree.records after = _
      rw [hitems, List.eraseIdx_eq_take_drop_succ, List.append_assoc]
    rw [hpage] at hr
    have htail : List.Sublist (o.recs (Btree.records before) ++ o.recs (h.items.take index))
        (o.tags kb before ++ (true, o.rank x.bytes) :: o.recs (h.items.take index)).tail := by
      cases kb with
      | nil =>
        obtain rfl := List.length_eq_zero_iff.1 hkb.symm
        exact List.Sublist.refl _
      | cons k kb =>
        cases before with
        | nil => cases hkb
        | cons p before =>
          show List.Sublist (o.recs (p.items ++ Btree.records before) ++ _) _
          rw [recs_append, Info.tags, List.cons_append, List.tail_cons]
          exact ((List.Sublist.refl _).append (recs_sublist (Nat.succ.inj hkb))).append (List.sublist_cons_self _ _)
    rcases List.mem_append.1 hr with hr | hr
    · exact hbefore _ (htail.subset (List.mem_append_left _ (List.mem_map_of_mem hr))) rfl hr'
    · rcases List.mem_append.1 hr with hr | hr
      · exact hbefore _ (htail.subset (List.mem_append_right _ (List.mem_map_of_mem hr))) rfl hr'
      · rcases List.mem_append.1 hr with hr | hr
        · exact hafter _ (List.mem_append_left _ (List.mem_map_of_mem hr)) hr'
        · exact hafter _ (List.mem_append_right _ ((recs_sublist hka).subset (List.mem_map_of_mem hr))) hr'
  · rw [drop_keys hkb]
    exact fun y hy => hafter _ (List.mem_append_right _ (mem_tags_of_key hka hy))

theorem absent_of_lands (hapart : (o.tags keys (before ++ h :: after)).tail.Pairwise Apart)
    (hlen : keys.length = (before ++ h :: after).length) (hlands : o.Lands key keys before.length)
    (hpage : ∀ bl ∈ h.items, ¬o.Matches key bl) : o.Absent key keys (before ++ h :: after) before.length := by
  obtain ⟨kb, x, ka, rfl, hkb, hx, hka⟩ := exists_split hlen
  rw [tags_split hkb 0] at hapart
  simp only [List.take_zero, List.drop_zero] at hapart
  obtain ⟨hbelow, habove, hacross⟩ := List.pairwise_append.1 hapart
  have hlater : ∀ y ∈ ka, o.rank key < o.rank y.bytes := fun y hy => by
    rcases hlands.after with ⟨h0, z, hz, heq⟩ | hafter
    · obtain rfl := Option.some.inj (hx.symm.trans hz)
      have hxy := hacross (true, o.rank x.bytes) (by
        cases kb with
        | nil => exact absurd hkb.symm h0
        | cons k kb =>
          cases before with
          | nil => cases hkb
          | cons p before =>
            rw [Info.tags, List.cons_append, List.tail_cons]
            exact List.mem_append_right _ List.mem_cons_self) _ (List.mem_append_right _ (mem_tags_of_key hka hy))
      rw [← heq]
      exact hxy.lt_of_key rfl
    · obtain ⟨j, hj, rfl⟩ := List.getElem_of_mem hy
      exact hafter (before.length + 1 + j) _ (by omega) (by
        rw [← hkb, List.getElem?_append_right (by omega), Nat.add_assoc, Nat.add_sub_cancel_left, Nat.add_comm 1 j, List.getElem?_cons_succ]
        exact List.getElem?_eq_getElem hj)
  constructor
  · intro bl hbl hmatch
    rw [records_append] at hbl
    rcases List.mem_append.1 hbl with hbl | hbl
    · cases kb with
      | nil =>
        obtain rfl := List.length_eq_zero_iff.1 hkb.symm
        cases hbl
      | cons k kb =>
        cases before with
        | nil => cases hkb
        | cons p before =>
          rw [Info.tags, List.cons_append, List.tail_cons] at hbelow
          have hmem : ((false, o.rank bl.key.bytes) : Bool × ω) ∈ o.recs p.items ++ o.tags kb before := by
            rcases List.mem_append.1 hbl with hbl | hbl
            · exact List.mem_append_left _ (List.mem_map_of_mem hbl)
            · exact List.mem_append_right _ ((recs_sublist (Nat.succ.inj hkb)).subset (List.mem_map_of_mem hbl))
          have hlt := ((List.pairwise_append.1 hbelow).2.2 _ hmem _ List.mem_cons_self).lt_of_key rfl
          have hle := hlands.le x (Nat.succ_ne_zero _) hx
          exact absurd hmatch (lt_of_lt_of_le hlt hle).ne
    · rcases List.mem_append.1 hbl with hbl | hbl
      · exact hpage bl hbl hmatch
      · cases ka with
        | nil =>
          obtain rfl := List.length_eq_zero_iff.1 hka.symm
          cases hbl
        | cons y ka =>
          cases after with
          | nil => cases hka
          | cons q after =>
            have hlt := hlater y List.mem_cons_self
            have hrest := (List.pairwise_append.1 habove).2.1
            rw [Info.tags] at hrest
            have hmem : ((false, o.rank bl.key.bytes) : Bool × ω) ∈ o.recs q.items ++ o.tags ka after := by
              rcases List.mem_append.1 hbl with hbl | hbl
              · exact List.mem_append_left _ (List.mem_map_of_mem hbl)
              · exact List.mem_append_right _ ((recs_sublist (Nat.succ.inj hka)).subset (List.mem_map_of_mem hbl))
            exact absurd hmatch (lt_of_lt_of_le hlt ((List.pairwise_cons.1 hrest).1 _ hmem).le).ne'
  · rw [drop_keys hkb]
    exact fun y hy => (hlater y hy).ne'

theorem searchLeaf_cases (hnodups : o.nodups = true) (hfenced : o.Fenced keys (before ++ h :: after))
    (hapart : (o.tags keys (before ++ h :: after)).tail.Pairwise Apart)
    (hlen : keys.length = (before ++ h :: after).length) (hlands : o.Lands key keys before.length) :
    (o.searchLeaf key before h after).pgno = h.pgno ∧
      (((o.searchLeaf key before h after).exact = true ∧
          ∃ bl, h.items[(o.searchLeaf key before h after).index]? = some bl ∧ o.Matches key bl) ∨
        ((o.searchLeaf key before h after).exact = false ∧ o.Absent key keys (before ++ h :: after) before.length)) := by
  rcases searchPage_spec key (items_le hfenced hlen) with ⟨i, x, hfound, -, hx, heq⟩ | ⟨base, hfound, hbase, -, hbelow, habove⟩
  · simp only [Info.searchLeaf, hfound]
    exact ⟨trivial, .inl ⟨trivial, x, hx, heq.symm⟩⟩
  · simp only [Info.searchLeaf, hfound, hnodups, Bool.not_true, Bool.false_eq_true, false_and, if_false, Option.or, Option.getD]
    refine ⟨trivial, .inr ⟨trivial, absent_of_lands hapart hlen hlands fun bl hbl hmatch => ?_⟩⟩
    obtain ⟨i, hi, rfl⟩ := List.getElem_of_mem hbl
    rcases Nat.lt_or_ge i base with hlt | hge
    · exact absurd hmatch (hbelow i _ hlt (fun h => by cases h) (List.getElem?_eq_getElem hi)).ne
    · exact absurd hmatch (habove i _ hge (List.getElem?_eq_getElem hi)).ne'

theorem btFast_cases (hi : o.Inv t) (hd : o.Distinct t) {nbytes : Nat} {e : Found} (hfast : o.btFast key nbytes t = some (some e))
    (hleaves : t.leaves = before ++ h :: after) (hpg : h.pgno = e.pgno) :
    (e.exact = true ∧ (h.items = [] ∨ ∃ bl, h.items[e.index]? = some bl ∧ o.Matches key bl)) ∨
      (e.exact = false ∧ o.Absent key (tops t.levels) t.leaves before.length) := by
  unfold Info.btFast at hfast
  split at hfast
  · cases hfast
  obtain ⟨⟨before', h', after'⟩, hloc, hfast⟩ := Option.bind_eq_some_iff.1 hfast
  obtain ⟨hleaves', -⟩ := locate_spec hloc
  have hlen : (tops t.levels).length = (before' ++ h' :: after').length := by rw [hi.length, hleaves']
  have hapart := hd.apart
  dsimp only at hfast
  split at hfast
  · cases hfast
  split at hfast
  · split at hfast
    · cases hfast
    next hlast =>
    obtain ⟨rfl, hindex⟩ : after' = [] ∧ t.last.2 + 1 = h'.items.length := by
      rw [not_or, not_not, not_not] at hlast
      exact hlast
    have hbl : h'.items[t.last.2]? = some h'.items[t.last.2] := List.getElem?_eq_getElem (by omega)
    rw [btCmp_of_lt hbl (fun h => by cases h)] at hfast
    split at hfast
    · cases hfast
    · next hcmp =>
      cases hfast
      obtain ⟨-, rfl, -⟩ := hi.page_unique hleaves hleaves' hpg
      exact .inl ⟨rfl, .inr ⟨_, hbl, (compare_eq_iff_eq.1 hcmp).symm⟩⟩
    · next hcmp =>
      cases hfast
      obtain ⟨rfl, rfl, rfl⟩ := hi.page_unique hleaves hleaves' hpg
      refine .inr ⟨rfl, ⟨fun bl hmem hmatch => ?_, fun y hy => ?_⟩⟩
      · -- the last record of all is before the key
        have hlt : o.rank h.items[t.last.2].key.bytes < o.rank key := compare_gt_iff_gt.1 hcmp
        have hfenced := hi.fenced
        rw [hleaves] at hfenced hmem
        have hsorted := records_sorted hfenced hlen
        have hall : records (before ++ [h]) = (records before ++ h.items.take t.last.2) ++ [h.items[t.last.2]] := by
          rw [records_append, List.append_assoc]
          congr 1
          show h.items ++ [] = _
          rw [List.append_nil, List.take_append_getElem, List.take_of_length_le (Nat.le_of_eq hindex.symm)]
        rw [hall] at hsorted hmem
        have hle : o.rank bl.key.bytes ≤ o.rank h.items[t.last.2].key.bytes := by
          rcases List.mem_append.1 hmem with hmem | hmem
          · rw [ranks_append] at hsorted
            exact (List.pairwise_append.1 hsorted).2.2 _ (List.mem_map_of_mem hmem) _ List.mem_cons_self
          · rw [List.mem_singleton.1 hmem]
        exact absurd hmatch (lt_of_le_of_lt hle hlt).ne
      · rw [List.drop_of_length_le (by rw [hlen]; simp)] at hy
        cases hy
  · split at hfast
    · cases hfast
    next hlast =>
    obtain ⟨rfl, -⟩ : before' = [] ∧ t.last.2 = 0 := by
      rw [not_or, not_not, not_not] at hlast
      exact hlast
    obtain ⟨bl, hbl, hfast⟩ := Option.bind_eq_some_iff.1 hfast
    have he : e = ⟨h'.pgno, 0, e.exact⟩ := by
      split at hfast
      · cases hfast
      · cases hfast
        rfl
    obtain ⟨rfl, rfl, rfl⟩ := hi.page_unique hleaves hleaves' (by rw [hpg, he])
    split at hfast
    · cases hfast
    next hcmp =>
    have hle : o.rank key ≤ o.rank bl.key.bytes := not_lt.1 fun hlt => hcmp (compare_gt_iff_gt.2 hlt)
    cases hfast
    by_cases heq : o.cmp key bl.key.bytes = .eq
    · refine .inl ⟨decide_eq_true heq, ?_⟩
      cases hitems : h.items with
      | nil => exact .inl rfl
      | cons bl' rest =>
        rw [hitems] at hbl
        obtain rfl : bl' = bl := Option.some.inj hbl
        exact .inr ⟨bl', rfl, (compare_eq_iff_eq.1 heq).symm⟩
    · have hlt : o.rank key < o.rank bl.key.bytes := lt_of_le_of_ne hle fun h => heq (compare_eq_iff_eq.2 h)
      have hall : ∀ b ∈ (o.tags (tops t.levels) t.leaves).tail, o.rank bl.key.bytes ≤ b.2 := by
        intro b hb
        cases hitems : h.items with
        | nil =>
          rw [hitems] at hbl
          exact (hd.stale h after hleaves hitems bl hbl b hb).le
        | cons bl' rest =>
          rw [hitems] at hbl
          obtain rfl : bl' = bl := Option.some.inj hbl
          obtain ⟨kb, x, ka, hkeys, hkb, -, -⟩ := exists_split hlen
          obtain rfl := List.length_eq_zero_iff.1 hkb
          rw [hleaves, hkeys] at hb hapart
          simp only [List.nil_append, Info.tags, List.tail_cons, hitems, Info.recs, List.map_cons, List.cons_append] at hb hapart
          rcases List.mem_cons.1 hb with rfl | hb
          · exact le_refl _
          · exact ((List.pairwise_cons.1 hapart).1 b hb).le
      obtain ⟨kb, x, ka, hkeys, hkb, -, hka⟩ := exists_split hlen
      obtain rfl := List.length_eq_zero_iff.1 hkb
      rw [hleaves, hkeys] at hall
      simp only [List.nil_append, Info.tags, List.tail_cons] at hall
      refine .inr ⟨decide_eq_false heq, ⟨fun r hr hmatch => ?_, fun y hy => ?_⟩⟩
      · rw [hleaves] at hr
        have hmem : ((false, o.rank r.key.bytes) : Bool × ω) ∈ o.recs h.items ++ o.tags ka after := by
          rcases List.mem_append.1 hr with hr | hr
          · exact List.mem_append_left _ (List.mem_map_of_mem hr)
          · exact List.mem_append_right _ ((recs_sublist hka).subset (List.mem_map_of_mem hr))
        exact absurd hmatch (lt_of_lt_of_le hlt (hall _ hmem)).ne'
      · rw [hkeys] at hy
        exact (lt_of_lt_of_le hlt (hall _ (List.mem_append_right _ (mem_tags_of_key hka hy)))).ne'

theorem Info.Distinct.stale_insert (hd : o.Distinct t) (hleaves : t.leaves = before ++ h :: after) (hitem : item.key.bytes = key)
    (hfits : o.Fits key (tops t.levels) before h after index) (pgno : Nat) : ∀ q rest, before = q :: rest → q.items = [] → ∀ bl ∈ q.stale,
      ∀ b ∈ (o.tags (tops t.levels) (before ++ ⟨pgno, h.items.insertIdx index item, none⟩ :: after)).tail, o.rank bl.key.bytes < b.2 := by
  intro q rest hq hnil bl hbl b hb
  have hold := hd.stale q (rest ++ h :: after) (by rw [hleaves, hq]; rfl) hnil bl hbl
  obtain ⟨kb, x, ka, hkeys, hkb, hindex, hbelow, -⟩ := hfits
  rw [hkeys, hleaves, tags_split hkb index] at hold
  rw [hkeys, tags_insert hkb hindex hitem] at hb
  rcases List.mem_append.1 hb with hb | hb
  · exact hold b (List.mem_append_left _ hb)
  · rcases List.mem_cons.1 hb with rfl | hb
    · have hx : ((true, o.rank x.bytes) : Bool × ω) ∈ (o.tags kb before ++ (true, o.rank x.bytes) :: o.recs (h.items.take index)).tail := by
        cases kb with
        | nil =>
          rw [hq] at hkb
          cases hkb
        | cons k kb =>
          rw [hq]
          simp [Info.tags]
      refine lt_of_lt_of_le (hold _ (List.mem_append_left _ hx)) (hbelow _ ?_)
      have := List.mem_map_of_mem (f := Prod.snd) hx
      rwa [below_snd] at this
    · exact hold b (List.mem_append_right _ hb)

theorem Info.Distinct.placed (hd : o.Distinct t) (hleaves : t.leaves = before ++ h :: after) (hitem : item.key.bytes = key)
    (hfits : o.Fits key (tops t.levels) before h after index) (habsent : o.Absent key (tops t.levels) t.leaves before.length)
    (hplaced : o.Placed t t' before h after (h.items.insertIdx index item)) : o.Distinct t' := by
  have hinsert := apart_insert (hleaves ▸ hd.apart) hfits (hleaves ▸ habsent) hitem
  have hstale := hd.stale_insert hleaves hitem hfits
  obtain ⟨hlevels, hleaves'⟩ | ⟨l, r, s, tbl, bl, lpg, rpg, hlr, htbl, hbl, hlt, hsr, htops, hleaves'⟩ := hplaced
  · refine ⟨by rw [hlevels, hleaves']; exact hinsert h.pgno, fun q rest hq hnil b hb => ?_⟩
    rw [hlevels, hleaves']
    rw [hleaves'] at hq
    cases before with
    | nil =>
      cases hq
      obtain ⟨-, -, -, -, -, hindex, -⟩ := hfits
      have hlen := List.length_insertIdx_of_le_length (a := item) hindex
      rw [show h.items.insertIdx index item = [] from hnil] at hlen
      cases hlen
    | cons p before =>
      cases hq
      exact hstale h.pgno q before rfl hnil b hb
  · obtain ⟨kb, x, ka, hkeys, hkb, -⟩ := hfits
    rw [← hlr, hkeys] at hinsert hstale
    have htblmem : ((false, o.rank tbl.key.bytes) : Bool × ω) ∈ o.recs l := List.mem_map_of_mem (List.mem_of_getLast? htbl)
    have hblmem : ((false, o.rank bl.key.bytes) : Bool × ω) ∈ o.recs r := List.mem_map_of_mem (List.mem_of_head? hbl)
    have hrecs : (o.recs (l ++ r)).Pairwise Apart := by
      have hall := hinsert h.pgno
      rw [tags_split hkb 0] at hall
      exact (List.pairwise_append.1 (List.pairwise_append.1 hall).2.1).1
    rw [recs_append] at hrecs
    have hsl := hlt (((List.pairwise_append.1 hrecs).2.2 _ htblmem _ hblmem).lt_of_record rfl)
    have hcut := apart_split lpg rpg hkb (hinsert h.pgno) htbl hbl hsl hsr
    refine ⟨by rw [htops, hleaves', hkeys]; exact hcut, fun q rest hq hnil b hb y hy => ?_⟩
    rw [hleaves'] at hq
    cases before with
    | nil =>
      cases hq
      rw [show l = [] from hnil] at htbl
      cases htbl
    | cons p before =>
      cases hq
      have hold := hstale h.pgno q before rfl hnil b hb
      rw [tags_split hkb l.length] at hold
      simp only [List.take_left', List.drop_left'] at hold
      rw [htops, hleaves', hkeys, tags_cut hkb] at hy
      rcases List.mem_append.1 hy with hy | hy
      · exact hold y (List.mem_append_left _ hy)
      · rcases List.mem_cons.1 hy with rfl | hy
        · refine lt_trans (hold (false, o.rank tbl.key.bytes) (List.mem_append_left _ ?_)) hsl
          cases kb with
          | nil => cases hkb
          | cons k kb => exact List.mem_append_right _ (List.mem_cons_of_mem _ htblmem)
        · exact hold y (List.mem_append_right _ hy)

theorem Info.Distinct.shrink (hd : o.Distinct t) (hi : o.Inv t) (hshrunk : List.Forall₂ Info.Inv.Shrunk t.leaves leaves) :
    o.Distinct { t with leaves := leaves } := by
  have hsub : ∀ (keys : List Key) {l l' : List (Page Bleaf)}, List.Forall₂ Info.Inv.Shrunk l l' → List.Sublist (o.tags keys l') (o.tags keys l) := by
    intro keys l l' hl
    induction hl generalizing keys with
    | nil => exact List.Sublist.refl _
    | cons hp _ ih =>
      cases keys with
      | nil => exact List.Sublist.refl _
      | cons k keys => exact ((hp.items.map _).append (ih _)).cons_cons _
  have htail := (hsub (tops t.levels) hshrunk).tail
  refine ⟨hd.apart.sublist htail, fun q' rest hq hnil bl hbl b hb => ?_⟩
  dsimp only at hq hb
  subst hq
  obtain ⟨q, rest₀, hsh, hrest, hleaves⟩ := List.forall₂_cons_right_iff.1 hshrunk
  rcases hsh.stale hnil bl hbl with ⟨hnil', hstale⟩ | hbl'
  · exact hd.stale q rest₀ hleaves hnil' bl hstale b (htail.subset hb)
  · have hlen := hi.length
    have hapart := hd.apart
    cases hkeys : tops t.levels with
    | nil =>
      rw [hkeys, hleaves] at hlen
      cases hlen
    | cons k keys =>
      rw [hkeys, hleaves] at hapart
      rw [hkeys] at hb
      simp only [Info.tags, List.tail_cons, hnil, Info.recs, List.map_nil, List.nil_append] at hapart hb
      exact ((List.pairwise_append.1 hapart).2.2 _ (List.mem_map_of_mem hbl') b ((hsub _ hrest).subset hb)).lt_of_record rfl

theorem Info.Inv.search_nodups (hi : o.Inv t) (hd : o.Distinct t) (hnodups : o.nodups = true) (key : Dbt) :
    ∃ e stack before h after, o.btSearch key t = some (e, h.pgno, stack) ∧ t.leaves = before ++ h :: after ∧ h.pgno = e.pgno ∧
      Stacked t.levels stack before.length ∧ o.Fits key (tops t.levels) before h after e.index ∧
      ((e.exact = true ∧ ∃ bl, h.items[e.index]? = some bl ∧ o.Matches key bl) ∨
        (e.exact = false ∧ o.Absent key (tops t.levels) t.leaves before.length)) := by
  obtain ⟨⟨e, pg, stack⟩, hsearch⟩ := hi.exists_btSearch key
  obtain ⟨before, h, after, hleaves, rfl, rfl, hstack, hlands⟩ := hi.btSearch_spec hsearch
  have hlen : (tops t.levels).length = (before ++ h :: after).length := by rw [hi.length, hleaves]
  have hfenced := hi.fenced
  have hapart := hd.apart
  rw [hleaves] at hfenced hapart
  obtain ⟨hpg, hcases⟩ := searchLeaf_cases hnodups hfenced hapart hlen hlands
  obtain ⟨before', h', after', hsplit, hpg', hfits, -⟩ := searchLeaf_spec hfenced hlen hlands
  obtain ⟨rfl, rfl, rfl⟩ := hi.page_unique hleaves (hleaves.trans hsplit) (hpg.symm.trans hpg'.symm)
  exact ⟨_, stack, before, h, after, hsearch, hleaves, hpg.symm, hstack, hfits, by rw [hleaves]; exact hcases⟩

theorem Info.Distinct.sorted (hd : o.Distinct t) (hi : o.Inv t) :
    (records t.leaves).Pairwise fun a b => o.rank a.key.bytes < o.rank b.key.bytes := by
  have hlen := hi.length
  have hapart := hd.apart
  cases hleaves : t.leaves with
  | nil => exact List.Pairwise.nil
  | cons p rest =>
    cases hkeys : tops t.levels with
    | nil =>
      rw [hkeys, hleaves] at hlen
      cases hlen
    | cons k keys =>
      rw [hkeys, hleaves] at hapart hlen
      have hsub : List.Sublist (o.recs (p.items ++ records rest)) (o.recs p.items ++ o.tags keys rest) := by
        rw [recs_append]
        exact (List.Sublist.refl _).append (recs_sublist (Nat.succ.inj hlen))
      exact (List.pairwise_map.1 (List.Pairwise.sublist hsub hapart)).imp fun h => h.lt_of_record rfl

def Info.Describes (o : Info ω) (t : Tree) (m : ω → Option Dbt) : Prop :=
  ∀ k d, m k = some d ↔ ∃ bl ∈ records t.leaves, o.rank bl.key.bytes = k ∧ bl.data = d

structure Info.Holds (o : Info ω) (t : Tree) (m : ω → Option Dbt) : Prop where
  inv : o.Inv t
  distinct : o.Distinct t
  describes : o.Describes t m

def reply : Option Dbt → Status × Option Dbt
  | some d => (.success, some d)
  | none => (.special, none)

theorem page_items {bl : Bleaf} (hbl : h.items[index]? = some bl) (items : List Bleaf) : ∃ stale, h.left items = ⟨h.pgno, items, stale⟩ := by
  have hne : h.items ≠ [] := List.ne_nil_of_mem (List.mem_of_getElem? hbl)
  unfold Page.left
  rw [if_neg hne]
  exact ⟨_, rfl⟩

theorem mem_records_of_page {bl : Bleaf} (hleaves : leaves = before ++ h :: after) (hbl : bl ∈ h.items) : bl ∈ records leaves := by
  rw [hleaves, records_append]
  exact List.mem_append_right _ (List.mem_append_left _ hbl)

theorem Info.Placed.records (hplaced : o.Placed t t' before h after items) :
    records t'.leaves = records before ++ (items ++ records after) := by
  obtain ⟨-, hleaves'⟩ | ⟨l, r, s, tbl, bl, lpg, rpg, hlr, -, -, -, -, -, hleaves'⟩ := hplaced
  · rw [hleaves', records_append]
    rfl
  · rw [hleaves', records_append, ← hlr, List.append_assoc]
    rfl

def Info.Fresh (o : Info ω) (key : Dbt) (t : Tree) : Prop :=
  t.order = .back → ∀ h ∈ t.leaves.head?, h.items = [] → ∀ bl ∈ h.stale, ¬o.Matches key bl

theorem Info.Fresh.items_ne_nil (hfresh : o.Fresh key t) (hi : o.Inv t) {nbytes : Nat} {e : Found}
    (hfast : o.btFast key nbytes t = some (some e)) (hexact : e.exact = true) (hleaves : t.leaves = before ++ h :: after)
    (hpg : h.pgno = e.pgno) : h.items ≠ [] := by
  intro hnil
  unfold Info.btFast at hfast
  split at hfast
  · cases hfast
  next hnot =>
  obtain ⟨⟨before', h', after'⟩, hloc, hfast⟩ := Option.bind_eq_some_iff.1 hfast
  obtain ⟨hleaves', -⟩ := locate_spec hloc
  dsimp only at hfast
  split at hfast
  · cases hfast
  split at hfast
  · split at hfast
    · cases hfast
    next hlast =>
    have hindex : t.last.2 + 1 = h'.items.length := by
      rw [not_or, not_not, not_not] at hlast
      exact hlast.2
    have hpg' : e.pgno = h'.pgno := by
      split at hfast <;> cases hfast <;> rfl
    obtain ⟨-, rfl, -⟩ := hi.page_unique hleaves hleaves' (hpg.trans hpg')
    rw [hnil] at hindex
    cases hindex
  · next horder =>
    split at hfast
    · cases hfast
    next hlast =>
    obtain ⟨rfl, -⟩ : before' = [] ∧ t.last.2 = 0 := by
      rw [not_or, not_not, not_not] at hlast
      exact hlast
    obtain ⟨bl, hbl, hfast⟩ := Option.bind_eq_some_iff.1 hfast
    split at hfast
    · cases hfast
    cases hfast
    obtain ⟨rfl, rfl, rfl⟩ := hi.page_unique hleaves hleaves' hpg
    have hback : t.order = .back := by
      cases h : t.order with
      | not => exact absurd h hnot
      | back => rfl
      | forward => exact absurd h horder
    rw [hnil] at hbl
    exact hfresh hback h (by rw [hleaves]; rfl) hnil bl hbl (compare_eq_iff_eq.1 (of_decide_eq_true hexact)).symm

theorem used_eraseIdx {α : Type} [Item α] (items : List α) (index : Nat) : used (items.eraseIdx index) ≤ used items := by
  induction items generalizing index with
  | nil => exact Nat.le_refl _
  | cons a items ih =>
    cases index with
    | zero => exact Nat.le_add_left _ _
    | succ index => exact Nat.add_le_add_left (ih index) _

theorem fits_eraseIdx {nbytes : Nat} (hroom : o.fits items nbytes = true) (index : Nat) : o.fits (items.eraseIdx index) nbytes = true := by
  have hle := used_eraseIdx items index
  have hroom' := of_decide_eq_true hroom
  exact decide_eq_true (by omega)

theorem Info.Fits.erase (hfits : o.Fits key keys before h after index) (hlt : index < h.items.length) (pgno : Nat) (stale : Option Bleaf) :
    o.Fits key keys before ⟨pgno, h.items.eraseIdx index, stale⟩ after index := by
  obtain ⟨kb, x, ka, hkeys, hkb, -, hbelow, habove⟩ := hfits
  have htake : (h.items.eraseIdx index).take index = h.items.take index := by
    rw [List.eraseIdx_eq_take_drop_succ]
    exact List.take_left' (by rw [List.length_take]; omega)
  have hdrop : (h.items.eraseIdx index).drop index = h.items.drop (index + 1) := by
    rw [List.eraseIdx_eq_take_drop_succ]
    exact List.drop_left' (by rw [List.length_take]; omega)
  refine ⟨kb, x, ka, hkeys, hkb, ?_, ?_, ?_⟩
  · rw [List.length_eraseIdx_of_lt hlt]
    omega
  · rw [htake]
    exact hbelow
  · intro b hb
    rw [hdrop] at hb
    refine habove b ?_
    rw [List.drop_eq_getElem_cons hlt]
    exact List.mem_cons_of_mem _ hb

theorem mem_others {bl : Bleaf} : bl ∈ o.others key items ↔ bl ∈ items ∧ ¬o.Matches key bl := by
  rw [Info.others, List.mem_filter, decide_eq_true_iff]

theorem storeKey_data (o : Info ω) (kb key data : Dbt) : (o.storeKey kb key data).1.data = data := by
  unfold Info.storeKey
  split_ifs <;> rfl

namespace Info.Holds

variable {m : ω → Option Dbt}

theorem none_of_absent (hm : o.Holds t m) (habsent : o.Absent key (tops t.levels) t.leaves n) : m (o.rank key) = none := by
  cases hk : m (o.rank key) with
  | none => rfl
  | some d =>
    obtain ⟨bl, hbl, hrank, -⟩ := (hm.describes _ d).1 hk
    exact absurd hrank (habsent.records bl hbl)

theorem some_of_found (hm : o.Holds t m) (hleaves : t.leaves = before ++ h :: after) {bl : Bleaf} (hbl : h.items[index]? = some bl)
    (hmatch : o.Matches key bl) : m (o.rank key) = some bl.data :=
  (hm.describes _ _).2 ⟨bl, mem_records_of_page hleaves (List.mem_of_getElem? hbl), hmatch, rfl⟩

theorem btGet (hm : o.Holds t m) (hnodups : o.nodups = true) (key : Dbt) : o.btGet key t = some (reply (m (o.rank key))) := by
  obtain ⟨e, stack, before, h, after, hsearch, hleaves, hpg, -, -, hcases⟩ := hm.inv.search_nodups hm.distinct hnodups key
  rw [Info.btGet, hsearch]
  dsimp only [bind, Option.bind]
  rcases hcases with ⟨hexact, bl, hbl, hmatch⟩ | ⟨hexact, habsent⟩
  · have hloc : locate e.pgno t.leaves = some (before, h, after) := by
      rw [hleaves, ← hpg]
      exact locate_append (hleaves ▸ hm.inv.nodup)
    rw [if_pos hexact, hloc, hm.some_of_found hleaves hbl hmatch]
    dsimp only
    rw [hbl]
    rfl
  · rw [if_neg (by simp [hexact]), hm.none_of_absent habsent]
    rfl

theorem congr (hm : o.Holds t m) (hlevels : t'.levels = t.levels) (hleaves : t'.leaves = t.leaves) (hnext : t'.next = t.next) :
    o.Holds t' m := by
  obtain ⟨levels, leaves, next, order, last⟩ := t
  obtain ⟨levels', leaves', next', order', last'⟩ := t'
  dsimp only at hlevels hleaves hnext
  subst hlevels hleaves hnext
  exact ⟨⟨hm.inv.leads, hm.inv.nodup, hm.inv.fresh, hm.inv.root, hm.inv.fenced, hm.inv.plain, hm.inv.stale⟩,
    ⟨hm.distinct.apart, hm.distinct.stale⟩, hm.describes⟩

theorem insert (hm : o.Holds t m) (hleaves : t.leaves = before ++ h :: after) (hitem : item.key.bytes = key) (hplain : item.key.chain = none)
    (hfits : o.Fits key (tops t.levels) before h after index) (habsent : o.Absent key (tops t.levels) t.leaves before.length)
    (hi : o.Inv t') (hplaced : o.Placed t t' before h after (h.items.insertIdx index item)) :
    o.Holds t' (update m (o.rank key) (some item.data)) := by
  refine ⟨hi, hm.distinct.placed hleaves hitem hfits habsent hplaced, fun k d => ?_⟩
  obtain ⟨-, -, -, -, -, hindex, -⟩ := hfits
  have hmem : ∀ bl, bl ∈ records t'.leaves ↔ bl = item ∨ bl ∈ records t.leaves := fun bl => by
    rw [hplaced.records, hleaves, records_append]
    show _ ↔ bl = item ∨ bl ∈ records before ++ (h.items ++ records after)
    simp only [List.mem_append, List.mem_insertIdx hindex]
    tauto
  by_cases hk : k = o.rank key
  · subst hk
    rw [Function.update_self]
    constructor
    · intro hd
      exact ⟨item, (hmem item).2 (.inl rfl), by rw [hitem], Option.some.inj hd⟩
    · rintro ⟨bl, hbl, hrank, rfl⟩
      rcases (hmem bl).1 hbl with rfl | hbl
      · rfl
      · exact absurd hrank (habsent.records bl hbl)
  · rw [Function.update_of_ne hk, hm.describes]
    constructor
    · rintro ⟨bl, hbl, hrank, hd⟩
      exact ⟨bl, (hmem bl).2 (.inr hbl), hrank, hd⟩
    · rintro ⟨bl, hbl, hrank, hd⟩
      rcases (hmem bl).1 hbl with rfl | hbl
      · exact absurd (hrank.symm.trans (by rw [hitem])) hk
      · exact ⟨bl, hbl, hrank, hd⟩

theorem shrink (hm : o.Holds t m) (hshrunk : List.Forall₂ Info.Inv.Shrunk t.leaves leaves)
    (hrecords : ∀ bl, bl ∈ records leaves ↔ bl ∈ records t.leaves ∧ ¬o.Matches key bl) :
    o.Holds { t with leaves := leaves } (update m (o.rank key) none) := by
  refine ⟨hm.inv.shrink hshrunk, hm.distinct.shrink hm.inv hshrunk, fun k d => ?_⟩
  by_cases hk : k = o.rank key
  · subst hk
    rw [Function.update_self]
    constructor
    · intro hd
      cases hd
    · rintro ⟨bl, hbl, hrank, -⟩
      exact absurd hrank ((hrecords bl).1 hbl).2
  · rw [Function.update_of_ne hk, hm.describes]
    constructor
    · rintro ⟨bl, hbl, hrank, hd⟩
      exact ⟨bl, (hrecords bl).2 ⟨hbl, fun hmatch => hk (hrank.symm.trans hmatch)⟩, hrank, hd⟩
    · rintro ⟨bl, hbl, hrank, hd⟩
      exact ⟨bl, ((hrecords bl).1 hbl).1, hrank, hd⟩

theorem erase (hm : o.Holds t m) (hleaves : t.leaves = before ++ h :: after) {bl : Bleaf} (hbl : h.items[index]? = some bl)
    (hmatch : o.Matches key bl) :
    o.Holds { t with leaves := before ++ h.left (h.items.eraseIdx index) :: after } (update m (o.rank key) none) ∧
      o.Absent key (tops t.levels) (before ++ h.left (h.items.eraseIdx index) :: after) before.length := by
  obtain ⟨stale, hpage⟩ := page_items hbl (h.items.eraseIdx index)
  have hlen : (tops t.levels).length = (before ++ h :: after).length := by rw [hm.inv.length, hleaves]
  have habsent := absent_erase (hleaves ▸ hm.distinct.apart) hlen hbl hmatch rfl h.pgno stale
  rw [← hpage] at habsent
  refine ⟨hm.shrink ?_ fun b => ?_, habsent⟩
  · rw [hleaves]
    exact List.rel_append (Info.Inv.forall₂_refl before) (.cons (.left (List.eraseIdx_sublist _ _)) (Info.Inv.forall₂_refl after))
  · constructor
    · intro hb
      refine ⟨?_, habsent.records b hb⟩
      rw [hleaves]
      rw [hpage, records_append] at hb
      rw [records_append]
      rcases List.mem_append.1 hb with hb | hb
      · exact List.mem_append_left _ hb
      · rcases List.mem_append.1 hb with hb | hb
        · exact List.mem_append_right _ (List.mem_append_left _ (List.mem_of_mem_eraseIdx hb))
        · exact List.mem_append_right _ (List.mem_append_right _ hb)
    · rintro ⟨hb, hnot⟩
      rw [hleaves, records_append] at hb
      rw [hpage, records_append]
      rcases List.mem_append.1 hb with hb | hb
      · exact List.mem_append_left _ hb
      · rcases List.mem_append.1 hb with hb | hb
        · refine List.mem_append_right _ (List.mem_append_left _ ?_)
          obtain ⟨hlt, hget⟩ := List.getElem?_eq_some_iff.1 hbl
          have hsplit : h.items = h.items.take index ++ bl :: h.items.drop (index + 1) := by
            rw [← hget, ← List.drop_eq_getElem_cons hlt, List.take_append_drop]
          replace hb : b ∈ h.items := hb
          rw [hsplit] at hb
          show b ∈ h.items.eraseIdx index
          rw [List.eraseIdx_eq_take_drop_succ]
          rcases List.mem_append.1 hb with hb | hb
          · exact List.mem_append_left _ hb
          · rcases List.mem_cons.1 hb with rfl | hb
            · exact absurd hmatch hnot
            · exact List.mem_append_right _ hb
        · exact List.mem_append_right _ (List.mem_append_right _ hb)

theorem place (hm : o.Holds t m) (hleaves : t.leaves = before ++ h :: after) (hitem : item.key.bytes = key) (hplain : item.key.chain = none)
    (hfits : o.Fits key (tops t.levels) before h after index) (habsent : o.Absent key (tops t.levels) t.leaves before.length)
    (hstack : o.fits h.items (Item.nbytes item) = true ∨ Stacked t.levels stack before.length)
    (hput : (if o.fits h.items (Item.nbytes item) = true then
        some (hint { t with leaves := before ++ ⟨h.pgno, h.items.insertIdx index item, none⟩ :: after } h.pgno index
          (h.items.insertIdx index item).length before.isEmpty after.isEmpty)
      else o.btSplit t stack h.pgno index item) = some t') : o.Holds t' (update m (o.rank key) (some item.data)) := by
  obtain ⟨hi, hplaced⟩ := hm.inv.placed hleaves hitem hplain hfits hstack hput
  exact hm.insert hleaves hitem hplain hfits habsent hi hplaced

theorem putAt (hm : o.Holds t m) (hnodups : o.nodups = true) {e : Found} (hleaves : t.leaves = before ++ h :: after) (hpg : h.pgno = e.pgno)
    (hitem : item.key.bytes = key) (hplain : item.key.chain = none) (hfits : o.Fits key (tops t.levels) before h after e.index)
    (hstack : o.fits h.items (Item.nbytes item) = true ∨ Stacked t.levels stack before.length)
    (hfound : (e.exact = true ∧ ∃ bl, h.items[e.index]? = some bl ∧ o.Matches key bl) ∨
      (e.exact = false ∧ o.Absent key (tops t.levels) t.leaves before.length))
    (hput : o.putAt t stack e item = some t') : o.Holds t' (update m (o.rank key) (some item.data)) := by
  have hloc : locate e.pgno t.leaves = some (before, h, after) := by
    rw [hleaves, ← hpg]
    exact locate_append (hleaves ▸ hm.inv.nodup)
  rw [Info.putAt, hloc] at hput
  dsimp only [bind, Option.bind] at hput
  rcases hfound with ⟨hexact, bl, hbl, hmatch⟩ | ⟨hexact, habsent⟩
  · obtain ⟨hm₁, habsent⟩ := hm.erase hleaves hbl hmatch
    obtain ⟨stale, hpage⟩ := page_items hbl (h.items.eraseIdx e.index)
    have hlt := (List.getElem?_eq_some_iff.1 hbl).1
    rw [if_pos ⟨hexact, hnodups⟩, if_pos hlt] at hput
    rw [hpage] at hm₁ habsent hput
    have hplace := hm₁.place rfl hitem hplain (hfits.erase hlt h.pgno stale) habsent
      (hstack.imp_left fun hroom => fits_eraseIdx hroom e.index) hput
    rwa [Function.update_idem] at hplace
  · rw [if_neg (by simp [hexact])] at hput
    have hm₁ : o.Holds { t with leaves := before ++ h :: after } m := hm.congr rfl hleaves.symm rfl
    exact hm₁.place rfl hitem hplain hfits (hleaves ▸ habsent) hstack hput

theorem btFast_found (hm : o.Holds t m) (hfresh : o.Fresh key t) {nbytes : Nat} {e : Found} (hfast : o.btFast key nbytes t = some (some e)) :
    ∃ before h after, t.leaves = before ++ h :: after ∧ h.pgno = e.pgno ∧ o.Fits key (tops t.levels) before h after e.index ∧
      o.fits h.items nbytes = true ∧ ((e.exact = true ∧ ∃ bl, h.items[e.index]? = some bl ∧ o.Matches key bl) ∨
        (e.exact = false ∧ o.Absent key (tops t.levels) t.leaves before.length)) := by
  obtain ⟨before, h, after, hleaves, hpg, hfits, hroom⟩ := hm.inv.btFast_spec hfast
  refine ⟨before, h, after, hleaves, hpg, hfits, hroom, (btFast_cases hm.inv hm.distinct hfast hleaves hpg).imp_left ?_⟩
  rintro ⟨hexact, hnil | hbl⟩
  · exact absurd hnil (hfresh.items_ne_nil hm.inv hfast hexact hleaves hpg)
  · exact ⟨hexact, hbl⟩

theorem btPut (hm : o.Holds t m) (hnodups : o.nodups = true) {kb data : Dbt} {nooverwrite : Bool} {status : Status}
    (hplain : (o.storeKey kb key data).1.key.chain = none) (hfresh : o.Fresh key t)
    (hput : o.btPut kb key data nooverwrite t = some (status, t')) :
    (status, (t'.levels, t'.leaves)) = (Status.special, (t.levels, t.leaves)) ∧ nooverwrite = true ∧ (m (o.rank key)).isSome = true ∧ o.Holds t' m ∨
      status = .success ∧ ¬(nooverwrite = true ∧ (m (o.rank key)).isSome = true) ∧ o.Holds t' (update m (o.rank key) (some data)) := by
  obtain ⟨hbytes, hk⟩ := storeKey_plain hplain
  have hdata := storeKey_data o kb key data
  unfold Info.btPut at hput
  generalize o.storeKey kb key data = stored at *
  obtain ⟨item, k⟩ := stored
  dsimp only at hbytes hk hplain hdata hput
  subst hk hdata
  obtain ⟨fast, hfast, hput⟩ := Option.bind_eq_some_iff.1 hput
  have hrest : ∀ (e : Found) (stack : List (Nat × Nat)) (t₁ : Tree),
      (if e.exact = true ∧ nooverwrite = true then some (Status.special, t₁)
        else (o.putAt t₁ stack e item).bind fun t₂ => some (Status.success, t₂)) = some (status, t') →
      t₁.levels = t.levels → t₁.leaves = t.leaves → t₁.next = t.next →
      (∃ before h after, t.leaves = before ++ h :: after ∧ h.pgno = e.pgno ∧ o.Fits k (tops t.levels) before h after e.index ∧
        (o.fits h.items (Item.nbytes item) = true ∨ Stacked t.levels stack before.length) ∧
        ((e.exact = true ∧ ∃ bl, h.items[e.index]? = some bl ∧ o.Matches k bl) ∨
          (e.exact = false ∧ o.Absent k (tops t.levels) t.leaves before.length))) →
      (status, (t'.levels, t'.leaves)) = (Status.special, (t.levels, t.leaves)) ∧ nooverwrite = true ∧ (m (o.rank k)).isSome = true ∧ o.Holds t' m ∨
        status = .success ∧ ¬(nooverwrite = true ∧ (m (o.rank k)).isSome = true) ∧ o.Holds t' (update m (o.rank k) (some item.data)) := by
    rintro e stack t₁ hput hlevels hleaves₁ hnext ⟨before, h, after, hleaves, hpg, hfits, hstack, hfound⟩
    have hm₁ := hm.congr hlevels hleaves₁ hnext
    split at hput
    · next hspecial =>
      cases hput
      obtain ⟨-, bl, hbl, hmatch⟩ := hfound.resolve_right fun h => by simp [hspecial.1] at h
      exact .inl ⟨by rw [hlevels, hleaves₁], hspecial.2, by rw [hm.some_of_found hleaves hbl hmatch]; rfl, hm₁⟩
    · next hspecial =>
      obtain ⟨t₂, hput, heq⟩ := Option.bind_eq_some_iff.1 hput
      cases heq
      refine .inr ⟨rfl, fun ⟨hover, hsome⟩ => ?_, hm₁.putAt hnodups (hleaves₁.trans hleaves) hpg hbytes hplain (by rw [hlevels]; exact hfits)
        (by rw [hlevels]; exact hstack) (by rw [hlevels, hleaves₁]; exact hfound) hput⟩
      rcases hfound with ⟨hexact, -⟩ | ⟨-, habsent⟩
      · exact hspecial ⟨hexact, hover⟩
      · rw [hm.none_of_absent habsent] at hsome
        cases hsome
  cases fast with
  | some e =>
    obtain ⟨before, h, after, hleaves, hpg, hfits, hroom, hfound⟩ := hm.btFast_found hfresh hfast
    exact hrest e [] { t with last := (t.last.1, e.index) } hput rfl rfl rfl ⟨before, h, after, hleaves, hpg, hfits, .inl hroom, hfound⟩
  | none =>
    obtain ⟨e, stack, before, h, after, hsearch, hleaves, hpg, hstack, hfits, hfound⟩ := hm.inv.search_nodups hm.distinct hnodups k
    rw [hsearch] at hput
    exact hrest e stack { t with order := .not } hput rfl rfl rfl ⟨before, h, after, hleaves, hpg, hfits, .inr hstack, hfound⟩

theorem btBdelete (hm : o.Holds t m) (hnodups : o.nodups = true) (key : Dbt) :
    (m (o.rank key) = none ∧ o.btBdelete key t = some (.special, t)) ∨
      ((m (o.rank key)).isSome = true ∧ ∃ t', o.btBdelete key t = some (.success, t') ∧ o.Holds t' (update m (o.rank key) none)) := by
  obtain ⟨e, stack, before, h, after, hsearch, hleaves, hpg, -, hfits, hcases⟩ := hm.inv.search_nodups hm.distinct hnodups key
  rcases hcases with ⟨hexact, bl, hbl, hmatch⟩ | ⟨hexact, habsent⟩
  · right
    have hsome := hm.some_of_found hleaves hbl hmatch
    obtain ⟨-, habsent⟩ := hm.erase hleaves hbl hmatch
    obtain ⟨stale, hpage⟩ := page_items hbl (h.items.eraseIdx e.index)
    have hheads : ∀ p ∈ before, ∀ b ∈ p.items.head?, ¬o.Matches key b := fun p hp b hb => habsent.records b (by
      rw [records_append]
      exact List.mem_append_left _ (List.mem_flatMap.2 ⟨p, hp, List.mem_of_head? hb⟩))
    have hhead : e.index ≠ 0 → ∀ b ∈ h.items.head?, ¬o.Matches key b := fun hindex b hb => habsent.records b (by
      rw [hpage, records_append]
      refine List.mem_append_right _ (List.mem_append_left _ (List.mem_of_head? ?_))
      rw [← show h.items.head? = some b from hb]
      obtain ⟨i, hi⟩ := Nat.exists_eq_succ_of_ne_zero hindex
      show (h.items.eraseIdx e.index).head? = _
      rw [hi]
      cases h.items with
      | nil => rfl
      | cons a items => rfl)
    obtain ⟨leaves, hdelete, hrecords⟩ := deletes_of_found hm.inv hsearch hexact hleaves hpg hfits hbl hheads hhead
    refine ⟨by rw [hsome]; rfl, _, hdelete, ?_⟩
    obtain ⟨hspecial, -⟩ | ⟨leaves', heq, hshrunk⟩ := Info.Inv.btBdelete_leaves hdelete
    · cases hspecial
    · have hleaves' : leaves = leaves' := congrArg Tree.leaves heq
      exact hm.shrink (hleaves' ▸ hshrunk) fun b => by rw [hrecords]; exact mem_others
  · left
    refine ⟨hm.none_of_absent habsent, ?_⟩
    rw [Info.btBdelete, hsearch]
    dsimp only [bind, Option.bind]
    rw [if_neg (by simp [hexact])]
    rfl

end Info.Holds

def Info.mapStep (o : Info ω) (m : ω → Option Dbt) : Call → Status × (ω → Option Dbt)
  | .put _ key data nooverwrite =>
    if nooverwrite = true ∧ (m (o.rank key)).isSome = true then (.special, m) else (.success, update m (o.rank key) (some data))
  | .delete key => if (m (o.rank key)).isSome = true then (.success, update m (o.rank key) none) else (.special, m)

def Info.Small (o : Info ω) : Call → Prop
  | .put _ key data _ => key.length + data.length ≤ o.ovflsize
  | .delete _ => True

def Info.Plain (o : Info ω) : Call → Prop
  | .put kb key data _ => (o.storeKey kb key data).1.key.chain = none
  | .delete _ => True

def Info.Led (o : Info ω) (t : Tree) : Call → Prop
  | .put _ key _ _ => o.Fresh key t
  | .delete _ => True

def Info.MapRun (o : Info ω) (ok : Call → Prop) : Tree × (ω → Option Dbt) → Prop :=
  Runs (fun s => s = ({}, fun _ => none)) (fun s c => (o.after s.1 c).map fun t => (t, (o.mapStep s.2 c).2)) fun s c => ok c ∧ o.Led s.1 c

theorem Info.Small.plain {c : Call} (h : o.Small c) : o.Plain c := by
  cases c with
  | put kb key data nooverwrite =>
    show (o.storeKey kb key data).1.key.chain = none
    have hsize : key.length + data.length ≤ o.ovflsize := h
    rw [Info.storeKey, if_pos hsize]
  | delete key => trivial

namespace Info.Holds

variable {m : ω → Option Dbt} {c : Call} {status : Status}

theorem start (o : Info ω) : o.Holds {} fun _ => none := by
  refine ⟨Info.Inv.start, ⟨List.Pairwise.nil, fun h rest hh _ bl hbl => ?_⟩, fun k d => ?_⟩
  · cases hh
    cases hbl
  · constructor
    · intro hd
      cases hd
    · rintro ⟨bl, hbl, -⟩
      cases hbl

theorem step (hm : o.Holds t m) (hnodups : o.nodups = true) (hplain : o.Plain c) (hled : o.Led t c)
    (hstep : o.step t c = some (status, t')) : status = (o.mapStep m c).1 ∧ o.Holds t' (o.mapStep m c).2 ∧
      (status = .special → t'.levels = t.levels ∧ t'.leaves = t.leaves) := by
  cases c with
  | put kb key data nooverwrite =>
    dsimp only [Info.mapStep]
    obtain ⟨hsame, hover, hsome, hm'⟩ | ⟨rfl, hnot, hm'⟩ := hm.btPut hnodups hplain hled hstep
    · obtain ⟨rfl, hpages⟩ := Prod.mk.inj hsame
      rw [if_pos ⟨hover, hsome⟩]
      exact ⟨rfl, hm', fun _ => Prod.mk.inj hpages⟩
    · rw [if_neg hnot]
      exact ⟨rfl, hm', fun h => by cases h⟩
  | delete key =>
    dsimp only [Info.mapStep]
    obtain ⟨hnone, hdelete⟩ | ⟨hsome, t'', hdelete, hm'⟩ := hm.btBdelete hnodups key
    · cases Option.some.inj (hdelete.symm.trans hstep)
      rw [hnone]
      exact ⟨rfl, hm, fun _ => ⟨rfl, rfl⟩⟩
    · cases Option.some.inj (hdelete.symm.trans hstep)
      rw [if_pos hsome]
      exact ⟨rfl, hm', fun h => by cases h⟩

end Info.Holds

theorem Info.MapRun.holds {ok : Call → Prop} {m : ω → Option Dbt} (hnodups : o.nodups = true) (hok : ∀ c, ok c → o.Plain c)
    (h : o.MapRun ok (t, m)) : o.Holds t m := by
  refine Runs.invariant (I := fun s => o.Holds s.1 s.2) h ?_ ?_
  · rintro _ rfl
    exact .start o
  · rintro s c s' hm ⟨hc, hled⟩ hstep
    obtain ⟨t', hafter, rfl⟩ := Option.map_eq_some_iff.1 hstep
    obtain ⟨⟨status, t''⟩, hcall, rfl⟩ := Option.map_eq_some_iff.1 hafter
    exact (hm.step hnodups (hok c hc) hled hcall).2.1

/-- **A tree without duplicates is a finite map**, as long as no put is led to the start of an empty first page by the
record that was deleted there. -/
theorem mapRun_replies {m : ω → Option Dbt} (hnodups : o.nodups = true) (h : o.MapRun o.Small (t, m)) :
    (∀ key, o.btGet key t = some (reply (m (o.rank key)))) ∧
      (∀ key, ∃ t', o.step t (.delete key) = some ((o.mapStep m (.delete key)).1, t')) ∧
      ∀ c status t', o.Small c → o.Led t c → o.step t c = some (status, t') →
        status = (o.mapStep m c).1 ∧ (status = .special → t'.levels = t.levels ∧ t'.leaves = t.leaves) := by
  have hm := h.holds hnodups fun c => Info.Small.plain
  refine ⟨hm.btGet hnodups, fun key => ?_, fun c status t' hc hled hstep => ?_⟩
  · obtain ⟨hnone, hdelete⟩ | ⟨hsome, t', hdelete, -⟩ := hm.btBdelete hnodups key
    · exact ⟨t, by rw [Info.mapStep, hnone]; exact hdelete⟩
    · exact ⟨t', by rw [Info.mapStep, if_pos hsome]; exact hdelete⟩
  · obtain ⟨hstatus, -, hsame⟩ := hm.step hnodups hc.plain hled hstep
    exact ⟨hstatus, hsame⟩

def oneByFirst : Info ℕ := { byFirst with nodups := true }

theorem fresh_start (o : Info ω) (key : Dbt) : o.Fresh key {} := fun h => by cases h

theorem mapRun_one (key data : Dbt) (ok : Call → Prop) (hok : ok (.put [] key data false))
    (hafter : oneByFirst.after {} (.put [] key data false) = some t) :
    oneByFirst.MapRun ok (t, (oneByFirst.mapStep (fun _ => none) (.put [] key data false)).2) := by
  refine .call (.put [] key data false) (.start rfl) ⟨hok, fresh_start oneByFirst key⟩ ?_
  dsimp only
  rw [hafter]
  rfl

def withFive : Tree := (oneByFirst.after {} (.put [] [5] [7] false)).getD {}

theorem mapRun_replies_five : oneByFirst.btGet [5] withFive = some (.success, some [7]) :=
  (mapRun_replies rfl (mapRun_one [5] [7] oneByFirst.Small (by show (2 : ℕ) ≤ 40; decide) (by rfl))).1 [5]

def emptied : List Call :=
  [.put [] [2] [] false, .put [] [3] (List.replicate 15 0) false, .put [] [4] (List.replicate 30 0) false,
    .put [] [5] (List.replicate 30 0) false, .put [] [1] [] false, .delete [4], .delete [3], .delete [1], .delete [2],
    .put [] [2] [] true]

/-- `R_NOOVERWRITE` finds a record that was deleted. -/
theorem not_replies_emptied : ¬∀ (o : Info ℕ) (calls : List Call), o.nodups = true → (∀ c ∈ calls, o.Small c) → ∀ r, replies o.step {} calls = some r →
    (replies (fun m c => some (o.mapStep m c)) (fun _ => none) calls).map Prod.fst = some r.1 := by
  intro h
  have hsmall : ∀ c ∈ emptied, oneByFirst.Small c := by
    simp only [emptied, List.mem_cons, List.not_mem_nil, or_false]
    rintro c (rfl | rfl | rfl | rfl | rfl | rfl | rfl | rfl | rfl | rfl) <;> simp [Info.Small, oneByFirst, byFirst]
  have htree : (replies oneByFirst.step {} emptied).map (fun r => r.1.getLast?) = some (some .special) := by decide
  have hmap : ((replies (fun m c => some (oneByFirst.mapStep m c)) (fun _ => none) emptied).map Prod.fst).map (·.getLast?) =
      some (some .success) := by decide
  obtain ⟨r, hr, hlast⟩ := Option.map_eq_some_iff.1 htree
  rw [h oneByFirst emptied rfl hsmall r hr, Option.map_some, hlast] at hmap
  cases hmap

end NetBSD.Btree
