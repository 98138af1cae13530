import NetBSD.Btree.Map

/-!
# Putting under the cursor

`__bt_put` with `R_CURSOR` does not search: it takes the page from the cursor, and the stack of parents from the call
before.
-/

namespace NetBSD.Btree

open NetBSD.Lib (Runs)
open Function (update)

universe u

variable {ω : Type u} [LinearOrder ω] {o : Info ω} {key : Dbt} {pg next i index : Nat} {t t' : Tree} {h : Page Bleaf}
  {before after : List (Page Bleaf)} {stack : List (Nat × Nat)} {item : Bleaf} {e : Found}

/-- The tree with `bt_sp`, the stack that the last search left, less what was taken from it. -/
structure Handle where
  tree : Tree := {}
  stack : List (Nat × Nat) := []
  deriving DecidableEq

/-- The loop of `__bt_split` over any stack, with what is left of it. A parent that is not on the level above is looked
for further up. -/
def Info.walkUp (o : Info ω) : List Level → List (Nat × Nat) → Nat → (Bool → Binternal) → Option (List Level × Nat × List (Nat × Nat))
  | levels, [], next, _ => some (levels, next, [])
  | [], _ :: _, _, _ => none
  | level :: above, (pg, index) :: stack, next, entry =>
    match locate pg level with
    | none => (o.walkUp above ((pg, index) :: stack) next entry).map fun r => (level :: r.1, r.2)
    | some (before, h, after) =>
      let skip := index + 1
      let item := entry (!before.isEmpty || skip > 1)
      if h.items.length < skip then none
      else if o.fits h.items (Item.nbytes item) then
        some ((before ++ ⟨pg, h.items.insertIdx skip item, none⟩ :: after) :: above, next, stack)
      else if pg = pRoot then do
        let (l, r) ← o.psplit h.items skip item
        let bi ← r.head?
        return ([⟨next, l, none⟩, ⟨next + 1, r, none⟩] :: [rootPage next (next + 1) bi.key] :: above, next + 2, stack)
      else do
        let (l, r) ← o.btPage after.isEmpty h.items skip item
        let bi ← r.head?
        let (above, next', stack') ← o.walkUp above stack (next + 1) fun _ => ⟨bi.key, next⟩
        return ((before ++ ⟨pg, l, none⟩ :: ⟨next, r, none⟩ :: after) :: above, next', stack')

/-- `__bt_split` on a leaf, with the stack as it is. While the root is a leaf the stack is empty. -/
def Info.splitWith (o : Info ω) (t : Tree) (stack : List (Nat × Nat)) (pg skip : Nat) (item : Bleaf) : Option Handle := do
  let (before, h, after) ← locate pg t.leaves
  if pg = pRoot then (o.btSplit t stack pg skip item).map fun t => ⟨t, stack⟩
  else
    let (l, r) ← o.btPage after.isEmpty h.items skip item
    let tbl ← l.getLast?
    let bl ← r.head?
    let (levels, next, stack) ← o.walkUp t.levels stack (t.next + 1) fun shorten => ⟨o.parentKey tbl.key bl.key shorten, t.next⟩
    return ⟨{ t with levels, next, leaves := before ++ ⟨pg, l, none⟩ :: ⟨t.next, r, none⟩ :: after }, stack⟩

def Info.putWith (o : Info ω) (t : Tree) (stack : List (Nat × Nat)) (delete : Bool) (pg index : Nat) (item : Bleaf) : Option Handle := do
  let (before, h, after) ← locate pg t.leaves
  let h ← if delete then if index < h.items.length then some (h.left (h.items.eraseIdx index)) else none else some h
  let t := { t with leaves := before ++ h :: after }
  if o.fits h.items (Item.nbytes item) then
    let items := h.items.insertIdx index item
    let t := { t with leaves := before ++ ⟨h.pgno, items, none⟩ :: after }
    return ⟨hint t h.pgno index items.length before.isEmpty after.isEmpty, stack⟩
  else o.splitWith t stack h.pgno index item

def Info.put (o : Info ω) (kb key data : Dbt) (nooverwrite : Bool) (s : Handle) : Option (Status × Handle) := do
  let (item, k) := o.storeKey kb key data
  let fast ← o.btFast k (Item.nbytes item) s.tree
  let (e, s) ← match fast with
    | some e => some (e, ⟨{ s.tree with last := (s.tree.last.1, e.index) }, s.stack⟩)
    | none => (o.btSearch k s.tree).map fun r => (r.1, ⟨{ s.tree with order := .not }, r.2.2⟩)
  if e.exact ∧ nooverwrite then return (.special, s)
  else return (.success, ← o.putWith s.tree s.stack (e.exact && o.nodups) e.pgno e.index item)

def Info.putCursor (o : Info ω) (kb key data : Dbt) (pg index : Nat) (s : Handle) : Option Handle :=
  o.putWith s.tree s.stack true pg index (o.storeKey kb key data).1

inductive Op where
  | put (kb key data : Dbt) (nooverwrite : Bool)
  | delete (key : Dbt)
  /-- `__bt_get`, and `__bt_seq` with a key. -/
  | search (key : Dbt)
  | cursor (kb key data : Dbt) (pg index : Nat)

def Info.operate (o : Info ω) (s : Handle) : Op → Option Handle
  | .put kb key data nooverwrite => (o.put kb key data nooverwrite s).map Prod.snd
  | .delete key => do
      let (_, _, stack) ← o.btSearch key s.tree
      let (_, t) ← o.btBdelete key s.tree
      return ⟨t, stack⟩
  | .search key => (o.btSearch key s.tree).map fun r => ⟨s.tree, r.2.2⟩
  | .cursor kb key data pg index => o.putCursor kb key data pg index s

theorem walkUp_eq {levels : List Level} {pgs : List Nat} {entry : Bool → Binternal} (h : Leads next pgs levels) (hstack : Stacked levels stack i)
    {n : Nat} : (o.walkUp levels stack n entry).map (fun r => (r.1, r.2.1)) = o.insertUp levels stack n entry := by
  induction levels generalizing pgs stack i entry n next with
  | nil =>
    cases stack with
    | nil => rfl
    | cons top stack => exact absurd hstack (by simp [Stacked])
  | cons level above ih =>
    cases stack with
    | nil => exact absurd hstack (by simp [Stacked])
    | cons top stack =>
      obtain ⟨pg, index⟩ := top
      obtain ⟨before, p, after, rfl, rfl, hindex, rfl, hstack⟩ := hstack
      obtain ⟨-, -, hnodup, -, -, -, habove⟩ := h
      rw [Info.walkUp, Info.insertUp, locate_append hnodup]
      dsimp only [bind, Option.bind]
      rw [if_neg (Nat.not_lt.2 hindex)]
      split
      · rfl
      · split
        · cases o.psplit p.items (index + 1) (entry (!before.isEmpty || decide (index + 1 > 1))) with
          | none => rfl
          | some lr =>
            dsimp only
            cases lr.2.head? with
            | none => rfl
            | some bi => rfl
        · cases o.btPage after.isEmpty p.items (index + 1) (entry (!before.isEmpty || decide (index + 1 > 1))) with
          | none => rfl
          | some lr =>
            dsimp only
            cases lr.2.head? with
            | none => rfl
            | some bi =>
              dsimp only
              rw [← ih habove hstack]
              cases o.walkUp above stack (n + 1) fun _ => ⟨bi.key, n⟩ with
              | none => rfl
              | some r => rfl

theorem splitWith_eq (hi : o.Inv t) (hleaves : t.leaves = before ++ h :: after) (hstack : Stacked t.levels stack before.length)
    {s' : Handle} (hsplit : o.splitWith t stack h.pgno index item = some s') : o.btSplit t stack h.pgno index item = some s'.tree := by
  have hloc : locate h.pgno t.leaves = some (before, h, after) := by
    rw [hleaves]
    exact locate_append (hleaves ▸ hi.nodup)
  rw [Info.splitWith, hloc] at hsplit
  dsimp only [bind, Option.bind] at hsplit
  split at hsplit
  · obtain ⟨t', hbroot, rfl⟩ := Option.map_eq_some_iff.1 hsplit
    exact hbroot
  · next hpg =>
    rw [Info.btSplit, hloc]
    dsimp only [bind, Option.bind]
    rw [if_neg hpg]
    obtain ⟨⟨l, r⟩, hlr, hrest⟩ := Option.bind_eq_some_iff.1 hsplit
    obtain ⟨tbl, htbl, hrest⟩ := Option.bind_eq_some_iff.1 hrest
    obtain ⟨bl, hbl, hrest⟩ := Option.bind_eq_some_iff.1 hrest
    obtain ⟨⟨levels, next, stack'⟩, hup, heq⟩ := Option.bind_eq_some_iff.1 hrest
    cases heq
    have hinsert : (o.walkUp t.levels stack (t.next + 1) fun shorten => ⟨o.parentKey tbl.key bl.key shorten, t.next⟩).map
        (fun r => (r.1, r.2.1)) = o.insertUp t.levels stack (t.next + 1) fun shorten => ⟨o.parentKey tbl.key bl.key shorten, t.next⟩ :=
      walkUp_eq hi.leads hstack
    rw [hup] at hinsert
    rw [hlr]
    dsimp only
    rw [htbl]
    dsimp only
    rw [hbl]
    dsimp only
    rw [← hinsert]
    rfl

theorem putWith_spec {delete : Bool} {s' : Handle} (hi : o.Inv t) (hleaves : t.leaves = before ++ h :: after)
    (hput : o.putWith t stack delete h.pgno index item = some s') :
    ∃ h₁ : Page Bleaf, h₁.pgno = h.pgno ∧ (delete = true ∧ index < h.items.length ∧ h₁ = h.left (h.items.eraseIdx index) ∨ delete = false ∧ h₁ = h) ∧
      (o.Inv { t with leaves := before ++ h₁ :: after } →
        o.fits h₁.items (Item.nbytes item) = true ∨ Stacked t.levels stack before.length →
        (if o.fits h₁.items (Item.nbytes item) = true then
          some (hint { t with leaves := before ++ ⟨h₁.pgno, h₁.items.insertIdx index item, none⟩ :: after } h₁.pgno index
            (h₁.items.insertIdx index item).length before.isEmpty after.isEmpty)
        else o.btSplit { t with leaves := before ++ h₁ :: after } stack h₁.pgno index item) = some s'.tree) := by
  have hloc : locate h.pgno t.leaves = some (before, h, after) := by
    rw [hleaves]
    exact locate_append (hleaves ▸ hi.nodup)
  rw [Info.putWith, hloc] at hput
  dsimp only [bind, Option.bind] at hput
  have hrest : ∀ h₁ : Page Bleaf, (if o.fits h₁.items (Item.nbytes item) = true then
        some (⟨hint { t with leaves := before ++ ⟨h₁.pgno, h₁.items.insertIdx index item, none⟩ :: after } h₁.pgno index
          (h₁.items.insertIdx index item).length before.isEmpty after.isEmpty, stack⟩ : Handle)
      else o.splitWith { t with leaves := before ++ h₁ :: after } stack h₁.pgno index item) = some s' →
      o.Inv { t with leaves := before ++ h₁ :: after } → o.fits h₁.items (Item.nbytes item) = true ∨ Stacked t.levels stack before.length →
      (if o.fits h₁.items (Item.nbytes item) = true then
          some (hint { t with leaves := before ++ ⟨h₁.pgno, h₁.items.insertIdx index item, none⟩ :: after } h₁.pgno index
            (h₁.items.insertIdx index item).length before.isEmpty after.isEmpty)
        else o.btSplit { t with leaves := before ++ h₁ :: after } stack h₁.pgno index item) = some s'.tree := by
    intro h₁ hput hi₁ hstack
    split at hput
    · next hroom =>
      cases hput
      rw [if_pos hroom]
    · next hroom =>
      rw [if_neg hroom]
      exact splitWith_eq hi₁ rfl (hstack.resolve_left hroom) hput
  cases delete with
  | false => exact ⟨h, rfl, .inr ⟨rfl, rfl⟩, hrest h hput⟩
  | true =>
    rw [if_pos rfl] at hput
    by_cases hlt : index < h.items.length
    · rw [if_pos hlt] at hput
      refine ⟨h.left (h.items.eraseIdx index), ?_, .inl ⟨rfl, hlt, rfl⟩, hrest _ hput⟩
      unfold Page.left
      split <;> rfl
    · rw [if_neg hlt] at hput
      cases hput

theorem erase_inv (hi : o.Inv t) (hleaves : t.leaves = before ++ h :: after) (index : Nat) :
    o.Inv { t with leaves := before ++ h.left (h.items.eraseIdx index) :: after } := by
  refine hi.shrink ?_
  rw [hleaves]
  exact List.rel_append (Info.Inv.forall₂_refl before) (.cons (.left (List.eraseIdx_sublist _ _)) (Info.Inv.forall₂_refl after))

theorem left_fits {nbytes : Nat} (hroom : o.fits h.items nbytes = true) (index : Nat) :
    o.fits (h.left (h.items.eraseIdx index)).items nbytes = true := by
  unfold Page.left
  split
  · exact hroom
  · exact fits_eraseIdx hroom index

theorem putWith_eq {s' : Handle} (hi : o.Inv t) (hleaves : t.leaves = before ++ h :: after) (hpg : h.pgno = e.pgno)
    (hstack : o.fits h.items (Item.nbytes item) = true ∨ Stacked t.levels stack before.length)
    (hput : o.putWith t stack (e.exact && o.nodups) e.pgno e.index item = some s') : o.putAt t stack e item = some s'.tree := by
  have hloc : locate e.pgno t.leaves = some (before, h, after) := by
    rw [hleaves, ← hpg]
    exact locate_append (hleaves ▸ hi.nodup)
  rw [← hpg] at hput
  obtain ⟨h₁, -, hcases, hspec⟩ := putWith_spec hi hleaves hput
  rw [Info.putAt, hloc]
  dsimp only [bind, Option.bind]
  rcases hcases with ⟨hdelete, hlt, rfl⟩ | ⟨hdelete, rfl⟩
  · rw [Bool.and_eq_true] at hdelete
    rw [if_pos hdelete, if_pos hlt]
    exact hspec (erase_inv hi hleaves e.index) (hstack.imp_left fun hroom => left_fits hroom e.index)
  · have hnot : ¬(e.exact = true ∧ o.nodups = true) := by
      rw [← Bool.and_eq_true, hdelete]
      decide
    rw [if_neg hnot]
    refine hspec ?_ hstack
    rw [← hleaves]
    exact hi

theorem putAt_stack (stack : List (Nat × Nat)) (hi : o.Inv t) (hleaves : t.leaves = before ++ h :: after) (hpg : h.pgno = e.pgno)
    (hroom : o.fits h.items (Item.nbytes item) = true) : o.putAt t stack e item = o.putAt t [] e item := by
  have hloc : locate e.pgno t.leaves = some (before, h, after) := by
    rw [hleaves, ← hpg]
    exact locate_append (hleaves ▸ hi.nodup)
  rw [Info.putAt, Info.putAt, hloc]
  dsimp only [bind, Option.bind]
  have hleft := left_fits hroom e.index
  split_ifs <;> rfl

theorem Info.Inv.search_room (hi : o.Inv t) (hsearch : o.btSearch key t = some (e, pg, stack))
    (hland : ∀ e pg stack before h after, o.btSearch key t = some (e, pg, stack) → e.pgno ≠ pg →
      locate e.pgno t.leaves = some (before, h, after) → o.fits h.items (Item.nbytes item) = true) :
    ∃ before h after, t.leaves = before ++ h :: after ∧ h.pgno = e.pgno ∧
      (o.fits h.items (Item.nbytes item) = true ∨ Stacked t.levels stack before.length) := by
  obtain ⟨before, h, after, hleaves, hpg, rfl, hstack, hlands⟩ := hi.btSearch_spec hsearch
  have hlen : (tops t.levels).length = (before ++ h :: after).length := by rw [hi.length, hleaves]
  have hfenced := hi.fenced
  rw [hleaves] at hfenced
  obtain ⟨before', h', after', hsplit, hpg', -⟩ := searchLeaf_spec hfenced hlen hlands
  rw [← hleaves] at hsplit
  refine ⟨before', h', after', hsplit, hpg', ?_⟩
  by_cases hsame : (o.searchLeaf key before h after).pgno = pg
  · right
    obtain ⟨rfl, -⟩ := hi.page_unique hleaves hsplit ((hpg.trans hsame.symm).trans hpg'.symm)
    exact hstack
  · left
    refine hland _ pg _ before' h' after' hsearch hsame ?_
    rw [hsplit, ← hpg']
    exact locate_append (hsplit ▸ hi.nodup)

theorem put_eq {s s' : Handle} {kb data : Dbt} {nooverwrite : Bool} {status : Status} (hi : o.Inv s.tree)
    (hcareful : o.Careful s.tree (.put kb key data nooverwrite)) (hput : o.put kb key data nooverwrite s = some (status, s')) :
    o.btPut kb key data nooverwrite s.tree = some (status, s'.tree) := by
  obtain ⟨hplain, hland⟩ := hcareful
  obtain ⟨-, hk⟩ := storeKey_plain hplain
  unfold Info.put at hput
  unfold Info.btPut
  generalize o.storeKey kb key data = stored at *
  obtain ⟨item, k⟩ := stored
  dsimp only at hk hland hput
  subst hk
  obtain ⟨fast, hfast, hput⟩ := Option.bind_eq_some_iff.1 hput
  dsimp only [bind, Option.bind]
  rw [hfast]
  dsimp only
  cases fast with
  | some e =>
    obtain ⟨before, h, after, hleaves, hpg, -, hroom⟩ := hi.btFast_spec hfast
    dsimp only [bind, Option.bind] at hput ⊢
    split at hput
    · next hspecial =>
      cases hput
      rw [if_pos hspecial]
      rfl
    · next hspecial =>
      rw [if_neg hspecial]
      obtain ⟨s₁, hwith, heq⟩ := Option.bind_eq_some_iff.1 hput
      cases heq
      have hi₁ : o.Inv { s.tree with last := (s.tree.last.1, e.index) } :=
        ⟨hi.leads, hi.nodup, hi.fresh, hi.root, hi.fenced, hi.plain, hi.stale⟩
      rw [← putAt_stack s.stack hi₁ hleaves hpg hroom, putWith_eq hi₁ hleaves hpg (.inl hroom) hwith]
      rfl
  | none =>
    obtain ⟨⟨e, pg, stack⟩, hsearch⟩ := hi.exists_btSearch k
    rw [hsearch] at hput ⊢
    dsimp only [bind, Option.bind, Option.map] at hput ⊢
    split at hput
    · next hspecial =>
      cases hput
      rw [if_pos hspecial]
      rfl
    · next hspecial =>
      rw [if_neg hspecial]
      obtain ⟨s₁, hwith, heq⟩ := Option.bind_eq_some_iff.1 hput
      cases heq
      have hi₁ : o.Inv { s.tree with order := .not } := ⟨hi.leads, hi.nodup, hi.fresh, hi.root, hi.fenced, hi.plain, hi.stale⟩
      obtain ⟨before, h, after, hleaves, hpg, hroom⟩ := hi.search_room hsearch hland
      rw [putWith_eq hi₁ hleaves hpg hroom hwith]
      rfl

def Info.Belongs (o : Info ω) (key : Dbt) (t : Tree) (pg index : Nat) : Prop :=
  ∀ before h after, locate pg t.leaves = some (before, h, after) →
    o.Fits key (tops t.levels) before (h.left (h.items.eraseIdx index)) after index ∧
      (o.nodups = true → o.Absent key (tops t.levels) (before ++ h.left (h.items.eraseIdx index) :: after) before.length)

def Info.Roomy (o : Info ω) (item : Bleaf) (s : Handle) (pg index : Nat) : Prop :=
  ∀ before h after, locate pg s.tree.leaves = some (before, h, after) →
    o.fits (h.left (h.items.eraseIdx index)).items (Item.nbytes item) = true ∨ Stacked s.tree.levels s.stack before.length

def Info.Sane (o : Info ω) (s : Handle) : Op → Prop
  | .put kb key data nooverwrite => o.Careful s.tree (.put kb key data nooverwrite) ∧ (o.nodups = true → o.Fresh key s.tree)
  | .cursor kb key data pg index =>
    (o.storeKey kb key data).1.key.chain = none ∧ o.Belongs key s.tree pg index ∧ o.Roomy (o.storeKey kb key data).1 s pg index
  | _ => True

def Info.Operated (o : Info ω) : Handle → Prop := Runs (fun s => s = {}) o.operate o.Sane

structure Info.Sound (o : Info ω) (t : Tree) : Prop where
  inv : o.Inv t
  map : o.nodups = true → ∃ m, o.Holds t m

def Replaced (s s' : Handle) (pg index : Nat) (item : Bleaf) : Prop :=
  ∃ before h after, locate pg s.tree.leaves = some (before, h, after) ∧ index < h.items.length ∧
    records s'.tree.leaves = records before ++ (h.items.set index item ++ records after)

theorem Info.Sound.putCursor {s s' : Handle} {kb data : Dbt} (hs : o.Sound s.tree)
    (hsane : o.Sane s (.cursor kb key data pg index)) (hput : o.putCursor kb key data pg index s = some s') :
    o.Sound s'.tree ∧ Replaced s s' pg index (o.storeKey kb key data).1 := by
  obtain ⟨hplain, hbelongs, hroomy⟩ := hsane
  obtain ⟨hbytes, -⟩ := storeKey_plain hplain
  obtain ⟨⟨before, h, after⟩, hloc, -⟩ := Option.bind_eq_some_iff.1 hput
  obtain ⟨hleaves, rfl⟩ := locate_spec hloc
  obtain ⟨h₁, hpg, ⟨-, hlt, rfl⟩ | ⟨hfalse, -⟩, hspec⟩ := putWith_spec hs.inv hleaves hput
  · have hi₁ := erase_inv hs.inv hleaves index
    obtain ⟨hfits, habsent⟩ := hbelongs _ _ _ hloc
    have hroom := hroomy _ _ _ hloc
    have hplace := hspec hi₁ hroom
    obtain ⟨hi', hplaced⟩ := hi₁.placed rfl hbytes hplain hfits hroom hplace
    have hbl : h.items[index]? = some h.items[index] := List.getElem?_eq_getElem hlt
    obtain ⟨stale, hpage⟩ := page_items hbl (h.items.eraseIdx index)
    refine ⟨⟨hi', fun hnodups => ?_⟩, before, h, after, hloc, hlt, ?_⟩
    · obtain ⟨m, hm⟩ := hs.map hnodups
      have hmatch : o.Matches h.items[index].key.bytes h.items[index] := rfl
      obtain ⟨hm₁, -⟩ := hm.erase hleaves hbl hmatch
      exact ⟨_, hm₁.insert rfl hbytes hplain hfits (habsent hnodups) hi' hplaced⟩
    · rw [hplaced.records, hpage, List.insertIdx_eraseIdx_self (Nat.ne_of_lt hlt)]
  · cases hfalse

theorem Info.Sound.operate {s s' : Handle} {op : Op} (hs : o.Sound s.tree) (hsane : o.Sane s op) (hstep : o.operate s op = some s') :
    o.Sound s'.tree := by
  cases op with
  | put kb key data nooverwrite =>
    obtain ⟨⟨status, s''⟩, hput, rfl⟩ := Option.map_eq_some_iff.1 hstep
    obtain ⟨hcareful, hfresh⟩ := hsane
    have hbtput := put_eq hs.inv hcareful hput
    cases hnodups : o.nodups with
    | false => exact ⟨hs.inv.btPut hnodups hcareful hbtput, fun htrue => by rw [hnodups] at htrue; cases htrue⟩
    | true =>
      obtain ⟨m, hm⟩ := hs.map hnodups
      obtain ⟨-, -, -, hm'⟩ | ⟨-, -, hm'⟩ := hm.btPut hnodups hcareful.1 (hfresh hnodups) hbtput
      · exact ⟨hm'.inv, fun _ => ⟨_, hm'⟩⟩
      · exact ⟨hm'.inv, fun _ => ⟨_, hm'⟩⟩
  | delete key =>
    obtain ⟨⟨e, pg, stack⟩, -, hrest⟩ := Option.bind_eq_some_iff.1 hstep
    obtain ⟨⟨status, t⟩, hdelete, heq⟩ := Option.bind_eq_some_iff.1 hrest
    cases heq
    refine ⟨hs.inv.btBdelete hdelete, fun hnodups => ?_⟩
    obtain ⟨m, hm⟩ := hs.map hnodups
    obtain ⟨-, hdelete'⟩ | ⟨-, t', hdelete', hm'⟩ := hm.btBdelete hnodups key
    · cases Option.some.inj (hdelete'.symm.trans hdelete)
      exact ⟨m, hm⟩
    · cases Option.some.inj (hdelete'.symm.trans hdelete)
      exact ⟨_, hm'⟩
  | search key =>
    obtain ⟨r, -, rfl⟩ := Option.map_eq_some_iff.1 hstep
    exact hs
  | cursor kb key data pg index => exact (hs.putCursor hsane hstep).1

theorem Info.Operated.sound {s : Handle} (h : o.Operated s) : o.Sound s.tree := by
  refine Runs.invariant (I := fun s => o.Sound s.tree) h ?_ fun s op s' hs hsane hstep => hs.operate hsane hstep
  rintro _ rfl
  exact ⟨Info.Inv.start, fun _ => ⟨_, .start o⟩⟩

def opened : Handle := ((oneByFirst.put [] [5] [7] false {}).map Prod.snd).getD {}

end NetBSD.Btree
