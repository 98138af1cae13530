import NetBSD.Lib.Runs
import Mathlib.Order.Compare
import Mathlib.Data.List.InsertIdx

/-!
# The btree access method

`lib/libc/db/btree`: pages of keys with the records in the leaves. A level of the tree is the list of its
pages in the order of their links, and a page is found by its number. `none` stands for what is not defined:
an item that is not there is read, or items are written over each other.
-/

namespace NetBSD.Btree

universe u

abbrev Dbt := List UInt8

/-- A key, and what stands on the page for it when it is on overflow pages (`P_BIGKEY`): a page number and a
size. -/
structure Key where
  bytes : Dbt
  chain : Option Dbt := none
  deriving DecidableEq

def Key.onPage (key : Key) : Dbt := key.chain.getD key.bytes

structure Bleaf where
  key : Key
  data : Dbt
  bigdata : Bool := false
  deriving DecidableEq

structure Binternal where
  key : Key
  pgno : Nat
  deriving DecidableEq

def novflsize : Nat := 8

def lalign (n : Nat) : Nat := (n + 3) / 4 * 4

def nbinternal (len : Nat) : Nat := lalign (4 + 4 + 1 + len)

def nbleafdbt (ksize dsize : Nat) : Nat := lalign (4 + 4 + 1 + ksize + dsize)

def Bleaf.dsize (bl : Bleaf) : Nat := if bl.bigdata then novflsize else bl.data.length

class Item (α : Type) where
  nbytes : α → Nat
  key : α → Key

instance : Item Bleaf := ⟨fun bl => nbleafdbt bl.key.onPage.length bl.dsize, Bleaf.key⟩

instance : Item Binternal := ⟨fun bi => nbinternal bi.key.onPage.length, Binternal.key⟩

/-- A page; `stale` is the item that the first index still points to when the last one was deleted. -/
structure Page (α : Type) where
  pgno : Nat
  items : List α
  stale : Option α := none
  deriving DecidableEq

abbrev Level := List (Page Binternal)

def pRoot : Nat := 1

/-- What the tree was opened with. The comparison function compares what `rank` takes from the keys, and the
prefix function, if there is one, keeps enough of a key to tell it from the one before. -/
structure Info (ω : Type u) [LinearOrder ω] where
  /-- `bt_psize` less `BTDATAOFF`. -/
  full : Nat
  ovflsize : Nat
  nodups : Bool
  rank : Dbt → ω
  pfx : Option (Dbt → Dbt → Nat)
  pfx_pos : ∀ f ∈ pfx, ∀ a b, b ≠ [] → 0 < f a b
  pfx_between : ∀ f ∈ pfx, ∀ a b, rank a ≤ rank b → rank a ≤ rank (b.take (f a b)) ∧ rank (b.take (f a b)) ≤ rank b
  pfx_lt : ∀ f ∈ pfx, ∀ a b, rank a < rank b → rank a < rank (b.take (f a b))

variable {ω : Type u} [LinearOrder ω] {α : Type} [Item α]

def Info.cmp (o : Info ω) (k1 k2 : Dbt) : Ordering := compare (o.rank k1) (o.rank k2)

def used : List α → Nat
  | [] => 0
  | item :: rest => Item.nbytes item + 2 + used rest

def Info.fits (o : Info ω) (items : List α) (nbytes : Nat) : Bool := used items + (nbytes + 2) ≤ o.full

def locate (pg : Nat) : List (Page α) → Option (List (Page α) × Page α × List (Page α))
  | [] => none
  | h :: rest =>
    if h.pgno = pg then some ([], h, rest) else (locate pg rest).map fun r => (h :: r.1, r.2.1, r.2.2)

def binary (cmp : Nat → Ordering) : Nat → Nat → Nat → Bool × Nat
  | 0, base, _ => (false, base)
  | fuel + 1, base, lim =>
    if lim = 0 then (false, base)
    else
      match cmp (base + lim / 2) with
      | .eq => (true, base + lim / 2)
      | .gt => binary cmp fuel (base + lim / 2 + 1) ((lim - 1) / 2)
      | .lt => binary cmp fuel base (lim / 2)

def Info.btCmp (o : Info ω) (key : Dbt) (first : Bool) (items : List α) (index : Nat) : Ordering :=
  if index = 0 ∧ first then .gt
  else
    match items[index]? with
    | none => .lt
    | some item => o.cmp key (Item.key item).bytes

def Info.searchPage (o : Info ω) (key : Dbt) (first : Bool) (items : List α) : Bool × Nat :=
  binary (o.btCmp key first items) items.length 0 items.length

def Info.childIndex (o : Info ω) (key : Dbt) (first : Bool) (items : List Binternal) : Nat :=
  match o.searchPage key first items with
  | (true, index) => index
  | (false, base) => base - 1

def Info.descend (o : Info ω) (key : Dbt) : List Level → Option (Nat × List (Nat × Nat))
  | [] => some (pRoot, [])
  | level :: above => do
      let (pg, stack) ← o.descend key above
      let (before, h, _) ← locate pg level
      let index := o.childIndex key before.isEmpty h.items
      let child ← h.items[index]?
      return (child.pgno, (pg, index) :: stack)

structure Found where
  pgno : Nat
  index : Nat
  exact : Bool
  deriving DecidableEq

def Info.lastOf (o : Info ω) (key : Dbt) (pages : List (Page Bleaf)) : Option Found :=
  match pages.find? (!·.items.isEmpty) with
  | none => none
  | some tp =>
    if o.btCmp key false tp.items (tp.items.length - 1) = .eq then some ⟨tp.pgno, tp.items.length - 1, true⟩ else none

def Info.btSprev (o : Info ω) (key : Dbt) (before : List (Page Bleaf)) : Option Found := o.lastOf key before.reverse

/-- `bt_snext`, which goes back to the page and on to those before it when the next one is empty. -/
def Info.btSnext (o : Info ω) (key : Dbt) (before : List (Page Bleaf)) (h : Page Bleaf) :
    List (Page Bleaf) → Option Found
  | [] => none
  | tp :: _ => o.lastOf key (tp :: h :: before.reverse)

def Info.searchLeaf (o : Info ω) (key : Dbt) (before : List (Page Bleaf)) (h : Page Bleaf) (after : List (Page Bleaf)) : Found :=
  match o.searchPage key false h.items with
  | (true, index) => ⟨h.pgno, index, true⟩
  | (false, base) =>
    let prev := if !o.nodups ∧ base = 0 then o.btSprev key before else none
    let next := if !o.nodups ∧ base = h.items.length then o.btSnext key before h after else none
    (prev.or next).getD ⟨h.pgno, base, false⟩

inductive Order where
  | not
  | back
  | forward
  deriving DecidableEq

structure Tree where
  levels : List Level := []
  leaves : List (Page Bleaf) := [⟨pRoot, [], none⟩]
  /-- The number of the next page. -/
  next : Nat := 2
  order : Order := .not
  last : Nat × Nat := (0, 0)
  deriving DecidableEq

def Info.btSearch (o : Info ω) (key : Dbt) (t : Tree) : Option (Found × Nat × List (Nat × Nat)) := do
  let (pg, stack) ← o.descend key t.levels
  let (before, h, after) ← locate pg t.leaves
  return (o.searchLeaf key before h after, pg, stack)

/-- The first loop of `bt_psplit`: how many indices the left page gets. The slot `skip` is the one to leave
open. It is not defined when the loop runs out of items. -/
def psplitLoop (full skip : Nat) : List (Nat × Bool) → Nat → Nat → Nat → Option Nat
  | [], _, _, _ => none
  | (nbytes, isbigkey) :: rest, off, sofar, bigkeycnt =>
    if skip = off ∧ rest = [] then none
    else if skip ≤ off ∧ full ≤ sofar + nbytes then some off
    else if full / 2 ≤ sofar + nbytes then
      if !isbigkey ∨ bigkeycnt = 3 then some (off + 1)
      else psplitLoop full skip rest (off + 1) (sofar + nbytes) (bigkeycnt + 1)
    else psplitLoop full skip rest (off + 1) (sofar + nbytes) bigkeycnt

/-- `bt_psplit` and the insertion of the item at the index `skip`: the items of the left and the right page.
Each has one, the second loop leaves no slot open when `skip` is not at the start of both, and they fit. -/
def Info.psplit (o : Info ω) (items : List α) (skip : Nat) (item : α) : Option (List α × List α) := do
  let all := items.insertIdx skip item
  let slots := (items.map fun x => (Item.nbytes x, (Item.key x).chain.isSome)).insertIdx skip (Item.nbytes item, false)
  let n ← psplitLoop o.full skip slots 0 0 0
  let l := all.take n
  let r := all.drop n
  if l = [] ∨ r = [] ∨ (skip = 0 ∧ n = 1) ∨ o.full < used l ∨ o.full < used r then none else some (l, r)

/-- `bt_page`: when the item goes behind the last one of a level, it gets a page of its own. -/
def Info.btPage (o : Info ω) (final : Bool) (items : List α) (skip : Nat) (item : α) : Option (List α × List α) :=
  if final ∧ skip = items.length then some (items, [item]) else o.psplit items skip item

/-- The key that `bt_broot` writes for the right one of two leaves: the flag `P_BIGKEY` is lost. -/
def Key.broot (key : Key) : Key := ⟨key.onPage, none⟩

def rootPage (left right : Nat) (key : Key) : Page Binternal := ⟨pRoot, [⟨⟨[], none⟩, left⟩, ⟨key, right⟩], none⟩

/-- The key for a new leaf in its parent: as much as is needed to tell it from the last record to its left,
unless it is the second one of the leftmost page. -/
def Info.parentKey (o : Info ω) (left right : Key) (shorten : Bool) : Key :=
  match o.pfx with
  | none => right
  | some pfx =>
    if right.chain.isNone ∧ shorten ∧ nbinternal (pfx left.onPage right.bytes) < nbinternal right.bytes.length then
      ⟨right.bytes.take (pfx left.onPage right.bytes), none⟩
    else right

/-- The loop of `__bt_split` over the parents. `entry` is the item for the new page on the right. -/
def Info.insertUp (o : Info ω) : List Level → List (Nat × Nat) → Nat → (Bool → Binternal) → Option (List Level × Nat)
  | level :: above, (pg, index) :: stack, next, entry => do
      let (before, h, after) ← locate pg level
      let skip := index + 1
      let item := entry (!before.isEmpty || skip > 1)
      if o.fits h.items (Item.nbytes item) then
        return ((before ++ ⟨pg, h.items.insertIdx skip item, none⟩ :: after) :: above, next)
      else if pg = pRoot then
        let (l, r) ← o.psplit h.items skip item
        let bi ← r.head?
        return ([⟨next, l, none⟩, ⟨next + 1, r, none⟩] :: [rootPage next (next + 1) bi.key] :: above, next + 2)
      else
        let (l, r) ← o.btPage after.isEmpty h.items skip item
        let bi ← r.head?
        let (above, next') ← o.insertUp above stack (next + 1) fun _ => ⟨bi.key, next⟩
        return ((before ++ ⟨pg, l, none⟩ :: ⟨next, r, none⟩ :: after) :: above, next')
  | levels, _, next, _ => some (levels, next)

def Info.btSplit (o : Info ω) (t : Tree) (stack : List (Nat × Nat)) (pg skip : Nat) (item : Bleaf) : Option Tree := do
  let (before, h, after) ← locate pg t.leaves
  if pg = pRoot then
    let (l, r) ← o.psplit h.items skip item
    let bl ← r.head?
    return { t with
      levels := [rootPage t.next (t.next + 1) bl.key.broot] :: t.levels
      leaves := [⟨t.next, l, none⟩, ⟨t.next + 1, r, none⟩]
      next := t.next + 2 }
  else
    let (l, r) ← o.btPage after.isEmpty h.items skip item
    let tbl ← l.getLast?
    let bl ← r.head?
    let (levels, next) ← o.insertUp t.levels stack (t.next + 1) fun shorten => ⟨o.parentKey tbl.key bl.key shorten, t.next⟩
    return { t with levels, next, leaves := before ++ ⟨pg, l, none⟩ :: ⟨t.next, r, none⟩ :: after }

inductive Status where
  | success
  | special
  deriving DecidableEq

def Info.btGet (o : Info ω) (key : Dbt) (t : Tree) : Option (Status × Option Dbt) := do
  let (e, _, _) ← o.btSearch key t
  if e.exact then
    let (_, h, _) ← locate e.pgno t.leaves
    let bl ← h.items[e.index]?
    return (.success, some bl.data)
  else return (.special, none)

/-- What `__bt_put` stores, and the key it searches for. `kb` is what stands on the page for a key that is moved
to overflow pages. -/
def Info.storeKey (o : Info ω) (kb key data : Dbt) : Bleaf × Dbt :=
  if key.length + data.length ≤ o.ovflsize then (⟨⟨key, none⟩, data, false⟩, key)
  else if o.ovflsize < key.length then
    (⟨⟨key, some kb⟩, data, o.ovflsize < novflsize + data.length⟩, kb)
  else if o.ovflsize < key.length + novflsize then (⟨⟨key, some kb⟩, data, true⟩, kb)
  else (⟨⟨key, none⟩, data, true⟩, key)

def Page.left (h : Page Bleaf) (items : List Bleaf) : Page Bleaf :=
  if h.items = [] then h
  else { h with items, stale := if items = [] then h.items.getLast?.filter (·.key.chain.isNone) else none }

def Info.btFast (o : Info ω) (key : Dbt) (nbytes : Nat) (t : Tree) : Option (Option Found) :=
  if t.order = .not then some none
  else do
    let (before, h, after) ← locate t.last.1 t.leaves
    if !o.fits h.items nbytes then return none
    else if t.order = .forward then
      if after ≠ [] ∨ t.last.2 + 1 ≠ h.items.length then return none
      else
        match o.btCmp key false h.items t.last.2 with
        | .lt => return none
        | .eq => return some ⟨h.pgno, t.last.2, true⟩
        | .gt => return some ⟨h.pgno, t.last.2 + 1, false⟩
    else if before ≠ [] ∨ t.last.2 ≠ 0 then return none
    else do
      let bl ← h.items.head?.or h.stale
      match o.cmp key bl.key.bytes with
        | .gt => return none
        | c => return some ⟨h.pgno, 0, c = .eq⟩

def hint (t : Tree) (pg index length : Nat) (first final : Bool) : Tree :=
  if t.order ≠ .not then t
  else if final then if index + 1 = length then { t with order := .forward, last := (pg, index) } else t
  else if first ∧ index = 0 then { t with order := .back, last := (pg, 0) }
  else t

def Info.putAt (o : Info ω) (t : Tree) (stack : List (Nat × Nat)) (e : Found) (item : Bleaf) : Option Tree := do
  let (before, h, after) ← locate e.pgno t.leaves
  let h ←
    if e.exact ∧ o.nodups then if e.index < h.items.length then some (h.left (h.items.eraseIdx e.index)) else none
    else some h
  let t := { t with leaves := before ++ h :: after }
  if o.fits h.items (Item.nbytes item) then
    let items := h.items.insertIdx e.index item
    let t := { t with leaves := before ++ ⟨h.pgno, items, none⟩ :: after }
    return hint t h.pgno e.index items.length before.isEmpty after.isEmpty
  else o.btSplit t stack h.pgno e.index item

def Info.btPut (o : Info ω) (kb key data : Dbt) (nooverwrite : Bool) (t : Tree) : Option (Status × Tree) := do
  let (item, k) := o.storeKey kb key data
  let fast ← o.btFast k (Item.nbytes item) t
  let (e, stack, t) ← match fast with
    | some e => some (e, [], { t with last := (t.last.1, e.index) })
    | none => (o.btSearch k t).map fun r => (r.1, r.2.2, { t with order := .not })
  if e.exact ∧ nooverwrite then return (.special, t)
  else return (.success, ← o.putAt t stack e item)

def Info.deleteRun (o : Info ω) (key : Dbt) : List Bleaf → List Bleaf
  | [] => []
  | bl :: rest => if o.cmp key bl.key.bytes = .eq then o.deleteRun key rest else bl :: rest

def Info.forward (o : Info ω) (key : Dbt) : List (Page Bleaf) → List (Page Bleaf)
  | [] => []
  | h :: after =>
    let items := o.deleteRun key h.items
    if items = [] then h.left items :: o.forward key after else h.left items :: after

def Info.backLoop (o : Info ω) (key : Dbt) : Nat → List Bleaf → List Bleaf × Bool
  | 0, items => (items, true)
  | index + 1, items =>
    if o.btCmp key false items (index + 1) = .eq then o.backLoop key index (items.eraseIdx (index + 1)) else (items, false)

def Info.backward (o : Info ω) (key : Dbt) : List (Page Bleaf) → List (Page Bleaf)
  | [] => []
  | h :: before =>
    let r := o.backLoop key (h.items.length - 1) h.items
    { h with items := r.1 } :: if r.2 then o.backward key before else before

def Info.btBdelete (o : Info ω) (key : Dbt) (t : Tree) : Option (Status × Tree) := do
  let (e, _, _) ← o.btSearch key t
  if e.exact then
    let (before, h, after) ← locate e.pgno t.leaves
    let rest := o.deleteRun key (h.items.drop e.index)
    let after := if rest = [] then o.forward key after else after
    let r := o.backLoop key (e.index - 1) (h.items.take e.index ++ rest)
    let before := if r.2 then (o.backward key before.reverse).reverse else before
    return (.success, { t with leaves := before ++ h.left r.1 :: after })
  else return (.special, t)

inductive Call where
  | put (kb key data : Dbt) (nooverwrite : Bool)
  | delete (key : Dbt)

def Info.step (o : Info ω) (t : Tree) : Call → Option (Status × Tree)
  | .put kb key data nooverwrite => o.btPut kb key data nooverwrite t
  | .delete key => o.btBdelete key t

def Info.after (o : Info ω) (t : Tree) (c : Call) : Option Tree := (o.step t c).map Prod.snd

end NetBSD.Btree
