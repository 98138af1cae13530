import NetBSD.Lib.Backlinks
import Mathlib.Data.Nat.Notation
import Mathlib.Data.List.Perm.Basic

/-!
# The name cache

`vfs_cache.c`, without its statistics. There is no result where a null pointer is followed, a chain goes on for ever, or the kernel
panics. Entries are known by their addresses, in the order in which they are allocated.
-/

namespace NetBSD.Namecache

open Lib (Chains Deque)

abbrev Name := List (BitVec 8)

def nchnamlen : Nat := 31

structure Entry where
  dvp : Option Nat
  dvpid : BitVec 32
  vp : Option Nat
  vpid : BitVec 32
  name : Name

structure Config where
  doingcache : Bool
  desiredvnodes : Nat
  nchash : Nat

/-- The entries, with `nc_forw` and `nc_back` in `hash`, and `nc_nxt`, `nc_prev`, `nchhead` and `nchtail` in `lru`; the `v_id` of
each vnode, and `nextvnodeid`. -/
structure Cache where
  entry : Nat → Entry
  hash : Chains Nat Nat
  lru : Deque Nat
  numcache : Nat
  vid : Nat → BitVec 32
  nextvnodeid : BitVec 32

/-- What a lookup is asked for: `makeentry` and `create` say that `MAKEENTRY` is set, and that `cn_nameiop` is `CREATE`. -/
structure Component where
  name : Name
  makeentry : Bool
  create : Bool

inductive Reply where
  | zero
  | vnode (vp : Nat)
  | enoent
  deriving DecidableEq

def cnHash (name : Name) : BitVec 32 := name.foldl (fun h c => h + c.setWidth 32) 0

def Config.bucket (conf : Config) (name : Name) : Nat := (cnHash name).toNat &&& conf.nchash

namespace Cache

variable (c : Cache)

def matches_ (dvp : Nat) (name : Name) (ncp : Nat) : Bool :=
  (c.entry ncp).dvp = some dvp ∧ (c.entry ncp).dvpid = c.vid dvp ∧ (c.entry ncp).name = name

def findLoop (dvp : Nat) (name : Name) : Nat → Option Nat → Option (Option Nat)
  | _, none => some none
  | 0, some _ => none
  | fuel + 1, some ncp =>
    if c.matches_ dvp name ncp then some (some ncp) else findLoop dvp name fuel (c.hash.val (.next ncp))

def moveToEnd (ncp : Nat) : Option Cache :=
  if (c.lru.chains.val (.next ncp)).isSome then
    (c.lru.remove ncp).map fun lru => { c with lru := lru.pushBack ncp }
  else some c

def unhash (ncp : Nat) : Option Cache := (c.hash.unlink ncp).map fun hash => { c with hash := hash.clear ncp }

def unhashIfOn (ncp : Nat) : Option Cache := if (c.hash.back ncp).isSome then c.unhash ncp else some c

/-- The end of `cache_lookup`: the entry is taken out of its chains, and put at the head of the LRU chain. -/
def drop (ncp : Nat) : Option Cache :=
  (c.lru.remove ncp).bind fun lru => (unhash { c with lru := lru } ncp).map fun c => { c with lru := c.lru.pushFront ncp }

def lookup (conf : Config) (dvp : Nat) (cn : Component) : Option (Reply × Cache) :=
  if conf.doingcache = false then some (.zero, c)
  else if cn.name.length > nchnamlen then some (.zero, c)
  else
    (c.findLoop dvp cn.name c.numcache (c.hash.val (.head (conf.bucket cn.name)))).bind fun found =>
      match found with
      | none => some (.zero, c)
      | some ncp =>
        if cn.makeentry = false then (c.drop ncp).map fun c => (.zero, c)
        else
          match (c.entry ncp).vp with
          | none =>
            if cn.create then (c.drop ncp).map fun c => (.zero, c) else (c.moveToEnd ncp).map fun c => (.enoent, c)
          | some vp =>
            if (c.entry ncp).vpid ≠ c.vid vp then (c.drop ncp).map fun c => (.zero, c)
            else (c.moveToEnd ncp).map fun c => (.vnode vp, c)

/-- An entry for `cache_enter`: a new one, or the first one of the LRU chain, in no chain. There is no entry where the cache is full
and empty. -/
def grab (conf : Config) : Option (Option Nat × Cache) :=
  if c.numcache < conf.desiredvnodes then
    some (some c.numcache, { c with hash := c.hash.clear c.numcache, numcache := c.numcache + 1 })
  else
    match c.lru.chains.val (.head ()) with
    | none => some (none, c)
    | some ncp => (c.lru.remove ncp).bind fun lru => (unhashIfOn { c with lru := lru } ncp).map fun c => (some ncp, c)

def enter (conf : Config) (dvp : Nat) (vp : Option Nat) (name : Name) : Option Cache :=
  if name.length > nchnamlen then none
  else if conf.doingcache = false then some c
  else
    (c.grab conf).map fun r =>
      match r with
      | (none, c) => c
      | (some ncp, c) =>
        { c with
          entry := Function.update c.entry ncp
            { dvp := some dvp, dvpid := c.vid dvp, vp := vp, vpid := vp.elim 0 c.vid, name := name }
          lru := c.lru.pushBack ncp
          hash := c.hash.push (conf.bucket name) ncp }

def zeroLoop (hash : Chains Nat Nat) : Nat → Option Nat → (Nat → Entry) → Option (Nat → Entry)
  | _, none, entry => some entry
  | 0, some _, _ => none
  | fuel + 1, some ncp, entry =>
    zeroLoop hash fuel (hash.val (.next ncp)) (Function.update entry ncp { entry ncp with vpid := 0, dvpid := 0 })

def purge (conf : Config) (vp : Nat) : Option Cache :=
  let id := c.nextvnodeid + 1
  if id ≠ 0 then some { c with vid := Function.update c.vid vp id, nextvnodeid := id }
  else
    ((List.range (conf.nchash + 1)).reverse.foldlM
      (fun entry b => zeroLoop c.hash c.numcache (c.hash.val (.head b)) entry) c.entry).map fun entry =>
        { c with entry := entry, vid := Function.update c.vid vp (id + 1), nextvnodeid := id + 1 }

/-- The loop of `cache_purgevfs`, that goes on from the head behind each entry that it frees. -/
def purgeLoop (mount : Nat → Nat) (mp : Nat) : Nat → Option Nat → Cache → Option Cache
  | _, none, c => some c
  | 0, some _, _ => none
  | fuel + 1, some ncp, c =>
    if (c.entry ncp).dvp.all fun dvp => mount dvp ≠ mp then purgeLoop mount mp fuel (c.lru.chains.val (.next ncp)) c
    else
      (unhashIfOn { c with entry := Function.update c.entry ncp { c.entry ncp with vp := none, dvp := none } } ncp).bind fun c =>
        (c.lru.remove ncp).bind fun lru =>
          purgeLoop mount mp fuel (lru.chains.val (.head ())) { c with lru := lru.pushFront ncp }

def purgevfs (mount : Nat → Nat) (mp fuel : Nat) : Option Cache := purgeLoop mount mp fuel (c.lru.chains.val (.head ())) c

end Cache

end NetBSD.Namecache

/-!
## Consistent chains

Each entry is on the LRU chain once, and on one hash chain at most, that of its name. The calls keep this, and say which entries
they leave on their hash chains.
-/

namespace NetBSD.Namecache

open Lib (Chains Deque)

variable {conf : Config} {c c' : Cache} {l : List Nat} {chain : Nat → List Nat} {ncp a dvp : Nat} {name : Name}

def Cache.Hashed (c : Cache) (a : Nat) : Prop := c.hash.back a ≠ none

structure Consistent (conf : Config) (c : Cache) (l : List Nat) (chain : Nat → List Nat) : Prop where
  lru : c.lru.Holds l
  mem : ∀ a, a ∈ l ↔ a < c.numcache
  hash : c.hash.Hung chain
  sub : ∀ b, ∀ a ∈ chain b, a < c.numcache
  bucket : ∀ b, ∀ a ∈ chain b, b = conf.bucket (c.entry a).name
  short : ∀ b, ∀ a ∈ chain b, (c.entry a).name.length ≤ nchnamlen
  idle : conf.doingcache = false → c.numcache = 0

def Sound (conf : Config) (c : Cache) : Prop := ∃ l chain, Consistent conf c l chain

structure Same (c c' : Cache) : Prop where
  numcache : c'.numcache = c.numcache
  vid : c'.vid = c.vid
  nextvnodeid : c'.nextvnodeid = c.nextvnodeid

theorem Consistent.length_le (h : Consistent conf c l chain) (b : Nat) : (chain b).length ≤ c.numcache := by
  have hsub : chain b ⊆ List.range c.numcache := fun a ha => List.mem_range.2 (h.sub b a ha)
  have hle := (List.subperm_of_subset (h.hash.nodup b) hsub).length_le
  rwa [List.length_range] at hle

theorem Consistent.hashed_iff (h : Consistent conf c l chain) : c.Hashed a ↔ ∃ b, a ∈ chain b := h.hash.mem_iff

theorem Consistent.lt_of_hashed (h : Consistent conf c l chain) (ha : c.Hashed a) : a < c.numcache := by
  obtain ⟨b, hb⟩ := h.hashed_iff.1 ha
  exact h.sub b a hb

theorem Consistent.mem_bucket (h : Consistent conf c l chain) (ha : c.Hashed a) : a ∈ chain (conf.bucket (c.entry a).name) := by
  obtain ⟨b, hb⟩ := h.hashed_iff.1 ha
  exact h.bucket b a hb ▸ hb

theorem mem_update_erase {b b' : Nat} (hnodup : (chain b).Nodup) (h : a ∈ Function.update chain b ((chain b).erase ncp) b') :
    a ∈ chain b' ∧ (b' = b → a ≠ ncp) := by
  by_cases hb : b' = b
  · subst hb
    rw [Function.update_self] at h
    exact ⟨List.mem_of_mem_erase h, fun _ heq => hnodup.not_mem_erase (heq ▸ h)⟩
  · rw [Function.update_of_ne hb] at h
    exact ⟨h, fun heq => absurd heq hb⟩

theorem unhash_lru (lru : Deque Nat) : Cache.unhash { c with lru := lru } ncp = (c.unhash ncp).map fun c => { c with lru := lru } := by
  rw [Cache.unhash, Cache.unhash, Option.map_map]
  rfl

theorem unhashIfOn_lru (lru : Deque Nat) :
    Cache.unhashIfOn { c with lru := lru } ncp = (c.unhashIfOn ncp).map fun c => { c with lru := lru } := by
  unfold Cache.unhashIfOn
  split
  · exact unhash_lru lru
  · rfl

theorem Consistent.unhash (h : Consistent conf c l chain) (ha : c.Hashed ncp) :
    ∃ c' chain', c.unhash ncp = some c' ∧ Consistent conf c' l chain' ∧ c' = { c with hash := c'.hash } ∧
      ∀ a, c'.Hashed a ↔ c.Hashed a ∧ a ≠ ncp := by
  obtain ⟨b, hb⟩ := h.hashed_iff.1 ha
  obtain ⟨hash, hunlink, hhung⟩ := h.hash.unlink hb
  have hmem : ∀ a b', a ∈ Function.update chain b ((chain b).erase ncp) b' → a ∈ chain b' ∧ (b' = b → a ≠ ncp) := fun _ _ =>
    mem_update_erase (h.hash.nodup b)
  have hcons : Consistent conf { c with hash := hash.clear ncp } l (Function.update chain b ((chain b).erase ncp)) :=
    ⟨h.lru, h.mem, hhung, fun b' a ha' => h.sub b' a (hmem a b' ha').1, fun b' a ha' => h.bucket b' a (hmem a b' ha').1,
      fun b' a ha' => h.short b' a (hmem a b' ha').1, h.idle⟩
  refine ⟨_, _, by rw [Cache.unhash, hunlink]; rfl, hcons, rfl, fun a => ?_⟩
  rw [hcons.hashed_iff, h.hashed_iff]
  constructor
  · rintro ⟨b', hb'⟩
    obtain ⟨hin, hne⟩ := hmem a b' hb'
    exact ⟨⟨b', hin⟩, fun heq => hne (h.hash.apart b' b ncp (heq ▸ hin) hb) heq⟩
  · rintro ⟨⟨b', hb'⟩, hne⟩
    refine ⟨b', ?_⟩
    by_cases hbb : b' = b
    · subst hbb
      rw [Function.update_self]
      exact (List.mem_erase_of_ne hne).2 hb'
    · rwa [Function.update_of_ne hbb]

theorem Consistent.unhashIfOn (h : Consistent conf c l chain) (ncp : Nat) :
    ∃ c' chain', c.unhashIfOn ncp = some c' ∧ Consistent conf c' l chain' ∧ c' = { c with hash := c'.hash } ∧
      ∀ a, c'.Hashed a ↔ c.Hashed a ∧ a ≠ ncp := by
  unfold Cache.unhashIfOn
  by_cases ha : c.Hashed ncp
  · rw [if_pos (Option.isSome_iff_ne_none.2 ha)]
    exact h.unhash ha
  · rw [if_neg fun hsome => ha (Option.isSome_iff_ne_none.1 hsome)]
    exact ⟨c, chain, rfl, h, rfl, fun a => ⟨fun hin => ⟨hin, fun heq => ha (heq ▸ hin)⟩, fun hin => hin.1⟩⟩

theorem Consistent.reorder {lru : Deque Nat} {l' : List Nat} (h : Consistent conf c l chain) (hlru : lru.Holds l') (hperm : l'.Perm l) :
    Consistent conf { c with lru := lru } l' chain :=
  ⟨hlru, fun a => hperm.mem_iff.trans (h.mem a), h.hash, h.sub, h.bucket, h.short, h.idle⟩

theorem Consistent.moveToEnd (h : Consistent conf c l chain) (ha : ncp < c.numcache) :
    ∃ c' l', c.moveToEnd ncp = some c' ∧ Consistent conf c' l' chain ∧ c' = { c with lru := c'.lru } := by
  unfold Cache.moveToEnd
  split
  · have hmem := (h.mem ncp).2 ha
    obtain ⟨lru, hremove, hholds⟩ := h.lru.remove hmem
    have hnot : ncp ∉ l.erase ncp := h.lru.nodup.not_mem_erase
    rw [hremove]
    refine ⟨_, _, rfl, h.reorder (hholds.pushBack hnot) ?_, rfl⟩
    exact List.perm_append_comm.trans (List.perm_cons_erase hmem).symm
  · exact ⟨c, l, rfl, h, rfl⟩

theorem Consistent.drop (h : Consistent conf c l chain) (ha : c.Hashed ncp) :
    ∃ c' l' chain', c.drop ncp = some c' ∧ Consistent conf c' l' chain' ∧ c' = { c with hash := c'.hash, lru := c'.lru } ∧
      ∀ a, c'.Hashed a ↔ c.Hashed a ∧ a ≠ ncp := by
  have hmem := (h.mem ncp).2 (h.lt_of_hashed ha)
  obtain ⟨lru, hremove, hholds⟩ := h.lru.remove hmem
  obtain ⟨c₁, chain', hunhash, hc₁, heq, hhashed⟩ := h.unhash ha
  have hnot : ncp ∉ l.erase ncp := h.lru.nodup.not_mem_erase
  refine ⟨{ c₁ with lru := lru.pushFront ncp }, ncp :: l.erase ncp, chain', ?_,
    hc₁.reorder (hholds.pushFront hnot) (List.perm_cons_erase hmem).symm, ?_, hhashed⟩
  · rw [Cache.drop, hremove, Option.bind_some, unhash_lru, hunhash]
    rfl
  · rw [heq]

end NetBSD.Namecache
