import NetBSD.Lib.File
import NetBSD.Lib.Runs
import Mathlib.Logic.Function.Basic

/-!
# The page pool

`mpool.c`: a cache of a file's pages. Buffers are in a memory by their addresses; the LRU chain and the hash chains
are lists of them. What `malloc` returns is told to a call, with whatever is in that memory. The file is read and
written without errors, but `lseek` fails where the offset is negative as an `off_t`.
-/

namespace NetBSD.Db

open Lib (File)

abbrev Page := List UInt8

/-- `pgin` and `pgout` of a pool, which change a page in place; without filters they leave it alone. -/
structure Filters where
  pgin : Nat → Page → Page
  pgout : Nat → Page → Page
  length_pgin : ∀ pgno page, (pgin pgno page).length = page.length
  length_pgout : ∀ pgno page, (pgout pgno page).length = page.length
  pgin_pgout : ∀ pgno page, pgin pgno (pgout pgno page) = page
  pgout_pgin : ∀ pgno page, pgout pgno (pgin pgno page) = page

structure Bkt where
  page : Page
  pgno : Nat
  dirty : Bool
  pinned : Bool

/-- `MPOOL` and what its pointers lead to. `lru` is from the head of the chain to its end. -/
structure Mpool where
  lru : List Nat
  hashtable : Nat → List Nat
  bkt : Nat → Bkt
  curcache : Nat
  maxcache : Nat
  npages : Nat
  pagesize : Nat
  file : File

def hashkey (pgno : Nat) : Nat := (pgno + 4294967295) % 4294967296 % 128

namespace Mpool

def modify (mp : Mpool) (b : Nat) (f : Bkt → Bkt) : Mpool := { mp with bkt := Function.update mp.bkt b (f (mp.bkt b)) }

def inshash (mp : Mpool) (b pgno : Nat) : Mpool :=
  { mp with hashtable := Function.update mp.hashtable (hashkey pgno) (b :: mp.hashtable (hashkey pgno)) }

def rmhash (mp : Mpool) (b : Nat) : Mpool :=
  let key := hashkey (mp.bkt b).pgno
  { mp with hashtable := Function.update mp.hashtable key ((mp.hashtable key).erase b) }

def inschain (mp : Mpool) (b : Nat) : Mpool := { mp with lru := b :: mp.lru }

def rmchain (mp : Mpool) (b : Nat) : Mpool := { mp with lru := mp.lru.erase b }

/-- The offset of a page, for `ulong` values of an `u_long`; not where it is negative as an `off_t`. -/
def offset (mp : Mpool) (ulong pgno : Nat) : Option Nat :=
  let off := mp.pagesize * pgno % ulong
  if off < 0x8000000000000000 then some off else none

end Mpool

abbrev Fresh := Option (Nat × Bkt)

def mpoolOpen (file : File) (pagesize maxcache : Nat) : Mpool where
  lru := []
  hashtable := fun _ => []
  bkt := fun _ => { page := [], pgno := 0, dirty := false, pinned := false }
  curcache := 0
  maxcache := maxcache
  npages := file.size / pagesize % 4294967296
  pagesize := pagesize
  file := file

section

variable (F : Filters) (ulong : Nat)

def mpoolWrite (mp : Mpool) (b : Nat) : Bool × Mpool :=
  let mp := mp.modify b fun x => { x with page := F.pgout x.pgno x.page }
  match mp.offset ulong (mp.bkt b).pgno with
  | none => (false, mp)
  | some off =>
    (true, { mp with file := mp.file.write off (mp.bkt b).page }.modify b fun x => { x with dirty := false })

def Mpool.grow (mp : Mpool) (fresh : Fresh) : Option Nat × Mpool :=
  match fresh with
  | none => (none, mp)
  | some (b, x) => (some b, { mp with bkt := Function.update mp.bkt b x, curcache := (mp.curcache + 1) % 4294967296 })

def mpoolBkt (mp : Mpool) (fresh : Fresh) : Option Nat × Mpool :=
  if mp.curcache < mp.maxcache then mp.grow fresh
  else
    match mp.lru.reverse.find? fun b => !(mp.bkt b).pinned with
    | none => mp.grow fresh
    | some b =>
      if (mp.bkt b).dirty then
        match mpoolWrite F ulong mp b with
        | (false, mp) => (none, mp)
        | (true, mp) => (some b, (mp.rmhash b).rmchain b)
      else (some b, (mp.rmhash b).rmchain b)

def mpoolNew (mp : Mpool) (fresh : Fresh) : Option (Nat × Nat) × Mpool :=
  match mpoolBkt F ulong mp fresh with
  | (none, mp) => (none, mp)
  | (some b, mp) =>
    let pgno := mp.npages
    let mp := { mp with npages := (mp.npages + 1) % 4294967296 }.modify b fun x =>
      { x with pgno, dirty := false, pinned := true }
    (some (b, pgno), (mp.inshash b pgno).inschain b)

def mpoolLook (mp : Mpool) (pgno : Nat) : Option Nat :=
  (mp.hashtable (hashkey pgno)).find? fun b => (mp.bkt b).pgno = pgno

def mpoolGet (mp : Mpool) (pgno : Nat) (fresh : Fresh) : Option Nat × Mpool :=
  match mpoolLook mp pgno with
  | some b => (some b, ((mp.rmchain b).inschain b).modify b fun x => { x with pinned := true })
  | none =>
    if pgno ≥ mp.npages then (none, mp)
    else
      match mpoolBkt F ulong mp fresh with
      | (none, mp) => (none, mp)
      | (some b, mp) =>
        let mp := mp.modify b fun x => { x with pgno, dirty := false, pinned := true }
        match mp.offset ulong pgno with
        | none => (none, mp)
        | some off =>
          let page := mp.file.read off mp.pagesize
          if page.length ≠ mp.pagesize then (none, mp)
          else
            let mp := mp.modify b fun x => { x with page := F.pgin pgno page }
            (some b, (mp.inshash b pgno).inschain b)

def mpoolPut (mp : Mpool) (b : Nat) (dirty : Bool) : Mpool :=
  mp.modify b fun x => { x with pinned := false, dirty := x.dirty || dirty }

def syncLoop : List Nat → Mpool → Bool × Mpool
  | [], mp => (true, mp)
  | b :: l, mp =>
    if (mp.bkt b).dirty then
      match mpoolWrite F ulong mp b with
      | (false, mp) => (false, mp)
      | (true, mp) => syncLoop l mp
    else syncLoop l mp

def mpoolSync (mp : Mpool) : Bool × Mpool := syncLoop F ulong mp.lru.reverse mp

end

/-- A page that its user has: the buffer; the contents as the user got them or has made them since; and whether it
was made since, and whether the page is one of `mpool_new`. -/
structure Held where
  buf : Nat
  page : Page
  modified : Bool
  new : Bool

structure System where
  pool : Mpool
  array : Nat → Page
  held : Nat → Option Held

inductive Call where
  | get (pgno : Nat) (fresh : Fresh)
  | new (fresh : Fresh)
  | modify (pgno : Nat) (page : Page)
  | put (pgno : Nat) (dirty : Bool)
  | sync

section

variable (F : Filters) (ulong : Nat)

/-- A call. The user gets from the array what `mpool_get` returns, and puts into it what `mpool_put` is given; only
what is in a new page is seen from the buffer. -/
def System.step (s : System) : Call → Option System
  | .get pgno fresh =>
    match mpoolGet F ulong s.pool pgno fresh with
    | (none, pool) => some { s with pool }
    | (some b, pool) =>
      some { s with
        pool
        held := Function.update s.held pgno (some { buf := b, page := s.array pgno, modified := false, new := false }) }
  | .new fresh =>
    match mpoolNew F ulong s.pool fresh with
    | (none, pool) => some { s with pool }
    | (some (b, pgno), pool) =>
      some { s with
        pool
        held := Function.update s.held pgno
          (some { buf := b, page := (pool.bkt b).page, modified := false, new := true }) }
  | .modify pgno page =>
    (s.held pgno).map fun h =>
      { s with
        pool := s.pool.modify h.buf fun x => { x with page }
        held := Function.update s.held pgno (some { h with page, modified := true }) }
  | .put pgno dirty =>
    (s.held pgno).map fun h =>
      { pool := mpoolPut s.pool h.buf dirty
        array := Function.update s.array pgno h.page
        held := Function.update s.held pgno none }
  | .sync => some { s with pool := (mpoolSync F ulong s.pool).2 }

/-- Memory that `malloc` may return: it is not that of a buffer of the cache, and has room for a page. -/
def Mpool.Unused (mp : Mpool) (fresh : Fresh) : Prop :=
  ∀ b x, fresh = some (b, x) → b ∉ mp.lru ∧ x.page.length = mp.pagesize

/-- A call as it may be made: no page is got twice, only pages that the user has are changed and put back, and a
changed one with `MPOOL_DIRTY`. -/
def System.Allowed (s : System) : Call → Prop
  | .get pgno fresh => s.held pgno = none ∧ s.pool.Unused fresh
  | .new fresh => s.pool.Unused fresh
  | .modify pgno page => (∃ h, s.held pgno = some h) ∧ page.length = s.pool.pagesize
  | .put pgno dirty => ∃ h, s.held pgno = some h ∧ (h.modified = true → dirty = true)
  | .sync => True

def Mpool.Within (mp : Mpool) (ulong pgno : Nat) : Prop :=
  mp.pagesize * pgno < ulong ∧ mp.pagesize * pgno < 0x8000000000000000

/-- A call that is not one of those that go wrong: offsets and page numbers do not overflow, a page of `mpool_new` is
put back with `MPOOL_DIRTY`, and what `mpool_sync` writes is not changed by the filter. -/
def System.Careful (s : System) : Call → Prop
  | .get pgno _ => s.pool.Within ulong pgno
  | .new _ => s.pool.Within ulong s.pool.npages ∧ s.pool.npages + 1 < 4294967296
  | .modify _ _ => True
  | .put pgno dirty => ∀ h, s.held pgno = some h → h.new = true → dirty = true
  | .sync => ∀ b ∈ s.pool.lru, (s.pool.bkt b).dirty = true →
      F.pgout (s.pool.bkt b).pgno (s.pool.bkt b).page = (s.pool.bkt b).page

def System.Opened (s : System) : Prop :=
  (∃ file pagesize maxcache, 0 < pagesize ∧ s.pool = mpoolOpen file pagesize maxcache) ∧
    (∀ pgno, s.array pgno = F.pgin pgno (s.pool.file.read (s.pool.pagesize * pgno) s.pool.pagesize)) ∧
    ∀ pgno, s.held pgno = none

end

end NetBSD.Db

/-!
## The chains of the pool

Every buffer of the cache is on the LRU chain once, and once on the hash chain of its page; no page has two.
-/

namespace NetBSD.Db

variable {mp : Mpool} {lru lru' : List Nat} {hashtable : Nat → List Nat} {number number' : Nat → Nat} {b c p pgno : Nat}
  {x : Bkt} {f : Bkt → Bkt}

@[simp] theorem modify_lru : (mp.modify b f).lru = mp.lru := rfl

@[simp] theorem modify_hashtable : (mp.modify b f).hashtable = mp.hashtable := rfl

@[simp] theorem modify_npages : (mp.modify b f).npages = mp.npages := rfl

@[simp] theorem modify_pagesize : (mp.modify b f).pagesize = mp.pagesize := rfl

@[simp] theorem modify_file : (mp.modify b f).file = mp.file := rfl

@[simp] theorem modify_bkt_self : (mp.modify b f).bkt b = f (mp.bkt b) := Function.update_self ..

@[simp] theorem modify_bkt_of_ne (h : c ≠ b) : (mp.modify b f).bkt c = mp.bkt c := Function.update_of_ne h ..

structure Chained (lru : List Nat) (hashtable : Nat → List Nat) (number : Nat → Nat) : Prop where
  nodup : lru.Nodup
  chain : ∀ k, (hashtable k).Nodup
  hashed : ∀ k b, b ∈ hashtable k ↔ b ∈ lru ∧ hashkey (number b) = k
  unique : ∀ b ∈ lru, ∀ c ∈ lru, number b = number c → b = c

namespace Chained

theorem congr (h : Chained lru hashtable number) (hnum : ∀ b ∈ lru, number' b = number b) :
    Chained lru hashtable number' := by
  refine ⟨h.nodup, h.chain, ?_, ?_⟩
  · intro k b
    rw [h.hashed]
    constructor
    · rintro ⟨hb, hk⟩
      exact ⟨hb, by rw [hnum b hb, hk]⟩
    · rintro ⟨hb, hk⟩
      exact ⟨hb, by rw [← hnum b hb, hk]⟩
  · intro b hb c hc heq
    rw [hnum b hb, hnum c hc] at heq
    exact h.unique b hb c hc heq

theorem perm (h : Chained lru hashtable number) (hnodup : lru'.Nodup) (hmem : ∀ b, b ∈ lru' ↔ b ∈ lru) :
    Chained lru' hashtable number := by
  refine ⟨hnodup, h.chain, ?_, ?_⟩
  · intro k b
    rw [h.hashed, hmem]
  · intro b hb c hc
    exact h.unique b ((hmem b).mp hb) c ((hmem c).mp hc)

theorem insert (h : Chained lru hashtable number) (hb : b ∉ lru) (hp : ∀ c ∈ lru, number c ≠ number b) :
    Chained (b :: lru) (Function.update hashtable (hashkey (number b)) (b :: hashtable (hashkey (number b)))) number := by
  refine ⟨List.nodup_cons.mpr ⟨hb, h.nodup⟩, ?_, ?_, ?_⟩
  · intro k
    by_cases hk : k = hashkey (number b)
    · rw [hk, Function.update_self, List.nodup_cons]
      exact ⟨fun hmem => hb ((h.hashed _ b).mp hmem).1, h.chain _⟩
    · rw [Function.update_of_ne hk]
      exact h.chain k
  · intro k c
    by_cases hk : k = hashkey (number b)
    · rw [hk, Function.update_self, List.mem_cons, List.mem_cons, h.hashed]
      constructor
      · rintro (rfl | ⟨hc, hkey⟩)
        · exact ⟨Or.inl rfl, rfl⟩
        · exact ⟨Or.inr hc, hkey⟩
      · rintro ⟨rfl | hc, hkey⟩
        · exact Or.inl rfl
        · exact Or.inr ⟨hc, hkey⟩
    · rw [Function.update_of_ne hk, h.hashed, List.mem_cons]
      constructor
      · rintro ⟨hc, hkey⟩
        exact ⟨Or.inr hc, hkey⟩
      · rintro ⟨rfl | hc, hkey⟩
        · exact absurd hkey.symm hk
        · exact ⟨hc, hkey⟩
  · intro c hc d hd heq
    rcases List.mem_cons.mp hc with rfl | hc'
    · rcases List.mem_cons.mp hd with rfl | hd'
      · rfl
      · exact absurd heq.symm (hp d hd')
    · rcases List.mem_cons.mp hd with rfl | hd'
      · exact absurd heq (hp c hc')
      · exact h.unique c hc' d hd' heq

theorem erase (h : Chained lru hashtable number) (b : Nat) :
    Chained (lru.erase b) (Function.update hashtable (hashkey (number b)) ((hashtable (hashkey (number b))).erase b))
      number := by
  refine ⟨h.nodup.erase b, ?_, ?_, ?_⟩
  · intro k
    by_cases hk : k = hashkey (number b)
    · rw [hk, Function.update_self]
      exact (h.chain _).erase b
    · rw [Function.update_of_ne hk]
      exact h.chain k
  · intro k c
    rw [h.nodup.mem_erase_iff]
    by_cases hk : k = hashkey (number b)
    · rw [hk, Function.update_self, (h.chain _).mem_erase_iff, h.hashed, and_assoc]
    · rw [Function.update_of_ne hk, h.hashed]
      constructor
      · rintro ⟨hc, hkey⟩
        refine ⟨⟨?_, hc⟩, hkey⟩
        rintro rfl
        exact hk hkey.symm
      · rintro ⟨⟨-, hc⟩, hkey⟩
        exact ⟨hc, hkey⟩
  · intro c hc d hd
    exact h.unique c (List.mem_of_mem_erase hc) d (List.mem_of_mem_erase hd)

end Chained

theorem mpoolLook_some (h : Chained mp.lru mp.hashtable fun b => (mp.bkt b).pgno) :
    mpoolLook mp pgno = some b ↔ b ∈ mp.lru ∧ (mp.bkt b).pgno = pgno := by
  unfold mpoolLook
  constructor
  · intro hfind
    have hmem := List.mem_of_find?_eq_some hfind
    have hnum := List.find?_some hfind
    exact ⟨((h.hashed _ b).mp hmem).1, of_decide_eq_true hnum⟩
  · rintro ⟨hb, rfl⟩
    have hmem : b ∈ mp.hashtable (hashkey (mp.bkt b).pgno) := (h.hashed _ b).mpr ⟨hb, rfl⟩
    cases hfind : (mp.hashtable (hashkey (mp.bkt b).pgno)).find? fun c => (mp.bkt c).pgno = (mp.bkt b).pgno with
    | none =>
      have hne := List.find?_eq_none.mp hfind b hmem
      exact absurd (decide_eq_true rfl) hne
    | some c =>
      have hc := ((h.hashed _ c).mp (List.mem_of_find?_eq_some hfind)).1
      have hfound := List.find?_some hfind
      have hnum : (mp.bkt c).pgno = (mp.bkt b).pgno := of_decide_eq_true hfound
      rw [h.unique c hc b hb hnum]

theorem mpoolLook_none (h : Chained mp.lru mp.hashtable fun b => (mp.bkt b).pgno) :
    mpoolLook mp pgno = none ↔ ∀ b ∈ mp.lru, (mp.bkt b).pgno ≠ pgno := by
  constructor
  · intro hnone b hb hnum
    rw [(mpoolLook_some h).mpr ⟨hb, hnum⟩] at hnone
    cases hnone
  · intro hne
    cases hlook : mpoolLook mp pgno with
    | none => rfl
    | some b =>
      obtain ⟨hb, hnum⟩ := (mpoolLook_some h).mp hlook
      exact absurd hnum (hne b hb)

end NetBSD.Db
