import Mathlib.Algebra.GroupWithZero.Nat
import Mathlib.Data.List.Basic

/-!
# Address maps

`vm_map.c`, for maps without submaps. A place in the list of entries is the entries before it, and those from it on; the
header is behind the last one. An entry is known by its address, which is not used again.
-/

namespace NetBSD.Vm

inductive KernReturn where
  | success
  | invalidAddress
  | protectionFailure
  | noSpace
  | invalidArgument
  | failure
  deriving DecidableEq

inductive Inherit where
  | share
  | copy
  | none
  deriving DecidableEq

/-- `struct vm_map_entry`; `object` is a `vm_object`, or a sharing map where `isAMap` is set. -/
structure Entry where
  addr : Nat
  start : Nat
  end_ : Nat
  object : Option Nat
  offset : Nat
  isAMap : Bool
  copyOnWrite : Bool
  needsCopy : Bool
  protection : BitVec 32
  maxProtection : BitVec 32
  inheritance : Inherit
  wiredCount : Nat
  deriving DecidableEq

structure Map where
  minOffset : Nat
  maxOffset : Nat
  entries : List Entry
  nentries : Nat
  size : Nat
  isMainMap : Bool
  hint : Option Nat
  firstFree : Option Nat
  /-- The address of the next entry that is made. -/
  fresh : Nat
  deriving DecidableEq

def protDefault : BitVec 32 := 7#32
def protWrite : BitVec 32 := 2#32
def inheritDefault : Inherit := .copy

def vmOffset (x : Nat) : Nat := x % 4294967296

def mapInit (min max : Nat) : Map :=
  { minOffset := min, maxOffset := max, entries := [], nentries := 0, size := 0, isMainMap := true, hint := none,
    firstFree := none, fresh := 0 }

/-- A search of the list. Where it is found the entry is the first one `from_`, and else the last one `before`. -/
structure Place where
  found : Bool
  before : List Entry
  from_ : List Entry

def search (address : Nat) (before : List Entry) : List Entry → Place
  | [] => ⟨false, before, []⟩
  | cur :: rest =>
    if address < cur.end_ then ⟨decide (cur.start ≤ address), before, cur :: rest⟩
    else search address (before ++ [cur]) rest

def Place.entry (p : Place) : Option Entry := if p.found then p.from_.head? else p.before.getLast?

namespace Map

variable (map : Map)

def split (entry : Option Nat) : List Entry × List Entry :=
  match entry with
  | none => ([], map.entries)
  | some addr => map.entries.span fun e => e.addr ≠ addr

def lookupEntry (address : Nat) : Place × Map :=
  let (before, cur) := map.split map.hint
  match cur with
  | [] => (⟨false, before, []⟩, { map with hint := before.getLast?.map Entry.addr })
  | cur :: rest =>
    if cur.start ≤ address then
      if address < cur.end_ then (⟨true, before, cur :: rest⟩, map)
      else
        let p := search address before (cur :: rest)
        (p, { map with hint := p.entry.map Entry.addr })
    else
      let p := search address [] (before ++ [cur])
      let p := { p with from_ := p.from_ ++ rest }
      (p, { map with hint := p.entry.map Entry.addr })

def extends_ (prev : Entry) (start : Nat) : Bool :=
  prev.end_ = start ∧ map.isMainMap ∧ prev.isAMap = false ∧ prev.inheritance = inheritDefault ∧
    prev.protection = protDefault ∧ prev.maxProtection = protDefault ∧ prev.wiredCount = 0

/-- `vm_map_insert`. `coalesce` is what `vm_object_coalesce` says to an entry and a size that is added to it. -/
def insert (coalesce : Entry → Nat → Bool) (object : Option Nat) (offset start end_ : Nat) : KernReturn × Map :=
  if start < map.minOffset ∨ map.maxOffset < end_ ∨ end_ ≤ start then (.invalidAddress, map)
  else
    let (p, map) := map.lookupEntry start
    if p.found then (.noSpace, map)
    else if p.from_.head?.any fun next => next.start < end_ then (.noSpace, map)
    else
      match p.before.getLast?.filter fun prev =>
        object = none && map.extends_ prev start && coalesce prev (end_ - prev.end_) with
      | some prev =>
        (.success, { map with
          entries := p.before.dropLast ++ { prev with end_ := end_ } :: p.from_
          size := map.size + (end_ - prev.end_) })
      | none =>
        let new : Entry :=
          { addr := map.fresh, start := start, end_ := end_, object := object, offset := offset, isAMap := false,
            copyOnWrite := false, needsCopy := false, protection := protDefault, maxProtection := protDefault,
            inheritance := inheritDefault, wiredCount := 0 }
        let prev := p.before.getLast?
        -- the end of the header is `max_offset`
        let prevEnd := (prev.map Entry.end_).getD map.maxOffset
        (.success, { map with
          entries := p.before ++ new :: p.from_
          nentries := map.nentries + 1
          size := map.size + (end_ - start)
          firstFree := if map.firstFree = prev.map Entry.addr ∧ start ≤ prevEnd then some new.addr else map.firstFree
          fresh := map.fresh + 1 })

def findLoop (length : Nat) (entry : Option Nat) (start : Nat) : List Entry → Option (Nat × Option Nat)
  | [] =>
    let end_ := vmOffset (start + length)
    if map.maxOffset < end_ ∨ end_ < start then none else some (start, entry)
  | next :: rest =>
    let end_ := vmOffset (start + length)
    if map.maxOffset < end_ ∨ end_ < start then none
    else if end_ ≤ next.start then some (start, entry)
    else findLoop length (some next.addr) next.end_ rest

/-- The entry that the loop of `vm_map_findspace` begins at, its first address, and the entries behind. -/
def findStart (start : Nat) : Option Nat × Nat × List Entry × Map :=
  if start = map.minOffset then
    match map.firstFree, (map.split map.firstFree).2 with
    | some _, entry :: rest => (some entry.addr, entry.end_, rest, map)
    | _, _ => (none, start, map.entries, map)
  else
    let (p, map) := map.lookupEntry start
    match p.found, p.from_ with
    | true, entry :: rest => (some entry.addr, entry.end_, rest, map)
    | _, _ => (p.before.getLast?.map Entry.addr, start, p.from_, map)

def findspace (start length : Nat) : Option Nat × Map :=
  let start := if start < map.minOffset then map.minOffset else start
  if map.maxOffset < start then (none, map)
  else
    let (entry, start, rest, map) := map.findStart start
    match map.findLoop length entry start rest with
    | none => (none, map)
    | some (addr, entry) => (some addr, { map with hint := entry })

def find (coalesce : Entry → Nat → Bool) (object : Option Nat) (offset start length : Nat) (findSpace : Bool) :
    KernReturn × Nat × Map :=
  if findSpace then
    match map.findspace start length with
    | (none, map) => (.noSpace, start, map)
    | (some addr, map) =>
      let (r, map) := map.insert coalesce object offset addr (vmOffset (addr + length))
      (r, addr, map)
  else
    let (r, map) := map.insert coalesce object offset start (vmOffset (start + length))
    (r, start, map)

def rangeCheck (start end_ : Nat) : Nat × Nat :=
  let start := if start < map.minOffset then map.minOffset else start
  let end_ := if map.maxOffset < end_ then map.maxOffset else end_
  (if end_ < start then end_ else start, end_)

end Map

def Entry.clipStart (entry : Entry) (start fresh : Nat) : Option Entry × Entry :=
  if entry.start < start then
    (some { entry with addr := fresh, end_ := start },
      { entry with start := start, offset := vmOffset (entry.offset + (start - entry.start)) })
  else (none, entry)

def Entry.clipEnd (entry : Entry) (end_ fresh : Nat) : Entry × Option Entry :=
  if end_ < entry.end_ then
    ({ entry with end_ := end_ },
      some { entry with addr := fresh, start := end_, offset := vmOffset (entry.offset + (end_ - entry.start)) })
  else (entry, none)

namespace Map

variable (map : Map)

/-- The beginning of the calls on a range: the lookup of `start`, where the entry is clipped if there is one. -/
def seek (start : Nat) : Place × Map :=
  let (p, map) := map.lookupEntry start
  match p.found, p.from_ with
  | true, entry :: rest =>
    match entry.clipStart start map.fresh with
    | (none, _) => (p, map)
    | (some new, entry) =>
      ({ p with before := p.before ++ [new], from_ := entry :: rest },
        { map with
          entries := p.before ++ new :: entry :: rest
          nentries := map.nentries + 1
          fresh := map.fresh + 1 })
  | _, _ => (p, map)

end Map

/-- The loops of the calls on a range: entries are clipped at `end` and changed; the entry behind a clip begins at `end`,
where the loop stops. The number is that of the new entries. -/
def changeLoop (change : Entry → Entry) (end_ fresh : Nat) : List Entry → List Entry × Nat
  | [] => ([], 0)
  | entry :: rest =>
    if entry.start < end_ then
      match entry.clipEnd end_ fresh with
      | (entry, some new) => (change entry :: new :: rest, 1)
      | (entry, none) =>
        let (rest, k) := changeLoop change end_ fresh rest
        (change entry :: rest, k)
    else (entry :: rest, 0)

/-- The loop of `vm_map_delete`: the entries in the range, the rest, and the number of new ones. -/
def deleteLoop (end_ fresh : Nat) : List Entry → List Entry × List Entry × Nat
  | [] => ([], [], 0)
  | entry :: rest =>
    if entry.start < end_ then
      match entry.clipEnd end_ fresh with
      | (entry, some new) => ([entry], new :: rest, 1)
      | (entry, none) =>
        let (gone, rest, k) := deleteLoop end_ fresh rest
        (entry :: gone, rest, k)
    else ([], entry :: rest, 0)

namespace Map

variable (map : Map)

def replace (p : Place) (entries : List Entry × Nat) : Map :=
  { map with
    entries := p.before ++ entries.1
    nentries := map.nentries + entries.2
    fresh := map.fresh + entries.2 }

def protect (start end_ : Nat) (newProt : BitVec 32) (setMax : Bool) : KernReturn × Map :=
  let (start, end_) := map.rangeCheck start end_
  let (p, map) := map.seek start
  if (p.from_.takeWhile fun e => e.start < end_).any fun e => newProt &&& e.maxProtection ≠ newProt then
    (.protectionFailure, map)
  else
    let change (e : Entry) : Entry :=
      if setMax then { e with maxProtection := newProt, protection := newProt &&& e.protection }
      else { e with protection := newProt }
    (.success, map.replace p (changeLoop change end_ map.fresh p.from_))

def inherit (start end_ : Nat) (newInheritance : Option Inherit) : KernReturn × Map :=
  match newInheritance with
  | none => (.invalidArgument, map)
  | some inheritance =>
    let (start, end_) := map.rangeCheck start end_
    let (p, map) := map.seek start
    (.success, map.replace p (changeLoop (fun e => { e with inheritance := inheritance }) end_ map.fresh p.from_))

def delete (start end_ : Nat) : KernReturn × Map :=
  let (p, map) := map.seek start
  let prev := p.before.getLast?.map Entry.addr
  let freeStart := ((map.split map.firstFree).2.head?.filter fun _ => map.firstFree.isSome).elim map.minOffset Entry.start
  let (gone, rest, k) := deleteLoop end_ map.fresh p.from_
  (.success, { map with
    entries := p.before ++ rest
    nentries := map.nentries + k - gone.length
    size := map.size - (gone.map fun e => e.end_ - e.start).sum
    hint := if p.found then prev else map.hint
    firstFree := if start ≤ freeStart then prev else map.firstFree
    fresh := map.fresh + k })

def remove (start end_ : Nat) : KernReturn × Map :=
  let (start, end_) := map.rangeCheck start end_
  map.delete start end_

end Map

end NetBSD.Vm
