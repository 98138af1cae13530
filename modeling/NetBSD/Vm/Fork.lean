import NetBSD.Vm.Map
import Mathlib.Logic.Function.Basic

/-!
# Forks

`vmspace_fork` builds the map of a child from that of its parent, entry by entry, as the inheritance of each says. There is no
result where the header of a list would be taken for an entry, or a sharing map had sharing maps.
-/

namespace NetBSD.Vm

/-- What copies are made of: the object and the offset that `vm_object_copy` returns, and whether the source needs a copy, and
the object that `vm_fault_copy_entry` makes. -/
structure Copier where
  object : Entry → Option Nat × Nat × Bool
  fault : Entry → Nat

def Copier.entry (c : Copier) (src dst : Entry) : Entry × Entry :=
  let dst := { dst with wiredCount := 0 }
  if src.wiredCount = 0 then
    let (object, offset, srcNeedsCopy) := c.object src
    ({ src with needsCopy := src.needsCopy || srcNeedsCopy, copyOnWrite := true },
      { dst with object := object, offset := offset, needsCopy := true, copyOnWrite := true })
  else (src, { dst with object := some (c.fault src), offset := 0 })

def clipEndIn (entry : Entry) (end_ fresh : Nat) (rest : List Entry) : Entry × Nat × List Entry :=
  match entry.clipEnd end_ fresh with
  | (entry, none) => (entry, fresh, rest)
  | (entry, some new) => (entry, fresh + 1, new :: rest)

def copyLoop (c : Copier) (srcEnd dstEnd fuel srcStart srcFresh dstFresh : Nat) (src dst : List Entry) :
    Option (List Entry × Nat × List Entry × Nat) :=
  if srcStart < srcEnd then
    match fuel, src, dst with
    | fuel + 1, s :: src, d :: dst =>
      let (s, srcFresh, src) := clipEndIn s srcEnd srcFresh src
      let (d, dstFresh, dst) := clipEndIn d dstEnd dstFresh dst
      let (s, srcFresh, src) := clipEndIn s (s.start + (d.end_ - d.start)) srcFresh src
      let (d, dstFresh, dst) := clipEndIn d (d.start + (s.end_ - s.start)) dstFresh dst
      if s.isAMap || d.isAMap then none
      else
        (copyLoop c srcEnd dstEnd fuel s.end_ srcFresh dstFresh src dst).map fun (src, srcFresh, dst, dstFresh) =>
          ((c.entry s d).1 :: src, srcFresh, (c.entry s d).2 :: dst, dstFresh)
    | _, _, _ => none
  else some (src, srcFresh, dst, dstFresh)

/-- `vm_map_copy` from a sharing map, where protections are not checked, and nothing is allocated or destroyed. -/
def copyShared (c : Copier) (dst src : Map) (dstAddr len srcAddr : Nat) : Option (Map × Map) :=
  let srcEnd := vmOffset (srcAddr + len)
  let dstEnd := vmOffset (dstAddr + len)
  if dstEnd < dstAddr ∨ srcEnd < srcAddr then some (dst, src)
  else
    let (p, src) := src.seek srcAddr
    let (q, dst) := dst.seek dstAddr
    if p.found && q.found then
      (copyLoop c srcEnd dstEnd len srcAddr src.fresh dst.fresh p.from_ q.from_).map fun (srcs, srcFresh, dsts, dstFresh) =>
        (dst.replace q (dsts, dstFresh - dst.fresh), src.replace p (srcs, srcFresh - src.fresh))
    else none

def Map.linkLast (map : Map) (entry : Entry) : Map :=
  { map with entries := map.entries ++ [entry], nentries := map.nentries + 1, fresh := map.fresh + 1 }

/-- The state of a fork: the map of the child, and the sharing maps with their `ref_count`s. -/
structure ForkState where
  child : Map
  share : Nat → Map
  refCount : Nat → Nat
  /-- The address of the next sharing map that is made. -/
  nextShare : Nat

def shareOf (old : Entry) : Map :=
  ({ mapInit old.start old.end_ with isMainMap := false } : Map).linkLast { old with addr := 0, wiredCount := 0 }

namespace ForkState

variable (st : ForkState)

def shared (old : Entry) : Entry × ForkState :=
  if old.isAMap then (old, st)
  else
    ({ old with isAMap := true, object := some st.nextShare, offset := old.start },
      { st with
        share := Function.update st.share st.nextShare (shareOf old)
        refCount := Function.update st.refCount st.nextShare 1
        nextShare := st.nextShare + 1 })

/-- The body of the loop of `vmspace_fork`, with what becomes of the entry of the parent. -/
def forkEntry (c : Copier) (old : Entry) : Option (Entry × ForkState) :=
  match old.inheritance with
  | .none => some (old, st)
  | .share =>
    let (old, st) := st.shared old
    old.object.map fun s =>
      (old, { st with
        child := st.child.linkLast { old with addr := st.child.fresh, wiredCount := 0 }
        refCount := Function.update st.refCount s (st.refCount s + 1) })
  | .copy =>
    let new := { old with addr := st.child.fresh, wiredCount := 0, object := none, isAMap := false }
    if old.isAMap then
      old.object.bind fun s =>
        (copyShared c (st.child.linkLast new) (st.share s) new.start (new.end_ - new.start) old.offset).map
          fun (child, share) => (old, { st with child := child, share := Function.update st.share s share })
    else
      let (old, new) := c.entry old new
      some (old, { st with child := st.child.linkLast new })

def forkLoop (c : Copier) : List Entry → ForkState → Option (List Entry × ForkState)
  | [], st => some ([], st)
  | old :: rest, st =>
    (st.forkEntry c old).bind fun (old, st) => (forkLoop c rest st).map fun (rest, st) => (old :: rest, st)

end ForkState

def vmspaceFork (c : Copier) (parent : Map) (share : Nat → Map) (refCount : Nat → Nat) (nextShare : Nat) :
    Option (Map × ForkState) :=
  let st : ForkState :=
    { child := mapInit parent.minOffset parent.maxOffset, share := share, refCount := refCount, nextShare := nextShare }
  (ForkState.forkLoop c parent.entries st).map fun (entries, st) =>
    ({ parent with entries := entries }, { st with child := { st.child with size := parent.size } })

end NetBSD.Vm
