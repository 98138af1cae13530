import NetBSD.Vm.Map
import NetBSD.Vm.Copies
import Mathlib.Logic.Function.Basic

/-!
# Cleaning

`vm_map_clean` goes over the entries of a range twice. The list is circular, and the header stands behind the last entry with the
bounds of the map for its ends.
-/

namespace NetBSD.Vm

def vmSub (x y : Nat) : Nat := vmOffset (x + (4294967296 - y))

structure Part where
  address : Nat
  size : Nat
  object : Nat
  start : Nat
  end_ : Nat
  deriving DecidableEq

inductive PageCall where
  | clean (part : Part) (syncio : Bool)
  | remove (part : Part)
  deriving DecidableEq

def partOf (share : Nat → Map) (current : Entry) (start end_ : Nat) : Option (Part × (Nat → Map)) :=
  let offset := vmOffset (current.offset + vmSub start current.start)
  let size := vmSub (if end_ ≤ current.end_ then end_ else current.end_) start
  current.object.bind fun object =>
    if current.isAMap then
      let (p, smap) := (share object).lookupEntry offset
      p.entry.bind fun tentry => tentry.object.map fun object' =>
        let tsize := vmSub tentry.end_ offset
        let size := if tsize < size then tsize else size
        let offset := vmOffset (tentry.offset + vmSub offset tentry.start)
        (⟨start, size, object', offset, vmOffset (offset + size)⟩, Function.update share object smap)
    else some (⟨start, size, object, offset, vmOffset (offset + size)⟩, share)

def Entry.writable (e : Entry) : Bool := e.protection &&& protWrite ≠ 0

def pageCalls (current : Entry) (part : Part) (syncio invalidate : Bool) : List PageCall :=
  (if current.writable then [.clean part syncio] else []) ++ if invalidate then [.remove part] else []

namespace Map

variable (map : Map)

/-- The first pass, with the entries that it visits; there is no result if it goes on after `fuel` of them. The submap flag of the
header is clear, and `none` stands for its address. -/
def checkHoles (end_ : Nat) : Nat → List Entry → Option (Bool × List (Option Nat))
  | 0, _ => none
  | fuel + 1, [] =>
    if map.minOffset < end_ then
      if map.maxOffset < end_ ∧ map.entries.head?.map Entry.start ≠ some map.maxOffset then some (true, [none])
      else (checkHoles end_ fuel map.entries).map fun (hole, visits) => (hole, none :: visits)
    else some (false, [])
  | fuel + 1, current :: rest =>
    if current.start < end_ then
      if current.end_ < end_ ∧ rest.head?.map Entry.start ≠ some current.end_ then some (true, [some current.addr])
      else (checkHoles end_ fuel rest).map fun (hole, visits) => (hole, some current.addr :: visits)
    else some (false, [])

/-- The second pass. `answer` is what `vm_object_page_clean` returns after some calls. There is no result where the header would be
taken for an entry, or a part has no object. -/
def cleanLoop (answer : List PageCall → Part → Bool) (end_ : Nat) (syncio invalidate : Bool) :
    List Entry → Nat → List PageCall → (Nat → Map) → Option (KernReturn × List (Option Nat) × List PageCall × (Nat → Map))
  | [], _, calls, share => if map.minOffset < end_ then none else some (.success, [], calls, share)
  | current :: rest, start, calls, share =>
    if current.start < end_ then
      (partOf share current start end_).bind fun (part, share) =>
        if current.writable && !answer calls part then
          some (.failure, [some current.addr], calls ++ [.clean part syncio], share)
        else
          (cleanLoop answer end_ syncio invalidate rest (vmOffset (start + part.size))
            (calls ++ pageCalls current part syncio invalidate) share).map
            fun (ret, visits, calls, share) => (ret, some current.addr :: visits, calls, share)
    else some (.success, [], calls, share)

end Map

/-- What `vm_map_clean` returns, the entries that it visits and the calls that it makes, and the maps with their hints. -/
structure Cleaned where
  ret : KernReturn
  visits : List (Option Nat)
  calls : List PageCall
  map : Map
  share : Nat → Map

def Map.clean (map : Map) (share : Nat → Map) (answer : List PageCall → Part → Bool) (start end_ : Nat)
    (syncio invalidate : Bool) (fuel : Nat) : Option Cleaned :=
  let (start, end_) := map.rangeCheck start end_
  let (p, map) := map.lookupEntry start
  if p.found then
    (map.checkHoles end_ fuel p.from_).bind fun (hole, visits) =>
      if hole then some ⟨.invalidAddress, visits, [], map, share⟩
      else
        (map.cleanLoop answer end_ syncio invalidate p.from_ start [] share).map
          fun (ret, visits', calls, share) => ⟨ret, visits ++ visits', calls, map, share⟩
  else some ⟨.invalidAddress, [], [], map, share⟩

end NetBSD.Vm

/-!
## The search for holes

The first pass of `vm_map_clean` finds a hole if there is one, and stops behind the range where an entry follows it. Where none
follows it goes on to the header, which begins before the range ends.
-/

namespace NetBSD.Vm

variable {m : Map} {e : Entry} {rest : List Entry} {lo hi start end_ : Nat}

def Mapped (start end_ : Nat) (l : List Entry) : Prop := ∀ a, start ≤ a ∧ a < end_ → mappingAt l a ≠ none

def EndsInLast (end_ : Nat) (l : List Entry) : Prop := ∃ e ∈ l.getLast?, e.start < end_

structure BeginsIn (start end_ : Nat) (e : Entry) : Prop where
  start_le : e.start ≤ start
  lt_end : start < e.end_
  lt : start < end_

theorem BeginsIn.next {e' : Entry} (ho : Ordered lo hi (e :: e' :: rest)) (hstart : e'.start = e.end_) (hlt : e.end_ < end_) :
    BeginsIn e.end_ end_ e' :=
  ⟨hstart.le, hstart ▸ ho.2.2.2.1, hlt⟩

theorem mapped_next (ho : Ordered lo hi (e :: rest)) (h : BeginsIn start end_ e) (hmap : Mapped start end_ (e :: rest))
    (hlt : e.end_ < end_) : rest.head?.map Entry.start = some e.end_ ∧ Mapped e.end_ end_ rest := by
  have hrest : Mapped e.end_ end_ rest := fun a ha => by
    have hmapped := hmap a ⟨h.lt_end.le.trans ha.1, ha.2⟩
    rwa [mappingAt_cons, if_neg fun hin => absurd hin.2 (Nat.not_lt.2 ha.1)] at hmapped
  refine ⟨?_, hrest⟩
  obtain ⟨e', rest', rfl, hstart⟩ := head_covered ho.2.2 (hrest e.end_ ⟨le_refl _, hlt⟩)
  exact congrArg some hstart

theorem endsInLast_cons {e' : Entry} : EndsInLast end_ (e :: e' :: rest) ↔ EndsInLast end_ (e' :: rest) := by
  rw [EndsInLast, List.getLast?_cons_cons, EndsInLast]

theorem checkHoles_stop {fuel : Nat} (h : end_ ≤ e.start) (hfuel : 0 < fuel) :
    m.checkHoles end_ fuel (e :: rest) = some (false, []) := by
  obtain ⟨fuel, rfl⟩ := Nat.exists_eq_add_one.2 hfuel
  rw [Map.checkHoles, if_neg (Nat.not_lt.2 h)]

theorem checkHoles_clear (ho : Ordered lo hi (e :: rest)) (h : BeginsIn start end_ e) (hmap : Mapped start end_ (e :: rest))
    (hlast : ¬ EndsInLast end_ (e :: rest)) {fuel : Nat} (hfuel : rest.length < fuel) :
    ∃ visits, m.checkHoles end_ fuel (e :: rest) = some (false, visits) ∧ ∀ v ∈ visits, ∃ x ∈ e :: rest, v = some x.addr := by
  induction rest generalizing e start lo fuel with
  | nil => exact absurd ⟨e, rfl, h.start_le.trans_lt h.lt⟩ hlast
  | cons e' rest ih =>
    obtain ⟨fuel, rfl⟩ := Nat.exists_eq_add_one.2 (Nat.zero_lt_of_lt hfuel)
    rw [Map.checkHoles, if_pos (h.start_le.trans_lt h.lt)]
    rcases Nat.lt_or_ge e.end_ end_ with hlt | hge
    · obtain ⟨hnext, hmap'⟩ := mapped_next ho h hmap hlt
      rw [if_neg fun hhole => hhole.2 hnext]
      obtain ⟨visits, hrun, hvisits⟩ := ih ho.2.2 (.next ho (Option.some.inj hnext) hlt) hmap' (endsInLast_cons.not.1 hlast)
        (Nat.lt_of_succ_lt_succ hfuel)
      rw [hrun]
      refine ⟨_, rfl, List.forall_mem_cons.2 ⟨⟨e, List.mem_cons_self, rfl⟩, fun v hv => ?_⟩⟩
      obtain ⟨x, hx, heq⟩ := hvisits v hv
      exact ⟨x, List.mem_cons_of_mem _ hx, heq⟩
    · rw [if_neg fun hhole => absurd hhole.1 (Nat.not_lt.2 hge),
        checkHoles_stop (hge.trans ho.2.2.1) (Nat.zero_lt_of_lt (Nat.lt_of_succ_lt_succ hfuel))]
      exact ⟨_, rfl, List.forall_mem_singleton.2 ⟨e, List.mem_cons_self, rfl⟩⟩

theorem not_mapped_next (h : BeginsIn start end_ e) (hmap : ¬ Mapped start end_ (e :: rest)) :
    e.end_ < end_ ∧ ¬ Mapped e.end_ end_ rest := by
  have hin : ∀ a, start ≤ a ∧ a < e.end_ → mappingAt (e :: rest) a ≠ none := fun a ha => by
    rw [mappingAt_cons, if_pos ⟨h.start_le.trans ha.1, ha.2⟩]
    exact Option.some_ne_none _
  constructor
  · by_contra hge
    exact hmap fun a ha => hin a ⟨ha.1, ha.2.trans_le (Nat.le_of_not_lt hge)⟩
  · intro hrest
    refine hmap fun a ha => ?_
    rcases Nat.lt_or_ge a e.end_ with hlt | hge
    · exact hin a ⟨ha.1, hlt⟩
    · rw [mappingAt_cons, if_neg fun h => absurd h.2 (Nat.not_lt.2 hge)]
      exact hrest a ⟨hge, ha.2⟩

theorem checkHoles_hole (ho : Ordered lo hi (e :: rest)) (h : BeginsIn start end_ e) (hmap : ¬ Mapped start end_ (e :: rest))
    {fuel : Nat} (hfuel : rest.length < fuel) :
    ∃ visits, m.checkHoles end_ fuel (e :: rest) = some (true, visits) ∧ ∀ v ∈ visits, ∃ x ∈ e :: rest, v = some x.addr := by
  induction rest generalizing e start lo fuel with
  | nil =>
    obtain ⟨fuel, rfl⟩ := Nat.exists_eq_add_one.2 (Nat.zero_lt_of_lt hfuel)
    rw [Map.checkHoles, if_pos (h.start_le.trans_lt h.lt), if_pos ⟨(not_mapped_next h hmap).1, nofun⟩]
    exact ⟨_, rfl, List.forall_mem_singleton.2 ⟨e, List.mem_cons_self, rfl⟩⟩
  | cons e' rest ih =>
    obtain ⟨fuel, rfl⟩ := Nat.exists_eq_add_one.2 (Nat.zero_lt_of_lt hfuel)
    obtain ⟨hlt, hmap'⟩ := not_mapped_next h hmap
    rw [Map.checkHoles, if_pos (h.start_le.trans_lt h.lt)]
    by_cases hnext : e'.start = e.end_
    · rw [if_neg fun hhole => hhole.2 (congrArg some hnext)]
      obtain ⟨visits, hrun, hvisits⟩ := ih ho.2.2 (.next ho hnext hlt) hmap' (Nat.lt_of_succ_lt_succ hfuel)
      rw [hrun]
      refine ⟨_, rfl, List.forall_mem_cons.2 ⟨⟨e, List.mem_cons_self, rfl⟩, fun v hv => ?_⟩⟩
      obtain ⟨x, hx, heq⟩ := hvisits v hv
      exact ⟨x, List.mem_cons_of_mem _ hx, heq⟩
    · rw [if_pos ⟨hlt, fun heq => hnext (Option.some.inj heq)⟩]
      exact ⟨_, rfl, List.forall_mem_singleton.2 ⟨e, List.mem_cons_self, rfl⟩⟩

theorem checkHoles_header (ho : Ordered lo hi (e :: rest)) (hmin : m.minOffset < end_) (h : BeginsIn start end_ e)
    (hmap : Mapped start end_ (e :: rest)) (hlast : EndsInLast end_ (e :: rest)) {fuel : Nat} {r : Bool × List (Option Nat)}
    (hrun : m.checkHoles end_ fuel (e :: rest) = some r) : none ∈ r.2 := by
  induction rest generalizing e start lo fuel r with
  | nil =>
    have hge : ¬ e.end_ < end_ := fun hlt => (Option.some_ne_none _) (mapped_next ho h hmap hlt).1.symm
    obtain ⟨fuel, rfl⟩ : ∃ k, fuel = k + 1 := by
      cases fuel with
      | zero => cases hrun
      | succ k => exact ⟨k, rfl⟩
    rw [Map.checkHoles, if_pos (h.start_le.trans_lt h.lt), if_neg fun hhole => hge hhole.1] at hrun
    obtain ⟨r', hheader, rfl⟩ := Option.map_eq_some_iff.1 hrun
    refine List.mem_cons_of_mem _ ?_
    cases fuel with
    | zero => cases hheader
    | succ fuel =>
      rw [Map.checkHoles, if_pos hmin] at hheader
      split at hheader
      · obtain rfl := Option.some.inj hheader
        exact List.mem_cons_self
      · obtain ⟨r, -, rfl⟩ := Option.map_eq_some_iff.1 hheader
        exact List.mem_cons_self
  | cons e' rest ih =>
    cases fuel with
    | zero => cases hrun
    | succ fuel =>
      have hlast' : EndsInLast end_ (e' :: rest) := endsInLast_cons.1 hlast
      have hlt : e.end_ < end_ := by
        by_contra hge
        obtain ⟨x, hx, hxlt⟩ := hlast'
        have hle := (ho.2.2.mem (List.mem_of_getLast? hx)).1
        omega
      obtain ⟨hnext, hmap'⟩ := mapped_next ho h hmap hlt
      have hbegins : BeginsIn e.end_ end_ e' := .next ho (Option.some.inj hnext) hlt
      rw [Map.checkHoles, if_pos (h.start_le.trans_lt h.lt), if_neg fun hhole => hhole.2 hnext] at hrun
      obtain ⟨r', htail, rfl⟩ := Option.map_eq_some_iff.1 hrun
      exact List.mem_cons_of_mem _ (ih ho.2.2 hbegins hmap' hlast' htail)

end NetBSD.Vm
