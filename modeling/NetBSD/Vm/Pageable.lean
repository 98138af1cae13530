import NetBSD.Vm.Map
import NetBSD.Vm.Pointwise

/-!
# Wiring

`vm_map_pageable`, with the calls of `vm_fault_wire` and `vm_fault_unwire` that it makes.
-/

namespace NetBSD.Vm

inductive FaultCall where
  | wire (start end_ : Nat) (rv : KernReturn)
  | unwire (start end_ : Nat)
  deriving DecidableEq

namespace Entry

/-- A shadow object or a new one, with the name that `object` gives it, where it has to be made before pages are wired. -/
def backing (object : Entry → Nat) (entry : Entry) : Entry :=
  if entry.wiredCount = 0 ∧ entry.isAMap = false then
    if entry.needsCopy ∧ entry.protection &&& protWrite ≠ 0 then
      { entry with object := some (object entry), offset := 0, needsCopy := false }
    else if entry.object = none then { entry with object := some (object entry), offset := 0 }
    else entry
  else entry

def wire (entry : Entry) : Entry := { entry with wiredCount := entry.wiredCount + 1 }

def unwire (entry : Entry) : Entry := { entry with wiredCount := entry.wiredCount - 1 }

def hole (entry : Entry) (end_ : Nat) (rest : List Entry) : Bool :=
  entry.end_ < end_ && rest.head?.all fun next => entry.end_ < next.start

end Entry

def unwireCheck (end_ : Nat) : List Entry → Bool
  | [] => true
  | entry :: rest =>
    if entry.start < end_ then
      if entry.wiredCount = 0 || entry.hole end_ rest then false else unwireCheck end_ rest
    else true

def unwireLoop (end_ fresh : Nat) : List Entry → List Entry × Nat × List FaultCall
  | [] => ([], 0, [])
  | entry :: rest =>
    if entry.start < end_ then
      let (entry, new) := entry.clipEnd end_ fresh
      let calls := if entry.unwire.wiredCount = 0 then [.unwire entry.start entry.end_] else []
      match new with
      | some new => (entry.unwire :: new :: rest, 1, calls)
      | none =>
        let (rest, k, calls') := unwireLoop end_ fresh rest
        (entry.unwire :: rest, k, calls ++ calls')
    else (entry :: rest, 0, [])

def Map.unwire (map : Map) (start end_ : Nat) : KernReturn × Map × List FaultCall :=
  let (start, end_) := map.rangeCheck start end_
  let (p, map) := map.seek start
  if p.found = false then (.invalidAddress, map, [])
  else if unwireCheck end_ p.from_ = false then (.invalidArgument, map, [])
  else
    let (entries, k, calls) := unwireLoop end_ map.fresh p.from_
    (.success, map.replace p (entries, k), calls)

def wireUndo (start : Nat) (visited : List Entry) : List Entry :=
  let (back, front) := visited.reverse.span fun entry => start < entry.end_
  front.reverse ++ (back.map Entry.unwire).reverse

/-- The first pass of wiring, behind the entries `visited`; the result says whether there was no hole. -/
def wirePass (object : Entry → Nat) (start end_ fresh : Nat) (visited : List Entry) : List Entry → Bool × List Entry × Nat
  | [] => (true, visited, fresh)
  | entry :: rest =>
    if entry.start < end_ then
      let (front, entry) := (entry.backing object).clipStart start fresh
      let fresh := fresh + front.toList.length
      match entry.clipEnd end_ fresh with
      -- it ends at `end`, where the next one begins
      | (entry, some new) => (true, visited ++ front.toList ++ entry.wire :: new :: rest, fresh + 1)
      | (entry, none) =>
        let visited := visited ++ front.toList ++ [entry.wire]
        if entry.hole end_ rest then (false, wireUndo start visited ++ rest, fresh)
        else wirePass object start end_ fresh visited rest
    else (true, visited ++ entry :: rest, fresh)

/-- The second pass of wiring, from the first entry on; `failed` is what `vm_fault_wire` returned, and where. -/
def wireFault (fault : List FaultCall → Nat → Nat → KernReturn) (end_ : Nat) (failed : Option (KernReturn × Nat))
    (calls : List FaultCall) : List Entry → List Entry × Option (KernReturn × Nat) × List FaultCall
  | [] => ([], failed, calls)
  | entry :: rest =>
    if entry.start < end_ then
      let (entry, failed, calls) :=
        match failed with
        | some _ => (entry.unwire, failed, calls)
        | none =>
          if entry.wiredCount = 1 then
            let rv := fault calls entry.start entry.end_
            let calls := calls ++ [.wire entry.start entry.end_ rv]
            if rv = .success then (entry, none, calls) else (entry.unwire, some (rv, entry.start), calls)
          else (entry, none, calls)
      let (rest, r) := wireFault fault end_ failed calls rest
      (entry :: rest, r)
    else (entry :: rest, failed, calls)

def Map.wire (map : Map) (object : Entry → Nat) (fault : List FaultCall → Nat → Nat → KernReturn) (start end_ : Nat) :
    KernReturn × Map × List FaultCall :=
  let (start, end_) := map.rangeCheck start end_
  let (p, map) := map.lookupEntry start
  if p.found = false then (.invalidAddress, map, [])
  else
    let startEntry := p.from_.head?.map Entry.addr
    let (ok, entries, fresh) := wirePass object start end_ map.fresh p.before p.from_
    let map := { map with entries := entries, nentries := map.nentries + (fresh - map.fresh), fresh := fresh }
    if ok = false then (.invalidArgument, map, [])
    else
      let (before, from_) := map.split startEntry
      let (entries, failed, calls) := wireFault fault end_ none [] from_
      let map := { map with entries := before ++ entries }
      match failed with
      | none => (.success, map, calls)
      | some (rv, failed) =>
        let (_, map, calls') := map.unwire start failed
        (rv, map, calls ++ calls')

def Map.pageable (map : Map) (object : Entry → Nat) (fault : List FaultCall → Nat → Nat → KernReturn) (start end_ : Nat)
    (newPageable : Bool) : KernReturn × Map × List FaultCall :=
  if newPageable then map.unwire start end_ else map.wire object fault start end_

end NetBSD.Vm

/-!
## Unwiring

`vm_map_pageable` takes one from the counts of a range that is wired, and unwires the pages for which none is left.
-/

namespace NetBSD.Vm

variable {m : Map} {p : Place} {l mid rest : List Entry} {e : Entry} {calls calls' : List FaultCall} {lo hi start end_ fresh a : Nat}

def wires (calls : List FaultCall) (a : Nat) : Nat :=
  calls.countP fun
    | .wire start end_ rv => rv = .success && start ≤ a && a < end_
    | .unwire _ _ => false

def unwires (calls : List FaultCall) (a : Nat) : Nat :=
  calls.countP fun
    | .wire _ _ _ => false
    | .unwire start end_ => start ≤ a && a < end_

theorem wires_append : wires (calls ++ calls') a = wires calls a + wires calls' a := List.countP_append ..

theorem unwires_append : unwires (calls ++ calls') a = unwires calls a + unwires calls' a := List.countP_append ..

def Mapping.unwire (x : Mapping) : Mapping := { x with wiredCount := x.wiredCount - 1 }

theorem unwire_attributes : Attributes Entry.unwire Mapping.unwire :=
  ⟨fun _ => rfl, fun _ => rfl, fun _ => rfl, fun _ _ => rfl⟩

def unwireCall (e : Entry) : List FaultCall := if e.unwire.wiredCount = 0 then [.unwire e.start e.end_] else []

theorem unwireLoop_eq : unwireLoop end_ fresh l =
    ((changeLoop Entry.unwire end_ fresh l).1, (changeLoop Entry.unwire end_ fresh l).2,
      (deleteLoop end_ fresh l).1.flatMap unwireCall) := by
  induction l with
  | nil => rfl
  | cons e l ih =>
    unfold unwireLoop changeLoop deleteLoop
    split
    · generalize e.clipEnd end_ fresh = c
      obtain ⟨e', new⟩ := c
      cases new with
      | none =>
        dsimp only
        rw [ih]
        rfl
      | some new =>
        dsimp only
        rw [List.flatMap_cons, List.flatMap_nil, List.append_nil]
        rfl
    · rfl

theorem wires_unwireCall : wires (l.flatMap unwireCall) a = 0 := by
  refine List.countP_eq_zero.2 fun c hc => ?_
  obtain ⟨e, -, hc⟩ := List.mem_flatMap.1 hc
  unfold unwireCall at hc
  split at hc
  · rw [List.mem_singleton.1 hc]
    exact Bool.false_ne_true
  · exact absurd hc List.not_mem_nil

theorem unwires_one : unwires (unwireCall e) a = if (e.start ≤ a ∧ a < e.end_) ∧ e.wiredCount ≤ 1 then 1 else 0 := by
  unfold unwireCall
  have hzero : e.unwire.wiredCount = 0 ↔ e.wiredCount ≤ 1 := Nat.sub_eq_zero_iff_le
  by_cases hcount : e.wiredCount ≤ 1
  · rw [if_pos (hzero.2 hcount), unwires, List.countP_singleton]
    simp [hcount]
  · rw [if_neg (mt hzero.1 hcount), if_neg fun h => hcount h.2]
    rfl

theorem cover_cons {q : Mapping → Prop} [DecidablePred q] (ho : Ordered lo hi (e :: l)) :
    (if ∃ x ∈ mappingAt (e :: l) a, q x then 1 else 0) =
      (if (e.start ≤ a ∧ a < e.end_) ∧ q (e.mapping a) then 1 else 0) + if ∃ x ∈ mappingAt l a, q x then 1 else 0 := by
  rw [mappingAt_cons]
  by_cases hin : e.start ≤ a ∧ a < e.end_
  · have hnone : mappingAt l a = none := mappingAt_low (fun e' he' => (ho.2.2.mem he').1) hin.2
    simp [hin, hnone]
  · simp [hin]

theorem unwires_unwireCall (ho : Ordered lo hi l) :
    unwires (l.flatMap unwireCall) a = if ∃ x ∈ mappingAt l a, x.wiredCount ≤ 1 then 1 else 0 := by
  induction l generalizing lo with
  | nil => rfl
  | cons e l ih =>
    rw [List.flatMap_cons, unwires_append, ih ho.2.2, unwires_one, cover_cons ho]
    rfl

theorem hole_iff : e.hole end_ rest = true ↔ e.end_ < end_ ∧ ∀ next ∈ rest.head?, e.end_ < next.start := by
  rw [Entry.hole, Bool.and_eq_true, decide_eq_true_iff, Option.all_eq_true]
  simp

theorem unwireCheck_iff (end_ : Nat) (ho : Ordered start hi l) (hhead : start < end_ → ∃ e ∈ l.head?, e.start = start) :
    unwireCheck end_ l = true ↔ ∀ a, start ≤ a ∧ a < end_ → ∃ x ∈ mappingAt l a, 0 < x.wiredCount := by
  induction l generalizing start with
  | nil => exact iff_of_true rfl fun a ha => absurd (hhead (ha.1.trans_lt ha.2)) nofun
  | cons e l ih =>
    unfold unwireCheck
    rcases Nat.lt_or_ge start end_ with hlt | hge
    · obtain ⟨e', he', rfl⟩ := hhead hlt
      obtain rfl : e = e' := Option.some.inj he'
      have hself : mappingAt (e :: l) e.start = some (e.mapping e.start) := by
        rw [mappingAt_cons, if_pos ⟨le_refl _, ho.2.1⟩]
      rw [if_pos hlt]
      by_cases hzero : e.wiredCount = 0
      · rw [hzero]
        refine iff_of_false Bool.false_ne_true fun hall => ?_
        obtain ⟨x, hx, hpos⟩ := hall e.start ⟨le_refl _, hlt⟩
        rw [hself] at hx
        obtain rfl := Option.some.inj hx
        exact hpos.ne' hzero
      by_cases hhole : e.hole end_ l = true
      · rw [hhole, Bool.or_true]
        obtain ⟨hend, hnext⟩ := hole_iff.1 hhole
        refine iff_of_false Bool.false_ne_true fun hall => ?_
        obtain ⟨x, hx, -⟩ := hall e.end_ ⟨ho.2.1.le, hend⟩
        have hnone : mappingAt l e.end_ = none := mappingAt_low (ho.2.2.starts hnext) (Nat.lt_succ_self _)
        rw [mappingAt_cons, if_neg fun h => absurd h.2 (lt_irrefl _), hnone] at hx
        exact absurd hx (Option.not_mem_none _)
      · have hhead' : e.end_ < end_ → ∃ e' ∈ l.head?, e'.start = e.end_ := by
          intro hend
          by_contra hnone
          refine hhole (hole_iff.2 ⟨hend, fun next hnext => ?_⟩)
          have := (ho.2.2.mem (List.mem_of_mem_head? hnext)).1
          exact lt_of_le_of_ne this fun heq => hnone ⟨next, hnext, heq.symm⟩
        have hpass : (decide (e.wiredCount = 0) || e.hole end_ l) = false := by
          rw [decide_eq_false hzero, Bool.eq_false_of_not_eq_true hhole]
          rfl
        rw [hpass, if_neg Bool.false_ne_true, ih ho.2.2 hhead']
        refine ⟨fun hall a ha => ?_, fun hall a ha => ?_⟩
        · rw [mappingAt_cons]
          split
          · exact ⟨_, rfl, Nat.pos_of_ne_zero hzero⟩
          · next hout => exact hall a ⟨by omega, ha.2⟩
        · obtain ⟨x, hx, hpos⟩ := hall a ⟨ho.2.1.le.trans ha.1, ha.2⟩
          rw [mappingAt_cons, if_neg fun h => absurd h.2 (Nat.not_lt.2 ha.1)] at hx
          exact ⟨x, hx, hpos⟩
    · rw [if_neg (Nat.not_lt.2 (hge.trans ho.1))]
      exact iff_of_true rfl fun a ha => absurd ha (by omega)

theorem rangeCheck_eq (hlow : m.minOffset ≤ start) (hle : start ≤ end_) (hhigh : end_ ≤ m.maxOffset) :
    m.rangeCheck start end_ = (start, end_) := by
  rw [Map.rangeCheck, if_neg (Nat.not_lt.2 hlow), if_neg (Nat.not_lt.2 hhigh), if_neg (Nat.not_lt.2 hle)]

structure Unwired (m : Map) (start end_ : Nat) (r : KernReturn × Map × List FaultCall) : Prop where
  good : Good r.2.1
  wired : r.1 = .success → ∀ a, start ≤ a ∧ a < end_ → ∃ x ∈ mappingAt m.entries a, 0 < x.wiredCount
  succeeds : mappingAt m.entries start ≠ none → (∀ a, start ≤ a ∧ a < end_ → ∃ x ∈ mappingAt m.entries a, 0 < x.wiredCount) →
    r.1 = .success
  mapping : ∀ a, mappingAt r.2.1.entries a =
    if r.1 = .success ∧ start ≤ a ∧ a < end_ then (mappingAt m.entries a).map Mapping.unwire else mappingAt m.entries a
  wires : ∀ a, wires r.2.2 a = 0
  unwires : ∀ a, unwires r.2.2 a =
    if r.1 = .success ∧ (start ≤ a ∧ a < end_) ∧ ∃ x ∈ mappingAt m.entries a, x.wiredCount ≤ 1 then 1 else 0

theorem unwire_spec (h : Good m) (hlow : m.minOffset ≤ start) (hle : start ≤ end_) (hhigh : end_ ≤ m.maxOffset) :
    Unwired m start end_ (m.unwire start end_) := by
  have hp := seek_spec h start
  unfold Map.unwire
  rw [rangeCheck_eq hlow hle hhigh]
  dsimp only
  generalize m.seek start = r at hp
  obtain ⟨p, m'⟩ := r
  dsimp only at hp ⊢
  have hfail : ∀ r : KernReturn, r ≠ .success →
      (mappingAt m.entries start = none ∨ ¬ ∀ a, start ≤ a ∧ a < end_ → ∃ x ∈ mappingAt m.entries a, 0 < x.wiredCount) →
        Unwired m start end_ (r, m', []) := fun r hr hwhy =>
    ⟨hp.good, fun hok => absurd hok hr, fun hsome hall => (hwhy.elim hsome fun h => h hall).elim,
      fun a => (hp.mapping a).trans (if_neg fun h => hr h.1).symm, fun a => rfl, fun a => (if_neg fun h => hr h.1).symm⟩
  by_cases hfound : p.found = false
  · rw [if_pos hfound]
    exact hfail _ nofun (.inl (hp.unfound hfound))
  rw [if_neg hfound]
  have ho := hp.good.ordered
  rw [← hp.eq] at ho
  obtain ⟨lo, -, hf⟩ := ordered_append.1 ho
  have hf' := (hf.higher (le_max_right start _)).raise (le_max_left _ _) hp.from_
  have hall : (∀ a, start ≤ a ∧ a < end_ → ∃ x ∈ mappingAt p.from_ a, 0 < x.wiredCount) ↔
      ∀ a, start ≤ a ∧ a < end_ → ∃ x ∈ mappingAt m.entries a, 0 < x.wiredCount :=
    forall₂_congr fun a ha => by rw [hp.from_mapping ha.1]
  have hcheck := (unwireCheck_iff end_ hf' fun _ => hp.found (Bool.eq_true_of_not_eq_false hfound)).trans hall
  by_cases hpass : unwireCheck end_ p.from_ = false
  · rw [if_pos hpass]
    exact hfail _ nofun (.inr fun h => absurd (hpass.symm.trans (hcheck.2 h)) Bool.false_ne_true)
  rw [if_neg hpass, unwireLoop_eq]
  have hwired := hcheck.1 (Bool.eq_true_of_not_eq_false hpass)
  obtain ⟨hgood, hmapping⟩ := hp.change end_ unwire_attributes fun e he e' hprot hmax => by
    have hmem : e ∈ m'.entries := hp.eq ▸ List.mem_append_right _ ((List.takeWhile_sublist _).subset he)
    have hand := hp.good.prot e hmem
    rw [← hprot, ← hmax] at hand
    exact hand
  have hw := hp.window end_
  generalize deleteLoop end_ m'.fresh p.from_ = r at hw
  obtain ⟨mid, rest, k⟩ := r
  obtain ⟨lo', -, ho'⟩ := ordered_append.1 hw.good.ordered
  obtain ⟨hi', hmid, -⟩ := ordered_append.1 ho'
  refine ⟨hgood, fun _ => hwired, fun _ _ => rfl, fun a => (hmapping a).trans ?_, fun a => wires_unwireCall, fun a =>
    (unwires_unwireCall hmid).trans ?_⟩
  · simp only [true_and]
  · by_cases hin : start ≤ a ∧ a < end_
    · simp only [hw.inside hin, hin, true_and]
    · have hnone : mappingAt mid a = none := by
        rcases Nat.lt_or_ge a start with hlt | hge
        · exact mappingAt_low hw.starts hlt
        · exact mappingAt_high hw.ends (by omega)
      rw [hnone, if_neg nofun, if_neg fun h => hin h.2.1]

end NetBSD.Vm
