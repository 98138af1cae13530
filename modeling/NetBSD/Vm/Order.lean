import NetBSD.Vm.Map
import Mathlib.Algebra.Order.Group.Nat
import Mathlib.Algebra.BigOperators.Group.List.Basic
import Mathlib.Algebra.GroupWithZero.Nat

/-!
# The entries of a map in order

Entries are not empty and lie one behind the other between the bounds of the map. A list of entries is a partial function
on addresses, and clipping an entry does not change it.
-/

namespace NetBSD.Vm

variable {e : Entry} {l l' r : List Entry} {lo hi a start end_ fresh : Nat}

def Ordered (lo hi : Nat) : List Entry → Prop
  | [] => lo ≤ hi
  | e :: l => lo ≤ e.start ∧ e.start < e.end_ ∧ Ordered e.end_ hi l

structure Mapping where
  object : Option Nat
  offset : Nat
  isAMap : Bool
  copyOnWrite : Bool
  needsCopy : Bool
  protection : BitVec 32
  maxProtection : BitVec 32
  inheritance : Inherit
  wiredCount : Nat
  deriving DecidableEq

def Entry.mapping (e : Entry) (a : Nat) : Mapping where
  object := e.object
  offset := vmOffset (e.offset + (a - e.start))
  isAMap := e.isAMap
  copyOnWrite := e.copyOnWrite
  needsCopy := e.needsCopy
  protection := e.protection
  maxProtection := e.maxProtection
  inheritance := e.inheritance
  wiredCount := e.wiredCount

def mappingAt (l : List Entry) (a : Nat) : Option Mapping :=
  (l.find? fun e => e.start ≤ a ∧ a < e.end_).map fun e => e.mapping a

def Entry.size (e : Entry) : Nat := e.end_ - e.start

def total (l : List Entry) : Nat := (l.map Entry.size).sum

theorem Ordered.le (h : Ordered lo hi l) : lo ≤ hi := by
  induction l generalizing lo with
  | nil => exact h
  | cons e l ih => exact h.1.trans (h.2.1.le.trans (ih h.2.2))

theorem Ordered.lower {lo' : Nat} (h : Ordered lo hi l) (hlo : lo' ≤ lo) : Ordered lo' hi l := by
  cases l with
  | nil => exact hlo.trans h
  | cons e l => exact ⟨hlo.trans h.1, h.2⟩

theorem Ordered.higher {hi' : Nat} (h : Ordered lo hi l) (hhi : hi ≤ hi') : Ordered lo hi' l := by
  induction l generalizing lo with
  | nil => exact Nat.le_trans h hhi
  | cons e l ih => exact ⟨h.1, h.2.1, ih h.2.2⟩

theorem ordered_append : Ordered lo hi (l ++ r) ↔ ∃ mid, Ordered lo mid l ∧ Ordered mid hi r := by
  induction l generalizing lo with
  | nil => exact ⟨fun h => ⟨lo, le_refl lo, h⟩, fun ⟨mid, hmid, h⟩ => h.lower hmid⟩
  | cons e l ih =>
    rw [List.cons_append, Ordered, ih]
    exact ⟨fun ⟨h, h', mid, hl, hr⟩ => ⟨mid, ⟨h, h', hl⟩, hr⟩, fun ⟨mid, ⟨h, h', hl⟩, hr⟩ => ⟨h, h', mid, hl, hr⟩⟩

theorem Ordered.mem (h : Ordered lo hi l) (he : e ∈ l) : lo ≤ e.start ∧ e.start < e.end_ ∧ e.end_ ≤ hi := by
  induction l generalizing lo with
  | nil => exact absurd he List.not_mem_nil
  | cons e' l ih =>
    rcases List.mem_cons.1 he with rfl | he
    · exact ⟨h.1, h.2.1, h.2.2.le⟩
    · obtain ⟨hlo, hne, hhi⟩ := ih h.2.2 he
      exact ⟨h.1.trans (h.2.1.le.trans hlo), hne, hhi⟩

theorem Ordered.sublist (h : Ordered lo hi l) (hsub : l'.Sublist l) : Ordered lo hi l' := by
  induction hsub generalizing lo with
  | slnil => exact h
  | cons e _ ih => exact (ih h.2.2).lower (h.1.trans h.2.1.le)
  | cons_cons e _ ih => exact ⟨h.1, h.2.1, ih h.2.2⟩

theorem Ordered.raise (h : Ordered lo hi l) (hhi : start ≤ hi) (hl : ∀ e ∈ l, start ≤ e.start) : Ordered start hi l := by
  cases l with
  | nil => exact hhi
  | cons e l => exact ⟨hl e List.mem_cons_self, h.2⟩

theorem Ordered.cut (h : Ordered lo hi l) (hlo : lo ≤ end_) (hl : ∀ e ∈ l, e.end_ ≤ end_) : Ordered lo end_ l := by
  induction l generalizing lo with
  | nil => exact hlo
  | cons e l ih => exact ⟨h.1, h.2.1, ih h.2.2 (hl e List.mem_cons_self) fun e' he' => hl e' (List.mem_cons_of_mem _ he')⟩

theorem Ordered.starts (h : Ordered lo hi l) (hhead : ∀ e ∈ l.head?, start ≤ e.start) : ∀ e ∈ l, start ≤ e.start := by
  cases l with
  | nil => exact fun _ he => absurd he List.not_mem_nil
  | cons e' l =>
    have hle := hhead e' rfl
    intro e he
    rcases List.mem_cons.1 he with rfl | he
    · exact hle
    · exact hle.trans (h.2.1.le.trans (h.2.2.mem he).1)

theorem mappingAt_nil : mappingAt [] a = none := rfl

theorem mappingAt_cons : mappingAt (e :: l) a = if e.start ≤ a ∧ a < e.end_ then some (e.mapping a) else mappingAt l a := by
  unfold mappingAt
  rw [List.find?_cons]
  by_cases h : e.start ≤ a ∧ a < e.end_
  · rw [if_pos h, decide_eq_true h]
    rfl
  · rw [if_neg h, decide_eq_false h]

theorem mappingAt_append : mappingAt (l ++ r) a = (mappingAt l a).or (mappingAt r a) := by
  induction l with
  | nil => rfl
  | cons e l ih =>
    rw [List.cons_append, mappingAt_cons, mappingAt_cons, ih]
    split
    · rfl
    · rfl

theorem mappingAt_eq_none : mappingAt l a = none ↔ ∀ e ∈ l, ¬ (e.start ≤ a ∧ a < e.end_) := by
  simp [mappingAt]

theorem mappingAt_low (h : ∀ e ∈ l, start ≤ e.start) (ha : a < start) : mappingAt l a = none :=
  mappingAt_eq_none.2 fun e he hin => by
    have := h e he
    omega

theorem mappingAt_high (h : ∀ e ∈ l, e.end_ ≤ end_) (ha : end_ ≤ a) : mappingAt l a = none :=
  mappingAt_eq_none.2 fun e he hin => by
    have := h e he
    omega

theorem mappingAt_map {change : Entry → Entry} {f : Mapping → Mapping} (hstart : ∀ e, (change e).start = e.start)
    (hend : ∀ e, (change e).end_ = e.end_) (hf : ∀ e a, (change e).mapping a = f (e.mapping a)) :
    mappingAt (l.map change) a = (mappingAt l a).map f := by
  induction l with
  | nil => rfl
  | cons e l ih =>
    rw [List.map_cons, mappingAt_cons, mappingAt_cons, hstart, hend, ih, hf]
    split
    · rfl
    · rfl

theorem mappingAt_window {before mid rest : List Entry} (hbefore : ∀ e ∈ before, e.end_ ≤ start)
    (hstart : ∀ e ∈ mid, start ≤ e.start) (hend : ∀ e ∈ mid, e.end_ ≤ end_) (hrest : ∀ e ∈ rest, end_ ≤ e.start) (a : Nat) :
    mappingAt (before ++ (mid ++ rest)) a =
      if start ≤ a ∧ a < end_ then mappingAt mid a else mappingAt (before ++ rest) a := by
  rw [mappingAt_append, mappingAt_append, mappingAt_append]
  split
  · next hin => rw [mappingAt_high hbefore hin.1, mappingAt_low hrest hin.2, Option.none_or, Option.or_none]
  · next hout =>
    have hnone : mappingAt mid a = none := by
      rcases Nat.lt_or_ge a start with hlt | hge
      · exact mappingAt_low hstart hlt
      · exact mappingAt_high hend (by omega)
    rw [hnone, Option.none_or]

def Related (R : Mapping → Mapping → Prop) (l l' : List Entry) : Prop := ∀ a, Option.Rel R (mappingAt l a) (mappingAt l' a)

section

variable {R : Mapping → Mapping → Prop} {l'' : List Entry}

theorem option_rel_refl (hrefl : ∀ x, R x x) (x : Option Mapping) : Option.Rel R x x := by
  cases x with
  | none => exact .none
  | some x => exact .some (hrefl x)

theorem Related.of_eq (hrefl : ∀ x, R x x) (h : ∀ a, mappingAt l' a = mappingAt l a) : Related R l l' :=
  fun a => h a ▸ option_rel_refl hrefl _

theorem Related.congr (h : Related R l l') (heq : ∀ a, mappingAt l'' a = mappingAt l' a) : Related R l l'' :=
  fun a => heq a ▸ h a

theorem Related.trans (htrans : ∀ x y z, R x y → R y z → R x z) (h : Related R l l') (h' : Related R l' l'') :
    Related R l l'' := by
  intro a
  have hl := h a
  have hl' := h' a
  generalize mappingAt l a = x at hl
  generalize mappingAt l' a = y at hl hl'
  cases hl with
  | none => exact hl'
  | some hxy =>
    generalize mappingAt l'' a = z at hl'
    cases hl' with
    | some hyz => exact .some (htrans _ _ _ hxy hyz)

theorem Related.append {r r' : List Entry} (h : Related R l l') (h' : Related R r r') : Related R (l ++ r) (l' ++ r') := by
  intro a
  rw [mappingAt_append, mappingAt_append]
  have hl := h a
  generalize mappingAt l a = x at hl
  generalize mappingAt l' a = y at hl
  cases hl with
  | none => exact h' a
  | some hxy => exact .some hxy

theorem Related.one {e' : Entry} (hstart : e'.start = e.start) (hend : e'.end_ = e.end_)
    (hR : ∀ a, R (e.mapping a) (e'.mapping a)) : Related R [e] [e'] := by
  intro a
  rw [mappingAt_cons, mappingAt_cons, hstart, hend]
  split
  · exact .some (hR a)
  · exact .none

end

theorem total_append : total (l ++ r) = total l + total r := by
  rw [total, List.map_append, List.sum_append]
  rfl

theorem total_cons : total (e :: l) = e.size + total l := rfl

theorem vmOffset_add (x y : Nat) : vmOffset (vmOffset x + y) = vmOffset (x + y) := Nat.mod_add_mod ..

structure Reshape (fresh k : Nat) (l l' : List Entry) : Prop where
  ordered : ∀ lo hi, Ordered lo hi l → Ordered lo hi l'
  total : total l' = total l
  addrs : (l'.map Entry.addr).Perm (List.range' fresh k ++ l.map Entry.addr)
  alike : ∀ e' ∈ l', ∃ e ∈ l, e'.protection = e.protection ∧ e'.maxProtection = e.maxProtection

theorem Reshape.refl (l : List Entry) : Reshape fresh 0 l l :=
  ⟨fun _ _ => id, rfl, .refl _, fun e he => ⟨e, he, rfl, rfl⟩⟩

theorem Reshape.length {k : Nat} (h : Reshape fresh k l l') : l'.length = l.length + k := by
  have := h.addrs.length_eq
  simp only [List.length_map, List.length_append, List.length_range'] at this
  omega

theorem Reshape.append {k : Nat} (h : Reshape fresh k l l') (before after : List Entry) :
    Reshape fresh k (before ++ l ++ after) (before ++ l' ++ after) := by
  refine ⟨fun lo hi ho => ?_, ?_, ?_, fun e' he' => ?_⟩
  · obtain ⟨mid, hl, hr⟩ := ordered_append.1 ho
    obtain ⟨mid', hb, hl⟩ := ordered_append.1 hl
    exact ordered_append.2 ⟨mid, ordered_append.2 ⟨mid', hb, h.ordered _ _ hl⟩, hr⟩
  · rw [total_append, total_append, total_append, total_append, h.total]
  · simp only [List.map_append]
    refine (((h.addrs.append_left _).append_right _).trans ?_)
    rw [← List.append_assoc, ← List.append_assoc, ← List.append_assoc]
    exact (List.perm_append_comm.append_right _).append_right _
  · rcases List.mem_append.1 he' with he' | he'
    · rcases List.mem_append.1 he' with he' | he'
      · exact ⟨e', List.mem_append_left _ (List.mem_append_left _ he'), rfl, rfl⟩
      · obtain ⟨e, he, hp⟩ := h.alike e' he'
        exact ⟨e, List.mem_append_left _ (List.mem_append_right _ he), hp⟩
    · exact ⟨e', List.mem_append_right _ he', rfl, rfl⟩

theorem Reshape.trans {k k' : Nat} {l'' : List Entry} (h : Reshape fresh k l l') (h' : Reshape (fresh + k) k' l' l'') :
    Reshape fresh (k + k') l l'' := by
  refine ⟨fun lo hi ho => h'.ordered _ _ (h.ordered _ _ ho), h'.total.trans h.total, ?_, fun e he => ?_⟩
  · refine (h'.addrs.trans (h.addrs.append_left _)).trans ?_
    rw [← List.append_assoc, ← List.range'_append_1]
    exact List.perm_append_comm.append_right _
  · obtain ⟨e', he', h1, h2⟩ := h'.alike e he
    obtain ⟨e'', he'', h1', h2'⟩ := h.alike e' he'
    exact ⟨e'', he'', h1.trans h1', h2.trans h2'⟩

structure Recut (fresh k : Nat) (l l' : List Entry) : Prop extends Reshape fresh k l l' where
  mapping : ∀ a, mappingAt l' a = mappingAt l a

theorem Recut.refl (l : List Entry) : Recut fresh 0 l l := ⟨.refl l, fun _ => rfl⟩

theorem Recut.append {k : Nat} (h : Recut fresh k l l') (before after : List Entry) :
    Recut fresh k (before ++ l ++ after) (before ++ l' ++ after) := by
  refine ⟨h.toReshape.append before after, fun a => ?_⟩
  rw [mappingAt_append, mappingAt_append, mappingAt_append, mappingAt_append, h.mapping]

theorem recut_two {x y at_ : Nat} (hlow : e.start < at_) (hhigh : at_ < e.end_) (haddrs : [x, y].Perm [fresh, e.addr]) :
    Recut fresh 1 [e] [{ e with addr := x, end_ := at_ },
      { e with addr := y, start := at_, offset := vmOffset (e.offset + (at_ - e.start)) }] := by
  refine ⟨⟨fun lo hi h => ⟨h.1, hlow, le_refl _, hhigh, h.2.2⟩, ?_, haddrs, fun e' he' => ?_⟩, fun a => ?_⟩
  · simp only [total, Entry.size, List.map_cons, List.map_nil, List.sum_cons, List.sum_nil]
    omega
  · rcases List.mem_cons.1 he' with rfl | he'
    · exact ⟨e, List.mem_cons_self, rfl, rfl⟩
    · rw [List.mem_singleton.1 he']
      exact ⟨e, List.mem_cons_self, rfl, rfl⟩
  · rw [mappingAt_cons, mappingAt_cons, mappingAt_cons]
    dsimp only
    by_cases hin : e.start ≤ a ∧ a < e.end_
    · rw [if_pos hin]
      by_cases hlt : a < at_
      · rw [if_pos ⟨hin.1, hlt⟩]
        rfl
      · have hsum : at_ - e.start + (a - at_) = a - e.start := by omega
        rw [if_neg fun h => hlt h.2, if_pos ⟨Nat.le_of_not_lt hlt, hin.2⟩]
        simp only [Entry.mapping, vmOffset_add, Nat.add_assoc, hsum]
    · rw [if_neg hin, if_neg (by omega), if_neg (by omega)]

theorem clipStart_spec (fresh : Nat) (hstart : start < e.end_) :
    match e.clipStart start fresh with
    | (none, e') => e' = e ∧ start ≤ e.start
    | (some new, e') => Recut fresh 1 [e] [new, e'] ∧ e'.addr = e.addr ∧ e'.start = start ∧ e'.end_ = e.end_ ∧
        new.addr = fresh ∧ new.start = e.start ∧ new.end_ = start := by
  by_cases h : e.start < start
  · rw [Entry.clipStart, if_pos h]
    exact ⟨recut_two h hstart (.refl _), rfl, rfl, rfl, rfl, rfl, rfl⟩
  · rw [Entry.clipStart, if_neg h]
    exact ⟨rfl, Nat.le_of_not_lt h⟩

theorem clipEnd_spec (fresh : Nat) (hend : e.start < end_) :
    match e.clipEnd end_ fresh with
    | (e', none) => e' = e ∧ e.end_ ≤ end_
    | (e', some new) => Recut fresh 1 [e] [e', new] ∧ e'.addr = e.addr ∧ e'.start = e.start ∧ e'.end_ = end_ ∧
        new.addr = fresh ∧ new.start = end_ ∧ new.end_ = e.end_ := by
  by_cases h : end_ < e.end_
  · rw [Entry.clipEnd, if_pos h]
    exact ⟨recut_two hend h (.swap _ _ _), rfl, rfl, rfl, rfl, rfl, rfl⟩
  · rw [Entry.clipEnd, if_neg h]
    exact ⟨rfl, Nat.le_of_not_lt h⟩

theorem Recut.trans {k k' : Nat} {l'' : List Entry} (h : Recut fresh k l l') (h' : Recut (fresh + k) k' l' l'') :
    Recut fresh (k + k') l l'' :=
  ⟨h.toReshape.trans h'.toReshape, fun a => (h'.mapping a).trans (h.mapping a)⟩

structure SamePlace (e e' : Entry) : Prop where
  addr : e'.addr = e.addr
  start : e'.start = e.start
  end_ : e'.end_ = e.end_
  protection : e'.protection = e.protection
  maxProtection : e'.maxProtection = e.maxProtection

theorem SamePlace.reshape {e' : Entry} (h : SamePlace e e') (fresh : Nat) : Reshape fresh 0 [e] [e'] := by
  refine ⟨fun lo hi ho => ?_, ?_, ?_, fun x hx => ?_⟩
  · rw [Ordered, h.start, h.end_]
    exact ho
  · simp only [total, Entry.size, List.map_cons, List.map_nil, h.start, h.end_]
  · rw [List.map_singleton, h.addr]
    exact .refl _
  · rw [List.mem_singleton.1 hx]
    exact ⟨e, List.mem_cons_self, h.protection, h.maxProtection⟩

theorem deleteLoop_spec (end_ fresh : Nat) (ho : Ordered lo hi l) :
    let r := deleteLoop end_ fresh l
    Recut fresh r.2.2 l (r.1 ++ r.2.1) ∧ (∀ e ∈ r.1, e.end_ ≤ end_) ∧ (∀ e ∈ r.2.1, end_ ≤ e.start) := by
  induction l generalizing lo with
  | nil => exact ⟨.refl _, fun _ he => absurd he List.not_mem_nil, fun _ he => absurd he List.not_mem_nil⟩
  | cons e l ih =>
    have hrest : ∀ e' ∈ l, e.end_ ≤ e'.start := fun e' he' => (ho.2.2.mem he').1
    unfold deleteLoop
    split
    · next hlt =>
      have hclip := clipEnd_spec fresh hlt
      generalize e.clipEnd end_ fresh = c at hclip
      match c with
      | (e', none) =>
        obtain ⟨rfl, hle⟩ := hclip
        obtain ⟨hrecut, hgone, hrest'⟩ := ih ho.2.2
        refine ⟨?_, fun x hx => ?_, hrest'⟩
        · have := hrecut.append [e'] []
          simp only [List.append_nil] at this
          exact this
        · rcases List.mem_cons.1 hx with rfl | hx
          · exact hle
          · exact hgone x hx
      | (e', some new) =>
        obtain ⟨hrecut, -, -, hend, -, hstart, hnew⟩ := hclip
        refine ⟨?_, fun x hx => ?_, fun x hx => ?_⟩
        · have := hrecut.append [] l
          simp only [List.nil_append] at this
          exact this
        · rw [List.mem_singleton.1 hx, hend]
        · rcases List.mem_cons.1 hx with rfl | hx
          · exact hstart.ge
          · have h1 := (hrecut.ordered e.start e.end_ ⟨le_rfl, ho.2.1, le_rfl⟩).2.2
            have h2 := h1.2.1
            have h3 := hrest x hx
            omega
    · next hge =>
      refine ⟨.refl _, fun _ he => absurd he List.not_mem_nil, fun x hx => ?_⟩
      rcases List.mem_cons.1 hx with rfl | hx
      · exact Nat.le_of_not_lt hge
      · exact (Nat.le_of_not_lt hge).trans (ho.2.1.le.trans (hrest x hx))

theorem deleteLoop_gone (end_ fresh : Nat) (l : List Entry) : ∀ e' ∈ (deleteLoop end_ fresh l).1, ∃ e ∈ l.takeWhile fun e => e.start < end_,
    e'.protection = e.protection ∧ e'.maxProtection = e.maxProtection := by
  induction l with
  | nil => exact fun _ he => absurd he List.not_mem_nil
  | cons e l ih =>
    unfold deleteLoop
    split
    · next hlt =>
      have hwhile : ((e :: l).takeWhile fun e => e.start < end_) = e :: l.takeWhile fun e => e.start < end_ := by
        rw [List.takeWhile_cons, decide_eq_true hlt]
        rfl
      rw [hwhile]
      have hclip := clipEnd_spec fresh hlt
      generalize e.clipEnd end_ fresh = c at hclip
      match c with
      | (e', none) =>
        obtain ⟨rfl, -⟩ := hclip
        intro x hx
        rcases List.mem_cons.1 hx with rfl | hx
        · exact ⟨_, List.mem_cons_self, rfl, rfl⟩
        · obtain ⟨y, hy, halike⟩ := ih x hx
          exact ⟨y, List.mem_cons_of_mem _ hy, halike⟩
      | (e', some new) =>
        intro x hx
        obtain rfl := List.mem_singleton.1 hx
        obtain ⟨y, hy, halike⟩ := hclip.1.alike x List.mem_cons_self
        obtain rfl := List.mem_singleton.1 hy
        exact ⟨_, List.mem_cons_self, halike⟩
    · exact fun _ he => absurd he List.not_mem_nil

theorem changeLoop_eq (change : Entry → Entry) : changeLoop change end_ fresh l =
    ((deleteLoop end_ fresh l).1.map change ++ (deleteLoop end_ fresh l).2.1, (deleteLoop end_ fresh l).2.2) := by
  induction l with
  | nil => rfl
  | cons e l ih =>
    unfold changeLoop deleteLoop
    split
    · generalize e.clipEnd end_ fresh = c
      match c with
      | (e', none) =>
        dsimp only
        rw [ih]
        rfl
      | (e', some new) => rfl
    · rfl

end NetBSD.Vm
