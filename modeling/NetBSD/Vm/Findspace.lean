import NetBSD.Vm.Good
import Mathlib.Order.Bounds.Basic

/-!
# The search for space

`vm_map_findspace` is first-fit if and only if there is no hole below the end of the `first_free` entry, from which it searches.
-/

namespace NetBSD.Vm

variable {m : Map} {l before rest : List Entry} {e : Entry} {entry : Option Nat} {s start length a : Nat}

def Free (m : Map) (start length a : Nat) : Prop :=
  max start m.minOffset ≤ a ∧ a + length ≤ m.maxOffset ∧ ∀ e ∈ m.entries, e.end_ ≤ a ∨ a + length ≤ e.start

def FirstFit (m : Map) : Prop :=
  ∀ start length : BitVec 32, 0 < length.toNat →
    match (m.findspace start.toNat length.toNat).1 with
    | some a => IsLeast { a | Free m start.toNat length.toNat a } a
    | none => ∀ a, ¬ Free m start.toNat length.toNat a

def Packed (m : Map) : Prop :=
  ∀ k ∈ m.firstFree, ∀ e ∈ m.entries, e.addr = k → ∀ a, m.minOffset ≤ a → a < e.end_ → mappingAt m.entries a ≠ none

theorem vmOffset_region {maxOffset : Nat} (hmax : maxOffset < 4294967296) (hs : s ≤ maxOffset) (hlength : length < 4294967296) :
    (maxOffset < vmOffset (s + length) ∨ vmOffset (s + length) < s ↔ maxOffset < s + length) ∧
      (s + length ≤ maxOffset → vmOffset (s + length) = s + length) := by
  unfold vmOffset
  omega

theorem findLoop_spec (entry : Option Nat) (hmax : m.maxOffset < 4294967296) (hlength : length < 4294967296) (heq : before ++ l = m.entries)
    (hbefore : ∀ e ∈ before, e.end_ ≤ s) (ho : Ordered s m.maxOffset l) (hs : max start m.minOffset ≤ s)
    (hleast : ∀ a, Free m start length a → s ≤ a) :
    match m.findLoop length entry s l with
    | some (a, _) => IsLeast { a | Free m start length a } a
    | none => ∀ a, ¬ Free m start length a := by
  induction l generalizing before s entry with
  | nil =>
    obtain ⟨hpast, hend⟩ := vmOffset_region hmax ho.le hlength
    rw [List.append_nil] at heq
    by_cases hlt : m.maxOffset < s + length
    · rw [Map.findLoop, if_pos (hpast.2 hlt)]
      intro a ha
      have := hleast a ha
      have := ha.2.1
      omega
    · rw [Map.findLoop, if_neg (mt hpast.1 hlt)]
      exact ⟨⟨hs, Nat.le_of_not_lt hlt, fun e he => .inl (hbefore e (heq ▸ he))⟩, fun a ha => hleast a ha⟩
  | cons next rest ih =>
    obtain ⟨hpast, hend⟩ := vmOffset_region hmax ho.le hlength
    have hnext : next ∈ m.entries := heq ▸ List.mem_append_right _ List.mem_cons_self
    by_cases hlt : m.maxOffset < s + length
    · rw [Map.findLoop, if_pos (hpast.2 hlt)]
      intro a ha
      have := hleast a ha
      have := ha.2.1
      omega
    have hle := Nat.le_of_not_lt hlt
    rw [Map.findLoop, if_neg (mt hpast.1 hlt), hend hle]
    by_cases hgap : s + length ≤ next.start
    · rw [if_pos hgap]
      refine ⟨⟨hs, hle, fun e he => ?_⟩, fun a ha => hleast a ha⟩
      rcases List.mem_append.1 (heq.symm ▸ he) with he | he
      · exact .inl (hbefore e he)
      · exact .inr (ho.starts (fun e' he' => Option.some.inj he' ▸ hgap) e he)
    · rw [if_neg hgap]
      have hbefore' : ∀ e ∈ before ++ [next], e.end_ ≤ next.end_ := by
        intro e he
        rcases List.mem_append.1 he with he | he
        · exact (hbefore e he).trans (ho.1.trans ho.2.1.le)
        · rw [List.mem_singleton.1 he]
      have hleast' : ∀ a, Free m start length a → next.end_ ≤ a := by
        intro a ha
        have := hleast a ha
        rcases ha.2.2 next hnext with h | h <;> omega
      have heq' : (before ++ [next]) ++ rest = m.entries := by
        rw [List.append_assoc]
        exact heq
      exact ih (some next.addr) heq' hbefore' ho.2.2 (hs.trans (ho.1.trans ho.2.1.le)) hleast'

theorem findLoop_le (ho : Ordered s m.maxOffset l) {r : Nat × Option Nat} (hr : m.findLoop length entry s l = some r) :
    s ≤ r.1 := by
  induction l generalizing entry s with
  | nil =>
    rw [Map.findLoop] at hr
    split at hr
    · exact absurd hr nofun
    · exact Option.some.inj hr ▸ le_refl s
  | cons next rest ih =>
    rw [Map.findLoop] at hr
    split at hr
    · exact absurd hr nofun
    split at hr
    · exact Option.some.inj hr ▸ le_refl s
    · exact (ho.1.trans ho.2.1.le).trans (ih ho.2.2 hr)

structure Begins (m : Map) (start : Nat) (r : Option Nat × Nat × List Entry × Map) : Prop where
  map : ∃ hint, r.2.2.2 = { m with hint := hint } ∧ ∀ x ∈ hint, x ∈ addrs m.entries
  entry : ∀ x ∈ r.1, x ∈ addrs m.entries
  split : ∃ before, before ++ r.2.2.1 = m.entries ∧ ∀ e ∈ before, e.end_ ≤ r.2.1
  ordered : Ordered r.2.1 m.maxOffset r.2.2.1
  le : start ≤ r.2.1

theorem Begins.behind (h : Good m) {hint : Option Nat} (hlive : ∀ x ∈ hint, x ∈ addrs m.entries)
    (heq : before ++ e :: rest = m.entries) (hlt : start < e.end_) :
    Begins m start (some e.addr, e.end_, rest, { m with hint := hint }) := by
  have ho := h.ordered
  rw [← heq] at ho
  obtain ⟨mid, hb, hlow, hne, hr⟩ := ordered_append.1 ho
  refine ⟨⟨hint, rfl, hlive⟩, fun x hx => ?_, ⟨before ++ [e], ?_, fun e' he' => ?_⟩, hr, hlt.le⟩
  · obtain rfl : e.addr = x := Option.some.inj hx
    exact List.mem_map_of_mem (heq ▸ List.mem_append_right _ List.mem_cons_self)
  · rw [List.append_assoc]
    exact heq
  · rcases List.mem_append.1 he' with he' | he'
    · exact (hb.mem he').2.2.trans (hlow.trans hne.le)
    · rw [List.mem_singleton.1 he']

theorem findStart_spec (h : Good m) (hstart : m.minOffset ≤ start) (hle : start ≤ m.maxOffset) :
    Begins m start (m.findStart start) := by
  unfold Map.findStart
  split
  · next hbottom =>
    subst hbottom
    cases hfree : m.firstFree with
    | none =>
      exact ⟨⟨m.hint, rfl, h.hint⟩, fun _ hx => absurd hx (Option.not_mem_none _),
        ⟨[], rfl, fun _ he => absurd he List.not_mem_nil⟩, h.ordered, le_refl _⟩
    | some k =>
      obtain ⟨before, e, rest, hs, -, heq⟩ := split_ne_nil (h.firstFree k hfree)
      rw [hs]
      have hmem : e ∈ m.entries := heq ▸ List.mem_append_right _ List.mem_cons_self
      obtain ⟨hlow, hne, -⟩ := h.ordered.mem hmem
      exact .behind h h.hint heq.symm (hlow.trans_lt hne)
  · obtain ⟨hs, hint, hm', hlive, hhint⟩ := lookupEntry_spec h start
    generalize m.lookupEntry start = r at *
    obtain ⟨⟨found, before, from_⟩, m'⟩ := r
    obtain rfl : m' = { m with hint := hint } := hm'
    have heq : before ++ from_ = m.entries := hs.eq
    match found, from_ with
    | true, [] => exact absurd (hs.found.1 rfl) nofun
    | true, e :: rest => exact .behind h hlive heq (hs.from_ e rfl)
    | false, from_ =>
      have ho := h.ordered
      rw [← heq] at ho
      obtain ⟨mid, -, hf⟩ := ordered_append.1 ho
      have hf' : Ordered start m.maxOffset from_ := hf.raise hle (hf.starts fun e he => by
        by_contra hlt
        exact Bool.false_ne_true (hs.found.2 ⟨e, he, (Nat.lt_of_not_le hlt).le⟩))
      refine ⟨⟨hint, rfl, hlive⟩, fun x hx => ?_, ⟨before, heq, hs.before⟩, hf', le_refl _⟩
      obtain ⟨e, he, rfl⟩ := Option.map_eq_some_iff.1 hx
      exact List.mem_map_of_mem (heq ▸ List.mem_append_left _ (List.mem_of_getLast? he))

theorem not_free {length : Nat} (hpos : 0 < length) (ha : mappingAt m.entries a ≠ none) : ¬ Free m start length a := by
  intro hfree
  refine ha (mappingAt_eq_none.2 fun e he hin => ?_)
  rcases hfree.2.2 e he with h | h <;> omega

theorem findStart_least (h : Good m) (hpacked : Packed m) (hpos : 0 < length) (ha : Free m start length a) :
    (m.findStart (max start m.minOffset)).2.1 ≤ a := by
  have hlow := ha.1
  unfold Map.findStart
  split
  · cases hfree : m.firstFree with
    | none => exact hlow
    | some k =>
      obtain ⟨before, e, rest, hs, haddr, heq⟩ := split_ne_nil (h.firstFree k hfree)
      rw [hs]
      by_contra hlt
      have hmem : e ∈ m.entries := heq ▸ List.mem_append_right _ List.mem_cons_self
      exact not_free hpos (hpacked k hfree e hmem haddr a (le_of_max_le_right hlow) (Nat.lt_of_not_le hlt)) ha
  · obtain ⟨hs, hint, hm', -, -⟩ := lookupEntry_spec h (max start m.minOffset)
    generalize m.lookupEntry (max start m.minOffset) = r at *
    obtain ⟨⟨found, before, from_⟩, m'⟩ := r
    match found, from_ with
    | true, [] => exact absurd (hs.found.1 rfl) nofun
    | true, e :: rest =>
      obtain ⟨e', he', hle⟩ := hs.found.1 rfl
      obtain rfl : e = e' := Option.some.inj he'
      have hmem : e ∈ m.entries := hs.eq ▸ List.mem_append_right _ List.mem_cons_self
      rcases ha.2.2 e hmem with h | h
      · exact h
      · exact absurd (hle.trans hlow) (by omega)
    | false, from_ => exact hlow

theorem findLoop_entry (h : ∀ x ∈ entry, x ∈ addrs m.entries) (hl : ∀ e ∈ l, e ∈ m.entries) {r : Nat × Option Nat}
    (hr : m.findLoop length entry s l = some r) : ∀ x ∈ r.2, x ∈ addrs m.entries := by
  induction l generalizing entry s with
  | nil =>
    rw [Map.findLoop] at hr
    split at hr
    · exact absurd hr nofun
    · exact Option.some.inj hr ▸ h
  | cons next rest ih =>
    rw [Map.findLoop] at hr
    split at hr
    · exact absurd hr nofun
    split at hr
    · exact Option.some.inj hr ▸ h
    · refine ih (fun x hx => ?_) (fun e he => hl e (List.mem_cons_of_mem _ he)) hr
      obtain rfl : next.addr = x := Option.some.inj hx
      exact List.mem_map_of_mem (hl next List.mem_cons_self)

theorem max_eq (m : Map) (start : Nat) : (if start < m.minOffset then m.minOffset else start) = max start m.minOffset := by
  split <;> omega

theorem findspace_map (h : Good m) (start length : Nat) :
    ∃ hint, (m.findspace start length).2 = { m with hint := hint } ∧ ∀ x ∈ hint, x ∈ addrs m.entries := by
  unfold Map.findspace
  rw [max_eq]
  dsimp only
  split
  · exact ⟨m.hint, rfl, h.hint⟩
  next hle =>
  have hb := findStart_spec h (le_max_right start m.minOffset) (Nat.le_of_not_lt hle)
  generalize m.findStart (max start m.minOffset) = r at hb
  obtain ⟨entry, s, rest, m'⟩ := r
  obtain ⟨hint, hm', hlive⟩ := hb.map
  obtain ⟨before, heq, -⟩ := hb.split
  obtain rfl : m' = { m with hint := hint } := hm'
  have hrest : ∀ e ∈ rest, e ∈ m.entries := fun e he => heq ▸ List.mem_append_right _ he
  dsimp only
  cases hr : Map.findLoop { m with hint := hint } length entry s rest with
  | none => exact ⟨hint, rfl, hlive⟩
  | some r => exact ⟨r.2, rfl, findLoop_entry (m := { m with hint := hint }) hb.entry hrest hr⟩

theorem findspace_none (hlt : m.maxOffset < max start m.minOffset) (length : Nat) : (m.findspace start length).1 = none := by
  rw [Map.findspace, max_eq, if_pos hlt]

theorem findspace_some (hle : max start m.minOffset ≤ m.maxOffset) (length : Nat) : (m.findspace start length).1 =
    ((m.findStart (max start m.minOffset)).2.2.2.findLoop length (m.findStart (max start m.minOffset)).1
      (m.findStart (max start m.minOffset)).2.1 (m.findStart (max start m.minOffset)).2.2.1).map Prod.fst := by
  rw [Map.findspace, max_eq, if_neg (Nat.not_lt.2 hle)]
  generalize m.findStart (max start m.minOffset) = r
  obtain ⟨entry, s, rest, m'⟩ := r
  dsimp only
  cases m'.findLoop length entry s rest with
  | none => rfl
  | some r => rfl

theorem findspace_spec (h : Good m) (hmax : m.maxOffset < 4294967296) (hlength : length < 4294967296)
    (hleast : ∀ a, Free m start length a → (m.findStart (max start m.minOffset)).2.1 ≤ a) :
    match (m.findspace start length).1 with
    | some a => IsLeast { a | Free m start length a } a
    | none => ∀ a, ¬ Free m start length a := by
  by_cases hle : max start m.minOffset ≤ m.maxOffset
  · have hb := findStart_spec h (le_max_right start m.minOffset) hle
    rw [findspace_some hle]
    generalize m.findStart (max start m.minOffset) = r at hb hleast
    obtain ⟨entry, s, rest, m'⟩ := r
    obtain ⟨hint, hm', -⟩ := hb.map
    obtain ⟨before, heq, hbefore⟩ := hb.split
    obtain rfl : m' = { m with hint := hint } := hm'
    have hloop := findLoop_spec (m := { m with hint := hint }) entry hmax hlength heq hbefore hb.ordered hb.le hleast
    dsimp only at hloop ⊢
    generalize Map.findLoop { m with hint := hint } length entry s rest = r at hloop
    match r with
    | none => exact hloop
    | some (a, _) => exact hloop
  · rw [findspace_none (Nat.lt_of_not_le hle)]
    intro a ha
    have := ha.1
    have := ha.2.1
    omega

theorem Packed.firstFit (hpacked : Packed m) (h : Good m) (hmax : m.maxOffset < 4294967296) : FirstFit m :=
  fun _ length hpos => findspace_spec h hmax length.isLt fun _ ha => findStart_least h hpacked hpos ha

theorem FirstFit.packed (hfit : FirstFit m) (h : Good m) : Packed m := by
  intro k hk e he haddr a hlow hlt hnone
  have hhigh := (h.ordered.mem he).2.2
  have hfree : Free m 0 1 a := by
    refine ⟨max_le (Nat.zero_le a) hlow, hlt.trans_le hhigh, fun e he => ?_⟩
    have := mappingAt_eq_none.1 hnone e he
    omega
  have hbottom : max 0 m.minOffset = m.minOffset := max_eq_right (Nat.zero_le _)
  have hle : max 0 m.minOffset ≤ m.maxOffset := hbottom.le.trans h.ordered.le
  -- the search begins at the end of the entry
  have hstart : (m.findStart (max 0 m.minOffset)).2.1 = e.end_ := by
    obtain ⟨before, e', rest, hs, haddr', heq⟩ := split_ne_nil (h.firstFree k hk)
    have he' : e' ∈ m.entries := heq ▸ List.mem_append_right _ List.mem_cons_self
    have hsame := List.inj_on_of_nodup_map h.nodup he he' (haddr.trans haddr'.symm)
    rw [Map.findStart, if_pos hbottom, Option.mem_def.1 hk, hs, hsame]
  have hb := findStart_spec h (le_max_right 0 m.minOffset) hle
  have hspec : match (m.findspace 0 1).1 with
      | some a => IsLeast { a | Free m 0 1 a } a
      | none => ∀ a, ¬ Free m 0 1 a := hfit 0 1 (by decide)
  rw [findspace_some hle] at hspec
  generalize m.findStart (max 0 m.minOffset) = r at hb hstart hspec
  obtain ⟨entry, s, rest, m'⟩ := r
  obtain ⟨hint, hm', -⟩ := hb.map
  obtain rfl : m' = { m with hint := hint } := hm'
  dsimp only at hstart hspec
  cases hr : Map.findLoop { m with hint := hint } 1 entry s rest with
  | none =>
    rw [hr] at hspec
    exact hspec a hfree
  | some r =>
    rw [hr] at hspec
    have hle' : r.1 ≤ a := hspec.2 hfree
    have hge : s ≤ r.1 := findLoop_le (m := { m with hint := hint }) hb.ordered hr
    omega

theorem firstFit_iff (h : Good m) (hmax : m.maxOffset < 4294967296) : FirstFit m ↔ Packed m :=
  ⟨fun hfit => hfit.packed h, fun hpacked => hpacked.firstFit h hmax⟩

end NetBSD.Vm
