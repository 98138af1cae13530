import NetBSD.Vm.Order
import Mathlib.Data.List.Nodup
import Mathlib.Data.List.Perm.Basic
import Mathlib.Data.List.TakeWhile

/-!
# Maps that are well formed

What holds of a map between calls, and the parts that the calls share: the lookup finds the entry that contains an address,
or the one before it, from whatever hint it begins.
-/

namespace NetBSD.Vm

variable {m m' : Map} {l l' : List Entry} {p : Place} {start end_ address k : Nat} {e : Entry}

def addrs (l : List Entry) : List Nat := l.map Entry.addr

theorem addrs_append : addrs (l ++ l') = addrs l ++ addrs l' := List.map_append

structure Good (m : Map) : Prop where
  ordered : Ordered m.minOffset m.maxOffset m.entries
  nodup : (addrs m.entries).Nodup
  old : ∀ x ∈ addrs m.entries, x < m.fresh
  nentries : m.nentries = m.entries.length
  size : m.size = total m.entries
  hint : ∀ x ∈ m.hint, x ∈ addrs m.entries
  firstFree : ∀ x ∈ m.firstFree, x ∈ addrs m.entries
  prot : ∀ e ∈ m.entries, e.protection &&& e.maxProtection = e.protection

theorem mapInit_good {min max : Nat} (h : min ≤ max) : Good (mapInit min max) where
  ordered := h
  nodup := List.nodup_nil
  old _ hx := absurd hx List.not_mem_nil
  nentries := rfl
  size := rfl
  hint _ hx := absurd hx (Option.not_mem_none _)
  firstFree _ hx := absurd hx (Option.not_mem_none _)
  prot _ he := absurd he List.not_mem_nil

theorem Good.setHint (h : Good m) {hint : Option Nat} (hlive : ∀ x ∈ hint, x ∈ addrs m.entries) :
    Good { m with hint := hint } :=
  ⟨h.ordered, h.nodup, h.old, h.nentries, h.size, hlive, h.firstFree, h.prot⟩

theorem Good.recut (h : Good m) (hr : Reshape m.fresh k m.entries l') :
    Good { m with entries := l', nentries := m.nentries + k, fresh := m.fresh + k } := by
  have hmem : ∀ x ∈ addrs m.entries, x ∈ addrs l' := fun x hx => hr.addrs.mem_iff.2 (List.mem_append_right _ hx)
  refine ⟨hr.ordered _ _ h.ordered, hr.addrs.nodup_iff.2 ?_, fun x hx => ?_, ?_, ?_, fun x hx => hmem x (h.hint x hx),
    fun x hx => hmem x (h.firstFree x hx), fun e he => ?_⟩
  · refine List.nodup_append.2 ⟨List.nodup_range', h.nodup, fun x hx y hy heq => ?_⟩
    have := h.old y hy
    have := (List.mem_range'_1.1 hx).1
    omega
  · rcases List.mem_append.1 (hr.addrs.mem_iff.1 hx) with hx | hx
    · exact (List.mem_range'_1.1 hx).2
    · exact Nat.lt_add_right _ (h.old x hx)
  · exact (congrArg (· + k) h.nentries).trans hr.length.symm
  · exact h.size.trans hr.total.symm
  · obtain ⟨e', he', hprot, hmax⟩ := hr.alike e he
    rw [hprot, hmax]
    exact h.prot e' he'

structure Splits (address : Nat) (l : List Entry) (p : Place) : Prop where
  eq : p.before ++ p.from_ = l
  before : ∀ e ∈ p.before, e.end_ ≤ address
  from_ : ∀ e ∈ p.from_.head?, address < e.end_
  found : p.found = true ↔ ∃ e ∈ p.from_.head?, e.start ≤ address

theorem search_spec {before : List Entry} (hbefore : ∀ e ∈ before, e.end_ ≤ address) :
    Splits address (before ++ l) (search address before l) := by
  induction l generalizing before with
  | nil => exact ⟨rfl, hbefore, fun _ h => absurd h (Option.not_mem_none _), iff_of_false Bool.false_ne_true nofun⟩
  | cons e l ih =>
    unfold search
    split
    · next hlt =>
      refine ⟨rfl, hbefore, fun e' he' => ?_, ?_⟩
      · obtain rfl : e = e' := Option.some.inj he'
        exact hlt
      · rw [decide_eq_true_iff]
        exact ⟨fun h => ⟨e, rfl, h⟩, fun ⟨e', he', h⟩ => Option.some.inj he' ▸ h⟩
    · next hge =>
      have hbefore' : ∀ e' ∈ before ++ [e], e'.end_ ≤ address := by
        intro e' he'
        rcases List.mem_append.1 he' with he' | he'
        · exact hbefore e' he'
        · rw [List.mem_singleton.1 he']
          exact Nat.le_of_not_lt hge
      have := ih hbefore'
      rw [List.append_assoc] at this
      exact this

theorem Splits.entry_mem (h : Splits address l p) : ∀ x ∈ p.entry.map Entry.addr, x ∈ addrs l := by
  intro x hx
  obtain ⟨e, he, rfl⟩ := Option.map_eq_some_iff.1 hx
  refine List.mem_map_of_mem (h.eq ▸ ?_)
  unfold Place.entry at he
  split at he
  · exact List.mem_append_right _ (List.mem_of_mem_head? he)
  · exact List.mem_append_left _ (List.mem_of_getLast? he)

theorem Place.entry_eq {p : Place} (h : p.found = false) : p.entry.map Entry.addr = p.before.getLast?.map Entry.addr := by
  rw [Place.entry, h]
  rfl

theorem split_append (m : Map) (entry : Option Nat) : (m.split entry).1 ++ (m.split entry).2 = m.entries := by
  cases entry with
  | none => rfl
  | some addr => rw [Map.split, List.span_eq_takeWhile_dropWhile, List.takeWhile_append_dropWhile]

theorem split_ne_nil (h : k ∈ addrs m.entries) : ∃ before e rest, m.split (some k) = (before, e :: rest) ∧ e.addr = k ∧
    m.entries = before ++ e :: rest := by
  have hsplit := split_append m (some k)
  rw [Map.split, List.span_eq_takeWhile_dropWhile] at hsplit ⊢
  generalize hd : m.entries.dropWhile _ = d at hsplit ⊢
  cases d with
  | nil =>
    rw [List.dropWhile_eq_nil_iff] at hd
    obtain ⟨e, he, rfl⟩ := List.mem_map.1 h
    exact absurd rfl (of_decide_eq_true (hd e he))
  | cons e rest =>
    refine ⟨_, e, rest, rfl, ?_, hsplit.symm⟩
    have := List.head?_dropWhile_not (fun e : Entry => decide (e.addr ≠ k)) m.entries
    rw [hd] at this
    simpa using this

theorem lookupEntry_spec (h : Good m) (address : Nat) : Splits address m.entries (m.lookupEntry address).1 ∧
    ∃ hint, (m.lookupEntry address).2 = { m with hint := hint } ∧ (∀ x ∈ hint, x ∈ addrs m.entries) ∧
      ((m.lookupEntry address).1.found = false → hint = (m.lookupEntry address).1.before.getLast?.map Entry.addr) := by
  have hsplit := split_append m m.hint
  have hlive : (m.split m.hint).2 = [] → m.entries = [] := by
    intro hnil
    cases hhint : m.hint with
    | none => rwa [hhint] at hnil
    | some k =>
      obtain ⟨before, e, rest, hs, -, -⟩ := split_ne_nil (h.hint k hhint)
      rw [hhint, hs] at hnil
      exact absurd hnil (List.cons_ne_nil _ _)
  unfold Map.lookupEntry
  generalize m.split m.hint = c at *
  obtain ⟨before, cur⟩ := c
  cases cur with
  | nil =>
    have hnil := hlive rfl
    rw [hnil, List.append_eq_nil_iff] at hsplit
    obtain rfl : before = [] := hsplit.1
    refine ⟨⟨hnil.symm, fun _ he => absurd he List.not_mem_nil, fun _ he => absurd he (Option.not_mem_none _),
      iff_of_false Bool.false_ne_true nofun⟩, none, rfl, fun _ hx => absurd hx (Option.not_mem_none _), fun _ => rfl⟩
  | cons cur rest =>
    have ho := h.ordered
    rw [← hsplit] at ho
    obtain ⟨mid, hb, hc⟩ := ordered_append.1 ho
    dsimp only
    split
    · next hstart =>
      have hbefore : ∀ e ∈ before, e.end_ ≤ address := fun e he => ((hb.mem he).2.2.trans hc.1).trans hstart
      split
      · next hlt =>
        refine ⟨⟨hsplit, hbefore, fun e he => ?_, iff_of_true rfl ⟨cur, rfl, hstart⟩⟩, m.hint, rfl, h.hint,
          nofun⟩
        obtain rfl : cur = e := Option.some.inj he
        exact hlt
      · have hs := search_spec (l := cur :: rest) hbefore
        dsimp only at hsplit
        rw [hsplit] at hs
        exact ⟨hs, _, rfl, hs.entry_mem, Place.entry_eq⟩
    · next hstart =>
      have hs : Splits address ([] ++ (before ++ [cur])) (search address [] (before ++ [cur])) :=
        search_spec fun _ he => absurd he List.not_mem_nil
      generalize search address [] (before ++ [cur]) = p at hs
      have hne : p.from_ ≠ [] := by
        intro hnil
        have heq := hs.eq
        rw [hnil, List.append_nil] at heq
        have hmem : cur ∈ before ++ [cur] := List.mem_append_right _ List.mem_cons_self
        have := hs.before cur (heq.symm ▸ hmem)
        have := hc.2.1
        omega
      have hhead : (p.from_ ++ rest).head? = p.from_.head? := List.head?_append_of_ne_nil _ hne
      have hs' : Splits address m.entries { p with from_ := p.from_ ++ rest } := by
        refine ⟨?_, hs.before, hhead ▸ hs.from_, hhead ▸ hs.found⟩
        have heq : p.before ++ p.from_ = before ++ [cur] := hs.eq
        dsimp only at hsplit ⊢
        rw [← List.append_assoc, heq, ← hsplit, List.append_assoc]
        rfl
      exact ⟨hs', _, rfl, hs'.entry_mem, Place.entry_eq⟩

structure Parts (m m' : Map) (start : Nat) (p : Place) : Prop where
  good : Good m'
  eq : p.before ++ p.from_ = m'.entries
  before : ∀ e ∈ p.before, e.end_ ≤ start
  from_ : ∀ e ∈ p.from_, start ≤ e.start
  ends : ∀ e' ∈ m'.entries, e'.addr ∈ addrs m.entries → ∃ e ∈ m.entries, e.addr = e'.addr ∧ e.end_ = e'.end_
  mapping : ∀ a, mappingAt m'.entries a = mappingAt m.entries a
  minOffset : m'.minOffset = m.minOffset
  maxOffset : m'.maxOffset = m.maxOffset
  isMainMap : m'.isMainMap = m.isMainMap
  firstFree : m'.firstFree = m.firstFree
  hint : p.found = false → m'.hint = p.before.getLast?.map Entry.addr
  found : p.found = true → ∃ e ∈ p.from_.head?, e.start = start
  unfound : p.found = false → mappingAt m.entries start = none

theorem seek_spec (h : Good m) (start : Nat) : Parts m (m.seek start).2 start (m.seek start).1 := by
  obtain ⟨hs, hint, hm', hlive, hhint⟩ := lookupEntry_spec h start
  unfold Map.seek
  generalize m.lookupEntry start = r at *
  obtain ⟨⟨found, before, from_⟩, m'⟩ := r
  obtain rfl : m' = { m with hint := hint } := hm'
  have hgood := h.setHint hlive
  have ho := hgood.ordered
  have heq : before ++ from_ = m.entries := hs.eq
  dsimp only at ho
  rw [← heq] at ho
  obtain ⟨mid, -, hf⟩ := ordered_append.1 ho
  match found, from_ with
  | false, from_ =>
    have hhead : ∀ e ∈ from_.head?, start + 1 ≤ e.start := by
      intro e he
      by_contra hlt
      exact Bool.false_ne_true (hs.found.2 ⟨e, he, Nat.le_of_lt_succ (Nat.lt_of_not_le hlt)⟩)
    refine ⟨hgood, hs.eq, hs.before, fun e he => (Nat.le_succ _).trans (hf.starts hhead e he), fun e he _ => ⟨e, he, rfl, rfl⟩,
      fun _ => rfl, rfl, rfl, rfl, rfl, hhint, nofun, fun _ => ?_⟩
    rw [← heq, mappingAt_append, mappingAt_high hs.before (le_refl _), mappingAt_low (hf.starts hhead) (Nat.lt_succ_self _)]
    rfl
  | true, [] => exact absurd (hs.found.1 rfl) nofun
  | true, entry :: rest =>
    have hclip := clipStart_spec m.fresh (hs.from_ entry rfl)
    dsimp only
    generalize entry.clipStart start m.fresh = c at hclip
    match c with
    | (none, entry') =>
      obtain ⟨-, hle⟩ := hclip
      obtain ⟨e, he, hle'⟩ := hs.found.1 rfl
      obtain rfl : entry = e := Option.some.inj he
      exact ⟨hgood, hs.eq, hs.before, hf.starts fun e he => Option.some.inj he ▸ hle, fun e he _ => ⟨e, he, rfl, rfl⟩,
        fun _ => rfl, rfl, rfl, rfl, rfl, nofun, fun _ => ⟨entry, rfl, Nat.le_antisymm hle' hle⟩, nofun⟩
    | (some new, entry') =>
      obtain ⟨hrecut, haddr, hstart, hend, haddr', -, hnew⟩ := hclip
      have hr := hrecut.append before rest
      simp only [List.append_assoc, List.cons_append, List.nil_append] at hr
      rw [heq] at hr
      have hg := hgood.recut hr.toReshape
      refine ⟨hg, ?_, fun e he => ?_, ?_, fun e he hold => ?_, hr.mapping, rfl, rfl, rfl, rfl, nofun,
        fun _ => ⟨entry', rfl, hstart⟩, nofun⟩
      · exact List.append_assoc ..
      · rcases List.mem_append.1 he with he | he
        · exact hs.before e he
        · rw [List.mem_singleton.1 he, hnew]
      · obtain ⟨mid', -, hn⟩ := ordered_append.1 hg.ordered
        exact hn.2.2.starts fun e he => Option.some.inj he ▸ hstart.ge
      · rcases List.mem_append.1 he with he | he
        · exact ⟨e, heq ▸ List.mem_append_left _ he, rfl, rfl⟩
        rcases List.mem_cons.1 he with rfl | he
        · exact absurd (h.old _ hold) (by rw [haddr']; exact lt_irrefl _)
        rcases List.mem_cons.1 he with rfl | he
        · exact ⟨entry, heq ▸ List.mem_append_right _ List.mem_cons_self, haddr.symm, hend.symm⟩
        · exact ⟨e, heq ▸ List.mem_append_right _ (List.mem_cons_of_mem _ he), rfl, rfl⟩

theorem Parts.from_mapping (h : Parts m m' start p) {a : Nat} (ha : start ≤ a) :
    mappingAt p.from_ a = mappingAt m.entries a := by
  rw [← h.mapping, ← h.eq, mappingAt_append, mappingAt_high h.before ha, Option.none_or]

end NetBSD.Vm
