import NetBSD.Vm.Range

/-!
# Calls on maps are pointwise

A call changes what the addresses of its range are mapped to, and no others.
-/

namespace NetBSD.Vm

variable {m : Map} {object : Option Nat} {offset start end_ : Nat} {r : KernReturn × Map}

def Mapping.protect (newProt : BitVec 32) (setMax : Bool) (x : Mapping) : Mapping :=
  if setMax then { x with maxProtection := newProt, protection := newProt &&& x.protection }
  else { x with protection := newProt }

theorem protect_spec (h : Good m) (start end_ : Nat) (newProt : BitVec 32) (setMax : Bool) :
    let r := m.protect start end_ newProt setMax
    let w := m.rangeCheck start end_
    Good r.2 ∧ ∀ a, mappingAt r.2.entries a =
      if r.1 = .success ∧ w.1 ≤ a ∧ a < w.2 then (mappingAt m.entries a).map (Mapping.protect newProt setMax)
      else mappingAt m.entries a := by
  unfold Map.protect
  generalize m.rangeCheck start end_ = w
  obtain ⟨start, end_⟩ := w
  have hp := seek_spec h start
  dsimp only
  generalize m.seek start = r at hp
  obtain ⟨p, m'⟩ := r
  dsimp only at hp ⊢
  split
  · refine ⟨hp.good, fun a => ?_⟩
    rw [if_neg fun h => absurd h.1 KernReturn.noConfusion]
    exact hp.mapping a
  · next hall =>
    have hmax : ∀ e ∈ p.from_.takeWhile fun e => e.start < end_, newProt &&& e.maxProtection = newProt := by
      intro e he
      by_contra hne
      exact hall (List.any_eq_true.2 ⟨e, he, decide_eq_true hne⟩)
    have hc : Attributes (fun e => if setMax then { e with maxProtection := newProt, protection := newProt &&& e.protection }
        else { e with protection := newProt }) (Mapping.protect newProt setMax) := by
      cases setMax
      · exact ⟨fun _ => rfl, fun _ => rfl, fun _ => rfl, fun _ _ => rfl⟩
      · exact ⟨fun _ => rfl, fun _ => rfl, fun _ => rfl, fun _ _ => rfl⟩
    obtain ⟨hg, hmapping⟩ := hp.change _ hc fun e he e' _ hmax' => by
      cases setMax
      · exact hmax' ▸ hmax e he
      · have hand : newProt &&& e'.protection &&& newProt = newProt &&& e'.protection := by
          rw [BitVec.and_comm, ← BitVec.and_assoc, BitVec.and_self]
        exact hand
    refine ⟨hg, fun a => ?_⟩
    rw [hmapping]
    simp only [true_and]

theorem inherit_spec (h : Good m) (start end_ : Nat) (newInheritance : Option Inherit) :
    let r := m.inherit start end_ newInheritance
    let w := m.rangeCheck start end_
    Good r.2 ∧ (r.1 = .success ↔ newInheritance.isSome) ∧ ∀ a, mappingAt r.2.entries a =
      if w.1 ≤ a ∧ a < w.2 then
        (mappingAt m.entries a).map fun x => { x with inheritance := newInheritance.getD x.inheritance }
      else mappingAt m.entries a := by
  cases newInheritance with
  | none =>
    refine ⟨h, iff_of_false nofun nofun, fun a => ?_⟩
    have : (mappingAt m.entries a).map (fun x => { x with inheritance := (none : Option Inherit).getD x.inheritance }) =
        mappingAt m.entries a := Option.map_id'
    rw [this, ite_self]
    rfl
  | some inheritance =>
    unfold Map.inherit
    generalize m.rangeCheck start end_ = w
    obtain ⟨start, end_⟩ := w
    have hp := seek_spec h start
    dsimp only
    generalize m.seek start = r at hp
    obtain ⟨p, m'⟩ := r
    dsimp only at hp ⊢
    have hc : Attributes (fun e => { e with inheritance := inheritance }) fun x => { x with inheritance := inheritance } :=
      ⟨fun _ => rfl, fun _ => rfl, fun _ => rfl, fun _ _ => rfl⟩
    obtain ⟨hg, hmapping⟩ := hp.change _ hc fun e he e' hprot hmax => by
      have hmem : e ∈ m'.entries := hp.eq ▸ List.mem_append_right _ ((List.takeWhile_sublist _).subset he)
      dsimp only
      rw [hprot, hmax]
      exact hp.good.prot e hmem
    exact ⟨hg, iff_of_true rfl rfl, hmapping⟩

theorem delete_spec (h : Good m) (start end_ : Nat) :
    let r := m.delete start end_
    Good r.2 ∧ r.1 = .success ∧
      ∀ a, mappingAt r.2.entries a = if start ≤ a ∧ a < end_ then none else mappingAt m.entries a := by
  have hp := seek_spec h start
  unfold Map.delete
  generalize m.seek start = r at hp
  obtain ⟨p, m'⟩ := r
  have hw := hp.window end_
  dsimp only at hp hw ⊢
  generalize deleteLoop end_ m'.fresh p.from_ = r at hw
  obtain ⟨mid, rest, k⟩ := r
  dsimp only at hw ⊢
  have hg := hw.good
  have hsub : (p.before ++ rest).Sublist (p.before ++ (mid ++ rest)) :=
    (List.Sublist.refl _).append (List.sublist_append_right mid rest)
  have hlast : ∀ x ∈ p.before.getLast?.map Entry.addr, x ∈ addrs (p.before ++ rest) := by
    intro x hx
    obtain ⟨e, he, rfl⟩ := Option.map_eq_some_iff.1 hx
    exact List.mem_map_of_mem (List.mem_append_left _ (List.mem_of_getLast? he))
  have hhint : ∀ x ∈ if p.found then p.before.getLast?.map Entry.addr else m'.hint, x ∈ addrs (p.before ++ rest) := by
    split
    · exact hlast
    · next hfound => exact hp.hint (Bool.eq_false_of_not_eq_true hfound) ▸ hlast
  have hfree : ∀ x ∈ if start ≤ ((m'.split m'.firstFree).2.head?.filter fun _ => m'.firstFree.isSome).elim m'.minOffset
      Entry.start then p.before.getLast?.map Entry.addr else m'.firstFree, x ∈ addrs (p.before ++ rest) := by
    split
    · exact hlast
    · next hlt =>
      intro x hx
      obtain ⟨before', e, rest', hs, rfl, heq⟩ := split_ne_nil (hp.good.firstFree x hx)
      rw [Option.mem_def.1 hx, hs] at hlt
      have hmem : e ∈ p.before ++ p.from_ := hp.eq ▸ heq ▸ List.mem_append_right _ List.mem_cons_self
      rcases List.mem_append.1 hmem with he | he
      · exact List.mem_map_of_mem (List.mem_append_left _ he)
      · exact absurd (hp.from_ e he) hlt
  refine ⟨⟨hg.ordered.sublist hsub, hg.nodup.sublist (hsub.map _), fun x hx => hg.old x ((hsub.map _).subset hx), ?_, ?_, hhint,
    hfree, fun e he => hg.prot e (hsub.subset he)⟩, rfl, hw.outside⟩
  · have := hg.nentries
    simp only [List.length_append] at this ⊢
    omega
  · have := hg.size
    simp only [total_append] at this ⊢
    change _ - total mid = _
    omega

theorem remove_spec (h : Good m) (start end_ : Nat) :
    let r := m.remove start end_
    let w := m.rangeCheck start end_
    Good r.2 ∧ r.1 = .success ∧
      ∀ a, mappingAt r.2.entries a = if w.1 ≤ a ∧ a < w.2 then none else mappingAt m.entries a :=
  delete_spec h _ _

inductive Call where
  | insert (coalesce : Entry → Nat → Bool) (object : Option Nat) (offset start end_ : Nat)
  | remove (start end_ : Nat)
  | protect (start end_ : Nat) (newProt : BitVec 32) (setMax : Bool)
  | inherit (start end_ : Nat) (newInheritance : Option Inherit)

def Map.call (m : Map) : Call → KernReturn × Map
  | .insert coalesce object offset start end_ => m.insert coalesce object offset start end_
  | .remove start end_ => m.remove start end_
  | .protect start end_ newProt setMax => m.protect start end_ newProt setMax
  | .inherit start end_ newInheritance => m.inherit start end_ newInheritance

def Map.run (m : Map) (calls : List Call) : Map := calls.foldl (fun m c => (m.call c).2) m

def Call.Effect (m : Map) (l' : List Entry) : Call → Prop
  | .insert _ object offset start end_ => m.minOffset ≤ start ∧ start < end_ ∧ end_ ≤ m.maxOffset ∧
      (∀ a, start ≤ a ∧ a < end_ → mappingAt m.entries a = none) ∧ Inserts m.entries l' object offset start end_
  | .remove start end_ => ∀ a, mappingAt l' a =
      if (m.rangeCheck start end_).1 ≤ a ∧ a < (m.rangeCheck start end_).2 then none else mappingAt m.entries a
  | .protect start end_ newProt setMax => ∀ a, mappingAt l' a =
      if (m.rangeCheck start end_).1 ≤ a ∧ a < (m.rangeCheck start end_).2 then
        (mappingAt m.entries a).map (Mapping.protect newProt setMax)
      else mappingAt m.entries a
  | .inherit start end_ newInheritance => ∀ a, mappingAt l' a =
      if (m.rangeCheck start end_).1 ≤ a ∧ a < (m.rangeCheck start end_).2 then
        (mappingAt m.entries a).map fun x => { x with inheritance := newInheritance.getD x.inheritance }
      else mappingAt m.entries a

theorem Insertion.bounds_eq (hr : Insertion m object offset start end_ r) :
    r.2.minOffset = m.minOffset ∧ r.2.maxOffset = m.maxOffset := by
  cases hr
  · exact ⟨rfl, rfl⟩
  · exact ⟨rfl, rfl⟩
  · exact ⟨rfl, rfl⟩
  · exact ⟨rfl, rfl⟩

theorem Insertion.range (hr : Insertion m object offset start end_ r) (hok : r.1 = .success) :
    m.minOffset ≤ start ∧ start < end_ ∧ end_ ≤ m.maxOffset := by
  cases hr with
  | bounds => exact KernReturn.noConfusion hok
  | used => exact KernReturn.noConfusion hok
  | extended _ _ _ _ _ _ _ _ hlow hlt hhigh => exact ⟨hlow, hlt, hhigh⟩
  | added _ _ _ _ _ hlow hlt hhigh => exact ⟨hlow, hlt, hhigh⟩

theorem call_bounds (h : Good m) (c : Call) : (m.call c).2.minOffset = m.minOffset ∧ (m.call c).2.maxOffset = m.maxOffset := by
  cases c with
  | insert coalesce object offset start end_ => exact (insert_cases h coalesce object offset start end_).bounds_eq
  | remove start end_ => exact ⟨(seek_spec h _).minOffset, (seek_spec h _).maxOffset⟩
  | protect start end_ newProt setMax =>
    have hp := seek_spec h (m.rangeCheck start end_).1
    rw [Map.call, Map.protect]
    dsimp only
    split
    · exact ⟨hp.minOffset, hp.maxOffset⟩
    · exact ⟨hp.minOffset, hp.maxOffset⟩
  | inherit start end_ newInheritance =>
    cases newInheritance with
    | none => exact ⟨rfl, rfl⟩
    | some inheritance => exact ⟨(seek_spec h _).minOffset, (seek_spec h _).maxOffset⟩

theorem call_good (h : Good m) (c : Call) : Good (m.call c).2 := by
  cases c with
  | insert coalesce object offset start end_ => exact (insert_cases h coalesce object offset start end_).good h
  | remove start end_ => exact (remove_spec h start end_).1
  | protect start end_ newProt setMax => exact (protect_spec h start end_ newProt setMax).1
  | inherit start end_ newInheritance => exact (inherit_spec h start end_ newInheritance).1

theorem call_effect (h : Good m) (c : Call) (hok : (m.call c).1 = .success) : c.Effect m (m.call c).2.entries := by
  cases c with
  | insert coalesce object offset start end_ =>
    have hr := insert_cases h coalesce object offset start end_
    obtain ⟨hlow, hlt, hhigh⟩ := hr.range hok
    exact ⟨hlow, hlt, hhigh, hr.inserts h hok⟩
  | remove start end_ => exact (remove_spec h start end_).2.2
  | protect start end_ newProt setMax =>
    intro a
    have hok' : (m.protect start end_ newProt setMax).1 = .success := hok
    refine ((protect_spec h start end_ newProt setMax).2 a).trans ?_
    simp only [hok', true_and]
  | inherit start end_ newInheritance => exact (inherit_spec h start end_ newInheritance).2.2

theorem call_unchanged (h : Good m) (c : Call) (hfail : (m.call c).1 ≠ .success) (a : Nat) :
    mappingAt (m.call c).2.entries a = mappingAt m.entries a := by
  cases c with
  | insert coalesce object offset start end_ => exact (insert_cases h coalesce object offset start end_).unchanged hfail a
  | remove start end_ => exact absurd rfl hfail
  | protect start end_ newProt setMax =>
    rw [Map.call, (protect_spec h start end_ newProt setMax).2 a, if_neg fun h => hfail h.1]
  | inherit start end_ newInheritance =>
    cases newInheritance with
    | none => rfl
    | some inheritance => exact absurd rfl hfail

theorem run_good (h : Good m) (calls : List Call) :
    Good (m.run calls) ∧ (m.run calls).minOffset = m.minOffset ∧ (m.run calls).maxOffset = m.maxOffset := by
  induction calls generalizing m with
  | nil => exact ⟨h, rfl, rfl⟩
  | cons c calls ih =>
    obtain ⟨hg, hmin, hmax⟩ := ih (call_good h c)
    obtain ⟨hmin', hmax'⟩ := call_bounds h c
    exact ⟨hg, hmin.trans hmin', hmax.trans hmax'⟩

/-- In every run the map stays well formed, and a call changes its range alone, or nothing. -/
theorem pointwise (h : Good m) (calls : List Call) :
    Good (m.run calls) ∧ (m.run calls).minOffset = m.minOffset ∧ (m.run calls).maxOffset = m.maxOffset ∧
      ∀ c, (((m.run calls).call c).1 = .success → c.Effect (m.run calls) ((m.run calls).call c).2.entries) ∧
        (((m.run calls).call c).1 ≠ .success →
          ∀ a, mappingAt ((m.run calls).call c).2.entries a = mappingAt (m.run calls).entries a) := by
  obtain ⟨hg, hmin, hmax⟩ := run_good h calls
  exact ⟨hg, hmin, hmax, fun c => ⟨call_effect hg c, call_unchanged hg c⟩⟩

/-- An entry is made and extended, and its middle is removed. -/
theorem pointwise_clipped :
    let m := (mapInit 4096 65536).run
      [.insert (fun _ _ => true) none 0 8192 16384, .insert (fun _ _ => true) none 0 16384 24576, .remove 12288 20480]
    m.entries.map (fun e => (e.start, e.end_)) = [(8192, 12288), (20480, 24576)] ∧ Good m ∧ m.minOffset = 4096 ∧
      m.maxOffset = 65536 := by
  obtain ⟨hg, hmin, hmax, -⟩ := pointwise (mapInit_good (by decide : 4096 ≤ 65536))
    [.insert (fun _ _ => true) none 0 8192 16384, .insert (fun _ _ => true) none 0 16384 24576, .remove 12288 20480]
  exact ⟨by decide, hg, hmin, hmax⟩

end NetBSD.Vm

/-!
## Protection checks

`vm_map_check_protection`, with the hint that a lookup leaves behind.
-/

namespace NetBSD.Vm

variable {m : Map} {l : List Entry} {start end_ lo hi : Nat} {protection : BitVec 32}

def checkLoop (end_ : Nat) (protection : BitVec 32) : List Entry → Nat → Bool
  | [], start => !decide (start < end_)
  | entry :: rest, start =>
    if start < end_ then
      if start < entry.start then false
      else if entry.protection &&& protection ≠ protection then false
      else checkLoop end_ protection rest entry.end_
    else true

def Map.checkProtection (m : Map) (start end_ : Nat) (protection : BitVec 32) : Bool × Map :=
  let (p, m) := m.lookupEntry start
  (if p.found then checkLoop end_ protection p.from_ start else false, m)

def Allows (l : List Entry) (protection : BitVec 32) (start end_ : Nat) : Prop :=
  ∀ a, start ≤ a → a < end_ → ∃ x ∈ mappingAt l a, x.protection &&& protection = protection

theorem checkLoop_iff (h : Ordered lo hi l) (hhead : ∀ e ∈ l.head?, start < e.end_) :
    checkLoop end_ protection l start = true ↔ Allows l protection start end_ := by
  induction l generalizing lo start with
  | nil =>
    rw [checkLoop, Bool.not_eq_true', decide_eq_false_iff_not]
    refine ⟨fun hlt a ha ha' => absurd (ha.trans_lt ha') hlt, fun hall hlt => ?_⟩
    obtain ⟨x, hx, -⟩ := hall start (Nat.le_refl _) hlt
    exact absurd hx (Option.not_mem_none x)
  | cons e l ih =>
    have hend : start < e.end_ := hhead e rfl
    rw [checkLoop]
    split_ifs with hlt hhole hprot
    · refine iff_of_false (by simp) fun hall => ?_
      obtain ⟨x, hx, -⟩ := hall start (Nat.le_refl _) hlt
      rw [mappingAt_low (h.starts fun e' he' => by obtain rfl := Option.some.inj he'; exact Nat.le_refl _) hhole] at hx
      exact absurd hx (Option.not_mem_none x)
    · refine iff_of_false (by simp) fun hall => ?_
      obtain ⟨x, hx, hxprot⟩ := hall start (Nat.le_refl _) hlt
      rw [mappingAt_cons, if_pos ⟨Nat.not_lt.1 hhole, hend⟩] at hx
      obtain rfl := Option.some.inj hx
      exact hprot hxprot
    · have hrest : ∀ e' ∈ l.head?, e.end_ < e'.end_ := fun e' he' => by
        obtain ⟨hlo, hne, -⟩ := h.2.2.mem (List.mem_of_mem_head? he')
        omega
      refine (ih h.2.2 hrest).trans ⟨?_, ?_⟩
      · intro hall a ha ha'
        by_cases hin : a < e.end_
        · rw [mappingAt_cons, if_pos ⟨(Nat.not_lt.1 hhole).trans ha, hin⟩]
          exact ⟨_, rfl, not_not.1 hprot⟩
        · obtain ⟨x, hx, hxprot⟩ := hall a (Nat.not_lt.1 hin) ha'
          exact ⟨x, by rwa [mappingAt_cons, if_neg fun h => hin h.2], hxprot⟩
      · intro hall a ha ha'
        obtain ⟨x, hx, hxprot⟩ := hall a (hend.le.trans ha) ha'
        rw [mappingAt_cons, if_neg fun h => Nat.not_lt.2 ha h.2] at hx
        exact ⟨x, hx, hxprot⟩
    · exact iff_of_true rfl fun a ha ha' => absurd (ha.trans_lt ha') hlt

/-- In every run, the check says whether `start` is mapped and the whole range allows the access, and changes nothing but the
hint, on which the answer does not depend. -/
theorem checkProtection_iff (h : Good m) (calls : List Call) (start end_ : Nat) (protection : BitVec 32) :
    (((m.run calls).checkProtection start end_ protection).1 = true ↔
      (∃ x, mappingAt (m.run calls).entries start = some x) ∧ Allows (m.run calls).entries protection start end_) ∧
    ∃ hint, ((m.run calls).checkProtection start end_ protection).2 = { m.run calls with hint := hint } := by
  obtain ⟨hgood, -⟩ := run_good h calls
  generalize m.run calls = m at *
  obtain ⟨hs, hint, hm, -⟩ := lookupEntry_spec hgood start
  have ho := hgood.ordered
  rw [← hs.eq] at ho
  obtain ⟨mid, -, hf⟩ := ordered_append.1 ho
  unfold Map.checkProtection
  rw [← hs.eq]
  generalize m.lookupEntry start = r at *
  obtain ⟨p, m'⟩ := r
  dsimp only at *
  refine ⟨?_, hint, hm⟩
  have hbefore : ∀ a, start ≤ a → mappingAt (p.before ++ p.from_) a = mappingAt p.from_ a := fun a ha => by
    rw [mappingAt_append, mappingAt_high hs.before ha, Option.none_or]
  have hallows : Allows (p.before ++ p.from_) protection start end_ ↔ Allows p.from_ protection start end_ :=
    forall_congr' fun a => forall_congr' fun ha => by rw [hbefore a ha]
  rw [hallows, hbefore start (Nat.le_refl _)]
  cases hfound : p.found with
  | true =>
    obtain ⟨e, he, hstart⟩ := hs.found.1 hfound
    have hend := hs.from_ e he
    obtain ⟨l, hl⟩ : ∃ l, p.from_ = e :: l := List.head?_eq_some_iff.1 he
    rw [if_pos rfl, checkLoop_iff hf hs.from_, hl, mappingAt_cons, if_pos ⟨hstart, hend⟩]
    exact ⟨fun h => ⟨⟨_, rfl⟩, h⟩, And.right⟩
  | false =>
    refine iff_of_false (by simp) fun ⟨⟨x, hx⟩, _⟩ => ?_
    rw [mappingAt_low (hf.starts fun e he => ?_) (Nat.lt_succ_self start)] at hx
    · exact absurd hx (Option.some_ne_none x).symm
    · by_contra hlt
      exact Bool.false_ne_true (hfound ▸ hs.found.2 ⟨e, he, by omega⟩)

theorem checkProtection_iff_clipped :
    let m := (mapInit 4096 65536).run [.insert (fun _ _ => true) none 0 8192 16384, .remove 12288 16384]
    ((m.checkProtection 8192 16384 protWrite).1 = true ↔
      (∃ x, mappingAt m.entries 8192 = some x) ∧ Allows m.entries protWrite 8192 16384) ∧
    ∃ hint, (m.checkProtection 8192 16384 protWrite).2 = { m with hint := hint } :=
  checkProtection_iff (mapInit_good (by decide)) _ 8192 16384 protWrite

end NetBSD.Vm
