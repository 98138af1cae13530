import NetBSD.Vm.Wire

/-!
# Wiring is all or nothing

When `vm_map_pageable` fails, no count has changed, and the pages that it wired are unwired.
-/

namespace NetBSD.Vm

variable {m : Map} {l before mid done late rest : List Entry} {p : Place} {e : Entry} {object : Entry → Nat}
  {fault : List FaultCall → Nat → Nat → KernReturn} {calls : List FaultCall} {start end_ fresh k a : Nat}

/-- The list behind the first pass, but for the counts: the entries `mid` begin at `start`. -/
structure Seated (m : Map) (start end_ : Nat) (before mid rest : List Entry) (k : Nat) : Prop where
  reshape : Reshape m.fresh k m.entries (before ++ (mid ++ rest))
  rebacked : Rebacked m.entries (before ++ (mid ++ rest))
  low : ∀ e ∈ before, e.end_ ≤ start
  starts : ∀ e ∈ mid ++ rest, start ≤ e.start
  ends : ∀ e ∈ mid, e.end_ ≤ end_

theorem wirePass_seated (object : Entry → Nat) (h : Good m) (hs : Splits start m.entries p) (hfound : p.found = true) (hlt : start < end_) :
    let r := wirePass object start end_ m.fresh p.before p.from_
    ∃ before mid rest k, r.2.2 = m.fresh + k ∧ Seated m start end_ before mid rest k ∧
      (r.1 = false → r.2.1 = before ++ (mid ++ rest)) ∧
      (r.1 = true → r.2.1 = before ++ (mid.map Entry.wire ++ rest) ∧ (∀ e ∈ rest, end_ ≤ e.start) ∧
        (∀ a, start ≤ a ∧ a < end_ → mappingAt mid a ≠ none) ∧
        ∃ e ∈ p.from_.head?, ∃ e' ∈ mid.head?, e'.addr = e.addr) := by
  obtain ⟨e, he, hle⟩ := hs.found.1 hfound
  have hend := hs.from_ e he
  have heq := hs.eq
  obtain ⟨found, before, from_⟩ := p
  match from_ with
  | e' :: l =>
  obtain rfl : e' = e := Option.some.inj he
  dsimp only at heq ⊢
  obtain ⟨front, e₁, k₁, hreshape, hrebacked, hfront, haddr, hstart, hend₁, hfirst⟩ :=
    wirePass_first object m.fresh hle hend hlt before l
  have hclipped := hreshape.append before l
  have hclipped' := (Related.of_eq Backed.refl (l := before) fun _ => rfl).append (hrebacked.append (.of_eq Backed.refl (l := l) fun _ => rfl))
  simp only [List.append_assoc, List.cons_append, List.nil_append] at hclipped hclipped'
  rw [heq] at hclipped hclipped'
  obtain ⟨lo, -, ho⟩ := ordered_append.1 (hclipped.ordered _ _ h.ordered)
  obtain ⟨lo', -, hseat⟩ := ordered_append.1 ho
  have hbefore : ∀ x ∈ before ++ front, x.end_ ≤ start := by
    intro x hx
    rcases List.mem_append.1 hx with hx | hx
    · exact hs.before x hx
    · exact hfront x hx
  have hseat' : Ordered start m.maxOffset (e₁ :: l) := ⟨hstart.ge, hseat.2⟩
  have hpass := wirePass_spec object [] end_ (m.fresh + k₁) hseat' (le_refl start)
    (fun _ => ⟨e₁, rfl, hstart⟩) hbefore fun _ hx => absurd hx List.not_mem_nil
  simp only [List.map_nil, List.append_nil, List.nil_append] at hpass
  rw [hfirst]
  obtain ⟨mid, rest, k₂, hk, hpassed, hfail, hok⟩ := hpass
  have hmid := hpassed.reshape.append (before ++ front) []
  rw [List.append_nil, List.append_nil, List.append_assoc] at hmid
  refine ⟨before ++ front, mid, rest, k₁ + k₂, hk.trans (Nat.add_assoc ..), ⟨hclipped.trans hmid, ?_, hbefore, fun x hx => ?_,
    hpassed.ends⟩, hfail, fun hr => ?_⟩
  · exact hclipped'.trans (fun _ _ _ => Backed.trans) ((List.append_assoc before front (e₁ :: l)) ▸
      (Related.of_eq Backed.refl (l := before ++ front) fun _ => rfl).append hpassed.rebacked)
  · exact ((hpassed.reshape.ordered _ _ hseat').mem hx).1
  · obtain ⟨hentries, hhigh, hcover⟩ := hok hr
    refine ⟨hentries.trans (List.append_assoc ..), hhigh, hcover, e', rfl, ?_⟩
    obtain ⟨x, hx, haddr'⟩ := hpassed.head e₁ rfl (hstart.trans_lt hlt)
    exact ⟨x, hx, haddr'.trans haddr⟩

theorem split_at (hl : m.entries = before ++ e :: rest) (hnodup : (addrs m.entries).Nodup) :
    m.split (some e.addr) = (before, e :: rest) := by
  rw [hl, addrs_append] at hnodup
  have hbefore : ∀ x ∈ before, decide (x.addr ≠ e.addr) = true := fun x hx =>
    decide_eq_true fun heq => (List.nodup_append.1 hnodup).2.2 x.addr (List.mem_map_of_mem hx) e.addr List.mem_cons_self heq
  rw [Map.split, hl, List.span_eq_takeWhile_dropWhile, List.takeWhile_append_of_pos hbefore,
    List.dropWhile_append_of_pos hbefore, List.takeWhile_cons, List.dropWhile_cons, decide_eq_false fun h => h rfl]
  exact congrArg (·, e :: rest) (List.append_nil before)

def Mapping.wire (x : Mapping) : Mapping := { x with wiredCount := x.wiredCount + 1 }

theorem wire_attributes : Attributes Entry.wire Mapping.wire := ⟨fun _ => rfl, fun _ => rfl, fun _ => rfl, fun _ _ => rfl⟩

theorem reshape_wire (before mid rest : List Entry) (fresh : Nat) :
    Reshape fresh 0 (before ++ (mid ++ rest)) (before ++ (mid.map Entry.wire ++ rest)) := by
  have hmid : Reshape fresh 0 mid (mid.map Entry.wire) := by
    refine ⟨fun _ _ ho => ho.map wire_attributes, wire_attributes.total_eq mid, ?_, fun e' he' => ?_⟩
    · exact .of_eq (wire_attributes.addrs_eq mid)
    · obtain ⟨e, he, rfl⟩ := List.mem_map.1 he'
      exact ⟨e, he, rfl, rfl⟩
  have := hmid.append before rest
  rw [List.append_assoc, List.append_assoc] at this
  exact this

theorem wire_mapping (l : List Entry) (a : Nat) : mappingAt (l.map Entry.wire) a = (mappingAt l a).map Mapping.wire :=
  mappingAt_map wire_attributes.start wire_attributes.end_ wire_attributes.mapping

def Mapping.rewire (newPageable : Bool) (x : Mapping) : Mapping := if newPageable then x.unwire else x.wire

/-- Success adds one to all counts of the range, or takes one from them, and pages are wired from no count on and unwired down
to none; failure leaves all counts, and unwires what was wired. -/
structure AllOrNothing (m : Map) (start end_ : Nat) (newPageable : Bool) (r : KernReturn × Map × List FaultCall) : Prop where
  good : Good r.2.1
  inside : r.1 = .success → ∀ a, start ≤ a ∧ a < end_ → ∃ x ∈ mappingAt m.entries a, (newPageable = true → 0 < x.wiredCount) ∧
    ∃ y, Backed x y ∧ mappingAt r.2.1.entries a = some (y.rewire newPageable)
  outside : ∀ a, r.1 = .success ∧ start ≤ a ∧ a < end_ ∨
    Option.Rel Backed (mappingAt m.entries a) (mappingAt r.2.1.entries a)
  wired : r.1 = .success → ∀ a, wires r.2.2 a =
    if newPageable = false ∧ (start ≤ a ∧ a < end_) ∧ ∃ x ∈ mappingAt m.entries a, x.wiredCount = 0 then 1 else 0
  unwired : r.1 = .success → ∀ a, unwires r.2.2 a =
    if newPageable = true ∧ (start ≤ a ∧ a < end_) ∧ ∃ x ∈ mappingAt m.entries a, x.wiredCount = 1 then 1 else 0
  undone : r.1 ≠ .success → ∀ a, unwires r.2.2 a = wires r.2.2 a ∧ wires r.2.2 a ≤ 1

theorem unwire_allOrNothing (h : Good m) (hlow : m.minOffset ≤ start) (hlt : start < end_) (hhigh : end_ ≤ m.maxOffset) :
    AllOrNothing m start end_ true (m.unwire start end_) := by
  have hu := unwire_spec h hlow hlt.le hhigh
  refine ⟨hu.good, fun hok a ha => ?_, fun a => ?_, fun hok a => ?_, fun hok a => ?_, fun hfail a => ?_⟩
  · obtain ⟨x, hx, hpos⟩ := hu.wired hok a ha
    refine ⟨x, hx, fun _ => hpos, x, .inl rfl, ?_⟩
    rw [hu.mapping, if_pos ⟨hok, ha⟩, Option.mem_def.1 hx]
    rfl
  · by_cases hin : (m.unwire start end_).1 = .success ∧ start ≤ a ∧ a < end_
    · exact .inl hin
    · rw [hu.mapping, if_neg hin]
      exact .inr (option_rel_refl Backed.refl _)
  · rw [hu.wires, if_neg fun h => Bool.noConfusion h.1]
  · rw [hu.unwires]
    by_cases hin : start ≤ a ∧ a < end_
    · obtain ⟨x, hx, hpos⟩ := hu.wired hok a hin
      have hone : x.wiredCount ≤ 1 ↔ x.wiredCount = 1 := by omega
      simp [hok, hin, Option.mem_def.1 hx, hone]
    · rw [if_neg fun h => hin h.2.1, if_neg fun h => hin h.2.1]
  · rw [hu.unwires, hu.wires, if_neg fun h => hfail h.1]
    exact ⟨rfl, Nat.zero_le 1⟩

theorem Seated.wired (hs : Seated m start end_ before mid rest k) (hrest : ∀ e ∈ rest, end_ ≤ e.start) (a : Nat) :
    mappingAt (before ++ (mid.map Entry.wire ++ rest)) a = if start ≤ a ∧ a < end_ then (mappingAt mid a).map Mapping.wire
      else mappingAt (before ++ (mid ++ rest)) a := by
  have hstarts : ∀ e ∈ mid, start ≤ e.start := fun e he => hs.starts e (List.mem_append_left _ he)
  have hstarts' : ∀ e ∈ mid.map Entry.wire, start ≤ e.start := by
    intro e he
    obtain ⟨e', he', rfl⟩ := List.mem_map.1 he
    exact hstarts e' he'
  have hends' : ∀ e ∈ mid.map Entry.wire, e.end_ ≤ end_ := by
    intro e he
    obtain ⟨e', he', rfl⟩ := List.mem_map.1 he
    exact hs.ends e' he'
  rw [mappingAt_window hs.low hstarts' hends' hrest, mappingAt_window hs.low hstarts hs.ends hrest, wire_mapping]
  split
  · rfl
  · rfl

theorem Seated.inside (hs : Seated m start end_ before mid rest k) (hrest : ∀ e ∈ rest, end_ ≤ e.start)
    (ha : start ≤ a ∧ a < end_) : mappingAt (before ++ (mid ++ rest)) a = mappingAt mid a := by
  rw [mappingAt_window hs.low (fun e he => hs.starts e (List.mem_append_left _ he)) hs.ends hrest, if_pos ha]

theorem Seated.beyond (hs : Seated m start end_ before mid rest k) (ha : ¬ (start ≤ a ∧ a < end_)) : mappingAt mid a = none := by
  rcases Nat.lt_or_ge a start with hlt | hge
  · exact mappingAt_low (fun e he => hs.starts e (List.mem_append_left _ he)) hlt
  · exact mappingAt_high hs.ends (by omega)

theorem Seated.shorten {lo hi : Nat} (hs : Seated m start end_ before (done ++ late) rest k) (ho : Ordered lo hi (done ++ late))
    (hrest : ∀ e ∈ rest, end_ ≤ e.start) (hlate : late.head? = some e) (hle : e.start ≤ end_) :
    Seated m start e.start before done (late ++ rest) k ∧ ∀ x ∈ late ++ rest, e.start ≤ x.start := by
  obtain ⟨mid, hdone, hl⟩ := ordered_append.1 ho
  have hmid : mid ≤ e.start := (hl.mem (List.mem_of_mem_head? hlate)).1
  have hstarts : ∀ x ∈ late, e.start ≤ x.start := hl.starts fun x hx => by
    rw [hlate] at hx
    exact Option.some.inj hx ▸ le_refl _
  have hassoc : before ++ (done ++ late ++ rest) = before ++ (done ++ (late ++ rest)) := by rw [List.append_assoc]
  refine ⟨⟨hassoc ▸ hs.reshape, hassoc ▸ hs.rebacked, hs.low, fun x hx => hs.starts x ?_, fun x hx => ?_⟩, fun x hx => ?_⟩
  · rwa [List.append_assoc]
  · exact (hdone.mem hx).2.2.trans hmid
  · rcases List.mem_append.1 hx with hx | hx
    · exact hstarts x hx
    · exact hle.trans (hrest x hx)

theorem Seated.count (hs : Seated m start end_ before mid rest k) (hrest : ∀ e ∈ rest, end_ ≤ e.start) (a : Nat) :
    (∃ x ∈ mappingAt mid a, x.wiredCount = 0) ↔ (start ≤ a ∧ a < end_) ∧ ∃ x ∈ mappingAt m.entries a, x.wiredCount = 0 := by
  by_cases ha : start ≤ a ∧ a < end_
  · have hrel := hs.rebacked a
    rw [hs.inside hrest ha] at hrel
    generalize mappingAt m.entries a = x at hrel
    generalize mappingAt mid a = y at hrel
    cases hrel with
    | none => simp
    | some hxy => simp [ha, hxy.wiredCount]
  · rw [hs.beyond ha]
    simp [ha]

theorem Seated.undone {m₂ : Map} (hs : Seated m start end_ before mid rest k) (hrest : ∀ e ∈ rest, end_ ≤ e.start)
    (h₂ : Good m₂) (hentries : m₂.entries = before ++ (mid.map Entry.wire ++ rest)) (hlow : m₂.minOffset ≤ start)
    (hle : start ≤ end_) (hhigh : end_ ≤ m₂.maxOffset) (hcover : ∀ a, start ≤ a ∧ a < end_ → mappingAt mid a ≠ none)
    (hstart : mappingAt (before ++ (mid ++ rest)) start ≠ none) :
    Good (m₂.unwire start end_).2.1 ∧
      (∀ a, mappingAt (m₂.unwire start end_).2.1.entries a = mappingAt (before ++ (mid ++ rest)) a) ∧
      ∀ a, wires (m₂.unwire start end_).2.2 a = 0 ∧
        unwires (m₂.unwire start end_).2.2 a = if ∃ x ∈ mappingAt mid a, x.wiredCount = 0 then 1 else 0 := by
  have hu := unwire_spec h₂ hlow hle hhigh
  have hmapped : ∀ a, mappingAt m₂.entries a = if start ≤ a ∧ a < end_ then (mappingAt mid a).map Mapping.wire
      else mappingAt (before ++ (mid ++ rest)) a := fun a => hentries ▸ hs.wired hrest a
  have hone : ∀ a, start ≤ a ∧ a < end_ → ∃ x, mappingAt mid a = some x ∧ mappingAt m₂.entries a = some x.wire := by
    intro a ha
    obtain ⟨x, hx⟩ := Option.ne_none_iff_exists'.1 (hcover a ha)
    exact ⟨x, hx, by rw [hmapped, if_pos ha, hx]; rfl⟩
  have hok : (m₂.unwire start end_).1 = .success := by
    refine hu.succeeds ?_ fun a ha => ?_
    · by_cases hin : start ≤ start ∧ start < end_
      · obtain ⟨x, -, hx⟩ := hone start hin
        rw [hx]
        exact Option.some_ne_none _
      · rw [hmapped, if_neg hin]
        exact hstart
    · obtain ⟨x, -, hx⟩ := hone a ha
      exact ⟨_, hx, Nat.succ_pos _⟩
  refine ⟨hu.good, fun a => ?_, fun a => ⟨hu.wires a, ?_⟩⟩
  · rw [hu.mapping]
    by_cases ha : start ≤ a ∧ a < end_
    · obtain ⟨x, hx, hx'⟩ := hone a ha
      rw [if_pos ⟨hok, ha⟩, hx', hs.inside hrest ha, hx]
      rfl
    · rw [if_neg fun h => ha h.2, hmapped, if_neg ha]
  · rw [hu.unwires]
    by_cases ha : start ≤ a ∧ a < end_
    · obtain ⟨x, hx, hx'⟩ := hone a ha
      simp [hok, ha, hx, hx', Mapping.wire]
    · rw [hs.beyond ha, if_neg fun h => ha h.2.1, if_neg nofun]

theorem wire_allOrNothing (h : Good m) (hlow : m.minOffset ≤ start) (hlt : start < end_) (hhigh : end_ ≤ m.maxOffset) :
    AllOrNothing m start end_ false (m.wire object fault start end_) := by
  obtain ⟨hs, hint, hm', hlive, -⟩ := lookupEntry_spec h start
  have hpass := fun hfound => wirePass_seated object h hs hfound hlt
  unfold Map.wire
  rw [rangeCheck_eq hlow hlt.le hhigh]
  dsimp only
  generalize m.lookupEntry start = r at *
  obtain ⟨p, m'⟩ := r
  obtain rfl : m' = { m with hint := hint } := hm'
  have hgood := h.setHint hlive
  dsimp only at hs hpass ⊢
  by_cases hfound : p.found = false
  · rw [if_pos hfound]
    exact ⟨hgood, nofun, fun a => .inr (option_rel_refl Backed.refl _), nofun, nofun, fun _ a => ⟨rfl, Nat.zero_le 1⟩⟩
  rw [if_neg hfound]
  obtain ⟨before, mid, rest, k, hk, hseated, hfail, hok⟩ := hpass (Bool.eq_true_of_not_eq_false hfound)
  generalize wirePass object start end_ m.fresh p.before p.from_ = r at *
  obtain ⟨ok, entries, fresh⟩ := r
  obtain rfl : fresh = m.fresh + k := hk
  rw [Nat.add_sub_cancel_left]
  have hgood₀ := hgood.recut hseated.reshape
  dsimp only at hfail hok hgood₀ ⊢
  by_cases hpassed : ok = false
  · rw [if_pos hpassed, hfail hpassed]
    exact ⟨hgood₀, nofun, fun a => .inr (hseated.rebacked a), nofun, nofun, fun _ a => ⟨rfl, Nat.zero_le 1⟩⟩
  rw [if_neg hpassed]
  obtain ⟨rfl, hrest, hcover, e, he, e', he', haddr⟩ := hok (Bool.eq_true_of_not_eq_false hpassed)
  have hgood₁ := hgood₀.recut (reshape_wire before mid rest _)
  dsimp only [Nat.add_zero] at hgood₁
  obtain ⟨lo, -, ho⟩ := ordered_append.1 hgood₀.ordered
  obtain ⟨hi, homid, -⟩ := ordered_append.1 ho
  have hmid : ∀ e ∈ mid, e.start < end_ := fun e he => (homid.mem he).2.1.trans_le (hseated.ends e he)
  -- the second pass begins at the first entry of the range
  have hsplit : Map.split { m with
        entries := before ++ (mid.map Entry.wire ++ rest), nentries := m.nentries + k, hint := hint, fresh := m.fresh + k }
      (p.from_.head?.map Entry.addr) = (before, mid.map Entry.wire ++ rest) := by
    rw [Option.mem_def.1 he]
    match mid with
    | x :: mid' =>
      obtain rfl : x = e' := Option.some.inj he'
      have hsome : Option.map Entry.addr (some e) = some x.wire.addr := congrArg some haddr.symm
      rw [hsome]
      exact split_at rfl hgood₁.nodup
  rw [hsplit]
  have hfault := wireFault_spec fault homid hmid hrest []
  dsimp only at hfault ⊢
  generalize wireFault fault end_ none [] (mid.map Entry.wire ++ rest) = r at hfault
  obtain ⟨entries, failed, calls⟩ := r
  obtain ⟨done, late, calls', rfl, hentries, hcalls, hwires, hunwires, hfailed⟩ := hfault
  obtain rfl : entries = done.map Entry.wire ++ late ++ rest := hentries
  obtain rfl : calls = calls' := hcalls
  cases failed with
  | none =>
    obtain rfl : late = [] := hfailed
    simp only [List.append_nil] at *
    have hwired := hseated.wired hrest
    refine ⟨hgood₁, fun _ a ha => ?_, fun a => ?_, fun _ a => ?_, fun _ a => ?_, fun hne => absurd rfl hne⟩
    · have hrel := hseated.rebacked a
      have hsome := hcover a ha
      dsimp only
      rw [hwired, if_pos ha]
      rw [hseated.inside hrest ha] at hrel
      generalize mappingAt m.entries a = x at hrel
      generalize mappingAt done a = y at hrel hsome
      cases hrel with
      | none => exact absurd rfl hsome
      | some hxy => exact ⟨_, rfl, nofun, _, hxy, rfl⟩
    · by_cases ha : start ≤ a ∧ a < end_
      · exact .inl ⟨rfl, ha⟩
      · dsimp only
        rw [hwired, if_neg ha]
        exact .inr (hseated.rebacked a)
    · dsimp only
      rw [hwires]
      simp only [hseated.count hrest, true_and]
    · dsimp only
      rw [hunwires, if_neg fun h => Bool.noConfusion h.1]
  | some failed =>
    obtain ⟨rv, failed⟩ := failed
    obtain ⟨hrv, e₂, he₂, rfl⟩ := hfailed
    have hmem : e₂ ∈ done ++ late := List.mem_append_right _ (List.mem_of_mem_head? he₂)
    have hle := (hmid e₂ hmem).le
    obtain ⟨hseated', hrest'⟩ := hseated.shorten homid hrest he₂ hle
    have hassoc : before ++ (done ++ late ++ rest) = before ++ (done ++ (late ++ rest)) := by rw [List.append_assoc]
    have hassoc' : before ++ (done.map Entry.wire ++ late ++ rest) = before ++ (done.map Entry.wire ++ (late ++ rest)) := by
      rw [List.append_assoc]
    have hgood₂ := (hassoc ▸ hgood₀).recut (reshape_wire before done (late ++ rest) _)
    have hcover' : ∀ a, start ≤ a ∧ a < e₂.start → mappingAt done a ≠ none := by
      intro a ha hnone
      have hlate : mappingAt late a = none := mappingAt_low (fun x hx => hrest' x (List.mem_append_left _ hx)) ha.2
      refine hcover a ⟨ha.1, ha.2.trans_le hle⟩ ?_
      rw [mappingAt_append, hnone, hlate]
      rfl
    have hstart : mappingAt (before ++ (done ++ (late ++ rest))) start ≠ none := by
      rw [← hassoc, hseated.inside hrest ⟨le_refl _, hlt⟩]
      exact hcover start ⟨le_refl _, hlt⟩
    have hundone := hseated'.undone hrest' hgood₂ rfl hlow (hseated.starts e₂ (List.mem_append_left _ hmem))
      (hle.trans hhigh) hcover' hstart
    rw [hassoc']
    simp only [Nat.add_zero] at hundone
    obtain ⟨hgood₃, hmapping, hcalls⟩ := hundone
    refine ⟨hgood₃, fun hok => absurd hok hrv, fun a => .inr ?_, fun hok => absurd hok hrv, fun hok => absurd hok hrv,
      fun _ a => ?_⟩
    · dsimp only
      rw [hmapping]
      exact hseated'.rebacked a
    · obtain ⟨hwire, hunwire⟩ := hcalls a
      dsimp only
      rw [unwires_append, wires_append, hunwires, hwires, hwire, hunwire, Nat.zero_add, Nat.add_zero]
      refine ⟨rfl, ?_⟩
      split
      · exact le_refl 1
      · exact Nat.zero_le 1

/-- `vm_map_pageable` changes the wiring of all of a range, or of nothing. -/
theorem pageable_allOrNothing (h : Good m) (hlow : m.minOffset ≤ start) (hlt : start < end_) (hhigh : end_ ≤ m.maxOffset)
    (object : Entry → Nat) (fault : List FaultCall → Nat → Nat → KernReturn) (newPageable : Bool) :
    AllOrNothing m start end_ newPageable (m.pageable object fault start end_ newPageable) := by
  cases newPageable with
  | false => exact wire_allOrNothing h hlow hlt hhigh
  | true => exact unwire_allOrNothing h hlow hlt hhigh

def halfWirable : Map := (mapInit 4096 65536).run
  [.insert (fun _ _ => false) (some 1) 0 4096 8192, .insert (fun _ _ => false) (some 2) 0 8192 12288]

theorem pageable_allOrNothing_failed :
    let fault : List FaultCall → Nat → Nat → KernReturn := fun _ start _ => if start = 8192 then .failure else .success
    let r := halfWirable.pageable Entry.addr fault 4096 12288 false
    r.2.2 = [.wire 4096 8192 .success, .wire 8192 12288 .failure, .unwire 4096 8192] ∧
      AllOrNothing halfWirable 4096 12288 false r := by
  have hgood : Good halfWirable := (run_good (mapInit_good (by decide)) _).1
  exact ⟨by decide, pageable_allOrNothing hgood (by decide) (by decide) (by decide) Entry.addr _ false⟩

end NetBSD.Vm
