import NetBSD.Vm.Pageable

/-!
# Wiring

The first pass adds one to the counts of the range, and takes it back at a hole; the second one wires the pages that no count
had, and where that fails the counts behind are restored at once, and those before by unwiring.
-/

namespace NetBSD.Vm

variable {m : Map} {l l' before mid late rest : List Entry} {e e' : Entry} {object : Entry → Nat} {calls : List FaultCall}
  {lo hi start end_ fresh k a : Nat} {fault : List FaultCall → Nat → Nat → KernReturn}

def Backed (x y : Mapping) : Prop :=
  y = x ∨ x.wiredCount = 0 ∧ (x.needsCopy ∨ x.object = none) ∧
    ∃ object offset needsCopy, y = { x with object := some object, offset := offset, needsCopy := needsCopy }

theorem Backed.wiredCount {x y : Mapping} (h : Backed x y) : y.wiredCount = x.wiredCount := by
  rcases h with rfl | ⟨-, -, _, _, _, rfl⟩
  · rfl
  · rfl

theorem Backed.trans {x y z : Mapping} (h : Backed x y) (h' : Backed y z) : Backed x z := by
  rcases h with rfl | ⟨hcount, hbare, object, offset, needsCopy, rfl⟩
  · exact h'
  · rcases h' with rfl | ⟨-, -, object', offset', needsCopy', rfl⟩
    · exact .inr ⟨hcount, hbare, object, offset, needsCopy, rfl⟩
    · exact .inr ⟨hcount, hbare, object', offset', needsCopy', rfl⟩

abbrev Rebacked (l l' : List Entry) : Prop := Related Backed l l'

theorem Backed.refl (x : Mapping) : Backed x x := .inl rfl

theorem backing_same (object : Entry → Nat) (e : Entry) : SamePlace e (e.backing object) := by
  unfold Entry.backing
  split_ifs
  · exact ⟨rfl, rfl, rfl, rfl, rfl⟩
  · exact ⟨rfl, rfl, rfl, rfl, rfl⟩
  · exact ⟨rfl, rfl, rfl, rfl, rfl⟩
  · exact ⟨rfl, rfl, rfl, rfl, rfl⟩

theorem backing_backed (e : Entry) (a : Nat) : Backed (e.mapping a) ((e.backing object).mapping a) := by
  unfold Entry.backing
  split_ifs with h1 h2 h3
  · exact .inr ⟨h1.1, .inl h2.1, object e, _, false, rfl⟩
  · exact .inr ⟨h1.1, .inr h3, object e, _, e.needsCopy, rfl⟩
  · exact .inl rfl
  · exact .inl rfl

theorem backing_rebacked (e : Entry) : Rebacked [e] [e.backing object] :=
  .one (backing_same object e).start (backing_same object e).end_ (backing_backed e)

theorem backing_again (hcount : e'.wiredCount = (e.backing object).wiredCount) (hmap : e'.isAMap = (e.backing object).isAMap)
    (hcopy : e'.needsCopy = (e.backing object).needsCopy) (hprot : e'.protection = (e.backing object).protection)
    (hobject : e'.object = (e.backing object).object) : e'.backing object = e' := by
  unfold Entry.backing at *
  split_ifs at * with h1 h2 h3 h4 h5 h6
  all_goals simp_all

theorem wireUndo_eq (hbefore : ∀ e ∈ before, e.end_ ≤ start) (hmid : ∀ e ∈ mid, start < e.end_) :
    wireUndo start (before ++ mid.map Entry.wire) = before ++ mid := by
  have hback : ∀ e ∈ (mid.map Entry.wire).reverse, decide (start < e.end_) = true := by
    intro e he
    obtain ⟨e', he', rfl⟩ := List.mem_map.1 (List.mem_reverse.1 he)
    exact decide_eq_true (hmid e' he')
  have hfront : (before.reverse.takeWhile fun e => start < e.end_) = [] ∧
      (before.reverse.dropWhile fun e => start < e.end_) = before.reverse := by
    cases hrev : before.reverse with
    | nil => exact ⟨rfl, rfl⟩
    | cons e l =>
      have hmem : e ∈ before := List.mem_reverse.1 (hrev ▸ List.mem_cons_self)
      have hneg := decide_eq_false (Nat.not_lt.2 (hbefore e hmem))
      exact ⟨by rw [List.takeWhile_cons, hneg]; rfl, by rw [List.dropWhile_cons, hneg]; rfl⟩
  rw [wireUndo, List.reverse_append, List.span_eq_takeWhile_dropWhile, List.takeWhile_append_of_pos hback,
    List.dropWhile_append_of_pos hback, hfront.1, hfront.2]
  dsimp only
  rw [List.reverse_reverse, List.append_nil, List.map_reverse, List.reverse_reverse, List.map_map]
  exact congrArg (before ++ ·) (List.map_id' mid)

structure Passed (start end_ fresh : Nat) (l l' rest : List Entry) (k : Nat) : Prop where
  reshape : Reshape fresh k l (l' ++ rest)
  rebacked : Rebacked l (l' ++ rest)
  ends : ∀ e ∈ l', e.end_ ≤ end_
  head : ∀ e ∈ l.head?, e.start < end_ → ∃ e' ∈ l'.head?, e'.addr = e.addr

theorem wirePass_spec (object : Entry → Nat) (mid : List Entry) (end_ fresh : Nat) {pos : Nat} (ho : Ordered pos hi l) (hstart : start ≤ pos)
    (hhead : pos < end_ → ∃ e ∈ l.head?, e.start = pos) (hbefore : ∀ e ∈ before, e.end_ ≤ start)
    (hmid : ∀ e ∈ mid, start < e.end_) :
    let r := wirePass object start end_ fresh (before ++ mid.map Entry.wire) l
    ∃ l' rest k, r.2.2 = fresh + k ∧ Passed start end_ fresh l l' rest k ∧
      (r.1 = false → r.2.1 = before ++ mid ++ (l' ++ rest)) ∧
      (r.1 = true → r.2.1 = before ++ (mid ++ l').map Entry.wire ++ rest ∧ (∀ e ∈ rest, end_ ≤ e.start) ∧
        ∀ a, pos ≤ a ∧ a < end_ → mappingAt l' a ≠ none) := by
  induction l generalizing mid pos fresh with
  | nil =>
    refine ⟨[], [], 0, rfl, ⟨.refl _, fun a => .none, fun _ he => absurd he List.not_mem_nil, fun _ hx => absurd hx (Option.not_mem_none _)⟩, fun hr => absurd hr.symm Bool.false_ne_true, fun _ =>
      ⟨?_, fun _ he => absurd he List.not_mem_nil, fun a ha => (hhead (ha.1.trans_lt ha.2)).elim fun _ he => absurd he.1 (Option.not_mem_none _)⟩⟩
    rw [List.append_nil, List.append_nil]
    rfl
  | cons e l ih =>
    by_cases hlt : e.start < end_
    swap
    · unfold wirePass
      rw [if_neg hlt]
      refine ⟨[], e :: l, 0, rfl, ⟨.refl _, fun a => option_rel_refl Backed.refl _, fun _ he => absurd he List.not_mem_nil,
        fun e' he' hlt' => absurd (Option.some.inj he' ▸ hlt') hlt⟩, fun hr => absurd hr.symm Bool.false_ne_true, fun _ => ⟨by rw [List.append_nil], ho.starts fun e' he' => Option.some.inj he' ▸ Nat.le_of_not_lt hlt, fun a ha => ?_⟩⟩
      obtain ⟨e', he', heq⟩ := hhead (ha.1.trans_lt ha.2)
      obtain rfl : e = e' := Option.some.inj he'
      omega
    obtain ⟨e', he', heq⟩ := hhead (ho.1.trans_lt hlt)
    obtain rfl : e = e' := Option.some.inj he'
    subst heq
    have hsame := backing_same object e
    have hreshape := hsame.reshape fresh
    have hclip := clipEnd_spec fresh (hsame.start.trans_lt hlt)
    have hfront : (e.backing object).clipStart start fresh = (none, e.backing object) := by
      rw [Entry.clipStart, hsame.start, if_neg (Nat.not_lt.2 hstart)]
    unfold wirePass
    rw [if_pos hlt, hfront]
    dsimp only [Option.toList, List.length_nil, Nat.add_zero]
    rw [List.append_nil]
    generalize (e.backing object).clipEnd end_ fresh = c at hclip
    obtain ⟨e₁, new⟩ := c
    cases new with
    | some new =>
      obtain ⟨hrecut, haddr, hstart₁, hend₁, -, hnew, hnewEnd⟩ := hclip
      have hreshape' : Reshape fresh 1 (e :: l) ([e₁] ++ new :: l) := (hreshape.trans hrecut.toReshape).append [] l
      have hrebacked : Rebacked (e :: l) ([e₁] ++ new :: l) :=
        ((backing_rebacked e).congr hrecut.mapping).append (.of_eq Backed.refl fun _ => rfl)
      refine ⟨[e₁], new :: l, 1, rfl, ⟨hreshape', hrebacked, fun x hx => ?_, fun x hx _ => ⟨e₁, rfl, ?_⟩⟩, fun hr => absurd hr.symm Bool.false_ne_true, fun _ =>
        ⟨?_, ?_, fun a ha => ?_⟩⟩
      · rw [List.mem_singleton.1 hx, hend₁]
      · exact (haddr.trans hsame.addr).trans (congrArg Entry.addr (Option.some.inj hx))
      · simp only [List.map_append, List.map_cons, List.map_nil, List.append_assoc, List.cons_append, List.nil_append]
      · exact (hreshape'.ordered _ _ ho).2.2.starts fun x hx => Option.some.inj hx ▸ hnew.ge
      · rw [mappingAt_cons, hstart₁, hsame.start, hend₁, if_pos ha]
        exact Option.some_ne_none _
    | none =>
      obtain ⟨rfl, hle⟩ := hclip
      have hmid' : ∀ x ∈ mid ++ [e.backing object], start < x.end_ := by
        intro x hx
        rcases List.mem_append.1 hx with hx | hx
        · exact hmid x hx
        · rw [List.mem_singleton.1 hx, hsame.end_]
          exact hstart.trans_lt ho.2.1
      have hvisited : before ++ mid.map Entry.wire ++ [(e.backing object).wire] =
          before ++ (mid ++ [e.backing object]).map Entry.wire := by
        rw [List.map_append, List.append_assoc]
        rfl
      dsimp only
      rw [hvisited]
      by_cases hhole : (e.backing object).hole end_ l = true
      · rw [if_pos hhole, wireUndo_eq hbefore hmid']
        refine ⟨[e.backing object], l, 0, rfl, ⟨hreshape.append [] l, (backing_rebacked e).append (.of_eq Backed.refl fun _ => rfl),
          fun x hx => ?_, fun x hx _ => ⟨_, rfl, ?_⟩⟩, fun _ => ?_, fun hr => absurd hr Bool.false_ne_true⟩
        · rw [List.mem_singleton.1 hx]
          exact hle
        · exact hsame.addr.trans (congrArg Entry.addr (Option.some.inj hx))
        · simp only [List.append_assoc]
      rw [if_neg hhole]
      have hhead' : e.end_ < end_ → ∃ e' ∈ l.head?, e'.start = e.end_ := by
        intro hend
        by_contra hnone
        refine hhole (hole_iff.2 ⟨hsame.end_.trans_lt hend, fun next hnext => ?_⟩)
        have := (ho.2.2.mem (List.mem_of_mem_head? hnext)).1
        exact hsame.end_.trans_lt (lt_of_le_of_ne this fun heq => hnone ⟨next, hnext, heq.symm⟩)
      obtain ⟨l', rest, k, hk, hpassed, hfail, hok⟩ := ih _ _ ho.2.2 (hstart.trans ho.2.1.le) hhead' hmid'
      have hfirst : Reshape fresh 0 (e :: l) ([e.backing object] ++ l) := hreshape.append [] l
      have hrest : Reshape fresh k ([e.backing object] ++ l ++ []) ([e.backing object] ++ (l' ++ rest) ++ []) :=
        hpassed.reshape.append _ _
      rw [List.append_nil, List.append_nil] at hrest
      refine ⟨e.backing object :: l', rest, k, hk, ⟨?_, (backing_rebacked e).append hpassed.rebacked, fun x hx => ?_,
        fun x hx _ => ⟨_, rfl, ?_⟩⟩, fun hr => ?_, fun hr => ?_⟩
      · have := hfirst.trans hrest
        rw [Nat.zero_add] at this
        exact this
      · rcases List.mem_cons.1 hx with rfl | hx
        · exact hle
        · exact hpassed.ends x hx
      · exact hsame.addr.trans (congrArg Entry.addr (Option.some.inj hx))
      · rw [hfail hr]
        simp only [List.append_assoc, List.cons_append, List.nil_append]
      · obtain ⟨heq, hhigh, hcover⟩ := hok hr
        refine ⟨?_, hhigh, fun a ha => ?_⟩
        · rw [heq]
          simp only [List.append_assoc, List.cons_append, List.nil_append]
        · rw [mappingAt_cons, hsame.start, hsame.end_]
          split
          · exact Option.some_ne_none _
          · exact hcover a (by omega)

def wireRest (object : Entry → Nat) (start end_ fresh : Nat) (before l : List Entry) : Entry × Option Entry → Bool × List Entry × Nat
  | (entry, some new) => (true, before ++ entry.wire :: new :: l, fresh + 1)
  | (entry, none) =>
    if entry.hole end_ l then (false, wireUndo start (before ++ [entry.wire]) ++ l, fresh)
    else wirePass object start end_ fresh (before ++ [entry.wire]) l

theorem wirePass_cons (object : Entry → Nat) (fresh : Nat) (hlt : e.start < end_) (before l : List Entry) :
    wirePass object start end_ fresh before (e :: l) =
      let c := (e.backing object).clipStart start fresh
      wireRest object start end_ (fresh + c.1.toList.length) (before ++ c.1.toList) l
        (c.2.clipEnd end_ (fresh + c.1.toList.length)) := by
  rewrite [wirePass, if_pos hlt]
  rfl

theorem wirePass_first (object : Entry → Nat) (fresh : Nat) (hle : e.start ≤ start) (hlt : start < e.end_) (hlt' : start < end_) (before l : List Entry) :
    ∃ front e₁ k, Reshape fresh k [e] (front ++ [e₁]) ∧ Rebacked [e] (front ++ [e₁]) ∧ (∀ x ∈ front, x.end_ ≤ start) ∧
      e₁.addr = e.addr ∧ e₁.start = start ∧ e₁.end_ = e.end_ ∧
      wirePass object start end_ fresh before (e :: l) = wirePass object start end_ (fresh + k) (before ++ front) (e₁ :: l) := by
  have hsame := backing_same object e
  have hreshape := hsame.reshape fresh
  have hclip := clipStart_spec fresh (hlt.trans_eq hsame.end_.symm)
  have hend : e.start < end_ := hle.trans_lt hlt'
  -- what is left of the entry has its object, and begins at `start`
  have hagain : ∀ e₁ : Entry, e₁.backing object = e₁ → e₁.start = start → ∀ before fresh,
      wirePass object start end_ fresh before (e₁ :: l) =
        wireRest object start end_ fresh before l (e₁.clipEnd end_ fresh) := by
    intro e₁ hback hstart before fresh
    have hfront : e₁.clipStart start fresh = (none, e₁) := by
      rw [Entry.clipStart, hstart, if_neg (lt_irrefl _)]
    rw [wirePass_cons object fresh (hstart.trans_lt hlt'), hback, hfront]
    dsimp only [Option.toList, List.length_nil, Nat.add_zero]
    rw [List.append_nil]
  rw [wirePass_cons object fresh hend]
  have hparts : ((e.backing object).clipStart start fresh).2.backing object = ((e.backing object).clipStart start fresh).2 := by
    unfold Entry.clipStart
    split
    · exact backing_again rfl rfl rfl rfl rfl
    · exact backing_again rfl rfl rfl rfl rfl
  generalize (e.backing object).clipStart start fresh = c at hclip hparts
  obtain ⟨front, e₁⟩ := c
  cases front with
  | none =>
    obtain ⟨rfl, hge⟩ := hclip
    have hstart : (e.backing object).start = start := Nat.le_antisymm (hsame.start.trans_le hle) hge
    refine ⟨[], _, 0, hreshape, backing_rebacked e, fun _ hx => absurd hx List.not_mem_nil, hsame.addr, hstart, hsame.end_, ?_⟩
    rw [hagain _ hparts hstart]
    rfl
  | some new =>
    obtain ⟨hrecut, haddr, hstart, hend₁, -, -, hnew⟩ := hclip
    have hreshape' := hreshape.trans hrecut.toReshape
    rw [Nat.zero_add] at hreshape'
    refine ⟨[new], e₁, 1, hreshape', (backing_rebacked e).congr hrecut.mapping, fun x hx => ?_, haddr.trans hsame.addr, hstart,
      hend₁.trans hsame.end_, ?_⟩
    · rw [List.mem_singleton.1 hx, hnew]
    · rw [hagain _ hparts hstart]
      rfl

theorem wireFault_rest (hrest : ∀ e ∈ rest, end_ ≤ e.start) (failed : Option (KernReturn × Nat)) (calls : List FaultCall) :
    wireFault fault end_ failed calls rest = (rest, failed, calls) := by
  cases rest with
  | nil => rfl
  | cons e rest =>
    unfold wireFault
    rw [if_neg (Nat.not_lt.2 (hrest e List.mem_cons_self))]

theorem wireFault_failed (hmid : ∀ e ∈ mid, e.start < end_) (hrest : ∀ e ∈ rest, end_ ≤ e.start) (r : KernReturn × Nat)
    (calls : List FaultCall) :
    wireFault fault end_ (some r) calls (mid.map Entry.wire ++ rest) = (mid ++ rest, some r, calls) := by
  induction mid with
  | nil => exact wireFault_rest hrest _ _
  | cons e mid ih =>
    have hlt : e.wire.start < end_ := hmid e List.mem_cons_self
    rw [List.map_cons, List.cons_append]
    unfold wireFault
    rw [if_pos hlt]
    dsimp only
    rw [ih fun e' he' => hmid e' (List.mem_cons_of_mem _ he')]
    rfl

theorem wires_one {rv : KernReturn} (a : Nat) : wires [.wire start end_ rv] a =
    if rv = .success ∧ start ≤ a ∧ a < end_ then 1 else 0 := by
  rw [wires, List.countP_singleton]
  simp [and_assoc]

theorem wireFault_spec (fault : List FaultCall → Nat → Nat → KernReturn) (ho : Ordered lo hi mid) (hmid : ∀ e ∈ mid, e.start < end_) (hrest : ∀ e ∈ rest, end_ ≤ e.start)
    (calls : List FaultCall) :
    let r := wireFault fault end_ none calls (mid.map Entry.wire ++ rest)
    ∃ done late calls', mid = done ++ late ∧ r.1 = done.map Entry.wire ++ late ++ rest ∧ r.2.2 = calls ++ calls' ∧
      (∀ a, wires calls' a = if ∃ x ∈ mappingAt done a, x.wiredCount = 0 then 1 else 0) ∧ (∀ a, unwires calls' a = 0) ∧
      match r.2.1 with
      | none => late = []
      | some (rv, failed) => rv ≠ .success ∧ ∃ e ∈ late.head?, e.start = failed := by
  induction mid generalizing lo calls with
  | nil =>
    rw [List.map_nil, List.nil_append, wireFault_rest hrest]
    exact ⟨[], [], [], rfl, rfl, (List.append_nil calls).symm, fun a => rfl, fun a => rfl, rfl⟩
  | cons e mid ih =>
    have hlt : e.wire.start < end_ := hmid e List.mem_cons_self
    have hmid' : ∀ e ∈ mid, e.start < end_ := fun e' he' => hmid e' (List.mem_cons_of_mem _ he')
    have hcount : e.wire.wiredCount = 1 ↔ e.wiredCount = 0 := Nat.add_eq_right
    rw [List.map_cons, List.cons_append]
    unfold wireFault
    rw [if_pos hlt]
    dsimp only
    by_cases hzero : e.wiredCount = 0
    · rw [if_pos (hcount.2 hzero)]
      by_cases hok : fault calls e.wire.start e.wire.end_ = .success
      · rw [if_pos hok, hok]
        dsimp only
        obtain ⟨done, late, calls', rfl, hentries, hcalls, hwires, hunwires, hfailed⟩ :=
          ih ho.2.2 hmid' (calls ++ [.wire e.start e.end_ .success])
        have ho' := ho.sublist ((List.sublist_append_left done late).cons_cons e)
        refine ⟨e :: done, late, [.wire e.start e.end_ .success] ++ calls', rfl, congrArg (e.wire :: ·) hentries,
          hcalls.trans (List.append_assoc ..), fun a => ?_, fun a => ?_, hfailed⟩
        · rw [wires_append, wires_one, hwires, cover_cons ho']
          simp [hzero, Entry.mapping]
        · rw [unwires_append, hunwires]
          rfl
      · rw [if_neg hok]
        dsimp only
        rw [wireFault_failed hmid' hrest]
        refine ⟨[], e :: mid, [_], rfl, rfl, rfl, fun a => ?_, fun a => rfl, hok, e, rfl, rfl⟩
        rw [wires_one, if_neg fun h => hok h.1]
        rfl
    · rw [if_neg (mt hcount.1 hzero)]
      dsimp only
      obtain ⟨done, late, calls', rfl, hentries, hcalls, hwires, hunwires, hfailed⟩ := ih ho.2.2 hmid' calls
      have ho' := ho.sublist ((List.sublist_append_left done late).cons_cons e)
      refine ⟨e :: done, late, calls', rfl, congrArg (e.wire :: ·) hentries, hcalls, fun a => ?_, hunwires, hfailed⟩
      rw [hwires, cover_cons ho']
      simp [hzero, Entry.mapping]

end NetBSD.Vm
