import NetBSD.Vm.Good

/-!
# The entries in a range

A range is cut out of the list with both of its ends clipped, and what happens to its entries happens to its addresses.
-/

namespace NetBSD.Vm

variable {m m' : Map} {p : Place} {start end_ : Nat} {e : Entry}

structure Window (m m' : Map) (start end_ : Nat) (before mid rest : List Entry) (k : Nat) : Prop where
  good : Good { m' with entries := before ++ (mid ++ rest), nentries := m'.nentries + k, fresh := m'.fresh + k }
  low : ∀ e ∈ before, e.end_ ≤ start
  starts : ∀ e ∈ mid, start ≤ e.start
  ends : ∀ e ∈ mid, e.end_ ≤ end_
  high : ∀ e ∈ rest, end_ ≤ e.start
  mapping : ∀ a, mappingAt (before ++ (mid ++ rest)) a = mappingAt m.entries a

theorem Parts.window (end_ : Nat) (h : Parts m m' start p) : let r := deleteLoop end_ m'.fresh p.from_
    Window m m' start end_ p.before r.1 r.2.1 r.2.2 := by
  have ho := h.good.ordered
  rw [← h.eq] at ho
  obtain ⟨mid, -, hf⟩ := ordered_append.1 ho
  have hf' := (hf.higher (le_max_right start _)).raise (le_max_left _ _) h.from_
  obtain ⟨hrecut, hend, hrest⟩ := deleteLoop_spec end_ m'.fresh hf'
  have hstart := hrecut.ordered _ _ hf'
  have hr := hrecut.append p.before []
  rw [List.append_nil, List.append_nil, h.eq] at hr
  exact ⟨h.good.recut hr.toReshape, h.before, fun e he => (hstart.mem (List.mem_append_left _ he)).1, hend, hrest,
    fun a => (hr.mapping a).trans (h.mapping a)⟩

variable {before mid rest : List Entry} {k : Nat}

theorem Window.split (h : Window m m' start end_ before mid rest k) {mid' : List Entry}
    (hstart : ∀ e ∈ mid', start ≤ e.start) (hend : ∀ e ∈ mid', e.end_ ≤ end_) (a : Nat) :
    mappingAt (before ++ (mid' ++ rest)) a = if start ≤ a ∧ a < end_ then mappingAt mid' a else mappingAt m.entries a := by
  rw [mappingAt_window h.low hstart hend h.high]
  split
  · rfl
  · next hout => rw [← h.mapping, mappingAt_window h.low h.starts h.ends h.high, if_neg hout]

theorem Window.outside (h : Window m m' start end_ before mid rest k) (a : Nat) :
    mappingAt (before ++ rest) a = if start ≤ a ∧ a < end_ then none else mappingAt m.entries a :=
  h.split (fun _ he => absurd he List.not_mem_nil) (fun _ he => absurd he List.not_mem_nil) a

theorem Window.inside (h : Window m m' start end_ before mid rest k) {a : Nat} (ha : start ≤ a ∧ a < end_) :
    mappingAt mid a = mappingAt m.entries a := by
  rw [← h.mapping, mappingAt_window h.low h.starts h.ends h.high, if_pos ha]

structure Attributes (change : Entry → Entry) (f : Mapping → Mapping) : Prop where
  addr : ∀ e, (change e).addr = e.addr
  start : ∀ e, (change e).start = e.start
  end_ : ∀ e, (change e).end_ = e.end_
  mapping : ∀ e a, (change e).mapping a = f (e.mapping a)

theorem Ordered.map {change : Entry → Entry} {f : Mapping → Mapping} (hc : Attributes change f) {l : List Entry} {lo hi : Nat}
    (h : Ordered lo hi l) : Ordered lo hi (l.map change) := by
  induction l generalizing lo with
  | nil => exact h
  | cons e l ih =>
    refine ⟨?_, ?_, ?_⟩
    · exact hc.start e ▸ h.1
    · rw [hc.start, hc.end_]
      exact h.2.1
    · exact hc.end_ e ▸ ih h.2.2

theorem Attributes.addrs_eq {change : Entry → Entry} {f : Mapping → Mapping} (hc : Attributes change f) (l : List Entry) :
    addrs (l.map change) = addrs l := by
  rw [addrs, addrs, List.map_map]
  exact List.map_congr_left fun e _ => hc.addr e

theorem Attributes.total_eq {change : Entry → Entry} {f : Mapping → Mapping} (hc : Attributes change f) (l : List Entry) :
    total (l.map change) = total l := by
  rw [total, total, List.map_map]
  congr 1
  refine List.map_congr_left fun e _ => ?_
  rw [Function.comp_apply, Entry.size, Entry.size, hc.start, hc.end_]

theorem Parts.change (h : Parts m m' start p) (end_ : Nat) {change : Entry → Entry} {f : Mapping → Mapping}
    (hc : Attributes change f)
    (hprot : ∀ e ∈ p.from_.takeWhile fun e => e.start < end_, ∀ e' : Entry, e'.protection = e.protection →
      e'.maxProtection = e.maxProtection → (change e').protection &&& (change e').maxProtection = (change e').protection) :
    Good (m'.replace p (changeLoop change end_ m'.fresh p.from_)) ∧
      ∀ a, mappingAt (m'.replace p (changeLoop change end_ m'.fresh p.from_)).entries a =
        if start ≤ a ∧ a < end_ then (mappingAt m.entries a).map f else mappingAt m.entries a := by
  have hw := h.window end_
  have hgone := deleteLoop_gone end_ m'.fresh p.from_
  rw [Map.replace, changeLoop_eq]
  generalize deleteLoop end_ m'.fresh p.from_ = r at hw hgone
  obtain ⟨mid, rest, k⟩ := r
  dsimp only at hw hgone ⊢
  have hg := hw.good
  have haddrs : addrs (p.before ++ (mid.map change ++ rest)) = addrs (p.before ++ (mid ++ rest)) := by
    rw [addrs_append, addrs_append, hc.addrs_eq, addrs_append, addrs_append]
  refine ⟨⟨?_, ?_, ?_, ?_, ?_, ?_, ?_, ?_⟩, ?_⟩
  · obtain ⟨x, hb, hx⟩ := ordered_append.1 hg.ordered
    obtain ⟨y, hm, hy⟩ := ordered_append.1 hx
    exact ordered_append.2 ⟨x, hb, ordered_append.2 ⟨y, hm.map hc, hy⟩⟩
  · exact haddrs ▸ hg.nodup
  · exact haddrs ▸ hg.old
  · have := hg.nentries
    simp only [List.length_append, List.length_map] at this ⊢
    exact this
  · have := hg.size
    simp only [total_append, hc.total_eq] at this ⊢
    exact this
  · exact haddrs ▸ hg.hint
  · exact haddrs ▸ hg.firstFree
  · intro e he
    rcases List.mem_append.1 he with he | he
    · exact hg.prot e (List.mem_append_left _ he)
    · rcases List.mem_append.1 he with he | he
      · obtain ⟨e', he', rfl⟩ := List.mem_map.1 he
        obtain ⟨e, he, h1, h2⟩ := hgone e' he'
        exact hprot e he e' h1 h2
      · exact hg.prot e (List.mem_append_right _ (List.mem_append_right _ he))
  · intro a
    have hstart : ∀ e ∈ mid.map change, start ≤ e.start := by
      intro e he
      obtain ⟨e', he', rfl⟩ := List.mem_map.1 he
      exact (hc.start e').symm ▸ hw.starts e' he'
    have hend : ∀ e ∈ mid.map change, e.end_ ≤ end_ := by
      intro e he
      obtain ⟨e', he', rfl⟩ := List.mem_map.1 he
      exact (hc.end_ e').symm ▸ hw.ends e' he'
    rw [hw.split hstart hend]
    split
    · next hin => rw [mappingAt_map hc.start hc.end_ hc.mapping, hw.inside hin]
    · rfl

end NetBSD.Vm

/-!
## Insertion

`vm_map_insert` makes an entry for a range that is free, or extends the entry before it.
-/

namespace NetBSD.Vm

variable {m : Map} {before : List Entry} {start end_ : Nat}

def Mapping.advance (x : Mapping) (k : Nat) : Mapping := { x with offset := vmOffset (x.offset + k) }

def Mapping.new (object : Option Nat) (offset : Nat) : Mapping :=
  { object := object, offset := offset, isAMap := false, copyOnWrite := false, needsCopy := false, protection := protDefault,
    maxProtection := protDefault, inheritance := inheritDefault, wiredCount := 0 }

def Inserts (l l' : List Entry) (object : Option Nat) (offset start end_ : Nat) : Prop :=
  ∃ x k, (x = Mapping.new object offset ∧ k = 0 ∨ object = none ∧ 0 < start ∧ mappingAt l (start - 1) = some x ∧ k = 1) ∧
    ∀ a, mappingAt l' a = if start ≤ a ∧ a < end_ then some (x.advance (k + (a - start))) else mappingAt l a

theorem mappingAt_between {l from_ : List Entry} {new : Entry} (hl : before ++ from_ = l)
    (hbefore : ∀ e ∈ before, e.end_ ≤ start) (hfrom : ∀ e ∈ from_, end_ ≤ e.start) (hstart : new.start = start)
    (hend : new.end_ = end_) (a : Nat) :
    mappingAt (before ++ new :: from_) a = if start ≤ a ∧ a < end_ then some (new.mapping a) else mappingAt l a := by
  have hstarts : ∀ e ∈ [new], start ≤ e.start := fun e he => by rw [List.mem_singleton.1 he, hstart]
  have hends : ∀ e ∈ [new], e.end_ ≤ end_ := fun e he => by rw [List.mem_singleton.1 he, hend]
  have hw := mappingAt_window hbefore hstarts hends hfrom a
  rw [mappingAt_cons, mappingAt_nil, hstart, hend, hl] at hw
  refine hw.trans ?_
  split
  · rfl
  · rfl

theorem mappingAt_extend {from_ : List Entry} {prev : Entry} (hlt : prev.start < prev.end_) (hlt' : prev.end_ < end_) (a : Nat) :
    mappingAt (before ++ { prev with end_ := end_ } :: from_) a = mappingAt (before ++ [prev] ++
      { prev with start := prev.end_, end_ := end_, offset := vmOffset (prev.offset + (prev.end_ - prev.start)) } :: from_) a := by
  have hrecut := (recut_two (e := { prev with end_ := end_ }) hlt hlt' (.refl [prev.addr, prev.addr])).append before from_
  simpa using (hrecut.mapping a).symm

theorem Good.add (h : Good m) {from_ : List Entry} {new : Entry} {firstFree : Option Nat} (hl : before ++ from_ = m.entries)
    (hbefore : ∀ e ∈ before, e.end_ ≤ new.start) (hfrom : ∀ e ∈ from_, new.end_ ≤ e.start) (hlow : m.minOffset ≤ new.start)
    (hlt : new.start < new.end_) (hhigh : new.end_ ≤ m.maxOffset) (haddr : new.addr = m.fresh)
    (hprot : new.protection &&& new.maxProtection = new.protection)
    (hfree : ∀ x ∈ firstFree, x = m.fresh ∨ x ∈ m.firstFree) :
    Good { m with
      entries := before ++ new :: from_
      nentries := m.nentries + 1
      size := m.size + (new.end_ - new.start)
      firstFree := firstFree
      fresh := m.fresh + 1 } := by
  have ho := h.ordered
  rw [← hl] at ho
  obtain ⟨mid, hb, hf⟩ := ordered_append.1 ho
  have hperm : (before ++ new :: from_).Perm (new :: m.entries) := hl ▸ List.perm_middle
  have haddrs : (addrs (before ++ new :: from_)).Perm (m.fresh :: addrs m.entries) := haddr ▸ hperm.map Entry.addr
  have hold : ∀ x ∈ addrs m.entries, x ∈ addrs (before ++ new :: from_) := fun x hx =>
    haddrs.mem_iff.2 (List.mem_cons_of_mem _ hx)
  refine ⟨?_, ?_, fun x hx => ?_, ?_, ?_, fun x hx => hold x (h.hint x hx), fun x hx => ?_, fun e he => ?_⟩
  · exact ordered_append.2 ⟨new.start, hb.cut hlow hbefore, le_refl _, hlt, hf.raise hhigh hfrom⟩
  · exact haddrs.nodup_iff.2 (List.nodup_cons.2 ⟨fun hx => (h.old _ hx).false, h.nodup⟩)
  · rcases List.mem_cons.1 (haddrs.mem_iff.1 hx) with rfl | hx
    · exact Nat.lt_succ_self _
    · exact Nat.lt_succ_of_lt (h.old x hx)
  · exact (congrArg (· + 1) h.nentries).trans hperm.length_eq.symm
  · have hsum : total (before ++ new :: from_) = total (new :: m.entries) := (hperm.map Entry.size).sum_eq
    rw [hsum, total_cons, ← h.size]
    exact Nat.add_comm ..
  · rcases hfree x hx with rfl | hx
    · exact haddrs.mem_iff.2 List.mem_cons_self
    · exact hold x (h.firstFree x hx)
  · rcases List.mem_cons.1 (hperm.mem_iff.1 he) with rfl | he
    · exact hprot
    · exact h.prot e he

theorem Good.grow (h : Good m) {from_ : List Entry} {prev : Entry} (hl : before ++ prev :: from_ = m.entries)
    (hfrom : ∀ e ∈ from_, end_ ≤ e.start) (hlt : prev.end_ < end_) (hhigh : end_ ≤ m.maxOffset) :
    Good { m with
      entries := before ++ { prev with end_ := end_ } :: from_
      size := m.size + (end_ - prev.end_) } := by
  have ho := h.ordered
  rw [← hl] at ho
  obtain ⟨mid, hb, hlow, hne, hf⟩ := ordered_append.1 ho
  have haddrs : addrs (before ++ { prev with end_ := end_ } :: from_) = addrs m.entries := by
    rw [← hl, addrs_append, addrs_append]
    rfl
  refine ⟨?_, haddrs ▸ h.nodup, haddrs ▸ h.old, ?_, ?_, haddrs ▸ h.hint, haddrs ▸ h.firstFree, fun e he => ?_⟩
  · exact ordered_append.2 ⟨mid, hb, hlow, hne.trans hlt, hf.raise hhigh hfrom⟩
  · have := h.nentries
    rw [← hl] at this
    simp only [List.length_append, List.length_cons] at this ⊢
    exact this
  · have := h.size
    rw [← hl] at this
    simp only [total_append, total_cons, Entry.size] at this ⊢
    omega
  · rcases List.mem_append.1 he with he | he
    · exact h.prot e (hl ▸ List.mem_append_left _ he)
    · rcases List.mem_cons.1 he with rfl | he
      · exact h.prot prev (hl ▸ List.mem_append_right _ List.mem_cons_self)
      · exact h.prot e (hl ▸ List.mem_append_right _ (List.mem_cons_of_mem _ he))

def Map.added (m : Map) (before from_ : List Entry) (object : Option Nat) (offset start end_ : Nat) : Map :=
  { m with
    entries := before ++ { addr := m.fresh, start := start, end_ := end_, object := object, offset := offset, isAMap := false,
                           copyOnWrite := false, needsCopy := false, protection := protDefault,
                           maxProtection := protDefault, inheritance := inheritDefault, wiredCount := 0 } :: from_
    nentries := m.nentries + 1
    size := m.size + (end_ - start)
    firstFree := if m.firstFree = before.getLast?.map Entry.addr ∧ start ≤ (before.getLast?.map Entry.end_).getD m.maxOffset then
      some m.fresh else m.firstFree
    fresh := m.fresh + 1 }

inductive Insertion (m : Map) (object : Option Nat) (offset start end_ : Nat) : KernReturn × Map → Prop where
  | bounds (h : start < m.minOffset ∨ m.maxOffset < end_ ∨ end_ ≤ start) : Insertion m object offset start end_ (.invalidAddress, m)
  | used (hint : Option Nat) (hlive : ∀ x ∈ hint, x ∈ addrs m.entries) (e : Entry) (he : e ∈ m.entries) (hlow : e.start < end_)
      (hhigh : start < e.end_) : Insertion m object offset start end_ (.noSpace, { m with hint := hint })
  | extended (hint : Option Nat) (hlive : ∀ x ∈ hint, x ∈ addrs m.entries) (before from_ : List Entry) (prev : Entry)
      (hl : before ++ prev :: from_ = m.entries) (hobject : object = none) (hext : m.extends_ prev start) (hlow : m.minOffset ≤ start)
      (hlt : start < end_) (hhigh : end_ ≤ m.maxOffset) (hfrom : ∀ e ∈ from_, end_ ≤ e.start) :
      Insertion m object offset start end_ (.success, { m with
        entries := before ++ { prev with end_ := end_ } :: from_
        size := m.size + (end_ - prev.end_)
        hint := hint })
  | added (hint : Option Nat) (hlive : ∀ x ∈ hint, x ∈ addrs m.entries) (before from_ : List Entry) (hl : before ++ from_ = m.entries)
      (hlow : m.minOffset ≤ start) (hlt : start < end_) (hhigh : end_ ≤ m.maxOffset) (hbefore : ∀ e ∈ before, e.end_ ≤ start)
      (hfrom : ∀ e ∈ from_, end_ ≤ e.start) :
      Insertion m object offset start end_ (.success, ({ m with hint := hint }).added before from_ object offset start end_)

theorem insert_cases (h : Good m) (coalesce : Entry → Nat → Bool) (object : Option Nat) (offset start end_ : Nat) :
    Insertion m object offset start end_ (m.insert coalesce object offset start end_) := by
  obtain ⟨hs, hint, hm', hlive, -⟩ := lookupEntry_spec h start
  unfold Map.insert
  split
  · next hb => exact .bounds hb
  next hb =>
  generalize m.lookupEntry start = r at *
  obtain ⟨p, m'⟩ := r
  obtain rfl : m' = { m with hint := hint } := hm'
  dsimp only
  have hmem : ∀ e ∈ p.from_.head?, e ∈ m.entries := fun e he => hs.eq ▸ List.mem_append_right _ (List.mem_of_mem_head? he)
  split
  · next hfound =>
    obtain ⟨e, he, hle⟩ := hs.found.1 hfound
    exact .used hint hlive e (hmem e he) (by omega) (hs.from_ e he)
  split
  · next hnext =>
    obtain ⟨e, he, hlt⟩ := (Option.any_eq_true _ _).1 hnext
    exact .used hint hlive e (hmem e he) (of_decide_eq_true hlt) (hs.from_ e he)
  next hnext =>
  have ho := h.ordered
  rw [← hs.eq] at ho
  obtain ⟨mid, -, hf⟩ := ordered_append.1 ho
  have hfrom : ∀ e ∈ p.from_, end_ ≤ e.start := hf.starts fun e he =>
    Nat.le_of_not_lt fun hlt => hnext ((Option.any_eq_true _ _).2 ⟨e, he, decide_eq_true hlt⟩)
  generalize hprev : p.before.getLast?.filter _ = prev
  cases prev with
  | some prev =>
    rw [Option.filter_eq_some_iff] at hprev
    obtain ⟨hlast, hcond⟩ := hprev
    obtain ⟨before, hbefore⟩ := List.getLast?_eq_some_iff.1 hlast
    simp only [Bool.and_eq_true, decide_eq_true_eq] at hcond
    obtain ⟨⟨hobject, hext⟩, -⟩ := hcond
    have hl : before ++ prev :: p.from_ = m.entries := by
      rw [← hs.eq, hbefore, List.append_assoc]
      rfl
    have hdrop : p.before.dropLast = before := by rw [hbefore, List.dropLast_concat]
    dsimp only
    rw [hdrop]
    exact .extended hint hlive before p.from_ prev hl hobject hext (by omega) (by omega) (by omega) hfrom
  | none => exact .added hint hlive p.before p.from_ hs.eq (by omega) (by omega) (by omega) hs.before hfrom

variable {object : Option Nat} {offset : Nat} {r : KernReturn × Map}

theorem extends_iff {prev : Entry} : m.extends_ prev start ↔ prev.end_ = start ∧ m.isMainMap ∧ prev.isAMap = false ∧
    prev.inheritance = inheritDefault ∧ prev.protection = protDefault ∧ prev.maxProtection = protDefault ∧
      prev.wiredCount = 0 := by
  rw [Map.extends_, decide_eq_true_iff]

theorem Insertion.good (h : Good m) (hr : Insertion m object offset start end_ r) : Good r.2 := by
  cases hr with
  | bounds => exact h
  | used hint hlive => exact h.setHint hlive
  | extended hint hlive before from_ prev hl _ hext _ hlt hhigh hfrom =>
    have hend := (extends_iff.1 hext).1
    exact (h.setHint hlive).grow hl hfrom (by omega) hhigh
  | added hint hlive before from_ hl hlow hlt hhigh hbefore hfrom =>
    refine (h.setHint hlive).add hl hbefore hfrom hlow hlt hhigh rfl (BitVec.and_self ..) fun x hx => ?_
    split at hx
    · exact .inl (Option.some.inj hx).symm
    · exact .inr hx

theorem Insertion.unchanged (hr : Insertion m object offset start end_ r) (hfail : r.1 ≠ .success) (a : Nat) :
    mappingAt r.2.entries a = mappingAt m.entries a := by
  cases hr with
  | bounds => rfl
  | used => rfl
  | extended => exact absurd rfl hfail
  | added => exact absurd rfl hfail

theorem mappingAt_gap {l from_ : List Entry} (hl : before ++ from_ = l) (hbefore : ∀ e ∈ before, e.end_ ≤ start)
    (hfrom : ∀ e ∈ from_, end_ ≤ e.start) {a : Nat} (ha : start ≤ a ∧ a < end_) : mappingAt l a = none := by
  rw [← hl, mappingAt_append, mappingAt_high hbefore ha.1, mappingAt_low hfrom ha.2]
  rfl

theorem Insertion.inserts (h : Good m) (hr : Insertion m object offset start end_ r) (hok : r.1 = .success) :
    (∀ a, start ≤ a ∧ a < end_ → mappingAt m.entries a = none) ∧ Inserts m.entries r.2.entries object offset start end_ := by
  cases hr with
  | bounds => exact KernReturn.noConfusion hok
  | used => exact KernReturn.noConfusion hok
  | extended hint hlive before from_ prev hl hobject hext _ hlt hhigh hfrom =>
    have ho := h.ordered
    rw [← hl] at ho
    obtain ⟨mid, hb, hlow, hne, hf⟩ := ordered_append.1 ho
    obtain ⟨rfl, -⟩ := extends_iff.1 hext
    have hbefore : ∀ e ∈ before ++ [prev], e.end_ ≤ prev.end_ := by
      intro e he
      rcases List.mem_append.1 he with he | he
      · exact (hb.mem he).2.2.trans (hlow.trans hne.le)
      · rw [List.mem_singleton.1 he]
    have hl' : (before ++ [prev]) ++ from_ = m.entries := by
      rw [← hl, List.append_assoc]
      rfl
    refine ⟨fun a ha => mappingAt_gap hl' hbefore hfrom ha, prev.mapping (prev.end_ - 1), 1, .inr ⟨hobject, by omega, ?_, rfl⟩,
      fun a => ?_⟩
    · have hlast : prev.start ≤ prev.end_ - 1 ∧ prev.end_ - 1 < prev.end_ := by omega
      have hbefore' : mappingAt before (prev.end_ - 1) = none :=
        mappingAt_high (fun e he => (hb.mem he).2.2) (hlow.trans hlast.1)
      rw [← hl, mappingAt_append, hbefore', mappingAt_cons, if_pos hlast]
      rfl
    · dsimp only
      rw [mappingAt_extend hne hlt, mappingAt_between hl' hbefore hfrom rfl rfl]
      by_cases ha : prev.end_ ≤ a ∧ a < end_
      · rw [if_pos ha, if_pos ha]
        have hsum : prev.end_ - prev.start + (a - prev.end_) = prev.end_ - 1 - prev.start + (1 + (a - prev.end_)) := by omega
        simp only [Entry.mapping, Mapping.advance, vmOffset_add, Nat.add_assoc, hsum]
      · rw [if_neg ha, if_neg ha]
  | added hint hlive before from_ hl hlow hlt hhigh hbefore hfrom =>
    refine ⟨fun a ha => mappingAt_gap hl hbefore hfrom ha, .new object offset, 0, .inl ⟨rfl, rfl⟩, fun a => ?_⟩
    dsimp only [Map.added]
    rw [mappingAt_between hl hbefore hfrom rfl rfl]
    by_cases ha : start ≤ a ∧ a < end_
    · rw [if_pos ha, if_pos ha, Nat.zero_add]
      rfl
    · rw [if_neg ha, if_neg ha]

end NetBSD.Vm
