import NetBSD.Vm.Findspace
import NetBSD.Vm.Pointwise

/-!
# The hint for free space

`first_free` stays below every hole, unless an entry is made in front of all others above the bottom of the map while it is the
header: the end of the header, which is the end of the map, is behind any entry.
-/

namespace NetBSD.Vm

variable {m m' : Map} {object : Option Nat} {offset start end_ length : Nat} {r : KernReturn × Map} {before from_ : List Entry}

def Bottom (m : Map) (start end_ : Nat) : Prop :=
  m.firstFree = none → m.minOffset ≤ start → start < end_ → end_ ≤ m.maxOffset → (∀ e ∈ m.entries, end_ ≤ e.start) →
    start = m.minOffset

theorem Insertion.mapped (h : Good m) (hr : Insertion m object offset start end_ r) {a : Nat}
    (ha : mappingAt m.entries a ≠ none) : mappingAt r.2.entries a ≠ none := by
  by_cases hok : r.1 = .success
  · obtain ⟨-, x, k, -, heq⟩ := hr.inserts h hok
    rw [heq]
    split
    · exact Option.some_ne_none _
    · exact ha
  · rwa [hr.unchanged hok]

theorem Insertion.covered (h : Good m) (hr : Insertion m object offset start end_ r) (hok : r.1 = .success) {a : Nat}
    (ha : start ≤ a ∧ a < end_) : mappingAt r.2.entries a ≠ none := by
  obtain ⟨-, x, k, -, heq⟩ := hr.inserts h hok
  rw [heq, if_pos ha]
  exact Option.some_ne_none _

theorem Packed.keep (hpacked : Packed m) (hfree : m'.firstFree = m.firstFree) (hmin : m'.minOffset = m.minOffset)
    (hends : ∀ k ∈ m.firstFree, ∀ e' ∈ m'.entries, e'.addr = k → ∀ a, a < e'.end_ →
      (∃ e ∈ m.entries, e.addr = k ∧ a < e.end_) ∨ mappingAt m'.entries a ≠ none)
    (hmapped : ∀ a, mappingAt m.entries a ≠ none → mappingAt m'.entries a ≠ none) : Packed m' := by
  intro k hk e' he' haddr a hlow hlt
  rw [hfree] at hk
  rw [hmin] at hlow
  rcases hends k hk e' he' haddr a hlt with ⟨e, he, haddr', hlt'⟩ | ha
  · exact hmapped a (hpacked k hk e he haddr' a hlow hlt')
  · exact ha

theorem Insertion.packed_iff (h : Good m) (hpacked : Packed m) (hr : Insertion m object offset start end_ r) :
    Packed r.2 ↔ Bottom m start end_ := by
  have hmapped : ∀ a, mappingAt m.entries a ≠ none → mappingAt r.2.entries a ≠ none := fun a => hr.mapped h
  have hcovered := fun hok a ha => hr.covered h hok (a := a) ha
  cases hr with
  | bounds hout => exact iff_of_true hpacked fun _ h1 h2 h3 => absurd hout (by omega)
  | used hint hlive e he hlow hhigh => exact iff_of_true hpacked fun _ _ _ _ h4 => absurd (h4 e he) (by omega)
  | extended hint hlive before from_ prev hl hobject hext hlow hlt hhigh hfrom =>
    obtain ⟨rfl, -⟩ := extends_iff.1 hext
    have hprev : prev ∈ m.entries := hl ▸ List.mem_append_right _ List.mem_cons_self
    have hne := (h.ordered.mem hprev).2.1
    refine iff_of_true (hpacked.keep rfl rfl (fun k _ e' he' haddr a hlt' => ?_) hmapped) fun _ _ _ _ h4 =>
      absurd (h4 prev hprev) (by omega)
    rcases List.mem_append.1 he' with he' | he'
    · exact .inl ⟨e', hl ▸ List.mem_append_left _ he', haddr, hlt'⟩
    rcases List.mem_cons.1 he' with rfl | he'
    · rcases Nat.lt_or_ge a prev.end_ with hlt'' | hge
      · exact .inl ⟨prev, hprev, haddr, hlt''⟩
      · exact .inr (hcovered rfl a ⟨hge, hlt'⟩)
    · exact .inl ⟨e', hl ▸ List.mem_append_right _ (List.mem_cons_of_mem _ he'), haddr, hlt'⟩
  | added hint hlive before from_ hl hlow hlt hhigh hbefore hfrom =>
    have hadded : ∀ e' ∈ (({ m with hint := hint } : Map).added before from_ object offset start end_).entries,
        (e'.addr = m.fresh ∧ e'.start = start ∧ e'.end_ = end_) ∨ e' ∈ m.entries ∧ e'.addr < m.fresh := by
      intro e' he'
      rcases List.mem_cons.1 (List.perm_middle.mem_iff.1 he') with rfl | he'
      · exact .inl ⟨rfl, rfl, rfl⟩
      · exact .inr ⟨hl ▸ he', h.old _ (List.mem_map_of_mem (hl ▸ he'))⟩
    by_cases hfront : m.firstFree = none ∧ before = []
    · obtain ⟨hnone, rfl⟩ := hfront
      -- the end of the header is behind `start`
      have hfree : (({ m with hint := hint } : Map).added [] from_ object offset start end_).firstFree = some m.fresh :=
        if_pos ⟨hnone, hlt.le.trans hhigh⟩
      have hstarts : ∀ e ∈ m.entries, end_ ≤ e.start := fun e he => hfrom e (hl.symm ▸ he : e ∈ [] ++ from_)
      refine ⟨fun hp _ _ _ _ _ => ?_, fun hbottom k hk e' he' haddr a hlow' hlt' => ?_⟩
      · by_contra hne
        refine hp m.fresh hfree _ List.mem_cons_self rfl m.minOffset (le_refl _) (hlow.trans_lt hlt) (mappingAt_eq_none.2 ?_)
        intro e' he' hin
        rcases hadded e' he' with ⟨-, hstart, -⟩ | ⟨he', -⟩
        · omega
        · have := hstarts e' he'
          omega
      · obtain rfl : m.fresh = k := Option.some.inj (hfree.symm.trans hk)
        have hstart := hbottom hnone hlow hlt hhigh hstarts
        rcases hadded e' he' with ⟨-, -, hend⟩ | ⟨-, hlt''⟩
        · exact hcovered rfl a ⟨hstart ▸ hlow', hend ▸ hlt'⟩
        · exact absurd haddr hlt''.ne
    · refine iff_of_true ?_ fun hnone _ _ _ h4 =>
        absurd ⟨hnone, List.eq_nil_iff_forall_not_mem.2 fun e he => ?_⟩ hfront
      · by_cases hcond : m.firstFree = before.getLast?.map Entry.addr ∧
            start ≤ (before.getLast?.map Entry.end_).getD m.maxOffset
        · obtain ⟨hlast, hle⟩ := hcond
          have hfree : (({ m with hint := hint } : Map).added before from_ object offset start end_).firstFree = some m.fresh :=
            if_pos ⟨hlast, hle⟩
          intro k hk e' he' haddr a hlow' hlt'
          obtain rfl : m.fresh = k := Option.some.inj (hfree.symm.trans hk)
          rcases hadded e' he' with ⟨-, -, hend⟩ | ⟨-, hlt''⟩
          · cases hprev : before.getLast? with
            | none => exact absurd ⟨by rw [hlast, hprev]; rfl, List.getLast?_eq_none_iff.1 hprev⟩ hfront
            | some prev =>
              rw [hprev] at hlast hle
              have hmem : prev ∈ m.entries := hl ▸ List.mem_append_left _ (List.mem_of_getLast? hprev)
              rcases Nat.lt_or_ge a prev.end_ with hlt'' | hge
              · exact hmapped a (hpacked prev.addr hlast prev hmem rfl a hlow' hlt'')
              · exact hcovered rfl a ⟨hle.trans hge, hend ▸ hlt'⟩
          · exact absurd haddr hlt''.ne
        · refine hpacked.keep (if_neg hcond) rfl (fun k hk e' he' haddr a hlt' => ?_) hmapped
          rcases hadded e' he' with ⟨haddr', -, -⟩ | ⟨he', -⟩
          · exact absurd (h.old k (h.firstFree k hk)) (by rw [← haddr, haddr']; exact lt_irrefl _)
          · exact .inl ⟨e', he', haddr, hlt'⟩
      · have hmem : e ∈ m.entries := hl ▸ List.mem_append_left _ he
        have := h4 e hmem
        have := hbefore e he
        have := (h.ordered.mem hmem).2.1
        omega

theorem delete_packed (h : Good m) (hpacked : Packed m) (start end_ : Nat) : Packed (m.delete start end_).2 := by
  obtain ⟨hgood, -, hmapping⟩ := delete_spec h start end_
  have hp := seek_spec h start
  have hmin := hp.minOffset
  unfold Map.delete at *
  generalize m.seek start = r at *
  obtain ⟨p, m'⟩ := r
  dsimp only at hp hmin hgood hmapping ⊢
  generalize deleteLoop end_ m'.fresh p.from_ = r at *
  obtain ⟨gone, rest, k⟩ := r
  dsimp only at hgood hmapping ⊢
  have hinj := fun {x y : Entry} => List.inj_on_of_nodup_map hgood.nodup (x := x) (y := y)
  -- an address below `start` is mapped before the call, and stays so
  have hbelow : ∀ a, m'.minOffset ≤ a → a < start → (∃ k ∈ m'.firstFree, ∃ e ∈ m'.entries, e.addr = k ∧ a < e.end_) →
      mappingAt (p.before ++ rest) a ≠ none := by
    rintro a hlow hlt ⟨k, hk, e, he, haddr, hend⟩
    rw [hp.firstFree] at hk
    obtain ⟨e₁, he₁, haddr₁, hend₁⟩ := hp.ends e he (haddr ▸ h.firstFree k hk)
    rw [hmapping, if_neg fun hin => absurd hin.1 (Nat.not_le.2 hlt)]
    exact hpacked k hk e₁ he₁ (haddr₁.trans haddr) a (hmin ▸ hlow) (hend₁ ▸ hend)
  intro x hx e' he' haddr a hlow hlt
  dsimp only at hx he' hlow
  split at hx
  · next hle =>
    obtain ⟨last, hlast, rfl⟩ := Option.map_eq_some_iff.1 hx
    have hmem := List.mem_of_getLast? hlast
    obtain rfl : e' = last := hinj he' (List.mem_append_left _ hmem) haddr
    have hend := hp.before e' hmem
    refine hbelow a hlow (hlt.trans_le hend) ?_
    cases hfree : m'.firstFree with
    | none =>
      rw [hfree] at hle
      have hle' : start ≤ m'.minOffset := by
        cases h0 : (m'.split none).2.head? with
        | none => rwa [h0] at hle
        | some e => rwa [h0] at hle
      omega
    | some k =>
      obtain ⟨before, e, rest', hs, haddr, heq⟩ := split_ne_nil (hp.good.firstFree k hfree)
      rw [hfree, hs] at hle
      have hmem : e ∈ m'.entries := heq ▸ List.mem_append_right _ List.mem_cons_self
      have hne := (hp.good.ordered.mem hmem).2.1
      have hle' : start ≤ e.start := hle
      exact ⟨k, rfl, e, hmem, haddr, by omega⟩
  · next hlt' =>
    obtain ⟨before, e, rest', hs, haddr', heq⟩ := split_ne_nil (hp.good.firstFree x hx)
    rw [Option.mem_def.1 hx, hs] at hlt'
    have hmem : e ∈ m'.entries := heq ▸ List.mem_append_right _ List.mem_cons_self
    have hbefore : e ∈ p.before := by
      rcases List.mem_append.1 (hp.eq ▸ hmem : e ∈ p.before ++ p.from_) with he | he
      · exact he
      · exact absurd (hp.from_ e he) hlt'
    obtain rfl : e' = e := hinj he' (List.mem_append_left _ hbefore) (haddr.trans haddr'.symm)
    exact hbelow a hlow (hlt.trans_le (hp.before e' hbefore)) ⟨x, hx, e', hmem, haddr, hlt⟩

inductive SpaceCall where
  | insert (coalesce : Entry → Nat → Bool) (object : Option Nat) (offset start end_ : Nat)
  | find (coalesce : Entry → Nat → Bool) (object : Option Nat) (offset : Nat) (start length : BitVec 32) (findSpace : Bool)
  | delete (start end_ : Nat)

def Map.spaceCall (m : Map) : SpaceCall → Map
  | .insert coalesce object offset start end_ => (m.insert coalesce object offset start end_).2
  | .find coalesce object offset start length findSpace =>
    (m.find coalesce object offset start.toNat length.toNat findSpace).2.2
  | .delete start end_ => (m.delete start end_).2

def Map.spaceRun (m : Map) (calls : List SpaceCall) : Map := calls.foldl Map.spaceCall m

def Map.searchFrom (m : Map) (start : Nat) : Nat := max start m.minOffset

/-- No entry is made in front of the others above the bottom of the map, while `first_free` is the header. -/
def SpaceCall.Fits (m : Map) : SpaceCall → Prop
  | .insert _ _ _ start end_ => Bottom m start end_
  | .find _ _ _ start length true =>
    Bottom m (m.searchFrom start.toNat) (vmOffset (m.searchFrom start.toNat + length.toNat))
  | .find _ _ _ start length false => Bottom m start.toNat (vmOffset (start.toNat + length.toNat))
  | .delete _ _ => True

theorem bottom_findspace (h : Good m) (hmax : m.maxOffset < 4294967296) (hfit : FirstFit m) (start length : BitVec 32)
    (hpos : 0 < length.toNat) :
    let s := m.searchFrom start.toNat
    match (m.findspace start.toNat length.toNat).1 with
    | some a => Bottom m a (vmOffset (a + length.toNat)) ↔ Bottom m s (vmOffset (s + length.toNat))
    | none => Bottom m s (vmOffset (s + length.toNat)) := by
  have hspec := hfit start length hpos
  have hlength := length.isLt
  have hmin := h.ordered.le
  unfold Map.searchFrom
  dsimp only
  generalize hs : max start.toNat m.minOffset = s
  have hs' : s < 4294967296 := by
    have := start.isLt
    omega
  -- a region that does not wrap around
  have hfree : ∀ end_, s < end_ → end_ = vmOffset (s + length.toNat) → end_ ≤ m.maxOffset → (∀ e ∈ m.entries, end_ ≤ e.start) →
      Free m start.toNat length.toNat s := by
    intro end_ hlt hend hhigh hfront
    have hend' : end_ = s + length.toNat := by
      unfold vmOffset at hend
      omega
    exact ⟨hs.le, hend' ▸ hhigh, fun e he => .inr (hend' ▸ hfront e he)⟩
  generalize (m.findspace start.toNat length.toNat).1 = r at hspec
  match r with
  | none => exact fun _ _ hlt hhigh hfront => absurd (hfree _ hlt rfl hhigh hfront) (hspec s)
  | some a =>
    obtain ⟨⟨hlow, hhigh, -⟩, hleast⟩ := hspec
    rw [hs] at hlow
    have hend : vmOffset (a + length.toNat) = a + length.toNat := Nat.mod_eq_of_lt (by omega)
    dsimp only
    rw [hend]
    refine ⟨fun hb hnone hsmin hlt hsmax hfront => ?_, fun hb hnone hamin hlt hamax hfront => ?_⟩
    · have hle : a ≤ s := hleast (hfree _ hlt rfl hsmax hfront)
      obtain rfl : a = s := Nat.le_antisymm hle hlow
      rw [hend] at hlt hsmax hfront
      exact hb hnone hsmin hlt hsmax hfront
    · have hend' : vmOffset (s + length.toNat) = s + length.toNat := Nat.mod_eq_of_lt (by omega)
      have hfront' : ∀ e ∈ m.entries, s + length.toNat ≤ e.start := fun e he => by
        have := hfront e he
        omega
      have hle : a ≤ s := hleast (hfree (s + length.toNat) (by omega) hend'.symm (by omega) hfront')
      obtain rfl : a = s := Nat.le_antisymm hle hlow
      exact hb hnone hamin (hend'.symm ▸ hlt) (hend'.symm ▸ hamax) (hend'.symm ▸ hfront')

theorem spaceCall_spec (h : Good m) (hmax : m.maxOffset < 4294967296) (hfit : FirstFit m) (c : SpaceCall) :
    Good (m.spaceCall c) ∧ (m.spaceCall c).maxOffset = m.maxOffset ∧ (FirstFit (m.spaceCall c) ↔ c.Fits m) := by
  have hpacked := hfit.packed h
  have hinsert : ∀ (hint : Option Nat), (∀ x ∈ hint, x ∈ addrs m.entries) → ∀ coalesce object offset start end_,
      let m' := (Map.insert { m with hint := hint } coalesce object offset start end_).2
      Good m' ∧ m'.maxOffset = m.maxOffset ∧ (FirstFit m' ↔ Bottom m start end_) := by
    intro hint hlive coalesce object offset start end_
    have hg := h.setHint hlive
    have hr := insert_cases hg coalesce object offset start end_
    have hmax' := hr.bounds_eq.2
    have hiff := hr.packed_iff hg hpacked
    exact ⟨hr.good hg, hmax', (firstFit_iff (hr.good hg) (hmax'.symm ▸ hmax)).trans hiff⟩
  cases c with
  | insert coalesce object offset start end_ => exact hinsert m.hint h.hint coalesce object offset start end_
  | delete start end_ =>
    have hg := (delete_spec h start end_).1
    have hmax' : (m.delete start end_).2.maxOffset = m.maxOffset := (seek_spec h start).maxOffset
    exact ⟨hg, hmax', iff_of_true ((delete_packed h hpacked start end_).firstFit hg (hmax'.symm ▸ hmax)) trivial⟩
  | find coalesce object offset start length findSpace =>
    cases findSpace with
    | false => exact hinsert m.hint h.hint coalesce object offset _ _
    | true =>
      obtain ⟨hint, hm', hlive⟩ := findspace_map h start.toNat length.toNat
      have hbottom := bottom_findspace h hmax hfit start length
      rw [Map.spaceCall, Map.find, if_pos rfl, SpaceCall.Fits]
      generalize m.findspace start.toNat length.toNat = r at hm' hbottom
      obtain ⟨addr, m'⟩ := r
      obtain rfl : m' = { m with hint := hint } := hm'
      have hg := h.setHint hlive
      -- a range of no length is not inserted
      have hzero : length.toNat = 0 → ∀ a, Bottom m a (vmOffset (a + length.toNat)) := by
        intro hzero a _ _ hlt
        exact absurd hlt (Nat.not_lt.2 (by rw [hzero]; exact Nat.mod_le ..))
      match addr with
      | none =>
        refine ⟨hg, rfl, iff_of_true ((firstFit_iff hg hmax).2 hpacked) ?_⟩
        rcases Nat.eq_zero_or_pos length.toNat with hlen | hpos
        · exact hzero hlen _
        · exact hbottom hpos
      | some a =>
        obtain ⟨hgood, hmax', hiff⟩ := hinsert hint hlive coalesce object offset a (vmOffset (a + length.toNat))
        refine ⟨hgood, hmax', hiff.trans ?_⟩
        rcases Nat.eq_zero_or_pos length.toNat with hlen | hpos
        · exact iff_of_true (hzero hlen _) (hzero hlen _)
        · exact hbottom hpos

def Map.SpaceFits (m : Map) (calls : List SpaceCall) : Prop :=
  ∀ done c rest, calls = done ++ c :: rest → c.Fits (m.spaceRun done)

theorem spaceRun_spec (h : Good m) (hmax : m.maxOffset < 4294967296) (hfit : FirstFit m) (calls : List SpaceCall) :
    (∀ done rest, calls = done ++ rest → FirstFit (m.spaceRun done)) ↔ m.SpaceFits calls := by
  induction calls generalizing m with
  | nil =>
    refine iff_of_true (fun done rest heq => ?_) fun done c rest heq => absurd heq (by simp)
    obtain ⟨rfl, -⟩ := List.append_eq_nil_iff.1 heq.symm
    exact hfit
  | cons c calls ih =>
    obtain ⟨hg, hmax', hiff⟩ := spaceCall_spec h hmax hfit c
    constructor
    · intro hall
      have hfit' : FirstFit (m.spaceCall c) := hall [c] calls rfl
      have hrec := (ih hg (hmax'.symm ▸ hmax) hfit').1 fun done rest heq => hall (c :: done) rest (congrArg (c :: ·) heq)
      intro done c' rest heq
      cases done with
      | nil =>
        obtain ⟨rfl, -⟩ := List.cons.inj heq
        exact hiff.1 hfit'
      | cons d done =>
        obtain ⟨rfl, heq'⟩ := List.cons.inj heq
        exact hrec done c' rest heq'
    · intro hall
      have hfit' : FirstFit (m.spaceCall c) := hiff.2 (hall [] c calls rfl)
      have hrec := (ih hg (hmax'.symm ▸ hmax) hfit').2 fun done c' rest heq => hall (c :: done) c' rest (congrArg (c :: ·) heq)
      intro done rest heq
      cases done with
      | nil => exact hfit
      | cons d done =>
        obtain ⟨rfl, heq'⟩ := List.cons.inj heq
        exact hrec done rest heq'

def newMap (min max : Nat) (isMainMap : Bool) : Map := { mapInit min max with isMainMap := isMainMap }

/-- The search is first-fit in every state of a run if and only if no call of it makes an entry in front of all others above the
bottom of the map while `first_free` is the header. -/
theorem findspace_firstFit {min max : Nat} (hle : min ≤ max) (hmax : max < 4294967296) (isMainMap : Bool)
    (calls : List SpaceCall) :
    (∀ done rest, calls = done ++ rest → FirstFit ((newMap min max isMainMap).spaceRun done)) ↔
      (newMap min max isMainMap).SpaceFits calls := by
  have hinit := mapInit_good hle
  have hg : Good (newMap min max isMainMap) :=
    ⟨hinit.ordered, hinit.nodup, hinit.old, hinit.nentries, hinit.size, hinit.hint, hinit.firstFree, hinit.prot⟩
  have hpacked : Packed (newMap min max isMainMap) := fun _ hk => absurd hk (Option.not_mem_none _)
  exact spaceRun_spec hg hmax (hpacked.firstFit hg hmax) calls

/-- Two entries from the bottom on, with no hole below the second one. -/
theorem findspace_firstFit_bottom :
    FirstFit ((newMap 4096 65536 true).spaceRun
      [.find (fun _ _ => false) (some 1) 0 0 4096 true, .find (fun _ _ => false) (some 2) 0 0 8192 true]) := by
  refine (findspace_firstFit (by decide) (by decide) true
    [.find (fun _ _ => false) (some 1) 0 0 4096 true, .find (fun _ _ => false) (some 2) 0 0 8192 true]).2 ?_ _ [] rfl
  intro done c rest heq
  match done with
  | [] =>
    obtain ⟨rfl, -⟩ := List.cons.inj heq
    exact fun _ _ _ _ _ => rfl
  | [_] =>
    obtain ⟨rfl, heq'⟩ := List.cons.inj heq
    obtain ⟨rfl, -⟩ := List.cons.inj heq'
    exact fun hnone => absurd hnone (by decide)
  | _ :: _ :: done => exact absurd (congrArg List.length heq) (by simp)

def holed : Map := (newMap 4096 65536 true).spaceRun [.insert (fun _ _ => false) (some 1) 0 8192 12288]

/-- The search begins behind the only entry, and a region below it is free. -/
theorem findspace_skips_hole :
    (holed.findspace 0 4096).1 = some 12288 ∧ Free holed 0 4096 4096 ∧
      ¬ ∀ calls, FirstFit ((newMap 4096 65536 true).spaceRun calls) := by
  have hfound : (holed.findspace 0 4096).1 = some 12288 := by decide
  have hfree : Free holed 0 4096 4096 := ⟨by decide, by decide, by decide⟩
  refine ⟨hfound, hfree, fun hall => ?_⟩
  have hspec : match (holed.findspace 0 4096).1 with
      | some a => IsLeast { a | Free holed 0 4096 a } a
      | none => ∀ a, ¬ Free holed 0 4096 a := hall [.insert (fun _ _ => false) (some 1) 0 8192 12288] 0 4096 (by decide)
  rw [hfound] at hspec
  exact absurd (hspec.2 hfree) (by decide)

end NetBSD.Vm
