import NetBSD.Vm.Clean
import NetBSD.Vm.Inheritance
import NetBSD.Vm.Pageable

/-!
# Cleaned ranges

The second pass asks for each page of a range that can be written, in the object that backs it, as long as each part of an entry
lies in one entry of its sharing map.
-/

namespace NetBSD.Vm

variable {m : Map} {e : Entry} {rest l : List Entry} {lo hi start end_ a : Nat} {share share' : Nat → Map} {part : Part}
  {calls calls' : List PageCall}

def Mapping.writable (x : Mapping) : Bool := x.protection &&& protWrite ≠ 0

def backingOf (share : Nat → Map) (x : Mapping) : Option (Nat × Nat) :=
  x.object.bind fun object =>
    if x.isAMap then (mappingAt (share object).entries x.offset).bind fun y => y.object.map fun object' => (object', y.offset)
    else some (object, x.offset)

def Part.Asks (part : Part) (offset : Nat) : Prop := part.start = part.end_ ∨ part.start ≤ offset ∧ offset < part.end_

def partsFor (a : Nat) (calls : List PageCall) : List Part :=
  calls.filterMap fun c =>
    match c with
    | .clean part _ => if part.address ≤ a ∧ a < part.address + part.size then some part else none
    | .remove _ => none

theorem partsFor_append : partsFor a (calls ++ calls') = partsFor a calls ++ partsFor a calls' := List.filterMap_append

def Asks (share : Nat → Map) (start end_ : Nat) (l : List Entry) (calls : List PageCall) : Prop :=
  ∀ a, start ≤ a ∧ a < end_ → ∀ x ∈ mappingAt l a, x.writable = true →
    ∃ part offset, partsFor a calls = [part] ∧ backingOf share x = some (part.object, offset) ∧ part.Asks offset

def HasObjects (share : Nat → Map) (e : Entry) : Prop :=
  ∃ s, e.object = some s ∧
    if e.isAMap then
      Sound (share s) ∧ (share s).maxOffset < 4294967296 ∧
        (∀ a, e.offset ≤ a ∧ a < e.offset + (e.end_ - e.start) → mappingAt (share s).entries a ≠ none) ∧
        ∀ t ∈ (share s).entries, t.object ≠ none ∧ t.offset + (t.end_ - t.start) < 4294967296
    else e.offset + (e.end_ - e.start) < 4294967296

def InOne (share : Nat → Map) (start end_ : Nat) (e : Entry) : Prop :=
  e.isAMap = true → ∀ s ∈ e.object, ∃ t ∈ (share s).entries,
    t.start ≤ e.offset + (max start e.start - e.start) ∧ e.offset + (min e.end_ end_ - e.start) ≤ t.end_

def SameMaps (share share' : Nat → Map) : Prop := ∀ s, (share' s).entries = (share s).entries ∧
  (share' s).maxOffset = (share s).maxOffset ∧ (Sound (share s) → Sound (share' s))

theorem SameMaps.refl (share : Nat → Map) : SameMaps share share := fun _ => ⟨rfl, rfl, id⟩

theorem SameMaps.hasObjects (h : SameMaps share share') (ho : HasObjects share e) : HasObjects share' e := by
  obtain ⟨s, hs, hrest⟩ := ho
  obtain ⟨hentries, hmax, hsound⟩ := h s
  refine ⟨s, hs, ?_⟩
  cases hmap : e.isAMap with
  | false =>
    rw [hmap] at hrest
    exact hrest
  | true =>
    rw [hmap, if_pos rfl] at hrest
    rw [if_pos rfl, hentries, hmax]
    exact ⟨hsound hrest.1, hrest.2⟩

theorem SameMaps.inOne (h : SameMaps share share') (ho : InOne share start end_ e) : InOne share' start end_ e := by
  intro hmap s hs
  rw [(h s).1]
  exact ho hmap s hs

theorem SameMaps.backingOf_eq (h : SameMaps share share') (x : Mapping) : backingOf share' x = backingOf share x := by
  unfold backingOf
  cases x.object with
  | none => rfl
  | some s => rw [Option.bind_some, Option.bind_some, (h s).1]

theorem SameMaps.asks (h : SameMaps share share') (ha : Asks share' start end_ l calls) : Asks share start end_ l calls := by
  intro a hin x hx hw
  obtain ⟨part, offset, hpart, hback, hasks⟩ := ha a hin x hx hw
  exact ⟨part, offset, hpart, h.backingOf_eq x ▸ hback, hasks⟩

theorem vmSub_eq {x y : Nat} (hle : y ≤ x) (hx : x < 4294967296) : vmSub x y = x - y := by
  unfold vmSub vmOffset
  omega

theorem mapping_in (ho : Ordered lo hi l) (he : e ∈ l) (hin : e.start ≤ a ∧ a < e.end_) : mappingAt l a = some (e.mapping a) := by
  induction l generalizing lo with
  | nil => exact absurd he List.not_mem_nil
  | cons x l ih =>
    rw [mappingAt_cons]
    rcases List.mem_cons.1 he with rfl | he
    · rw [if_pos hin]
    · rw [if_neg fun hx => absurd hx.2 (Nat.not_lt.2 ((ho.2.2.mem he).1.trans hin.1)), ih ho.2.2 he]

theorem Splits.owner {p : Place} (h : Splits a l p) (ho : Ordered lo hi l) (he : e ∈ l) (hin : e.start ≤ a ∧ a < e.end_) :
    p.entry = some e := by
  rw [← h.eq] at he ho
  obtain ⟨mid, -, hf⟩ := ordered_append.1 ho
  have hnot : e ∉ p.before := fun hb => absurd (h.before e hb) (Nat.not_le.2 hin.2)
  have hhead : p.from_.head? = some e := by
    have hmem := (List.mem_append.1 he).resolve_left hnot
    have hfirst := h.from_
    generalize p.from_ = f at hf hmem hfirst
    cases f with
    | nil => exact absurd hmem List.not_mem_nil
    | cons x f =>
      rcases List.mem_cons.1 hmem with rfl | hmem
      · rfl
      · have hx := hfirst x rfl
        have hle := (hf.2.2.mem hmem).1
        omega
  rw [Place.entry, if_pos (h.found.2 ⟨e, hhead, hin.1⟩), hhead]

theorem HasObjects.offset_lt (h : HasObjects share e) (hlt : e.start < e.end_) : e.offset + (e.end_ - e.start) < 4294967296 := by
  obtain ⟨s, -, hrest⟩ := h
  split at hrest
  · obtain ⟨hsound, hmax, hcov, -⟩ := hrest
    have hlast := hcov (e.offset + (e.end_ - e.start) - 1) (by omega)
    by_contra hge
    exact hlast (mappingAt_high (fun t ht => (hsound.ordered.mem ht).2.2) (by dsimp only; omega))
  · exact hrest

structure PartOf (share : Nat → Map) (e : Entry) (start end_ : Nat) (part : Part) : Prop where
  address : part.address = start
  size : part.size = min e.end_ end_ - start
  backs : ∀ a, start ≤ a ∧ a < min e.end_ end_ →
    ∃ offset, backingOf share (e.mapping a) = some (part.object, offset) ∧ part.Asks offset

theorem partOf_spec (hb : BeginsIn start end_ e) (hend : end_ < 4294967296) (hend' : e.end_ < 4294967296)
    (hobj : HasObjects share e) (hone : InOne share start end_ e) :
    ∃ part share', partOf share e start end_ = some (part, share') ∧ SameMaps share share' ∧ PartOf share e start end_ part := by
  obtain ⟨hle, hlt, hlt'⟩ := hb
  have hoffset := hobj.offset_lt (hle.trans_lt hlt)
  have hoff : vmOffset (e.offset + vmSub start e.start) = e.offset + (start - e.start) := by
    rw [vmSub_eq hle (by omega)]
    exact Nat.mod_eq_of_lt (by omega)
  have hmin : (if end_ ≤ e.end_ then end_ else e.end_) = min e.end_ end_ := by
    rw [min_comm]
    rfl
  have hsize : vmSub (min e.end_ end_) start = min e.end_ end_ - start := vmSub_eq (by omega) (by omega)
  have hat : ∀ a, start ≤ a ∧ a < min e.end_ end_ → (e.mapping a).offset = e.offset + (a - e.start) := fun a ha =>
    Nat.mod_eq_of_lt (by omega)
  obtain ⟨s, hs, hrest⟩ := hobj
  unfold partOf
  rw [hs, Option.bind_some, hoff, hmin, hsize]
  cases hmap : e.isAMap with
  | false =>
    rw [if_neg Bool.false_ne_true]
    have hpend : vmOffset (e.offset + (start - e.start) + (min e.end_ end_ - start)) =
        e.offset + (start - e.start) + (min e.end_ end_ - start) := Nat.mod_eq_of_lt (by omega)
    refine ⟨_, share, rfl, .refl share, rfl, rfl, fun a ha => ⟨e.offset + (a - e.start), ?_, .inr ?_⟩⟩
    · rw [backingOf, hat a ha, Entry.mapping, hs, Option.bind_some, hmap, if_neg Bool.false_ne_true]
    · dsimp only
      rw [hpend]
      omega
  | true =>
    rw [hmap, if_pos rfl] at hrest
    obtain ⟨hsound, hmax, -, hobjects⟩ := hrest
    obtain ⟨t, ht, htstart, htend⟩ := hone hmap s hs
    rw [max_eq_left hle] at htstart
    obtain ⟨hsplits, hint, hlook, hlive⟩ := hsound.lookupEntry_spec (e.offset + (start - e.start))
    have hin : t.start ≤ e.offset + (start - e.start) ∧ e.offset + (start - e.start) < t.end_ := by omega
    have howner := hsplits.owner hsound.ordered ht hin
    have htmax : t.end_ ≤ (share s).maxOffset := (hsound.ordered.mem ht).2.2
    obtain ⟨htobj, htoff⟩ := hobjects t ht
    obtain ⟨object, htobj⟩ := Option.ne_none_iff_exists'.1 htobj
    generalize (share s).lookupEntry (e.offset + (start - e.start)) = r at hlook howner
    obtain ⟨p, smap⟩ := r
    dsimp only at hlook howner ⊢
    subst hlook
    have htsize : vmSub t.end_ (e.offset + (start - e.start)) = t.end_ - (e.offset + (start - e.start)) :=
      vmSub_eq hin.2.le (by omega)
    have hpoff : vmOffset (t.offset + vmSub (e.offset + (start - e.start)) t.start) =
        t.offset + (e.offset + (start - e.start) - t.start) := by
      rw [vmSub_eq hin.1 (by omega)]
      exact Nat.mod_eq_of_lt (by omega)
    have hpend : vmOffset (t.offset + (e.offset + (start - e.start) - t.start) + (min e.end_ end_ - start)) =
        t.offset + (e.offset + (start - e.start) - t.start) + (min e.end_ end_ - start) := Nat.mod_eq_of_lt (by omega)
    rw [if_pos rfl, howner, Option.bind_some, htobj, Option.map_some, htsize, if_neg (by omega), hpoff, hpend]
    refine ⟨_, _, rfl, fun s' => ?_, rfl, rfl, fun a ha => ?_⟩
    · by_cases heq : s' = s
      · subst heq
        rw [Function.update_self]
        exact ⟨rfl, rfl, fun h => h.setHint hlive⟩
      · rw [Function.update_of_ne heq]
        exact ⟨rfl, rfl, id⟩
    · have hina : t.start ≤ e.offset + (a - e.start) ∧ e.offset + (a - e.start) < t.end_ := by omega
      refine ⟨t.offset + (e.offset + (a - e.start) - t.start), ?_, .inr ⟨?_, ?_⟩⟩
      · rw [backingOf, hat a ha, Entry.mapping, hs, Option.bind_some, hmap, if_pos rfl,
          mapping_in hsound.ordered ht hina, Option.bind_some, Entry.mapping, htobj, Option.map_some, vmOffset,
          Nat.mod_eq_of_lt (by omega)]
      · dsimp only
        omega
      · dsimp only
        omega

variable {syncio invalidate : Bool} {new : List PageCall}

theorem partsFor_pageCalls : partsFor a (pageCalls e part syncio invalidate) =
    if e.writable = true ∧ part.address ≤ a ∧ a < part.address + part.size then [part] else [] := by
  have hremove : partsFor a (if invalidate then [.remove part] else []) = [] := by
    cases invalidate with
    | false => rfl
    | true => rfl
  rw [pageCalls, partsFor_append, hremove, List.append_nil]
  cases e.writable with
  | false => rw [if_neg Bool.false_ne_true, if_neg fun h => Bool.false_ne_true h.1]; rfl
  | true =>
    rw [if_pos rfl]
    by_cases h : part.address ≤ a ∧ a < part.address + part.size
    · simp [partsFor, h]
    · simp [partsFor, h]

theorem PartOf.asks (hp : PartOf share e start end_ part) (hb : BeginsIn start end_ e)
    (hlater : ∀ a < min e.end_ end_, partsFor a new = []) (hrest : Asks share (min e.end_ end_) end_ rest new) :
    Asks share start end_ (e :: rest) (pageCalls e part syncio invalidate ++ new) ∧
      ∀ a < start, partsFor a (pageCalls e part syncio invalidate ++ new) = [] := by
  obtain ⟨hle, hlt, hlt'⟩ := hb
  have hto : part.address + part.size = min e.end_ end_ := by
    rw [hp.address, hp.size]
    omega
  constructor
  · intro a ha x hx hw
    rw [mappingAt_cons] at hx
    rw [partsFor_append, partsFor_pageCalls, hto, hp.address]
    rcases Nat.lt_or_ge a (min e.end_ end_) with hin | hout
    · rw [if_pos (by omega)] at hx
      obtain rfl := Option.some.inj hx
      obtain ⟨offset, hback, hasks⟩ := hp.backs a ⟨ha.1, hin⟩
      refine ⟨part, offset, ?_, hback, hasks⟩
      rw [if_pos ⟨hw, ha.1, hin⟩, hlater a hin, List.append_nil]
    · rw [if_neg (by omega)] at hx
      obtain ⟨part', offset, hparts, hback, hasks⟩ := hrest a ⟨hout, ha.2⟩ x hx hw
      refine ⟨part', offset, ?_, hback, hasks⟩
      rw [if_neg (by omega), hparts, List.nil_append]
  · intro a ha
    rw [partsFor_append, partsFor_pageCalls, hp.address, if_neg (by omega), hlater a (by omega), List.append_nil]

theorem InOne.later {start' : Nat} (h : InOne share start end_ e) (hle : start ≤ e.start) (hle' : start' ≤ e.start) :
    InOne share start' end_ e := by
  unfold InOne at h ⊢
  rw [max_eq_right hle] at h
  rw [max_eq_right hle']
  exact h

theorem cleanLoop_spec (m : Map) (answer : List PageCall → Part → Bool) (syncio invalidate : Bool) (calls : List PageCall)
    (ho : Ordered lo hi (e :: rest)) (hhi : hi < 4294967296) (hend : end_ < 4294967296) (hb : BeginsIn start end_ e)
    (hmap : Mapped start end_ (e :: rest)) (hlast : ¬ EndsInLast end_ (e :: rest)) (hobj : ∀ x ∈ e :: rest, HasObjects share x)
    (hone : ∀ x ∈ e :: rest, x.start < end_ → InOne share start end_ x) :
    ∃ ret visits new share', m.cleanLoop answer end_ syncio invalidate (e :: rest) start calls share =
        some (ret, visits, calls ++ new, share') ∧
      (∀ v ∈ visits, ∃ x ∈ e :: rest, v = some x.addr) ∧ ret ≠ .invalidAddress ∧
      (ret = .success → Asks share start end_ (e :: rest) new ∧ ∀ a < start, partsFor a new = []) := by
  induction rest generalizing e start lo share calls with
  | nil => exact absurd ⟨e, rfl, hb.start_le.trans_lt hb.lt⟩ hlast
  | cons e' rest ih =>
    have hlt := hb.start_le.trans_lt hb.lt
    have hehi : e.end_ ≤ hi := ho.2.2.le
    obtain ⟨part, share₁, hpart, hsame, hp⟩ := partOf_spec hb hend (hehi.trans_lt hhi) (hobj e List.mem_cons_self)
      (hone e List.mem_cons_self hlt)
    have hself : ∀ v ∈ [some e.addr], ∃ x ∈ e :: e' :: rest, v = some x.addr :=
      List.forall_mem_singleton.2 ⟨e, List.mem_cons_self, rfl⟩
    rw [Map.cleanLoop, if_pos hlt, hpart, Option.bind_some]
    dsimp only
    by_cases hfail : (e.writable && !answer calls part) = true
    · rw [if_pos hfail]
      exact ⟨.failure, _, [.clean part syncio], share₁, rfl, hself, nofun, nofun⟩
    rw [if_neg hfail]
    have hlt' := hb.lt_end
    have hltend := hb.lt
    have hnext : vmOffset (start + part.size) = min e.end_ end_ := by
      rw [hp.size, vmOffset]
      omega
    rw [hnext]
    rcases Nat.lt_or_ge e.end_ end_ with hmore | hdone
    · obtain ⟨hhead, hmap'⟩ := mapped_next ho hb hmap hmore
      rw [min_eq_left hmore.le]
      have hone' : ∀ x ∈ e' :: rest, x.start < end_ → InOne share₁ e.end_ end_ x := fun x hx hxlt => by
        have hle := (ho.2.2.mem hx).1
        exact hsame.inOne ((hone x (List.mem_cons_of_mem _ hx) hxlt).later (hlt'.le.trans hle) hle)
      obtain ⟨ret, visits, new, share', hrun, hvisits, hret, hasks⟩ := ih (calls ++ pageCalls e part syncio invalidate) ho.2.2
        (.next ho (Option.some.inj hhead) hmore) hmap' (endsInLast_cons.not.1 hlast)
        (fun x hx => hsame.hasObjects (hobj x (List.mem_cons_of_mem _ hx))) hone'
      rw [hrun, List.append_assoc]
      refine ⟨ret, _, _, share', rfl, List.forall_mem_cons.2 ⟨⟨e, List.mem_cons_self, rfl⟩, fun v hv => ?_⟩, hret, fun hok => ?_⟩
      · obtain ⟨x, hx, heq⟩ := hvisits v hv
        exact ⟨x, List.mem_cons_of_mem _ hx, heq⟩
      · obtain ⟨hrest, hlow⟩ := hasks hok
        have hmin : min e.end_ end_ = e.end_ := min_eq_left hmore.le
        refine hp.asks hb ?_ ?_
        · rw [hmin]
          exact hlow
        · rw [hmin]
          exact hsame.asks hrest
    · rw [min_eq_right hdone, Map.cleanLoop, if_neg (Nat.not_lt.2 (hdone.trans ho.2.2.1))]
      have hnone : Asks share (min e.end_ end_) end_ (e' :: rest) [] := fun a ha => by omega
      refine ⟨.success, _, pageCalls e part syncio invalidate, share₁, rfl, hself, nofun, fun _ => ?_⟩
      rw [← List.append_nil (pageCalls e part syncio invalidate)]
      exact hp.asks hb (fun _ _ => rfl) hnone

/-- What should come of a range: `vm_map_clean` returns, having visited entries of the map alone, with an error for unmapped
addresses, and else each page that can be written has been asked for once. -/
def CleansRange (m : Map) (share : Nat → Map) (start end_ : Nat) (run : Nat → Option Cleaned) : Prop :=
  ∃ fuel r, run fuel = some r ∧ (∀ v ∈ r.visits, ∃ k ∈ addrs m.entries, v = some k) ∧
    (r.ret = .invalidAddress ↔ ¬ Mapped start end_ m.entries) ∧ (r.ret = .success → Asks share start end_ m.entries r.calls)

theorem Splits.mapping {p : Place} (h : Splits start l p) (ha : start ≤ a) : mappingAt l a = mappingAt p.from_ a := by
  rw [← h.eq, mappingAt_append, mappingAt_high h.before ha, Option.none_or]

theorem Splits.unmapped {p : Place} (h : Splits start l p) (ho : Ordered lo hi l) (hfound : ¬ p.found = true) :
    mappingAt l start = none := by
  rw [h.mapping (le_refl _)]
  rw [← h.eq] at ho
  obtain ⟨mid, -, hf⟩ := ordered_append.1 ho
  have hnot := fun hhead => hfound (h.found.2 hhead)
  generalize p.from_ = f at hf hnot
  cases f with
  | nil => rfl
  | cons e f =>
    have hstart : start < e.start := Nat.lt_of_not_le fun hle => hnot ⟨e, rfl, hle⟩
    refine mappingAt_low (List.forall_mem_cons.2 ⟨le_refl _, fun x hx => ?_⟩) hstart
    exact hf.2.1.le.trans (hf.2.2.mem hx).1

/-- Where the parts of entries lie in one entry of their sharing maps, `vm_map_clean` is right but for the ranges that end in the
last entry of the map. -/
theorem clean_correct_iff (h : Good m) (hlow : m.minOffset ≤ start) (hlt : start < end_) (hhigh : end_ ≤ m.maxOffset)
    (hmax : m.maxOffset < 4294967296) (hobj : ∀ e ∈ m.entries, HasObjects share e)
    (hone : Mapped start end_ m.entries → ∀ e ∈ m.entries, e.start < end_ → start < e.end_ → InOne share start end_ e)
    (answer : List PageCall → Part → Bool) (syncio invalidate : Bool) :
    CleansRange m share start end_ (m.clean share answer start end_ syncio invalidate) ↔
      ¬ (Mapped start end_ m.entries ∧ EndsInLast end_ m.entries) := by
  have herror : KernReturn.invalidAddress ≠ .success := by decide
  obtain ⟨hs, hint, hm', hlive, -⟩ := lookupEntry_spec h start
  unfold CleansRange Map.clean
  rw [rangeCheck_eq hlow hlt.le hhigh]
  dsimp only
  generalize m.lookupEntry start = r at hs hm'
  obtain ⟨p, m'⟩ := r
  dsimp only at hs hm' ⊢
  by_cases hfound : p.found = true
  swap
  · have hhole : ¬ Mapped start end_ m.entries := fun hmap => hmap start ⟨le_refl _, hlt⟩ (hs.unmapped h.ordered hfound)
    simp only [if_neg hfound]
    exact iff_of_true ⟨0, _, rfl, fun _ hv => absurd hv List.not_mem_nil, iff_of_true rfl hhole, fun hok => absurd hok herror⟩ fun hin => hhole hin.1
  obtain ⟨e, he, hstart⟩ := hs.found.1 hfound
  obtain ⟨rest, hfrom⟩ : ∃ rest, p.from_ = e :: rest := by
    generalize p.from_ = f at he
    cases f with
    | nil => cases he
    | cons x f => exact ⟨f, by rw [Option.some.inj he]⟩
  have hb : BeginsIn start end_ e := ⟨hstart, hs.from_ e he, hlt⟩
  have heq := hs.eq
  have hmapping := fun a (ha : start ≤ a) => hs.mapping ha
  rw [hfrom] at heq hmapping
  simp only [if_pos hfound, hfrom]
  obtain ⟨mid, -, ho⟩ := ordered_append.1 (heq ▸ h.ordered)
  have hmem : ∀ x ∈ e :: rest, x ∈ m.entries := fun x hx => heq ▸ List.mem_append_right _ hx
  have hmapped : Mapped start end_ m.entries ↔ Mapped start end_ (e :: rest) :=
    forall_congr' fun a => imp_congr_right fun ha => by rw [hmapping a ha.1]
  have hlast : EndsInLast end_ m.entries ↔ EndsInLast end_ (e :: rest) := by
    rw [EndsInLast, EndsInLast, ← heq, List.getLast?_append, List.getLast?_cons, Option.some_or]
  have hreal : ∀ {visits : List (Option Nat)}, (∀ v ∈ visits, ∃ x ∈ e :: rest, v = some x.addr) →
      ∀ v ∈ visits, ∃ k ∈ addrs m.entries, v = some k := fun hvisits v hv => by
    obtain ⟨x, hx, hxv⟩ := hvisits v hv
    exact ⟨x.addr, List.mem_map_of_mem (hmem x hx), hxv⟩
  rw [hmapped, hlast]
  by_cases hmap : Mapped start end_ (e :: rest)
  swap
  · obtain ⟨visits, hrun, hvisits⟩ := checkHoles_hole (m := m') ho hb hmap (Nat.lt_succ_self _)
    refine iff_of_true ⟨rest.length + 1, ⟨.invalidAddress, visits, [], m', share⟩, ?_, hreal hvisits, iff_of_true rfl hmap,
      fun hok => absurd hok herror⟩ fun hin => hmap hin.1
    rw [hrun]
    rfl
  by_cases hends : EndsInLast end_ (e :: rest)
  · refine iff_of_false ?_ (not_not.2 ⟨hmap, hends⟩)
    rintro ⟨fuel, r, hrun, hvisits, -⟩
    have hmin : m'.minOffset < end_ := hm' ▸ hlow.trans_lt hlt
    obtain ⟨⟨hole, visits⟩, hcheck, hrest⟩ := Option.bind_eq_some_iff.1 hrun
    have hnone : none ∈ visits := checkHoles_header ho hmin hb hmap hends hcheck
    have hnone' : none ∈ r.visits := by
      cases hole with
      | true =>
        obtain rfl := Option.some.inj hrest
        exact hnone
      | false =>
        obtain ⟨r', -, rfl⟩ := Option.map_eq_some_iff.1 hrest
        exact List.mem_append_left _ hnone
    obtain ⟨k, -, hk⟩ := hvisits none hnone'
    cases hk
  · have hhi : m.maxOffset < 4294967296 := hmax
    have hone' : ∀ x ∈ e :: rest, x.start < end_ → InOne share start end_ x := fun x hx hxlt => by
      have hend : start < x.end_ := by
        rcases List.mem_cons.1 hx with rfl | hx
        · exact hb.lt_end
        · have hx' := ho.2.2.mem hx
          have := hb.lt_end
          omega
      exact hone (hmapped.2 hmap) x (hmem x hx) hxlt hend
    obtain ⟨visits, hcheck, hvisits⟩ := checkHoles_clear (m := m') ho hb hmap hends (Nat.lt_succ_self _)
    obtain ⟨ret, visits', new, share', hrun, hvisits', hret, hasks⟩ := cleanLoop_spec m' answer syncio invalidate [] ho hmax
      (hhigh.trans_lt hmax) hb hmap hends (fun x hx => hobj x (hmem x hx)) hone'
    refine iff_of_true ⟨rest.length + 1, ⟨ret, visits ++ visits', new, m', share'⟩, ?_, hreal fun v hv => ?_,
      iff_of_false hret (not_not.2 hmap), fun hok a ha x hx hw => ?_⟩ fun hin => hends hin.2
    · rw [hcheck, Option.bind_some, if_neg Bool.false_ne_true, hrun]
      rfl
    · rcases List.mem_append.1 hv with hv | hv
      · exact hvisits v hv
      · exact hvisits' v hv
    · rw [hmapping a ha.1] at hx
      exact (hasks hok).1 a ha x hx hw

theorem partlyShared_hasObjects : ∀ e ∈ (partlyShared .copy).entries, HasObjects (fun _ => onePage) e := by
  refine List.forall_mem_cons.2 ⟨⟨0, rfl, ?_⟩, List.forall_mem_singleton.2 ⟨5, rfl, (by decide : 0 + (12288 - 8192) < 4294967296)⟩⟩
  refine ⟨onePage_sound, (by decide : 8192 < 4294967296), fun a ha => ?_, List.forall_mem_singleton.2 ⟨Option.some_ne_none 4, ?_⟩⟩
  · exact (mappingAt_cons.trans (if_pos ha)).trans_ne (Option.some_ne_none _)
  · exact (by decide : 0 + (8192 - 4096) < 4294967296)

theorem clean_correct_iff_shared : CleansRange (partlyShared .copy) (fun _ => onePage) 4096 8192
    ((partlyShared .copy).clean (fun _ => onePage) (fun _ _ => true) 4096 8192 true false) := by
  have hone : ∀ e ∈ (partlyShared .copy).entries, e.start < 8192 → 4096 < e.end_ → InOne (fun _ => onePage) 4096 8192 e := by
    refine List.forall_mem_cons.2 ⟨fun _ _ _ _ _ => ⟨_, List.mem_cons_self, by decide, by decide⟩,
      List.forall_mem_singleton.2 fun h => absurd h (by decide)⟩
  have hlast : ¬ EndsInLast 8192 (partlyShared .copy).entries := by
    rintro ⟨e, he, hlt⟩
    obtain rfl := Option.some.inj he
    exact absurd hlt (by decide)
  exact (clean_correct_iff (partlyShared_good .copy) (by decide) (by decide) (by decide) (by decide) partlyShared_hasObjects
    (fun _ => hone) (fun _ _ => true) true false).2 fun h => hlast h.2

def oneEntry : Map := ((mapInit 4096 65536).insert (fun _ _ => false) (some 1) 0 4096 8192).2

theorem oneEntry_cycle (fuel : Nat) : oneEntry.checkHoles 8192 fuel oneEntry.entries = none ∧ oneEntry.checkHoles 8192 fuel [] = none := by
  induction fuel with
  | zero => exact ⟨rfl, rfl⟩
  | succ fuel ih =>
    constructor
    · have hstep : oneEntry.checkHoles 8192 (fuel + 1) oneEntry.entries =
          (oneEntry.checkHoles 8192 fuel []).map fun r => (r.1, some 0 :: r.2) := rfl
      rw [hstep, ih.2]
      rfl
    · have hstep : oneEntry.checkHoles 8192 (fuel + 1) [] =
          (oneEntry.checkHoles 8192 fuel oneEntry.entries).map fun r => (r.1, none :: r.2) := rfl
      rw [hstep, ih.1]
      rfl

/-- The whole of the last entry is never cleaned: the first pass goes round. -/
theorem clean_never_returns :
    ¬ ∃ fuel r, oneEntry.clean (fun _ => oneEntry) (fun _ _ => true) 4096 8192 true false fuel = some r := by
  rintro ⟨fuel, r, hrun⟩
  have hstep : oneEntry.clean (fun _ => oneEntry) (fun _ _ => true) 4096 8192 true false fuel =
      (oneEntry.checkHoles 8192 fuel oneEntry.entries).bind fun r => if r.1 then _ else _ := rfl
  rw [hstep, (oneEntry_cycle fuel).1] at hrun
  cases hrun

end NetBSD.Vm
