import NetBSD.Vm.Copies
import NetBSD.Vm.Range

/-!
# The map of a child

An entry of the parent makes entries of the child for the same addresses or none, and its sharing map is counted for each entry
that refers to it.
-/

namespace NetBSD.Vm

variable {m : Map} {st st' : ForkState} {old old' : Entry} {l l' pieces before : List Entry} {c : Copier}
  {lo hi start end_ a s : Nat}

def refs (s : Nat) (l : List Entry) : Nat := l.countP fun e => e.isAMap && e.object = some s

def Inherits (x x' y : Option Mapping) : Prop :=
  match x with
  | none => y = none
  | some x =>
    match x.inheritance with
    | .none => y = none
    | .copy => ∃ w, y = some w
    | .share => ∃ z w, x' = some z ∧ y = some w ∧ z.isAMap = true ∧ w.isAMap = true ∧ w.object = z.object ∧
        w.offset = z.offset ∧ (x.isAMap = true → z.object = x.object ∧ z.offset = x.offset)

def ShareOk (st : ForkState) (e : Entry) : Prop :=
  e.isAMap = true → ∃ s < st.nextShare, e.object = some s ∧ Sound (st.share s) ∧ (st.share s).maxOffset < 4294967296 ∧
    Covered e.offset (e.offset + (e.end_ - e.start)) (st.share s).entries

theorem refs_append {l' : List Entry} : refs s (l ++ l') = refs s l + refs s l' := List.countP_append

theorem refs_cons : refs s (old :: l) = refs s [old] + refs s l := refs_append (l := [old])

theorem refs_of_objects (h : ∀ e ∈ l, e.isAMap = false) : refs s l = 0 :=
  List.countP_eq_zero.2 fun e he => by rw [h e he]; exact Bool.false_ne_true

theorem Sound.link (h : Sound m) (new : Entry) (hlow : m.minOffset ≤ new.start) (hends : ∀ e ∈ m.entries, e.end_ ≤ new.start)
    (hlt : new.start < new.end_) (hhigh : new.end_ ≤ m.maxOffset) (haddr : new.addr = m.fresh)
    (hprot : new.protection &&& new.maxProtection = new.protection) : Sound (m.linkLast new) :=
  (Good.add h (List.append_nil m.entries) hends (fun _ he => absurd he List.not_mem_nil) hlow hlt hhigh haddr hprot
    (fun _ hx => .inr hx : ∀ x ∈ m.firstFree, x = m.fresh ∨ x ∈ m.firstFree)).sound

def ForkState.count (st : ForkState) (s : Nat) : Nat := if s < st.nextShare then st.refCount s else 0

structure Forked (st : ForkState) (old old' : Entry) (st' : ForkState) (pieces : List Entry) : Prop where
  same : SamePlace old old'
  entries : st'.child.entries = st.child.entries ++ pieces
  sound : Sound st'.child
  bounds : st'.child.minOffset = st.child.minOffset ∧ st'.child.maxOffset = st.child.maxOffset
  ordered : Ordered old.start old.end_ pieces
  inherits : ∀ a, Inherits (mappingAt [old] a) (mappingAt [old'] a) (mappingAt pieces a)
  total : total pieces = if old.inheritance = .none then 0 else old.size
  nextShare : st.nextShare ≤ st'.nextShare
  refCount : ∀ s, st'.count s + refs s [old] = st.count s + refs s [old'] + refs s pieces
  shareOk : ∀ e, ShareOk st e → ShareOk st' e

theorem refs_one : refs s [old] = if old.isAMap = true ∧ old.object = some s then 1 else 0 := by
  rw [refs, List.countP_singleton]
  simp

theorem Inherits.gone {x : Mapping} (h : x.inheritance = .none) (x' : Option Mapping) : Inherits (some x) x' none := by
  unfold Inherits
  dsimp only
  rw [h]

theorem Inherits.copied {x : Mapping} (h : x.inheritance = .copy) (x' : Option Mapping) {y : Option Mapping} (hy : y ≠ none) :
    Inherits (some x) x' y := by
  unfold Inherits
  dsimp only
  rw [h]
  exact Option.ne_none_iff_exists'.1 hy

theorem Inherits.shared {x z w : Mapping} (h : x.inheritance = .share) (hz : z.isAMap = true) (hw : w.isAMap = true)
    (hobject : w.object = z.object) (hoffset : w.offset = z.offset)
    (hold : x.isAMap = true → z.object = x.object ∧ z.offset = x.offset) : Inherits (some x) (some z) (some w) := by
  unfold Inherits
  dsimp only
  rw [h]
  exact ⟨z, w, rfl, rfl, hz, hw, hobject, hoffset, hold⟩

theorem inherits_one (hsame : SamePlace old old') (hpieces : ∀ a, ¬ (old.start ≤ a ∧ a < old.end_) → mappingAt pieces a = none)
    (hin : ∀ a, old.start ≤ a ∧ a < old.end_ → Inherits (some (old.mapping a)) (some (old'.mapping a)) (mappingAt pieces a))
    (a : Nat) : Inherits (mappingAt [old] a) (mappingAt [old'] a) (mappingAt pieces a) := by
  rw [mappingAt_cons, mappingAt_cons, hsame.start, hsame.end_]
  by_cases ha : old.start ≤ a ∧ a < old.end_
  · rw [if_pos ha, if_pos ha]
    exact hin a ha
  · rw [if_neg ha]
    exact hpieces a ha

structure Shared (st : ForkState) (old : Entry) (r : Entry × ForkState) (s : Nat) : Prop where
  same : SamePlace old r.1
  inheritance : r.1.inheritance = old.inheritance
  isAMap : r.1.isAMap = true
  object : r.1.object = some s
  live : s < r.2.nextShare
  resolves : old.isAMap = true → r.1.object = old.object ∧ r.1.offset = old.offset
  child : r.2.child = st.child
  nextShare : st.nextShare ≤ r.2.nextShare
  refCount : ∀ s, r.2.count s + refs s [old] = st.count s + refs s [r.1]
  shareOk : ∀ e, ShareOk st e → ShareOk r.2 e

theorem shared_spec (hok : ShareOk st old) : ∃ s, Shared st old (st.shared old) s := by
  unfold ForkState.shared
  cases hmap : old.isAMap with
  | true =>
    obtain ⟨s, hs, hobject, -⟩ := hok hmap
    rw [if_pos rfl]
    exact ⟨s, ⟨rfl, rfl, rfl, rfl, rfl⟩, rfl, hmap, hobject, hs, fun _ => ⟨rfl, rfl⟩, rfl, le_refl _,
      fun _ => rfl, fun _ => id⟩
  | false =>
    rw [if_neg Bool.false_ne_true]
    refine ⟨st.nextShare, ⟨rfl, rfl, rfl, rfl, rfl⟩, rfl, rfl, rfl, Nat.lt_succ_self _, fun h => absurd (hmap.symm.trans h) (by decide),
      rfl, Nat.le_succ _, fun s => ?_, fun e he hemap => ?_⟩
    · rw [refs_of_objects (List.forall_mem_singleton.2 hmap), refs_one, ForkState.count, ForkState.count]
      dsimp only
      by_cases heq : s = st.nextShare
      · subst heq
        rw [Function.update_self, if_pos (Nat.lt_succ_self _), if_neg (lt_irrefl _), if_pos ⟨rfl, rfl⟩]
      · have hiff : s < st.nextShare + 1 ↔ s < st.nextShare := by omega
        rw [Function.update_of_ne heq, if_neg fun h : true = true ∧ _ => heq (Option.some.inj h.2).symm]
        simp only [hiff, Nat.add_zero]
    · obtain ⟨s, hs, hobject, hrest⟩ := he hemap
      refine ⟨s, Nat.lt_succ_of_lt hs, hobject, ?_⟩
      dsimp only
      rw [Function.update_of_ne hs.ne]
      exact hrest

theorem forkEntry_spec (c : Copier) (hsound : Sound st.child) (hmax : st.child.maxOffset < 4294967296) (hok : ShareOk st old)
    (hends : ∀ e ∈ st.child.entries, e.end_ ≤ old.start) (hlow : st.child.minOffset ≤ old.start) (hlt : old.start < old.end_)
    (hhigh : old.end_ ≤ st.child.maxOffset) (hprot : old.protection &&& old.maxProtection = old.protection) :
    ∃ old' st' pieces, st.forkEntry c old = some (old', st') ∧ Forked st old old' st' pieces := by
  have hrefl : SamePlace old old := ⟨rfl, rfl, rfl, rfl, rfl⟩
  have hlink : ∀ new : Entry, new.addr = st.child.fresh → new.start = old.start → new.end_ = old.end_ →
      new.protection = old.protection → new.maxProtection = old.maxProtection → Sound (st.child.linkLast new) :=
    fun new haddr hstart hend hp hm => hsound.link new (hstart ▸ hlow) (hstart ▸ hends) (hstart ▸ hend ▸ hlt) (hend ▸ hhigh) haddr
      (hp ▸ hm ▸ hprot)
  unfold ForkState.forkEntry
  cases hinherit : old.inheritance with
  | none =>
    refine ⟨old, st, [], rfl, hrefl, (List.append_nil _).symm, hsound, ⟨rfl, rfl⟩, hlt.le, ?_, ?_, le_refl _, ?_, fun _ => id⟩
    · exact inherits_one hrefl (fun _ _ => rfl) fun a ha => .gone hinherit _
    · rw [if_pos hinherit]
      rfl
    · exact fun s => rfl
  | share =>
    dsimp only
    obtain ⟨s, hsh⟩ := shared_spec hok
    generalize st.shared old = r at hsh
    obtain ⟨old₁, st₁⟩ := r
    obtain ⟨hsame, hinherit₁, hmap, hobject, hlive, hold, hchild, hnext, hcount, hshareOk⟩ := hsh
    dsimp only at hsame hinherit₁ hmap hobject hlive hold hchild hnext hcount hshareOk ⊢
    rw [hobject, Option.map_some, hchild, ← hobject]
    have hmaps : ∀ a, mappingAt [{ old₁ with addr := st.child.fresh, wiredCount := 0 }] a =
        if old.start ≤ a ∧ a < old.end_ then some (Entry.mapping { old₁ with addr := st.child.fresh, wiredCount := 0 } a)
        else none := fun a => by
      rw [mappingAt_cons, ← hsame.start, ← hsame.end_]
      rfl
    refine ⟨old₁, _, [{ old₁ with addr := st.child.fresh, wiredCount := 0 }], rfl, hsame, rfl,
      hlink _ rfl hsame.start hsame.end_ hsame.protection hsame.maxProtection, ⟨rfl, rfl⟩,
      ⟨hsame.start.ge, hsame.start ▸ hsame.end_ ▸ hlt, hsame.end_.le⟩, ?_, ?_, hnext, fun s' => ?_, fun e he => hshareOk e he⟩
    · refine inherits_one hsame (fun a ha => ?_) fun a ha => ?_
      · rw [hmaps, if_neg ha]
      · rw [hmaps, if_pos ha]
        refine .shared hinherit hmap hmap rfl rfl fun h => ?_
        obtain ⟨hobj, hoff⟩ := hold h
        refine ⟨hobj, ?_⟩
        rw [Entry.mapping, Entry.mapping, hoff, hsame.start]
    · rw [if_neg (by rw [hinherit]; exact Inherit.noConfusion), total_cons, Entry.size, hsame.start, hsame.end_]
      rfl
    · have hone : refs s' [{ old₁ with addr := st.child.fresh, wiredCount := 0 }] = if s' = s then 1 else 0 := by
        rw [refs_one]
        dsimp only
        rw [hmap, hobject]
        simp only [true_and, Option.some.injEq, eq_comm]
      rw [hone, ← hcount s', ForkState.count, ForkState.count]
      dsimp only
      by_cases heq : s' = s
      · subst heq
        rw [Function.update_self, if_pos rfl, if_pos hlive, if_pos hlive, Nat.add_right_comm]
      · rw [Function.update_of_ne heq, if_neg heq]
        rfl
  | copy =>
    dsimp only
    rw [← hinherit]
    cases hmap : old.isAMap with
    | false =>
      rw [if_neg Bool.false_ne_true]
      obtain ⟨hsame, hmap₁, -⟩ := copier_src c old { old with
        addr := st.child.fresh, wiredCount := 0, object := none, isAMap := false }
      obtain ⟨hsame', hmap₂, -⟩ := copier_dst c old { old with
        addr := st.child.fresh, wiredCount := 0, object := none, isAMap := false }
      generalize c.entry old { old with addr := st.child.fresh, wiredCount := 0, object := none, isAMap := false } = r at *
      obtain ⟨old', new⟩ := r
      dsimp only at hsame hsame' hmap₁ hmap₂ ⊢
      have hstart : new.start = old.start := hsame'.start
      have hend : new.end_ = old.end_ := hsame'.end_
      refine ⟨old', { st with child := st.child.linkLast new }, [new], rfl, hsame, rfl, hlink new hsame'.addr hstart hend hsame'.protection hsame'.maxProtection,
        ⟨rfl, rfl⟩, ⟨hstart.ge, hstart ▸ hend ▸ hlt, hend.le⟩, ?_, ?_, le_refl _, fun s => ?_, fun _ => id⟩
      · refine inherits_one hsame (fun a ha => ?_) fun a ha => .copied hinherit _ ?_
        · rw [mappingAt_cons, hstart, hend, if_neg ha]
          rfl
        · rw [mappingAt_cons, hstart, hend, if_pos ha]
          exact Option.some_ne_none _
      · rw [if_neg (by rw [hinherit]; exact Inherit.noConfusion), total_cons, Entry.size, hstart, hend]
        rfl
      · rw [refs_of_objects (List.forall_mem_singleton.2 hmap), refs_of_objects (List.forall_mem_singleton.2 (hmap₁.trans hmap)),
          refs_of_objects (List.forall_mem_singleton.2 hmap₂)]
        rfl
    | true =>
      rw [if_pos rfl]
      obtain ⟨s, hs, hobject, hshare, hmax', hcov⟩ := hok hmap
      have hnew := hlink { old with addr := st.child.fresh, wiredCount := 0, object := none, isAMap := false } rfl rfl rfl rfl rfl
      obtain ⟨child', share', pieces, k, hcopy, hentries, hkept, hchild', hbounds, hshare', hmax'', hkeeps⟩ :=
        copyShared_spec c hnew hshare hmax hmax' rfl rfl hcov
      dsimp only at hcopy
      rw [hobject, Option.bind_some, hcopy]
      have hone : ∀ a, mappingAt [{ old with addr := st.child.fresh, wiredCount := 0, object := none, isAMap := false }] a =
          if old.start ≤ a ∧ a < old.end_ then _ else none := fun a => mappingAt_cons
      have hordered : Ordered old.start old.end_ pieces :=
        hkept.reshape.ordered old.start old.end_ ⟨le_refl _, hlt, le_refl _⟩
      have hobjects : ∀ e ∈ pieces, e.isAMap = false := by
        intro e he
        have hrel := hkept.keeps e.start
        have hmem := hordered.mem he
        rw [mapping_mem hordered he, hone, if_pos ⟨hmem.1, hmem.2.1.trans_le hmem.2.2⟩] at hrel
        cases hrel with
        | some h => exact h.1
      refine ⟨old, { st with child := child', share := Function.update st.share s share' }, pieces, rfl, hrefl, hentries, hchild',
        hbounds, hordered, ?_, ?_, le_refl _, fun s' => ?_, fun e he hemap => ?_⟩
      · refine inherits_one hrefl (fun a ha => ?_) fun a ha => .copied hinherit _ fun hnone => ?_
        · have hrel := hkept.keeps a
          rw [hone, if_neg ha] at hrel
          generalize mappingAt pieces a = y at hrel
          cases hrel with
          | none => rfl
        · have hrel := hkept.keeps a
          rw [hone, if_pos ha, hnone] at hrel
          cases hrel
      · rw [if_neg (by rw [hinherit]; exact Inherit.noConfusion), hkept.reshape.total]
        rfl
      · rw [refs_of_objects hobjects]
        rfl
      · obtain ⟨s', hs', hobject', hsound', hmax₁, hcov'⟩ := he hemap
        refine ⟨s', hs', hobject', ?_⟩
        dsimp only
        by_cases heq : s' = s
        · subst heq
          rw [Function.update_self]
          refine ⟨hshare', hmax''.trans_lt hmax', fun a ha => ?_⟩
          obtain ⟨x, hx, hxmap⟩ := hcov' a ha
          have hrel := hkeeps a
          rw [Option.mem_def.1 hx] at hrel
          generalize mappingAt share'.entries a = y at hrel
          cases hrel with
          | some h => exact ⟨_, rfl, h.1.trans hxmap⟩
        · rw [Function.update_of_ne heq]
          exact ⟨hsound', hmax₁, hcov'⟩

end NetBSD.Vm
