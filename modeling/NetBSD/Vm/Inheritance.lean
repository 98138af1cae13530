import NetBSD.Vm.Forked

/-!
# Forked maps

The child inherits what the entries of the parent say, and the `ref_count`s stay right. Its size is that of the parent, whatever
is not inherited.
-/

namespace NetBSD.Vm

variable {st st' : ForkState} {old : Entry} {l l' pieces : List Entry} {c : Copier} {lo hi a s : Nat} {parent : Map}

def inherited (l : List Entry) : Nat := total (l.filter fun e => e.inheritance ≠ .none)

theorem inherited_cons : inherited (old :: l) = (if old.inheritance = .none then 0 else old.size) + inherited l := by
  unfold inherited
  rw [List.filter_cons]
  by_cases h : old.inheritance = .none
  · rw [if_pos h, if_neg (by simp [h]), Nat.zero_add]
  · rw [if_neg h, if_pos (by simp [h]), total_cons]

theorem inherited_eq_total (ho : Ordered lo hi l) : inherited l ≤ total l ∧
    (inherited l = total l ↔ ∀ e ∈ l, e.inheritance ≠ .none) := by
  induction l generalizing lo with
  | nil => exact ⟨le_refl _, fun _ _ he => absurd he List.not_mem_nil, fun _ => rfl⟩
  | cons e l ih =>
    obtain ⟨hle, hiff⟩ := ih ho.2.2
    have hsize : 0 < e.size := Nat.sub_pos_of_lt ho.2.1
    rw [inherited_cons, total_cons]
    by_cases h : e.inheritance = .none
    · rw [if_pos h]
      refine ⟨by omega, fun heq => by omega, fun hall => absurd h (hall e List.mem_cons_self)⟩
    · rw [if_neg h]
      refine ⟨Nat.add_le_add_left hle _, ?_⟩
      rw [Nat.add_left_cancel_iff, hiff, List.forall_mem_cons]
      exact ⟨fun hall => ⟨h, hall⟩, fun hall => hall.2⟩

structure Inherited (lo hi : Nat) (st : ForkState) (l l' : List Entry) (st' : ForkState) (pieces : List Entry) : Prop where
  reshape : ∀ fresh, Reshape fresh 0 l l'
  entries : st'.child.entries = st.child.entries ++ pieces
  sound : Sound st'.child
  bounds : st'.child.minOffset = st.child.minOffset ∧ st'.child.maxOffset = st.child.maxOffset
  ordered : Ordered lo hi pieces
  inherits : ∀ a, Inherits (mappingAt l a) (mappingAt l' a) (mappingAt pieces a)
  total : total pieces = inherited l
  refCount : ∀ s, st'.count s + refs s l = st.count s + refs s l' + refs s pieces

theorem Inherited.nil (hsound : Sound st.child) (hle : lo ≤ hi) : Inherited lo hi st [] [] st [] where
  reshape _ := .refl []
  entries := (List.append_nil _).symm
  sound := hsound
  bounds := ⟨rfl, rfl⟩
  ordered := hle
  inherits _ := rfl
  total := rfl
  refCount _ := rfl

theorem Forked.cons {old' : Entry} {st₁ : ForkState} {first rest : List Entry} (h : Forked st old old' st₁ first)
    (h' : Inherited old.end_ hi st₁ l l' st' rest) (ho : Ordered lo hi (old :: l)) :
    Inherited lo hi st (old :: l) (old' :: l') st' (first ++ rest) where
  reshape fresh := by
    have hhead := (h.same.reshape fresh).append [] l
    have htail := (h'.reshape fresh).append [old'] []
    rw [List.append_nil, List.append_nil] at htail
    exact hhead.trans htail
  entries := by rw [h'.entries, h.entries, List.append_assoc]
  sound := h'.sound
  bounds := ⟨h'.bounds.1.trans h.bounds.1, h'.bounds.2.trans h.bounds.2⟩
  ordered := (ordered_append.2 ⟨old.end_, h.ordered, h'.ordered⟩).lower ho.1
  inherits a := by
    have htail : Ordered old.end_ hi l' := (h'.reshape 0).ordered _ _ ho.2.2
    rw [← List.singleton_append, ← List.singleton_append (l := l'), mappingAt_append, mappingAt_append, mappingAt_append]
    rcases Nat.lt_or_ge a old.end_ with ha | ha
    · rw [mappingAt_low (fun e he => (ho.2.2.mem he).1) ha, mappingAt_low (fun e he => (htail.mem he).1) ha,
        mappingAt_low (fun e he => (h'.ordered.mem he).1) ha, Option.or_none, Option.or_none, Option.or_none]
      exact h.inherits a
    · have hone : ∀ e ∈ [old], e.end_ ≤ old.end_ := List.forall_mem_singleton.2 (le_refl _)
      have hone' : ∀ e ∈ [old'], e.end_ ≤ old.end_ := List.forall_mem_singleton.2 h.same.end_.le
      rw [mappingAt_high hone ha, mappingAt_high hone' ha, mappingAt_high (fun e he => (h.ordered.mem he).2.2) ha,
        Option.none_or, Option.none_or, Option.none_or]
      exact h'.inherits a
  total := by rw [total_append, h.total, h'.total, inherited_cons]
  refCount s := by
    have hfirst := h.refCount s
    have hrest := h'.refCount s
    rw [refs_cons, refs_cons (l := l'), refs_append]
    omega

theorem forkLoop_spec (c : Copier) (st : ForkState) (hsound : Sound st.child) (hmax : st.child.maxOffset < 4294967296)
    (ho : Ordered lo hi l) (hok : ∀ e ∈ l, ShareOk st e) (hends : ∀ e ∈ st.child.entries, e.end_ ≤ lo)
    (hlow : st.child.minOffset ≤ lo) (hhigh : hi ≤ st.child.maxOffset)
    (hprot : ∀ e ∈ l, e.protection &&& e.maxProtection = e.protection) :
    ∃ l' st' pieces, ForkState.forkLoop c l st = some (l', st') ∧ Inherited lo hi st l l' st' pieces := by
  induction l generalizing lo st with
  | nil => exact ⟨[], st, [], rfl, .nil hsound ho⟩
  | cons old l ih =>
    obtain ⟨hold, hlt, hrest⟩ := ho
    obtain ⟨old', st₁, first, hrun, hf⟩ := forkEntry_spec c hsound hmax (hok old List.mem_cons_self)
      (fun e he => (hends e he).trans hold) (hlow.trans hold) hlt (hrest.le.trans hhigh) (hprot old List.mem_cons_self)
    have hends₁ : ∀ e ∈ st₁.child.entries, e.end_ ≤ old.end_ := by
      intro e he
      rw [hf.entries] at he
      rcases List.mem_append.1 he with he | he
      · exact ((hends e he).trans hold).trans hlt.le
      · exact (hf.ordered.mem he).2.2
    obtain ⟨l', st', rest, hrun', hf'⟩ := ih st₁ hf.sound (hf.bounds.2 ▸ hmax) hrest
      (fun e he => hf.shareOk e (hok e (List.mem_cons_of_mem _ he))) hends₁
      (hf.bounds.1 ▸ (hlow.trans hold).trans hlt.le) (hf.bounds.2 ▸ hhigh) fun e he => hprot e (List.mem_cons_of_mem _ he)
    refine ⟨old' :: l', st', first ++ rest, ?_, hf.cons hf' ⟨hold, hlt, hrest⟩⟩
    rw [ForkState.forkLoop, hrun, Option.bind_some]
    dsimp only
    rw [hrun']
    rfl

/-- The child that a fork should make: a map that is well formed, in which what is inherited is mapped, and each sharing map counts
the entries that refer to it, those of `others` among them. -/
structure ForkedWell (parent parent' : Map) (others : Nat → Nat) (st : ForkState) : Prop where
  good : Good st.child
  inherits : ∀ a, Inherits (mappingAt parent.entries a) (mappingAt parent'.entries a) (mappingAt st.child.entries a)
  refCount : ∀ s < st.nextShare, st.refCount s = others s + refs s parent'.entries + refs s st.child.entries

def forkStart (parent : Map) (share : Nat → Map) (refCount : Nat → Nat) (nextShare : Nat) : ForkState :=
  { child := mapInit parent.minOffset parent.maxOffset, share := share, refCount := refCount, nextShare := nextShare }

theorem vmspaceFork_spec (c : Copier) {share : Nat → Map} {refCount others : Nat → Nat} {nextShare : Nat} (h : Good parent)
    (hmax : parent.maxOffset < 4294967296) (hok : ∀ e ∈ parent.entries, ShareOk (forkStart parent share refCount nextShare) e)
    (hcount : ∀ s, (if s < nextShare then refCount s else 0) = others s + refs s parent.entries) :
    ∃ parent' st', vmspaceFork c parent share refCount nextShare = some (parent', st') ∧ Good parent' ∧
      Sound st'.child ∧ st'.child.size = parent.size ∧ total st'.child.entries = inherited parent.entries ∧
      (∀ a, Inherits (mappingAt parent.entries a) (mappingAt parent'.entries a) (mappingAt st'.child.entries a)) ∧
      ∀ s < st'.nextShare, st'.refCount s = others s + refs s parent'.entries + refs s st'.child.entries := by
  have hle : parent.minOffset ≤ parent.maxOffset := h.ordered.le
  obtain ⟨l', st', pieces, hrun, hin⟩ := forkLoop_spec c (forkStart parent share refCount nextShare)
    (mapInit_good hle).sound hmax h.ordered hok (fun _ he => absurd he List.not_mem_nil) (le_refl _) (le_refl _) h.prot
  unfold vmspaceFork
  dsimp only
  unfold forkStart at hrun
  rw [hrun]
  have hentries : st'.child.entries = pieces := hin.entries
  refine ⟨_, _, rfl, ?_, ?_, rfl, ?_, ?_, fun s hs => ?_⟩
  · exact h.recut (hin.reshape parent.fresh)
  · exact hin.sound
  · exact (congrArg total hentries).trans hin.total
  · intro a
    dsimp only
    rw [hentries]
    exact hin.inherits a
  · have hsum := hin.refCount s
    have hstart : (forkStart parent share refCount nextShare).count s = others s + refs s parent.entries := hcount s
    rw [hstart, ForkState.count, if_pos hs] at hsum
    dsimp only
    rw [hentries]
    omega

/-- A fork makes the child that it should where every entry is inherited, and no other one. -/
theorem vmspaceFork_inheritsAll (c : Copier) {share : Nat → Map} {refCount others : Nat → Nat} {nextShare : Nat}
    (h : Good parent) (hmax : parent.maxOffset < 4294967296)
    (hok : ∀ e ∈ parent.entries, ShareOk (forkStart parent share refCount nextShare) e)
    (hcount : ∀ s, (if s < nextShare then refCount s else 0) = others s + refs s parent.entries) :
    ∃ parent' st', vmspaceFork c parent share refCount nextShare = some (parent', st') ∧
      (ForkedWell parent parent' others st' ↔ ∀ e ∈ parent.entries, e.inheritance ≠ .none) := by
  obtain ⟨parent', st', hrun, -, hsound, hsize, htotal, hinherits, hrefs⟩ := vmspaceFork_spec c h hmax hok hcount
  refine ⟨parent', st', hrun, ?_⟩
  have hiff := (inherited_eq_total h.ordered).2
  constructor
  · intro hwell
    refine hiff.1 ?_
    calc inherited parent.entries
        = total st'.child.entries := htotal.symm
      _ = st'.child.size := hwell.good.size.symm
      _ = parent.size := hsize
      _ = total parent.entries := h.size
  · intro hall
    refine ⟨hsound.good ?_, hinherits, hrefs⟩
    calc st'.child.size
        = parent.size := hsize
      _ = total parent.entries := h.size
      _ = inherited parent.entries := (hiff.2 hall).symm
      _ = total st'.child.entries := htotal.symm

def sameObject : Copier where
  object e := (e.object, e.offset, true)
  fault e := e.addr

def partlyShared (inheritance : Inherit) : Map :=
  { mapInit 4096 65536 with
    entries := [⟨0, 4096, 8192, some 0, 4096, true, false, false, protDefault, protDefault, .share, 1⟩,
      ⟨1, 8192, 12288, some 5, 0, false, false, false, protDefault, protDefault, inheritance, 0⟩]
    nentries := 2
    size := 8192
    fresh := 2 }

theorem partlyShared_good (inheritance : Inherit) : Good (partlyShared inheritance) where
  ordered := ⟨le_refl 4096, (by decide : 4096 < 8192), le_refl 8192, (by decide : 8192 < 12288), (by decide : 12288 ≤ 65536)⟩
  nodup := (by decide : [0, 1].Nodup)
  old := (by decide : ∀ x ∈ [0, 1], x < 2)
  nentries := rfl
  size := (by decide : 8192 = 8192 - 4096 + (12288 - 8192 + 0))
  hint _ hx := absurd hx (Option.not_mem_none _)
  firstFree _ hx := absurd hx (Option.not_mem_none _)
  prot := List.forall_mem_cons.2 ⟨by decide, List.forall_mem_singleton.2 (by decide : protDefault &&& protDefault = protDefault)⟩

def onePage : Map := (mapInit 4096 8192).linkLast ⟨0, 4096, 8192, some 4, 0, false, false, false, protDefault, protDefault, .share, 0⟩

def oneOther (s : Nat) : Nat := if s = 0 then 1 else 0

theorem onePage_sound : Sound onePage :=
  have hempty : Sound (mapInit 4096 8192) := (mapInit_good (by decide)).sound
  hempty.link ⟨0, 4096, 8192, some 4, 0, false, false, false, protDefault, protDefault, .share, 0⟩ (le_refl 4096)
    (fun _ he => absurd he List.not_mem_nil) (by decide) (le_refl 8192) rfl (by decide)

theorem partlyShared_shareOk (inheritance : Inherit) : ∀ e ∈ (partlyShared inheritance).entries,
    ShareOk (forkStart (partlyShared inheritance) (fun _ => onePage) (fun _ => 2) 1) e := by
  refine List.forall_mem_cons.2 ⟨fun _ => ⟨0, Nat.one_pos, rfl, onePage_sound, (by decide : 8192 < 4294967296), fun a ha => ?_⟩,
    List.forall_mem_singleton.2 fun h => Bool.noConfusion h⟩
  exact ⟨_, mappingAt_cons.trans (if_pos ha), rfl⟩

theorem partlyShared_refs (inheritance : Inherit) (s : Nat) : refs s (partlyShared inheritance).entries = oneOther s := by
  rw [partlyShared, refs_cons, refs_one, refs_one, oneOther]
  simp [eq_comm]

theorem vmspaceFork_inheritsAll_shared : ∃ parent' st',
    vmspaceFork sameObject (partlyShared .copy) (fun _ => onePage) (fun _ => 2) 1 = some (parent', st') ∧
      ForkedWell (partlyShared .copy) parent' oneOther st' := by
  have hcount : ∀ s, (if s < 1 then 2 else 0) = oneOther s + refs s (partlyShared .copy).entries := by
    intro s
    rw [partlyShared_refs, oneOther]
    simp only [Nat.lt_one_iff]
    split
    · rfl
    · rfl
  obtain ⟨parent', st', hrun, hiff⟩ := vmspaceFork_inheritsAll sameObject (partlyShared_good .copy) (by decide)
    (partlyShared_shareOk .copy) hcount
  exact ⟨parent', st', hrun, hiff.2 (by decide)⟩

/-- The size counts an entry that is not inherited. -/
theorem vmspaceFork_size_wrong : ∃ parent' st',
    vmspaceFork sameObject (partlyShared .none) (fun _ => onePage) (fun _ => 2) 1 = some (parent', st') ∧
      st'.child.size = 8192 ∧ total st'.child.entries = 4096 ∧ ¬ ForkedWell (partlyShared .none) parent' oneOther st' := by
  refine ⟨_, _, rfl, rfl, by decide, fun h => ?_⟩
  exact absurd h.good.size (by decide)

end NetBSD.Vm
