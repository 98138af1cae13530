import NetBSD.Vm.Fork
import NetBSD.Vm.Range

/-!
# Copies from sharing maps

`vm_map_copy` clips the entries of both maps at each other's ends, so that the addresses that are mapped stay the same.
-/

namespace NetBSD.Vm

variable {l l' src dst rest : List Entry} {e s d : Entry} {c : Copier} {lo hi hi' start end_ fresh a : Nat}

def Keeps (x y : Mapping) : Prop := y.isAMap = x.isAMap ∧ y.inheritance = x.inheritance

theorem Keeps.refl (x : Mapping) : Keeps x x := ⟨rfl, rfl⟩

theorem Keeps.trans (x y z : Mapping) (h : Keeps x y) (h' : Keeps y z) : Keeps x z := ⟨h'.1.trans h.1, h'.2.trans h.2⟩

structure Kept (fresh k : Nat) (l l' : List Entry) : Prop where
  reshape : Reshape fresh k l l'
  keeps : Related Keeps l l'

theorem Recut.kept {k : Nat} (h : Recut fresh k l l') : Kept fresh k l l' := ⟨h.toReshape, .of_eq Keeps.refl h.mapping⟩

theorem Kept.trans {k k' : Nat} {l'' : List Entry} (h : Kept fresh k l l') (h' : Kept (fresh + k) k' l' l'') :
    Kept fresh (k + k') l l'' :=
  ⟨h.reshape.trans h'.reshape, h.keeps.trans Keeps.trans h'.keeps⟩

theorem Kept.append {k : Nat} (h : Kept fresh k l l') (before after : List Entry) :
    Kept fresh k (before ++ l ++ after) (before ++ l' ++ after) :=
  ⟨h.reshape.append before after,
    ((Related.of_eq Keeps.refl fun _ => rfl).append h.keeps).append (.of_eq Keeps.refl fun _ => rfl)⟩

theorem Kept.cons {k : Nat} (h : Kept fresh k l l') (e : Entry) : Kept fresh k (e :: l) (e :: l') := by
  have := h.append [e] []
  rwa [List.append_nil, List.append_nil] at this

theorem SamePlace.kept {e' : Entry} (h : SamePlace e e') (hmap : e'.isAMap = e.isAMap) (hinherit : e'.inheritance = e.inheritance)
    (fresh : Nat) (l : List Entry) : Kept fresh 0 (e :: l) (e' :: l) :=
  ⟨(h.reshape fresh).append [] l,
    (Related.one h.start h.end_ fun _ => ⟨hmap, hinherit⟩).append (.of_eq Keeps.refl fun _ => rfl)⟩

theorem copier_src (c : Copier) (s d : Entry) : SamePlace s (c.entry s d).1 ∧ (c.entry s d).1.isAMap = s.isAMap ∧
    (c.entry s d).1.inheritance = s.inheritance := by
  unfold Copier.entry
  dsimp only
  split
  · exact ⟨⟨rfl, rfl, rfl, rfl, rfl⟩, rfl, rfl⟩
  · exact ⟨⟨rfl, rfl, rfl, rfl, rfl⟩, rfl, rfl⟩

theorem copier_dst (c : Copier) (s d : Entry) : SamePlace d (c.entry s d).2 ∧ (c.entry s d).2.isAMap = d.isAMap ∧
    (c.entry s d).2.inheritance = d.inheritance := by
  unfold Copier.entry
  dsimp only
  split
  · exact ⟨⟨rfl, rfl, rfl, rfl, rfl⟩, rfl, rfl⟩
  · exact ⟨⟨rfl, rfl, rfl, rfl, rfl⟩, rfl, rfl⟩

theorem clipEndIn_spec (fresh : Nat) (rest : List Entry) (hend : e.start < end_) :
    ∃ k, (clipEndIn e end_ fresh rest).2.1 = fresh + k ∧
      Recut fresh k (e :: rest) ((clipEndIn e end_ fresh rest).1 :: (clipEndIn e end_ fresh rest).2.2) ∧
      (clipEndIn e end_ fresh rest).1.start = e.start ∧ (clipEndIn e end_ fresh rest).1.end_ = min e.end_ end_ ∧
      (clipEndIn e end_ fresh rest).1.isAMap = e.isAMap := by
  by_cases h : end_ < e.end_
  · rw [clipEndIn, Entry.clipEnd, if_pos h]
    exact ⟨1, rfl, (recut_two hend h (.swap _ _ _)).append [] rest, rfl, (min_eq_right h.le).symm, rfl⟩
  · rw [clipEndIn, Entry.clipEnd, if_neg h]
    exact ⟨0, rfl, .refl _, rfl, (min_eq_left (Nat.le_of_not_lt h)).symm, rfl⟩

theorem head_covered (ho : Ordered start hi l) (h : mappingAt l start ≠ none) : ∃ e rest, l = e :: rest ∧ e.start = start := by
  cases l with
  | nil => exact absurd rfl h
  | cons e rest =>
    refine ⟨e, rest, rfl, ?_⟩
    by_contra hne
    have hlt : start < e.start := lt_of_le_of_ne ho.1 (Ne.symm hne)
    have hrest : mappingAt rest start = none := mappingAt_low (fun e' he' => (ho.2.2.mem he').1) (hlt.trans ho.2.1)
    rw [mappingAt_cons, if_neg fun hin => absurd hin.1 (Nat.not_le.2 hlt)] at h
    exact h hrest

def Covered (start end_ : Nat) (l : List Entry) : Prop := ∀ a, start ≤ a ∧ a < end_ → ∃ x ∈ mappingAt l a, x.isAMap = false

theorem Covered.head (h : Covered start end_ l) (ho : Ordered start hi l) (hlt : start < end_) :
    ∃ e rest, l = e :: rest ∧ e.start = start ∧ e.isAMap = false := by
  obtain ⟨x, hx, hmap⟩ := h start ⟨le_refl _, hlt⟩
  obtain ⟨e, rest, rfl, hstart⟩ := head_covered ho (Option.ne_none_iff_exists'.2 ⟨x, hx⟩)
  rw [mappingAt_cons, if_pos ⟨hstart.le, hstart ▸ ho.2.1⟩] at hx
  exact ⟨e, rest, rfl, hstart, (congrArg Mapping.isAMap (Option.some.inj hx)).trans hmap⟩

theorem Covered.tail (h : Covered start end_ l) (heq : ∀ a, mappingAt (e :: rest) a = mappingAt l a) (hle : start ≤ e.end_) :
    Covered e.end_ end_ rest := by
  intro a ha
  obtain ⟨x, hx, hmap⟩ := h a ⟨hle.trans ha.1, ha.2⟩
  rw [← heq, mappingAt_cons, if_neg fun hin => absurd hin.2 (Nat.not_lt.2 ha.1)] at hx
  exact ⟨x, hx, hmap⟩

theorem copyLoop_spec (c : Copier) {srcEnd dstEnd srcStart dstStart : Nat} (fuel srcFresh dstFresh : Nat)
    (hos : Ordered srcStart hi src) (hod : Ordered dstStart hi' dst) (hlen : srcEnd + dstStart = dstEnd + srcStart)
    (hle : srcStart ≤ srcEnd) (hfuel : srcEnd ≤ srcStart + fuel) (hsrc : Covered srcStart srcEnd src)
    (hdst : Covered dstStart dstEnd dst) :
    ∃ src' sk dst' dk, copyLoop c srcEnd dstEnd fuel srcStart srcFresh dstFresh src dst =
      some (src', srcFresh + sk, dst', dstFresh + dk) ∧ Kept srcFresh sk src src' ∧ Kept dstFresh dk dst dst' := by
  induction fuel generalizing srcStart dstStart srcFresh dstFresh src dst with
  | zero =>
    unfold copyLoop
    rw [if_neg (by omega)]
    exact ⟨src, 0, dst, 0, rfl, (Recut.refl src).kept, (Recut.refl dst).kept⟩
  | succ fuel ih =>
    unfold copyLoop
    by_cases hlt : srcStart < srcEnd
    swap
    · rw [if_neg hlt]
      exact ⟨src, 0, dst, 0, rfl, (Recut.refl src).kept, (Recut.refl dst).kept⟩
    rw [if_pos hlt]
    obtain ⟨s, src, rfl, rfl, hsmap⟩ := hsrc.head hos hlt
    obtain ⟨d, dst, rfl, rfl, hdmap⟩ := hdst.head hod (by omega)
    dsimp only
    obtain ⟨k₁, hf₁, hr₁, hs₁, he₁, hm₁⟩ := clipEndIn_spec srcFresh src hlt
    generalize clipEndIn s srcEnd srcFresh src = r at *
    obtain ⟨s₁, f₁, src₁⟩ := r
    have hlt' : d.start < dstEnd := by omega
    obtain ⟨k₂, hf₂, hr₂, hs₂, he₂, hm₂⟩ := clipEndIn_spec dstFresh dst hlt'
    generalize clipEndIn d dstEnd dstFresh dst = r at *
    obtain ⟨d₁, g₁, dst₁⟩ := r
    dsimp only at hf₁ hr₁ hs₁ he₁ hm₁ hf₂ hr₂ hs₂ he₂ hm₂ ⊢
    subst hf₁ hf₂
    have hsne := hos.2.1
    have hdne := hod.2.1
    have hclip : s₁.start < s₁.start + (d₁.end_ - d₁.start) := by omega
    obtain ⟨k₃, hf₃, hr₃, hs₃, he₃, hm₃⟩ := clipEndIn_spec (srcFresh + k₁) src₁ hclip
    generalize clipEndIn s₁ (s₁.start + (d₁.end_ - d₁.start)) (srcFresh + k₁) src₁ = r at *
    obtain ⟨s₂, f₃, src₂⟩ := r
    dsimp only at hf₃ hr₃ hs₃ he₃ hm₃ ⊢
    have hclip' : d₁.start < d₁.start + (s₂.end_ - s₂.start) := by omega
    obtain ⟨k₄, hf₄, hr₄, hs₄, he₄, hm₄⟩ := clipEndIn_spec (dstFresh + k₂) dst₁ hclip'
    generalize clipEndIn d₁ (d₁.start + (s₂.end_ - s₂.start)) (dstFresh + k₂) dst₁ = r at *
    obtain ⟨d₂, g₃, dst₂⟩ := r
    dsimp only at hf₄ hr₄ hs₄ he₄ hm₄ ⊢
    subst hf₃ hf₄
    have hsmap' : s₂.isAMap = false := hm₃.trans (hm₁.trans hsmap)
    have hdmap' : d₂.isAMap = false := hm₄.trans (hm₂.trans hdmap)
    rw [hsmap', hdmap', if_neg (by decide)]
    have hsr := hr₁.trans hr₃
    have hdr := hr₂.trans hr₄
    have hos' := (hsr.ordered _ _ hos).2.2
    have hod' := (hdr.ordered _ _ hod).2.2
    obtain ⟨src', sk, dst', dk, hrun, hsk, hdk⟩ := ih (srcFresh + k₁ + k₃) (dstFresh + k₂ + k₄) hos' hod' (by omega) (by omega)
      (by omega) (hsrc.tail hsr.mapping (by omega)) (hdst.tail hdr.mapping (by omega))
    rw [hrun]
    rw [Nat.add_assoc] at hsk hdk
    obtain ⟨hsame, hmap, hinherit⟩ := copier_src c s₂ d₂
    obtain ⟨hsame', hmap', hinherit'⟩ := copier_dst c s₂ d₂
    have hs := (hsr.kept.trans (hsk.cons s₂)).trans (hsame.kept hmap hinherit _ src')
    have hd := (hdr.kept.trans (hdk.cons d₂)).trans (hsame'.kept hmap' hinherit' _ dst')
    refine ⟨_, k₁ + k₃ + sk, _, k₂ + k₄ + dk, ?_, hs, hd⟩
    simp only [Option.map_some, Nat.add_assoc]

def Sound (m : Map) : Prop := Good { m with size := total m.entries }

variable {m : Map} {before : List Entry} {start : Nat}

theorem Good.sound (h : Good m) : Sound m :=
  ⟨h.ordered, h.nodup, h.old, h.nentries, rfl, h.hint, h.firstFree, h.prot⟩

theorem Sound.good (h : Sound m) (hsize : m.size = total m.entries) : Good m :=
  ⟨h.ordered, h.nodup, h.old, h.nentries, hsize, h.hint, h.firstFree, h.prot⟩

theorem Sound.recut (h : Sound m) {k : Nat} (hr : Reshape m.fresh k m.entries l') :
    Sound { m with entries := l', nentries := m.nentries + k, fresh := m.fresh + k } :=
  (Good.recut h hr).sound

theorem Sound.setHint (h : Sound m) {hint : Option Nat} (hlive : ∀ x ∈ hint, x ∈ addrs m.entries) :
    Sound { m with hint := hint } :=
  (Good.setHint h hlive).sound

theorem lookupEntry_size (m : Map) (x address : Nat) : ({ m with size := x } : Map).lookupEntry address =
    ((m.lookupEntry address).1, { (m.lookupEntry address).2 with size := x }) := by
  have hsplit : ({ m with size := x } : Map).split m.hint = m.split m.hint := by
    cases m.hint with
    | none => rfl
    | some k => rfl
  unfold Map.lookupEntry
  dsimp only
  rw [hsplit]
  generalize m.split m.hint = r
  obtain ⟨before, cur⟩ := r
  cases cur with
  | nil => rfl
  | cons cur rest =>
    dsimp only
    split
    · split
      · rfl
      · rfl
    · rfl

theorem lookupEntry_hint (m : Map) (address : Nat) : ∃ hint, (m.lookupEntry address).2 = { m with hint := hint } := by
  unfold Map.lookupEntry
  generalize m.split m.hint = r
  obtain ⟨before, cur⟩ := r
  cases cur with
  | nil => exact ⟨_, rfl⟩
  | cons cur rest =>
    dsimp only
    split
    · split
      · exact ⟨m.hint, rfl⟩
      · exact ⟨_, rfl⟩
    · exact ⟨_, rfl⟩

theorem Sound.lookupEntry_spec (h : Sound m) (address : Nat) : Splits address m.entries (m.lookupEntry address).1 ∧
    ∃ hint, (m.lookupEntry address).2 = { m with hint := hint } ∧ ∀ x ∈ hint, x ∈ addrs m.entries := by
  obtain ⟨hs, hint, hm', hlive, -⟩ := Vm.lookupEntry_spec h address
  obtain ⟨hint', hm''⟩ := lookupEntry_hint m address
  rw [lookupEntry_size] at hs hm'
  have hsame : (m.lookupEntry address).2.hint = hint := congrArg Map.hint hm'
  rw [hm''] at hsame
  obtain rfl : hint' = hint := hsame
  exact ⟨hs, hint', hm'', hlive⟩

theorem seek_size (m : Map) (x start : Nat) :
    ({ m with size := x } : Map).seek start = ((m.seek start).1, { (m.seek start).2 with size := x }) := by
  unfold Map.seek
  rw [lookupEntry_size]
  generalize m.lookupEntry start = r
  obtain ⟨⟨found, before, from_⟩, m'⟩ := r
  match found, from_ with
  | false, _ => rfl
  | true, [] => rfl
  | true, entry :: rest =>
    dsimp only
    generalize entry.clipStart start m'.fresh = c
    match c with
    | (none, _) => rfl
    | (some new, _) => rfl

theorem takeWhile_split {q : Entry → Bool} {b f : List Entry} (hb : ∀ x ∈ b, q x = true) (hf : ∀ x ∈ f.head?, q x = false) :
    (b ++ f).takeWhile q = b := by
  rw [List.takeWhile_append_of_pos hb]
  cases f with
  | nil => exact List.append_nil b
  | cons x f => rw [List.takeWhile_cons, hf x rfl, if_neg Bool.false_ne_true, List.append_nil]

theorem Sound.seek_at (h : Sound m) (hl : m.entries = before ++ e :: rest) :
    ∃ hint, m.seek e.start = (⟨true, before, e :: rest⟩, { m with hint := hint }) ∧ ∀ x ∈ hint, x ∈ addrs m.entries := by
  obtain ⟨hs, hint, hm', hlive⟩ := h.lookupEntry_spec e.start
  have ho := h.ordered
  dsimp only at ho
  rw [hl] at ho
  obtain ⟨mid, hb, hmid, hne, -⟩ := ordered_append.1 ho
  unfold Map.seek
  generalize m.lookupEntry e.start = r at hs hm'
  obtain ⟨⟨found, before', from_⟩, m'⟩ := r
  obtain rfl : m' = { m with hint := hint } := hm'
  have heq : before' ++ from_ = before ++ e :: rest := hs.eq.trans hl
  have hbefore : before' = before := by
    have h1 : (before' ++ from_).takeWhile (fun x => x.end_ ≤ e.start) = before' :=
      takeWhile_split (fun x hx => decide_eq_true (hs.before x hx)) fun x hx => decide_eq_false (Nat.not_le.2 (hs.from_ x hx))
    have h2 : (before ++ e :: rest).takeWhile (fun x => x.end_ ≤ e.start) = before :=
      takeWhile_split (fun x hx => decide_eq_true ((hb.mem hx).2.2.trans hmid)) fun x hx =>
        decide_eq_false (Nat.not_le.2 (Option.some.inj hx ▸ hne))
    rw [← h1, heq, h2]
  subst hbefore
  obtain rfl : from_ = e :: rest := List.append_cancel_left heq
  have hfound : found = true := hs.found.2 ⟨e, rfl, le_refl _⟩
  subst hfound
  have hclip : e.clipStart e.start m.fresh = (none, e) := by rw [Entry.clipStart, if_neg (lt_irrefl _)]
  dsimp only
  rw [hclip]
  exact ⟨hint, rfl, hlive⟩

theorem mapping_mem (ho : Ordered lo hi l) (he : e ∈ l) : mappingAt l e.start = some (e.mapping e.start) := by
  induction l generalizing lo with
  | nil => exact absurd he List.not_mem_nil
  | cons x l ih =>
    rw [mappingAt_cons]
    rcases List.mem_cons.1 he with rfl | he
    · rw [if_pos ⟨le_refl _, ho.2.1⟩]
    · rw [if_neg fun hin => absurd hin.2 (Nat.not_lt.2 (ho.2.2.mem he).1), ih ho.2.2 he]

theorem copyShared_spec (c : Copier) {child share : Map} {new : Entry} {srcAddr : Nat} (hchild : Sound child) (hshare : Sound share)
    (hmax : child.maxOffset < 4294967296) (hmax' : share.maxOffset < 4294967296) (hl : child.entries = before ++ [new])
    (hmap : new.isAMap = false) (hcov : Covered srcAddr (srcAddr + (new.end_ - new.start)) share.entries) :
    ∃ child' share' pieces k, copyShared c child share new.start (new.end_ - new.start) srcAddr = some (child', share') ∧
      child'.entries = before ++ pieces ∧ Kept child.fresh k [new] pieces ∧ Sound child' ∧
      (child'.minOffset = child.minOffset ∧ child'.maxOffset = child.maxOffset) ∧
      Sound share' ∧ share'.maxOffset = share.maxOffset ∧ Related Keeps share.entries share'.entries := by
  have hmem : new ∈ child.entries := hl ▸ List.mem_append_right _ List.mem_cons_self
  obtain ⟨-, hne, hend⟩ := hchild.ordered.mem hmem
  dsimp only at hend
  have hdstEnd : vmOffset (new.start + (new.end_ - new.start)) = new.end_ := by
    unfold vmOffset
    omega
  have hin : srcAddr + (new.end_ - new.start) ≤ share.maxOffset := by
    obtain ⟨x, hx, -⟩ := hcov (srcAddr + (new.end_ - new.start) - 1) (by omega)
    by_contra hlt
    have hnone := mappingAt_high (fun e he => (hshare.ordered.mem he).2.2) (by dsimp only; omega :
      ({ share with size := total share.entries } : Map).maxOffset ≤ srcAddr + (new.end_ - new.start) - 1)
    rw [hnone] at hx
    exact Option.not_mem_none _ hx
  have hsrcEnd : vmOffset (srcAddr + (new.end_ - new.start)) = srcAddr + (new.end_ - new.start) :=
    Nat.mod_eq_of_lt (by omega)
  have hp := seek_spec hshare srcAddr
  rw [seek_size] at hp
  obtain ⟨hint, hseek, hlive⟩ := hchild.seek_at hl
  have hfound : (share.seek srcAddr).1.found = true := by
    by_contra hnot
    obtain ⟨x, hx, -⟩ := hcov srcAddr (by omega)
    rw [hp.unfound (Bool.eq_false_of_not_eq_true hnot)] at hx
    exact Option.not_mem_none _ hx
  unfold copyShared
  rw [hdstEnd, hsrcEnd, hseek]
  dsimp only
  rw [if_neg (by omega)]
  generalize share.seek srcAddr = r at hp hfound
  obtain ⟨p, share₁⟩ := r
  dsimp only at hp hfound ⊢
  rw [hfound, Bool.and_self, if_pos rfl]
  have ho := hp.good.ordered
  dsimp only at ho
  rw [← hp.eq] at ho
  obtain ⟨lo, -, hf⟩ := ordered_append.1 ho
  have hos := (hf.higher (le_max_right srcAddr _)).raise (le_max_left _ _) hp.from_
  have hod : Ordered new.start new.end_ [new] := ⟨le_refl _, hne, le_refl _⟩
  have hsrc : Covered srcAddr (srcAddr + (new.end_ - new.start)) p.from_ := fun a ha => by
    rw [hp.from_mapping ha.1]
    exact hcov a ha
  have hdst : Covered new.start new.end_ [new] := fun a ha => by
    rw [mappingAt_cons, if_pos ha]
    exact ⟨_, rfl, hmap⟩
  obtain ⟨srcs, sk, pieces, dk, hrun, hsk, hdk⟩ := copyLoop_spec c (new.end_ - new.start) share₁.fresh child.fresh hos hod
    (by omega) (by omega) (by omega) hsrc hdst
  rw [hrun]
  have hchild' := (hdk.append before []).reshape
  have hshare' := hsk.append p.before []
  rw [List.append_nil, List.append_nil] at hchild' hshare'
  rw [← hl] at hchild'
  have heq : p.before ++ p.from_ = share₁.entries := hp.eq
  rw [heq] at hshare'
  refine ⟨_, _, pieces, dk, rfl, rfl, hdk, ?_, ⟨rfl, rfl⟩, ?_, hp.maxOffset, ?_⟩
  · rw [Map.replace]
    dsimp only
    rw [Nat.add_sub_cancel_left]
    exact (hchild.setHint hlive).recut hchild'
  · rw [Map.replace]
    dsimp only
    rw [Nat.add_sub_cancel_left]
    exact Sound.recut (m := share₁) hp.good.sound hshare'.reshape
  · exact (Related.of_eq Keeps.refl hp.mapping).trans Keeps.trans hshare'.keeps

end NetBSD.Vm
