import NetBSD.Vfs.Lockf
import Mathlib.Data.List.Flatten
import Mathlib.Tactic.SplitIfs
import Mathlib.Tactic.Push

/-!
# Ranges of bytes

What the locks of a list hold byte by byte, and what is left of them when one owner's share of a range is
cut out.
-/

namespace NetBSD.Vfs

variable {a b l p q r x : Span} {locks pre post : List Span}

theorem offT_eq {x : Int} (hlow : -1 ≤ x) (hhigh : x ≤ offMax) : offT x = x := by
  unfold offMax at hhigh
  unfold offT
  rw [Int.bmod_def]
  omega

namespace Span

def Covers (s : Span) (byte : Nat) : Prop :=
  s.lfStart ≤ byte ∧ (s.lfEnd = -1 ∨ byte ≤ s.lfEnd)

structure InRange (s : Span) : Prop where
  start_nonneg : 0 ≤ s.lfStart
  start_le : s.lfStart ≤ offMax
  end_le : s.lfEnd ≤ offMax
  ordered : s.lfEnd = -1 ∨ s.lfStart ≤ s.lfEnd

def Before (a b : Span) : Prop := a.lfEnd ≠ -1 ∧ a.lfEnd < b.lfStart

structure Within (p l : Span) : Prop where
  lfId : p.lfId = l.lfId
  lfType : p.lfType = l.lfType
  start_le : l.lfStart ≤ p.lfStart
  end_le : l.lfEnd = -1 ∨ (p.lfEnd ≠ -1 ∧ p.lfEnd ≤ l.lfEnd)

theorem Within.refl (l : Span) : l.Within l := by
  refine ⟨rfl, rfl, Int.le_refl _, ?_⟩
  by_cases h : l.lfEnd = -1
  · exact .inl h
  · exact .inr ⟨h, Int.le_refl _⟩

theorem Before.within (h : a.Before b) (hp : p.Within a) (hq : q.Within b) : p.Before q := by
  obtain ⟨hne, hlt⟩ := h
  have hstart := hq.start_le
  obtain hend | ⟨hne', hend⟩ := hp.end_le
  · exact absurd hend hne
  · exact ⟨hne', by omega⟩

theorem Before.not_covers (h : a.Before b) {byte : Nat} (ha : a.Covers byte) : ¬ b.Covers byte := by
  intro hb
  obtain ⟨hne, hlt⟩ := h
  have hhigh := ha.2.resolve_left hne
  have hlow := hb.1
  omega

theorem overlapCase_eq_none_iff : overlapCase r l = .none ↔ l.Before r ∨ r.Before l := by
  unfold overlapCase Before
  constructor
  · intro h
    split_ifs at h
    assumption
  · intro h
    rw [if_pos h]

theorem lfStart_lt_of_overlap (hcase : overlapCase r l ≠ .none) (h : l.Before x) :
    r.lfStart < x.lfStart := by
  have hnot : ¬ l.Before r := fun hb => hcase (overlapCase_eq_none_iff.mpr (.inl hb))
  obtain ⟨hne, hlt⟩ := h
  have hle : r.lfStart ≤ l.lfEnd := by
    by_contra hgt
    exact hnot ⟨hne, by omega⟩
  omega

theorem Before.of_overlap (h : l.Before x)
    (hcase : overlapCase r l = .equal ∨ overlapCase r l = .contains ∨ overlapCase r l = .endsAfter) :
    r.Before x := by
  obtain ⟨hne, hlt⟩ := h
  unfold overlapCase at hcase
  unfold Before
  split_ifs at hcase <;> simp at hcase <;> omega

def front (r l : Span) : List Span :=
  if l.lfStart < r.lfStart then [{ l with lfEnd := r.lfStart - 1 }] else []

def back (r l : Span) : List Span :=
  if r.lfEnd ≠ -1 ∧ (l.lfEnd = -1 ∨ r.lfEnd < l.lfEnd) then [{ l with lfStart := r.lfEnd + 1 }] else []

def cut (r l : Span) : List Span :=
  if l.lfId = r.lfId ∧ overlapCase r l ≠ .none then r.front l ++ r.back l else [l]

theorem cut_of_other (h : l.lfId ≠ r.lfId) : r.cut l = [l] := if_neg fun hc => h hc.1

theorem cut_of_clear (h : l.Before r ∨ r.Before l) : r.cut l = [l] :=
  if_neg fun hc => hc.2 (overlapCase_eq_none_iff.mpr h)

theorem cut_of_overlap (hid : l.lfId = r.lfId) (hcase : overlapCase r l ≠ .none) :
    r.cut l = r.front l ++ r.back l := if_pos ⟨hid, hcase⟩

theorem flatMap_cut_of_clear (h : ∀ l ∈ locks, l.lfId = r.lfId → l.Before r ∨ r.Before l) :
    locks.flatMap r.cut = locks := by
  induction locks with
  | nil => rfl
  | cons l locks ih =>
    have hcut : r.cut l = [l] := by
      by_cases hid : l.lfId = r.lfId
      · exact cut_of_clear (h l List.mem_cons_self hid)
      · exact cut_of_other hid
    rw [List.flatMap_cons, hcut, ih fun l hl => h l (List.mem_cons_of_mem _ hl)]
    rfl

def Spares (r l : Span) : Prop := r.lfEnd = offMax → l.lfId = r.lfId → l.lfEnd ≠ -1

def Fits (a b : Span) : Prop :=
  if a.lfId = b.lfId then a.Before b
  else a.lfType = .wrlck ∨ b.lfType = .wrlck → a.Before b ∨ b.Before a

end Span

structure Tidy (locks : List Span) : Prop where
  inRange : ∀ l ∈ locks, l.InRange
  fits : locks.Pairwise Span.Fits

namespace Span

theorem mem_front (hr : r.InRange) (hl : l.InRange) (hcase : overlapCase r l ≠ .none)
    (hp : p ∈ r.front l) : p.Within l ∧ p.InRange ∧ p.Before r := by
  unfold front at hp
  split_ifs at hp with hlt
  · obtain rfl := List.mem_singleton.mp hp
    have hnonneg := hl.start_nonneg
    have hbound := hr.start_le
    have hnot : ¬ l.Before r := fun hb => hcase (overlapCase_eq_none_iff.mpr (.inl hb))
    have hend : l.lfEnd = -1 ∨ r.lfStart ≤ l.lfEnd := by
      by_contra hc
      push Not at hc
      exact hnot ⟨hc.1, by omega⟩
    refine ⟨⟨rfl, rfl, Int.le_refl _, hend.imp id fun h => ⟨?_, ?_⟩⟩, ⟨hnonneg, hl.start_le, ?_, .inr ?_⟩, ?_, ?_⟩ <;>
      simp only <;> omega
  · exact absurd hp List.not_mem_nil

theorem mem_back (hr : r.InRange) (hl : l.InRange) (hid : l.lfId = r.lfId) (hspare : r.Spares l)
    (hcase : overlapCase r l ≠ .none) (hp : p ∈ r.back l) : p.Within l ∧ p.InRange ∧ r.Before p := by
  unfold back at hp
  split_ifs at hp with hlt
  · obtain rfl := List.mem_singleton.mp hp
    have hnonneg := hr.start_nonneg
    have hordered := hr.ordered
    have hbound := hr.end_le
    have hbound' := hl.end_le
    have hspare : r.lfEnd = offMax → l.lfEnd ≠ -1 := fun h => hspare h hid
    have hnot : ¬ r.Before l := fun hb => hcase (overlapCase_eq_none_iff.mpr (.inr hb))
    have hstart : l.lfStart ≤ r.lfEnd := by
      by_contra hc
      exact hnot ⟨hlt.1, by omega⟩
    have hend : l.lfEnd = -1 ∨ l.lfEnd ≠ -1 ∧ l.lfEnd ≤ l.lfEnd := by omega
    refine ⟨⟨rfl, rfl, ?_, hend⟩, ⟨?_, ?_, hl.end_le, ?_⟩, hlt.1, ?_⟩ <;> simp only <;> omega
  · exact absurd hp List.not_mem_nil

theorem mem_cut (hr : r.InRange) (hl : l.InRange) (hspare : r.Spares l) (hp : p ∈ r.cut l) :
    p.Within l ∧ p.InRange ∧ (p.lfId = r.lfId → p.Before r ∨ r.Before p) := by
  unfold cut at hp
  split_ifs at hp with hcase
  · obtain hp | hp := List.mem_append.mp hp
    · obtain ⟨hwithin, hrange, hbefore⟩ := mem_front hr hl hcase.2 hp
      exact ⟨hwithin, hrange, fun _ => .inl hbefore⟩
    · obtain ⟨hwithin, hrange, hbefore⟩ := mem_back hr hl hcase.1 hspare hcase.2 hp
      exact ⟨hwithin, hrange, fun _ => .inr hbefore⟩
  · obtain rfl := List.mem_singleton.mp hp
    refine ⟨.refl _, hl, fun hid => ?_⟩
    apply overlapCase_eq_none_iff.mp
    by_contra hne
    exact hcase ⟨hid, hne⟩

theorem exists_mem_cut_covers (hr : r.InRange) (hl : l.InRange) {byte : Nat} :
    (∃ p ∈ r.cut l, p.Covers byte) ↔ l.Covers byte ∧ ¬ (l.lfId = r.lfId ∧ r.Covers byte) := by
  by_cases hid : l.lfId = r.lfId
  · by_cases hcase : overlapCase r l = .none
    · rw [cut_of_clear (overlapCase_eq_none_iff.mp hcase)]
      have hclear : l.Covers byte → ¬ r.Covers byte := fun hl hr =>
        (overlapCase_eq_none_iff.mp hcase).elim (fun h => h.not_covers hl hr) fun h => h.not_covers hr hl
      constructor
      · rintro ⟨p, hp, hcov⟩
        obtain rfl := List.mem_singleton.mp hp
        exact ⟨hcov, fun h => hclear hcov h.2⟩
      · exact fun h => ⟨l, List.mem_singleton_self l, h.1⟩
    · have hmeets : ¬ (l.Before r ∨ r.Before l) := fun h => hcase (overlapCase_eq_none_iff.mpr h)
      have hordered := hr.ordered
      have hnonneg := hr.start_nonneg
      have hordered' := hl.ordered
      have hnonneg' := hl.start_nonneg
      unfold Before at hmeets
      rw [cut_of_overlap hid hcase]
      simp only [List.mem_append, or_and_right, exists_or, hid, true_and]
      unfold front back Covers
      split_ifs <;> simp <;> omega
  · rw [cut_of_other hid]
    simp [hid]

theorem Fits.within (h : a.Fits b) (hp : p.Within a) (hq : q.Within b) : p.Fits q := by
  unfold Fits at h ⊢
  rw [hp.lfId, hq.lfId, hp.lfType, hq.lfType]
  split_ifs at h ⊢ with hid
  · exact h.within hp hq
  · exact fun htype => (h htype).imp (·.within hp hq) (·.within hq hp)

theorem fits_cut (hr : r.InRange) (hl : l.InRange) (hspare : r.Spares l) : (r.cut l).Pairwise Fits := by
  unfold cut
  split_ifs with hcase
  · apply List.pairwise_append.mpr
    refine ⟨?_, ?_, fun p hp q hq => ?_⟩
    · unfold front
      split_ifs <;> simp
    · unfold back
      split_ifs <;> simp
    · obtain ⟨hp, -, hpr⟩ := mem_front hr hl hcase.2 hp
      obtain ⟨hq, -, hrq⟩ := mem_back hr hl hcase.1 hspare hcase.2 hq
      unfold Fits
      rw [if_pos (hp.lfId.trans hq.lfId.symm)]
      have hordered := hr.ordered
      exact ⟨hpr.1, by have := hpr.2; have := hrq.1; have := hrq.2; omega⟩
  · exact List.pairwise_singleton _ _

end Span

theorem Tidy.append_right (h : Tidy (pre ++ post)) : Tidy post :=
  ⟨fun l hl => h.inRange l (List.mem_append_right _ hl), (List.pairwise_append.mp h.fits).2.1⟩

theorem Tidy.tail (h : Tidy (l :: locks)) : Tidy locks :=
  ⟨fun k hk => h.inRange k (List.mem_cons_of_mem l hk), (List.pairwise_cons.mp h.fits).2⟩

theorem Tidy.before (h : Tidy (l :: locks)) (hx : x ∈ locks) (hid : x.lfId = l.lfId) : l.Before x := by
  have hfits := List.rel_of_pairwise_cons h.fits hx
  unfold Span.Fits at hfits
  rwa [if_pos hid.symm] at hfits

theorem Tidy.cut (h : Tidy locks) (hr : r.InRange) (hspare : ∀ l ∈ locks, r.Spares l) :
    Tidy (locks.flatMap r.cut) := by
  refine ⟨fun p hp => ?_, List.pairwise_flatMap.mpr ⟨fun l hl => ?_, ?_⟩⟩
  · obtain ⟨l, hl, hp⟩ := List.mem_flatMap.mp hp
    exact (Span.mem_cut hr (h.inRange l hl) (hspare l hl) hp).2.1
  · exact Span.fits_cut hr (h.inRange l hl) (hspare l hl)
  · apply List.Pairwise.imp_of_mem ?_ h.fits
    intro a b ha hb hab p hp q hq
    exact hab.within (Span.mem_cut hr (h.inRange a ha) (hspare a ha) hp).1
      (Span.mem_cut hr (h.inRange b hb) (hspare b hb) hq).1

theorem Tidy.insert (h : Tidy (pre ++ post)) (hr : r.InRange)
    (hpre : ∀ l ∈ pre, l.lfId = r.lfId → l.Before r) (hpost : ∀ l ∈ post, l.lfId = r.lfId → r.Before l)
    (hothers : ∀ l ∈ pre ++ post, l.lfId ≠ r.lfId → r.lfType = .wrlck ∨ l.lfType = .wrlck →
      l.Before r ∨ r.Before l) :
    Tidy (pre ++ r :: post) := by
  obtain ⟨hfitpre, hfitpost, hcross⟩ := List.pairwise_append.mp h.fits
  have hafter : ∀ l ∈ post, r.Fits l := by
    intro l hl
    unfold Span.Fits
    split_ifs with hid
    · exact hpost l hl hid.symm
    · exact fun htype => (hothers l (List.mem_append_right _ hl) (Ne.symm hid) htype).symm
  have hbefore : ∀ l ∈ pre, l.Fits r := by
    intro l hl
    unfold Span.Fits
    split_ifs with hid
    · exact hpre l hl hid
    · exact fun htype => hothers l (List.mem_append_left _ hl) hid htype.symm
  refine ⟨fun l hl => ?_, List.pairwise_append.mpr ⟨hfitpre, List.pairwise_cons.mpr ⟨hafter, hfitpost⟩, ?_⟩⟩
  · obtain hl | rfl | hl : l ∈ pre ∨ l = r ∨ l ∈ post := by simpa using hl
    · exact h.inRange l (List.mem_append_left _ hl)
    · exact hr
    · exact h.inRange l (List.mem_append_right _ hl)
  · intro a ha b hb
    obtain rfl | hb := List.mem_cons.mp hb
    · exact hbefore a ha
    · exact hcross a ha b hb

def Holds (locks : List Span) (owner : Nat) (type : LockType) (byte : Nat) : Prop :=
  ∃ l ∈ locks, l.lfId = owner ∧ l.lfType = type ∧ l.Covers byte

theorem holds_flatMap_cut (h : Tidy locks) (hr : r.InRange) (hspare : ∀ l ∈ locks, r.Spares l)
    {owner : Nat} {type : LockType} {byte : Nat} :
    Holds (locks.flatMap r.cut) owner type byte ↔
      Holds locks owner type byte ∧ ¬ (owner = r.lfId ∧ r.Covers byte) := by
  constructor
  · rintro ⟨p, hp, rfl, rfl, hcov⟩
    obtain ⟨l, hl, hp⟩ := List.mem_flatMap.mp hp
    obtain ⟨hwithin, -⟩ := Span.mem_cut hr (h.inRange l hl) (hspare l hl) hp
    obtain ⟨hcov, hout⟩ := (Span.exists_mem_cut_covers hr (h.inRange l hl)).mp ⟨p, hp, hcov⟩
    rw [hwithin.lfId]
    exact ⟨⟨l, hl, rfl, hwithin.lfType.symm, hcov⟩, hout⟩
  · rintro ⟨⟨l, hl, rfl, rfl, hcov⟩, hout⟩
    obtain ⟨p, hp, hcov⟩ := (Span.exists_mem_cut_covers hr (h.inRange l hl)).mpr ⟨hcov, hout⟩
    obtain ⟨hwithin, -⟩ := Span.mem_cut hr (h.inRange l hl) (hspare l hl) hp
    exact ⟨p, List.mem_flatMap.mpr ⟨l, hl, hp⟩, hwithin.lfId, hwithin.lfType, hcov⟩

end NetBSD.Vfs
