import NetBSD.Vfs.Overlap
import Mathlib.Data.List.Pairwise
import Mathlib.Tactic.Tauto

/-!
# The walks along the list

`lf_findoverlap` and the loops of `lf_clearlock` and `lf_setlock`: each one cuts the range of the request
out of the locks of its owner, and `lf_setlock` puts its lock between them.
-/

namespace NetBSD.Vfs

variable {r l : Span} {addr : Nat}

def spans (locks : List Lockf) : List Span := locks.map Lockf.toSpan

@[simp] theorem spans_nil : spans [] = [] := rfl

@[simp] theorem spans_cons (lf : Lockf) (locks : List Lockf) :
    spans (lf :: locks) = lf.toSpan :: spans locks := rfl

@[simp] theorem spans_append (left right : List Lockf) :
    spans (left ++ right) = spans left ++ spans right := List.map_append

/-- `lf_findoverlap` goes past locks that it does not look at or that do not overlap, and stops at the end
of the list, at a lock of the owner behind the range, or at an overlap. -/
def Finds (type : Whose) (r : Span) (block passed : List Lockf) : Prop :=
  (∀ lf ∈ passed, type.skips r lf.toSpan = false →
    overlapCase r lf.toSpan = .none ∧ (type = .self → ¬ r.Before lf.toSpan)) ∧
  ((lfFindoverlap type r block = ⟨.none, passed, []⟩ ∧ block = passed) ∨
    ∃ lf rest, block = passed ++ lf :: rest ∧ type.skips r lf.toSpan = false ∧
      ((type = .self ∧ r.Before lf.toSpan ∧ lfFindoverlap type r block = ⟨.none, passed, lf :: rest⟩) ∨
        (overlapCase r lf.toSpan ≠ .none ∧
          lfFindoverlap type r block = ⟨overlapCase r lf.toSpan, passed, lf :: rest⟩)))

theorem Finds.pass {type : Whose} {block passed : List Lockf} {lf : Lockf} (h : Finds type r block passed)
    (hskip : type.skips r lf.toSpan = false →
      overlapCase r lf.toSpan = .none ∧ (type = .self → ¬ r.Before lf.toSpan))
    (heq : lfFindoverlap type r (lf :: block) = (lfFindoverlap type r block).pass lf) :
    Finds type r (lf :: block) (lf :: passed) := by
  obtain ⟨hpassed, hend⟩ := h
  refine ⟨fun x hx => ?_, ?_⟩
  · obtain rfl | hx := List.mem_cons.mp hx
    · exact hskip
    · exact hpassed x hx
  · rw [heq]
    obtain ⟨hfind, rfl⟩ | ⟨x, rest, rfl, hx, ⟨hself, hbefore, hfind⟩ | ⟨hcase, hfind⟩⟩ := hend
    · exact .inl ⟨by rw [hfind]; rfl, rfl⟩
    · exact .inr ⟨x, rest, rfl, hx, .inl ⟨hself, hbefore, by rw [hfind]; rfl⟩⟩
    · exact .inr ⟨x, rest, rfl, hx, .inr ⟨hcase, by rw [hfind]; rfl⟩⟩

theorem finds (type : Whose) (r : Span) (block : List Lockf) : ∃ passed, Finds type r block passed := by
  induction block with
  | nil => exact ⟨[], by simp, .inl ⟨rfl, rfl⟩⟩
  | cons lf block ih =>
    obtain ⟨passed, hfinds⟩ := ih
    by_cases hskip : type.skips r lf.toSpan = true
    · refine ⟨lf :: passed, hfinds.pass (fun h => ?_) ?_⟩
      · exact absurd (hskip.symm.trans h) (by decide)
      · rw [lfFindoverlap, if_pos hskip]
    rw [Bool.not_eq_true] at hskip
    by_cases hcase : overlapCase r lf.toSpan = .none
    · by_cases hstop : type = .self ∧ r.lfEnd ≠ -1 ∧ lf.lfStart > r.lfEnd
      · refine ⟨[], by simp, .inr ⟨lf, block, rfl, hskip, .inl ⟨hstop.1, hstop.2, ?_⟩⟩⟩
        rw [lfFindoverlap, if_neg (by simp [hskip]), if_pos hcase, if_pos hstop]
      · refine ⟨lf :: passed, hfinds.pass (fun _ => ⟨hcase, fun hself hb => hstop ⟨hself, hb⟩⟩) ?_⟩
        rw [lfFindoverlap, if_neg (by simp [hskip]), if_pos hcase, if_neg hstop]
    · refine ⟨[], by simp, .inr ⟨lf, block, rfl, hskip, .inr ⟨hcase, ?_⟩⟩⟩
      rw [lfFindoverlap, if_neg (by simp [hskip]), if_neg hcase]

theorem clear_of_lfGetblock_eq_none : ∀ fuel block, block.length < fuel → lfGetblock r fuel block = none →
    ∀ lf ∈ block, lf.lfId ≠ r.lfId → r.lfType = .wrlck ∨ lf.lfType = .wrlck →
      lf.toSpan.Before r ∨ r.Before lf.toSpan
  | 0, _, hfuel, _ => absurd hfuel (Nat.not_lt_zero _)
  | fuel + 1, block, hfuel, hnone => by
      obtain ⟨passed, hpassed, hend⟩ := finds .others r block
      have hclear : ∀ lf ∈ passed, lf.lfId ≠ r.lfId → lf.toSpan.Before r ∨ r.Before lf.toSpan := by
        intro lf hlf hid
        exact Span.overlapCase_eq_none_iff.mp (hpassed lf hlf (by simp [Whose.skips, hid])).1
      obtain ⟨-, rfl⟩ | ⟨overlap, rest, rfl, -, ⟨hself, -⟩ | ⟨hcase, hfind⟩⟩ := hend
      · exact fun lf hlf hid _ => hclear lf hlf hid
      · cases hself
      · have hround : lfGetblock r (fuel + 1) (passed ++ overlap :: rest) =
            if r.lfType = .wrlck ∨ overlap.lfType = .wrlck then some overlap
            else lfGetblock r fuel rest := by
          rw [lfGetblock, hfind]
          cases h : overlapCase r overlap.toSpan with
          | none => exact absurd h hcase
          | _ => rfl
        rw [hround] at hnone
        split_ifs at hnone with htype
        intro lf hlf hid hwr
        obtain hlf | rfl | hlf : lf ∈ passed ∨ lf = overlap ∨ lf ∈ rest := by simpa using hlf
        · exact hclear lf hlf hid
        · exact absurd hwr htype
        · refine clear_of_lfGetblock_eq_none fuel rest ?_ hnone lf hlf hid hwr
          simp at hfuel
          omega

theorem overlapCase_spec (r l : Span) :
    match overlapCase r l with
    | .none => l.Before r ∨ r.Before l
    | .equal => l.lfStart = r.lfStart ∧ l.lfEnd = r.lfEnd
    | .contains => l.lfStart ≤ r.lfStart ∧ r.lfEnd ≠ -1 ∧ (r.lfEnd ≤ l.lfEnd ∨ l.lfEnd = -1) ∧
        (l.lfStart = r.lfStart → l.lfEnd ≠ r.lfEnd)
    | .contained => r.lfStart ≤ l.lfStart ∧ (r.lfEnd = -1 ∨ (l.lfEnd ≠ -1 ∧ l.lfEnd ≤ r.lfEnd))
    | .startsBefore => l.lfStart < r.lfStart ∧ (r.lfEnd = -1 ∨ (l.lfEnd ≠ -1 ∧ l.lfEnd ≤ r.lfEnd))
    | .endsAfter => r.lfStart < l.lfStart ∧ r.lfEnd ≠ -1 ∧ (r.lfEnd < l.lfEnd ∨ l.lfEnd = -1)
    | .panic => False := by
  unfold overlapCase Span.Before
  split_ifs <;> simp <;> omega

namespace Span

theorem pieces_equal (hcase : overlapCase r l = .equal) : r.front l = [] ∧ r.back l = [] := by
  have hspec := overlapCase_spec r l
  rw [hcase] at hspec
  rw [front, back, if_neg (by omega), if_neg (by omega)]
  exact ⟨rfl, rfl⟩

theorem pieces_contained (hcase : overlapCase r l = .contained) : r.front l = [] ∧ r.back l = [] := by
  have hspec := overlapCase_spec r l
  rw [hcase] at hspec
  rw [front, back, if_neg (by omega), if_neg (by omega)]
  exact ⟨rfl, rfl⟩

theorem pieces_startsBefore (hr : r.InRange) (hcase : overlapCase r l = .startsBefore) :
    r.front l = [{ l with lfEnd := offT (r.lfStart - 1) }] ∧ r.back l = [] := by
  have hspec := overlapCase_spec r l
  rw [hcase] at hspec
  have hnonneg := hr.start_nonneg
  have hbound := hr.start_le
  rw [front, back, if_pos (by omega), if_neg (by omega), offT_eq (by omega) (by omega)]
  exact ⟨rfl, rfl⟩

theorem offT_end (hr : r.InRange) (hl : l.InRange) (hid : l.lfId = r.lfId) (hspare : r.Spares l)
    (hend : r.lfEnd ≠ -1 ∧ (r.lfEnd < l.lfEnd ∨ l.lfEnd = -1)) : offT (r.lfEnd + 1) = r.lfEnd + 1 := by
  have hnonneg := hr.start_nonneg
  have hordered := hr.ordered
  have hbound := hr.end_le
  have hbound' := hl.end_le
  have hspare : r.lfEnd = offMax → l.lfEnd ≠ -1 := fun h => hspare h hid
  apply offT_eq
  · omega
  · omega

theorem pieces_endsAfter (hr : r.InRange) (hl : l.InRange) (hid : l.lfId = r.lfId) (hspare : r.Spares l)
    (hcase : overlapCase r l = .endsAfter) :
    r.front l = [] ∧ r.back l = [{ l with lfStart := offT (r.lfEnd + 1) }] := by
  have hspec := overlapCase_spec r l
  rw [hcase] at hspec
  rw [front, back, if_neg (by omega), if_pos (by omega), offT_end hr hl hid hspare hspec.2]
  exact ⟨rfl, rfl⟩

theorem pieces_contains_start (hr : r.InRange) (hl : l.InRange) (hid : l.lfId = r.lfId)
    (hspare : r.Spares l) (hcase : overlapCase r l = .contains) (hstart : l.lfStart = r.lfStart) :
    r.front l = [] ∧ r.back l = [{ l with lfStart := offT (r.lfEnd + 1) }] := by
  have hspec := overlapCase_spec r l
  rw [hcase] at hspec
  have hend : r.lfEnd ≠ -1 ∧ (r.lfEnd < l.lfEnd ∨ l.lfEnd = -1) := by omega
  rw [front, back, if_neg (by omega), if_pos (by omega), offT_end hr hl hid hspare hend]
  exact ⟨rfl, rfl⟩

theorem pieces_contains {lf : Lockf} (hr : r.InRange) (hl : lf.toSpan.InRange) (hid : lf.lfId = r.lfId)
    (hspare : r.Spares lf.toSpan) (hcase : overlapCase r lf.toSpan = .contains)
    (hstart : lf.lfStart ≠ r.lfStart) :
    spans (lfSplit addr lf r).1 = r.front lf.toSpan ∧ spans (lfSplit addr lf r).2 = r.back lf.toSpan := by
  have hspec := overlapCase_spec r lf.toSpan
  rw [hcase] at hspec
  have hnonneg := hr.start_nonneg
  have hbound := hr.start_le
  unfold lfSplit front back
  rw [if_neg hstart, if_pos (show lf.lfStart < r.lfStart by omega), offT_eq (by omega) (by omega)]
  by_cases hend : lf.lfEnd = r.lfEnd
  · rw [if_pos hend, if_neg (by omega)]
    exact ⟨rfl, rfl⟩
  · rw [if_neg hend, if_pos (by omega), offT_end hr hl hid hspare ⟨hspec.2.1, by omega⟩]
    exact ⟨rfl, rfl⟩

end Span

theorem finds_self {block : List Lockf} (h : Tidy (spans block)) :
    ∃ passed, (∀ l ∈ spans passed, l.lfId = r.lfId → l.Before r) ∧
      ((∃ rest, block = passed ++ rest ∧ lfFindoverlap .self r block = ⟨.none, passed, rest⟩ ∧
          ∀ l ∈ spans rest, l.lfId = r.lfId → r.Before l) ∨
        ∃ lf rest, block = passed ++ lf :: rest ∧ lf.lfId = r.lfId ∧ overlapCase r lf.toSpan ≠ .none ∧
          lfFindoverlap .self r block = ⟨overlapCase r lf.toSpan, passed, lf :: rest⟩) := by
  obtain ⟨passed, hpassed, hend⟩ := finds .self r block
  refine ⟨passed, fun l hl hid => ?_, ?_⟩
  · obtain ⟨lf, hlf, rfl⟩ := List.mem_map.mp hl
    obtain ⟨hcase, hnot⟩ := hpassed lf hlf (by simp [Whose.skips, hid])
    exact (Span.overlapCase_eq_none_iff.mp hcase).resolve_right (hnot rfl)
  · obtain ⟨hfind, rfl⟩ | ⟨lf, rest, rfl, hskip, ⟨-, hbefore, hfind⟩ | ⟨hcase, hfind⟩⟩ := hend
    · exact .inl ⟨[], by simp, hfind, by simp⟩
    · have hid : lf.lfId = r.lfId := by simpa [Whose.skips] using hskip
      rw [spans_append, spans_cons] at h
      refine .inl ⟨lf :: rest, rfl, hfind, fun l hl hidl => ?_⟩
      obtain rfl | hl := List.mem_cons.mp hl
      · exact hbefore
      · obtain ⟨hne, hlt⟩ := h.append_right.before hl (hidl.trans hid.symm)
        have hordered := (h.append_right.inRange _ List.mem_cons_self).ordered
        exact ⟨hbefore.1, by have := hbefore.2; omega⟩
    · exact .inr ⟨lf, rest, rfl, by simpa [Whose.skips] using hskip, hcase, hfind⟩

theorem flatMap_cut_of_before {locks : List Span} (h : ∀ l ∈ locks, l.lfId = r.lfId → l.Before r) :
    locks.flatMap r.cut = locks := Span.flatMap_cut_of_clear fun l hl hid => .inl (h l hl hid)

theorem flatMap_cut_of_after {locks : List Span} (h : ∀ l ∈ locks, l.lfId = r.lfId → r.Before l) :
    locks.flatMap r.cut = locks := Span.flatMap_cut_of_clear fun l hl hid => .inr (h l hl hid)

theorem after_of_overlap {locks : List Span} (h : Tidy (l :: locks)) (hid : l.lfId = r.lfId)
    (hcase : overlapCase r l = .equal ∨ overlapCase r l = .contains ∨ overlapCase r l = .endsAfter) :
    ∀ x ∈ locks, x.lfId = r.lfId → r.Before x :=
  fun _ hx hidx => (h.before hx (hidx.trans hid.symm)).of_overlap hcase

theorem clearLoop_spec (hr : r.InRange) : ∀ fuel block, block.length < fuel → Tidy (spans block) →
    (∀ l ∈ spans block, r.Spares l) →
    ∃ w, clearLoop addr r fuel block = some w ∧ spans w.locks = (spans block).flatMap r.cut
  | 0, _, hfuel, _, _ => absurd hfuel (Nat.not_lt_zero _)
  | fuel + 1, block, hfuel, htidy, hspare => by
      obtain ⟨passed, hpassed, ⟨rest, rfl, hfind, hrest⟩ | ⟨lf, rest, rfl, hid, hcase, hfind⟩⟩ :=
        finds_self htidy
      · refine ⟨⟨passed ++ rest, []⟩, by rw [clearLoop, hfind], ?_⟩
        rw [spans_append, List.flatMap_append, flatMap_cut_of_before hpassed, flatMap_cut_of_after hrest]
      have hlf : lf.toSpan ∈ spans (passed ++ lf :: rest) := by simp
      have hrange := htidy.inRange _ hlf
      have hspare' := hspare _ hlf
      have htidy' : Tidy (lf.toSpan :: spans rest) := by
        rw [spans_append, spans_cons] at htidy
        exact htidy.append_right
      have hcut : (spans (passed ++ lf :: rest)).flatMap r.cut =
          spans passed ++ (r.front lf.toSpan ++ r.back lf.toSpan) ++ (spans rest).flatMap r.cut := by
        rw [spans_append, spans_cons, List.flatMap_append, List.flatMap_cons,
          flatMap_cut_of_before hpassed, Span.cut_of_overlap hid hcase, ← List.append_assoc]
      have hafter := after_of_overlap htidy' hid
      have hnext := clearLoop_spec hr fuel rest (by simp at hfuel; omega) htidy'.tail
        fun l hl => hspare l (by simp [hl])
      rw [clearLoop, hfind, hcut]
      cases h : overlapCase r lf.toSpan with
      | none => exact absurd h hcase
      | panic => exact absurd h (overlapCase_ne_panic _ _)
      | equal =>
        obtain ⟨hfront, hback⟩ := Span.pieces_equal h
        refine ⟨_, rfl, ?_⟩
        rw [hfront, hback, flatMap_cut_of_after (hafter (.inl h))]
        simp
      | endsAfter =>
        obtain ⟨hfront, hback⟩ := Span.pieces_endsAfter hr hrange hid hspare' h
        refine ⟨_, rfl, ?_⟩
        rw [hfront, hback, flatMap_cut_of_after (hafter (.inr (.inr h)))]
        simp
      | contained =>
        obtain ⟨hfront, hback⟩ := Span.pieces_contained h
        obtain ⟨w, hw, hlocks⟩ := hnext
        refine ⟨⟨passed ++ w.locks, lf.lfBlock ++ w.woken⟩, by simp [hw], ?_⟩
        rw [hfront, hback, ← hlocks]
        simp
      | startsBefore =>
        obtain ⟨hfront, hback⟩ := Span.pieces_startsBefore hr h
        obtain ⟨w, hw, hlocks⟩ := hnext
        refine ⟨⟨passed ++ { lf with lfEnd := offT (r.lfStart - 1), lfBlock := [] } :: w.locks,
          lf.lfBlock ++ w.woken⟩, by simp [hw], ?_⟩
        rw [hfront, hback, ← hlocks]
        simp
      | contains =>
        rw [flatMap_cut_of_after (hafter (.inr (.inl h)))]
        by_cases hstart : lf.lfStart = r.lfStart
        · obtain ⟨hfront, hback⟩ := Span.pieces_contains_start hr hrange hid hspare' h hstart
          refine ⟨_, if_pos hstart, ?_⟩
          rw [hfront, hback]
          simp
        · refine ⟨_, if_neg hstart, ?_⟩
          obtain ⟨hfront, hback⟩ : spans (lfSplit addr { lf with lfBlock := [] } r).1 = r.front lf.toSpan ∧
              spans (lfSplit addr { lf with lfBlock := [] } r).2 = r.back lf.toSpan :=
            Span.pieces_contains hr hrange hid hspare' h hstart
          rw [← hfront, ← hback]
          simp

theorem after_of_mem_flatMap_cut {locks : List Span} (h : Tidy locks) (hr : r.InRange)
    (hspare : ∀ l ∈ locks, r.Spares l) (hstart : ∀ l ∈ locks, l.lfId = r.lfId → r.lfStart < l.lfStart) :
    ∀ p ∈ locks.flatMap r.cut, p.lfId = r.lfId → r.Before p := by
  intro p hp hid
  obtain ⟨l, hl, hp⟩ := List.mem_flatMap.mp hp
  obtain ⟨hwithin, hrange, hclear⟩ := Span.mem_cut hr (h.inRange l hl) (hspare l hl) hp
  apply (hclear hid).resolve_left
  rintro ⟨hne, hlt⟩
  have hlate := hstart l hl (hwithin.lfId.symm.trans hid)
  have hle := hwithin.start_le
  have hordered := hrange.ordered
  omega

theorem takeBlock_toSpan (lock overlap : Lockf) : (takeBlock lock overlap).1.toSpan = lock.toSpan := by
  unfold takeBlock
  split_ifs <;> rfl

theorem setRest_spec (hr : r.InRange) : ∀ fuel lock block, block.length < fuel → lock.toSpan = r →
    Tidy (spans block) → (∀ l ∈ spans block, r.Spares l) →
    (∀ l ∈ spans block, l.lfId = r.lfId → r.lfStart < l.lfStart) →
    ∃ lock' w, setRest fuel lock block = some (lock', w) ∧ lock'.toSpan = r ∧
      spans w.locks = (spans block).flatMap r.cut
  | 0, _, _, hfuel, _, _, _, _ => absurd hfuel (Nat.not_lt_zero _)
  | fuel + 1, lock, block, hfuel, hlock, htidy, hspare, hstart => by
      obtain ⟨passed, hpassed, ⟨rest, rfl, hfind, hrest⟩ | ⟨lf, rest, rfl, hid, hcase, hfind⟩⟩ :=
        finds_self htidy
      · refine ⟨lock, ⟨passed ++ rest, []⟩, by rw [setRest, hlock, hfind], hlock, ?_⟩
        rw [spans_append, List.flatMap_append, flatMap_cut_of_before hpassed, flatMap_cut_of_after hrest]
      have hlf : lf.toSpan ∈ spans (passed ++ lf :: rest) := by simp
      have hrange := htidy.inRange _ hlf
      have hspare' := hspare _ hlf
      have hstart' := hstart _ hlf hid
      have htidy' : Tidy (lf.toSpan :: spans rest) := by
        rw [spans_append, spans_cons] at htidy
        exact htidy.append_right
      have hcut : (spans (passed ++ lf :: rest)).flatMap r.cut =
          spans passed ++ (r.front lf.toSpan ++ r.back lf.toSpan) ++ (spans rest).flatMap r.cut := by
        rw [spans_append, spans_cons, List.flatMap_append, List.flatMap_cons,
          flatMap_cut_of_before hpassed, Span.cut_of_overlap hid hcase, ← List.append_assoc]
      have hspec := overlapCase_spec r lf.toSpan
      rw [setRest, hlock, hfind, hcut]
      cases h : overlapCase r lf.toSpan with
      | none => exact absurd h hcase
      | panic => exact absurd h (overlapCase_ne_panic _ _)
      | equal =>
        rw [h] at hspec
        exact absurd hspec.1 (by omega)
      | contains =>
        rw [h] at hspec
        exact absurd hspec.1 (by omega)
      | startsBefore =>
        rw [h] at hspec
        exact absurd hspec.1 (by omega)
      | endsAfter =>
        obtain ⟨hfront, hback⟩ := Span.pieces_endsAfter hr hrange hid hspare' h
        refine ⟨lock, _, rfl, hlock, ?_⟩
        rw [hfront, hback, flatMap_cut_of_after (after_of_overlap htidy' hid (.inr (.inr h)))]
        simp [← hlock]
      | contained =>
        obtain ⟨hfront, hback⟩ := Span.pieces_contained h
        obtain ⟨lock', w, hw, hlock', hlocks⟩ := setRest_spec hr fuel (takeBlock lock lf).1 rest
          (by simp at hfuel; omega) ((takeBlock_toSpan lock lf).trans hlock) htidy'.tail
          (fun l hl => hspare l (by simp [hl])) fun l hl => hstart l (by simp [hl])
        refine ⟨lock', ⟨passed ++ w.locks, (takeBlock lock lf).2 ++ w.woken⟩, by simp [hw], hlock', ?_⟩
        rw [hfront, hback, ← hlocks]
        simp

def Placed (r : Span) (locks locks' : List Span) : Prop :=
  ∃ pre post, locks.flatMap r.cut = pre ++ post ∧ locks' = pre ++ r :: post ∧
    (∀ l ∈ pre, l.lfId = r.lfId → l.Before r) ∧ ∀ l ∈ post, l.lfId = r.lfId → r.Before l

def Absorbed (r : Span) (locks : List Span) : Prop :=
  ∃ l ∈ locks, l.lfId = r.lfId ∧ l.lfType = r.lfType ∧ overlapCase r l = .contains

theorem placed_of_eq {passed rest : List Span} (hr : r.InRange) (htidy : Tidy (passed ++ l :: rest))
    (hspare : ∀ x ∈ passed ++ l :: rest, r.Spares x) (hpassed : ∀ x ∈ passed, x.lfId = r.lfId → x.Before r)
    (hid : l.lfId = r.lfId) (hcase : overlapCase r l ≠ .none) :
    Placed r (passed ++ l :: rest)
      (passed ++ r.front l ++ r :: (r.back l ++ rest.flatMap r.cut)) := by
  have hrange := htidy.inRange l (by simp)
  have hspare' := hspare l (by simp)
  refine ⟨passed ++ r.front l, r.back l ++ rest.flatMap r.cut, ?_, rfl, fun x hx hidx => ?_, fun x hx hidx => ?_⟩
  · rw [List.flatMap_append, List.flatMap_cons, flatMap_cut_of_before hpassed,
      Span.cut_of_overlap hid hcase]
    simp
  · obtain hx | hx := List.mem_append.mp hx
    · exact hpassed x hx hidx
    · exact (Span.mem_front hr hrange hcase hx).2.2
  · obtain hx | hx := List.mem_append.mp hx
    · exact (Span.mem_back hr hrange hid hspare' hcase hx).2.2
    · refine after_of_mem_flatMap_cut htidy.append_right.tail hr (fun y hy => hspare y (by simp [hy]))
        (fun y hy hidy => ?_) x hx hidx
      exact Span.lfStart_lt_of_overlap hcase (htidy.append_right.before hy (hidy.trans hid.symm))

theorem setLoop_spec {lock : Lockf} {block : List Lockf} {fuel : Nat} (hr : lock.toSpan.InRange)
    (hfuel : block.length < fuel) (htidy : Tidy (spans block))
    (hspare : ∀ l ∈ spans block, lock.toSpan.Spares l) :
    ∃ w, setLoop addr fuel lock block = some w ∧
      (Placed lock.toSpan (spans block) (spans w.locks) ∨
        (Absorbed lock.toSpan (spans block) ∧ spans w.locks = spans block)) := by
  obtain ⟨passed, hpassed, ⟨rest, rfl, hfind, hrest⟩ | ⟨lf, rest, rfl, hid, hcase, hfind⟩⟩ :=
    finds_self htidy
  · refine ⟨⟨passed ++ lock :: rest, []⟩, by rw [setLoop, hfind], .inl ⟨spans passed, spans rest, ?_⟩⟩
    refine ⟨?_, by simp, hpassed, hrest⟩
    rw [spans_append, List.flatMap_append, flatMap_cut_of_before hpassed, flatMap_cut_of_after hrest]
  have hlf : lf.toSpan ∈ spans (passed ++ lf :: rest) := by simp
  have hrange := htidy.inRange _ hlf
  have hspare' := hspare _ hlf
  rw [spans_append, spans_cons] at htidy hspare
  have hplaced := placed_of_eq hr htidy hspare hpassed hid hcase
  have hafter := after_of_overlap htidy.append_right hid
  have hstart : ∀ l ∈ spans rest, l.lfId = lock.lfId → lock.lfStart < l.lfStart := fun l hl hidl =>
    Span.lfStart_lt_of_overlap hcase (htidy.append_right.before hl (hidl.trans hid.symm))
  have hnext (lock' : Lockf) (hlock' : lock'.toSpan = lock.toSpan) := setRest_spec hr fuel lock' rest
    (by simp at hfuel; omega) hlock' htidy.append_right.tail (fun l hl => hspare l (by simp [hl])) hstart
  have hspec := overlapCase_spec lock.toSpan lf.toSpan
  rw [setLoop, hfind, spans_append, spans_cons]
  cases h : overlapCase lock.toSpan lf.toSpan with
  | none => exact absurd h hcase
  | panic => exact absurd h (overlapCase_ne_panic _ _)
  | equal =>
    obtain ⟨hfront, hback⟩ := Span.pieces_equal h
    rw [h] at hspec
    rw [hfront, hback, flatMap_cut_of_after (hafter (.inl h))] at hplaced
    have hset : { lf.toSpan with lfType := lock.lfType } = lock.toSpan :=
      Span.ext rfl hspec.1 hspec.2 hid
    by_cases hdown : lock.downgrades lf
    · refine ⟨_, if_pos hdown, .inl ?_⟩
      simpa [hset] using hplaced
    · refine ⟨_, if_neg hdown, .inl ?_⟩
      simpa [hset] using hplaced
  | endsAfter =>
    obtain ⟨hfront, hback⟩ := Span.pieces_endsAfter hr hrange hid hspare' h
    rw [hfront, hback, flatMap_cut_of_after (hafter (.inr (.inr h)))] at hplaced
    refine ⟨_, rfl, .inl ?_⟩
    simpa using hplaced
  | contained =>
    obtain ⟨hfront, hback⟩ := Span.pieces_contained h
    obtain ⟨lock', w, hw, hlock', hlocks⟩ := hnext _ (takeBlock_toSpan lock lf)
    rw [hfront, hback, ← hlocks] at hplaced
    refine ⟨⟨passed ++ lock' :: w.locks, (takeBlock lock lf).2 ++ w.woken⟩, by simp [hw], .inl ?_⟩
    simpa [hlock'] using hplaced
  | startsBefore =>
    obtain ⟨hfront, hback⟩ := Span.pieces_startsBefore hr h
    obtain ⟨lock', w, hw, hlock', hlocks⟩ := hnext lock rfl
    rw [hfront, hback, ← hlocks] at hplaced
    have hstart' : lock'.lfStart = lock.lfStart := congrArg Span.lfStart hlock'
    refine ⟨⟨passed ++ { lf with lfEnd := offT (lock'.lfStart - 1), lfBlock := [] } :: lock' :: w.locks,
      lf.lfBlock ++ w.woken⟩, by simp [hw], .inl ?_⟩
    simpa [hlock', hstart'] using hplaced
  | contains =>
    rw [flatMap_cut_of_after (hafter (.inr (.inl h)))] at hplaced
    by_cases htype : lf.lfType = lock.lfType
    · refine ⟨_, if_pos htype, .inr ⟨⟨lf.toSpan, by simp, hid, htype, h⟩, by simp⟩⟩
    by_cases hstart : lf.lfStart = lock.lfStart
    · obtain ⟨hfront, hback⟩ := Span.pieces_contains_start hr hrange hid hspare' h hstart
      rw [hfront, hback] at hplaced
      refine ⟨_, (if_neg htype).trans (if_pos hstart), .inl ?_⟩
      simpa using hplaced
    · obtain ⟨hfront, hback⟩ : spans (lfSplit addr { lf with lfBlock := [] } lock.toSpan).1 = lock.toSpan.front lf.toSpan ∧
          spans (lfSplit addr { lf with lfBlock := [] } lock.toSpan).2 = lock.toSpan.back lf.toSpan :=
        Span.pieces_contains hr hrange hid hspare' h hstart
      rw [← hfront, ← hback] at hplaced
      refine ⟨_, (if_neg htype).trans (if_neg hstart), .inl ?_⟩
      simpa using hplaced

theorem setLoop_of_absorbed {lock : Lockf} {block : List Lockf} {fuel : Nat} (htidy : Tidy (spans block))
    (h : Absorbed lock.toSpan (spans block)) :
    ∃ w, setLoop addr fuel lock block = some w ∧ spans w.locks = spans block := by
  obtain ⟨l, hl, hid, htype, hcase⟩ := h
  have hmeets : ¬ (l.Before lock.toSpan ∨ lock.toSpan.Before l) := fun hb => by
    rw [Span.overlapCase_eq_none_iff.mpr hb] at hcase
    cases hcase
  obtain ⟨passed, hpassed, ⟨rest, rfl, -, hrest⟩ | ⟨lf, rest, rfl, hidlf, hcaself, hfind⟩⟩ :=
    finds_self htidy
  · rw [spans_append] at hl
    obtain hl | hl := List.mem_append.mp hl
    · exact absurd (.inl (hpassed l hl hid)) hmeets
    · exact absurd (.inr (hrest l hl hid)) hmeets
  · rw [spans_append, spans_cons] at htidy hl
    -- The lock that contains the range is the first overlap.
    have heq : l = lf.toSpan := by
      obtain hl | hl | hl : l ∈ spans passed ∨ l = lf.toSpan ∨ l ∈ spans rest := by simpa using hl
      · exact absurd (.inl (hpassed l hl hid)) hmeets
      · exact hl
      · obtain ⟨hne, hlt⟩ := htidy.append_right.before hl (hid.trans hidlf.symm)
        have hspec := overlapCase_spec lock.toSpan l
        rw [hcase] at hspec
        exact absurd (Span.overlapCase_eq_none_iff.mpr (.inl ⟨hne, by omega⟩)) hcaself
    subst heq
    refine ⟨⟨passed ++ lf :: rest, []⟩, ?_, rfl⟩
    rw [setLoop, hfind, hcase]
    exact if_pos htype

/-- On the bytes of `r` its owner now holds the type, or nothing; everything else is held as before. -/
structure Updated (locks locks' : List Span) (r : Span) (type : Option LockType) : Prop where
  inside : ∀ byte t, r.Covers byte → (Holds locks' r.lfId t byte ↔ type = some t)
  outside : ∀ owner byte t, owner ≠ r.lfId ∨ ¬ r.Covers byte →
    (Holds locks' owner t byte ↔ Holds locks owner t byte)

theorem updated_cut {locks : List Span} (htidy : Tidy locks) (hr : r.InRange)
    (hspare : ∀ l ∈ locks, r.Spares l) : Updated locks (locks.flatMap r.cut) r none := by
  constructor
  · intro byte t hcov
    rw [holds_flatMap_cut htidy hr hspare]
    simp [hcov]
  · intro owner byte t hout
    rw [holds_flatMap_cut htidy hr hspare]
    exact and_iff_left (by tauto)

theorem Placed.updated {locks locks' : List Span} (h : Placed r locks locks') (htidy : Tidy locks)
    (hr : r.InRange) (hspare : ∀ l ∈ locks, r.Spares l) : Updated locks locks' r (some r.lfType) := by
  obtain ⟨pre, post, hcut, rfl, -, -⟩ := h
  have hholds (owner byte t) : Holds (pre ++ r :: post) owner t byte ↔
      Holds (locks.flatMap r.cut) owner t byte ∨ (r.lfId = owner ∧ r.lfType = t ∧ r.Covers byte) := by
    rw [hcut]
    unfold Holds
    simp only [List.mem_append, List.mem_cons]
    constructor
    · rintro ⟨l, hl | rfl | hl, hrest⟩
      · exact .inl ⟨l, .inl hl, hrest⟩
      · exact .inr hrest
      · exact .inl ⟨l, .inr hl, hrest⟩
    · rintro (⟨l, hl | hl, hrest⟩ | hrest)
      · exact ⟨l, .inl hl, hrest⟩
      · exact ⟨l, .inr (.inr hl), hrest⟩
      · exact ⟨r, .inr (.inl rfl), hrest⟩
  have hupdated := updated_cut htidy hr hspare
  constructor
  · intro byte t hcov
    rw [hholds, hupdated.inside byte t hcov]
    simp [hcov]
  · intro owner byte t hout
    rw [hholds, hupdated.outside owner byte t hout]
    exact or_iff_left (by tauto)

theorem Placed.tidy {locks locks' : List Span} (h : Placed r locks locks') (htidy : Tidy locks)
    (hr : r.InRange) (hspare : ∀ l ∈ locks, r.Spares l)
    (hothers : ∀ l ∈ locks, l.lfId ≠ r.lfId → r.lfType = .wrlck ∨ l.lfType = .wrlck →
      l.Before r ∨ r.Before l) : Tidy locks' := by
  obtain ⟨pre, post, hcut, rfl, hpre, hpost⟩ := h
  refine (hcut ▸ htidy.cut hr hspare).insert hr hpre hpost fun p hp hid htype => ?_
  rw [← hcut] at hp
  obtain ⟨l, hl, hp⟩ := List.mem_flatMap.mp hp
  -- A lock of another owner is in the list as it was.
  have hidl : l.lfId ≠ r.lfId := (Span.mem_cut hr (htidy.inRange l hl) (hspare l hl) hp).1.lfId ▸ hid
  rw [Span.cut_of_other hidl] at hp
  obtain rfl := List.mem_singleton.mp hp
  exact hothers p hl hid htype

def Span.Apart (byte : Nat) (a b : Span) : Prop := ¬ (a.lfId = b.lfId ∧ a.Covers byte ∧ b.Covers byte)

instance (byte : Nat) : Std.Symm (Span.Apart byte) :=
  ⟨fun _ _ hxy hyx => hxy ⟨hyx.1.symm, hyx.2.2, hyx.2.1⟩⟩

theorem Span.Fits.apart {a b : Span} (h : a.Fits b) (byte : Nat) : Span.Apart byte a b := by
  rintro ⟨hid, hcova, hcovb⟩
  unfold Span.Fits at h
  rw [if_pos hid] at h
  exact h.not_covers hcova hcovb

theorem Tidy.unique {locks : List Span} (h : Tidy locks) {a b : Span} (ha : a ∈ locks) (hb : b ∈ locks)
    (hid : a.lfId = b.lfId) {byte : Nat} (hcova : a.Covers byte) (hcovb : b.Covers byte) : a = b := by
  by_contra hne
  have hdisjoint : locks.Pairwise (Span.Apart byte) := h.fits.imp fun hfits => hfits.apart byte
  exact hdisjoint.forall ha hb hne ⟨hid, hcova, hcovb⟩

theorem Absorbed.updated {locks : List Span} (h : Absorbed r locks) (htidy : Tidy locks) :
    Updated locks locks r (some r.lfType) := by
  obtain ⟨l, hl, hid, htype, hcase⟩ := h
  have hspec := overlapCase_spec r l
  rw [hcase] at hspec
  refine ⟨fun byte t hcov => ?_, fun _ _ _ _ => Iff.rfl⟩
  have hcov' : l.Covers byte := by
    obtain ⟨hstart, hend⟩ := hcov
    exact ⟨by omega, by omega⟩
  constructor
  · rintro ⟨x, hx, hidx, rfl, hcovx⟩
    rw [htidy.unique hx hl (hidx.trans hid.symm) hcovx hcov', htype]
  · rintro ⟨⟩
    exact ⟨l, hl, hid, htype, hcov'⟩

end NetBSD.Vfs
