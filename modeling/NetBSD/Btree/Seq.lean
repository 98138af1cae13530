import NetBSD.Btree.Dups

/-!
# Sequential scans

`__bt_seq` and `__bt_delete` with `R_CURSOR` on the leaves of a tree.
-/

namespace NetBSD.Btree

structure Scan where
  leaves : List (Page Bleaf)
  /-- `bt_bcursor`: a page number and an index. -/
  bcursor : Nat × Nat := (0, 0)
  /-- `B_SEQINIT` -/
  seqinit : Bool := false
  /-- `B_DELCRSR` -/
  delcrsr : Bool := false

inductive Reply where
  | error
  | success (bl : Bleaf)
  | special

inductive Flag where
  | next
  | prev
  | first
  | last

def firstOf (pages : List (Page Bleaf)) : Option (Nat × Nat) := (pages.find? fun h => h.items ≠ []).map fun h => (h.pgno, 0)

def finalOf (pages : List (Page Bleaf)) : Option (Nat × Nat) :=
  (pages.find? fun h => h.items ≠ []).map fun h => (h.pgno, h.items.length - 1)

def dleaf (e : Nat × Nat) (leaves : List (Page Bleaf)) : Option (List (Page Bleaf)) := do
  let (before, h, after) ← locate e.1 leaves
  if e.2 < h.items.length then some (before ++ h.left (h.items.eraseIdx e.2) :: after) else none

def btRet (e : Nat × Nat) (leaves : List (Page Bleaf)) : Option Bleaf := do
  let (_, h, _) ← locate e.1 leaves
  h.items[e.2]?

namespace Scan

def crsrdel (s : Scan) : Option Scan := (dleaf s.bcursor s.leaves).map fun leaves => { s with leaves, delcrsr := false }

def btDelete (s : Scan) : Option (Option Bool × Scan) :=
  if !s.seqinit then some (none, s)
  else if s.delcrsr then some (some false, s)
  else s.crsrdel.map fun s => (some true, s)

def advance (s : Scan) (next : Bool) : Option (Option (Nat × Nat)) := do
  let (before, h, after) ← locate s.bcursor.1 s.leaves
  if next then
    if s.bcursor.2 + 1 = h.items.length then some (firstOf after) else some (some (h.pgno, s.bcursor.2 + 1))
  else if s.bcursor.2 = 0 then some (finalOf before.reverse)
  else some (some (h.pgno, s.bcursor.2 - 1))

def settle (s : Scan) (e : Nat × Nat) : Option (Reply × Scan) :=
  (btRet e s.leaves).map fun bl => (.success bl, { s with bcursor := e, seqinit := true })

/-- `bt_seqadv`, with what `__bt_seq` does behind it. The index that is found is not changed by the deletion that was put off. -/
def seqadv (s : Scan) (next : Bool) : Option (Reply × Scan) := do
  match ← s.advance next with
  | none => return (.special, s)
  | some e => (← if s.delcrsr then s.crsrdel else some s).settle e

def seqset (s : Scan) (first : Bool) : Option (Reply × Scan) := do
  let s ← if s.delcrsr then s.crsrdel else some s
  match if first then firstOf s.leaves else finalOf s.leaves.reverse with
  | none => return (.special, s)
  | some e => s.settle e

def btSeq (s : Scan) : Flag → Option (Reply × Scan)
  | .next => if s.seqinit then s.seqadv true else s.seqset true
  | .prev => if s.seqinit then s.seqadv false else s.seqset false
  | .first => s.seqset true
  | .last => s.seqset false

/-- `delete(R_CURSOR)` and `seq(R_NEXT)` again and again, from a record on: the records that are visited. -/
def sweepFrom (s : Scan) (bl : Bleaf) : Nat → Option (List Bleaf × Scan)
  | 0 => none
  | n + 1 => do
      let (_, s) ← s.btDelete
      match ← s.btSeq .next with
      | (.success bl', s) => (s.sweepFrom bl' n).map fun r => (bl :: r.1, r.2)
      | (_, s) => some ([bl], s)

def sweep (s : Scan) (n : Nat) : Option (List Bleaf × Scan) := do
  match ← s.btSeq .first with
  | (.success bl, s) => s.sweepFrom bl n
  | (_, s) => some ([], s)

structure At (s : Scan) (x : List Bleaf) (bl : Bleaf) (y : List Bleaf) : Prop where
  nodup : (s.leaves.map (·.pgno)).Nodup
  seqinit : s.seqinit = true
  delcrsr : s.delcrsr = false
  cursor : ∃ before h after a b, s.leaves = before ++ h :: after ∧ h.items = a ++ bl :: b ∧ s.bcursor = (h.pgno, a.length) ∧
    x = records before ++ a ∧ y = b ++ records after

def Adjacent (s : Scan) (next : Bool) (x y : List Bleaf) : Prop :=
  ∃ r s', (s.btDelete.bind fun r => r.2.btSeq (if next then .next else .prev)) = some (r, s') ∧
    match if next then y.head? else x.getLast? with
    | none => r = .special
    | some bl => r = .success bl ∧ if next then s'.At x bl y.tail else s'.At x.dropLast bl y

variable {s s' : Scan} {x y x' y' : List Bleaf} {bl bl' : Bleaf} {h : Page Bleaf} {before after pages : List (Page Bleaf)} {a b : List Bleaf} {r : Reply}

theorem At.unique (hs : s.At x bl y) (hs' : s.At x' bl' y') : x = x' := by
  obtain ⟨before, h, after, a, b, hleaves, hitems, hcursor, rfl, -⟩ := hs.cursor
  obtain ⟨before', h', after', a', b', hleaves', hitems', hcursor', rfl, -⟩ := hs'.cursor
  have hnodup := hs.nodup
  have hloc : locate h.pgno s.leaves = some (before, h, after) := by
    rw [hleaves] at hnodup ⊢
    exact locate_append hnodup
  have hloc' : locate h'.pgno s.leaves = some (before', h', after') := by
    have hnodup' := hs.nodup
    rw [hleaves'] at hnodup' ⊢
    exact locate_append hnodup'
  rw [hcursor] at hcursor'
  obtain ⟨hpgno, hlen⟩ := Prod.mk.inj hcursor'
  rw [← hpgno, hloc] at hloc'
  obtain ⟨rfl, rfl, rfl⟩ : before = before' ∧ h = h' ∧ after = after' := by simpa using hloc'
  rw [hitems] at hitems'
  rw [(List.append_inj hitems' hlen).1]

theorem At.btDelete (hs : s.At x bl y) : ∃ before h after a b, x = records before ++ a ∧ y = b ++ records after ∧ h.items = a ++ b ∧
    ((before ++ h :: after).map (·.pgno)).Nodup ∧
    s.btDelete = some (some true, { s with leaves := before ++ h :: after, bcursor := (h.pgno, a.length), delcrsr := false }) := by
  obtain ⟨before, h, after, a, b, hleaves, hitems, hcursor, hx, hy⟩ := hs.cursor
  have hnodup := hs.nodup
  have hpgno : (h.left (a ++ b)).pgno = h.pgno := by
    unfold Page.left
    split <;> rfl
  have herase : (a ++ bl :: b).eraseIdx a.length = a ++ b := by
    rw [List.eraseIdx_append_of_length_le (Nat.le_refl _), Nat.sub_self, List.eraseIdx_cons_zero]
  have hloc : locate h.pgno s.leaves = some (before, h, after) := by
    rw [hleaves] at hnodup ⊢
    exact locate_append hnodup
  refine ⟨before, h.left (a ++ b), after, a, b, hx, hy, left_items fun hnil => ?_, ?_, ?_⟩
  · rw [hitems] at hnil
    simp at hnil
  · rw [hleaves, List.map_append, List.map_cons] at hnodup
    rw [List.map_append, List.map_cons, hpgno]
    exact hnodup
  · unfold Scan.btDelete crsrdel dleaf
    rw [hs.seqinit, hs.delcrsr, hcursor]
    dsimp only
    rw [hloc, hpgno]
    simp [hitems, herase]

theorem btRet_eq (hnodup : ((before ++ h :: after).map (·.pgno)).Nodup) (i : Nat) :
    btRet (h.pgno, i) (before ++ h :: after) = h.items[i]? := by
  unfold btRet
  rw [locate_append hnodup]
  rfl

theorem find_nonempty (pages : List (Page Bleaf)) : (pages.find? fun h => h.items ≠ []) = none ∧ records pages = [] ∨
    ∃ l h r, pages = l ++ h :: r ∧ h.items ≠ [] ∧ records l = [] ∧ (pages.find? fun h => h.items ≠ []) = some h := by
  induction pages with
  | nil => exact Or.inl ⟨rfl, rfl⟩
  | cons p rest ih =>
    by_cases hp : p.items = []
    · have hrecords : ∀ l, records (p :: l) = records l := fun l => by
        show p.items ++ records l = records l
        rw [hp, List.nil_append]
      rw [List.find?_cons_of_neg (by simp [hp]), hrecords]
      refine ih.imp id fun ⟨l, h, r, heq, hne, hl, hfind⟩ => ⟨p :: l, h, r, congrArg (p :: ·) heq, hne, (hrecords l).trans hl, hfind⟩
    · exact Or.inr ⟨[], p, rest, rfl, hp, rfl, List.find?_cons_of_pos (by simp [hp])⟩

theorem settle_at {s : Scan} (hnodup : (s.leaves.map (·.pgno)).Nodup) (hdelcrsr : s.delcrsr = false) (hleaves : s.leaves = before ++ h :: after)
    (hitems : h.items = a ++ bl :: b) : ∃ s', s.settle (h.pgno, a.length) = some (.success bl, s') ∧ s'.At (records before ++ a) bl (b ++ records after) := by
  refine ⟨{ s with bcursor := (h.pgno, a.length), seqinit := true }, ?_,
    ⟨hnodup, rfl, hdelcrsr, before, h, after, a, b, hleaves, hitems, rfl, rfl, rfl⟩⟩
  unfold settle
  rw [hleaves] at hnodup ⊢
  rw [btRet_eq hnodup, hitems]
  simp

theorem advance_eq {s : Scan} {i : Nat} (hnodup : (s.leaves.map (·.pgno)).Nodup) (hleaves : s.leaves = before ++ h :: after)
    (hcursor : s.bcursor = (h.pgno, i)) :
    (s.advance true = if i + 1 = h.items.length then some (firstOf after) else some (some (h.pgno, i + 1))) ∧
      s.advance false = if i = 0 then some (finalOf before.reverse) else some (some (h.pgno, i - 1)) := by
  have hloc : locate h.pgno s.leaves = some (before, h, after) := by
    rw [hleaves] at hnodup ⊢
    exact locate_append hnodup
  unfold advance
  rw [hcursor]
  dsimp only
  rw [hloc]
  exact ⟨rfl, rfl⟩

theorem seqadv_special {s : Scan} {next : Bool} (hadvance : s.advance next = some none) : s.seqadv next = some (.special, s) := by
  unfold seqadv
  rw [hadvance]
  rfl

theorem seqadv_settle {s : Scan} {next : Bool} {e : Nat × Nat} (hdelcrsr : s.delcrsr = false) (hadvance : s.advance next = some (some e)) :
    s.seqadv next = s.settle e := by
  unfold seqadv
  rw [hadvance, hdelcrsr]
  rfl

theorem At.seq (hs : s.At x bl y) (next : Bool) : ∃ (s₁ : Scan) (before : List (Page Bleaf)) (h : Page Bleaf) (after : List (Page Bleaf)) (a b : List Bleaf), x = records before ++ a ∧ y = b ++ records after ∧ h.items = a ++ b ∧
    s₁.leaves = before ++ h :: after ∧ s₁.bcursor = (h.pgno, a.length) ∧ (s₁.leaves.map (·.pgno)).Nodup ∧ s₁.delcrsr = false ∧
    (s.btDelete.bind fun r => r.2.btSeq (if next then .next else .prev)) = s₁.seqadv next := by
  obtain ⟨before, h, after, a, b, hx, hy, hitems, hnodup, hdelete⟩ := hs.btDelete
  refine ⟨{ s with leaves := before ++ h :: after, bcursor := (h.pgno, a.length), delcrsr := false }, before, h, after, a, b, hx, hy, hitems,
    rfl, rfl, hnodup, rfl, ?_⟩
  rw [hdelete]
  cases next <;> exact if_pos hs.seqinit

theorem records_eq_nil : records pages = [] ↔ ∀ h ∈ pages, h.items = [] := List.flatMap_eq_nil_iff

theorem Adjacent.of_prev {s₁ : Scan} (hseq : (s.btDelete.bind fun r => r.2.btSeq .prev) = some (.success bl, s₁)) (hat : s₁.At x bl y) :
    s.Adjacent false (x ++ [bl]) y := by
  refine ⟨.success bl, s₁, hseq, ?_⟩
  have hlast : (x ++ [bl]).getLast? = some bl := by simp
  have hdrop : (x ++ [bl]).dropLast = x := by simp
  simp only [Bool.false_eq_true, if_false, hlast, hdrop]
  exact ⟨trivial, hat⟩

theorem At.prev (hs : s.At x bl y) : s.Adjacent false x y := by
  obtain ⟨s₁, before, h, after, a, b, rfl, rfl, hitems, hleaves, hcursor, hnodup, hdelcrsr, hseq⟩ := hs.seq false
  have hadvance := (advance_eq hnodup hleaves hcursor).2
  rcases List.eq_nil_or_concat a with rfl | ⟨a, c, rfl⟩
  · rw [List.length_nil, if_pos rfl] at hadvance
    rcases find_nonempty before.reverse with ⟨hfind, hnil⟩ | ⟨l, p, r, heq, hne, hl, hfind⟩
    · rw [finalOf, hfind] at hadvance
      refine ⟨.special, s₁, hseq.trans (seqadv_special hadvance), ?_⟩
      have hrecords : records before = [] := records_eq_nil.2 fun p hp => records_eq_nil.1 hnil p (List.mem_reverse.2 hp)
      rw [hrecords]
      rfl
    · rw [finalOf, hfind] at hadvance
      obtain ⟨c, d, hp⟩ := (List.eq_nil_or_concat p.items).resolve_left hne
      have hbefore : before = r.reverse ++ p :: l.reverse := by
        rw [← List.reverse_reverse before, heq]
        simp
      have hempty : records l.reverse = [] := records_eq_nil.2 fun q hq => records_eq_nil.1 hl q (List.mem_reverse.1 hq)
      obtain ⟨s', hsettle, hat⟩ := settle_at hnodup hdelcrsr
        (show s₁.leaves = r.reverse ++ p :: (l.reverse ++ h :: after) by rw [hleaves, hbefore]; simp) (show p.items = c ++ d :: [] by rw [hp]; simp)
      have hx : records before ++ [] = (records r.reverse ++ c) ++ [d] := by
        rw [hbefore, records_append]
        show records r.reverse ++ (p.items ++ records l.reverse) ++ [] = _
        rw [hp, hempty]
        simp
      have hy : [] ++ records (l.reverse ++ h :: after) = b ++ records after := by
        rw [records_append, hempty]
        show [] ++ ([] ++ (h.items ++ records after)) = _
        rw [hitems]
        simp
      rw [hx]
      rw [hy] at hat
      refine Adjacent.of_prev (hseq.trans ((seqadv_settle hdelcrsr hadvance).trans ?_)) hat
      show s₁.settle (p.pgno, p.items.length - 1) = _
      rw [hp, List.concat_eq_append, List.length_append]
      exact hsettle
  · rw [if_neg (by simp)] at hadvance
    obtain ⟨s', hsettle, hat⟩ := settle_at hnodup hdelcrsr hleaves (show h.items = a ++ c :: b by rw [hitems]; simp)
    rw [List.concat_eq_append, ← List.append_assoc]
    refine Adjacent.of_prev (hseq.trans ((seqadv_settle hdelcrsr hadvance).trans ?_)) hat
    rw [List.concat_eq_append, List.length_append]
    exact hsettle

theorem At.next (hs : s.At x bl y) (hseq : (s.btDelete.bind fun r => r.2.btSeq .next) = some (r, s')) : y ≠ [] ∧
    (r = .special ∧ records s'.leaves ≠ [] ∨ ∃ bl' x' y', r = .success bl' ∧ s'.At x' bl' y' ∧ x.length < x'.length) := by
  obtain ⟨s₁, before, h, after, a, b, rfl, rfl, hitems, hleaves, hcursor, hnodup, hdelcrsr, hstep⟩ := hs.seq true
  have hadvance := (advance_eq hnodup hleaves hcursor).1
  rw [show (s.btDelete.bind fun r => r.2.btSeq .next) = s₁.seqadv true from hstep] at hseq
  rcases b with _ | ⟨c, _ | ⟨d, b⟩⟩
  · rw [hitems, if_neg (by simp)] at hadvance
    rw [seqadv_settle hdelcrsr hadvance] at hseq
    have hret : btRet (h.pgno, a.length + 1) s₁.leaves = none := by
      rw [hleaves] at hnodup ⊢
      rw [btRet_eq hnodup, hitems]
      simp
    unfold settle at hseq
    rw [hret] at hseq
    cases hseq
  · rw [hitems, if_pos (by simp)] at hadvance
    refine ⟨by simp, ?_⟩
    rcases find_nonempty after with ⟨hfind, hnil⟩ | ⟨l, p, r', heq, hne, hl, hfind⟩
    · rw [firstOf, hfind] at hadvance
      rw [seqadv_special hadvance] at hseq
      obtain ⟨rfl, rfl⟩ := Prod.mk.inj (Option.some.inj hseq)
      refine Or.inl ⟨rfl, fun hempty => ?_⟩
      have hitem := records_eq_nil.1 hempty h (by rw [hleaves]; simp)
      rw [hitems] at hitem
      simp at hitem
    · rw [firstOf, hfind] at hadvance
      rw [seqadv_settle hdelcrsr hadvance] at hseq
      obtain ⟨d, e, hp⟩ := List.exists_cons_of_ne_nil hne
      obtain ⟨s'', hsettle, hat⟩ := settle_at hnodup hdelcrsr
        (show s₁.leaves = (before ++ h :: l) ++ p :: r' by rw [hleaves, heq]; simp) (show p.items = [] ++ d :: e by rw [hp]; rfl)
      rw [show s₁.settle ((fun h : Page Bleaf => (h.pgno, 0)) p) = s₁.settle (p.pgno, ([] : List Bleaf).length) from rfl, hsettle] at hseq
      obtain ⟨rfl, rfl⟩ := Prod.mk.inj (Option.some.inj hseq)
      refine Or.inr ⟨d, _, _, rfl, hat, ?_⟩
      rw [records_append]
      show _ < (records before ++ (h.items ++ records l) ++ []).length
      rw [hitems]
      simp
  · rw [hitems, if_neg (by simp)] at hadvance
    rw [seqadv_settle hdelcrsr hadvance] at hseq
    obtain ⟨s'', hsettle, hat⟩ := settle_at hnodup hdelcrsr hleaves (show h.items = (a ++ [c]) ++ d :: b by rw [hitems]; simp)
    rw [List.length_append] at hsettle
    rw [show a.length + 1 = a.length + [c].length from rfl, hsettle] at hseq
    obtain ⟨rfl, rfl⟩ := Prod.mk.inj (Option.some.inj hseq)
    exact ⟨by simp, Or.inr ⟨d, _, _, rfl, hat, by simp⟩⟩

theorem At.adjacent_iff (hs : s.At x bl y) (next : Bool) : s.Adjacent next x y ↔ next = false := by
  cases next with
  | false => exact ⟨fun _ => rfl, fun _ => hs.prev⟩
  | true =>
    refine ⟨fun ⟨r, s', hseq, hneighbor⟩ => ?_, fun h => by cases h⟩
    obtain ⟨hne, hcases⟩ := hs.next hseq
    obtain ⟨c, y, rfl⟩ := List.exists_cons_of_ne_nil hne
    obtain ⟨hr, hat⟩ : r = .success c ∧ s'.At x c y := hneighbor
    rcases hcases with ⟨rfl, -⟩ | ⟨bl', x', y', rfl, hat', hlt⟩
    · cases hr
    · rw [hat.unique hat'] at hlt
      exact absurd hlt (Nat.lt_irrefl _)

theorem At.sweepFrom (hs : s.At x bl y) {n : Nat} {v : List Bleaf} (hsweep : s.sweepFrom bl n = some (v, s')) : records s'.leaves ≠ [] := by
  induction n generalizing s x bl y v with
  | zero => cases hsweep
  | succ n ih =>
    obtain ⟨⟨status, s₁⟩, hdelete, hrest⟩ := Option.bind_eq_some_iff.1 hsweep
    obtain ⟨⟨r, s₂⟩, hseq, hrest⟩ := Option.bind_eq_some_iff.1 hrest
    have hnext : (s.btDelete.bind fun r => r.2.btSeq .next) = some (r, s₂) := by
      rw [hdelete]
      exact hseq
    obtain ⟨-, hcases⟩ := hs.next hnext
    rcases hcases with ⟨rfl, hleft⟩ | ⟨bl', x', y', rfl, hat, -⟩
    · obtain ⟨-, rfl⟩ := Prod.mk.inj (Option.some.inj hrest)
      exact hleft
    · obtain ⟨⟨w, s₃⟩, hfrom, heq⟩ := Option.map_eq_some_iff.1 hrest
      obtain ⟨-, rfl⟩ := Prod.mk.inj heq
      exact ih hat hfrom

theorem btSeq_first {s : Scan} (hdelcrsr : s.delcrsr = false) :
    (firstOf s.leaves = none → s.btSeq .first = some (.special, s)) ∧ ∀ e, firstOf s.leaves = some e → s.btSeq .first = s.settle e := by
  unfold btSeq seqset
  rw [hdelcrsr]
  refine ⟨fun hfirst => ?_, fun e hfirst => ?_⟩
  · simp [hfirst]
  · simp [hfirst]

theorem sweep_iff {s : Scan} (hnodup : (s.leaves.map (·.pgno)).Nodup) (hdelcrsr : s.delcrsr = false) :
    (∃ n v s', s.sweep n = some (v, s') ∧ v = records s.leaves ∧ records s'.leaves = []) ↔ records s.leaves = [] := by
  rcases find_nonempty s.leaves with ⟨hfind, hnil⟩ | ⟨l, h, r, hleaves, hne, hl, hfind⟩
  · refine ⟨fun _ => hnil, fun _ => ⟨0, [], s, ?_, hnil.symm, hnil⟩⟩
    unfold sweep
    rw [(btSeq_first hdelcrsr).1 (by rw [firstOf, hfind]; rfl)]
    rfl
  · obtain ⟨bl, b, hitems⟩ := List.exists_cons_of_ne_nil hne
    obtain ⟨s₁, hsettle, hat⟩ := settle_at hnodup hdelcrsr hleaves (show h.items = [] ++ bl :: b by rw [hitems]; rfl)
    have hfirst : s.btSeq .first = some (.success bl, s₁) := ((btSeq_first hdelcrsr).2 (h.pgno, 0) (by rw [firstOf, hfind]; rfl)).trans hsettle
    refine ⟨fun ⟨n, v, s', hsweep, _, hempty⟩ => ?_, fun hempty => ?_⟩
    · unfold sweep at hsweep
      rw [hfirst] at hsweep
      exact absurd hempty (hat.sweepFrom hsweep)
    · exact absurd (records_eq_nil.1 hempty h (by rw [hleaves]; simp)) hne

/-- **Deletion under the cursor.** The next call finds the neighbour of the deleted record exactly when it goes back. -/
theorem btDelete_btSeq_iff (s : Scan) :
    (∀ (x : List Bleaf) (bl : Bleaf) (y : List Bleaf), s.At x bl y → ∀ next, s.Adjacent next x y ↔ next = false) ∧
      ((s.leaves.map (·.pgno)).Nodup → s.delcrsr = false →
        ((∃ n v s', s.sweep n = some (v, s') ∧ v = records s.leaves ∧ records s'.leaves = []) ↔ records s.leaves = [])) :=
  ⟨fun _ _ _ hs next => hs.adjacent_iff next, fun hnodup hdelcrsr => sweep_iff hnodup hdelcrsr⟩

def threeRecords : Scan where
  leaves := [⟨pRoot, [⟨⟨[1], none⟩, [10], false⟩, ⟨⟨[2], none⟩, [20], false⟩, ⟨⟨[3], none⟩, [30], false⟩], none⟩]
  bcursor := (pRoot, 1)
  seqinit := true

theorem threeRecords_at : threeRecords.At [⟨⟨[1], none⟩, [10], false⟩] ⟨⟨[2], none⟩, [20], false⟩ [⟨⟨[3], none⟩, [30], false⟩] :=
  ⟨by decide, rfl, rfl, [], _, [], [_], [_], rfl, rfl, rfl, rfl, rfl⟩

theorem btDelete_btSeq_iff_three : threeRecords.Adjacent false [⟨⟨[1], none⟩, [10], false⟩] [⟨⟨[3], none⟩, [30], false⟩] :=
  ((btDelete_btSeq_iff threeRecords).1 [⟨⟨[1], none⟩, [10], false⟩] ⟨⟨[2], none⟩, [20], false⟩ [⟨⟨[3], none⟩, [30], false⟩] threeRecords_at false).2 rfl

/-- The step forward from the second record of three, when that has been deleted, does not come to the third one. -/
theorem not_adjacent_next : ¬∀ (s : Scan) (x : List Bleaf) (bl : Bleaf) (y : List Bleaf), s.At x bl y → ∀ next, s.Adjacent next x y := fun h => by
  obtain ⟨r, s', hseq, hneighbor⟩ := h _ _ _ _ threeRecords_at true
  cases hseq
  cases hneighbor.1

end Scan

end NetBSD.Btree
