import NetBSD.Fnmatch.Fnmatch

/-!
# What is matched

The loop of `rangematch` finds the list of a bracket expression, and a turn of the loop of `fnmatch` does what the pattern says of the
rest of the string, as long as the turns behind it do. What is shown for all turns is shown by induction on the pattern.
-/

namespace NetBSD.Fnmatch

variable {fl : Flags} {noescape inner first : Bool} {prev real : Option Byte} {pattern string p q r s : Text}
  {a c c2 test : Byte} {ranges : List (Byte × Byte)} {t : List Tok}

theorem Clean.fine {t : Turn} (h : Clean fl t) : Fine fl t := h t .refl

theorem Clean.next {t t' : Turn} (h : Clean fl t) (hnext : Next fl t t') : Clean fl t' := fun t'' h' => h t'' (.head hnext h')

theorem Elem.unquote_eq (h : Elem noescape (c :: p) c2 q) : unquote noescape c p = some (c2, q) := by
  unfold unquote
  cases h with
  | plain _ _ h =>
    rw [if_neg]
    rintro ⟨hc, hno⟩
    exact hno (h hc)
  | quoted _ _ h => rw [if_pos ⟨rfl, by rw [h]; decide⟩]

theorem hit_self : hit test c none = (c.sle test && test.sle c) := by
  rw [hit, BitVec.sle, BitVec.sle, Bool.eq_iff_iff, beq_iff_eq, Bool.and_eq_true, decide_eq_true_iff, decide_eq_true_iff]
  constructor
  · rintro rfl
    exact ⟨le_refl _, le_refl _⟩
  · rintro ⟨hle, hge⟩
    exact BitVec.eq_of_toInt_eq (le_antisymm hle hge)

theorem rangeEnd_single (h : ∀ c2 q', q = dash :: c2 :: q' → c2 = rbracket) : rangeEnd noescape q = some (none, q) := by
  unfold rangeEnd
  split
  · rename_i x y q'
    rw [if_neg]
    rintro ⟨rfl, hne⟩
    exact hne (h _ _ rfl)
  · rfl

theorem rangeEnd_range (hq : q.head? ≠ some rbracket) (h : Elem noescape q c r) :
    rangeEnd noescape (dash :: q) = some (some c, r) := by
  obtain ⟨x, q, rfl⟩ : ∃ x q', q = x :: q' := by cases h <;> exact ⟨_, _, rfl⟩
  have hne : x ≠ rbracket := fun hx => hq (by rw [hx]; rfl)
  rw [rangeEnd, if_pos ⟨rfl, hne⟩, h.unquote_eq]
  rfl

theorem Lists.rangeLoop (h : Lists noescape first p ranges r) (hp : first = true → p.head? ≠ some rbracket) (test : Byte)
    (ok : Bool) :
    rangeLoop noescape test ok p = some (ok || listed ranges test, r) := by
  induction h generalizing ok with
  | done p => rw [Fnmatch.rangeLoop, if_pos rfl, listed, List.any_nil, Bool.or_false]
  | @single first p q r c ranges hfirst helem hdash _ ih =>
    obtain ⟨x, p, rfl⟩ : ∃ x p', p = x :: p' := by cases helem <;> exact ⟨_, _, rfl⟩
    have hx : x ≠ rbracket := by
      rintro rfl
      cases first with
      | true => exact hp rfl rfl
      | false => exact hfirst rfl rfl
    rw [rangeLoop_cons hx, helem.unquote_eq, Option.bind_some, rangeEnd_single hdash, Option.bind_some,
      ih (fun h => by cases h), hit_self, Bool.or_assoc]
    rfl
  | @range first p q q' r lo hi ranges hfirst hlo hq hhi _ ih =>
    obtain ⟨x, p, rfl⟩ : ∃ x p', p = x :: p' := by cases hlo <;> exact ⟨_, _, rfl⟩
    have hx : x ≠ rbracket := by
      rintro rfl
      cases first with
      | true => exact hp rfl rfl
      | false => exact hfirst rfl rfl
    rw [rangeLoop_cons hx, hlo.unquote_eq, Option.bind_some, rangeEnd_range hq hhi, Option.bind_some,
      ih (fun h => by cases h), hit, Bool.or_assoc]
    rfl

theorem Lists.rangematch (h : Lists noescape true (negation p).2 ranges r) (hp : (negation p).2.head? ≠ some rbracket)
    (test : Byte) :
    rangematch noescape p test = if listed ranges test = (negation p).1 then none else some r := by
  rw [Fnmatch.rangematch, h.rangeLoop (fun _ => hp)]
  rfl

theorem matches_star_star (prev : Option Byte) (t : List Tok) (s : Text) :
    Matches fl prev (.star :: .star :: t) s ↔ Matches fl prev (.star :: t) s := by
  constructor
  · rintro ⟨hlead, b, s', rfl, hb, -, b', rest, rfl, hb', hrest⟩
    refine ⟨hlead, b ++ b', rest, (List.append_assoc ..).symm, fun hpath hmem => ?_, ?_⟩
    · obtain hmem | hmem := List.mem_append.1 hmem
      · exact hb hpath hmem
      · exact hb' hpath hmem
    · rw [List.getLast?_append, Option.or_assoc]
      exact hrest
  · rintro ⟨hlead, b, rest, rfl, hb, hrest⟩
    exact ⟨hlead, [], _, rfl, fun _ => List.not_mem_nil, hlead, b, rest, rfl, hb, hrest⟩

theorem Reads.collapse (h : Reads noescape p t) : ∃ t', Reads noescape (p.dropWhile (· = Fnmatch.star)) t' ∧
    ∀ fl prev s, Matches fl prev (.star :: t) s ↔ Matches fl prev (.star :: t') s := by
  induction p generalizing t with
  | nil => exact ⟨t, h, fun _ _ _ => .rfl⟩
  | cons c p ih =>
    by_cases hc : c = Fnmatch.star
    · subst hc
      rw [List.dropWhile_cons_of_pos (by decide)]
      cases h with
      | star h =>
        obtain ⟨t', ht', hiff⟩ := ih h
        exact ⟨t', ht', fun fl prev s => (matches_star_star ..).trans (hiff fl prev s)⟩
      | plain hc _ => exact absurd rfl hc.2.1
    · rw [List.dropWhile_cons_of_neg (by simpa using hc)]
      exact ⟨t, h, fun _ _ _ => .rfl⟩

theorem starLoop_iff {f : Text → Bool} {pathname : Bool} (P : Text → Text → Prop) (s : Text)
    (h : ∀ before rest, s = before ++ rest → rest ≠ [] → (pathname = true → slash ∉ before) →
      (∀ b b', before = b ++ b' → b' ≠ [] → f (b' ++ rest) = false) → (f rest = true ↔ P before rest)) :
    starLoop pathname f s = true ↔
      ∃ before rest, s = before ++ rest ∧ rest ≠ [] ∧ (pathname = true → slash ∉ before) ∧ P before rest := by
  induction s generalizing P with
  | nil =>
    refine iff_of_false (by rw [starLoop]; decide) ?_
    rintro ⟨before, rest, hnil, hrest, -, -⟩
    exact hrest (List.append_eq_nil_iff.1 hnil.symm).2
  | cons c s ih =>
    have hfirst : f (c :: s) = true ↔ P [] (c :: s) := h [] (c :: s) rfl (List.cons_ne_nil _ _) (fun _ => List.not_mem_nil)
      fun b b' hb hb' => absurd (List.append_eq_nil_iff.1 hb.symm).2 hb'
    rw [starLoop]
    by_cases hf : f (c :: s) = true
    · rw [hf, Bool.true_or]
      exact iff_of_true rfl ⟨[], c :: s, rfl, List.cons_ne_nil _ _, fun _ => List.not_mem_nil, hfirst.1 hf⟩
    rw [Bool.eq_false_iff.2 hf, Bool.false_or, Bool.and_eq_true, Bool.not_eq_true', Bool.and_eq_false_imp]
    have hrest :
        (∃ before rest, c :: s = before ++ rest ∧ rest ≠ [] ∧ (pathname = true → slash ∉ before) ∧ P before rest) ↔
          ∃ before rest, s = before ++ rest ∧ rest ≠ [] ∧ (pathname = true → slash ∉ c :: before) ∧
            P (c :: before) rest := by
      constructor
      · rintro ⟨before, rest, heq, hne, hslash, hP⟩
        cases before with
        | nil =>
          rw [List.nil_append] at heq
          subst heq
          exact absurd (hfirst.2 hP) hf
        | cons x before =>
          rw [List.cons_append] at heq
          obtain ⟨rfl, rfl⟩ := List.cons_eq_cons.1 heq
          exact ⟨before, rest, rfl, hne, hslash, hP⟩
      · rintro ⟨before, rest, rfl, hne, hslash, hP⟩
        exact ⟨c :: before, rest, rfl, hne, hslash, hP⟩
    rw [hrest]
    by_cases hc : c = slash ∧ pathname = true
    · refine iff_of_false (fun hand => ?_) ?_
      · have hno := hand.1 (beq_iff_eq.2 hc.1)
        rw [hc.2] at hno
        cases hno
      · rintro ⟨before, rest, -, -, hslash, -⟩
        exact hslash hc.2 (by rw [hc.1]; exact List.mem_cons_self ..)
    · have hgo : (c == slash) = true → pathname = false := fun heq => by
        cases hpath : pathname with
        | true => exact absurd ⟨beq_iff_eq.1 heq, hpath⟩ hc
        | false => rfl
      have hcons (before : Text) : (pathname = true → slash ∉ c :: before) ↔ (pathname = true → slash ∉ before) := by
        refine ⟨fun hs hpath hmem => hs hpath (List.mem_cons_of_mem _ hmem), fun hs hpath hmem => ?_⟩
        obtain heq | hmem := List.mem_cons.1 hmem
        · exact hc ⟨heq.symm, hpath⟩
        · exact hs hpath hmem
      simp only [hcons]
      rw [ih (fun before rest => P (c :: before) rest) fun before rest heq hne hslash hfails => ?_]
      · exact ⟨fun h => h.2, fun h => ⟨hgo, h⟩⟩
      · refine h (c :: before) rest (by rw [heq]; rfl) hne ((hcons before).2 hslash) fun b b' hb hb' => ?_
        cases b with
        | nil =>
          rw [List.nil_append] at hb
          rw [← hb, List.cons_append, ← heq]
          exact Bool.eq_false_iff.2 hf
        | cons x b =>
          rw [List.cons_append] at hb
          obtain ⟨-, hb⟩ := List.cons_eq_cons.1 hb
          exact hfails b b' hb hb'

theorem inCall_true (fl : Flags) (inner : Bool) : { fl.inCall inner with period := false } = fl.inCall true := by
  rw [Flags.inCall, Flags.inCall, Bool.not_true, Bool.and_false]

theorem fnmatchFrom_eos (hp : front fl.noescape pattern = .eos) :
    fnmatchFrom (fl.inCall inner) prev pattern string = string.isEmpty := by
  rw [fnmatchFrom]
  split <;> rename_i heq <;> cases hp.symm.trans heq
  rfl

theorem fnmatchFrom_question (hp : front fl.noescape pattern = .question p) :
    fnmatchFrom (fl.inCall inner) prev pattern (a :: s) =
      if a = slash ∧ fl.pathname = true then false
      else if Leads (fl.inCall inner) prev (a :: s) then false
      else fnmatchFrom (fl.inCall inner) (some a) p s := by
  rw [fnmatchFrom]
  split <;> rename_i heq <;> cases hp.symm.trans heq
  rfl

theorem fnmatchFrom_star (hp : front fl.noescape pattern = .star p) :
    fnmatchFrom (fl.inCall inner) prev pattern s =
      if Leads (fl.inCall inner) prev s then false
      else if p = [] then !(fl.pathname && s.contains slash)
      else if p.head? = some slash ∧ fl.pathname = true then
        if s.contains slash = true then
          fnmatchFrom (fl.inCall inner) ((s.takeWhile (· ≠ slash)).getLast?.or prev) p (s.dropWhile (· ≠ slash))
        else false
      else starLoop fl.pathname (fun s => fnmatchFrom (fl.inCall true) none p s) s := by
  rw [fnmatchFrom]
  split <;> rename_i heq <;> cases hp.symm.trans heq
  rw [inCall_true]
  rfl

theorem fnmatchFrom_bracket (hp : front fl.noescape pattern = .bracket p) :
    fnmatchFrom (fl.inCall inner) prev pattern (a :: s) =
      if a = slash ∧ fl.pathname = true then false
      else ((rangematch fl.noescape p a).map fun p' => fnmatchFrom (fl.inCall inner) (some a) p' s).getD false := by
  rw [fnmatchFrom]
  split <;> rename_i heq <;> cases hp.symm.trans heq
  refine if_congr .rfl rfl ?_
  split
  · rename_i hm
    rw [show rangematch fl.noescape p a = none from hm]
    rfl
  · rename_i hm
    rw [show rangematch fl.noescape p a = some _ from hm]
    rfl

theorem fnmatchFrom_literal (hp : front fl.noescape pattern = .literal c p) :
    fnmatchFrom (fl.inCall inner) prev pattern (a :: s) = (c == a && fnmatchFrom (fl.inCall inner) (some a) p s) := by
  rw [fnmatchFrom]
  split <;> rename_i heq <;> cases hp.symm.trans heq
  rfl

theorem fnmatchFrom_nil (hstar : ∀ p, front fl.noescape pattern ≠ .star p) (hne : front fl.noescape pattern ≠ .eos) :
    fnmatchFrom (fl.inCall inner) prev pattern [] = false := by
  rw [fnmatchFrom]
  split
  · exact absurd ‹_› hne
  · rfl
  · exact absurd ‹_› (hstar _)
  · rfl
  · rfl

def Turn.Knows (fl : Flags) (real : Option Byte) (t : Turn) : Prop := Leads fl real t.string ↔ t.AtPeriod fl

theorem knows_some (h : ∃ x, prev = some x) : Turn.Knows fl prev ⟨inner, prev, pattern, s⟩ := by
  obtain ⟨x, rfl⟩ := h
  have hnone : ¬(some x = none) := fun h => by cases h
  constructor
  · rintro ⟨hhead, hperiod, hnil | hpath⟩
    · exact absurd hnil hnone
    · exact ⟨hhead, hperiod, .inr hpath⟩
  · rintro ⟨hhead, hperiod, ⟨-, hnil⟩ | hpath⟩
    · exact absurd hnil hnone
    · exact ⟨hhead, hperiod, .inr hpath⟩

theorem leads_iff (hknows : Turn.Knows fl real ⟨inner, prev, pattern, s⟩)
    (hinner : Turn.AtPeriod fl ⟨inner, prev, pattern, s⟩ → inner = true → False) :
    Leads (fl.inCall inner) prev s ↔ Leads fl real s := by
  rw [show Leads fl real s ↔ _ from hknows]
  cases inner with
  | true =>
    refine iff_of_false (fun h => ?_) fun h => hinner h rfl
    have hperiod := h.2.1
    rw [Flags.inCall, Bool.not_true, Bool.and_false] at hperiod
    cases hperiod
  | false =>
    rw [Leads, Turn.AtPeriod, Flags.inCall, Bool.not_false, Bool.and_true]
    exact and_congr_right fun _ => and_congr_right fun _ => or_congr_left ⟨fun h => ⟨rfl, h⟩, fun h => h.2⟩

theorem not_leads_after {before rest : Text} (hlead : ¬Leads fl real (before ++ rest))
    (hbefore : fl.pathname = true → slash ∉ before) :
    ¬Leads fl (before.getLast?.or real) rest := by
  rintro ⟨hhead, hperiod, hprev⟩
  cases hlast : before.getLast? with
  | none =>
    rw [List.getLast?_eq_none_iff.1 hlast] at hlead
    rw [hlast, Option.none_or] at hprev
    exact hlead ⟨hhead, hperiod, hprev⟩
  | some x =>
    rw [hlast, Option.some_or] at hprev
    obtain hnone | ⟨hpath, hx⟩ := hprev
    · cases hnone
    · cases hx
      exact hbefore hpath (List.mem_of_getLast? hlast)

theorem matches_nil_false {t : List Tok} (hreads : Reads noescape p t) (hne : p ≠ []) (hstar : p.head? ≠ some star)
    (prev : Option Byte) :
    ¬Matches fl prev t [] := by
  cases hreads with
  | nil => exact absurd rfl hne
  | star _ => exact absurd rfl hstar
  | question _ => rintro ⟨a, s, h, -⟩; cases h
  | bracket _ _ => rintro ⟨a, s, h, -⟩; cases h
  | quoted _ _ => rintro ⟨s, h, -⟩; cases h
  | last _ => rintro ⟨s, h, -⟩; cases h
  | plain _ _ => rintro ⟨s, h, -⟩; cases h

theorem star_slash {t : List Tok} (hpath : fl.pathname = true) (s : Text) :
    (∃ before rest, s = before ++ rest ∧ (fl.pathname = true → slash ∉ before) ∧
        Matches fl (before.getLast?.or real) (.literal slash :: t) rest) ↔
      slash ∈ s ∧
        Matches fl ((s.takeWhile (· ≠ slash)).getLast?.or real) (.literal slash :: t) (s.dropWhile (· ≠ slash)) := by
  constructor
  · rintro ⟨before, rest, rfl, hbefore, s', rfl, hrest⟩
    have hall : ∀ x ∈ before, decide (x ≠ slash) = true := fun x hx =>
      decide_eq_true fun heq => hbefore hpath (heq ▸ hx)
    rw [List.takeWhile_append_of_pos hall, List.dropWhile_append_of_pos hall, List.takeWhile_cons_of_neg (by decide),
      List.dropWhile_cons_of_neg (by decide), List.append_nil]
    exact ⟨List.mem_append_right _ (List.mem_cons_self ..), s', rfl, hrest⟩
  · rintro ⟨-, hmatch⟩
    refine ⟨_, _, (List.takeWhile_append_dropWhile (p := (· ≠ slash)) (l := s)).symm, fun _ hmem => ?_, hmatch⟩
    have hne := List.mem_takeWhile_imp hmem
    simp at hne

theorem fnmatchFrom_iff (hreads : Reads fl.noescape pattern t) (hclean : Clean fl ⟨inner, prev, pattern, s⟩)
    (hknows : Turn.Knows fl real ⟨inner, prev, pattern, s⟩) :
    fnmatchFrom (fl.inCall inner) prev pattern s = true ↔ Matches fl real t s := by
  induction hn : pattern.length using Nat.strong_induction_on generalizing pattern t inner prev real s with
  | _ n ih =>
    subst hn
    have hfine := hclean.fine
    have hlt (hne : front fl.noescape pattern ≠ .eos) := front_rest_length hne
    have hliteral {c p t} (hp : front fl.noescape pattern = .literal c p) (h : Reads fl.noescape p t) :
        fnmatchFrom (fl.inCall inner) prev pattern s = true ↔ Matches fl real (.literal c :: t) s := by
      have hshort := hlt fun he => by cases hp.symm.trans he
      rw [hp] at hshort
      cases s with
      | nil =>
        rw [fnmatchFrom_nil (fun q hq => by cases hp.symm.trans hq) fun hq => by cases hp.symm.trans hq]
        refine iff_of_false (by decide) ?_
        rintro ⟨s, h, -⟩
        cases h
      | cons a s =>
        rw [fnmatchFrom_literal hp, Bool.and_eq_true, beq_iff_eq]
        constructor
        · rintro ⟨rfl, hrest⟩
          exact ⟨s, rfl, (ih _ hshort h (hclean.next (.literal hp)) (knows_some ⟨c, rfl⟩) rfl).1 hrest⟩
        · rintro ⟨s', heq, hmatch⟩
          obtain ⟨rfl, rfl⟩ := List.cons_eq_cons.1 heq
          exact ⟨rfl, (ih _ hshort h (hclean.next (.literal hp)) (knows_some ⟨a, rfl⟩) rfl).2 hmatch⟩
    cases hreads with
    | nil =>
      rw [fnmatchFrom_eos rfl, List.isEmpty_iff]
      rfl
    | @question p t h =>
      have hp : front fl.noescape (question :: p) = .question p := rfl
      have hlead := leads_iff hknows fun hl hi => (hfine.inner hl hi p).1 hp
      cases s with
      | nil =>
        rw [fnmatchFrom_nil (fun q hq => by cases hp.symm.trans hq) fun hq => by cases hp.symm.trans hq]
        refine iff_of_false (by decide) ?_
        rintro ⟨a, s, h, -⟩
        cases h
      | cons a s =>
        rw [fnmatchFrom_question hp]
        by_cases hslash : a = slash ∧ fl.pathname = true
        · rw [if_pos hslash]
          refine iff_of_false (by decide) ?_
          rintro ⟨x, s', heq, hno, -⟩
          obtain ⟨rfl, -⟩ := List.cons_eq_cons.1 heq
          exact hno hslash
        rw [if_neg hslash]
        by_cases hl : Leads (fl.inCall inner) prev (a :: s)
        · rw [if_pos hl]
          refine iff_of_false (by decide) ?_
          rintro ⟨x, s', heq, -, hno, -⟩
          exact hno (hlead.1 hl)
        rw [if_neg hl, ih _ (hlt (fun h => by cases h)) h (hclean.next (.question hp hslash hl)) (knows_some ⟨a, rfl⟩) rfl]
        constructor
        · exact fun hmatch => ⟨a, s, rfl, hslash, fun hreal => hl (hlead.2 hreal), hmatch⟩
        · rintro ⟨x, s', heq, -, -, hmatch⟩
          obtain ⟨rfl, rfl⟩ := List.cons_eq_cons.1 heq
          exact hmatch
    | @star p t h =>
      obtain ⟨t', ht', hcollapse⟩ := h.collapse
      obtain ⟨q, hq⟩ : ∃ q, p.dropWhile (· = star) = q := ⟨_, rfl⟩
      have hp : front fl.noescape (star :: p) = .star q := by rw [← hq]; rfl
      have hshort := hlt fun he => by cases hp.symm.trans he
      rw [hp] at hshort
      rw [hq] at ht'
      have hlead := leads_iff hknows fun hl hi => (hfine.inner hl hi q).2 hp
      rw [hcollapse, fnmatchFrom_star hp]
      by_cases hl : Leads (fl.inCall inner) prev s
      · rw [if_pos hl]
        exact iff_of_false (by decide) fun hmatch => hmatch.1 (hlead.1 hl)
      have hreal : ¬Leads fl real s := fun hreal => hl (hlead.2 hreal)
      have hstar : Matches fl real (.star :: t') s ↔
          ∃ before rest, s = before ++ rest ∧ (fl.pathname = true → slash ∉ before) ∧
            Matches fl (before.getLast?.or real) t' rest := and_iff_right hreal
      rw [if_neg hl, hstar]
      by_cases hnil : q = []
      · subst hnil
        cases ht'
        rw [if_pos rfl, Bool.not_eq_true', Bool.and_eq_false_imp, List.contains_eq_mem]
        constructor
        · exact fun hno => ⟨s, [], (List.append_nil s).symm, fun hpath => of_decide_eq_false (hno hpath), rfl⟩
        · rintro ⟨before, rest, heq, hbefore, hrest⟩ hpath
          rw [show rest = [] from hrest, List.append_nil] at heq
          rw [heq]
          exact decide_eq_false (hbefore hpath)
      rw [if_neg hnil]
      by_cases hslash : q.head? = some slash ∧ fl.pathname = true
      · rw [if_pos hslash]
        obtain ⟨q', rfl⟩ : ∃ q', q = slash :: q' := by
          cases q with
          | nil => exact absurd rfl hnil
          | cons x q' => exact ⟨q', by rw [Option.some.inj hslash.1]⟩
        obtain ⟨t₀, rfl⟩ : ∃ t₀, t' = .literal slash :: t₀ := by
          cases ht'
          exact ⟨_, rfl⟩
        rw [star_slash hslash.2]
        by_cases hs : slash ∈ s
        · rw [if_pos (List.contains_iff_mem.2 hs), and_iff_right hs]
          refine ih _ hshort ht' (hclean.next (.slash hp hl hslash hs)) ?_ rfl
          have hhead : (s.dropWhile (· ≠ slash)).head? ≠ some period := by
            intro hhead
            have hnot := List.head?_dropWhile_not (fun x : Byte => decide (x ≠ slash)) s
            rw [hhead] at hnot
            exact absurd hnot (by decide)
          exact iff_of_false (fun h => hhead h.1) fun h => hhead h.1
        · rw [if_neg fun h => hs (List.contains_iff_mem.1 h)]
          exact iff_of_false (by decide) fun h => hs h.1
      · rw [if_neg hslash, starLoop_iff (fun before rest => Matches fl (before.getLast?.or real) t' rest)]
        · have hhead : q.head? ≠ some star := by
            intro hhead
            have hnot := List.head?_dropWhile_not (fun x : Byte => decide (x = star)) p
            rw [hq, hhead] at hnot
            exact absurd hnot (by decide)
          constructor
          · rintro ⟨before, rest, heq, -, hbefore, hmatch⟩
            exact ⟨before, rest, heq, hbefore, hmatch⟩
          · rintro ⟨before, rest, heq, hbefore, hmatch⟩
            refine ⟨before, rest, heq, ?_, hbefore, hmatch⟩
            rintro rfl
            exact matches_nil_false ht' hnil hhead _ hmatch
        · rintro before rest rfl hrest hbefore hfails
          refine ih _ hshort ht' (hclean.next (.star hp hl hnil hslash hrest hbefore hfails)) ?_ rfl
          refine iff_of_false (not_leads_after hreal hbefore) ?_
          rintro ⟨-, -, ⟨hinner, -⟩ | ⟨-, hprev⟩⟩
          · cases hinner
          · cases hprev
    | @bracket p r ranges t hlist h =>
      have hp : front fl.noescape (lbracket :: p) = .bracket p := rfl
      have hshort := hlt fun he => by cases hp.symm.trans he
      rw [hp] at hshort
      cases s with
      | nil =>
        rw [fnmatchFrom_nil (fun q hq => by cases hp.symm.trans hq) fun hq => by cases hp.symm.trans hq]
        refine iff_of_false (by decide) ?_
        rintro ⟨a, s, h, -⟩
        cases h
      | cons a s =>
        rw [fnmatchFrom_bracket hp]
        by_cases hslash : a = slash ∧ fl.pathname = true
        · rw [if_pos hslash]
          refine iff_of_false (by decide) ?_
          rintro ⟨x, s', heq, hno, -⟩
          obtain ⟨rfl, -⟩ := List.cons_eq_cons.1 heq
          exact hno hslash
        have hmatch := hlist.rangematch (hfine.list p a s hp rfl hslash) a
        rw [if_neg hslash]
        by_cases hlisted : listed ranges a = (negation p).1
        · rw [hmatch, if_pos hlisted, Option.map_none, Option.getD_none]
          refine iff_of_false (by decide) ?_
          rintro ⟨x, s', heq, -, -, hno, -⟩
          obtain ⟨rfl, -⟩ := List.cons_eq_cons.1 heq
          exact hno hlisted
        rw [if_neg hlisted] at hmatch
        have hreal : ¬Leads fl real (a :: s) := by
          intro hreal
          have hperiod : a = period := Option.some.inj hreal.1
          have hnone := hfine.bracket (hknows.1 hreal) p hp
          rw [← hperiod, hmatch] at hnone
          cases hnone
        rw [hmatch, Option.map_some, Option.getD_some,
          ih _ ((rangematch_suffix hmatch).length_le.trans_lt hshort) h (hclean.next (.bracket hp hslash hmatch))
            (knows_some ⟨a, rfl⟩) rfl]
        constructor
        · exact fun hrest => ⟨a, s, rfl, hslash, hreal, hlisted, hrest⟩
        · rintro ⟨x, s', heq, -, -, -, hrest⟩
          obtain ⟨rfl, rfl⟩ := List.cons_eq_cons.1 heq
          exact hrest
    | quoted hquote h =>
      refine hliteral ?_ h
      rw [hquote]
      rfl
    | last hquote =>
      refine hliteral ?_ .nil
      rw [hquote]
      rfl
    | @plain c p t hc h =>
      refine hliteral ?_ h
      rw [front, if_neg hc.1, if_neg hc.2.1, if_neg hc.2.2.1, if_neg fun hq => hq.2 (hc.2.2.2 hq.1)]

/-- **`fnmatch` returns zero exactly for the strings that the pattern says**, when all turns that are come to are fine. -/
theorem fnmatch_matches (fl : Flags) (pattern string : Text) (t : List Tok) (hreads : Reads fl.noescape pattern t)
    (hclean : Clean fl ⟨false, none, pattern, string⟩) : fnmatch pattern string fl = 0 ↔ Matches fl none t string := by
  have hknows : Turn.Knows fl none ⟨false, none, pattern, string⟩ :=
    and_congr_right fun _ => and_congr_right fun _ => or_congr_left ⟨fun _ => ⟨rfl, rfl⟩, fun _ => rfl⟩
  have hturn := fnmatchFrom_iff hreads hclean hknows
  rw [show fl.inCall false = fl by rw [Flags.inCall, Bool.not_false, Bool.and_true]] at hturn
  rw [← hturn, fnmatch]
  cases fnmatchFrom fl none pattern string with
  | false => exact iff_of_false (by decide) (by decide)
  | true => exact iff_of_true rfl rfl

theorem Next.suffix {t t' : Turn} (h : Next fl t t') : t'.pattern <:+ t.pattern := by
  have hrest (pattern : Text) : (front fl.noescape pattern).rest <:+ pattern := by
    cases pattern with
    | nil => exact List.suffix_rfl
    | cons c p => exact (front_rest_suffix ..).trans (List.suffix_cons ..)
  cases h with
  | @question _ _ pattern _ _ _ hp _ _ => simpa only [hp, Front.rest] using hrest pattern
  | @slash _ _ pattern _ _ hp _ _ _ => simpa only [hp, Front.rest] using hrest pattern
  | @star _ _ pattern _ _ _ hp _ _ _ _ _ _ => simpa only [hp, Front.rest] using hrest pattern
  | @bracket _ _ pattern _ _ _ _ hp _ hmatch =>
    exact (rangematch_suffix hmatch).trans (by simpa only [hp, Front.rest] using hrest pattern)
  | @literal _ _ pattern _ _ _ hp => simpa only [hp, Front.rest] using hrest pattern

theorem front_eq_bracket (h : front noescape pattern = .bracket p) : pattern = lbracket :: p := by
  cases pattern with
  | nil => cases h
  | cons c q =>
    rw [front] at h
    split at h
    · cases h
    split at h
    · cases h
    split at h
    · rename_i hc
      cases h
      rw [hc]
    split at h <;> cases h

theorem clean_of_suffixes {t : Turn} (hperiod : fl.period = false)
    (hlist : ∀ p, lbracket :: p <:+ t.pattern → (negation p).2.head? ≠ some rbracket) : Clean fl t := by
  intro t' hcomes
  have hsuffix : t'.pattern <:+ t.pattern := by
    induction hcomes with
    | refl => exact List.suffix_rfl
    | tail _ hnext ih => exact hnext.suffix.trans ih
  have hnot : ¬t'.AtPeriod fl := fun h => by
    have htrue := h.2.1
    rw [hperiod] at htrue
    cases htrue
  exact ⟨fun p a s hp _ _ => hlist p (front_eq_bracket hp ▸ hsuffix), fun h => absurd h hnot, fun h => absurd h hnot⟩

theorem fnmatch_matches_slash : fnmatch [star, slash, question] [97, slash, 98] { pathname := true } = 0 ↔
    Matches { pathname := true } none [.star, .literal slash, .any] [97, slash, 98] :=
  fnmatch_matches { pathname := true } [star, slash, question] [97, slash, 98] [.star, .literal slash, .any]
    (.star (.plain (by decide) (.question .nil)))
    (clean_of_suffixes rfl fun _ h => absurd (h.subset (List.mem_cons_self ..)) (by decide))

/-- The list of `[]a]` has a bracket and the letter in it. -/
theorem bracket_not_listed : ∃ t, Reads false [lbracket, rbracket, 97, rbracket] t ∧
    ¬(fnmatch [lbracket, rbracket, 97, rbracket] [97] {} = 0 ↔ Matches {} none t [97]) := by
  have hlists : Lists false true (negation [rbracket, 97, rbracket]).2 [(rbracket, rbracket), (97, 97)] [] :=
    .single (fun h => by cases h) (.plain _ _ (by decide)) (fun _ _ h => by cases h)
      (.single (by decide) (.plain _ _ (by decide)) (fun _ _ h => by cases h) (.done []))
  have hloop : rangematch false [rbracket, 97, rbracket] 97 = none := by
    rw [rangematch, show (negation [rbracket, 97, rbracket]).2 = [rbracket, 97, rbracket] from rfl, rangeLoop, if_pos rfl]
    rfl
  have hfails : fnmatchFrom (Flags.inCall {} false) none [lbracket, rbracket, 97, rbracket] [97] = false := by
    have hfront : front ({} : Flags).noescape [lbracket, rbracket, 97, rbracket] = .bracket [rbracket, 97, rbracket] := rfl
    rw [fnmatchFrom_bracket hfront, if_neg (by decide), show rangematch ({} : Flags).noescape _ _ = none from hloop]
    rfl
  refine ⟨_, .bracket hlists .nil, fun h => ?_⟩
  have hzero := h.2 ⟨97, [], rfl, by decide, by decide, by decide, rfl⟩
  rw [fnmatch, show fnmatchFrom {} none [lbracket, rbracket, 97, rbracket] [97] = false from hfails] at hzero
  cases hzero

end NetBSD.Fnmatch
