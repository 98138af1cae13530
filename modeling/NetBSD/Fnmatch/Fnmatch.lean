import NetBSD.Mbuf.Chain
import Mathlib.Logic.Relation
import Mathlib.Data.List.TakeWhile

/-!
# Matching names

`fnmatch`. A string is the list of its characters without the NUL at its end, a pointer into it is what is left of it, and the
character before is kept next to the pointer. Characters have a sign.
-/

namespace NetBSD.Fnmatch

abbrev Text := List Byte

abbrev slash : Byte := 47
abbrev period : Byte := 46
abbrev question : Byte := 63
abbrev star : Byte := 42
abbrev lbracket : Byte := 91
abbrev rbracket : Byte := 93
abbrev backslash : Byte := 92
abbrev dash : Byte := 45
abbrev bang : Byte := 33
abbrev circumflex : Byte := 94

abbrev fnmNomatch : Nat := 1

structure Flags where
  noescape : Bool := false
  pathname : Bool := false
  period : Bool := false

def unquote (noescape : Bool) (c : Byte) (p : Text) : Option (Byte × Text) :=
  if c = backslash ∧ ¬noescape then
    match p with
    | [] => none
    | c :: p => some (c, p)
  else some (c, p)

def rangeEnd (noescape : Bool) : Text → Option (Option Byte × Text)
  | c :: c2 :: p =>
    if c = dash ∧ c2 ≠ rbracket then (unquote noescape c2 p).map fun (c2, p) => (some c2, p) else some (none, c :: c2 :: p)
  | p => some (none, p)

def hit (test c : Byte) : Option Byte → Bool
  | none => c == test
  | some c2 => c.sle test && test.sle c2

theorem unquote_suffix {noescape : Bool} {c c' : Byte} {p p' : Text} (h : unquote noescape c p = some (c', p')) : p' <:+ p := by
  unfold unquote at h
  split at h
  · cases p with
    | nil => cases h
    | cons x p =>
      cases h
      exact List.suffix_cons ..
  · cases h
    exact List.suffix_rfl

theorem rangeEnd_suffix {noescape : Bool} {c2 : Option Byte} {p p' : Text} (h : rangeEnd noescape p = some (c2, p')) : p' <:+ p := by
  unfold rangeEnd at h
  split at h
  · rename_i c x q
    split at h
    · obtain ⟨⟨y, q'⟩, hq, heq⟩ := Option.map_eq_some_iff.1 h
      cases heq
      exact (unquote_suffix hq).trans ((List.suffix_cons ..).trans (List.suffix_cons ..))
    · cases h
      exact List.suffix_rfl
  · cases h
    exact List.suffix_rfl

def rangeLoop (noescape : Bool) (test : Byte) (ok : Bool) : Text → Option (Bool × Text)
  | [] => none
  | c :: p =>
    if c = rbracket then some (ok, p)
    else
      match _hc : unquote noescape c p with
      | none => none
      | some (c, p') =>
        match _hend : rangeEnd noescape p' with
        | none => none
        | some (c2, p'') => rangeLoop noescape test (ok || hit test c c2) p''
termination_by p => p.length
decreasing_by
  have hle := (unquote_suffix _hc).length_le
  have hle' := (rangeEnd_suffix _hend).length_le
  rw [List.length_cons]
  omega

def negation (p : Text) : Bool × Text :=
  if p.head? = some bang ∨ p.head? = some circumflex then (true, p.tail) else (false, p)

def rangematch (noescape : Bool) (p : Text) (test : Byte) : Option Text :=
  match rangeLoop noescape test false (negation p).2 with
  | none => none
  | some (ok, p') => if ok = (negation p).1 then none else some p'

theorem rangeLoop_cons {noescape ok : Bool} {test c : Byte} {p : Text} (hc : c ≠ rbracket) :
    rangeLoop noescape test ok (c :: p) = (unquote noescape c p).bind fun q =>
      (rangeEnd noescape q.2).bind fun r => rangeLoop noescape test (ok || hit test q.1 r.1) r.2 := by
  rw [rangeLoop, if_neg hc]
  split
  · rename_i hq
    rw [hq]
    rfl
  · rename_i hq
    rw [hq, Option.bind_some]
    split
    · rename_i hend
      rw [hend]
      rfl
    · rename_i hend
      rw [hend, Option.bind_some]

theorem rangeLoop_suffix {noescape ok ok' : Bool} {test : Byte} {p p' : Text} (h : rangeLoop noescape test ok p = some (ok', p')) :
    p' <:+ p := by
  induction hn : p.length using Nat.strong_induction_on generalizing p ok with
  | _ n ih =>
    subst hn
    cases p with
    | nil =>
      rw [rangeLoop] at h
      cases h
    | cons c p =>
      refine List.IsSuffix.trans ?_ (List.suffix_cons c p)
      by_cases hc : c = rbracket
      · rw [rangeLoop, if_pos hc] at h
        cases h
        exact List.suffix_rfl
      · rw [rangeLoop_cons hc] at h
        obtain ⟨q, hq, h⟩ := Option.bind_eq_some_iff.1 h
        obtain ⟨r, hr, h⟩ := Option.bind_eq_some_iff.1 h
        have hsuffix := (rangeEnd_suffix (hr : _ = some (r.1, r.2))).trans (unquote_suffix (hq : _ = some (q.1, q.2)))
        have hle := hsuffix.length_le
        exact (ih _ (by rw [List.length_cons]; omega) h rfl).trans hsuffix

theorem rangematch_suffix {noescape : Bool} {p p' : Text} {test : Byte} (h : rangematch noescape p test = some p') : p' <:+ p := by
  have hnegation : (negation p).2 <:+ p := by
    unfold negation
    split
    · exact List.tail_suffix p
    · exact List.suffix_rfl
  unfold rangematch at h
  split at h
  · cases h
  · rename_i ok q hloop
    split at h
    · cases h
    · cases h
      exact (rangeLoop_suffix hloop).trans hnegation

/-- What `*pattern++` is, and where the pattern goes on; a star stands for all the stars that follow one another. -/
inductive Front where
  | eos
  | question (p : Text)
  | star (p : Text)
  | bracket (p : Text)
  | literal (c : Byte) (p : Text)

def front (noescape : Bool) : Text → Front
  | [] => .eos
  | c :: p =>
    if c = question then .question p
    else if c = star then .star (p.dropWhile (· = star))
    else if c = lbracket then .bracket p
    else if c = backslash ∧ ¬noescape then .literal (p.headD backslash) p.tail
    else .literal c p

def Front.rest : Front → Text
  | .eos => []
  | .question p => p
  | .star p => p
  | .bracket p => p
  | .literal _ p => p

theorem front_rest_suffix (noescape : Bool) (c : Byte) (p : Text) : (front noescape (c :: p)).rest <:+ p := by
  rw [front]
  split
  · exact List.suffix_rfl
  split
  · exact List.dropWhile_suffix _
  split
  · exact List.suffix_rfl
  split
  · exact List.tail_suffix p
  · exact List.suffix_rfl

theorem front_rest_length {noescape : Bool} {pattern : Text} (h : front noescape pattern ≠ .eos) :
    (front noescape pattern).rest.length < pattern.length := by
  cases pattern with
  | nil => exact absurd rfl h
  | cons c p => exact Nat.lt_succ_of_le (front_rest_suffix noescape c p).length_le

def Leads (fl : Flags) (prev : Option Byte) (string : Text) : Prop :=
  string.head? = some period ∧ fl.period = true ∧ (prev = none ∨ (fl.pathname = true ∧ prev = some slash))

instance (fl : Flags) (prev : Option Byte) (string : Text) : Decidable (Leads fl prev string) := inferInstanceAs (Decidable (_ ∧ _))

def starLoop (pathname : Bool) (f : Text → Bool) : Text → Bool
  | [] => false
  | c :: s => f (c :: s) || (!(c == slash && pathname) && starLoop pathname f s)

/-- The loop of `fnmatch` returns zero; `prev` is the character before `string`, if that is not `stringstart`. -/
def fnmatchFrom (fl : Flags) (prev : Option Byte) (pattern string : Text) : Bool :=
  match _hp : front fl.noescape pattern with
  | .eos => string.isEmpty
  | .question p =>
    match string with
    | [] => false
    | a :: s =>
      if a = slash ∧ fl.pathname then false
      else if Leads fl prev (a :: s) then false
      else fnmatchFrom fl (some a) p s
  | .star p =>
    if Leads fl prev string then false
    else if p = [] then !(fl.pathname && string.contains slash)
    else if p.head? = some slash ∧ fl.pathname then
      if string.contains slash then
        fnmatchFrom fl ((string.takeWhile (· ≠ slash)).getLast?.or prev) p (string.dropWhile (· ≠ slash))
      else false
    else starLoop fl.pathname (fun s => fnmatchFrom { fl with period := false } none p s) string
  | .bracket p =>
    match string with
    | [] => false
    | a :: s =>
      if a = slash ∧ fl.pathname then false
      else
        match _hm : rangematch fl.noescape p a with
        | none => false
        | some p' => fnmatchFrom fl (some a) p' s
  | .literal c p =>
    match string with
    | [] => false
    | a :: s => c == a && fnmatchFrom fl (some a) p s
termination_by pattern.length
decreasing_by
  all_goals
    have hlt : (front fl.noescape pattern).rest.length < pattern.length := front_rest_length (by rw [_hp]; simp)
    rw [_hp, Front.rest] at hlt
  · exact hlt
  · exact hlt
  · exact hlt
  · exact (rangematch_suffix _hm).length_le.trans_lt hlt
  · exact hlt

def fnmatch (pattern string : Text) (fl : Flags) : Nat := if fnmatchFrom fl none pattern string then 0 else fnmNomatch

inductive Tok where
  | any
  | star
  | bracket (negate : Bool) (ranges : List (Byte × Byte))
  | literal (c : Byte)

inductive Elem (noescape : Bool) : Text → Byte → Text → Prop where
  | plain (c : Byte) (p : Text) (h : c = backslash → noescape = true) : Elem noescape (c :: p) c p
  | quoted (c : Byte) (p : Text) (h : noescape = false) : Elem noescape (backslash :: c :: p) c p

inductive Lists (noescape : Bool) : Bool → Text → List (Byte × Byte) → Text → Prop where
  | done (p : Text) : Lists noescape false (rbracket :: p) [] p
  | single {first : Bool} {p q r : Text} {c : Byte} {ranges : List (Byte × Byte)}
      (hfirst : first = false → p.head? ≠ some rbracket) (helem : Elem noescape p c q) (hdash : ∀ c2 q', q = dash :: c2 :: q' → c2 = rbracket) (h : Lists noescape false q ranges r) :
      Lists noescape first p ((c, c) :: ranges) r
  | range {first : Bool} {p q q' r : Text} {lo hi : Byte} {ranges : List (Byte × Byte)}
      (hfirst : first = false → p.head? ≠ some rbracket) (hlo : Elem noescape p lo (dash :: q)) (hq : q.head? ≠ some rbracket) (hhi : Elem noescape q hi q')
      (h : Lists noescape false q' ranges r) : Lists noescape first p ((lo, hi) :: ranges) r

inductive Reads (noescape : Bool) : Text → List Tok → Prop where
  | nil : Reads noescape [] []
  | question {p : Text} {t : List Tok} (h : Reads noescape p t) : Reads noescape (question :: p) (.any :: t)
  | star {p : Text} {t : List Tok} (h : Reads noescape p t) : Reads noescape (star :: p) (.star :: t)
  | bracket {p r : Text} {ranges : List (Byte × Byte)} {t : List Tok} (hlist : Lists noescape true (negation p).2 ranges r)
      (h : Reads noescape r t) : Reads noescape (lbracket :: p) (.bracket (negation p).1 ranges :: t)
  | quoted {c : Byte} {p : Text} {t : List Tok} (hquote : noescape = false) (h : Reads noescape p t) :
      Reads noescape (backslash :: c :: p) (.literal c :: t)
  | last (hquote : noescape = false) : Reads noescape [backslash] [.literal backslash]
  | plain {c : Byte} {p : Text} {t : List Tok}
      (hc : c ≠ question ∧ c ≠ star ∧ c ≠ lbracket ∧ (c = backslash → noescape = true)) (h : Reads noescape p t) : Reads noescape (c :: p) (.literal c :: t)

def listed (ranges : List (Byte × Byte)) (a : Byte) : Bool := ranges.any fun (lo, hi) => lo.sle a && a.sle hi

/-- The string is one that the pattern says, where `prev` is before it. A period that only a period is to match has the period in the
pattern itself at its place: a star is not in front of it, even for no character. -/
def Matches (fl : Flags) : Option Byte → List Tok → Text → Prop
  | _, [], s => s = []
  | prev, .any :: t, s =>
    ∃ a s', s = a :: s' ∧ ¬(a = slash ∧ fl.pathname = true) ∧ ¬Leads fl prev s ∧ Matches fl (some a) t s'
  | prev, .bracket negate ranges :: t, s =>
    ∃ a s', s = a :: s' ∧ ¬(a = slash ∧ fl.pathname = true) ∧ ¬Leads fl prev s ∧ listed ranges a ≠ negate ∧
      Matches fl (some a) t s'
  | _, .literal c :: t, s => ∃ s', s = c :: s' ∧ Matches fl (some c) t s'
  | prev, .star :: t, s =>
    ¬Leads fl prev s ∧ ∃ before rest, s = before ++ rest ∧ (fl.pathname = true → slash ∉ before) ∧
      Matches fl (before.getLast?.or prev) t rest

structure Turn where
  inner : Bool
  prev : Option Byte
  pattern : Text
  string : Text

def Flags.inCall (fl : Flags) (inner : Bool) : Flags := { fl with period := fl.period && !inner }

def Turn.AtPeriod (fl : Flags) (t : Turn) : Prop :=
  t.string.head? = some period ∧ fl.period = true ∧
    ((t.inner = false ∧ t.prev = none) ∨ (fl.pathname = true ∧ t.prev = some slash))

inductive Next (fl : Flags) : Turn → Turn → Prop where
  | question {inner : Bool} {prev : Option Byte} {pattern p s : Text} {a : Byte} (hp : front fl.noescape pattern = .question p)
      (hslash : ¬(a = slash ∧ fl.pathname = true)) (hlead : ¬Leads (fl.inCall inner) prev (a :: s)) :
      Next fl ⟨inner, prev, pattern, a :: s⟩ ⟨inner, some a, p, s⟩
  | slash {inner : Bool} {prev : Option Byte} {pattern p s : Text} (hp : front fl.noescape pattern = .star p)
      (hlead : ¬Leads (fl.inCall inner) prev s) (hslash : p.head? = some slash ∧ fl.pathname = true) (hs : slash ∈ s) :
      Next fl ⟨inner, prev, pattern, s⟩
        ⟨inner, (s.takeWhile (· ≠ slash)).getLast?.or prev, p, s.dropWhile (· ≠ slash)⟩
  | star {inner : Bool} {prev : Option Byte} {pattern p before rest : Text} (hp : front fl.noescape pattern = .star p)
      (hlead : ¬Leads (fl.inCall inner) prev (before ++ rest)) (hne : p ≠ [])
      (hslash : ¬(p.head? = some slash ∧ fl.pathname = true)) (hrest : rest ≠ []) (hbefore : fl.pathname = true → slash ∉ before)
      (hfails : ∀ b b', before = b ++ b' → b' ≠ [] → fnmatchFrom (fl.inCall true) none p (b' ++ rest) = false) :
      Next fl ⟨inner, prev, pattern, before ++ rest⟩ ⟨true, none, p, rest⟩
  | bracket {inner : Bool} {prev : Option Byte} {pattern p p' s : Text} {a : Byte} (hp : front fl.noescape pattern = .bracket p)
      (hslash : ¬(a = slash ∧ fl.pathname = true)) (hmatch : rangematch fl.noescape p a = some p') :
      Next fl ⟨inner, prev, pattern, a :: s⟩ ⟨inner, some a, p', s⟩
  | literal {inner : Bool} {prev : Option Byte} {pattern p s : Text} {a : Byte} (hp : front fl.noescape pattern = .literal a p) :
      Next fl ⟨inner, prev, pattern, a :: s⟩ ⟨inner, some a, p, s⟩

/-- No list is come to that begins with a bracket, and at a period that only a period is to match neither a list that has it nor, in a
call for a star, a question mark or a star. -/
structure Fine (fl : Flags) (t : Turn) : Prop where
  list : ∀ p a s, front fl.noescape t.pattern = .bracket p → t.string = a :: s → ¬(a = slash ∧ fl.pathname = true) →
    (negation p).2.head? ≠ some rbracket
  bracket : t.AtPeriod fl → ∀ p, front fl.noescape t.pattern = .bracket p → rangematch fl.noescape p period = none
  inner : t.AtPeriod fl → t.inner = true →
    ∀ p, front fl.noescape t.pattern ≠ .question p ∧ front fl.noescape t.pattern ≠ .star p

def Clean (fl : Flags) (t : Turn) : Prop := ∀ t', Relation.ReflTransGen (Next fl) t t' → Fine fl t'

end NetBSD.Fnmatch
