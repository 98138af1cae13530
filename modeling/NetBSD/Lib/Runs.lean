import Mathlib.Logic.Basic
import Mathlib.Data.Finset.Card
import Mathlib.Data.Finset.Range
import Mathlib.Data.Nat.Find

/-!
# Runs of a system of calls

A system is in one of some starting states and is then given one call after another; a call that does not
return leads nowhere. A run may be restricted to calls that meet a condition in the state they are made in.
-/

namespace NetBSD.Lib

universe u v w x

variable {σ : Type u} {α : Type v} {β : Type w} {τ : Type x} {start : σ → Prop} {step : σ → α → Option σ} {ok : σ → α → Prop}
  {s : σ}

inductive Runs (start : σ → Prop) (step : σ → α → Option σ) (ok : σ → α → Prop) : σ → Prop where
  | start {s : σ} : start s → Runs start step ok s
  | call {s s' : σ} (a : α) : Runs start step ok s → ok s a → step s a = some s' → Runs start step ok s'

theorem Runs.invariant {I : σ → Prop} (h : Runs start step ok s) (hstart : ∀ s, start s → I s)
    (hcall : ∀ s a s', I s → ok s a → step s a = some s' → I s') : I s := by
  induction h with
  | start h => exact hstart _ h
  | call a _ hok hstep ih => exact hcall _ a _ ih hok hstep

theorem Runs.after (h : Runs start step ok s) (a : α) (hok : ok s a) (hsome : (step s a).isSome = true) :
    Runs start step ok ((step s a).getD s) := by
  obtain ⟨s', hstep⟩ := Option.isSome_iff_exists.mp hsome
  rw [hstep]
  exact .call a h hok hstep

def replies (step : σ → α → Option (β × σ)) : σ → List α → Option (List β × σ)
  | s, [] => some ([], s)
  | s, a :: as =>
    match step s a with
    | none => none
    | some (b, s') => (replies step s' as).map fun r => (b :: r.1, r.2)

inductive Matches (R : σ → τ → Prop) : Option (β × σ) → Option (β × τ) → Prop where
  | stuck : Matches R none none
  | reply (b : β) {s : σ} {t : τ} : R s t → Matches R (some (b, s)) (some (b, t))

theorem Matches.mono {R R' : σ → τ → Prop} {r : Option (β × σ)} {r' : Option (β × τ)} (h : Matches R r r')
    (hR : ∀ s t, R s t → R' s t) : Matches R' r r' := by
  cases h with
  | stuck => exact .stuck
  | reply b h => exact .reply b (hR _ _ h)

theorem replies_matches {step : σ → α → Option (β × σ)} {step' : τ → α → Option (β × τ)} {R : σ → τ → Prop}
    (hstep : ∀ s t a, R s t → Matches R (step s a) (step' t a)) {s : σ} {t : τ} (h : R s t) (calls : List α) :
    Matches R (replies step s calls) (replies step' t calls) := by
  induction calls generalizing s t with
  | nil => exact .reply [] h
  | cons a as ih =>
    have hone := hstep s t a h
    unfold replies
    generalize step s a = r at hone
    generalize step' t a = r' at hone
    cases hone with
    | stuck => exact .stuck
    | reply b h =>
      have hrest := ih h
      dsimp only
      generalize replies step _ as = r at hrest
      generalize replies step' _ as = r' at hrest
      cases hrest with
      | stuck => exact .stuck
      | reply bs h => exact .reply (b :: bs) h

end NetBSD.Lib

/-!
## Following a function

Where a function leads to from a start, one application after another, when it can only take so many values.
-/

namespace NetBSD.Lib

universe u

variable {α : Type u} {f : α → α} {a : α} {p : α → Prop}

def Reaches (f : α → α) (p : α → Prop) (a : α) : Prop := ∃ k, p (f^[k] a)

theorem reaches_step (ha : ¬p a) : Reaches f p (f a) ↔ Reaches f p a := by
  constructor
  · rintro ⟨k, hk⟩
    exact ⟨k + 1, hk⟩
  · rintro ⟨k, hk⟩
    cases k with
    | zero => exact absurd hk ha
    | succ k => exact ⟨k, hk⟩

theorem Reaches.before {f : Nat → Nat} {p : Nat → Prop} {a n : Nat} (h : Reaches f p a) (hlt : ∀ k, f^[k] a < n) :
    ∃ k, k < n ∧ p (f^[k] a) := by
  classical
  refine ⟨Nat.find h, ?_, Nat.find_spec h⟩
  -- up to the first of them no value comes twice
  have hinj : Set.InjOn (fun k => f^[k] a) (Finset.range (Nat.find h + 1)) := by
    have hne : ∀ i j, i < j → j ≤ Nat.find h → f^[i] a ≠ f^[j] a := fun i j hij hj heq => by
      have hsame : f^[Nat.find h - j + i] a = f^[Nat.find h] a := by
        rw [Function.iterate_add_apply, heq, ← Function.iterate_add_apply, Nat.sub_add_cancel hj]
      refine Nat.find_min h (m := Nat.find h - j + i) (by omega) ?_
      rw [hsame]
      exact Nat.find_spec h
    intro i hi j hj heq
    have hi := Finset.mem_range.1 hi
    have hj := Finset.mem_range.1 hj
    rcases Nat.lt_trichotomy i j with hij | hij | hij
    · exact absurd heq (hne i j hij (by omega))
    · exact hij
    · exact absurd heq.symm (hne j i hij (by omega))
  have hcard := Finset.card_le_card_of_injOn (fun k => f^[k] a) (t := Finset.range n)
    (fun k _ => Finset.mem_range.2 (hlt k)) hinj
  rw [Finset.card_range, Finset.card_range] at hcard
  exact hcard

theorem Reaches.of_lt {f : Nat → Nat} {p q : Nat → Prop} (hdown : ∀ a, q a → ¬p a → f a < a ∧ q (f a)) {a : Nat} (hq : q a) :
    Reaches f p a := by
  induction a using Nat.strongRecOn with
  | ind a ih =>
    by_cases ha : p a
    · exact ⟨0, ha⟩
    · obtain ⟨hlt, hq'⟩ := hdown a hq ha
      exact (reaches_step ha).1 (ih (f a) hlt hq')

end NetBSD.Lib
