import Mathlib.Logic.Relation
import Mathlib.Tactic.ByContra

/-!
# Machines that step, stop or go wrong

A machine is a function from a state to what happens next: another state, a result, or undefined
behaviour. Running it takes fuel, and the notions below do not depend on how much: a state is
reachable or not, a machine goes wrong somewhere or nowhere, and a machine whose measure falls at
every step stops.
-/

namespace NetBSD.Lib

universe u v w

inductive Step (σ : Type u) (ρ : Type v) (φ : Type w) where
  | next (state : σ)
  | done (result : ρ)
  | fault (cause : φ)
  deriving DecidableEq

namespace Machine

variable {σ : Type u} {ρ : Type v} {φ : Type w}

def Steps (step : σ → Step σ ρ φ) (s s' : σ) : Prop := step s = .next s'

def Reaches (step : σ → Step σ ρ φ) : σ → σ → Prop := Relation.ReflTransGen (Steps step)

def runFor (step : σ → Step σ ρ φ) : Nat → σ → Option (Except φ ρ)
  | 0, _ => none
  | fuel + 1, s =>
    match step s with
    | .next s' => runFor step fuel s'
    | .done r => some (.ok r)
    | .fault f => some (.error f)

def Returns (step : σ → Step σ ρ φ) (s : σ) (r : ρ) : Prop := ∃ fuel, runFor step fuel s = some (.ok r)

def Faultless (step : σ → Step σ ρ φ) (s : σ) : Prop :=
  ∀ s', Reaches step s s' → ∀ f, step s' ≠ .fault f

variable {step : σ → Step σ ρ φ} {s s' : σ}

theorem runFor_succ_next (h : step s = .next s') (fuel : Nat) :
    runFor step (fuel + 1) s = runFor step fuel s' := by
  simp [runFor, h]

theorem Reaches.refl (s : σ) : Reaches step s s := Relation.ReflTransGen.refl

theorem Reaches.head {s'' : σ} (h : step s = .next s') (hrest : Reaches step s' s'') :
    Reaches step s s'' := Relation.ReflTransGen.head h hrest

theorem Reaches.tail {s'' : σ} (h : Reaches step s s') (hstep : step s' = .next s'') :
    Reaches step s s'' := Relation.ReflTransGen.tail h hstep

theorem Reaches.invariant {P : σ → Prop} (hreach : Reaches step s s') (hstart : P s)
    (hstep : ∀ a b, Reaches step s a → P a → step a = .next b → P b) : P s' := by
  induction hreach with
  | refl => exact hstart
  | tail hab hbc ih => exact hstep _ _ hab ih hbc

theorem exists_runFor_of_measure (measure : σ → Nat)
    (hfall : ∀ a b, Reaches step s a → step a = .next b → measure b < measure a) :
    ∃ out, runFor step (measure s + 1) s = some out := by
  have hmain : ∀ n a, Reaches step s a → measure a < n → ∃ out, runFor step n a = some out := by
    intro n
    induction n with
    | zero => intro a _ hlt; omega
    | succ n ih =>
      intro a ha hlt
      cases hstep : step a with
      | done r => exact ⟨.ok r, by simp [runFor, hstep]⟩
      | fault f => exact ⟨.error f, by simp [runFor, hstep]⟩
      | next b =>
        have hfallb := hfall a b ha hstep
        obtain ⟨out, hout⟩ := ih b (ha.tail hstep) (by omega)
        exact ⟨out, by rw [runFor_succ_next hstep, hout]⟩
  exact hmain _ s (Reaches.refl s) (Nat.lt_succ_self _)

theorem exists_reaches_of_runFor_error {f : φ} :
    ∀ {fuel : Nat} {s : σ}, runFor step fuel s = some (.error f) →
      ∃ s', Reaches step s s' ∧ step s' = .fault f := by
  intro fuel
  induction fuel with
  | zero => intro s h; simp [runFor] at h
  | succ fuel ih =>
    intro s h
    cases hstep : step s with
    | done r => simp [runFor, hstep] at h
    | fault g =>
      simp only [runFor, hstep, Option.some.injEq, Except.error.injEq] at h
      exact ⟨s, Reaches.refl s, by rw [hstep, h]⟩
    | next b =>
      rw [runFor_succ_next hstep] at h
      obtain ⟨s', hreach, hfault⟩ := ih h
      exact ⟨s', hreach.head hstep, hfault⟩

theorem Faultless.returns (hsafe : Faultless step s) (measure : σ → Nat)
    (hfall : ∀ a b, Reaches step s a → step a = .next b → measure b < measure a) :
    ∃ r, runFor step (measure s + 1) s = some (.ok r) := by
  obtain ⟨out, hout⟩ := exists_runFor_of_measure measure hfall
  cases out with
  | ok r => exact ⟨r, hout⟩
  | error f =>
    obtain ⟨s', hreach, hfault⟩ := exists_reaches_of_runFor_error hout
    exact absurd hfault (hsafe s' hreach f)

theorem faultless_iff {I P : σ → Prop} (hstart : I s)
    (hgood : ∀ a, I a → P a → (∀ f, step a ≠ .fault f) ∧ ∀ b, step a = .next b → I b)
    (hbad : ∀ a, I a → ¬ P a →
      (∃ f, step a = .fault f) ∨ ∃ b f, step a = .next b ∧ step b = .fault f) :
    Faultless step s ↔ ∀ a, Reaches step s a → P a := by
  constructor
  · intro hsafe
    have hP : ∀ a, Reaches step s a → I a → P a := by
      intro a ha hI
      by_contra hP
      rcases hbad a hI hP with ⟨f, hf⟩ | ⟨b, f, hb, hf⟩
      · exact hsafe a ha f hf
      · exact hsafe b (ha.tail hb) f hf
    intro a ha
    exact hP a ha (ha.invariant hstart fun b c hb hIb hstep =>
      (hgood b hIb (hP b hb hIb)).2 c hstep)
  · intro hall a ha f
    have hI : I a := ha.invariant hstart fun b c hb hIb hstep =>
      (hgood b hIb (hall b hb)).2 c hstep
    exact (hgood a hI (hall a ha)).1 f

theorem runFor_congr {step' : σ → Step σ ρ φ} (hsame : ∀ a, Reaches step s a → step' a = step a)
    (fuel : Nat) : runFor step' fuel s = runFor step fuel s := by
  have hmain : ∀ fuel a, Reaches step s a → runFor step' fuel a = runFor step fuel a := by
    intro fuel
    induction fuel with
    | zero => intro a _; rfl
    | succ fuel ih =>
      intro a ha
      have hstep' := hsame a ha
      cases hstep : step a with
      | done r => simp [runFor, hstep', hstep]
      | fault f => simp [runFor, hstep', hstep]
      | next b =>
        rw [runFor_succ_next hstep, runFor_succ_next (hstep'.trans hstep)]
        exact ih b (ha.tail hstep)
  exact hmain fuel s (Reaches.refl s)

end Machine

end NetBSD.Lib
