import Mathlib.Algebra.Ring.Int.Defs
import Mathlib.Data.Int.ModEq
import Mathlib.Data.BitVec

/-!
# Arithmetic in variables of a fixed width

A computation that keeps a log of the values it stores is run twice: on a machine, where a variable keeps what it is given
modulo its size, and with the integers themselves. The two agree when they end in the same value and each value the machine has
stored is the exact one modulo the size of its variable.
-/

namespace NetBSD.Lib

variable {τ : Type} {α β : Type}

structure Logged (τ : Type) (α : Type) where
  value : Option α
  log : List (τ × Int)

namespace Logged

instance : Monad (Logged τ) where
  pure a := ⟨some a, []⟩
  bind x f :=
    match x.value with
    | none => ⟨none, x.log⟩
    | some a => ⟨(f a).value, x.log ++ (f a).log⟩

def diverge : Logged τ α := ⟨none, []⟩

def store (keep : τ → Int → Int) (ty : τ) (x : Int) : Logged τ Int := ⟨some (keep ty x), [(ty, keep ty x)]⟩

end Logged

def wrapped (size : τ → Int) (ty : τ) (x : Int) : Int := x % size ty

def unwrapped (_ : τ) (x : Int) : Int := x

/-- The computation on the machine and the exact one end in the same value, which satisfies `P`, and store the same values but
for wrapping. -/
def Agrees (size : τ → Int) (machine exact : Logged τ α) (P : α → Prop) : Prop :=
  ∃ a, P a ∧ machine.value = some a ∧ exact.value = some a ∧
    machine.log = exact.log.map fun stored => (stored.1, wrapped size stored.1 stored.2)

namespace Agrees

variable {size : τ → Int} {m e : Logged τ α} {P Q : α → Prop} {R : β → Prop} {f g : α → Logged τ β}

theorem pure {a : α} (h : P a) : Agrees size (Pure.pure a) (Pure.pure a) P := ⟨a, h, rfl, rfl, rfl⟩

theorem bind (h : Agrees size m e P) (hrest : ∀ a, P a → Agrees size (f a) (g a) R) :
    Agrees size (m >>= f) (e >>= g) R := by
  obtain ⟨a, ha, hm, he, hlog⟩ := h
  obtain ⟨b, hb, hf, hg, hlog'⟩ := hrest a ha
  obtain ⟨mvalue, mlog⟩ := m
  obtain ⟨evalue, elog⟩ := e
  obtain rfl : mvalue = some a := hm
  obtain rfl : evalue = some a := he
  refine ⟨b, hb, hf, hg, ?_⟩
  change mlog ++ (f a).log = (elog ++ (g a).log).map _
  rw [List.map_append, hlog', ← hlog]

theorem mono (h : Agrees size m e P) (himp : ∀ a, P a → Q a) : Agrees size m e Q := by
  obtain ⟨a, ha, hrest⟩ := h
  exact ⟨a, himp a ha, hrest⟩

theorem store_wrapping {f g : Int → Logged τ β} {ty : τ} {x y : Int} (hxy : x % size ty = y % size ty)
    (hrest : Agrees size (f (x % size ty)) (g y) R) :
    Agrees size (Logged.store (wrapped size) ty x >>= f) (Logged.store unwrapped ty y >>= g) R := by
  obtain ⟨b, hb, hf, hg, hlog⟩ := hrest
  refine ⟨b, hb, hf, hg, ?_⟩
  change (ty, x % size ty) :: (f (x % size ty)).log = (ty, y % size ty) :: (g y).log.map _
  rw [hxy] at hlog ⊢
  rw [hlog]

theorem store_fits {f g : Int → Logged τ β} {ty : τ} {x : Int} (hnonneg : 0 ≤ x) (hlt : x < size ty)
    (hrest : Agrees size (f x) (g x) R) :
    Agrees size (Logged.store (wrapped size) ty x >>= f) (Logged.store unwrapped ty x >>= g) R := by
  have hmod : x % size ty = x := Int.emod_eq_of_lt hnonneg hlt
  exact store_wrapping rfl (hmod.symm ▸ hrest)

end Agrees

end NetBSD.Lib

/-!
## Serial numbers

Positions of an unbounded line counted modulo a power of two from a base. The signed difference of two
of them is the distance of the positions as long as that is less than half of the period, so
comparisons by the sign of the difference are comparisons of the positions.
-/

namespace NetBSD.Lib

variable {w : Nat} {base : BitVec w} {a b : Int}

def serial (base : BitVec w) (a : Int) : BitVec w := base + BitVec.ofInt w a

@[simp] theorem serial_zero : serial base 0 = base := by
  simp [serial]

theorem serial_add : serial base a + BitVec.ofInt w b = serial base (a + b) := by
  rw [serial, serial, BitVec.ofInt_add, BitVec.add_assoc]

theorem serial_sub_serial : serial base a - serial base b = BitVec.ofInt w (a - b) := by
  rw [serial, serial, add_sub_add_left_eq_sub, Int.sub_eq_add_neg, BitVec.ofInt_add, BitVec.ofInt_neg,
    BitVec.sub_eq_add_neg]

theorem toInt_serial_sub (hw : 0 < w) (hlo : -2 ^ (w - 1) ≤ a - b) (hhi : a - b < 2 ^ (w - 1)) :
    (serial base a - serial base b).toInt = a - b := by
  rw [serial_sub_serial, BitVec.toInt_ofInt_eq_self hw hlo hhi]

end NetBSD.Lib
