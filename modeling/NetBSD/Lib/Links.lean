import Mathlib.Data.List.Nodup
import Mathlib.Logic.Function.Basic

/-!
# Linked lists in a memory

The nodes of a singly linked list, in the order in which following the links from a pointer passes
through them. The links are any function of the node, so the same node may be on several lists.
-/

namespace NetBSD.Lib

universe u

variable {α : Type u} {next next' : α → Option α} {p q r : Option α} {a b : α} {l l' : List α}

def Linked (next : α → Option α) : Option α → List α → Option α → Prop
  | p, [], q => p = q
  | p, a :: l, q => p = some a ∧ Linked next (next a) l q

@[simp] theorem linked_nil : Linked next p [] q ↔ p = q := Iff.rfl

@[simp] theorem linked_cons : Linked next p (a :: l) q ↔ p = some a ∧ Linked next (next a) l q := Iff.rfl

theorem linked_append : Linked next p (l ++ l') q ↔ ∃ r, Linked next p l r ∧ Linked next r l' q := by
  induction l generalizing p with
  | nil => simp
  | cons a l ih => simp [ih, and_assoc]

theorem linked_concat : Linked next p (l ++ [a]) q ↔ Linked next p l (some a) ∧ next a = q := by
  simp [linked_append]

theorem Linked.congr (h : Linked next p l q) (hsame : ∀ a ∈ l, next' a = next a) : Linked next' p l q := by
  induction l generalizing p with
  | nil => exact h
  | cons a l ih =>
    refine ⟨h.1, ?_⟩
    rw [hsame a List.mem_cons_self]
    exact ih h.2 fun b hb => hsame b (List.mem_cons_of_mem a hb)

theorem Linked.update [DecidableEq α] (h : Linked next p l q) (ha : a ∉ l) (x : Option α) :
    Linked (Function.update next a x) p l q :=
  h.congr fun _ hb => Function.update_of_ne (ne_of_mem_of_not_mem hb ha) x next

theorem Linked.insert {s t : List α} (h : Linked next p (s ++ [b] ++ t) none) (hb : next' b = some a)
    (ha : next' a = next b) (hsame : ∀ c ∈ s ++ t, next' c = next c) :
    Linked next' p (s ++ [b] ++ a :: t) none := by
  obtain ⟨r, hs, ht⟩ := linked_append.mp h
  obtain ⟨hs, hr⟩ := linked_concat.mp hs
  refine linked_append.mpr ⟨some a, linked_concat.mpr ⟨?_, hb⟩, rfl, ?_⟩
  · exact hs.congr fun c hc => hsame c (List.mem_append_left t hc)
  · rw [ha, hr]
    exact ht.congr fun c hc => hsame c (List.mem_append_right s hc)

theorem Linked.remove {s t : List α} (h : Linked next p (s ++ [b] ++ a :: t) none) (hb : next' b = next a)
    (hsame : ∀ c ∈ s ++ t, next' c = next c) : Linked next' p (s ++ [b] ++ t) none := by
  obtain ⟨r, hs, hr, ht⟩ := linked_append.mp h
  obtain ⟨hs, -⟩ := linked_concat.mp hs
  refine linked_append.mpr ⟨next a, linked_concat.mpr ⟨?_, hb⟩, ?_⟩
  · exact hs.congr fun c hc => hsame c (List.mem_append_left t hc)
  · exact ht.congr fun c hc => hsame c (List.mem_append_right s hc)

theorem Linked.eq_head? (h : Linked next p l none) : p = l.head? := by
  cases l with
  | nil => exact h
  | cons a l => exact h.1

theorem Linked.eq_nil (h : Linked next p l none) (hp : p = none) : l = [] := by
  cases l with
  | nil => rfl
  | cons a l =>
    rw [hp] at h
    cases h.1

theorem Linked.unique (h : Linked next p l none) (h' : Linked next p l' none) : l = l' := by
  induction l generalizing p l' with
  | nil => cases l' <;> simp_all
  | cons a l ih =>
    cases l' with
    | nil => simp_all
    | cons b l' =>
      have hab : a = b := Option.some.inj (h.1.symm.trans h'.1)
      subst hab
      rw [ih h.2 h'.2]

theorem Linked.nodup (h : Linked next p l none) : l.Nodup := by
  induction l generalizing p with
  | nil => exact List.nodup_nil
  | cons a l ih =>
    refine List.nodup_cons.mpr ⟨fun ha => ?_, ih h.2⟩
    obtain ⟨s, t, rfl⟩ := List.append_of_mem ha
    obtain ⟨r, -, hr⟩ := linked_append.mp h.2
    have htail : Linked next (next a) t none := hr.2
    have hlen := congrArg List.length (h.2.unique htail)
    simp only [List.length_append, List.length_cons] at hlen
    omega

theorem Linked.join [DecidableEq α] (h : Linked next p (l ++ [a]) none) (h' : Linked next q l' none)
    (ha : a ∉ l') : Linked (Function.update next a q) p (l ++ [a] ++ l') none := by
  have hal : a ∉ l := by
    have hl : (l ++ [a]).Nodup := h.nodup
    simpa using (List.nodup_append.mp hl).2.2 a
  refine linked_append.mpr ⟨q, linked_concat.mpr ⟨?_, Function.update_self _ _ _⟩, h'.update ha q⟩
  exact (linked_concat.mp h).1.update hal q

def lastFrom (next : α → Option α) : Nat → α → Option α
  | 0, _ => none
  | fuel + 1, a =>
    match next a with
    | none => some a
    | some b => lastFrom next fuel b

theorem lastFrom_of_linked {fuel : Nat} (h : Linked next (some a) l none) (hfuel : l.length ≤ fuel) :
    lastFrom next fuel a = l.getLast? := by
  induction l generalizing a fuel with
  | nil => simp at h
  | cons b l ih =>
    obtain ⟨hab, hrest⟩ := h
    obtain rfl : a = b := Option.some.inj hab
    cases fuel with
    | zero => simp at hfuel
    | succ fuel =>
      cases l with
      | nil => simp [lastFrom, show next a = none from hrest]
      | cons c l =>
        have hnext : next a = some c := hrest.1
        rw [hnext] at hrest
        rw [lastFrom, hnext]
        exact (ih hrest (by simpa using hfuel)).trans List.getLast?_cons_cons.symm

inductive Passes (next : α → Option α) : Option α → α → Prop where
  | here (a : α) : Passes next (some a) a
  | later (a b : α) : Passes next (next a) b → Passes next (some a) b

theorem Linked.passes_iff (h : Linked next p l none) : Passes next p a ↔ a ∈ l := by
  induction l generalizing p with
  | nil =>
    obtain rfl : p = none := h
    exact iff_of_false (fun hpass => by cases hpass) List.not_mem_nil
  | cons b l ih =>
    obtain ⟨rfl, hl⟩ := h
    rw [List.mem_cons, ← ih hl]
    constructor
    · intro hpass
      cases hpass with
      | here => exact .inl rfl
      | later _ _ hpass => exact .inr hpass
    · rintro (rfl | hpass)
      · exact .here a
      · exact .later b a hpass

end NetBSD.Lib
