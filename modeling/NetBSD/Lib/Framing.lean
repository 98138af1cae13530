import Mathlib.Data.List.Basic
import Mathlib.Order.Basic

/-!
# Frames in a stream

Frames are sent over a line with a mark behind each of them. Where the mark, or the escape itself, occurs in a
frame, it is sent as the escape and a substitute.
-/

namespace NetBSD.Lib

universe u

structure Marks (α : Type u) where
  frameEnd : α
  escape : α
  transEnd : α
  transEscape : α
  escape_ne : escape ≠ frameEnd
  transEnd_ne : transEnd ≠ frameEnd
  transEnd_ne' : transEnd ≠ escape
  transEscape_ne : transEscape ≠ frameEnd
  transEscape_ne' : transEscape ≠ escape
  trans_ne : transEnd ≠ transEscape

namespace Marks

variable {α : Type u} [DecidableEq α] (m : Marks α) {accept : List α → Option (List (List α))} {room : Nat}

def stuffOne (x : α) : List α :=
  if x = m.escape then [m.escape, m.transEscape] else if x = m.frameEnd then [m.escape, m.transEnd] else [x]

def stuff (l : List α) : List α := l.flatMap m.stuffOne

def unstuff (escaped : Bool) (x : α) : α :=
  if escaped ∧ x = m.transEscape then m.escape else if escaped ∧ x = m.transEnd then m.frameEnd else x

structure Decoder (α : Type u) where
  frames : List (List α)
  current : List α
  escaped : Bool

/-- One character is received. What a frame becomes at its end is up to `accept`, and a frame is at most `room` long. -/
def feed (accept : List α → Option (List (List α))) (room : Nat) (d : Decoder α) (x : α) : Option (Decoder α) :=
  if x = m.escape then some { d with escaped := true }
  else if x = m.frameEnd then
    (accept d.current).map fun frames => { frames := d.frames ++ frames, current := [], escaped := false }
  else if d.current.length < room then
    some { d with current := d.current ++ [m.unstuff d.escaped x], escaped := false }
  else none

theorem feed_stuffOne {d : Decoder α} (hplain : d.escaped = false) (hroom : d.current.length < room) (x : α) :
    (m.stuffOne x).foldlM (m.feed accept room) d = some { d with current := d.current ++ [x] } := by
  obtain ⟨frames, current, escaped⟩ := d
  obtain rfl : escaped = false := hplain
  by_cases hescape : x = m.escape
  · simp [stuffOne, feed, unstuff, hescape, m.transEscape_ne, m.transEscape_ne', hroom]
  by_cases hend : x = m.frameEnd
  · simp [stuffOne, feed, unstuff, hend, m.escape_ne.symm, m.transEnd_ne, m.transEnd_ne', m.trans_ne, hroom]
  · simp [stuffOne, feed, unstuff, hescape, hend, hroom]

theorem feed_stuff {d : Decoder α} (hplain : d.escaped = false) {l : List α}
    (hroom : d.current.length + l.length ≤ room) :
    (m.stuff l).foldlM (m.feed accept room) d = some { d with current := d.current ++ l } := by
  induction l generalizing d with
  | nil => simp [stuff]
  | cons x l ih =>
    have hfirst : d.current.length < room := by
      rw [List.length_cons] at hroom
      omega
    have hrest : (d.current ++ [x]).length + l.length ≤ room := by
      rw [List.length_cons] at hroom
      rw [List.length_append, List.length_singleton]
      omega
    have hih := ih (d := { d with current := d.current ++ [x] }) hplain hrest
    rw [stuff] at hih ⊢
    rw [List.flatMap_cons, List.foldlM_append, m.feed_stuffOne hplain hfirst, Option.bind_eq_bind, Option.bind_some, hih,
      List.append_assoc, List.singleton_append]

theorem feed_frame {d : Decoder α} (hplain : d.escaped = false) (hempty : d.current = []) {l : List α}
    (hroom : l.length ≤ room) {frames : List (List α)} (haccept : accept l = some frames) :
    (m.stuff l ++ [m.frameEnd]).foldlM (m.feed accept room) d = some { d with frames := d.frames ++ frames } := by
  obtain ⟨received, current, escaped⟩ := d
  obtain rfl : escaped = false := hplain
  obtain rfl : current = [] := hempty
  have hstuff : (m.stuff l).foldlM (m.feed accept room) ⟨received, [], false⟩ = some ⟨received, l, false⟩ :=
    m.feed_stuff rfl (by simpa using hroom)
  rw [List.foldlM_append, hstuff]
  simp [feed, m.escape_ne.symm, haccept]

end Marks

end NetBSD.Lib

/-!
## Items with a length byte

An area of items that come one behind the other: a mark that ends them, a filler of one byte, and items whose
second byte says how long they are.
-/

namespace NetBSD.Lib

structure Tlv where
  last : BitVec 8
  filler : BitVec 8

variable (t : Tlv) (cp : Nat → BitVec 8) (cnt : Nat)

structure Tlv.Long (p : Nat) : Prop where
  lt : p < cnt
  ne_last : cp p ≠ t.last
  ne_filler : cp p ≠ t.filler

inductive Tlv.Reached : Nat → Prop
  | first : Tlv.Reached 0
  | filler {p : Nat} (h : Tlv.Reached p) (hp : p < cnt) (hkind : cp p = t.filler) : Tlv.Reached (p + 1)
  | long {p : Nat} (h : Tlv.Reached p) (hlong : t.Long cp cnt p) (hlen : cp (p + 1) ≠ 0) :
      Tlv.Reached (p + (cp (p + 1)).toNat)

end NetBSD.Lib
