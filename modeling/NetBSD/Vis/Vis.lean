import Mathlib.Logic.Function.Basic

/-!
# Visual encoding

`vis` and `strvisx`, and the decoder `unvis` with `strunvis`. An `int` is a word of 32 bits, so that a
character may come to `vis` with or without its sign.
-/

namespace NetBSD.Vis

abbrev Byte := BitVec 8

abbrev Word := BitVec 32

def chr (x : Char) : Byte := BitVec.ofNat 8 x.toNat
def ord (x : Char) : Word := BitVec.ofNat 32 x.toNat

/-- A `char` that is an operand of an expression, on a machine where it has a sign or has not. -/
def promote (signed : Bool) (c : Byte) : Word := if signed then c.signExtend 32 else c.setWidth 32

def visOctal : Word := 0x01
def visCstyle : Word := 0x02
def visSp : Word := 0x04
def visTab : Word := 0x08
def visNl : Word := 0x10
def visSafe : Word := 0x20
def visNoslash : Word := 0x40

def ucharMax : Word := 0xff

def isOctal (c : Byte) : Bool := chr '0' ≤ c ∧ c ≤ chr '7'

def isAscii (c : Word) : Bool := c ≤ 0o177
def isGraph (c : Word) : Bool := ord ' ' < c ∧ c < 0o177
def isCntrl (c : Word) : Bool := c < ord ' ' ∨ c = 0o177

def raw (c flag : Word) : Prop :=
  (c ≤ ucharMax ∧ isAscii c ∧ isGraph c) ∨
  (flag &&& visSp = 0 ∧ c = ord ' ') ∨
  (flag &&& visTab = 0 ∧ c = ord '\t') ∨
  (flag &&& visNl = 0 ∧ c = ord '\n') ∨
  (flag &&& visSafe ≠ 0 ∧ (c = ord '\x08' ∨ c = ord '\x07' ∨ c = ord '\r'))

instance (c flag : Word) : Decidable (raw c flag) := by unfold raw; infer_instance

def cstyle (c nextc : Word) : Option (List Byte) :=
  if c = ord '\n' then some [chr '\\', chr 'n']
  else if c = ord '\r' then some [chr '\\', chr 'r']
  else if c = ord '\x08' then some [chr '\\', chr 'b']
  else if c = ord '\x07' then some [chr '\\', chr 'a']
  else if c = ord '\x0b' then some [chr '\\', chr 'v']
  else if c = ord '\t' then some [chr '\\', chr 't']
  else if c = ord '\x0c' then some [chr '\\', chr 'f']
  else if c = ord ' ' then some [chr '\\', chr 's']
  else if c = 0 then
    some (if isOctal (nextc.setWidth 8) then [chr '\\', chr '0', chr '0', chr '0'] else [chr '\\', chr '0'])
  else none

def octal (c : Word) : List Byte :=
  let c : Byte := c.setWidth 8
  [chr '\\', (c >>> 6 &&& 7) + chr '0', (c >>> 3 &&& 7) + chr '0', (c &&& 7) + chr '0']

def caret (c : Word) : List Byte :=
  if isCntrl c then [chr '^', if c = 0o177 then chr '?' else (c + ord '@').setWidth 8]
  else [chr '-', c.setWidth 8]

def marked (c : Word) : List Byte :=
  if c &&& 0o200 ≠ 0 then chr 'M' :: caret (c &&& 0o177) else caret c

def vis (c flag nextc : Word) : List Byte :=
  if raw c flag then
    if c = ord '\\' ∧ flag &&& visNoslash = 0 then [c.setWidth 8, chr '\\'] else [c.setWidth 8]
  else
    match if flag &&& visCstyle ≠ 0 then cstyle c nextc else none with
    | some chars => chars
    | none =>
      if c &&& 0o177 = ord ' ' ∨ flag &&& visOctal ≠ 0 then octal c
      else if flag &&& visNoslash = 0 then chr '\\' :: marked c
      else marked c

def strvisx (signed : Bool) (flag : Word) : List Byte → List Byte
  | [] => []
  | [c] => vis (promote signed c) flag 0
  | c :: nextc :: src =>
    vis (promote signed c) flag (promote signed nextc) ++ strvisx signed flag (nextc :: src)

inductive State where
  | ground
  | start
  | high
  | high1
  | ctrl
  | octal2
  | octal3
  deriving DecidableEq

inductive Result where
  | zero
  | valid
  | validPush
  | noChar
  | synBad
  deriving DecidableEq

def unvisEnd : State → State × Result
  | .octal2 | .octal3 => (.ground, .valid)
  | .ground => (.ground, .noChar)
  | s => (s, .synBad)

def letter (c : Byte) : Option Byte :=
  if c = chr 'n' then some (chr '\n')
  else if c = chr 'r' then some (chr '\r')
  else if c = chr 'b' then some (chr '\x08')
  else if c = chr 'a' then some (chr '\x07')
  else if c = chr 'v' then some (chr '\x0b')
  else if c = chr 't' then some (chr '\t')
  else if c = chr 'f' then some (chr '\x0c')
  else if c = chr 's' then some (chr ' ')
  else if c = chr 'E' then some 0o33
  else none

def unvisStart (cp c : Byte) : Byte × State × Result :=
  if c = chr '\\' then (c, .ground, .valid)
  else if isOctal c then (c - chr '0', .octal2, .zero)
  else if c = chr 'M' then (0o200, .high, .zero)
  else if c = chr '^' then (cp, .ctrl, .zero)
  else match letter c with
    | some x => (x, .ground, .valid)
    | none => if c = chr '\n' ∨ c = chr '$' then (cp, .ground, .noChar) else (cp, .ground, .synBad)

def unvis (cp c : Byte) : State → Byte × State × Result
  | .ground => if c = chr '\\' then (0, .start, .zero) else (c, .ground, .valid)
  | .start => unvisStart cp c
  | .high =>
    if c = chr '-' then (cp, .high1, .zero)
    else if c = chr '^' then (cp, .ctrl, .zero)
    else (cp, .ground, .synBad)
  | .high1 => (cp ||| c, .ground, .valid)
  | .ctrl => (if c = chr '?' then cp ||| 0o177 else cp ||| (c &&& 0o37), .ground, .valid)
  | .octal2 =>
    if isOctal c then ((cp <<< 3) + (c - chr '0'), .octal3, .zero) else (cp, .ground, .validPush)
  | .octal3 =>
    if isOctal c then ((cp <<< 3) + (c - chr '0'), .ground, .valid) else (cp, .ground, .validPush)

/-- The locals of `strunvis`: `dst` counts from `start`, and `mem` is the memory from there on. -/
structure Decoder where
  dst : Nat
  mem : Nat → Byte
  state : State

def State.pushes : State → Nat
  | .octal2 | .octal3 => 1
  | _ => 0

theorem unvisStart_ne (cp c : Byte) : (unvisStart cp c).2.2 ≠ .validPush := by
  unfold unvisStart
  repeat' split
  all_goals exact Result.noConfusion

theorem unvis_pushes {cp c cp' : Byte} {s s' : State} (h : unvis cp c s = (cp', s', .validPush)) :
    s'.pushes < s.pushes := by
  cases s with
  | octal2 | octal3 =>
    simp only [unvis] at h
    split at h <;> cases h
    decide
  | start => exact absurd (congrArg (·.2.2) h) (unvisStart_ne cp c)
  | ground | high | high1 | ctrl => grind [unvis]

def Decoder.again (d : Decoder) (c : Byte) : Except Decoder Decoder :=
  match _h : unvis (d.mem d.dst) c d.state with
  | (cp, state, .valid) => .ok { dst := d.dst + 1, mem := Function.update d.mem d.dst cp, state }
  | (cp, state, .validPush) => again { dst := d.dst + 1, mem := Function.update d.mem d.dst cp, state } c
  | (cp, state, .zero) | (cp, state, .noChar) => .ok { d with mem := Function.update d.mem d.dst cp, state }
  | (cp, state, .synBad) => .error { d with mem := Function.update d.mem d.dst cp, state }
termination_by d.state.pushes
decreasing_by exact unvis_pushes _h

def Decoder.loop (d : Decoder) : List Byte → Except Decoder Decoder
  | [] => .ok d
  | c :: src => if c = 0 then .ok d else d.again c >>= fun d => d.loop src

def Decoder.finish (d : Decoder) : Int × (Nat → Byte) :=
  let dst := if (unvisEnd d.state).2 = .valid then d.dst + 1 else d.dst
  (dst, Function.update d.mem dst 0)

/-- `strunvis` from a state of its locals on: the value that it returns, and the memory from `start` on. -/
def Decoder.run (d : Decoder) (src : List Byte) : Int × (Nat → Byte) :=
  match d.loop src with
  | .ok d => d.finish
  | .error d => (-1, d.mem)

def strunvis (mem : Nat → Byte) (src : List Byte) : Int × (Nat → Byte) :=
  Decoder.run { dst := 0, mem, state := .ground } src

end NetBSD.Vis

/-!
## What is encoded is decoded

`strunvis` undoes `strvisx`. What `vis` stores for a character either takes the decoder from the ground
state back to it, with the character put together on the way, or is the `\0` of a NUL, which the next
character ends.
-/

namespace NetBSD.Vis

variable {cp b c' : Byte} {c flag nextc : Word} {l : List Byte} {s : State} {i : Nat} {mem : Nat → Byte} {signed : Bool}

def spells : List Byte → Byte → State → Option Byte
  | [], _, _ => none
  | c :: cs, cp, s =>
    if c = 0 then none
    else match unvis cp c s with
      | (cp', s', .zero) => spells cs cp' s'
      | (cp', .ground, .valid) => if cs = [] then some cp' else none
      | _ => none

theorem setWidth_promote (signed : Bool) (b : Byte) : (promote signed b).setWidth 8 = b := by
  revert b
  cases signed <;> decide

theorem promote_ord {x : Char} (h : promote signed b = ord x) : b = chr x := by
  have hwidth := congrArg (BitVec.setWidth 8) h
  rw [setWidth_promote] at hwidth
  rw [hwidth, ord, chr, BitVec.setWidth_ofNat_of_le (by omega)]

theorem spells_octal (signed : Bool) (b : Byte) : spells (octal (promote signed b)) 0 .ground = some b := by
  revert b
  cases signed <;> decide

theorem spells_marked (signed : Bool) (b : Byte)
    (hgraph : ¬(promote signed b ≤ ucharMax ∧ isAscii (promote signed b) ∧ isGraph (promote signed b)))
    (hspace : promote signed b &&& 0o177 ≠ ord ' ') :
    spells (chr '\\' :: marked (promote signed b)) 0 .ground = some b := by
  revert b
  cases signed <;> decide

theorem spells_cstyle (hcstyle : cstyle (promote signed b) nextc = some l) :
    spells l 0 .ground = some b ∨ l = [chr '\\', chr '0'] ∧ b = 0 ∧ isOctal (nextc.setWidth 8) = false := by
  by_cases hzero : promote signed b = ord '\x00'
  · have hb : b = chr '\x00' := promote_ord hzero
    rw [hzero] at hcstyle
    cases hnext : isOctal (nextc.setWidth 8)
    · refine .inr ⟨?_, hb, rfl⟩
      simpa [cstyle, hnext, ord] using hcstyle.symm
    · refine .inl ?_
      have hl : l = [chr '\\', chr '0', chr '0', chr '0'] := by simpa [cstyle, hnext, ord] using hcstyle.symm
      rw [hl, hb]
      decide
  · refine .inl ?_
    unfold cstyle at hcstyle
    rw [if_neg (c := promote signed b = 0) hzero] at hcstyle
    repeat' split at hcstyle
    all_goals cases hcstyle
    all_goals
      rename_i hc
      rw [promote_ord hc]
      decide

theorem spells_single (hb : b ≠ 0) (hslash : b ≠ chr '\\') : spells [b] 0 .ground = some b := by
  rw [spells, if_neg hb]
  simp [unvis, hslash]

theorem raw_ne_zero (hraw : raw (promote signed b) flag) : b ≠ 0 := by
  rintro rfl
  have hzero : promote signed (0 : Byte) = 0 := by cases signed <;> decide
  rw [hzero] at hraw
  obtain ⟨-, -, h⟩ | ⟨-, h⟩ | ⟨-, h⟩ | ⟨-, h⟩ | ⟨-, h | h | h⟩ := hraw <;> revert h <;> decide

theorem spells_vis (signed : Bool) (b : Byte) (nextc : Word) (hflag : flag &&& visNoslash = 0) :
    spells (vis (promote signed b) flag nextc) 0 .ground = some b ∨
      vis (promote signed b) flag nextc = [chr '\\', chr '0'] ∧ b = 0 ∧ isOctal (nextc.setWidth 8) = false := by
  unfold vis
  split
  · rename_i hraw
    rw [setWidth_promote]
    left
    split
    · rename_i hslash
      rw [promote_ord hslash.1]
      decide
    · rename_i hslash
      refine spells_single (raw_ne_zero hraw) fun h => hslash ⟨?_, hflag⟩
      rw [h]
      cases signed <;> decide
  · rename_i hraw
    split
    · rename_i l hl
      split at hl
      · exact spells_cstyle hl
      · cases hl
    · left
      split
      · exact spells_octal signed b
      · rename_i hoctal
        exact spells_marked signed b (fun h => hraw (.inl h)) fun h => hoctal (.inl h)

theorem spells_eq_cons (h : spells l 0 .ground = some b) :
    ∃ x l', l = x :: l' ∧ x ≠ 0 ∧ (x = chr '\\' ∨ x = b) := by
  cases l with
  | nil => cases h
  | cons x l =>
    refine ⟨x, l, rfl, ?_⟩
    by_cases hx : x = 0
    · rw [spells, if_pos hx] at h
      cases h
    · by_cases hslash : x = chr '\\'
      · exact ⟨hx, .inl hslash⟩
      · refine ⟨hx, .inr ?_⟩
        rw [spells, if_neg hx] at h
        simp only [unvis, if_neg hslash] at h
        split at h <;> cases h
        rfl

theorem vis_eq_cons (signed : Bool) (b : Byte) (nextc : Word) (hflag : flag &&& visNoslash = 0) :
    ∃ x l, vis (promote signed b) flag nextc = x :: l ∧ x ≠ 0 ∧ (x = chr '\\' ∨ x = b) := by
  obtain hspells | ⟨h, -⟩ := spells_vis signed b nextc hflag
  · exact spells_eq_cons hspells
  · exact ⟨_, _, h, by decide, .inl rfl⟩

theorem spells_ground (l : List Byte) (cp : Byte) : spells l cp .ground = spells l 0 .ground := by
  cases l <;> rfl

theorem again_zero {cp' : Byte} {s' : State} (h : unvis (mem i) c' s = (cp', s', .zero)) :
    Decoder.again ⟨i, mem, s⟩ c' = .ok ⟨i, Function.update mem i cp', s'⟩ := by
  unfold Decoder.again
  split <;> rename_i heq <;> dsimp only at heq <;> rw [h] at heq <;> cases heq
  rfl

theorem again_valid {cp' : Byte} {s' : State} (h : unvis (mem i) c' s = (cp', s', .valid)) :
    Decoder.again ⟨i, mem, s⟩ c' = .ok ⟨i + 1, Function.update mem i cp', s'⟩ := by
  unfold Decoder.again
  split <;> rename_i heq <;> dsimp only at heq <;> rw [h] at heq <;> cases heq
  rfl

theorem again_push (hc : isOctal c' = false) :
    Decoder.again ⟨i, mem, .octal2⟩ c' = Decoder.again ⟨i + 1, mem, .ground⟩ c' := by
  have h : unvis (mem i) c' .octal2 = (mem i, .ground, .validPush) := by simp [unvis, hc]
  rw [Decoder.again]
  split <;> rename_i heq <;> dsimp only at heq <;> rw [h] at heq <;> cases heq
  rw [Function.update_eq_self]

theorem loop_cons (hc : c' ≠ 0) (rest : List Byte) (d : Decoder) :
    d.loop (c' :: rest) = d.again c' >>= fun d => d.loop rest := if_neg hc

theorem loop_spells (rest : List Byte) : ∀ (l : List Byte) (s : State) (mem : Nat → Byte),
    spells l (mem i) s = some b →
      Decoder.loop ⟨i, mem, s⟩ (l ++ rest) = Decoder.loop ⟨i + 1, Function.update mem i b, .ground⟩ rest
  | [], _, _, h => by cases h
  | c' :: l, s, mem, h => by
    by_cases hc : c' = 0
    · rw [spells, if_pos hc] at h
      cases h
    · rw [List.cons_append, loop_cons hc]
      rw [spells, if_neg hc] at h
      split at h
      · rename_i cp' s' hunvis
        rw [again_zero hunvis]
        have hrec := loop_spells rest l s' (Function.update mem i cp') (by rwa [Function.update_self])
        rw [Function.update_idem] at hrec
        exact hrec
      · rename_i cp' hunvis
        split at h
        · rename_i hl
          cases h
          rw [again_valid hunvis, hl]
          rfl
        · cases h
      · cases h

theorem loop_zero (rest : List Byte) :
    Decoder.loop ⟨i, mem, .ground⟩ ([chr '\\', chr '0'] ++ rest) = Decoder.loop ⟨i, Function.update mem i 0, .octal2⟩ rest := by
  rw [List.cons_append, loop_cons (by decide), again_zero (show unvis (mem i) (chr '\\') .ground = (0, .start, .zero) from rfl)]
  change Decoder.loop ⟨i, Function.update mem i 0, .start⟩ (chr '0' :: rest) = _
  rw [loop_cons (by decide), again_zero (show unvis _ (chr '0') .start = (0, .octal2, .zero) from rfl), Function.update_idem]
  rfl

theorem loop_push {x : Byte} (hx : x ≠ 0) (hoctal : isOctal x = false) (rest : List Byte) :
    Decoder.loop ⟨i, mem, .octal2⟩ (x :: rest) = Decoder.loop ⟨i + 1, mem, .ground⟩ (x :: rest) := by
  rw [loop_cons hx, loop_cons hx, again_push hoctal]

theorem strvisx_eq_cons (signed : Bool) (hflag : flag &&& visNoslash = 0) (n : Byte) (src : List Byte) :
    ∃ x l, strvisx signed flag (n :: src) = x :: l ∧ x ≠ 0 ∧ (x = chr '\\' ∨ x = n) := by
  cases src with
  | nil => exact vis_eq_cons signed n 0 hflag
  | cons n' src =>
    obtain ⟨x, l, hvis, hx⟩ := vis_eq_cons signed n (promote signed n') hflag
    exact ⟨x, l ++ strvisx signed flag (n' :: src), by rw [strvisx, hvis]; rfl, hx⟩

theorem loop_strvisx (hflag : flag &&& visNoslash = 0) (n : Byte) (src : List Byte) :
    Decoder.loop ⟨i, mem, .ground⟩ (strvisx signed flag (b :: n :: src)) =
      Decoder.loop ⟨i + 1, Function.update mem i b, .ground⟩ (strvisx signed flag (n :: src)) := by
  rw [strvisx]
  obtain hspells | ⟨hvis, hb, hoctal⟩ := spells_vis signed b (promote signed n) hflag
  · exact loop_spells _ _ _ _ ((spells_ground _ _).trans hspells)
  · obtain ⟨x, l, hl, hx, hslash⟩ := strvisx_eq_cons signed hflag n src
    rw [setWidth_promote] at hoctal
    have hnot : isOctal x = false := by
      obtain rfl | rfl := hslash
      · decide
      · exact hoctal
    rw [hvis, loop_zero, hl, loop_push hx hnot, hb]

theorem run_last (hflag : flag &&& visNoslash = 0) :
    Decoder.run ⟨i, mem, .ground⟩ (strvisx signed flag [b]) =
      (((i + 1 : Nat) : Int), Function.update (Function.update mem i b) (i + 1) 0) := by
  rw [strvisx, Decoder.run, ← List.append_nil (vis _ _ _)]
  obtain hspells | ⟨hvis, hb, -⟩ := spells_vis signed b 0 hflag
  · rw [loop_spells _ _ _ _ ((spells_ground _ _).trans hspells)]
    rfl
  · rw [hvis, loop_zero, hb]
    rfl

theorem run_strvisx (signed : Bool) (hflag : flag &&& visNoslash = 0) : ∀ (src : List Byte) (i : Nat) (mem : Nat → Byte),
    (Decoder.run ⟨i, mem, .ground⟩ (strvisx signed flag src)).1 = ((i + src.length : Nat) : Int) ∧
    (∀ j < i, (Decoder.run ⟨i, mem, .ground⟩ (strvisx signed flag src)).2 j = mem j) ∧
    ∀ k (hk : k < src.length), (Decoder.run ⟨i, mem, .ground⟩ (strvisx signed flag src)).2 (i + k) = src[k]
  | [], i, mem => by
    refine ⟨rfl, fun j hj => ?_, fun k hk => absurd hk (Nat.not_lt_zero k)⟩
    exact Function.update_of_ne (Nat.ne_of_lt hj) _ _
  | [b], i, mem => by
    rw [run_last hflag]
    dsimp only
    refine ⟨rfl, fun j hj => ?_, fun k hk => ?_⟩
    · have hne : j ≠ i + 1 := by omega
      rw [Function.update_of_ne hne, Function.update_of_ne (Nat.ne_of_lt hj)]
    · obtain rfl : k = 0 := by simpa using hk
      have hne : i + 0 ≠ i + 1 := by omega
      rw [Function.update_of_ne hne]
      exact Function.update_self i b mem
  | b :: n :: src, i, mem => by
    have hrun : Decoder.run ⟨i, mem, .ground⟩ (strvisx signed flag (b :: n :: src)) =
        Decoder.run ⟨i + 1, Function.update mem i b, .ground⟩ (strvisx signed flag (n :: src)) := by
      rw [Decoder.run, loop_strvisx hflag, Decoder.run]
    obtain ⟨hlength, hbefore, hplaces⟩ := run_strvisx signed hflag (n :: src) (i + 1) (Function.update mem i b)
    rw [hrun]
    refine ⟨?_, fun j hj => ?_, fun k hk => ?_⟩
    · have hsum : i + (b :: n :: src).length = i + 1 + (n :: src).length := Nat.add_right_comm i _ 1
      rw [hlength, hsum]
    · rw [hbefore j (Nat.lt_succ_of_lt hj), Function.update_of_ne (Nat.ne_of_lt hj)]
    · cases k with
      | zero => exact (hbefore i (Nat.lt_succ_self i)).trans (Function.update_self i b mem)
      | succ k =>
        have hindex : i + (k + 1) = i + 1 + k := by omega
        rw [hindex]
        exact hplaces k (Nat.lt_of_succ_lt_succ hk)

/-- `strunvis` returns the length of what was encoded, and puts it back at `dst`. -/
theorem strunvis_strvisx (signed : Bool) (flag : Word) (hflag : flag &&& visNoslash = 0) (src : List Byte)
    (mem : Nat → Byte) :
    (strunvis mem (strvisx signed flag src)).1 = src.length ∧
    ∀ k (hk : k < src.length), (strunvis mem (strvisx signed flag src)).2 k = src[k] := by
  obtain ⟨hlength, -, hplaces⟩ := run_strvisx signed hflag src 0 mem
  refine ⟨?_, fun k hk => ?_⟩
  · rw [strunvis, hlength, Nat.zero_add]
  · have hplace := hplaces k hk
    rwa [Nat.zero_add] at hplace

theorem strunvis_strvisx_cstyle :
    (strunvis (fun _ => 0) (strvisx true visCstyle [0, chr '7', 0, 0xe9, chr '\\'])).1 = 5 :=
  (strunvis_strvisx true visCstyle (by decide) [0, chr '7', 0, 0xe9, chr '\\'] fun _ => 0).1

theorem raw_of_isGraph (h : isGraph (b.setWidth 32) = true) : raw (b.setWidth 32) flag := by
  obtain ⟨-, hlt⟩ := of_decide_eq_true h
  exact .inl ⟨by rw [BitVec.le_def, BitVec.toNat_setWidth]; exact Nat.le_trans (Nat.mod_le _ _) (Nat.le_of_lt_succ b.isLt),
    decide_eq_true (BitVec.le_of_lt hlt), h⟩

theorem promote_eq (signed : Bool) (b : Byte) (h : promote signed b ≤ 0o177) : promote signed b = b.setWidth 32 := by
  revert b
  cases signed <;> decide

theorem raw_setWidth (hraw : raw (promote signed b) flag) : raw (b.setWidth 32) flag := by
  have hle : promote signed b ≤ 0o177 := by
    obtain ⟨-, hascii, -⟩ | ⟨-, h⟩ | ⟨-, h⟩ | ⟨-, h⟩ | ⟨-, h | h | h⟩ := hraw
    · exact of_decide_eq_true hascii
    all_goals
      rw [h]
      decide
  rwa [promote_eq signed b hle] at hraw

theorem isGraph_digit (b : Byte) : isGraph (((b &&& 7) + chr '0').setWidth 32) := by
  revert b
  decide

theorem isGraph_octal (c : Word) : ∀ x ∈ octal c, isGraph (x.setWidth 32) := by
  simp only [octal, List.forall_mem_cons]
  exact ⟨by decide, isGraph_digit _, isGraph_digit _, isGraph_digit _, fun x hx => absurd hx List.not_mem_nil⟩

theorem isGraph_marked (signed : Bool) (b : Byte)
    (hgraph : ¬(promote signed b ≤ ucharMax ∧ isAscii (promote signed b) ∧ isGraph (promote signed b)))
    (hspace : promote signed b &&& 0o177 ≠ ord ' ') :
    (marked (promote signed b)).length ≤ 3 ∧ (marked (promote signed b)).all (fun x => isGraph (x.setWidth 32)) = true := by
  revert b
  cases signed <;> decide

theorem isGraph_cstyle (h : cstyle c nextc = some l) : l.length ≤ 4 ∧ ∀ x ∈ l, isGraph (x.setWidth 32) := by
  unfold cstyle at h
  repeat' split at h
  all_goals cases h
  all_goals decide

theorem vis_visible (signed : Bool) (b : Byte) (flag nextc : Word) :
    (vis (promote signed b) flag nextc).length ≤ 4 ∧ ∀ x ∈ vis (promote signed b) flag nextc, raw (x.setWidth 32) flag := by
  have hslash : raw (BitVec.setWidth 32 (chr '\\')) flag := raw_of_isGraph (by decide)
  unfold vis
  split
  · rename_i hraw
    have hb := raw_setWidth hraw
    rw [setWidth_promote]
    split
    · exact ⟨Nat.le_of_ble_eq_true rfl, by simp [hb, hslash]⟩
    · exact ⟨Nat.le_of_ble_eq_true rfl, by simp [hb]⟩
  · rename_i hraw
    split
    · rename_i l hl
      split at hl
      · exact ⟨(isGraph_cstyle hl).1, fun x hx => raw_of_isGraph ((isGraph_cstyle hl).2 x hx)⟩
      · cases hl
    · split
      · exact ⟨Nat.le_refl 4, fun x hx => raw_of_isGraph (isGraph_octal _ x hx)⟩
      · rename_i hoctal
        obtain ⟨hlen, hall⟩ := isGraph_marked signed b (fun h => hraw (.inl h)) fun h => hoctal (.inl h)
        split
        · refine ⟨Nat.succ_le_succ hlen, fun x hx => ?_⟩
          rcases List.mem_cons.1 hx with rfl | hx
          · exact hslash
          · exact raw_of_isGraph (List.all_eq_true.1 hall x hx)
        · exact ⟨Nat.le_succ_of_le hlen, fun x hx => raw_of_isGraph (List.all_eq_true.1 hall x hx)⟩

/-- With any flags, the encoding has at most four characters for each one, and only such as `vis` leaves as they are. -/
theorem strvisx_visible (signed : Bool) (flag : Word) (src : List Byte) :
    (strvisx signed flag src).length ≤ 4 * src.length ∧ ∀ x ∈ strvisx signed flag src, raw (x.setWidth 32) flag := by
  fun_induction strvisx signed flag src with
  | case1 => exact ⟨Nat.le_refl 0, fun x hx => absurd hx List.not_mem_nil⟩
  | case2 c => exact vis_visible signed c flag 0
  | case3 c nextc src ih =>
    obtain ⟨hlen, hall⟩ := vis_visible signed c flag (promote signed nextc)
    refine ⟨?_, fun x hx => (List.mem_append.1 hx).elim (hall x) (ih.2 x)⟩
    rw [List.length_append, List.length_cons (a := c)]
    have := ih.1
    omega

end NetBSD.Vis
