import NetBSD.Compress.Getcode
import NetBSD.Lib.Runs

/-!
# The chains of prefixes

When the string of a code is put onto the stack, there is room for it if its chain of prefixes ends, and the stack is overrun if the
chain is a circle. From there, what a file must be like for its reading to stay inside of the tables.
-/

namespace NetBSD.Compress

open Function (update)
open Lib (Reaches)

variable {file : List Byte} {z z' z₁ : Zstate} {code room : Nat} {stack : List Byte}

def Zstate.follow (z : Zstate) (code : Nat) : Nat := (z.prefixof code).toNat

def Zstate.Ends (z : Zstate) (code : Nat) : Prop := Reaches z.follow (· < 256) code

theorem expand_spec (z : Zstate) (room : Nat) (stack : List Byte) (hcode : code < 1 <<< bits) :
    ((∃ k, k < room ∧ z.follow^[k] code < 256) ∧ ∃ c stack', expand z.prefixof z.suffixof room code stack = .ok (c :: stack')) ∨
      (¬∃ k, k < room ∧ z.follow^[k] code < 256) ∧ expand z.prefixof z.suffixof room code stack = .error .stack := by
  induction room generalizing code stack with
  | zero => exact .inr ⟨fun ⟨k, hk, _⟩ => absurd hk (Nat.not_lt_zero k), rfl⟩
  | succ room ih =>
    unfold expand
    rw [if_neg (Nat.not_le.2 hcode)]
    by_cases hchar : code < 256
    · rw [if_pos hchar]
      exact .inl ⟨⟨0, Nat.succ_pos room, hchar⟩, _, _, rfl⟩
    · rw [if_neg hchar]
      rcases ih (z.suffixof code :: stack) (z.prefixof code).isLt with ⟨⟨k, hk, hlt⟩, hok⟩ | ⟨hnone, herr⟩
      · exact .inl ⟨⟨k + 1, Nat.succ_lt_succ hk, hlt⟩, hok⟩
      · refine .inr ⟨fun ⟨k, hk, hlt⟩ => ?_, herr⟩
        cases k with
        | zero => exact hchar hlt
        | succ k => exact hnone ⟨k, Nat.lt_of_succ_lt_succ hk, hlt⟩

theorem follow_lt (hcode : code < 1 <<< bits) (k : Nat) : z.follow^[k] code < 1 <<< bits := by
  cases k with
  | zero => exact hcode
  | succ k =>
    rw [Function.iterate_succ_apply']
    exact (z.prefixof (z.follow^[k] code)).isLt

theorem expand_ends (hcode : code < 1 <<< bits) (hroom : 1 <<< bits ≤ room) :
    z.Ends code ∧ (∃ c stack', expand z.prefixof z.suffixof room code stack = .ok (c :: stack')) ∨
      ¬z.Ends code ∧ expand z.prefixof z.suffixof room code stack = .error .stack := by
  rcases expand_spec z room stack hcode with ⟨⟨k, -, hlt⟩, hok⟩ | ⟨hnone, herr⟩
  · exact .inl ⟨⟨k, hlt⟩, hok⟩
  · refine .inr ⟨fun hends => ?_, herr⟩
    obtain ⟨k, hk, hlt⟩ := hends.before (follow_lt hcode)
    exact hnone ⟨k, Nat.lt_of_lt_of_le hk hroom, hlt⟩

theorem push_ends (hcode : code < 1 <<< bits) (hold : z.oldcode < 1 <<< bits) :
    z.Ends (z.pending code) ∧ (∃ c stack', z.push code [] = .ok (c :: stack')) ∨
      ¬z.Ends (z.pending code) ∧ z.push code [] = .error .stack := by
  have hsize : stackSize = 210468 := rfl
  have h16 : 1 <<< bits = 65536 := rfl
  unfold Zstate.push Zstate.pending
  rw [if_neg (show ¬stackSize ≤ ([] : List Byte).length by rw [hsize, List.length_nil]; omega)]
  split
  · exact expand_ends hold (by rw [hsize, h16, List.length_nil]; omega)
  · exact expand_ends hcode (by rw [hsize, h16, List.length_nil]; omega)

structure Next (z z' : Zstate) : Prop where
  state : z'.state = z.state
  maxmaxcode : z'.maxmaxcode = z.maxmaxcode
  blockCompress : z'.blockCompress = z.blockCompress
  stack : z'.stack = z.stack
  oldcode : z'.oldcode = z.oldcode
  prefixof : ∀ c, 256 ≤ c → z'.prefixof c = z.prefixof c
  freeEnt : z'.freeEnt = z.freeEnt ∨ z.blockCompress = true ∧ z'.freeEnt = clear

theorem Fetched.next (h : Fetched z z') : Next z z' :=
  ⟨h.state, h.maxmaxcode, h.blockCompress, h.stack, h.oldcode, fun c _ => congrFun h.prefixof c, .inl h.freeEnt⟩

theorem Zstate.Sized.nextCode (hz : z.Sized) (hnot : ¬z.eighth) :
    ∃ code z', nextCode z = .ok (code, z') ∧ Next z z' ∧ ∀ c, code = some c → c < 1 <<< bits ∧ z'.Sized := by
  obtain ⟨code, z₁, hget, hsame, hcode⟩ := hz.getcode hnot
  unfold NetBSD.Compress.nextCode
  rw [hget]
  cases code with
  | none => exact ⟨none, z₁, rfl, hsame.next, hcode⟩
  | some code =>
    obtain ⟨-, hz₁⟩ := hcode code rfl
    dsimp only
    split
    · next hclear =>
      obtain ⟨code', z₂, hget', hsame', hcode'⟩ := Zstate.Sized.getcode
        (z := { z₁ with prefixof := fun i => if i < 256 then 0 else z₁.prefixof i, clearFlg := true, freeEnt := first - 1 })
        ⟨⟨hz₁.least, hz₁.most, hz₁.maxbits_le, hz₁.maxmaxcode_eq, .inl (show first - 1 ≤ first by decide), hz₁.room⟩, hz₁.whole, hz₁.filled⟩
        fun h => h.1 (.inl rfl)
      refine ⟨code', z₂, hget', ⟨?_, ?_, ?_, ?_, ?_, fun c hc => ?_, .inr ⟨?_, ?_⟩⟩, hcode'⟩
      · exact hsame'.state.trans hsame.state
      · exact hsame'.maxmaxcode.trans hsame.maxmaxcode
      · exact hsame'.blockCompress.trans hsame.blockCompress
      · exact hsame'.stack.trans hsame.stack
      · exact hsame'.oldcode.trans hsame.oldcode
      · rw [hsame'.prefixof, ← hsame.prefixof]
        exact if_neg (Nat.not_lt.2 hc)
      · exact hsame.blockCompress.symm.trans hclear.2
      · exact hsame'.freeEnt
    · exact ⟨some code, z₁, rfl, hsame.next, hcode⟩

structure AtTop (z : Zstate) : Prop where
  state : z.state = .middle
  stack : z.stack = some []
  sized : z.Sized
  oldcode : z.oldcode < 1 <<< bits

structure AtMiddle (z : Zstate) : Prop where
  state : z.state = .middle
  stack : ∃ c stack, z.stack = some (c :: stack)
  sized : z.Sized
  oldcode : z.oldcode < 1 <<< bits
  incode : z.incode < 1 <<< bits

def Zstate.Safe (z : Zstate) : Prop :=
  ¬z.eighth ∧ ∀ code z', nextCode z = .ok (some code, z') → z'.Ends (z'.pending code)

theorem AtTop.turn_eighth (h : z.eighth) : turn z = .error .gbuf := by
  rw [turn, nextCode, getcode_eighth h]

theorem AtTop.turn (hz : AtTop z) (hnot : ¬z.eighth) :
    (∃ z', nextCode z = .ok (none, z') ∧ turn z = .ok { z' with state := .eof }) ∨
      ∃ code z', nextCode z = .ok (some code, z') ∧ Next z z' ∧ z'.Sized ∧ code < 1 <<< bits ∧
        (z'.Ends (z'.pending code) ∧ (∃ c stack, turn z = .ok { z' with incode := code, stack := some (c :: stack), finchar := c }) ∨
          ¬z'.Ends (z'.pending code) ∧ turn z = .error .stack) := by
  obtain ⟨code, z', hnext, hsame, hcode⟩ := hz.sized.nextCode hnot
  unfold NetBSD.Compress.turn
  rw [hnext]
  cases code with
  | none => exact .inl ⟨z', rfl, rfl⟩
  | some code =>
    obtain ⟨hlt, hsized⟩ := hcode code rfl
    refine .inr ⟨code, z', rfl, hsame, hsized, hlt, ?_⟩
    have hold : z'.oldcode < 1 <<< bits := by
      rw [hsame.oldcode]
      exact hz.oldcode
    have hstack : z'.stack.getD [] = [] := by
      rw [hsame.stack, hz.stack]
      rfl
    dsimp only
    rw [hstack]
    rcases push_ends hlt hold with ⟨hends, c, stack, hpush⟩ | ⟨hends, hpush⟩
    · rw [hpush]
      exact .inl ⟨hends, c, stack, rfl⟩
    · rw [hpush]
      exact .inr ⟨hends, rfl⟩

theorem AtTop.safe_iff (hz : AtTop z) : z.Safe ↔ ∃ z', NetBSD.Compress.turn z = .ok z' := by
  by_cases h : z.eighth
  · refine ⟨fun hsafe => absurd h hsafe.1, fun ⟨z', hok⟩ => ?_⟩
    rw [AtTop.turn_eighth h] at hok
    cases hok
  rcases hz.turn h with ⟨z₁, hnext, hok⟩ | ⟨code, z₁, hnext, -, -, -, hcase⟩
  · refine ⟨fun _ => ⟨_, hok⟩, fun _ => ⟨h, fun code z' hcode => ?_⟩⟩
    rw [hnext] at hcode
    cases hcode
  · have hsafe : z.Safe ↔ z₁.Ends (z₁.pending code) := by
      refine ⟨fun hsafe => hsafe.2 code z₁ hnext, fun hends => ⟨h, fun code' z' hcode => ?_⟩⟩
      rw [hnext] at hcode
      cases hcode
      exact hends
    rw [hsafe]
    rcases hcase with ⟨hends, c, stack, hok⟩ | ⟨hends, herr⟩
    · exact ⟨fun _ => ⟨_, hok⟩, fun _ => hends⟩
    · refine ⟨fun h => absurd h hends, fun ⟨z', hok⟩ => ?_⟩
      rw [herr] at hok
      cases hok

theorem AtTop.turned (hz : AtTop z) (hturn : NetBSD.Compress.turn z = .ok z') :
    z'.state = .eof ∨ AtMiddle z' ∧ ∃ code z₁ c stack, nextCode z = .ok (some code, z₁) ∧ Next z z₁ ∧ z₁.Ends (z₁.pending code) ∧
      z' = { z₁ with incode := code, stack := some (c :: stack), finchar := c } := by
  by_cases h : z.eighth
  · rw [AtTop.turn_eighth h] at hturn
    cases hturn
  rcases hz.turn h with ⟨z₁, -, hok⟩ | ⟨code, z₁, hnext, hsame, hsized, hcode, ⟨hends, c, stack, hok⟩ | ⟨-, herr⟩⟩
  · rw [hok] at hturn
    cases hturn
    exact .inl rfl
  · rw [hok] at hturn
    cases hturn
    have hold : z₁.oldcode < 1 <<< bits := by
      rw [hsame.oldcode]
      exact hz.oldcode
    refine .inr ⟨⟨hsame.state.trans hz.state, ⟨c, stack, rfl⟩, ?_, hold, hcode⟩, code, z₁, c, stack, hnext, hsame, hends, rfl⟩
    exact ⟨⟨hsized.least, hsized.most, hsized.maxbits_le, hsized.maxmaxcode_eq, hsized.free, hsized.room⟩, hsized.whole, hsized.filled⟩
  · rw [herr] at hturn
    cases hturn

theorem AtMiddle.enter (hz : AtMiddle z) :
    ∃ z', NetBSD.Compress.enter { z with stack := some [] } = .ok z' ∧ AtTop z' ∧ z'.oldcode = z.incode ∧ z'.maxmaxcode = z.maxmaxcode ∧
      z'.blockCompress = z.blockCompress ∧
      (z.freeEnt < z.maxmaxcode ∧ z'.prefixof = update z.prefixof z.freeEnt (BitVec.ofNat 16 z.oldcode) ∧ z'.freeEnt = z.freeEnt + 1 ∨
        z.maxmaxcode ≤ z.freeEnt ∧ z'.prefixof = z.prefixof ∧ z'.freeEnt = z.freeEnt) := by
  have hsized := hz.sized
  unfold NetBSD.Compress.enter
  dsimp only
  split
  · next hfree =>
    have hlt : z.freeEnt < 1 <<< bits := by
      refine Nat.lt_of_lt_of_le hfree ?_
      rw [hsized.maxmaxcode_eq]
      exact one_shl_le hsized.maxbits_le
    have hsize : 1 <<< bits ≤ hsize := by decide
    rw [if_neg (by omega), if_neg (Nat.not_le.2 hlt)]
    refine ⟨_, rfl, ⟨hz.state, rfl, ⟨⟨hsized.least, hsized.most, hsized.maxbits_le, hsized.maxmaxcode_eq, .inr hfree, hsized.room⟩,
      hsized.whole, hsized.filled⟩, hz.incode⟩, rfl, rfl, rfl, .inl ⟨hfree, rfl, rfl⟩⟩
  · next hfree =>
    refine ⟨_, rfl, ⟨hz.state, rfl, ⟨⟨hsized.least, hsized.most, hsized.maxbits_le, hsized.maxmaxcode_eq, hsized.free, hsized.room⟩,
      hsized.whole, hsized.filled⟩, hz.incode⟩, rfl, rfl, rfl, .inr ⟨Nat.le_of_not_lt hfree, rfl, rfl⟩⟩

inductive Reached (file : List Byte) : Zstate → Prop where
  | first {z z' : Zstate} {code : Nat} (hheader : header { zopen file with state := .middle } = (true, z))
      (hcode : getcode z = .ok (some code, z')) : Reached file (z'.started code)
  | next {z z' z₁ : Zstate} (hz : Reached file z) (hturn : turn z = .ok z') (hmiddle : z'.state = .middle)
      (henter : enter { z' with stack := some [] } = .ok z₁) : Reached file z₁

theorem header_same {good : Bool} (hheader : header z = (good, z')) : z'.state = z.state ∧ z'.stack = z.stack := by
  unfold header at hheader
  split at hheader
  · split at hheader
    · dsimp only at hheader
      split at hheader
      · cases hheader
        exact ⟨rfl, rfl⟩
      · cases hheader
        exact ⟨rfl, rfl⟩
    · cases hheader
      exact ⟨rfl, rfl⟩
  · cases hheader
    exact ⟨rfl, rfl⟩

theorem header_ok (hheader : header { zopen file with state := .middle } = (true, z)) :
    z.Sized ∧ ¬z.eighth ∧ (∀ c, z.prefixof c = 0) ∧ z.freeEnt = (if z.blockCompress = true then first else 256) := by
  unfold header at hheader
  split at hheader
  · next a b c file hfile =>
    split at hheader
    · dsimp only at hheader
      split at hheader
      · cases hheader
      · next hmax =>
        cases hheader
        have hfirst : (if (c.toNat &&& 0x80) ≠ 0 then first else 256) ≤ first := by
          split <;> decide
        refine ⟨⟨⟨Nat.le_refl initBits, (show initBits ≤ bits by decide), Nat.le_of_not_lt hmax, rfl, .inl hfirst,
          .inl ⟨rfl, .inl rfl⟩⟩, ⟨0, rfl⟩, (show (0 : Int) ≤ 7 * (initBits : Nat) + 1 by decide)⟩, fun h => absurd h.2.1 (show initBits ≠ 16 by decide),
          fun i => ite_self 0, if_congr decide_eq_true_iff.symm rfl rfl⟩
    · cases hheader
  · cases hheader

theorem Reached.atTop (h : Reached file z) : AtTop z := by
  induction h with
  | first hheader hcode =>
    obtain ⟨hsized, hnot, -⟩ := header_ok hheader
    obtain ⟨code, z', hget, hsame, hlt⟩ := hsized.getcode hnot
    rw [hcode] at hget
    cases hget
    obtain ⟨hlt, hz'⟩ := hlt _ rfl
    exact ⟨hsame.state.trans (header_same hheader).1, rfl, ⟨⟨hz'.least, hz'.most, hz'.maxbits_le, hz'.maxmaxcode_eq, hz'.free, hz'.room⟩, hz'.whole,
      hz'.filled⟩, hlt⟩
  | next hz hturn hmiddle henter ih =>
    rcases ih.turned hturn with heof | ⟨hz', -⟩
    · rw [hmiddle] at heof
      cases heof
    · obtain ⟨z₁, hz₁, htop, -⟩ := hz'.enter
      rw [henter] at hz₁
      cases hz₁
      exact htop

theorem middle_pops {out : List Byte} (hstack : z.stack = some stack) (hne : stack ≠ []) (count : Nat)
    (henter : enter { z with stack := some [] } = .ok z₁) :
    middle (stack.length + count) out z = resume count (out ++ stack) z₁ := by
  induction stack generalizing z out with
  | nil => exact absurd rfl hne
  | cons c stack ih =>
    rw [List.length_cons, Nat.add_right_comm]
    cases stack with
    | nil =>
      rw [middle, hstack]
      dsimp only
      rw [henter, List.length_nil, Nat.zero_add]
      rfl
    | cons d stack =>
      rw [middle, hstack]
      refine (ih (show Zstate.stack { z with stack := some (d :: stack) } = _ from rfl) (List.cons_ne_nil d stack) henter).trans ?_
      rw [List.append_assoc, List.singleton_append]

theorem zread_start {num : Nat} (hnum : num ≠ 0) : zread num (zopen file) = readStart num { zopen file with state := .middle } :=
  if_neg hnum

theorem zread_middle {num : Nat} (hnum : num ≠ 0) (hz : z.state = .middle) : zread num z = (middle num [] z).map returned := by
  rw [zread, if_neg hnum, hz]

theorem zread_eof {num : Nat} (hz : z.state = .eof) : zread num z = .ok (0, [], z) := by
  rw [zread, hz]
  exact ite_self _

theorem Reached.asked (h : Reached file z) :
    ∃ num out, 0 < num ∧ ∀ count, zread (num + count) (zopen file) = (resume count out z).map returned := by
  induction h with
  | @first z z' code hheader hcode =>
    refine ⟨1, [BitVec.ofNat 8 code], Nat.one_pos, fun count => ?_⟩
    rw [zread_start (by omega), readStart, hheader]
    dsimp only
    rw [hcode, Nat.add_sub_cancel_left]
  | @next z z' z₁ hz hturn hmiddle henter ih =>
    obtain ⟨num, out, hnum, hread⟩ := ih
    rcases hz.atTop.turned hturn with heof | ⟨hz', -⟩
    · rw [hmiddle] at heof
      cases heof
    · obtain ⟨c, stack, hstack⟩ := hz'.stack
      refine ⟨num + (c :: stack).length, out ++ c :: stack, Nat.add_pos_left hnum _, fun count => ?_⟩
      rw [Nat.add_assoc, hread, resume, hturn]
      dsimp only
      rw [if_neg (by rw [hmiddle]; decide), middle_pops hstack (List.cons_ne_nil c stack) count henter]

def Decodes (file : List Byte) : Prop := (∃ z, Reached file z) ∧ ∀ z, Reached file z → z.Safe

inductive Running (file : List Byte) : Zstate → Prop where
  | start : Running file (zopen file)
  | middle {z z₁ : Zstate} (hz : AtMiddle z) (henter : enter { z with stack := some [] } = .ok z₁) (hreached : Reached file z₁) :
      Running file z
  | eof {z : Zstate} (heof : z.state = .eof) : Running file z

theorem Decodes.resume {count : Nat} {out : List Byte} (h : Decodes file) (hz : Reached file z)
    (hmiddle : ∀ {z z₁ : Zstate} {out}, AtMiddle z → enter { z with stack := some [] } = .ok z₁ → Reached file z₁ →
      ∃ out' z', middle count out z = .ok (out', z') ∧ Running file z') :
    ∃ out' z', resume count out z = .ok (out', z') ∧ Running file z' := by
  obtain ⟨z', hturn⟩ := hz.atTop.safe_iff.1 (h.2 z hz)
  unfold NetBSD.Compress.resume
  rw [hturn]
  dsimp only
  rcases hz.atTop.turned hturn with heof | ⟨hz', -⟩
  · rw [if_pos heof]
    exact ⟨out, z', rfl, .eof heof⟩
  · obtain ⟨z₁, henter, -⟩ := hz'.enter
    rw [if_neg (by rw [hz'.state]; decide)]
    exact hmiddle hz' henter (.next hz hturn hz'.state henter)

theorem Decodes.middle {count : Nat} {out : List Byte} (h : Decodes file) (hz : AtMiddle z)
    (henter : enter { z with stack := some [] } = .ok z₁) (hreached : Reached file z₁) :
    ∃ out' z', middle count out z = .ok (out', z') ∧ Running file z' := by
  induction count generalizing z z₁ out with
  | zero => exact ⟨out, z, rfl, .middle hz henter hreached⟩
  | succ count ih =>
    obtain ⟨c, stack, hstack⟩ := hz.stack
    rw [NetBSD.Compress.middle, hstack]
    cases stack with
    | nil =>
      dsimp only
      rw [henter]
      exact h.resume hreached ih
    | cons d stack =>
      exact ih ⟨hz.state, ⟨d, stack, rfl⟩, ⟨⟨hz.sized.least, hz.sized.most, hz.sized.maxbits_le, hz.sized.maxmaxcode_eq, hz.sized.free,
        hz.sized.room⟩, hz.sized.whole, hz.sized.filled⟩, hz.oldcode, hz.incode⟩ henter hreached

theorem Confined.reached (h : Confined file) : ∃ z, Reached file z := by
  obtain ⟨z', hrun⟩ := h [1, 1]
  have hsecond : ∀ z : Zstate, z.state = .middle → z.stack = none → run [1] z = .ok z' → False := fun z hmiddle hstack hrun => by
    rw [run, zread_middle Nat.one_ne_zero hmiddle, middle, hstack] at hrun
    cases hrun
  rw [run, zread_start Nat.one_ne_zero, readStart] at hrun
  rcases hheader : header { zopen file with state := .middle } with ⟨good, z⟩
  rw [hheader] at hrun
  obtain ⟨hstate, hstack⟩ := header_same hheader
  cases good with
  | false => exact (hsecond z hstate hstack hrun).elim
  | true =>
    obtain ⟨hsized, hnot, -⟩ := header_ok hheader
    obtain ⟨code, z₁, hget, hsame, -⟩ := hsized.getcode hnot
    cases code with
    | none =>
      dsimp only at hrun
      rw [hget] at hrun
      exact (hsecond z₁ (hsame.state.trans hstate) (hsame.stack.trans hstack) hrun).elim
    | some code => exact ⟨_, .first hheader hget⟩

theorem Reached.begun (h : Reached file z) :
    ∃ z z' code, header { zopen file with state := .middle } = (true, z) ∧ getcode z = .ok (some code, z') := by
  induction h with
  | first hheader hcode => exact ⟨_, _, _, hheader, hcode⟩
  | next _ _ _ _ ih => exact ih

theorem Decodes.zread (h : Decodes file) (num : Nat) (hz : Running file z) : ∃ r, zread num z = .ok r ∧ Running file r.2.2 := by
  by_cases hnum : num = 0
  · rw [NetBSD.Compress.zread, if_pos hnum]
    exact ⟨_, rfl, hz⟩
  cases hz with
  | start =>
    obtain ⟨z₀, z, code, hheader, hcode⟩ := h.1.elim fun _ hz => hz.begun
    obtain ⟨out, z', hok, hrun⟩ := h.resume (.first hheader hcode) h.middle
    rw [zread_start hnum, readStart, hheader]
    dsimp only
    rw [hcode]
    dsimp only
    rw [hok]
    exact ⟨_, rfl, hrun⟩
  | middle hz henter hreached =>
    obtain ⟨out, z', hok, hrun⟩ := h.middle hz henter hreached
    rw [zread_middle hnum hz.state, hok]
    exact ⟨_, rfl, hrun⟩
  | eof heof =>
    rw [zread_eof heof]
    exact ⟨_, rfl, .eof heof⟩

theorem Decodes.run {nums : List Nat} (h : Decodes file) (hz : Running file z) : ∃ z', run nums z = .ok z' := by
  induction nums generalizing z with
  | nil => exact ⟨z, rfl⟩
  | cons num nums ih =>
    obtain ⟨r, hok, hr⟩ := h.zread num hz
    rw [NetBSD.Compress.run, hok]
    exact ih hr

theorem Confined.safe (h : Confined file) (hz : Reached file z) : z.Safe := by
  obtain ⟨num, out, hnum, hread⟩ := hz.asked
  obtain ⟨z', hrun⟩ := h [num]
  have hnone := hread 0
  rw [run, ← Nat.add_zero num, hnone, resume] at hrun
  refine hz.atTop.safe_iff.2 ?_
  rcases hturn : turn z with e | z₁
  · rw [hturn] at hrun
    cases hrun
  · exact ⟨z₁, rfl⟩

/-- What an encoder could have written: the first code is a character, and each other one has an entry or is the next one to have one, and
is no `CLEAR` behind a `CLEAR`. -/
structure Orderly (file : List Byte) : Prop where
  first : ∀ {z z' code}, header { zopen file with state := .middle } = (true, z) → getcode z = .ok (some code, z') → code < 256
  known : ∀ {z z' code}, Reached file z → nextCode z = .ok (some code, z') →
    code ≤ z'.freeEnt ∧ (z'.blockCompress = true → code ≠ clear)

/-- Prefixes come before what they are prefixes of, and the entry of `CLEAR`, made by the first string behind it, is not one of them. -/
structure Backward (z : Zstate) : Prop where
  prefixof : ∀ c, 256 ≤ c → (z.blockCompress = true → c ≠ clear) →
    z.follow c < c ∧ (z.blockCompress = true → z.follow c ≠ clear)
  oldcode : (z.freeEnt < z.maxmaxcode → z.oldcode < z.freeEnt) ∧ (z.blockCompress = true → z.oldcode ≠ clear)

theorem Backward.of_next (hz : Backward z) (h : Next z z') :
    (∀ c, 256 ≤ c → (z'.blockCompress = true → c ≠ clear) → z'.follow c < c ∧ (z'.blockCompress = true → z'.follow c ≠ clear)) ∧
      (z'.blockCompress = true → z'.oldcode ≠ clear) := by
  rw [h.blockCompress, h.oldcode]
  refine ⟨fun c hc hne => ?_, hz.oldcode.2⟩
  rw [Zstate.follow, h.prefixof c hc]
  exact hz.prefixof c hc hne

theorem Orderly.backward (h : Orderly file) (hz : Reached file z) : Backward z := by
  induction hz with
  | @first z z' code hheader hcode =>
    obtain ⟨hsized, hnot, hzero, hfree⟩ := header_ok hheader
    obtain ⟨code', z₁, hget, hsame, -⟩ := hsized.getcode hnot
    rw [hcode] at hget
    cases hget
    have hchar := h.first hheader hcode
    refine ⟨fun c hc _ => ?_, fun _ => ?_, fun _ => Nat.ne_of_lt hchar⟩
    · have hback : (z'.started code).follow c = 0 := by
        rw [Zstate.follow, Zstate.started, hsame.prefixof, hzero]
        rfl
      rw [hback]
      exact ⟨Nat.lt_of_lt_of_le (by decide) hc, fun _ => by decide⟩
    · have hle : 256 ≤ z.freeEnt := by
        rw [hfree]
        split <;> decide
      rw [Zstate.started, hsame.freeEnt]
      exact Nat.lt_of_lt_of_le hchar hle
  | @next z z' z₂ hz hturn hmiddle henter ih =>
    rcases hz.atTop.turned hturn with heof | ⟨hz', code, z₁, c, stack, hnext, hsame, -, rfl⟩
    · rw [hmiddle] at heof
      cases heof
    obtain ⟨hknown, hclear⟩ := h.known hz hnext
    obtain ⟨hback, hold⟩ := ih.of_next hsame
    obtain ⟨z₃, henter', -, hold', hmax, hblock, hcase⟩ := hz'.enter
    rw [henter] at henter'
    cases henter'
    rcases hcase with ⟨hfree, hentry, hfree'⟩ | ⟨hfull, hentry, hfree'⟩
    · refine ⟨fun i hi hne => ?_, fun _ => ?_, ?_⟩
      · rw [hblock] at hne ⊢
        rw [Zstate.follow, hentry]
        by_cases hnew : i = z₁.freeEnt
        · -- the new entry; `CLEAR` has no other
          have hlt : z₁.oldcode < z₁.freeEnt := by
            rcases hsame.freeEnt with heq | ⟨hcomp, heq⟩
            · rw [hsame.oldcode, heq]
              exact ih.oldcode.1 (heq ▸ hsame.maxmaxcode ▸ hfree)
            · exact absurd (hnew.trans heq) (hne (hsame.blockCompress.trans hcomp))
          have hfits : (BitVec.ofNat 16 z₁.oldcode).toNat = z₁.oldcode := Nat.mod_eq_of_lt hz'.oldcode
          rw [hnew, Function.update_self, hfits]
          exact ⟨hlt, hold⟩
        · rw [Function.update_of_ne hnew]
          exact hback i hi hne
      · rw [hold', hfree']
        exact Nat.lt_succ_of_le hknown
      · rw [hold', hblock]
        exact hclear
    · refine ⟨fun i hi hne => ?_, fun hlt => ?_, ?_⟩
      · rw [hblock] at hne ⊢
        rw [Zstate.follow, hentry]
        exact hback i hi hne
      · rw [hfree', hmax] at hlt
        exact absurd hlt (Nat.not_lt.2 hfull)
      · rw [hold', hblock]
        exact hclear

theorem Orderly.ends (h : Orderly file) (hz : Reached file z) (hnext : nextCode z = .ok (some code, z')) : z'.Ends (z'.pending code) := by
  by_cases hnot : z.eighth
  · rw [nextCode, getcode_eighth hnot] at hnext
    cases hnext
  obtain ⟨code', z₁, hnext', hsame, -⟩ := hz.atTop.sized.nextCode hnot
  rw [hnext] at hnext'
  cases hnext'
  obtain ⟨hback, hold⟩ := (h.backward hz).of_next hsame
  have hpending : z'.blockCompress = true → z'.pending code ≠ clear := by
    unfold Zstate.pending
    split
    · exact hold
    · exact (h.known hz hnext).2
  exact Reaches.of_lt (q := fun c => z'.blockCompress = true → c ≠ clear)
    (fun c hc hlt => hback c (Nat.le_of_not_lt hlt) hc) hpending

theorem confined_iff_decodes (file : List Byte) :
    (Confined file ↔ Decodes file) ∧
      (Orderly file → ∀ z code z', Reached file z → nextCode z = .ok (some code, z') → z'.Ends (z'.pending code)) := by
  refine ⟨⟨fun h => ?_, fun h nums => h.run .start⟩, fun h z code z' hz hnext => h.ends hz hnext⟩
  exact ⟨h.reached, fun z hz => h.safe hz⟩

def Zstate.later (z : Zstate) : Option Zstate :=
  match turn z with
  | .error _ => none
  | .ok z => if z.state = .middle then (enter { z with stack := some [] }).toOption else none

def begun (file : List Byte) : Option Zstate :=
  match header { zopen file with state := .middle } with
  | (false, _) => none
  | (true, z) =>
    match getcode z with
    | .ok (some code, z) => some (z.started code)
    | _ => none

theorem reached_begun (h : begun file = some z) : Reached file z := by
  unfold begun at h
  split at h
  · cases h
  · next z₀ hheader =>
    split at h
    · next code z' hcode =>
      cases h
      exact .first hheader hcode
    · cases h

theorem Reached.later (hz : Reached file z) (h : z.later = some z') : Reached file z' := by
  unfold Zstate.later at h
  split at h
  · cases h
  · next z₁ hturn =>
    split at h
    · next hmiddle =>
      rcases henter : enter { z₁ with stack := some [] } with e | z₂
      · rw [henter] at h
        cases h
      · rw [henter] at h
        cases h
        exact .next hz hturn hmiddle henter
    · cases h

/-- An `a`, and three times the code 258, the first time one past the next code to have an entry. -/
def circular : List Byte := [0x1f, 0x9d, 0x90, 0x61, 0x04, 0x0a, 0x14, 0x08]

theorem not_confined_circular : ¬Confined circular := by
  intro h
  have hend : (((begun circular).bind Zstate.later).bind Zstate.later).map
      (fun z => (nextCode z).toOption.map fun r => (r.1, r.2.freeEnt, r.2.follow 258)) = some (some (some 258, 259, 258)) := by
    decide +kernel
  obtain ⟨z, hz, hcode⟩ := Option.map_eq_some_iff.1 hend
  obtain ⟨z₁, hz₁, hlater⟩ := Option.bind_eq_some_iff.1 hz
  obtain ⟨z₀, hz₀, hlater₀⟩ := Option.bind_eq_some_iff.1 hz₁
  have hreached : Reached circular z := ((reached_begun hz₀).later hlater₀).later hlater
  rcases hnext : nextCode z with e | ⟨code, z'⟩
  · rw [hnext] at hcode
    cases hcode
  rw [hnext] at hcode
  have hall : (code, z'.freeEnt, z'.follow 258) = (some 258, 259, 258) := Option.some.inj hcode
  obtain rfl : code = some 258 := congrArg Prod.fst hall
  have hfree : z'.freeEnt = 259 := congrArg (fun r => r.2.1) hall
  have hself : z'.follow 258 = 258 := congrArg (fun r => r.2.2) hall
  -- the entry is its own prefix
  obtain ⟨k, hk⟩ := (h.safe hreached).2 258 z' hnext
  have hpending : z'.pending 258 = 258 := by
    rw [Zstate.pending, if_neg (by omega)]
  rw [hpending, Function.iterate_fixed hself] at hk
  exact absurd hk (by decide)

end NetBSD.Compress
