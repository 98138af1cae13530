import NetBSD.Lib.Runs
import Mathlib.Data.List.Perm.Basic
import Mathlib.Data.Int.Order.Basic
import Mathlib.Logic.Function.Basic

/-!
# The callout queue

`hardclock`, `softclock`, `timeout` and `untimeout` of `kern_clock.c`, as far as they deal with callouts. `softclock`
is taken apart into the turns of its loop: between two of them the function of a callout runs, and clock interrupts and
other calls may come in.
-/

namespace NetBSD.Kern

def int32 (x : Int) : Int := x.bmod 4294967296

structure Callout (Func Arg : Type) where
  cFunc : Func
  cArg : Arg
  cTime : Int
  serial : Nat

section

variable {Func Arg : Type}

def hardclockLoop : List (Callout Func Arg) → List (Callout Func Arg) × Bool
  | [] => ([], false)
  | p1 :: rest =>
    let p1 := { p1 with cTime := int32 (p1.cTime - 1) }
    if p1.cTime > 0 then (p1 :: rest, false)
    else if p1.cTime = 0 then (p1 :: rest, true)
    else (p1 :: (hardclockLoop rest).1, true)

def timeoutLoop (new : Callout Func Arg) : Int → List (Callout Func Arg) → List (Callout Func Arg)
  | ticks, [] => [{ new with cTime := ticks }]
  | ticks, t :: rest =>
    if ticks > t.cTime then
      t :: timeoutLoop new (if t.cTime > 0 then int32 (ticks - t.cTime) else ticks) rest
    else { new with cTime := ticks } :: { t with cTime := int32 (t.cTime - ticks) } :: rest

def unlinkTime (time : Int) : List (Callout Func Arg) → List (Callout Func Arg)
  | [] => []
  | next :: rest => (if time > 0 then { next with cTime := int32 (next.cTime + time) } else next) :: rest

def untimeoutLoop [DecidableEq Func] [DecidableEq Arg] (ftn : Func) (arg : Arg) :
    List (Callout Func Arg) → Option (Callout Func Arg) × List (Callout Func Arg)
  | [] => (none, [])
  | t :: rest =>
    if t.cFunc = ftn ∧ t.cArg = arg then (some t, unlinkTime t.cTime rest)
    else
      let r := untimeoutLoop ftn arg rest
      (r.1, t :: r.2)

def Callout.key (t : Callout Func Arg) : Func × Arg × Nat := (t.cFunc, t.cArg, t.serial)

/-- The function of a callout is called: the ticks before it, and the ticks before `softclock` was last done. -/
structure Called (Func Arg : Type) where
  key : Func × Arg × Nat
  tick : Nat
  finished : Option Nat

/-- The queue and the number of free callouts, with what has happened so far: the number of clock ticks, whether
`softclock` is running and the ticks before it was last done, the calls of `timeout` and when each is due, and the
callouts that were called and cancelled. -/
structure Clock (Func Arg : Type) where
  calltodo : List (Callout Func Arg)
  callfree : Nat
  now : Nat
  running : Bool
  finished : Option Nat
  asked : List (Func × Arg × Nat)
  due : Nat → Int
  called : List (Called Func Arg)
  cancelled : List (Func × Arg × Nat)

inductive ClockCall (Func Arg : Type) where
  | hardclock
  | softclock
  | turn
  | timeout (ftn : Func) (arg : Arg) (ticks : Int)
  | untimeout (ftn : Func) (arg : Arg)

namespace Clock

def hardclock (c : Clock Func Arg) : Clock Func Arg :=
  { c with calltodo := (hardclockLoop c.calltodo).1, now := c.now + 1 }

/-- A turn of the loop of `softclock`, up to the call of the function, or the end of the loop. -/
def turn (c : Clock Func Arg) : Clock Func Arg :=
  match c.calltodo with
  | [] => { c with running := false, finished := some c.now }
  | t :: rest =>
    if t.cTime ≤ 0 then
      { c with
        calltodo := rest
        callfree := c.callfree + 1
        called := c.called ++ [⟨t.key, c.now, c.finished⟩] }
    else { c with running := false, finished := some c.now }

def timeout (ftn : Func) (arg : Arg) (ticks : Int) (c : Clock Func Arg) : Option (Clock Func Arg) :=
  let ticks := if ticks ≤ 0 then 1 else ticks
  if c.callfree = 0 then none
  else some { c with
    calltodo := timeoutLoop ⟨ftn, arg, 0, c.asked.length⟩ ticks c.calltodo
    callfree := c.callfree - 1
    asked := c.asked ++ [(ftn, arg, c.asked.length)]
    due := Function.update c.due c.asked.length (c.now + ticks) }

def untimeout [DecidableEq Func] [DecidableEq Arg] (ftn : Func) (arg : Arg) (c : Clock Func Arg) : Clock Func Arg :=
  let r := untimeoutLoop ftn arg c.calltodo
  match r.1 with
  | none => { c with calltodo := r.2 }
  | some t => { c with
      calltodo := r.2, callfree := c.callfree + 1, cancelled := c.cancelled ++ [t.key] }

def step [DecidableEq Func] [DecidableEq Arg] (c : Clock Func Arg) : ClockCall Func Arg → Option (Clock Func Arg)
  | .hardclock => some c.hardclock
  | .softclock => if c.running then none else some { c with running := true }
  | .turn => if c.running then some c.turn else none
  | .timeout ftn arg ticks => c.timeout ftn arg ticks
  | .untimeout ftn arg => some (c.untimeout ftn arg)

def Boot (c : Clock Func Arg) : Prop :=
  c.calltodo = [] ∧ c.running = false ∧ c.finished = none ∧ c.asked = [] ∧ c.called = [] ∧ c.cancelled = []

def Allowed (_ : Clock Func Arg) : ClockCall Func Arg → Prop
  | .timeout _ _ ticks => -2147483648 ≤ ticks ∧ ticks ≤ 2147483647
  | _ => True

def Prompt (c : Clock Func Arg) : ClockCall Func Arg → Prop
  | .hardclock => ∀ t ∈ c.calltodo, (c.now : Int) - c.due t.serial < 2147483648
  | _ => True

end Clock

end

end NetBSD.Kern
