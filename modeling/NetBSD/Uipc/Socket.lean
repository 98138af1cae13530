import NetBSD.Lib.Links
import NetBSD.Lib.Runs
import Mathlib.Data.Int.Basic

/-!
# Sockets that wait for accept

`uipc_socket2.c` and `uipc_socket.c`: the queues of a listening socket. Sockets are in a memory by their
addresses. The protocol is one like TCP: it aborts a connection by dropping the control block, and drops that
of a listening socket when the socket is detached. There is no result where a null pointer is followed, a freed
socket is used, a loop does not end, or the kernel panics.
-/

namespace NetBSD.Uipc

open Lib (lastFrom)

inductive Which where
  | q0
  | q
  deriving DecidableEq

structure Socket where
  soHead : Option Nat := none
  soq : Which → Option Nat := fun _ => none
  soqlen : Which → Int := fun _ => 0
  soQlimit : Int := 0
  /-- Whether `so_pcb` is not null. -/
  soPcb : Bool := true
  soAcceptconn : Bool := false
  ssNofdref : Bool := false
  ssIsconnected : Bool := false
  ssIsconnecting : Bool := false
  ssIsdisconnecting : Bool := false
  ssIsconfirming : Bool := false
  ssCantrcvmore : Bool := false
  ssCantsendmore : Bool := false

def Socket.setLink (so : Socket) (w : Which) (p : Option Nat) : Socket :=
  { so with soq := Function.update so.soq w p }

def Socket.addLen (so : Socket) (w : Which) (n : Int) : Socket :=
  { so with soqlen := Function.update so.soqlen w (so.soqlen w + n) }

abbrev Sockets := Nat → Option Socket

def Sockets.modify (m : Sockets) (a : Nat) (f : Socket → Socket) : Sockets :=
  Function.update m a ((m a).map f)

def Sockets.free (m : Sockets) (a : Nat) : Sockets := Function.update m a none

def Sockets.next (m : Sockets) (w : Which) (a : Nat) : Option Nat := (m a).bind fun so => so.soq w

/-- `soqinsque`: the last link of the queue, which has as many as its length says, is set. -/
def soqinsque (m : Sockets) (head so : Nat) (w : Which) : Option Sockets :=
  let m := m.modify so fun s => { s with soHead := some head }
  let m := m.modify head fun s => s.addLen w 1
  let m := m.modify so fun s => s.setLink w none
  match m head with
  | none => none
  | some h => (lastFrom (m.next w) (h.soqlen w).toNat head).map fun prev => m.modify prev fun s => s.setLink w (some so)

def findPrev (next : Nat → Option Nat) (so : Nat) : Nat → Nat → Option (Option Nat)
  | 0, _ => none
  | fuel + 1, prev =>
    match next prev with
    | none => some none
    | some n => if n = so then some (some prev) else findPrev next so fuel n

def soqremque (m : Sockets) (so : Nat) (w : Which) : Option (Bool × Sockets) :=
  match (m so).bind Socket.soHead with
  | none => none
  | some head =>
    match m head with
    | none => none
    | some h =>
      match findPrev (m.next w) so ((h.soqlen w).toNat + 1) head with
      | none => none
      | some none => some (false, m)
      | some (some prev) =>
        let link := m.next w so
        let m := m.modify prev fun s => s.setLink w link
        let m := m.modify head fun s => s.addLen w (-1)
        some (true, m.modify so fun s => { s with soq := fun _ => none, soHead := none })

def soisconnected (m : Sockets) (so : Nat) : Option Sockets :=
  match m so with
  | none => none
  | some s =>
    let m := m.modify so fun s =>
      { s with ssIsconnecting := false, ssIsdisconnecting := false, ssIsconfirming := false, ssIsconnected := true }
    match s.soHead with
    | none => some m
    | some head =>
      match soqremque m so .q0 with
      | none => none
      | some (false, m) => some m
      | some (true, m) => soqinsque m head so .q

def soisdisconnected (m : Sockets) (so : Nat) : Sockets :=
  m.modify so fun s =>
    { s with
      ssIsconnecting := false, ssIsconnected := false, ssIsdisconnecting := false
      ssCantrcvmore := true, ssCantsendmore := true }

inductive Connstatus where
  | zero
  | isconfirming
  | isconnected
  deriving DecidableEq

def Connstatus.soqueue : Connstatus → Which
  | .zero => .q0
  | _ => .q

/-- `sonewconn1`; `new` is what `MALLOC` returns, and `attach` says whether `PRU_ATTACH` succeeds. -/
def sonewconn1 (m : Sockets) (head : Nat) (connstatus : Connstatus) (new : Option Nat) (attach : Bool) :
    Option (Option Nat × Sockets) :=
  match m head with
  | none => none
  | some h =>
    if h.soqlen .q + h.soqlen .q0 > (3 * h.soQlimit).tdiv 2 then some (none, m)
    else
      match new with
      | none => some (none, m)
      | some so =>
        let s : Socket := { h with
          soHead := none, soq := fun _ => none, soqlen := fun _ => 0, soQlimit := 0, soPcb := false,
          soAcceptconn := false, ssNofdref := true }
        match soqinsque (Function.update m so (some s)) head so connstatus.soqueue with
        | none => none
        | some m =>
          if attach then
            some (some so, m.modify so fun s =>
              { s with
                soPcb := true
                ssIsconfirming := s.ssIsconfirming || connstatus = .isconfirming
                ssIsconnected := s.ssIsconnected || connstatus = .isconnected })
          else (soqremque m so connstatus.soqueue).map fun r => (none, r.2.free so)

def sofree (m : Sockets) (so : Nat) : Option Sockets :=
  match m so with
  | none => none
  | some s =>
    if s.soPcb || !s.ssNofdref then some m
    else if s.soHead.isNone then some (m.free so)
    else
      match soqremque m so .q0 with
      | none => none
      | some (true, m) => some (m.free so)
      | some (false, m) =>
        match soqremque m so .q with
        | some (true, m) => some (m.free so)
        | _ => none

def drop (m : Sockets) (so : Nat) : Option Sockets :=
  sofree ((soisdisconnected m so).modify so fun s => { s with soPcb := false }) so

def soabort (m : Sockets) (so : Nat) : Option Sockets :=
  match m so with
  | none => none
  | some s => if s.soPcb then drop m so else some m

def abortAll (w : Which) (so : Nat) : Nat → Sockets → Option Sockets
  | 0, _ => none
  | fuel + 1, m =>
    match m so with
    | none => none
    | some s =>
      match s.soq w with
      | none => some m
      | some p => (soabort m p).bind fun m => abortAll w so fuel m

/-- `soclose`; `lingers` says whether the protocol keeps the control block of a connection. -/
def soclose (m : Sockets) (so : Nat) (lingers : Bool) : Option Sockets :=
  match m so with
  | none => none
  | some s =>
    let aborted :=
      if s.soAcceptconn then
        (abortAll .q0 so ((s.soqlen .q0).toNat + 1) m).bind fun m => abortAll .q so ((s.soqlen .q).toNat + 1) m
      else some m
    aborted.bind fun m =>
      let m := m.modify so fun s => { s with soPcb := s.soPcb && lingers && !s.soAcceptconn }
      if s.ssNofdref then none
      else sofree (m.modify so fun s => { s with ssNofdref := true }) so

def accept (m : Sockets) (head : Nat) : Option (Nat × Sockets) :=
  match m.next .q head with
  | none => none
  | some aso =>
    match soqremque m aso .q with
    | some (true, m) =>
      match m aso with
      | none => none
      | some s => if s.ssNofdref then some (aso, m.modify aso fun s => { s with ssNofdref := false }) else none
    | _ => none

inductive Call where
  | socreate (so : Nat)
  | solisten (so : Nat) (backlog : Int)
  | sonewconn1 (head : Nat) (connstatus : Connstatus) (new : Option Nat) (attach : Bool)
  | soisconnecting (so : Nat)
  | soisconnected (so : Nat)
  | soisdisconnected (so : Nat)
  | accept (head : Nat)
  | drop (so : Nat)
  | sofree (so : Nat)
  | soclose (so : Nat) (lingers : Bool)

/-- The sockets; how often a socket was made at an address; and for each socket what was put on its `so_q` and what
was accepted from it so far, each connection as its address and the how many-th socket there it is. -/
structure System where
  sockets : Sockets
  made : Nat → Nat
  entered : Nat → List (Nat × Nat)
  accepted : Nat → List (Nat × Nat)

def Sockets.entry (m : Sockets) : Call → Option (Nat × Nat)
  | .soisconnected so =>
    ((m so).bind Socket.soHead).bind fun head =>
      match Uipc.soqremque m so .q0 with
      | some (true, _) => some (head, so)
      | _ => none
  | .sonewconn1 head connstatus new attach =>
    if connstatus = .zero then none
    else ((Uipc.sonewconn1 m head connstatus new attach).bind Prod.fst).map fun so => (head, so)
  | _ => none

def Sockets.step (m : Sockets) : Call → Option Sockets
  | .socreate so => some (Function.update m so (some {}))
  | .solisten so backlog =>
    some (m.modify so fun s =>
      { s with
        soAcceptconn := s.soAcceptconn || (s.soq .q).isNone
        soQlimit := min (if backlog < 0 then 0 else backlog) 5 })
  | .sonewconn1 head connstatus new attach => (Uipc.sonewconn1 m head connstatus new attach).map Prod.snd
  | .soisconnecting so =>
    some (m.modify so fun s =>
      { s with ssIsconnected := false, ssIsdisconnecting := false, ssIsconnecting := true })
  | .soisconnected so => Uipc.soisconnected m so
  | .soisdisconnected so => some (Uipc.soisdisconnected m so)
  | .accept head => (Uipc.accept m head).map Prod.snd
  | .drop so => Uipc.drop m so
  | .sofree so => Uipc.sofree m so
  | .soclose so lingers => Uipc.soclose m so lingers

def Sockets.taken (m : Sockets) : Call → Option (Nat × Nat)
  | .accept head => (m.next .q head).map fun so => (head, so)
  | _ => none

def Sockets.subject (m : Sockets) : Call → Option Nat
  | .socreate so | .soisconnecting so | .soisconnected so | .soisdisconnected so | .drop so | .sofree so => some so
  | .sonewconn1 _ _ new _ => new
  | .accept head => m.next .q head
  | .solisten .. | .soclose .. => none

def Call.closes : Call → Option Nat
  | .soclose so _ => some so
  | _ => none

def Call.creates : Call → Option Nat
  | .socreate so => some so
  | .sonewconn1 _ _ new _ => new
  | _ => none

def logged (made : Nat → Nat) (f : Nat → List (Nat × Nat)) : Option (Nat × Nat) → Nat → List (Nat × Nat)
  | none => f
  | some (head, so) => Function.update f head (f head ++ [(so, made so)])

def System.create (s : System) (so : Nat) : System :=
  { s with
    made := Function.update s.made so (s.made so + 1)
    entered := Function.update s.entered so []
    accepted := Function.update s.accepted so [] }

def System.step (s : System) (call : Call) : Option System :=
  (s.sockets.step call).map fun sockets =>
    let t := call.creates.elim s s.create
    { t with
      sockets
      entered := logged t.made t.entered (s.sockets.entry call)
      accepted := logged t.made t.accepted (s.sockets.taken call) }

/-- A call as it may be made: on sockets that there are; a socket is opened by its user only through a descriptor,
connections are only made on listening sockets, and `accept` waits for one. -/
def Sockets.Allowed (m : Sockets) : Call → Prop
  | .socreate so => m so = none
  | .solisten so _ => ∃ p, m so = some p ∧ p.ssNofdref = false
  | .sonewconn1 head _ new _ =>
    (∃ p, m head = some p ∧ p.soAcceptconn = true) ∧ ∀ so, new = some so → m so = none
  | .accept head => ∃ p, m head = some p ∧ p.soAcceptconn = true ∧ p.soq .q ≠ none
  | .soclose so _ => ∃ p, m so = some p ∧ p.ssNofdref = false
  | .soisconnecting so | .soisconnected so | .soisdisconnected so | .drop so | .sofree so =>
    (m so).isSome

end NetBSD.Uipc
