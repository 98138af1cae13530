import NetBSD.Sysv.Sem
import NetBSD.Lib.Links

/-!
# System V messages

`sysv_msg.c`: the queues with the headers and segments of their messages. A process is in a call of `msgsnd`
or `msgrcv` while it sleeps in `tsleep` or copies to or from user memory, where it may sleep too; in between
other processes make calls. `none` stands for a panic, or for a pointer that leads nowhere.
-/

namespace NetBSD.Sysv

open Function (update)

structure Msginfo where
  msgmni : Nat
  msgmnb : Nat
  msgtql : Nat
  msgssz : Nat
  msgseg : Nat
  msgssz_eq : ∃ k, 3 ≤ k ∧ k ≤ 10 ∧ msgssz = 2 ^ k
  msgseg_pos : 0 < msgseg
  msgseg_le : msgseg ≤ 32767
  msgtql_pos : 0 < msgtql
  msgmnb_lt : msgmnb < 2 ^ 31

structure Msg where
  msgNext : Option Nat := none
  msgType : Int := 0
  msgTs : Nat := 0
  msgSpot : Option Nat := none
  deriving DecidableEq

structure MsqidDs where
  key : Int := 0
  seq : Nat := 0
  /-- `MSG_LOCKED` in `msg_perm.mode`. -/
  locked : Bool := false
  msgFirst : Option Nat := none
  msgLast : Option Nat := none
  msgCbytes : Int := 0
  msgQnum : Int := 0
  msgQbytes : Nat := 0
  deriving DecidableEq

structure SndArgs where
  msgsz : Word32
  nowait : Bool := false
  deriving DecidableEq

structure RcvArgs where
  seq : Nat
  msgsz : Nat
  msgtyp : Int := 0
  nowait : Bool := false
  noerror : Bool := false
  deriving DecidableEq

/-- Where a process is in a call on the queue at `ix`: in `tsleep`, or in the copy of the type or of a
segment of the message `msghdr`. -/
inductive Task where
  | sndWaits (ix : Nat) (args : SndArgs) (weOwnIt : Bool)
  | sndType (ix : Nat) (args : SndArgs) (msghdr : Nat)
  | sndBody (ix : Nat) (msgsz : Nat) (next : Nat) (msghdr : Nat)
  | rcvWaits (ix : Nat) (args : RcvArgs)
  | rcvType (ix : Nat) (msgsz : Nat) (msghdr : Nat)
  | rcvBody (ix : Nat) (msgsz : Nat) (len : Nat) (next : Nat) (msghdr : Nat)
  deriving DecidableEq

structure Messages where
  msgmaps : Nat → Option Nat := fun _ => none
  freeMsgmaps : Option Nat := none
  nfreeMsgmaps : Int := 0
  msghdrs : Nat → Msg := fun _ => {}
  freeMsghdrs : Option Nat := none
  msqids : Nat → MsqidDs := fun _ => {}
  tasks : List Task := []

inductive Reply where
  | done
  | error (e : Errno)
  | waits
  deriving DecidableEq

def Messages.setHdr (m : Messages) (h : Nat) (msg : Msg) : Messages :=
  { m with msghdrs := update m.msghdrs h msg }

def Messages.setQueue (m : Messages) (ix : Nat) (q : MsqidDs) : Messages :=
  { m with msqids := update m.msqids ix q }

def Messages.lock (m : Messages) (ix : Nat) (locked : Bool) : Messages :=
  m.setQueue ix { m.msqids ix with locked }

def Messages.sleep (m : Messages) (t : Task) : Messages := { m with tasks := m.tasks ++ [t] }

def chainAll (n : Nat) (next : Nat → Option Nat) : Nat → Option Nat :=
  (List.range n).foldl (fun next i => update (if i > 0 then update next (i - 1) (some i) else next) i none) next

def msginit (c : Msginfo) : Messages where
  msgmaps := chainAll c.msgseg fun _ => none
  freeMsgmaps := some 0
  nfreeMsgmaps := c.msgseg
  msghdrs h := { msgNext := chainAll c.msgtql (fun _ => none) h }
  freeMsghdrs := some 0

def freeSegments (c : Msginfo) : Nat → Nat → Option Nat → Messages → Option (Option Nat × Messages)
  | 0, ts, spot, m => if ts > 0 then none else some (spot, m)
  | fuel + 1, ts, spot, m =>
    if ts > 0 then
      match spot with
      | none => none
      | some k =>
        if k ≥ c.msgseg then none
        else
          freeSegments c fuel (if ts ≥ c.msgssz then ts - c.msgssz else 0) (m.msgmaps k) { m with
            msgmaps := update m.msgmaps k m.freeMsgmaps
            freeMsgmaps := some k
            nfreeMsgmaps := m.nfreeMsgmaps + 1 }
    else some (spot, m)

def msgFreehdr (c : Msginfo) (h : Nat) (m : Messages) : Option Messages :=
  match freeSegments c (m.msghdrs h).msgTs (m.msghdrs h).msgTs (m.msghdrs h).msgSpot m with
  | some (none, m) =>
    some { m.setHdr h { m.msghdrs h with msgTs := 0, msgSpot := none, msgNext := m.freeMsghdrs } with
      freeMsghdrs := some h }
  | _ => none

def freeQueue (c : Msginfo) (ix : Nat) : Nat → Option Nat → Messages → Option Messages
  | _, none, m => some m
  | 0, some _, _ => none
  | fuel + 1, some h, m => do
      let q := m.msqids ix
      let next := (m.msghdrs h).msgNext
      let m ← msgFreehdr c h (m.setQueue ix { q with
        msgCbytes := q.msgCbytes - (m.msghdrs h).msgTs
        msgQnum := q.msgQnum - 1 })
      freeQueue c ix fuel next m

def msgctlRmid (c : Msginfo) (msqid : Word32) (ipcperm : Option Errno) (m : Messages) :
    Option (Reply × Messages) :=
  let ix := ipcidToIx msqid
  let q := m.msqids ix
  if ix ≥ c.msgmni ∨ q.msgQbytes = 0 ∨ q.seq ≠ ipcidToSeq msqid then some (.error .einval, m)
  else
    match ipcperm with
    | some e => some (.error e, m)
    | none => do
        let m ← freeQueue c ix c.msgtql q.msgFirst m
        let q := m.msqids ix
        if q.msgCbytes ≠ 0 ∨ q.msgQnum ≠ 0 then none
        else return (.done, m.setQueue ix { q with msgQbytes := 0 })

def msgget (c : Msginfo) (key : Int) (creat excl : Bool) (ipcperm : Option Errno) (m : Messages) :
    Reply × Messages :=
  let found := (List.range c.msgmni).find? fun ix =>
    key ≠ 0 ∧ (m.msqids ix).msgQbytes ≠ 0 ∧ (m.msqids ix).key = key
  if found.isSome then
    if creat ∧ excl then (.error .eexist, m)
    else if let some e := ipcperm then (.error e, m)
    else (.done, m)
  else if key = 0 ∨ creat then
    match (List.range c.msgmni).find? fun ix =>
      (m.msqids ix).msgQbytes = 0 ∧ (m.msqids ix).locked = false with
    | none => (.error .enospc, m)
    | some ix =>
      (.done, m.setQueue ix
        { key, seq := ((m.msqids ix).seq + 1) % 2 ^ 16, msgQbytes := c.msgmnb })
  else (.error .enoent, m)

def allocSegments (c : Msginfo) (h : Nat) : Nat → Messages → Option Messages
  | 0, m => some m
  | n + 1, m =>
    match m.freeMsgmaps with
    | none => none
    | some next =>
      if m.nfreeMsgmaps ≤ 0 ∨ next ≥ c.msgseg then none
      else
        allocSegments c h n { m.setHdr h { m.msghdrs h with msgSpot := some next } with
          msgmaps := update m.msgmaps next (m.msghdrs h).msgSpot
          freeMsgmaps := m.msgmaps next
          nfreeMsgmaps := m.nfreeMsgmaps - 1 }

def segsNeeded (c : Msginfo) (msgsz : Word32) : Nat := (msgsz.toNat + c.msgssz - 1) % 2 ^ 32 / c.msgssz

def sndTry (c : Msginfo) (ix : Nat) (args : SndArgs) (m : Messages) : Option (Reply × Messages) :=
  let q := m.msqids ix
  if args.msgsz.toNat > q.msgQbytes then some (.error .einval, m)
  else if q.locked ∨ args.msgsz.toNat + q.msgCbytes > q.msgQbytes ∨
      segsNeeded c args.msgsz > m.nfreeMsgmaps ∨ m.freeMsghdrs = none then
    if args.nowait then some (.error .eagain, m)
    else if q.locked then some (.waits, m.sleep (.sndWaits ix args false))
    else some (.waits, (m.lock ix true).sleep (.sndWaits ix args true))
  else
    match m.freeMsghdrs with
    | none => none
    | some h => do
        let m := m.lock ix true
        let m ← allocSegments c h (segsNeeded c args.msgsz) { m.setHdr h { m.msghdrs h with
            msgSpot := none
            msgTs := args.msgsz.toNat % 2 ^ 16 } with
          freeMsghdrs := (m.msghdrs h).msgNext }
        return (.waits, m.sleep (.sndType ix args h))

def sndFails (c : Msginfo) (ix h : Nat) (e : Errno) (m : Messages) : Option (Reply × Messages) :=
  (msgFreehdr c h m).map fun m => (.error e, m.lock ix false)

def enqueue (ix h : Nat) (m : Messages) : Option Messages :=
  let q := m.msqids ix
  let counted := { q with
    msgLast := some h
    msgCbytes := q.msgCbytes + (m.msghdrs h).msgTs
    msgQnum := q.msgQnum + 1 }
  match q.msgFirst with
  | none =>
    some ((m.setHdr h { m.msghdrs h with msgNext := none }).setQueue ix { counted with msgFirst := some h })
  | some _ =>
    match q.msgLast with
    | none => none
    | some last =>
      let m := m.setHdr last { m.msghdrs last with msgNext := some h }
      some ((m.setHdr h { m.msghdrs h with msgNext := none }).setQueue ix counted)

def sndDone (c : Msginfo) (ix h : Nat) (m : Messages) : Option (Reply × Messages) :=
  let m := m.lock ix false
  if (m.msqids ix).msgQbytes = 0 then (msgFreehdr c h m).map fun m => (.error .einval, m)
  else (enqueue ix h m).map fun m => (.done, m)

def sndNext (c : Msginfo) (ix msgsz : Nat) (next : Option Nat) (h : Nat) (m : Messages) :
    Option (Reply × Messages) :=
  if msgsz > 0 then
    match next with
    | none => none
    | some k => if k ≥ c.msgseg then none else some (.waits, m.sleep (.sndBody ix msgsz k h))
  else
    match next with
    | none => sndDone c ix h m
    | some _ => none

def msgsnd (c : Msginfo) (msqid : Word32) (args : SndArgs) (ipcperm : Option Errno) (m : Messages) :
    Option (Reply × Messages) :=
  let ix := ipcidToIx msqid
  let q := m.msqids ix
  if ix ≥ c.msgmni ∨ q.msgQbytes = 0 ∨ q.seq ≠ ipcidToSeq msqid then some (.error .einval, m)
  else
    match ipcperm with
    | some e => some (.error e, m)
    | none => sndTry c ix args m

def RcvArgs.takes (args : RcvArgs) (msg : Msg) : Bool :=
  args.msgtyp = msg.msgType ∨ msg.msgType ≤ -args.msgtyp

/-- The loop of `msgrcv` that looks for a type: the message before the one it finds, and that one. -/
def findType (args : RcvArgs) (m : Messages) : Nat → Option Nat → Option Nat → Option (Option Nat × Option Nat)
  | _, previous, none => some (previous, none)
  | 0, _, some _ => none
  | fuel + 1, previous, some h =>
    if args.takes (m.msghdrs h) then some (previous, some h)
    else findType args m fuel (some h) (m.msghdrs h).msgNext

def unlinkFirst (ix h : Nat) (m : Messages) : Option Messages :=
  let q := m.msqids ix
  if q.msgFirst = q.msgLast then some (m.setQueue ix { q with msgFirst := none, msgLast := none })
  else
    match (m.msghdrs h).msgNext with
    | none => none
    | some next => some (m.setQueue ix { q with msgFirst := some next })

def unlinkType (ix : Nat) (previous : Option Nat) (h : Nat) (m : Messages) : Messages :=
  let next := (m.msghdrs h).msgNext
  match previous with
  | none =>
    let q := { m.msqids ix with msgFirst := next }
    if some h = q.msgLast then m.setQueue ix { q with msgFirst := none, msgLast := none }
    else m.setQueue ix q
  | some p =>
    let m := m.setHdr p { m.msghdrs p with msgNext := next }
    let q := m.msqids ix
    if some h = q.msgLast then m.setQueue ix { q with msgLast := some p } else m

def rcvTakes (ix : Nat) (args : RcvArgs) (h : Nat) (m : Messages) : Reply × Messages :=
  let q := m.msqids ix
  let m := m.setQueue ix { q with
    msgCbytes := q.msgCbytes - (m.msghdrs h).msgTs
    msgQnum := q.msgQnum - 1 }
  (.waits, m.sleep (.rcvType ix (min args.msgsz (m.msghdrs h).msgTs) h))

def rcvFindsNone (ix : Nat) (args : RcvArgs) (m : Messages) : Reply × Messages :=
  if args.nowait then (.error .eagain, m) else (.waits, m.sleep (.rcvWaits ix args))

def rcvTry (c : Msginfo) (ix : Nat) (args : RcvArgs) (m : Messages) : Option (Reply × Messages) :=
  let q := m.msqids ix
  if args.msgtyp = 0 then
    match q.msgFirst with
    | none => some (rcvFindsNone ix args m)
    | some h =>
      if args.msgsz < (m.msghdrs h).msgTs ∧ args.noerror = false then some (.error .e2big, m)
      else (unlinkFirst ix h m).map (rcvTakes ix args h)
  else
    match findType args m c.msgtql none q.msgFirst with
    | none => none
    | some (_, none) => some (rcvFindsNone ix args m)
    | some (previous, some h) =>
      if args.msgsz < (m.msghdrs h).msgTs ∧ args.noerror = false then some (.error .e2big, m)
      else some (rcvTakes ix args h (unlinkType ix previous h m))

def msgrcv (c : Msginfo) (msqid : Word32) (args : RcvArgs) (ipcperm : Option Errno) (m : Messages) :
    Option (Reply × Messages) :=
  let ix := ipcidToIx msqid
  let q := m.msqids ix
  if ix ≥ c.msgmni ∨ q.msgQbytes = 0 ∨ q.seq ≠ ipcidToSeq msqid then some (.error .einval, m)
  else
    match ipcperm with
    | some e => some (.error e, m)
    | none => rcvTry c ix { args with seq := ipcidToSeq msqid } m

def rcvNext (c : Msginfo) (ix msgsz len : Nat) (next : Option Nat) (h : Nat) (m : Messages) :
    Option (Reply × Messages) :=
  if len < msgsz then
    match next with
    | none => none
    | some k => if k ≥ c.msgseg then none else some (.waits, m.sleep (.rcvBody ix msgsz len k h))
  else (msgFreehdr c h m).map fun m => (.done, m)

/-- A task goes on: `failed` says whether its sleep was interrupted or its copy faulted, and `msgType` is
the type that `copyin` may have read. -/
def Task.resume (c : Msginfo) (failed : Bool) (msgType : Int) (m : Messages) :
    Task → Option (Reply × Messages)
  | .sndWaits ix args weOwnIt =>
    let m := if weOwnIt then m.lock ix false else m
    if failed then some (.error .eintr, m)
    else if (m.msqids ix).msgQbytes = 0 then some (.error .einval, m)
    else sndTry c ix args m
  | .sndType ix args h =>
    if failed then sndFails c ix h .efault m
    else
      let m := m.setHdr h { m.msghdrs h with msgType }
      if msgType < 1 then sndFails c ix h .einval m
      else sndNext c ix args.msgsz.toNat (m.msghdrs h).msgSpot h m
  | .sndBody ix msgsz next h =>
    if failed then sndFails c ix h .efault m
    else sndNext c ix (msgsz - min msgsz c.msgssz) (m.msgmaps next) h m
  | .rcvWaits ix args =>
    if failed then some (.error .eintr, m)
    else if (m.msqids ix).msgQbytes = 0 ∨ (m.msqids ix).seq ≠ args.seq then some (.error .einval, m)
    else rcvTry c ix args m
  | .rcvType ix msgsz h =>
    if failed then (msgFreehdr c h m).map fun m => (.error .efault, m)
    else rcvNext c ix msgsz 0 (m.msghdrs h).msgSpot h m
  | .rcvBody ix msgsz len next h =>
    if failed then (msgFreehdr c h m).map fun m => (.error .efault, m)
    else rcvNext c ix msgsz (len + c.msgssz) (m.msgmaps next) h m

inductive MsgCall where
  | msgget (key : Int) (creat excl : Bool) (ipcperm : Option Errno)
  | rmid (msqid : Word32) (ipcperm : Option Errno)
  | msgsnd (msqid : Word32) (args : SndArgs) (ipcperm : Option Errno)
  | msgrcv (msqid : Word32) (args : RcvArgs) (ipcperm : Option Errno)
  | resume (i : Nat) (failed : Bool) (msgType : Int)

def Messages.step (c : Msginfo) (m : Messages) : MsgCall → Option (Reply × Messages)
  | .msgget key creat excl ipcperm => some (msgget c key creat excl ipcperm m)
  | .rmid msqid ipcperm => msgctlRmid c msqid ipcperm m
  | .msgsnd msqid args ipcperm => msgsnd c msqid args ipcperm m
  | .msgrcv msqid args ipcperm => msgrcv c msqid args ipcperm m
  | .resume i failed msgType =>
    match m.tasks[i]? with
    | none => some (.done, m)
    | some t => t.resume c failed msgType { m with tasks := m.tasks.eraseIdx i }

end NetBSD.Sysv
