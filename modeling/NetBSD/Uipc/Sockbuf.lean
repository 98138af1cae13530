import NetBSD.Lib.Links
import NetBSD.Mbuf.Chain

/-!
# Socket buffers

The routines of `uipc_socket2.c` that add mbufs to a socket buffer and drop them, on a memory of mbufs
linked by `m_next` into records and by `m_nextpkt` into the queue of records. A loop over links runs as
often as there are mbufs; one that has not ended by then never does.
-/

namespace NetBSD.Uipc

open NetBSD.Lib

abbrev Addr := Nat

abbrev msize : Nat := 128
abbrev mlen : Nat := 108

inductive MbufType where
  | data
  | soname
  | control
  | oobdata
  | other (code : Nat)
  deriving DecidableEq

/-- An mbuf, with the storage that `m_data` points into: `m_dat`, or the external buffer. -/
structure Mbuf where
  mNext : Option Addr := none
  mNextpkt : Option Addr := none
  mLen : Nat := 0
  /-- The offset of `m_data` in the storage. -/
  mData : Nat := 0
  mType : MbufType := .data
  /-- `M_EOR`. -/
  mEor : Bool := false
  /-- The size of the external buffer, under `M_EXT`. -/
  mExt : Option Nat := none
  /-- The length in the packet header, under `M_PKTHDR`. -/
  mPkthdr : Option Nat := none
  storage : List Byte := []
  deriving DecidableEq

def Mbuf.bytes (m : Mbuf) : List Byte := (m.storage.drop m.mData).take m.mLen

def Mbuf.space (m : Mbuf) : Int := msize + (m.mExt.getD 0 : Nat)

/-- `struct sockbuf`. Its counters are `u_long`s, which the kernel's memory cannot overflow. -/
structure Sockbuf where
  sbCc : Int := 0
  sbHiwat : Int := 0
  sbMbcnt : Int := 0
  sbMbmax : Int := 0
  sbMb : Option Addr := none
  /-- `SB_LOCK`. -/
  sbLock : Bool := false
  deriving DecidableEq

structure Store where
  mbuf : Addr → Mbuf
  size : Nat
  sb : Sockbuf
  /-- The mbufs that were given back. -/
  free : List Addr

inductive Fault where
  | panic
  | endless
  deriving DecidableEq

def Store.setMbuf (st : Store) (m : Addr) (x : Mbuf) : Store :=
  { st with mbuf := Function.update st.mbuf m x }

def Store.sballoc (st : Store) (m : Addr) : Store :=
  { st with
    sb := { st.sb with
      sbCc := st.sb.sbCc + (st.mbuf m).mLen, sbMbcnt := st.sb.sbMbcnt + (st.mbuf m).space } }

def Store.sbfree (st : Store) (m : Addr) : Store :=
  { st with
    sb := { st.sb with
      sbCc := st.sb.sbCc - (st.mbuf m).mLen, sbMbcnt := st.sb.sbMbcnt - (st.mbuf m).space } }

def Store.mfree (st : Store) (m : Addr) : Store × Option Addr :=
  ({ st with free := m :: st.free }, (st.mbuf m).mNext)

def Sockbuf.sbspace (sb : Sockbuf) : Int := min (sb.sbHiwat - sb.sbCc) (sb.sbMbmax - sb.sbMbcnt)

def Store.lastMbuf (st : Store) (m : Addr) : Except Fault Addr :=
  ((lastFrom (fun a => (st.mbuf a).mNext) (st.size + 1) m).map .ok).getD (.error .endless)

def Store.lastRecord (st : Store) (m : Addr) : Except Fault Addr :=
  ((lastFrom (fun a => (st.mbuf a).mNextpkt) (st.size + 1) m).map .ok).getD (.error .endless)

def Store.setNextpkt (st : Store) (mp : Option Addr) (m : Option Addr) : Store :=
  match mp with
  | none => { st with sb := { st.sb with sbMb := m } }
  | some a => st.setMbuf a { st.mbuf a with mNextpkt := m }

def overwrite (s : List Byte) (i : Nat) (data : List Byte) : List Byte :=
  s.take i ++ data ++ s.drop (i + data.length)

def Store.discards (st : Store) (m : Mbuf) (n : Option Addr) (eor : Bool) : Bool :=
  m.mLen == 0 && (!eor || match m.mNext <|> n with
    | some o => (st.mbuf o).mType == m.mType
    | none => false)

def Mbuf.takes (n m : Mbuf) : Bool :=
  n.mExt.isNone && !n.mEor && decide (n.mData + n.mLen + m.mLen < mlen) && n.mType == m.mType

def sbcompressLoop : Nat → Store → Option Addr → Option Addr → Bool →
    Except Fault (Store × Option Addr × Bool)
  | _, st, none, n, eor => .ok (st, n, eor)
  | 0, _, some _, _, _ => .error .endless
  | fuel + 1, st, some m, n, eor =>
    let mb := st.mbuf m
    let eor := eor || mb.mEor
    if st.discards mb n eor then
      let (st, next) := st.mfree m
      sbcompressLoop fuel st next n eor
    else
      match n with
      | none =>
        let st := { st with sb := { st.sb with sbMb := some m } }.sballoc m
        let st := st.setMbuf m { mb with mEor := false, mNext := none }
        sbcompressLoop fuel st mb.mNext (some m) eor
      | some n =>
        let nb := st.mbuf n
        if nb.takes mb then
          let nb := { nb with
            storage := overwrite nb.storage (nb.mData + nb.mLen) mb.bytes
            mLen := nb.mLen + mb.mLen }
          let st := { st with sb := { st.sb with sbCc := st.sb.sbCc + mb.mLen } }.setMbuf n nb
          let (st, next) := st.mfree m
          sbcompressLoop fuel st next (some n) eor
        else
          let st := (st.setMbuf n { nb with mNext := some m }).sballoc m
          let st := st.setMbuf m { mb with mEor := false, mNext := none }
          sbcompressLoop fuel st mb.mNext (some m) eor

def sbcompress (st : Store) (m n : Option Addr) : Except Fault Store := do
  let (st, n, eor) ← sbcompressLoop (st.size + 1) st m n false
  match n with
  | some n => return if eor then st.setMbuf n { st.mbuf n with mEor := true } else st
  | none => return st

/-- The head `m0` of a new record is in the queue: the rest of its chain is compressed behind it. -/
def compressRest (st : Store) (m0 : Addr) : Except Fault Store :=
  let mb := st.mbuf m0
  let st := st.setMbuf m0 { mb with mNext := none }
  match mb.mNext with
  | some m =>
    if mb.mEor then
      let st := st.setMbuf m0 { st.mbuf m0 with mEor := false }
      sbcompress (st.setMbuf m { st.mbuf m with mEor := true }) (some m) (some m0)
    else sbcompress st (some m) (some m0)
  | none => sbcompress st none (some m0)

def sbappendrecord (st : Store) : Option Addr → Except Fault Store
  | none => .ok st
  | some m0 => do
      let m ← st.sb.sbMb.mapM st.lastRecord
      let st := (st.sballoc m0).setNextpkt m (some m0)
      compressRest st m0

def Store.endOfRecord (st : Store) : Nat → Addr → Except Fault (Addr × Bool)
  | 0, _ => .error .endless
  | fuel + 1, n =>
    if (st.mbuf n).mEor then .ok (n, true)
    else match (st.mbuf n).mNext with
      | none => .ok (n, false)
      | some n => st.endOfRecord fuel n

def sbappend (st : Store) : Option Addr → Except Fault Store
  | none => .ok st
  | some m =>
    match st.sb.sbMb with
    | none => sbcompress st (some m) none
    | some n => do
        let n ← st.lastRecord n
        let (n, eor) ← st.endOfRecord (st.size + 1) n
        if eor then sbappendrecord st (some m) else sbcompress st (some m) (some n)

def Store.isOob (st : Store) : Nat → Addr → Except Fault Bool
  | 0, _ => .error .endless
  | fuel + 1, m =>
    match (st.mbuf m).mType with
    | .oobdata => .ok true
    | .control =>
      match (st.mbuf m).mNext with
      | some m => st.isOob fuel m
      | none => .ok false
    | _ => .ok false

/-- The place `mp` of `sbinsertoob` in the queue that goes on with `m`, as the mbuf whose `m_nextpkt`
it is and what that points to. -/
def Store.oobPlace (st : Store) : Nat → Option Addr → Option Addr →
    Except Fault (Option Addr × Option Addr)
  | _, mp, none => .ok (mp, none)
  | 0, _, some _ => .error .endless
  | fuel + 1, mp, some m => do
      if ← st.isOob (st.size + 1) m then st.oobPlace fuel (some m) (st.mbuf m).mNextpkt
      else return (mp, some m)

def sbinsertoob (st : Store) : Option Addr → Except Fault Store
  | none => .ok st
  | some m0 => do
      let (mp, m) ← st.oobPlace (st.size + 1) none st.sb.sbMb
      let st := st.sballoc m0
      let st := st.setMbuf m0 { st.mbuf m0 with mNextpkt := m }
      compressRest (st.setNextpkt mp (some m0)) m0

def sballocChain : Nat → Store → Option Addr → Except Fault Store
  | _, st, none => .ok st
  | 0, _, some _ => .error .endless
  | fuel + 1, st, some m => sballocChain fuel (st.sballoc m) (st.mbuf m).mNext

def Store.chainLen (st : Store) : Nat → Option Addr → Except Fault Nat
  | _, none => .ok 0
  | 0, some _ => .error .endless
  | fuel + 1, some m => do return (st.mbuf m).mLen + (← st.chainLen fuel (st.mbuf m).mNext)

def appendChain (st : Store) (m : Addr) : Except Fault Store := do
  let st ← sballocChain (st.size + 1) st (some m)
  let n ← st.sb.sbMb.mapM st.lastRecord
  return st.setNextpkt n (some m)

def Store.pktLen (st : Store) : Option Addr → Except Fault Nat
  | none => .ok 0
  | some m0 =>
    match (st.mbuf m0).mPkthdr with
    | none => .error .panic
    | some len => .ok len

def Store.join (st : Store) (control m0 : Option Addr) : Except Fault Store :=
  match control with
  | none => .ok st
  | some control => do
      let n ← st.lastMbuf control
      return st.setMbuf n { st.mbuf n with mNext := m0 }

def nameMbuf (asa : List Byte) (next : Option Addr) : Mbuf :=
  { mType := .soname
    mLen := asa.length
    mNext := next
    storage := overwrite (List.replicate mlen 0) 0 asa }

def sbappendaddr (st : Store) (asa : List Byte) (m0 control mget : Option Addr) :
    Except Fault (Store × Bool) := do
  let space := asa.length + (← st.pktLen m0) + (← st.chainLen (st.size + 1) control)
  if st.sb.sbspace < space then return (st, false)
  if mlen < asa.length then return (st, false)
  match mget with
  | none => return (st, false)
  | some m =>
    let st ← st.join control m0
    return (← appendChain (st.setMbuf m (nameMbuf asa (control <|> m0))) m, true)

def sbappendcontrol (st : Store) (m0 control : Option Addr) : Except Fault (Store × Bool) :=
  match control with
  | none => .error .panic
  | some control => do
      let space := (← st.chainLen (st.size + 1) (some control)) + (← st.chainLen (st.size + 1) m0)
      if st.sb.sbspace < space then return (st, false)
      let st ← st.join (some control) m0
      return (← appendChain st control, true)

/-- The first loop of `sbdrop`: it leaves the mbuf it stopped at and the record after it. -/
def sbdropLoop : Nat → Store → Option Addr → Option Addr → Nat →
    Except Fault (Store × Option Addr × Option Addr)
  | _, st, m, next, 0 => .ok (st, m, next)
  | 0, _, _, _, _ => .error .endless
  | fuel + 1, st, none, next, len =>
    match next with
    | none => .error .panic
    | some m => sbdropLoop fuel st (some m) (st.mbuf m).mNextpkt len
  | fuel + 1, st, some m, next, len =>
    let mb := st.mbuf m
    if len < mb.mLen then
      let st := st.setMbuf m { mb with mLen := mb.mLen - len, mData := mb.mData + len }
      .ok ({ st with sb := { st.sb with sbCc := st.sb.sbCc - len } }, some m, next)
    else
      let (st, m) := (st.sbfree m).mfree m
      sbdropLoop fuel st m next (len - mb.mLen)

def freeEmpty : Nat → Store → Option Addr → Except Fault (Store × Option Addr)
  | _, st, none => .ok (st, none)
  | 0, _, some _ => .error .endless
  | fuel + 1, st, some m =>
    if (st.mbuf m).mLen = 0 then
      let (st, m) := (st.sbfree m).mfree m
      freeEmpty fuel st m
    else .ok (st, some m)

def sbdrop (st : Store) (len : Nat) : Except Fault Store := do
  let m := st.sb.sbMb
  let next := m.bind fun m => (st.mbuf m).mNextpkt
  let (st, m, next) ← sbdropLoop (2 * st.size + 1) st m next len
  let (st, m) ← freeEmpty (st.size + 1) st m
  match m with
  | some m =>
    let st := { st with sb := { st.sb with sbMb := some m } }
    return st.setMbuf m { st.mbuf m with mNextpkt := next }
  | none => return { st with sb := { st.sb with sbMb := next } }

def freeRecord : Nat → Store → Option Addr → Except Fault Store
  | _, st, none => .ok st
  | 0, _, some _ => .error .endless
  | fuel + 1, st, some m =>
    let (st, m) := (st.sbfree m).mfree m
    freeRecord fuel st m

def sbdroprecord (st : Store) : Except Fault Store :=
  match st.sb.sbMb with
  | none => .ok st
  | some m =>
    freeRecord (st.size + 1) { st with sb := { st.sb with sbMb := (st.mbuf m).mNextpkt } } (some m)

def sbflushLoop : Nat → Store → Except Fault Store
  | 0, _ => .error .endless
  | fuel + 1, st =>
    if st.sb.sbMbcnt = 0 then .ok st
    else do sbflushLoop fuel (← sbdrop st st.sb.sbCc.toNat)

def sbflush (st : Store) : Except Fault Store :=
  if st.sb.sbLock then .error .panic
  else do
    let st ← sbflushLoop (st.size + 1) st
    if st.sb.sbCc ≠ 0 ∨ st.sb.sbMb.isSome then throw .panic
    return st

end NetBSD.Uipc
