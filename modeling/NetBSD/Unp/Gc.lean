import NetBSD.Fd.Descrip
import Mathlib.Data.List.Nodup

/-!
# Files in flight

`unp_gc` of `uipc_usrreq.c`, with as much of `closef`, `soclose` and `sorflush` as rights go through; nothing else runs
while `unp_gc` sleeps in `malloc`. There is no result where `sorflush` is called on what is not a socket, where `closef`
panics, or where a loop does not end.
-/

namespace NetBSD.Unp

open Function (update)
open Fd (short)

inductive Mbuf where
  | data
  | rights (fps : List Nat)
  deriving DecidableEq

/-- `rightsProto` says that the protocol is one of the unix domain with `PR_RIGHTS`; `rcv` are the records of the receive
buffer, and `q` the sockets that wait to be accepted, those of `so_q0` first. -/
structure Socket where
  rightsProto : Bool
  rcv : List (List Mbuf)
  q : List Nat
  deriving DecidableEq

structure File where
  fCount : Int
  fMsgcount : Int
  mark : Bool
  defer : Bool
  socket : Option Nat
  deriving DecidableEq

structure Sys where
  /-- `filehead`. -/
  files : List Nat
  file : Nat → File
  socket : Nat → Socket
  unpDefer : Int
  unpGcing : Bool

def scanRecord : List Mbuf → List Nat
  | [] => []
  | .data :: m => scanRecord m
  | .rights fps :: _ => fps

def unpScan (m0 : List (List Mbuf)) : List Nat := m0.flatMap scanRecord

namespace Sys

variable (s : Sys)

def setFile (fp : Nat) (f : File → File) : Sys := { s with file := update s.file fp (f (s.file fp)) }

def unpMark (fp : Nat) : Sys :=
  if (s.file fp).mark then s
  else { s.setFile fp fun f => { f with mark := true, defer := true } with unpDefer := s.unpDefer + 1 }

def gcScan (fp : Nat) : Sys :=
  match (s.file fp).socket with
  | none => s
  | some so =>
    if (s.socket so).rightsProto then (unpScan (s.socket so).rcv).foldl unpMark s else s

def gcVisit (fp : Nat) : Sys :=
  let f := s.file fp
  if f.fCount = 0 then s
  else if f.defer then
    { s.setFile fp fun f => { f with defer := false } with unpDefer := s.unpDefer - 1 }.gcScan fp
  else if f.mark then s
  else if f.fCount = f.fMsgcount then s
  else (s.setFile fp fun f => { f with mark := true }).gcScan fp

def gcMark : Nat → Sys → Option Sys
  | 0, _ => none
  | fuel + 1, s =>
    let s := s.files.foldl gcVisit s
    if s.unpDefer = 0 then some s else gcMark fuel s

def gcClear : Sys := s.files.foldl (fun s fp => s.setFile fp fun f => { f with mark := false, defer := false }) s

def held (so : Nat) : List Nat :=
  if (s.socket so).rightsProto then unpScan (s.socket so).rcv else []

def unpDiscard (close : Nat → Sys → Option Sys) (fp : Nat) : Option Sys :=
  close fp (s.setFile fp fun f => { f with fMsgcount := short (f.fMsgcount - 1) })

def sorflush (close : Nat → Sys → Option Sys) (so : Nat) : Option Sys :=
  (s.held so).foldlM (fun s fp => unpDiscard s close fp)
    { s with socket := update s.socket so { s.socket so with rcv := [] } }

/-- `soclose`: `soabort` for the sockets that wait to be accepted, and `unp_detach`, whose call of `unp_gc` returns at
once. -/
def soclose (close : Nat → Sys → Option Sys) (so : Nat) : Option Sys :=
  ((s.socket so).q ++ [so]).foldlM (fun s so => sorflush s close so) s

def ffree (fp : Nat) : Sys := { s with files := s.files.erase fp }

def closef : Nat → Nat → Sys → Option Sys
  | 0, _, _ => none
  | fuel + 1, fp, s =>
    let s := s.setFile fp fun f => { f with fCount := short (f.fCount - 1) }
    if (s.file fp).fCount > 0 then some s
    else if (s.file fp).fCount < 0 then none
    else
      match (s.file fp).socket with
      | none => some (s.ffree fp)
      | some so => (s.soclose (closef fuel) so).map fun s => s.ffree fp

def socketsOf (fp : Nat) : List Nat :=
  match (s.file fp).socket with
  | none => []
  | some so => (s.socket so).q ++ [so]

def sockets : List Nat := s.files.flatMap s.socketsOf

def flying : List Nat := s.sockets.flatMap s.held

def close (fp : Nat) (s : Sys) : Option Sys := closef (s.flying.length + 1) fp s

def isExtra (fp : Nat) : Bool :=
  (s.file fp).fCount ≠ 0 ∧ (s.file fp).fCount = (s.file fp).fMsgcount ∧ (s.file fp).mark = false

def takeRef (fp : Nat) : Sys := s.setFile fp fun f => { f with fCount := short (f.fCount + 1) }

def flushFile (fp : Nat) (s : Sys) : Option Sys := (s.file fp).socket.bind fun so => sorflush s close so

def unpGc : Option Sys :=
  if s.unpGcing then some s
  else
    (gcMark (s.files.length + 1) { s with unpGcing := true, unpDefer := 0 }.gcClear).bind fun s =>
      let extraRef := s.files.filter s.isExtra
      (extraRef.foldlM (fun s fp => flushFile fp s) (extraRef.foldl takeRef s)).bind fun s =>
        (extraRef.foldlM (fun s fp => close fp s) s).map fun s => { s with unpGcing := false }

end Sys

end NetBSD.Unp

/-!
## Rights in buffers

Which files are in the receive buffers of a file and of the sockets that wait on it, and what is reached through them.
-/

namespace NetBSD.Unp

inductive Reach (rights : Nat → List Nat) (desc : Nat → Nat) : Nat → Prop where
  | desc {fp : Nat} (hdesc : 0 < desc fp) : Reach rights desc fp
  | right {fp g : Nat} (hfp : Reach rights desc fp) (hg : g ∈ rights fp) : Reach rights desc g

theorem Reach.mono {rights rights' : Nat → List Nat} {desc : Nat → Nat} {fp : Nat}
    (hrights : ∀ g, ∀ h ∈ rights g, h ∈ rights' g) (hfp : Reach rights desc fp) : Reach rights' desc fp := by
  induction hfp with
  | desc hdesc => exact .desc hdesc
  | right _ hg ih => exact .right ih (hrights _ _ hg)

namespace Sys

variable {s s' : Sys} {fp g so : Nat}

def own (s : Sys) (fp : Nat) : List Nat := ((s.file fp).socket.map s.held).getD []

def queued (s : Sys) (fp : Nat) : List Nat :=
  ((s.file fp).socket.map fun so => (s.socket so).q.flatMap s.held).getD []

def rights (s : Sys) (fp : Nat) : List Nat := s.own fp ++ s.queued fp

def inflight (s : Sys) (fp : Nat) : Nat := s.flying.count fp

theorem mem_rights : g ∈ s.rights fp ↔ ∃ so ∈ s.socketsOf fp, g ∈ s.held so := by
  rw [rights, List.mem_append, own, queued, socketsOf]
  cases (s.file fp).socket with
  | none => simp
  | some so =>
    simp only [Option.map_some, Option.getD_some, List.mem_flatMap, List.mem_append, List.mem_singleton, or_and_right,
      exists_or, exists_eq_left]
    exact or_comm

theorem mem_flying : g ∈ s.flying ↔ ∃ fp ∈ s.files, g ∈ s.rights fp := by
  simp only [flying, sockets, List.mem_flatMap, mem_rights]
  exact ⟨fun ⟨so, ⟨fp, hfp, hso⟩, hg⟩ => ⟨fp, hfp, so, hso, hg⟩, fun ⟨fp, hfp, so, hso, hg⟩ => ⟨so, ⟨fp, hfp, hso⟩, hg⟩⟩

structure Same (s s' : Sys) : Prop where
  files : s'.files = s.files
  socket : s'.socket = s.socket
  link : ∀ fp, (s'.file fp).socket = (s.file fp).socket

theorem Same.refl (s : Sys) : Same s s := ⟨rfl, rfl, fun _ => rfl⟩

theorem Same.trans {s'' : Sys} (h : Same s s') (h' : Same s' s'') : Same s s'' :=
  ⟨h'.files.trans h.files, h'.socket.trans h.socket, fun fp => (h'.link fp).trans (h.link fp)⟩

theorem Same.held (h : Same s s') : s'.held = s.held := by
  ext so : 1
  rw [Sys.held, Sys.held, h.socket]

theorem Same.socketsOf (h : Same s s') : s'.socketsOf = s.socketsOf := by
  ext fp : 1
  rw [Sys.socketsOf, Sys.socketsOf, h.link, h.socket]

theorem Same.sockets (h : Same s s') : s'.sockets = s.sockets := by
  rw [Sys.sockets, Sys.sockets, h.files, h.socketsOf]

theorem Same.flying (h : Same s s') : s'.flying = s.flying := by
  rw [Sys.flying, Sys.flying, h.sockets, h.held]

theorem Same.inflight (h : Same s s') : s'.inflight = s.inflight := by
  ext fp
  rw [Sys.inflight, Sys.inflight, h.flying]

theorem Same.own (h : Same s s') : s'.own = s.own := by
  ext fp : 1
  rw [Sys.own, Sys.own, h.link, h.held]

theorem file_setFile_self (s : Sys) (fp : Nat) (f : File → File) : (s.setFile fp f).file fp = f (s.file fp) :=
  Function.update_self ..

theorem file_setFile_of_ne (hne : g ≠ fp) (f : File → File) : (s.setFile fp f).file g = s.file g :=
  Function.update_of_ne hne ..

theorem same_setFile (s : Sys) (fp : Nat) {f : File → File} (hf : ∀ x, (f x).socket = x.socket) :
    Same s (s.setFile fp f) := by
  refine ⟨rfl, rfl, fun g => ?_⟩
  rcases eq_or_ne g fp with rfl | hne
  · rw [file_setFile_self, hf]
  · rw [file_setFile_of_ne hne]

def flush (s : Sys) (so : Nat) : Sys :=
  { s with socket := Function.update s.socket so { s.socket so with rcv := [] } }

theorem socket_flush_self (s : Sys) (so : Nat) : (s.flush so).socket so = { s.socket so with rcv := [] } :=
  Function.update_self ..

theorem socket_flush_of_ne {so' : Nat} (hne : so' ≠ so) : (s.flush so).socket so' = s.socket so' :=
  Function.update_of_ne hne ..

theorem held_flush_self (s : Sys) (so : Nat) : (s.flush so).held so = [] := by
  rw [held, socket_flush_self]
  exact ite_self _

theorem held_congr (h : s'.socket so = s.socket so) : s'.held so = s.held so := by
  rw [held, held, h]

theorem q_flush (s : Sys) (so so' : Nat) : ((s.flush so).socket so').q = (s.socket so').q := by
  rcases eq_or_ne so' so with rfl | hne
  · rw [socket_flush_self]
  · rw [socket_flush_of_ne hne]

theorem socketsOf_flush (s : Sys) (so : Nat) : (s.flush so).socketsOf = s.socketsOf := by
  ext fp : 1
  simp only [socketsOf, q_flush]
  rfl

theorem sockets_flush (s : Sys) (so : Nat) : (s.flush so).sockets = s.sockets := by
  rw [sockets, sockets, socketsOf_flush]
  rfl

theorem perm_flush (hnodup : s.sockets.Nodup) (hso : so ∈ s.sockets) :
    s.flying.Perm (s.held so ++ (s.flush so).flying) := by
  have hsame : (s.sockets.erase so).flatMap (s.flush so).held = (s.sockets.erase so).flatMap s.held := by
    refine List.flatMap_congr fun so' hso' => held_congr (socket_flush_of_ne ?_)
    rintro rfl
    exact hnodup.not_mem_erase hso'
  have hsplit := List.perm_cons_erase hso
  have hbefore := hsplit.flatMap_right s.held
  have hafter := hsplit.flatMap_right (s.flush so).held
  rw [List.flatMap_cons] at hbefore hafter
  rw [held_flush_self, List.nil_append, hsame] at hafter
  rw [flying, flying, sockets_flush]
  exact hbefore.trans (hafter.symm.append_left _)

theorem perm_ffree (hfp : fp ∈ s.files) :
    s.flying.Perm ((s.socketsOf fp).flatMap s.held ++ (s.ffree fp).flying) := by
  have hsplit := ((List.perm_cons_erase hfp).flatMap_right s.socketsOf).flatMap_right s.held
  rw [List.flatMap_cons, List.flatMap_append] at hsplit
  exact hsplit

/-- `f_count` counts the descriptors, `desc`, and the messages that hold a file, and `f_msgcount` only the messages. A file
that is being closed has no messages left. -/
structure Valid (desc : Nat → Nat) (s : Sys) : Prop where
  files : s.files.Nodup
  sockets : s.sockets.Nodup
  count : ∀ fp ∈ s.files, (s.file fp).fCount = (desc fp + s.inflight fp : Nat)
  msgcount : ∀ fp ∈ s.files, (s.file fp).fMsgcount = (s.inflight fp : Nat)
  small : ∀ fp ∈ s.files, desc fp + s.inflight fp < 32768
  known : ∀ fp, 0 < desc fp + s.inflight fp → fp ∈ s.files
  closing : ∀ fp ∈ s.files, (s.file fp).fCount = 0 → s.rights fp = []
  idle : s.unpGcing = false

variable {desc : Nat → Nat}

theorem Valid.count_pos (hs : Valid desc s) (hpos : 0 < desc fp + s.inflight fp) : (s.file fp).fCount ≠ 0 := by
  rw [hs.count fp (hs.known fp hpos)]
  exact Int.natCast_ne_zero.2 hpos.ne'

theorem inflight_pos (hfp : fp ∈ s.files) (hg : g ∈ s.rights fp) : 0 < s.inflight g :=
  List.count_pos_iff.2 (mem_flying.2 ⟨fp, hfp, hg⟩)

theorem Valid.reach_pos (hs : Valid desc s) (hreach : Reach s.rights desc fp) :
    0 < desc fp + s.inflight fp := by
  induction hreach with
  | desc hdesc => omega
  | right _ hg ih => exact Nat.add_pos_right _ (inflight_pos (hs.known _ ih) hg)

theorem reach_of_own (hreach : Reach s.own desc fp) : Reach s.rights desc fp :=
  hreach.mono fun _ _ hg => List.mem_append_left _ hg

end Sys

end NetBSD.Unp
