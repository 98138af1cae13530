import NetBSD.Unp.Close
import NetBSD.Fd.Avail

/-!
# Sending and receiving rights

`PRU_SEND`, `unp_internalize`, `unp_externalize` and the disposal of a receive buffer, with `unp_rights`. The collection that
`unp_detach` may begin is not part of this.
-/

namespace NetBSD.Unp

open Fd (short)

structure Rights where
  sys : Sys
  unpRights : Int

namespace Rights

def unpDiscard (close : Nat → Rights → Option Rights) (fp : Nat) (w : Rights) : Option Rights :=
  close fp ⟨w.sys.setFile fp fun f => { f with fMsgcount := short (f.fMsgcount - 1) }, w.unpRights - 1⟩

def sorflush (close : Nat → Rights → Option Rights) (so : Nat) (w : Rights) : Option Rights :=
  (w.sys.held so).foldlM (fun w fp => unpDiscard close fp w) { w with sys := w.sys.flush so }

def soclose (close : Nat → Rights → Option Rights) (so : Nat) (w : Rights) : Option Rights :=
  ((w.sys.socket so).q ++ [so]).foldlM (fun w so => sorflush close so w) w

def closef : Nat → Nat → Rights → Option Rights
  | 0, _, _ => none
  | fuel + 1, fp, w =>
    let s := w.sys.setFile fp fun f => { f with fCount := short (f.fCount - 1) }
    if (s.file fp).fCount > 0 then some { w with sys := s }
    else if (s.file fp).fCount < 0 then none
    else
      match (s.file fp).socket with
      | none => some { w with sys := s.ffree fp }
      | some so => (soclose (closef fuel) so { w with sys := s }).map fun w => { w with sys := w.sys.ffree fp }

def close (fp : Nat) (w : Rights) : Option Rights := closef (w.sys.flying.length + 1) fp w

def hold (w : Rights) (fp : Nat) : Rights :=
  ⟨w.sys.setFile fp fun f => { f with fCount := short (f.fCount + 1), fMsgcount := short (f.fMsgcount + 1) }, w.unpRights + 1⟩

def take (w : Rights) (fp : Nat) : Rights :=
  ⟨w.sys.setFile fp fun f => { f with fMsgcount := short (f.fMsgcount - 1) }, w.unpRights - 1⟩

def setRcv (w : Rights) (so : Nat) (rcv : List (List Mbuf)) : Rights :=
  { w with sys := { w.sys with socket := Function.update w.sys.socket so { w.sys.socket so with rcv := rcv } } }

end Rights

inductive Error where
  | einval
  | ebadf
  | eisconn
  | enotconn
  | enobufs
  | epipe
  | emsgsize
  | connect
  deriving DecidableEq

/-- `unp_internalize`; `valid` says that the header of the control message is one of `SCM_RIGHTS`. -/
def unpInternalize (valid : Bool) (fds : List Nat) (fdp : Fd.Filedesc) (w : Rights) : Except Error (List Nat × Rights) :=
  if valid = false then .error .einval
  else
    match fds.mapM fdp.file with
    | none => .error .ebadf
    | some fps => .ok (fps, fps.foldl Rights.hold w)

/-- The socket that `PRU_SEND` is for: the socket at the other end, and whether it cannot send; and for a datagram the name that is
given, if one is, with the socket that `unp_connect` finds there. -/
inductive Way where
  | dgram (conn : Option Nat) (nam : Option (Option Nat))
  | stream (cantsendmore : Bool) (conn : Option Nat)

def Way.receiver : Way → Option (Except Error Nat)
  | .dgram (some _) (some _) => some (.error .eisconn)
  | .dgram none (some none) => some (.error .connect)
  | .dgram none (some (some so2)) => some (.ok so2)
  | .dgram (some so2) none => some (.ok so2)
  | .dgram none none => some (.error .enotconn)
  | .stream true _ => some (.error .epipe)
  | .stream false none => none
  | .stream false (some so2) => some (.ok so2)

def control : List Mbuf → Option (List Nat)
  | [] => none
  | .data :: m => control m
  | .rights fps :: _ => some fps

def Way.record (fps : List Nat) : Way → List Mbuf
  | .dgram _ _ => [.data, .rights fps, .data]
  | .stream _ _ => [.rights fps, .data]

def Way.full : Way → Option Error
  | .dgram _ _ => some .enobufs
  | .stream _ _ => none

/-- The calls: `PRU_SEND` with a control message, where `room` says that the record can be appended; `soreceive` for a control message,
after which data of the record may be left; `sorflush`; and `close` of a descriptor. -/
inductive Call where
  | send (pid : Nat) (valid : Bool) (fds : List Nat) (way : Way) (room : Bool)
  | receive (pid so : Nat) (left : Bool)
  | flush (so : Nat)
  | close (pid fd : Nat)

structure World where
  rights : Rights
  procs : List Fd.Proc
  maxfiles : Nat

namespace World

variable (w : World)

def setFd (pid : Nat) (fdp : Fd.Filedesc) : World := { w with procs := w.procs.modify pid fun p => { p with fd := fdp } }

def lim (p : Fd.Proc) : Nat := min p.rlimCur w.maxfiles

def send (valid : Bool) (fds : List Nat) (way : Way) (room : Bool) (p : Fd.Proc) : Option (Option Error × World) :=
  match unpInternalize valid fds p.fd w.rights with
  | .error e => some (some e, w)
  | .ok (fps, rights) =>
    match way.receiver with
    | none => none
    | some (.error e) => some (some e, { w with rights := rights })
    | some (.ok so2) =>
      if room then
        some (none, { w with rights := rights.setRcv so2 ((rights.sys.socket so2).rcv ++ [way.record fps]) })
      else some (way.full, { w with rights := rights })

def externalize (pid : Nat) (fps : List Nat) (p : Fd.Proc) : Option (Option Error × World) :=
  if Fd.fdavail (w.lim p) p.fd fps.length = false then
    (fps.foldlM (fun r fp => Rights.unpDiscard Rights.close fp r) w.rights).map fun r => (some .emsgsize, { w with rights := r })
  else
    (Fd.fdfill (w.lim p) fps p.fd).map fun t => (none, { w with rights := fps.foldl Rights.take w.rights }.setFd pid t.2)

/-- `soreceive`, as far as it takes the control message of a record, or the record without one. -/
def receive (pid so : Nat) (left : Bool) (p : Fd.Proc) : Option (Option Error × World) :=
  match (w.rights.sys.socket so).rcv with
  | [] => some (none, w)
  | m :: rest =>
    let w : World := { w with rights := w.rights.setRcv so (if left then [.data] :: rest else rest) }
    match control m with
    | none => some (none, w)
    | some fps => w.externalize pid fps p

def closeFd (pid fd : Nat) (p : Fd.Proc) : Option (Option Error × World) :=
  match p.fd.file fd with
  | none => some (some .ebadf, w)
  | some fp => (w.rights.close fp).map fun r => (none, { w with rights := r }.setFd pid (p.fd.close fd))

def call : Call → Option (Option Error × World)
  | .send pid valid fds way room => w.procs[pid]?.bind (w.send valid fds way room)
  | .receive pid so left => w.procs[pid]?.bind (w.receive pid so left)
  | .flush so => (w.rights.sorflush Rights.close so).map fun r => (none, { w with rights := r })
  | .close pid fd => w.procs[pid]?.bind (w.closeFd pid fd)

end World

namespace Rights

open Sys

variable {s s' : Sys} {fp so : Nat} {refs msgs : Nat → Nat} {gone : Nat → Prop} {r : Int} {bound : Nat}
  {close₀ : Nat → Sys → Option Sys} {close₁ : Nat → Rights → Option Rights}

def after (r : Int) (s s' : Sys) : Rights := ⟨s', r - s.flying.length + s'.flying.length⟩

def Counts₁ (close₁ : Nat → Rights → Option Rights) (close₀ : Nat → Sys → Option Sys) (bound : Nat) : Prop :=
  ∀ refs msgs gone fp s, Counts (refs + one fp) msgs gone s → s.flying.length < bound →
    ∀ r s', close₀ fp s = some s' → close₁ fp ⟨s, r⟩ = some (after r s s')

theorem after_self (r : Int) (s : Sys) : after r s s = ⟨s, r⟩ :=
  congrArg (fun n => (⟨s, n⟩ : Rights)) (by omega)

theorem unpDiscard_after (hcount : Counts₁ close₁ close₀ bound) (hc : Counts (refs + one fp) (msgs + one fp) gone s)
    (hbound : s.flying.length < bound) (hs' : s.unpDiscard close₀ fp = some s') :
    unpDiscard close₁ fp ⟨s, r⟩ = some (after (r - 1) s s') := by
  have hsame := same_setFile s fp (f := fun f => { f with fMsgcount := short (f.fMsgcount - 1) }) fun _ => rfl
  have hcl := hcount refs msgs gone fp _ hc.discarded (hsame.flying ▸ hbound) (r - 1) s' hs'
  rw [after, hsame.flying] at hcl
  exact hcl

theorem foldlM_unpDiscard_after {fps : List Nat} (hcount : Counts₁ close₁ close₀ bound) (hclose : Closes close₀ bound)
    (hc : Counts (fun g => refs g + fps.count g) (fun g => msgs g + fps.count g) gone s) (hbound : s.flying.length < bound)
    (hs' : fps.foldlM (fun s fp => s.unpDiscard close₀ fp) s = some s') :
    fps.foldlM (fun w fp => unpDiscard close₁ fp w) (⟨s, r⟩ : Rights) = some (after (r - fps.length) s s') := by
  induction fps generalizing s r with
  | nil =>
    obtain rfl : s = s' := Option.some.inj hs'
    rw [List.length_nil, Int.natCast_zero, Int.sub_zero, after_self]
    rfl
  | cons fp fps ih =>
    have hc₀ := hc.of_eq (fun g => (add_one_eq refs fp g fps).symm) fun g => (add_one_eq msgs fp g fps).symm
    obtain ⟨s₁, hs₁, hcl₁⟩ := unpDiscard_spec hclose hc₀ hbound
    rw [List.foldlM_cons, hs₁] at hs'
    have hrest := ih (r := (after (r - 1) s s₁).unpRights) hcl₁.counts
      (Nat.lt_of_le_of_lt hcl₁.frame.flying.length_le hbound) hs'
    rw [List.foldlM_cons, unpDiscard_after hcount hc₀ hbound hs₁]
    refine hrest.trans ?_
    rw [after, after, after, List.length_cons]
    exact congrArg (fun n => some (⟨s', n⟩ : Rights)) (by dsimp only; omega)

theorem sorflush_after (hcount : Counts₁ close₁ close₀ bound) (hclose : Closes close₀ bound) (hc : Counts refs msgs gone s)
    (hso : so ∈ s.sockets) (hbound : s.flying.length ≤ bound) (hs' : s.sorflush close₀ so = some s') :
    sorflush close₁ so ⟨s, r⟩ = some (after r s s') := by
  have hlen := (perm_flush hc.sockets hso).length_eq
  rw [List.length_append] at hlen
  have hafter : after (r - (s.held so).length) (s.flush so) s' = after r s s' := by
    rw [after, after, hlen]
    exact congrArg (fun n => (⟨s', n⟩ : Rights)) (by omega)
  rw [← hafter]
  by_cases hnil : s.held so = []
  · rw [Sys.sorflush, hnil] at hs'
    obtain rfl : s.flush so = s' := Option.some.inj hs'
    rw [sorflush]
    dsimp only
    rw [hnil, after]
    exact congrArg (fun n => some (⟨s.flush so, n⟩ : Rights)) (by rw [List.length_nil]; omega)
  · have hpos := List.length_pos_iff.2 hnil
    have hless : (s.flush so).flying.length < bound := by omega
    exact foldlM_unpDiscard_after hcount hclose (hc.flush hso) hless hs'

theorem foldlM_sorflush_after {sos : List Nat} (hcount : Counts₁ close₁ close₀ bound) (hclose : Closes close₀ bound)
    (hc : Counts refs msgs gone s) (hsos : ∀ so ∈ sos, ∃ fp ∈ s.files, so ∈ s.socketsOf fp ∧ (gone fp ∨ 0 < refs fp))
    (hbound : s.flying.length ≤ bound) (hs' : sos.foldlM (fun s so => s.sorflush close₀ so) s = some s') :
    sos.foldlM (fun w so => sorflush close₁ so w) (⟨s, r⟩ : Rights) = some (after r s s') := by
  induction sos generalizing s r with
  | nil =>
    obtain rfl : s = s' := Option.some.inj hs'
    rw [after_self]
    rfl
  | cons so sos ih =>
    obtain ⟨fp, hfp, hso, -⟩ := hsos so List.mem_cons_self
    have hmem : so ∈ s.sockets := List.mem_flatMap.2 ⟨fp, hfp, hso⟩
    obtain ⟨s₁, hs₁, hf₁⟩ := sorflush_spec hclose hc hmem hbound
    rw [List.foldlM_cons, hs₁] at hs'
    have hrest := ih (r := (after r s s₁).unpRights) hf₁.counts (hf₁.sockets_left hsos)
      (hf₁.frame.flying.length_le.trans hbound) hs'
    rw [List.foldlM_cons, sorflush_after hcount hclose hc hmem hbound hs₁]
    refine hrest.trans ?_
    rw [after, after, after]
    exact congrArg (fun n => some (⟨s', n⟩ : Rights)) (by dsimp only; omega)

theorem after_ffree (hmem : fp ∈ s'.files) (hempty : ∀ so ∈ s'.socketsOf fp, s'.held so = []) :
    ({ after r s s' with sys := s'.ffree fp } : Rights) = after r s (s'.ffree fp) := by
  have hlen := (perm_ffree hmem).length_eq
  rw [List.flatMap_eq_nil_iff.2 hempty, List.nil_append] at hlen
  rw [after, after, hlen]

theorem closef_after (fuel : Nat) : Counts₁ (closef fuel) (Sys.closef fuel) fuel := by
  induction fuel with
  | zero => exact fun _ _ _ _ _ _ hbound => absurd hbound (Nat.not_lt_zero _)
  | succ fuel ih =>
    intro refs msgs gone fp s hc hbound r s' hs'
    obtain ⟨hmem, -, hself, hcounts⟩ := hc.lowered
    have hsame := same_setFile s fp (f := fun f => { f with fCount := short (f.fCount - 1) }) fun _ => rfl
    rw [Sys.closef] at hs'
    rw [closef]
    dsimp only at hs' ⊢
    have hafter : ∀ s', after r (s.setFile fp fun f => { f with fCount := short (f.fCount - 1) }) s' = after r s s' := by
      intro s'
      rw [after, hsame.flying, after]
    generalize (s.setFile fp fun f => { f with fCount := short (f.fCount - 1) }) = s₁ at *
    split at hs'
    · next hpos =>
      obtain rfl : s₁ = s' := Option.some.inj hs'
      rw [if_pos hpos, ← hafter, after_self]
    next hpos =>
    rw [if_neg hpos]
    rw [hself] at hpos
    rw [hself, if_neg (by omega)] at hs' ⊢
    have hzero : refs fp + s.inflight fp = 0 := by omega
    have hc₁ := hcounts (fun g => gone g ∨ g = fp) (fun g hne => or_iff_left hne) (iff_of_true (.inr rfl) hzero)
    have hmem₁ : fp ∈ s₁.files := hsame.files ▸ hmem
    have hbound₁ : s₁.flying.length ≤ fuel := by rw [hsame.flying]; omega
    rw [← hafter]
    cases hsocket : (s₁.file fp).socket with
    | none =>
      have hnil : s₁.socketsOf fp = [] := by rw [socketsOf, hsocket]
      rw [hsocket] at hs'
      obtain rfl : s₁.ffree fp = s' := Option.some.inj hs'
      rw [← after_ffree hmem₁ (by rw [hnil]; exact fun so hso => absurd hso List.not_mem_nil), after_self]
    | some so =>
      have hsockets : (s₁.socket so).q ++ [so] = s₁.socketsOf fp := by rw [socketsOf, hsocket]
      have hsos : ∀ so' ∈ s₁.socketsOf fp, ∃ g ∈ s₁.files, so' ∈ s₁.socketsOf g ∧ ((gone g ∨ g = fp) ∨ 0 < refs g) :=
        fun so' hso' => ⟨fp, hmem₁, hso', .inl (.inr rfl)⟩
      obtain ⟨s₂, hs₂, hf₂⟩ := foldlM_sorflush (closes_closef fuel) hc₁ hsos hbound₁
      have hrest := foldlM_sorflush_after (r := r) ih (closes_closef fuel) hc₁ hsos hbound₁ hs₂
      rw [hsocket] at hs'
      dsimp only at hs' ⊢
      rw [Sys.soclose, hsockets, hs₂] at hs'
      obtain rfl : s₂.ffree fp = s' := Option.some.inj hs'
      rw [soclose, hsockets, hrest, ← after_ffree (hf₂.stays fp hmem₁ (.inr rfl)) fun so hso => hf₂.empty so (hf₂.frame.socketsOf ▸ hso)]
      rfl

theorem close_after (hc : Counts (refs + one fp) msgs gone s) :
    ∃ s', close fp ⟨s, r⟩ = some (after r s s') ∧ Closed refs msgs gone s s' := by
  obtain ⟨s', hs', hcl⟩ := close_spec hc
  exact ⟨s', closef_after _ refs msgs gone fp s hc (Nat.lt_succ_self _) r s' hs', hcl⟩

theorem counts₁_close (bound : Nat) : Counts₁ close Sys.close bound :=
  fun refs msgs gone fp s hc _ r s' hs' => closef_after _ refs msgs gone fp s hc (Nat.lt_succ_self _) r s' hs'

end Rights

end NetBSD.Unp
