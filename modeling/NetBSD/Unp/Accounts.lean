import NetBSD.Unp.Rights
import NetBSD.Fd.Calls
import Mathlib.Algebra.BigOperators.Ring.Finset

/-!
# The accounts of rights

Between calls `f_msgcount` and `unp_rights` count the files in messages, if each control message that was taken apart is delivered; a
message that is not leaves its files counted.
-/

namespace NetBSD.Unp

open Lib (Runs)
open Fd (short)
open Sys (Counts)

namespace World

variable {w w' : World} {s s' : Sys} {refs msgs a b : Nat → Nat} {gone : Nat → Prop} {so pid fp : Nat} {fps : List Nat} {p : Fd.Proc}

def slots (w : World) (fp : Nat) : Nat := (w.procs.map fun p => p.fd.refs fp).sum

def others (w : World) (pid fp : Nat) : Nat := ((w.procs.eraseIdx pid).map fun p => p.fd.refs fp).sum

theorem slots_eq (hp : w.procs[pid]? = some p) (fp : Nat) : w.slots fp = p.fd.refs fp + w.others pid fp := Fd.sum_eraseIdx hp _

theorem slots_setFd (hp : w.procs[pid]? = some p) (fdp : Fd.Filedesc) (fp : Nat) :
    (w.setFd pid fdp).slots fp = fdp.refs fp + w.others pid fp := by
  have hproc : (w.setFd pid fdp).procs[pid]? = some { p with fd := fdp } := by
    simp only [setFd, List.getElem?_modify_eq, hp, Option.map_eq_map, Option.map_some]
  rw [slots_eq hproc]
  simp only [others, setFd, Fd.eraseIdx_modify]

structure Accounted (w : World) : Prop where
  counts : Counts w.slots (fun _ => 0) (fun _ => False) w.rights.sys
  rights : w.rights.unpRights = w.rights.sys.flying.length
  small : ∀ fp, w.slots fp + w.rights.sys.inflight fp < 32768

theorem Counts.move (hc : Counts (fun g => refs g + a g) (fun g => msgs g + a g) gone s) (hfiles : s'.files = s.files)
    (hfile : s'.file = s.file) (hsockets : s'.sockets = s.sockets) (h : ∀ g, s'.inflight g + b g = s.inflight g + a g) :
    Counts (fun g => refs g + b g) (fun g => msgs g + b g) gone s' := by
  have hsum : ∀ n g, n + b g + s'.inflight g = n + a g + s.inflight g := fun n g => by
    have := h g
    omega
  refine ⟨hfiles ▸ hc.files, hsockets ▸ hc.sockets, fun g hg => ?_, fun g hg => ?_, fun g hg => ?_, fun g hg => ?_, fun g hg => ?_⟩
  · rw [hfile, hsum]
    exact hc.count g (hfiles ▸ hg)
  · rw [hfile, hsum]
    exact hc.msgcount g (hfiles ▸ hg)
  · rw [hsum]
    exact hc.small g (hfiles ▸ hg)
  · rw [hsum] at hg
    exact hfiles ▸ hc.known g hg
  · rw [hsum]
    exact hc.gone g (hfiles ▸ hg)

theorem socketsOf_setRcv (r : Rights) (so : Nat) (rcv : List (List Mbuf)) : (r.setRcv so rcv).sys.socketsOf = r.sys.socketsOf := by
  have hq : ∀ so', ((r.setRcv so rcv).sys.socket so').q = (r.sys.socket so').q := fun so' => by
    rw [Rights.setRcv]
    dsimp only
    by_cases heq : so' = so
    · rw [heq, Function.update_self]
    · rw [Function.update_of_ne heq]
  funext fp
  rw [Sys.socketsOf, Sys.socketsOf]
  simp only [hq]
  rfl

theorem inflight_setRcv {r : Rights} (rcv : List (List Mbuf)) (hnodup : r.sys.sockets.Nodup) (hso : so ∈ r.sys.sockets)
    (hproto : (r.sys.socket so).rightsProto = true) (g : Nat) :
    (r.setRcv so rcv).sys.inflight g + (unpScan (r.sys.socket so).rcv).count g = r.sys.inflight g + (unpScan rcv).count g := by
  have hsockets : (r.setRcv so rcv).sys.sockets = r.sys.sockets := by
    rw [Sys.sockets, Sys.sockets, socketsOf_setRcv]
    rfl
  have hflush : (r.setRcv so rcv).sys.flush so = r.sys.flush so := by
    rw [Sys.flush, Sys.flush, Rights.setRcv]
    simp only [Function.update_idem, Function.update_self]
  have hbefore := (Sys.perm_flush hnodup hso).count_eq g
  have hafter := (Sys.perm_flush (hsockets ▸ hnodup) (hsockets ▸ hso)).count_eq g
  have hheld : r.sys.held so = unpScan (r.sys.socket so).rcv := if_pos hproto
  have hheld' : (r.setRcv so rcv).sys.held so = unpScan rcv := by
    rw [Sys.held, Rights.setRcv]
    simp only [Function.update_self]
    exact if_pos hproto
  rw [List.count_append, hheld] at hbefore
  rw [List.count_append, hheld', hflush] at hafter
  rw [Sys.inflight, Sys.inflight]
  omega

theorem sockets_setRcv (r : Rights) (so : Nat) (rcv : List (List Mbuf)) : (r.setRcv so rcv).sys.sockets = r.sys.sockets := by
  rw [Sys.sockets, Sys.sockets, socketsOf_setRcv]
  rfl

theorem Counts.held (hc : Counts refs msgs gone s) (hpos : 0 < refs fp) (hsmall : refs fp + s.inflight fp + 1 ≤ 32768) (r : Int) :
    Counts (refs + Sys.one fp) (msgs + Sys.one fp) gone (Rights.hold ⟨s, r⟩ fp).sys := by
  have hmem := hc.mem hpos
  have hself : ∀ f : Nat → Nat, (f + Sys.one fp) fp + s.inflight fp = f fp + s.inflight fp + 1 := fun f => by
    rw [Pi.add_apply, Sys.one, Pi.single_eq_same, Nat.add_right_comm]
  have hother : ∀ (f : Nat → Nat) g, g ≠ fp → (f + Sys.one fp) g = f g := fun f g hne => by
    rw [Pi.add_apply, Sys.one, Pi.single_eq_of_ne hne, Nat.add_zero]
  have hgone : ¬gone fp := by
    rw [hc.gone fp hmem]
    omega
  refine hc.setFile (f := fun f => { f with fCount := short (f.fCount + 1), fMsgcount := short (f.fMsgcount + 1) }) hmem (fun _ => rfl)
    (hother refs) (hother msgs) (fun _ _ => .rfl) ?_ ?_ ?_ ?_
  · dsimp only
    rw [hself, hc.count fp hmem, Sys.short_add]
    rfl
  · dsimp only
    rw [hself, hc.msgcount fp hmem, Sys.short_add]
    rfl
  · rw [hself]
    exact hsmall
  · rw [hself]
    exact iff_of_false hgone (Nat.succ_ne_zero _)

theorem same_hold (s : Sys) (r : Int) (fp : Nat) : Sys.Same s (Rights.hold ⟨s, r⟩ fp).sys :=
  Sys.same_setFile s fp (f := fun f => { f with fCount := short (f.fCount + 1), fMsgcount := short (f.fMsgcount + 1) }) fun _ => rfl

theorem same_take (s : Sys) (r : Int) (fp : Nat) : Sys.Same s (Rights.take ⟨s, r⟩ fp).sys :=
  Sys.same_setFile s fp (f := fun f => { f with fMsgcount := short (f.fMsgcount - 1) }) fun _ => rfl

theorem foldl_hold {r : Int} (hc : Counts refs msgs gone s) (hpos : ∀ fp ∈ fps, 0 < refs fp)
    (hsmall : ∀ g, refs g + s.inflight g + fps.count g ≤ 32768) :
    Counts (fun g => refs g + fps.count g) (fun g => msgs g + fps.count g) gone (fps.foldl Rights.hold ⟨s, r⟩).sys ∧
      Sys.Same s (fps.foldl Rights.hold ⟨s, r⟩).sys ∧ (fps.foldl Rights.hold ⟨s, r⟩).unpRights = r + fps.length := by
  induction fps generalizing s r refs msgs with
  | nil => exact ⟨hc, .refl s, (Int.add_zero r).symm⟩
  | cons fp fps ih =>
    have hadd : ∀ (f : Nat → Nat) g, (f + Sys.one fp) g + fps.count g = f g + (fp :: fps).count g := fun f g => by
      have := Sys.add_one_eq f fp g fps
      rw [Pi.add_apply] at this ⊢
      omega
    have hsame := same_hold s r fp
    have hc' := Counts.held hc (hpos fp List.mem_cons_self) (by
      have := hsmall fp
      rw [List.count_cons_self] at this
      omega) r
    obtain ⟨hcounts, hsame', hrights⟩ := ih (r := r + 1) hc' (fun g hg => Nat.add_pos_left (hpos g (List.mem_cons_of_mem _ hg)) _) fun g => by
      have h₁ := hsmall g
      have h₂ := hadd refs g
      rw [hsame.inflight]
      omega
    refine ⟨hcounts.of_eq (fun g => (hadd refs g).symm) fun g => (hadd msgs g).symm, hsame.trans hsame', hrights.trans ?_⟩
    rw [List.length_cons]
    omega

theorem foldl_take {r : Int} (hc : Counts refs (fun g => msgs g + fps.count g) gone s) (hmem : ∀ fp ∈ fps, fp ∈ s.files) :
    Counts refs msgs gone (fps.foldl Rights.take ⟨s, r⟩).sys ∧
      Sys.Same s (fps.foldl Rights.take ⟨s, r⟩).sys ∧ (fps.foldl Rights.take ⟨s, r⟩).unpRights = r - fps.length := by
  induction fps generalizing s r with
  | nil => exact ⟨hc, .refl s, (Int.sub_zero r).symm⟩
  | cons fp fps ih =>
    have hsame := same_take s r fp
    have hc₀ := hc.of_eq (fun _ => rfl) fun g => (Sys.add_one_eq msgs fp g fps).symm
    obtain ⟨hcounts, hsame', hrights⟩ := ih (r := r - 1) (hc₀.taken (hmem fp List.mem_cons_self)) fun g hg =>
      hmem g (List.mem_cons_of_mem _ hg)
    refine ⟨hcounts, hsame.trans hsame', hrights.trans ?_⟩
    rw [List.length_cons]
    omega

def Allowed (w : World) : Call → Prop
  | .send _ _ _ way _ => ∀ so, way.receiver = some (.ok so) → so ∈ w.rights.sys.sockets ∧ (w.rights.sys.socket so).rightsProto = true
  | .receive _ so _ => so ∈ w.rights.sys.sockets ∧ (w.rights.sys.socket so).rightsProto = true
  | .flush so => so ∈ w.rights.sys.sockets
  | .close _ _ => True

def Careful (w : World) : Call → Prop
  | .send pid valid fds way room => ∀ p fps, w.procs[pid]? = some p → valid = true → fds.mapM p.fd.file = some fps →
      (∃ so, way.receiver = some (.ok so)) ∧ room = true ∧ ∀ fp, w.slots fp + w.rights.sys.inflight fp + fps.count fp < 32768
  | _ => True

theorem control_record (fps : List Nat) (way : Way) : scanRecord (way.record fps) = fps := by
  cases way <;> rfl

theorem scanRecord_eq (m : List Mbuf) : scanRecord m = (control m).getD [] := by
  induction m with
  | nil => rfl
  | cons mb m ih =>
    cases mb with
    | data => exact ih
    | rights fps => rfl

variable {e : Option Error}

theorem Accounted.of_counts {rights : Rights} (hc : Counts w.slots (fun _ => 0) (fun _ => False) rights.sys)
    (hrights : rights.unpRights = rights.sys.flying.length) (hsmall : ∀ fp, w.slots fp + rights.sys.inflight fp < 32768) :
    Accounted { w with rights := rights } := ⟨hc, hrights, hsmall⟩

theorem length_flying {r : Rights} (rcv : List (List Mbuf)) (hnodup : r.sys.sockets.Nodup) (hso : so ∈ r.sys.sockets)
    (hproto : (r.sys.socket so).rightsProto = true) :
    (r.setRcv so rcv).sys.flying.length + (unpScan (r.sys.socket so).rcv).length = r.sys.flying.length + (unpScan rcv).length := by
  have hperm : ((r.setRcv so rcv).sys.flying ++ unpScan (r.sys.socket so).rcv).Perm (r.sys.flying ++ unpScan rcv) := by
    refine List.perm_iff_count.2 fun g => ?_
    rw [List.count_append, List.count_append]
    exact inflight_setRcv rcv hnodup hso hproto g
  simpa only [List.length_append] using hperm.length_eq

theorem mem_of_mapM {f : Nat → Option Nat} {fds fps : List Nat} (h : fds.mapM f = some fps) : ∀ fp ∈ fps, ∃ fd, f fd = some fp := by
  induction fds generalizing fps with
  | nil =>
    obtain rfl : [] = fps := Option.some.inj h
    exact fun fp hfp => absurd hfp List.not_mem_nil
  | cons fd fds ih =>
    rw [List.mapM_cons] at h
    obtain ⟨fp, hfp, hrest⟩ := Option.bind_eq_some_iff.1 h
    obtain ⟨fps', hfps', hcons⟩ := Option.bind_eq_some_iff.1 hrest
    obtain rfl : fp :: fps' = fps := Option.some.inj hcons
    intro g hg
    rcases List.mem_cons.1 hg with rfl | hg'
    · exact ⟨fd, hfp⟩
    · exact ih hfps' g hg'

theorem send_accounted {valid room : Bool} {fds : List Nat} {way : Way} (h : Accounted w) (hp : w.procs[pid]? = some p)
    (hallowed : w.Allowed (.send pid valid fds way room)) (hcareful : w.Careful (.send pid valid fds way room))
    (hw : w.send valid fds way room p = some (e, w')) : Accounted w' := by
  unfold send unpInternalize at hw
  by_cases hvalid : valid = false
  · rw [if_pos hvalid] at hw
    obtain ⟨-, rfl⟩ := Prod.mk.inj (Option.some.inj hw)
    exact h
  rw [if_neg hvalid] at hw
  cases hfps : fds.mapM p.fd.file with
  | none =>
    rw [hfps] at hw
    obtain ⟨-, rfl⟩ := Prod.mk.inj (Option.some.inj hw)
    exact h
  | some fps =>
    obtain ⟨⟨so, hway⟩, hroom, hfit⟩ := hcareful p fps hp (eq_true_of_ne_false hvalid) hfps
    obtain ⟨hso, hproto⟩ := hallowed so hway
    rw [hfps] at hw
    dsimp only at hw
    rw [hway] at hw
    dsimp only at hw
    rw [if_pos hroom] at hw
    obtain ⟨-, rfl⟩ := Prod.mk.inj (Option.some.inj hw)
    have hpos : ∀ fp ∈ fps, 0 < w.slots fp := fun fp hfp => by
      obtain ⟨fd, hfd⟩ := mem_of_mapM hfps fp hfp
      have := Fd.Filedesc.refs_pos hfd
      rw [slots_eq hp]
      omega
    obtain ⟨hc, hsame, hrights⟩ := foldl_hold (r := w.rights.unpRights) h.counts hpos fun g => (hfit g).le
    generalize fps.foldl Rights.hold w.rights = r at *
    have hproto' : (r.sys.socket so).rightsProto = true := hsame.socket ▸ hproto
    have hso' : so ∈ r.sys.sockets := hsame.sockets ▸ hso
    have hscan : unpScan ((r.sys.socket so).rcv ++ [way.record fps]) = unpScan (r.sys.socket so).rcv ++ fps := by
      rw [unpScan, List.flatMap_append, List.flatMap_singleton, control_record]
      rfl
    have hinflight := inflight_setRcv ((r.sys.socket so).rcv ++ [way.record fps]) hc.sockets hso' hproto'
    have hlen := length_flying ((r.sys.socket so).rcv ++ [way.record fps]) hc.sockets hso' hproto'
    rw [hscan, List.length_append] at hlen
    simp only [hscan, List.count_append] at hinflight
    refine Accounted.of_counts (Counts.move (b := fun _ => 0) hc rfl rfl (sockets_setRcv ..) fun g => ?_) ?_ fun g => ?_
    · have := hinflight g
      omega
    · have hr : (r.setRcv so ((r.sys.socket so).rcv ++ [way.record fps])).unpRights = r.unpRights := rfl
      rw [hr, hrights, h.rights, ← hsame.flying]
      omega
    · have h₁ := hinflight g
      have h₂ := hfit g
      rw [← hsame.inflight] at h₂
      omega

theorem externalize_accounted (hp : w.procs[pid]? = some p)
    (hc : Counts (fun g => w.slots g + fps.count g) (fun g => 0 + fps.count g) (fun _ => False) w.rights.sys)
    (hrights : w.rights.unpRights = w.rights.sys.flying.length + fps.length)
    (hsmall : ∀ g, w.slots g + w.rights.sys.inflight g + fps.count g < 32768) (hw : w.externalize pid fps p = some (e, w')) :
    Accounted w' := by
  unfold externalize at hw
  split at hw
  · obtain ⟨s', hs', hcl⟩ := Sys.foldlM_unpDiscard (Sys.closes_close (w.rights.sys.flying.length + 1)) hc (Nat.lt_succ_self _)
    have hafter := Rights.foldlM_unpDiscard_after (r := w.rights.unpRights) (Rights.counts₁_close _) (Sys.closes_close _) hc (Nat.lt_succ_self _) hs'
    rw [hafter] at hw
    obtain ⟨-, rfl⟩ := Prod.mk.inj (Option.some.inj hw)
    refine Accounted.of_counts hcl.counts ?_ fun g => ?_
    · dsimp only [Rights.after]
      omega
    · dsimp only [Rights.after]
      have h₁ := hcl.frame.inflight_le g
      have h₂ := hsmall g
      omega
  · obtain ⟨t, hfill, heq⟩ := Option.map_eq_some_iff.1 hw
    obtain ⟨-, rfl⟩ := Prod.mk.inj heq
    obtain ⟨hc', hsame, htake⟩ := foldl_take (r := w.rights.unpRights) hc fun g hg =>
      hc.known g (Nat.add_pos_left (Nat.add_pos_right _ (List.count_pos_iff.2 hg)) _)
    generalize fps.foldl Rights.take w.rights = r at *
    have hslots : ∀ g, ({ w with rights := r }.setFd pid t.2).slots g = w.slots g + fps.count g := fun g => by
      rw [slots_setFd (w := { w with rights := r }) hp, slots_eq hp, Fd.Filedesc.refs_fdfill hfill]
      simp only [others]
      omega
    refine ⟨hc'.of_eq hslots fun _ => rfl, ?_, fun g => ?_⟩
    · rw [setFd]
      dsimp only
      rw [htake, hrights, hsame.flying]
      omega
    · have := hsmall g
      rw [hslots, setFd]
      dsimp only
      rw [hsame.inflight]
      omega

theorem receive_accounted {left : Bool} (h : Accounted w) (hp : w.procs[pid]? = some p) (hallowed : w.Allowed (.receive pid so left))
    (hw : w.receive pid so left p = some (e, w')) : Accounted w' := by
  unfold receive at hw
  cases hrcv : (w.rights.sys.socket so).rcv with
  | nil =>
    rw [hrcv] at hw
    obtain ⟨-, rfl⟩ := Prod.mk.inj (Option.some.inj hw)
    exact h
  | cons m rest =>
    rw [hrcv] at hw
    dsimp only at hw
    obtain ⟨hso, hproto⟩ := hallowed
    have hscan : unpScan (w.rights.sys.socket so).rcv = scanRecord m ++ unpScan rest := by
      rw [hrcv]
      rfl
    have hleft : unpScan (if left then [Mbuf.data] :: rest else rest) = unpScan rest := by
      cases left <;> rfl
    generalize (if left then [Mbuf.data] :: rest else rest) = rcv at hw hleft
    have hinflight := inflight_setRcv rcv h.counts.sockets hso hproto
    have hlen := length_flying rcv h.counts.sockets hso hproto
    rw [hscan, hleft, List.length_append] at hlen
    simp only [hscan, hleft, List.count_append] at hinflight
    have hsum : ∀ g, (w.rights.setRcv so rcv).sys.inflight g + (scanRecord m).count g = w.rights.sys.inflight g := fun g => by
      have := hinflight g
      omega
    have hc : Counts (fun g => w.slots g + (scanRecord m).count g) (fun g => 0 + (scanRecord m).count g) (fun _ => False)
        (w.rights.setRcv so rcv).sys := Counts.move (a := fun _ => 0) h.counts rfl rfl (sockets_setRcv ..) hsum
    rw [scanRecord_eq] at hc hsum hlen
    have hunp : (w.rights.setRcv so rcv).unpRights = w.rights.unpRights := rfl
    generalize w.rights.setRcv so rcv = r at *
    have hrights := h.rights
    have hsmall := h.small
    cases hcontrol : control m with
    | none =>
      rw [hcontrol] at hw hc hsum hlen
      obtain ⟨-, rfl⟩ := Prod.mk.inj (Option.some.inj hw)
      refine Accounted.of_counts hc ?_ fun g => ?_
      · rw [hunp, hrights]
        simp only [Option.getD_none, List.length_nil] at hlen
        omega
      · have h₁ := hsum g
        have h₂ := hsmall g
        omega
    | some fps =>
      rw [hcontrol] at hw hc hsum hlen
      dsimp only [Option.getD_some] at hw hc hsum hlen
      refine externalize_accounted (w := { w with rights := r }) hp hc ?_ (fun g => ?_) hw
      · dsimp only
        omega
      · have h₁ := hsum g
        have h₂ := hsmall g
        have h₃ : ({ w with rights := r } : World).slots g = w.slots g := rfl
        dsimp only
        omega

theorem flush_accounted (h : Accounted w) (hso : so ∈ w.rights.sys.sockets) {r : Rights}
    (hr : w.rights.sorflush Rights.close so = some r) : Accounted { w with rights := r } := by
  obtain ⟨s', hs', hf⟩ := Sys.sorflush_spec (Sys.closes_close w.rights.sys.flying.length) h.counts hso (Nat.le_refl _)
  have hafter := Rights.sorflush_after (r := w.rights.unpRights) (Rights.counts₁_close _) (Sys.closes_close _) h.counts hso (Nat.le_refl _) hs'
  obtain rfl : Rights.after w.rights.unpRights w.rights.sys s' = r := Option.some.inj (hafter.symm.trans hr)
  have hrights := h.rights
  refine Accounted.of_counts hf.counts ?_ fun g => ?_
  · dsimp only [Rights.after]
    omega
  · dsimp only [Rights.after]
    have h₁ := hf.frame.inflight_le g
    have h₂ := h.small g
    omega

theorem closeFd_accounted {fd : Nat} (h : Accounted w) (hp : w.procs[pid]? = some p) (hw : w.closeFd pid fd p = some (e, w')) :
    Accounted w' := by
  unfold closeFd at hw
  cases hfile : p.fd.file fd with
  | none =>
    rw [hfile] at hw
    obtain ⟨-, rfl⟩ := Prod.mk.inj (Option.some.inj hw)
    exact h
  | some fp =>
    rw [hfile] at hw
    have hslots : ∀ g, w.slots g = (w.setFd pid (p.fd.close fd)).slots g + Sys.one fp g := fun g => by
      have hsum := Fd.Sys.refs_clear hfile g
      change (p.fd.close fd).refs g + _ = _ at hsum
      rw [slots_setFd hp, slots_eq hp, ← hsum, Nat.add_right_comm]
      rfl
    have hc := h.counts.of_eq (fun g => (hslots g).symm) fun _ => rfl
    obtain ⟨s', hclose, hcl⟩ := Rights.close_after (r := w.rights.unpRights) hc
    obtain ⟨r, hr, heq⟩ := Option.map_eq_some_iff.1 hw
    obtain rfl : Rights.after w.rights.unpRights w.rights.sys s' = r := Option.some.inj (hclose.symm.trans hr)
    obtain ⟨-, rfl⟩ := Prod.mk.inj heq
    have hrights := h.rights
    refine ⟨hcl.counts, ?_, fun g => ?_⟩
    · dsimp only [Rights.after, setFd]
      omega
    · have h₁ := hcl.frame.inflight_le g
      have h₂ := h.small g
      rw [hslots] at h₂
      change (w.setFd pid (p.fd.close fd)).slots g + s'.inflight g < 32768
      omega

theorem call_accounted {c : Call} (h : Accounted w) (hallowed : w.Allowed c) (hcareful : w.Careful c) (hw : w.call c = some (e, w')) :
    Accounted w' := by
  cases c with
  | send pid valid fds way room =>
    obtain ⟨p, hp, hsend⟩ := Option.bind_eq_some_iff.1 hw
    exact send_accounted h hp hallowed hcareful hsend
  | receive pid so left =>
    obtain ⟨p, hp, hreceive⟩ := Option.bind_eq_some_iff.1 hw
    exact receive_accounted h hp hallowed hreceive
  | flush so =>
    obtain ⟨r, hr, heq⟩ := Option.map_eq_some_iff.1 hw
    obtain ⟨-, rfl⟩ := Prod.mk.inj heq
    exact flush_accounted h hallowed hr
  | close pid fd =>
    obtain ⟨p, hp, hclose⟩ := Option.bind_eq_some_iff.1 hw
    exact closeFd_accounted h hp hclose

structure Start (w : World) : Prop where
  files : w.rights.sys.files.Nodup
  sockets : w.rights.sys.sockets.Nodup
  flying : w.rights.sys.flying = []
  rights : w.rights.unpRights = 0
  count : ∀ fp ∈ w.rights.sys.files, (w.rights.sys.file fp).fCount = w.slots fp ∧ 0 < w.slots fp
  msgcount : ∀ fp ∈ w.rights.sys.files, (w.rights.sys.file fp).fMsgcount = 0
  known : ∀ fp, 0 < w.slots fp → fp ∈ w.rights.sys.files
  small : ∀ fp, w.slots fp < 32768

theorem Start.accounted (h : Start w) : Accounted w := by
  have hinflight : ∀ fp, w.rights.sys.inflight fp = 0 := fun fp => by
    rw [Sys.inflight, h.flying]
    rfl
  have hsmall := h.small
  refine ⟨⟨h.files, h.sockets, fun fp hfp => ?_, fun fp hfp => ?_, fun fp _ => ?_, fun fp hpos => ?_, fun fp hfp => ?_⟩, ?_, fun fp => ?_⟩
  · have := hsmall fp
    rw [(h.count fp hfp).1, hinflight, Nat.add_zero, Fd.Sys.short_eq (by omega)]
  · rw [h.msgcount fp hfp, hinflight]
    rfl
  · rw [hinflight]
    exact (hsmall fp).le
  · rw [hinflight, Nat.add_zero] at hpos
    exact h.known fp hpos
  · rw [hinflight, Nat.add_zero]
    exact iff_of_false id (Nat.ne_of_gt (h.count fp hfp).2)
  · rw [h.rights, h.flying]
    rfl
  · rw [hinflight]
    exact hsmall fp

def step (w : World) (c : Call) : Option World := (w.call c).map Prod.snd

structure Exact (w : World) : Prop where
  msgcount : ∀ fp ∈ w.rights.sys.files, (w.rights.sys.file fp).fMsgcount = w.rights.sys.inflight fp
  rights : w.rights.unpRights = (w.rights.sys.files.map fun fp => (w.rights.sys.file fp).fMsgcount).sum
  count : ∀ fp ∈ w.rights.sys.files, (w.rights.sys.file fp).fCount = w.slots fp + w.rights.sys.inflight fp

theorem sum_inflight (hfiles : s.files.Nodup) (hknown : ∀ fp ∈ s.flying, fp ∈ s.files) : (s.files.map s.inflight).sum = s.flying.length := by
  have hcard := Multiset.sum_count_eq_card (s := s.files.toFinset) (m := (s.flying : Multiset Nat)) fun fp hfp =>
    List.mem_toFinset.2 (hknown fp hfp)
  calc (s.files.map s.inflight).sum = s.files.toFinset.sum s.inflight := (List.sum_toFinset _ hfiles).symm
    _ = s.files.toFinset.sum fun fp => (s.flying : Multiset Nat).count fp :=
      Finset.sum_congr rfl fun fp _ => (Multiset.coe_count fp s.flying).symm
    _ = s.flying.length := hcard

theorem Accounted.exact (h : Accounted w) : Exact w := by
  have hc := h.counts
  have hmsgs : ∀ fp ∈ w.rights.sys.files, (w.rights.sys.file fp).fMsgcount = w.rights.sys.inflight fp := fun fp hfp => by
    have := h.small fp
    rw [hc.msgcount fp hfp, Nat.zero_add, Fd.Sys.short_eq (by omega)]
  refine ⟨hmsgs, ?_, fun fp hfp => ?_⟩
  · have hknown : ∀ fp ∈ w.rights.sys.flying, fp ∈ w.rights.sys.files := fun fp hfp =>
      hc.known fp (Nat.add_pos_right _ (List.count_pos_iff.2 hfp))
    rw [h.rights, ← sum_inflight hc.files hknown, List.map_congr_left hmsgs, Nat.cast_list_sum, List.map_map]
    rfl
  · have := h.small fp
    rw [hc.count fp hfp, Fd.Sys.short_eq (by omega), Int.natCast_add]

/-- The counts are exact between the calls, if what is sent is delivered. -/
theorem rights_accounted (h : Runs Start step (fun w c => w.Allowed c ∧ w.Careful c) w) : Exact w := by
  have hinv : Accounted w := h.invariant (fun _ hs => hs.accounted) fun w c w' hs hok hstep => by
    obtain ⟨⟨e, w''⟩, hcall, rfl⟩ := Option.map_eq_some_iff.1 hstep
    exact call_accounted hs hok.1 hok.2 hcall
  exact hinv.exact

def pair : World where
  rights := {
    sys := {
      files := [0, 1, 2]
      file := fun fp => ⟨1, 0, false, false, if fp < 2 then some fp else none⟩
      socket := fun _ => ⟨true, [], []⟩
      unpDefer := 0
      unpGcing := false }
    unpRights := 0 }
  procs := [⟨Fd.Filedesc.three, 64⟩]
  maxfiles := 64

theorem slots_pair_of_le (hle : 3 ≤ fp) : pair.slots fp = 0 := by
  refine (Nat.add_zero _).trans (List.count_eq_zero.2 fun hmem => ?_)
  rcases List.mem_cons.1 hmem with heq | hmem
  · exact absurd (Option.some.inj heq) (by omega)
  rcases List.mem_cons.1 hmem with heq | hmem
  · exact absurd (Option.some.inj heq) (by omega)
  rcases List.mem_cons.1 hmem with heq | hmem
  · exact absurd (Option.some.inj heq) (by omega)
  · exact Option.some_ne_none fp (List.eq_of_mem_replicate hmem)

theorem slots_pair_le (fp : Nat) : pair.slots fp ≤ 1 := by
  have hused : ∀ fp < 3, pair.slots fp ≤ 1 := by decide
  rcases Nat.lt_or_ge fp 3 with hlt | hge
  · exact hused fp hlt
  · exact Nat.le_trans (Nat.le_of_eq (slots_pair_of_le hge)) (Nat.zero_le 1)

theorem start_pair : Start pair := by
  refine ⟨by decide, by decide, by decide, rfl, by decide, by decide, fun fp hpos => ?_, fun fp => ?_⟩
  · have hlt : fp < 3 := Nat.lt_of_not_ge fun hge => Nat.ne_of_gt hpos (slots_pair_of_le hge)
    exact List.mem_range.2 hlt
  · exact Nat.lt_of_le_of_lt (slots_pair_le fp) (by decide)

def sent : World := (pair.step (.send 0 true [2] (.dgram (some 1) none) true)).getD pair

theorem rights_accounted_sent : Exact sent := by
  refine rights_accounted (.after (.start start_pair) _ ⟨fun so hso => ?_, fun p fps hp _ hfps => ?_⟩ rfl)
  · obtain rfl : 1 = so := Except.ok.inj (Option.some.inj hso)
    decide
  · obtain rfl : (⟨Fd.Filedesc.three, 64⟩ : Fd.Proc) = p := Option.some.inj hp
    obtain rfl : [2] = fps := Option.some.inj hfps
    refine ⟨⟨1, rfl⟩, rfl, fun fp => ?_⟩
    have hslots := slots_pair_le fp
    have hcount : [2].count fp ≤ 1 := List.count_le_length
    have hinflight : pair.rights.sys.inflight fp = 0 := rfl
    omega

/-- A name is given for the end, although it is connected. -/
theorem rights_left_counted : ¬∀ w, Runs Start step Allowed w → Exact w := by
  intro hall
  have hrun : Runs Start step Allowed ((pair.step (.send 0 true [2] (.dgram (some 1) (some none)) true)).getD pair) :=
    .after (.start start_pair) _ (fun so hso => by cases hso) rfl
  have hcounted := (hall _ hrun).msgcount 2 (by decide)
  exact absurd hcounted (by decide)

end World

end NetBSD.Unp
