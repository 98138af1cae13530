import NetBSD.Unp.Gc
import NetBSD.Fd.Files
import Mathlib.Data.List.Flatten
import Mathlib.Data.List.Pairwise

/-!
# Files that are closed

A file that `closef` lets go of takes the messages of its sockets with it. Whatever holds itself up, a set of files that
have other references or are in messages of the set, stays as it is.
-/

namespace NetBSD.Unp.Sys

open Fd (short)

variable {s s' : Sys} {fp so : Nat} {refs refs' msgs : Nat → Nat} {gone : Nat → Prop}

theorem short_add (x y : Int) : short (short x + y) = short (x + y) := Int.bmod_add_bmod

theorem short_sub (x y : Int) : short (short x - y) = short (x - y) := Int.bmod_sub_bmod

/-- `f_count` counts `refs` and the messages, and `f_msgcount` counts `msgs` and the messages. What is `gone` has no
reference left. -/
structure Counts (refs msgs : Nat → Nat) (gone : Nat → Prop) (s : Sys) : Prop where
  files : s.files.Nodup
  sockets : s.sockets.Nodup
  count : ∀ fp ∈ s.files, (s.file fp).fCount = short (refs fp + s.inflight fp : Nat)
  msgcount : ∀ fp ∈ s.files, (s.file fp).fMsgcount = short (msgs fp + s.inflight fp : Nat)
  small : ∀ fp ∈ s.files, refs fp + s.inflight fp ≤ 32768
  known : ∀ fp, 0 < refs fp + s.inflight fp → fp ∈ s.files
  gone : ∀ fp ∈ s.files, gone fp ↔ refs fp + s.inflight fp = 0

structure Frame (s s' : Sys) : Prop where
  files : s'.files.Sublist s.files
  link : ∀ fp, (s'.file fp).socket = (s.file fp).socket
  socket : ∀ so, s'.socket so = s.socket so ∨ s'.socket so = { s.socket so with rcv := [] }

theorem Frame.refl (s : Sys) : Frame s s := ⟨.refl _, fun _ => rfl, fun _ => .inl rfl⟩

theorem Frame.trans {s'' : Sys} (h : Frame s s') (h' : Frame s' s'') : Frame s s'' := by
  refine ⟨h'.files.trans h.files, fun fp => (h'.link fp).trans (h.link fp), fun so => ?_⟩
  rcases h'.socket so with heq' | heq' <;> rcases h.socket so with heq | heq <;> rw [heq', heq]
  · exact .inl rfl
  · exact .inr rfl
  · exact .inr rfl
  · exact .inr rfl

theorem Frame.of_same (h : Same s s') : Frame s s' :=
  ⟨h.files ▸ .refl _, h.link, fun _ => .inl (congrFun h.socket _)⟩

theorem Frame.socketsOf (h : Frame s s') : s'.socketsOf = s.socketsOf := by
  have hq : ∀ so, (s'.socket so).q = (s.socket so).q := fun so => by
    rcases h.socket so with heq | heq <;> rw [heq]
  ext fp : 1
  simp only [Sys.socketsOf, h.link, hq]

theorem Frame.held (h : Frame s s') (so : Nat) : (s'.held so).Sublist (s.held so) := by
  rcases h.socket so with heq | heq
  · rw [held_congr heq]
  · rw [Sys.held, heq]
    have hnil : unpScan ([] : List (List Mbuf)) = [] := rfl
    simp only [hnil, ite_self, List.nil_sublist]

theorem Frame.sockets (h : Frame s s') : s'.sockets.Sublist s.sockets := by
  rw [Sys.sockets, Sys.sockets, h.socketsOf]
  exact h.files.flatMap _

theorem Frame.flying (h : Frame s s') : s'.flying.Sublist s.flying :=
  (h.sockets.flatMap _).trans (List.Sublist.flatMap_right _ fun so _ => h.held so)

theorem Frame.inflight_le (h : Frame s s') (fp : Nat) : s'.inflight fp ≤ s.inflight fp := h.flying.count_le fp

theorem frame_flush (s : Sys) (so : Nat) : Frame s (s.flush so) := by
  refine ⟨.refl _, fun _ => rfl, fun so' => ?_⟩
  rcases eq_or_ne so' so with rfl | hne
  · exact .inr (socket_flush_self s so')
  · exact .inl (socket_flush_of_ne hne)

theorem frame_ffree (s : Sys) (fp : Nat) : Frame s (s.ffree fp) := ⟨List.erase_sublist, fun _ => rfl, fun _ => .inl rfl⟩

/-- Each file of `held_` has another reference, or is in a message of `held_`, outside the sockets `cut`. -/
def Supported (refs : Nat → Nat) (held_ : Nat → Prop) (cut : List Nat) (s : Sys) : Prop :=
  ∀ fp, held_ fp → fp ∈ s.files ∧
    (0 < refs fp ∨ ∃ g so, held_ g ∧ so ∈ s.socketsOf g ∧ so ∉ cut ∧ fp ∈ s.held so)

def Kept (held_ : Nat → Prop) (cut : List Nat) (s s' : Sys) : Prop :=
  ∀ fp, held_ fp → fp ∈ s'.files ∧ ∀ so ∈ s.socketsOf fp, so ∉ cut → s'.socket so = s.socket so

variable {held_ : Nat → Prop} {cut : List Nat}

theorem Kept.trans {s'' : Sys} (hf : Frame s s') (h : Kept held_ cut s s') (h' : Kept held_ cut s' s'') :
    Kept held_ cut s s'' := by
  refine fun fp hfp => ⟨(h' fp hfp).1, fun so hso hcut => ?_⟩
  exact ((h' fp hfp).2 so (hf.socketsOf ▸ hso) hcut).trans ((h fp hfp).2 so hso hcut)

theorem Supported.mono (hle : ∀ g, 0 < refs g → 0 < refs' g) (h : Supported refs held_ cut s) :
    Supported refs' held_ cut s :=
  fun fp hfp => ⟨(h fp hfp).1, (h fp hfp).2.imp_left (hle fp)⟩

theorem Supported.kept (hf : Frame s s') (h : Supported refs held_ cut s) (hkept : Kept held_ cut s s') :
    Supported refs held_ cut s' := by
  refine fun fp hfp => ⟨(hkept fp hfp).1, (h fp hfp).2.imp_right ?_⟩
  rintro ⟨g, so, hg, hso, hcut, hin⟩
  refine ⟨g, so, hg, hf.socketsOf ▸ hso, hcut, ?_⟩
  rw [held_congr ((hkept g hg).2 so hso hcut)]
  exact hin

structure Closed (refs msgs : Nat → Nat) (gone : Nat → Prop) (s s' : Sys) : Prop where
  counts : Counts refs msgs gone s'
  frame : Frame s s'
  stays : ∀ fp ∈ s.files, gone fp → fp ∈ s'.files
  kept : ∀ held_ cut, Supported refs held_ cut s → Kept held_ cut s s'

theorem Closed.refl (hc : Counts refs msgs gone s) : Closed refs msgs gone s s :=
  ⟨hc, .refl s, fun _ hfp _ => hfp, fun _ _ hsup fp hfp => ⟨(hsup fp hfp).1, fun _ _ _ => rfl⟩⟩

theorem Closed.of_same (hsame : Same s s') (hc : Counts refs msgs gone s') : Closed refs msgs gone s s' :=
  ⟨hc, .of_same hsame, fun _ hfp _ => hsame.files ▸ hfp,
    fun _ _ hsup fp hfp => ⟨hsame.files ▸ (hsup fp hfp).1, fun _ _ _ => congrFun hsame.socket _⟩⟩

theorem Closed.trans {msgs' : Nat → Nat} {s'' : Sys} (hle : ∀ g, 0 < refs g → 0 < refs' g)
    (h : Closed refs' msgs' gone s s') (h' : Closed refs msgs gone s' s'') : Closed refs msgs gone s s'' := by
  refine ⟨h'.counts, h.frame.trans h'.frame, fun fp hfp hgone => h'.stays fp (h.stays fp hfp hgone) hgone,
    fun held_ cut hsup => ?_⟩
  have hkept := h.kept held_ cut (hsup.mono hle)
  exact hkept.trans h.frame (h'.kept held_ cut (hsup.kept h.frame hkept))

theorem Counts.mem (hc : Counts refs msgs gone s) (hpos : 0 < refs fp) : fp ∈ s.files :=
  hc.known fp (Nat.add_pos_left hpos _)

theorem Counts.setFile {msgs' : Nat → Nat} {gone' : Nat → Prop} {f : File → File} (hc : Counts refs msgs gone s)
    (hmem : fp ∈ s.files) (hlink : ∀ x, (f x).socket = x.socket) (hrefs : ∀ g, g ≠ fp → refs' g = refs g)
    (hmsgs : ∀ g, g ≠ fp → msgs' g = msgs g) (hgone : ∀ g, g ≠ fp → (gone' g ↔ gone g))
    (hcount : (f (s.file fp)).fCount = short (refs' fp + s.inflight fp : Nat))
    (hmsgcount : (f (s.file fp)).fMsgcount = short (msgs' fp + s.inflight fp : Nat))
    (hsmall : refs' fp + s.inflight fp ≤ 32768) (hzero : gone' fp ↔ refs' fp + s.inflight fp = 0) :
    Counts refs' msgs' gone' (s.setFile fp f) := by
  have hsame := same_setFile s fp hlink
  refine ⟨hc.files, hsame.sockets ▸ hc.sockets, fun g hg => ?_, fun g hg => ?_, fun g hg => ?_, fun g hg => ?_,
    fun g hg => ?_⟩ <;> rw [hsame.inflight] at * <;> rcases eq_or_ne g fp with rfl | hne
  · rw [file_setFile_self, hcount]
  · rw [file_setFile_of_ne hne, hrefs g hne, hc.count g hg]
  · rw [file_setFile_self, hmsgcount]
  · rw [file_setFile_of_ne hne, hmsgs g hne, hc.msgcount g hg]
  · exact hsmall
  · rw [hrefs g hne]
    exact hc.small g hg
  · exact hmem
  · rw [hrefs g hne] at hg
    exact hc.known g hg
  · exact hzero
  · rw [hrefs g hne, hgone g hne]
    exact hc.gone g hg

theorem Counts.of_eq {msgs' : Nat → Nat} (hc : Counts refs msgs gone s) (hrefs : ∀ g, refs' g = refs g)
    (hmsgs : ∀ g, msgs' g = msgs g) : Counts refs' msgs' gone s :=
  (funext hrefs : refs' = refs) ▸ (funext hmsgs : msgs' = msgs) ▸ hc

theorem Counts.flush (hc : Counts refs msgs gone s) (hso : so ∈ s.sockets) :
    Counts (fun g => refs g + (s.held so).count g) (fun g => msgs g + (s.held so).count g) gone (s.flush so) := by
  have hsum : ∀ g, s.inflight g = (s.held so).count g + (s.flush so).inflight g := fun g =>
    ((perm_flush hc.sockets hso).count_eq g).trans List.count_append
  have hmove : ∀ g n, n + (s.held so).count g + (s.flush so).inflight g = n + s.inflight g := fun g n => by
    rw [hsum g, Nat.add_assoc]
  refine ⟨hc.files, sockets_flush s so ▸ hc.sockets, fun g hg => ?_, fun g hg => ?_, fun g hg => ?_, fun g hg => ?_,
    fun g hg => ?_⟩
  · rw [hmove]
    exact hc.count g hg
  · rw [hmove]
    exact hc.msgcount g hg
  · rw [hmove]
    exact hc.small g hg
  · rw [hmove] at hg
    exact hc.known g hg
  · rw [hmove]
    exact hc.gone g hg

theorem Counts.ffree (hc : Counts refs msgs (fun g => gone g ∨ g = fp) s) (hmem : fp ∈ s.files)
    (hzero : refs fp + s.inflight fp = 0) (hempty : ∀ so ∈ s.socketsOf fp, s.held so = []) :
    Counts refs msgs gone (s.ffree fp) := by
  have hperm := perm_ffree hmem
  rw [List.flatMap_eq_nil_iff.2 hempty, List.nil_append] at hperm
  have hinflight : ∀ g, (s.ffree fp).inflight g = s.inflight g := fun g => (hperm.count_eq g).symm
  have hmemErase : ∀ g, g ∈ (s.ffree fp).files → g ≠ fp ∧ g ∈ s.files := fun g hg => hc.files.mem_erase_iff.1 hg
  refine ⟨hc.files.erase fp, hc.sockets.sublist (frame_ffree s fp).sockets, fun g hg => ?_, fun g hg => ?_,
    fun g hg => ?_, fun g hg => ?_, fun g hg => ?_⟩ <;> rw [hinflight] at *
  · exact hc.count g (hmemErase g hg).2
  · exact hc.msgcount g (hmemErase g hg).2
  · exact hc.small g (hmemErase g hg).2
  · refine hc.files.mem_erase_iff.2 ⟨?_, hc.known g hg⟩
    rintro rfl
    omega
  · rw [← hc.gone g (hmemErase g hg).2, or_iff_left (hmemErase g hg).1]

def one (fp : Nat) : Nat → Nat := Pi.single fp 1

def Closes (close : Nat → Sys → Option Sys) (bound : Nat) : Prop :=
  ∀ refs msgs gone fp s, Counts (refs + one fp) msgs gone s → s.flying.length < bound →
    ∃ s', close fp s = some s' ∧ Closed refs msgs gone s s'

variable {close : Nat → Sys → Option Sys} {bound : Nat}

theorem add_one_eq (refs : Nat → Nat) (fp g : Nat) (l : List Nat) :
    refs g + (fp :: l).count g = ((fun g => refs g + l.count g) + one fp) g := by
  rw [Pi.add_apply, one, Pi.single_apply, List.count_cons, Nat.add_assoc]
  simp only [beq_iff_eq, eq_comm (a := g)]

theorem Counts.taken (hc : Counts refs (msgs + one fp) gone s) (hmem : fp ∈ s.files) :
    Counts refs msgs gone (s.setFile fp fun f => { f with fMsgcount := short (f.fMsgcount - 1) }) := by
  refine hc.setFile hmem (fun _ => rfl) (fun _ _ => rfl) (fun g hne => ?_) (fun _ _ => .rfl) (hc.count fp hmem) ?_
    (hc.small fp hmem) (hc.gone fp hmem)
  · rw [Pi.add_apply, one, Pi.single_eq_of_ne hne, Nat.add_zero]
  · have hsum : (msgs + one fp) fp + s.inflight fp = msgs fp + s.inflight fp + 1 := by
      rw [Pi.add_apply, one, Pi.single_eq_same, Nat.add_right_comm]
    dsimp only
    rw [hc.msgcount fp hmem, short_sub, hsum, Int.natCast_add, Int.natCast_one, Int.add_sub_cancel]

theorem Counts.discarded (hc : Counts (refs + one fp) (msgs + one fp) gone s) :
    Counts (refs + one fp) msgs gone (s.setFile fp fun f => { f with fMsgcount := short (f.fMsgcount - 1) }) :=
  hc.taken (hc.mem (by rw [Pi.add_apply, one, Pi.single_eq_same]; omega))

theorem unpDiscard_spec (hclose : Closes close bound) (hc : Counts (refs + one fp) (msgs + one fp) gone s)
    (hbound : s.flying.length < bound) : ∃ s', s.unpDiscard close fp = some s' ∧ Closed refs msgs gone s s' := by
  have hsame := same_setFile s fp (f := fun f => { f with fMsgcount := short (f.fMsgcount - 1) }) fun _ => rfl
  have hc' := hc.discarded
  obtain ⟨s', hs', hcl⟩ := hclose refs msgs gone fp _ hc' (hsame.flying ▸ hbound)
  refine ⟨s', hs', hcl.counts, (Frame.of_same hsame).trans hcl.frame, hcl.stays, fun held_ cut hsup => ?_⟩
  have hsup' : Supported refs held_ cut (s.setFile fp fun f => { f with fMsgcount := short (f.fMsgcount - 1) }) := by
    intro g hg
    rw [hsame.socketsOf, hsame.held]
    exact hsup g hg
  intro g hg
  have hkept := hcl.kept held_ cut hsup' g hg
  rw [hsame.socketsOf] at hkept
  exact hkept

theorem foldlM_unpDiscard {fps : List Nat} (hclose : Closes close bound)
    (hc : Counts (fun g => refs g + fps.count g) (fun g => msgs g + fps.count g) gone s)
    (hbound : s.flying.length < bound) :
    ∃ s', fps.foldlM (fun s fp => unpDiscard s close fp) s = some s' ∧ Closed refs msgs gone s s' := by
  induction fps generalizing s with
  | nil => exact ⟨s, rfl, .refl (hc.of_eq (fun _ => rfl) fun _ => rfl)⟩
  | cons fp fps ih =>
    have hc₀ := hc.of_eq (fun g => (add_one_eq refs fp g fps).symm) fun g => (add_one_eq msgs fp g fps).symm
    obtain ⟨s₁, hs₁, hcl₁⟩ := unpDiscard_spec hclose hc₀ hbound
    obtain ⟨s₂, hs₂, hcl₂⟩ := ih hcl₁.counts (Nat.lt_of_le_of_lt hcl₁.frame.flying.length_le hbound)
    refine ⟨s₂, ?_, hcl₁.trans (fun g hg => Nat.add_pos_left hg _) hcl₂⟩
    rw [List.foldlM_cons, hs₁]
    exact hs₂

structure Flushed (refs msgs : Nat → Nat) (gone : Nat → Prop) (sos : List Nat) (s s' : Sys) : Prop where
  counts : Counts refs msgs gone s'
  frame : Frame s s'
  stays : ∀ fp ∈ s.files, gone fp → fp ∈ s'.files
  empty : ∀ so ∈ sos, s'.held so = []
  kept : ∀ held_ cut, sos ⊆ cut → Supported refs held_ cut s → Kept held_ cut s s'

theorem sorflush_spec (hclose : Closes close bound) (hc : Counts refs msgs gone s) (hso : so ∈ s.sockets)
    (hbound : s.flying.length ≤ bound) : ∃ s', s.sorflush close so = some s' ∧ Flushed refs msgs gone [so] s s' := by
  have hc' := hc.flush hso
  obtain ⟨s', hs', hcl⟩ : ∃ s', (s.held so).foldlM (fun s fp => unpDiscard s close fp) (s.flush so) = some s' ∧
      Closed refs msgs gone (s.flush so) s' := by
    by_cases hnil : s.held so = []
    · rw [hnil] at hc' ⊢
      exact ⟨_, rfl, .refl (hc'.of_eq (fun _ => rfl) fun _ => rfl)⟩
    · refine foldlM_unpDiscard hclose hc' ?_
      have hlen := (perm_flush hc.sockets hso).length_eq
      rw [List.length_append] at hlen
      have := List.length_pos_iff.2 hnil
      omega
  refine ⟨s', hs', hcl.counts, (frame_flush s so).trans hcl.frame, hcl.stays, fun so' hso' => ?_,
    fun held_ cut hcut hsup => ?_⟩
  · rw [List.mem_singleton.1 hso']
    exact List.eq_nil_of_sublist_nil (held_flush_self s so ▸ hcl.frame.held so)
  · have hne : ∀ so', so' ∉ cut → so' ≠ so := by
      rintro so' hcut' rfl
      exact hcut' (hcut List.mem_cons_self)
    have hsup' : Supported refs held_ cut (s.flush so) := by
      refine fun g hg => ⟨(hsup g hg).1, (hsup g hg).2.imp_right ?_⟩
      rintro ⟨h, so', hh, hso', hcut', hin⟩
      refine ⟨h, so', hh, socketsOf_flush s so ▸ hso', hcut', ?_⟩
      rw [held_congr (socket_flush_of_ne (hne so' hcut'))]
      exact hin
    refine fun g hg => ⟨(hcl.kept held_ cut hsup' g hg).1, fun so' hso' hcut' => ?_⟩
    have hkept := (hcl.kept held_ cut hsup' g hg).2 so' (socketsOf_flush s so ▸ hso') hcut'
    exact hkept.trans (socket_flush_of_ne (hne so' hcut'))

theorem Flushed.sockets_left {so : Nat} {sos : List Nat} (hf : Flushed refs msgs gone [so] s s')
    (hsos : ∀ so' ∈ so :: sos, ∃ fp ∈ s.files, so' ∈ s.socketsOf fp ∧ (gone fp ∨ 0 < refs fp)) :
    ∀ so' ∈ sos, ∃ fp ∈ s'.files, so' ∈ s'.socketsOf fp ∧ (gone fp ∨ 0 < refs fp) := by
  intro so' hso
  obtain ⟨fp, hfp, hso', hwhy⟩ := hsos so' (List.mem_cons_of_mem _ hso)
  refine ⟨fp, ?_, hf.frame.socketsOf ▸ hso', hwhy⟩
  rcases hwhy with hgone | hpos
  · exact hf.stays fp hfp hgone
  · exact hf.counts.mem hpos

theorem foldlM_sorflush {sos : List Nat} (hclose : Closes close bound) (hc : Counts refs msgs gone s)
    (hsos : ∀ so ∈ sos, ∃ fp ∈ s.files, so ∈ s.socketsOf fp ∧ (gone fp ∨ 0 < refs fp))
    (hbound : s.flying.length ≤ bound) :
    ∃ s', sos.foldlM (fun s so => sorflush s close so) s = some s' ∧ Flushed refs msgs gone sos s s' := by
  induction sos generalizing s with
  | nil =>
    exact ⟨s, rfl, hc, .refl s, fun _ hfp _ => hfp, fun _ hso => absurd hso List.not_mem_nil,
      fun _ _ _ hsup fp hfp => ⟨(hsup fp hfp).1, fun _ _ _ => rfl⟩⟩
  | cons so sos ih =>
    obtain ⟨fp, hfp, hso, -⟩ := hsos so List.mem_cons_self
    obtain ⟨s₁, hs₁, hf₁⟩ := sorflush_spec hclose hc (List.mem_flatMap.2 ⟨fp, hfp, hso⟩) hbound
    obtain ⟨s₂, hs₂, hf₂⟩ := ih hf₁.counts (hf₁.sockets_left hsos) (hf₁.frame.flying.length_le.trans hbound)
    refine ⟨s₂, ?_, hf₂.counts, hf₁.frame.trans hf₂.frame, fun fp hfp hgone => hf₂.stays fp (hf₁.stays fp hfp hgone) hgone,
      fun so' hso' => ?_, fun held_ cut hcut hsup => ?_⟩
    · rw [List.foldlM_cons, hs₁]
      exact hs₂
    · rcases List.mem_cons.1 hso' with rfl | hin
      · have hsub := hf₂.frame.held so'
        rw [hf₁.empty so' List.mem_cons_self] at hsub
        exact List.eq_nil_of_sublist_nil hsub
      · exact hf₂.empty so' hin
    · have hkept := hf₁.kept held_ cut (List.cons_subset.2 ⟨hcut List.mem_cons_self, List.nil_subset _⟩) hsup
      have hsup' := hsup.kept hf₁.frame hkept
      exact hkept.trans hf₁.frame (hf₂.kept held_ cut (fun _ h => hcut (List.mem_cons_of_mem _ h)) hsup')

theorem owner_unique {g : Nat} (hc : Counts refs msgs gone s) (hfp : fp ∈ s.files) (hg : g ∈ s.files)
    (hso : so ∈ s.socketsOf fp) (hso' : so ∈ s.socketsOf g) : fp = g := by
  have hdisj := (List.nodup_flatMap.1 hc.sockets).2
  have hsymm : Std.Symm (Function.onFun List.Disjoint s.socketsOf) := ⟨fun _ _ h => h.symm⟩
  by_contra hne
  exact hdisj.forall hfp hg hne hso hso'

theorem closeSockets_spec (hclose : Closes close bound) (hc : Counts refs msgs gone s) (hfp : fp ∈ s.files)
    (hgone : gone fp) (hbound : s.flying.length ≤ bound) :
    ∃ s', (match (s.file fp).socket with
      | none => some (s.ffree fp)
      | some so => (s.soclose close so).map fun s => s.ffree fp) = some (s'.ffree fp) ∧
      Flushed refs msgs gone (s.socketsOf fp) s s' := by
  cases hsocket : (s.file fp).socket with
  | none =>
    have hnil : s.socketsOf fp = [] := by
      rw [socketsOf, hsocket]
    refine ⟨s, rfl, hc, .refl s, fun _ hfp _ => hfp, fun _ hso => ?_, fun _ _ _ hsup fp hfp => ⟨(hsup fp hfp).1, fun _ _ _ => rfl⟩⟩
    rw [hnil] at hso
    exact absurd hso List.not_mem_nil
  | some so =>
    have hsockets : (s.socket so).q ++ [so] = s.socketsOf fp := by
      rw [socketsOf, hsocket]
    obtain ⟨s', hs', hf⟩ := foldlM_sorflush hclose hc (fun so hso => ⟨fp, hfp, hso, .inl hgone⟩) hbound
    refine ⟨s', ?_, hf⟩
    dsimp only
    rw [soclose, hsockets, hs']
    rfl

theorem Counts.lowered (hc : Counts (refs + one fp) msgs gone s) :
    fp ∈ s.files ∧ ¬gone fp ∧
      ((s.setFile fp fun f => { f with fCount := short (f.fCount - 1) }).file fp).fCount = (refs fp + s.inflight fp : Nat) ∧
        ∀ gone' : Nat → Prop, (∀ g, g ≠ fp → (gone' g ↔ gone g)) → (gone' fp ↔ refs fp + s.inflight fp = 0) →
          Counts refs msgs gone' (s.setFile fp fun f => { f with fCount := short (f.fCount - 1) }) := by
  have hone : (refs + one fp) fp + s.inflight fp = refs fp + s.inflight fp + 1 := by
    rw [Pi.add_apply, one, Pi.single_eq_same, Nat.add_right_comm]
  have hmem : fp ∈ s.files := hc.known fp (by rw [hone]; exact Nat.succ_pos _)
  have hsmall := hc.small fp hmem
  rw [hone] at hsmall
  have hcount : short ((s.file fp).fCount - 1) = (refs fp + s.inflight fp : Nat) := by
    rw [hc.count fp hmem, hone, short_sub, Int.natCast_add, Int.natCast_one, Int.add_sub_cancel]
    exact Fd.Sys.short_eq (by omega)
  refine ⟨hmem, ?_, (congrArg File.fCount (file_setFile_self s fp _)).trans hcount, fun gone' hother hzero => ?_⟩
  · rw [hc.gone fp hmem, hone]
    exact Nat.succ_ne_zero _
  · refine hc.setFile hmem (fun _ => rfl) (fun g hne => ?_) (fun _ _ => rfl) hother ?_ (hc.msgcount fp hmem) (by omega) hzero
    · rw [Pi.add_apply, one, Pi.single_eq_of_ne hne, Nat.add_zero]
    · dsimp only
      rw [hcount, Fd.Sys.short_eq (by omega)]

theorem closes_closef (fuel : Nat) : Closes (closef fuel) fuel := by
  induction fuel with
  | zero => exact fun _ _ _ _ _ _ hbound => absurd hbound (Nat.not_lt_zero _)
  | succ fuel ih =>
    intro refs msgs gone fp s hc hbound
    obtain ⟨hmem, hlive, hself, hcounts⟩ := hc.lowered
    have hsame := same_setFile s fp (f := fun f => { f with fCount := short (f.fCount - 1) }) fun _ => rfl
    unfold closef
    generalize (s.setFile fp fun f => { f with fCount := short (f.fCount - 1) }) = s₁ at *
    dsimp only
    rw [hself]
    split
    · next hpos =>
      have hpos' : ¬ refs fp + s.inflight fp = 0 := by omega
      exact ⟨s₁, rfl, .of_same hsame (hcounts gone (fun _ _ => .rfl) (iff_of_false hlive hpos'))⟩
    next hpos =>
    rw [if_neg (by omega)]
    have hzero : refs fp + s.inflight fp = 0 := by omega
    have hc₁ := hcounts (fun g => gone g ∨ g = fp) (fun g hne => or_iff_left hne) (iff_of_true (.inr rfl) hzero)
    have hmem₁ : fp ∈ s₁.files := hsame.files ▸ hmem
    obtain ⟨s₂, hs₂, hf₂⟩ := closeSockets_spec ih hc₁ hmem₁ (.inr rfl) (by rw [hsame.flying]; omega)
    have hnone : refs fp + s₂.inflight fp = 0 := by
      have := hf₂.frame.inflight_le fp
      rw [hsame.inflight] at this
      omega
    have hframe := (Frame.of_same hsame).trans hf₂.frame
    have hempty : ∀ so ∈ s₂.socketsOf fp, s₂.held so = [] := fun so hso => hf₂.empty so (hf₂.frame.socketsOf ▸ hso)
    refine ⟨s₂.ffree fp, hs₂, hf₂.counts.ffree (hf₂.stays fp hmem₁ (.inr rfl)) hnone hempty,
      hframe.trans (frame_ffree s₂ fp), fun g hg hgone => ?_, fun held_ cut hsup => ?_⟩
    · have hne : g ≠ fp := by
        rintro rfl
        exact hlive hgone
      exact (hf₂.counts.files.mem_erase_iff).2 ⟨hne, hf₂.stays g (hsame.files ▸ hg) (.inl hgone)⟩
    · have hfp : ¬ held_ fp := by
        intro hin
        rcases (hsup fp hin).2 with hpos | ⟨g, so, hg, hso, -, hheld⟩
        · omega
        · have := List.count_pos_iff.2 (List.mem_flatMap.2 ⟨so, List.mem_flatMap.2 ⟨g, (hsup g hg).1, hso⟩, hheld⟩)
          change 0 < s.inflight fp at this
          omega
      have hapart : ∀ g so, held_ g → so ∈ s.socketsOf g → so ∉ s₁.socketsOf fp := by
        intro g so hg hso hso'
        rw [hsame.socketsOf] at hso'
        exact hfp (owner_unique hc (hsup g hg).1 hmem hso hso' ▸ hg)
      have hsup₁ : Supported refs held_ (s₁.socketsOf fp ++ cut) s₁ := by
        intro g hg
        refine ⟨hsame.files ▸ (hsup g hg).1, (hsup g hg).2.imp_right ?_⟩
        rintro ⟨h, so, hh, hso, hcut, hheld⟩
        refine ⟨h, so, hh, hsame.socketsOf ▸ hso, ?_, hsame.held ▸ hheld⟩
        exact List.mem_append.not.2 (not_or.2 ⟨hapart h so hh hso, hcut⟩)
      intro g hg
      obtain ⟨hin, hsockets⟩ := hf₂.kept held_ _ (List.subset_append_left ..) hsup₁ g hg
      refine ⟨hf₂.counts.files.mem_erase_iff.2 ⟨?_, hin⟩, fun so hso hcut => ?_⟩
      · rintro rfl
        exact hfp hg
      · exact (hsockets so (hsame.socketsOf ▸ hso) (List.mem_append.not.2 (not_or.2 ⟨hapart g so hg hso, hcut⟩))).trans
          (congrFun hsame.socket so)

theorem close_spec (hc : Counts (refs + one fp) msgs gone s) :
    ∃ s', s.close fp = some s' ∧ Closed refs msgs gone s s' :=
  closes_closef _ refs msgs gone fp s hc (Nat.lt_succ_self _)

theorem closes_close (bound : Nat) : Closes Sys.close bound := fun _ _ _ _ _ hc _ => close_spec hc

end NetBSD.Unp.Sys
