import NetBSD.Mbuf.Chain
import Mathlib.Data.List.Nodup
import Mathlib.Logic.Function.Basic
import Mathlib.Tactic.Tauto

/-!
# Raw IP input

`rip_input` of `raw_ip.c` gives a datagram to the sockets on its list of control blocks: a copy to each but the last, which gets
the datagram itself. What `sbappendaddr` makes of a receive buffer, and for which sockets `m_copy` finds mbufs, is left open.
-/

namespace NetBSD.Ip

open Function (update update_self update_of_ne)

structure Rawinpcb where
  ipP : Byte := 0
  inpLaddr : Word32 := 0
  inpFaddr : Word32 := 0
  inpSocket : Nat
  deriving DecidableEq

structure RawDatagram where
  ipP : Byte
  ipSrc : Word32
  ipDst : Word32
  data : List Byte
  deriving DecidableEq

structure RawEnv (ρ : Type) where
  sbappendaddr : ρ → Word32 → RawDatagram → Option ρ
  mcopy : Nat → Bool

structure RawState (ρ : Type) where
  rcv : Nat → ρ
  woken : List Nat := []
  ipsNoproto : Nat := 0
  ipsDelivered : Int := 0

def Rawinpcb.Skips (inp : Rawinpcb) (m : RawDatagram) : Prop :=
  (inp.ipP ≠ 0 ∧ inp.ipP ≠ m.ipP) ∨ (inp.inpLaddr ≠ 0 ∧ inp.inpLaddr = m.ipDst) ∨ (inp.inpFaddr ≠ 0 ∧ inp.inpFaddr = m.ipSrc)

instance (inp : Rawinpcb) (m : RawDatagram) : Decidable (inp.Skips m) := inferInstanceAs (Decidable (_ ∨ _ ∨ _))

variable {ρ : Type}

def ripAppend (env : RawEnv ρ) (m : RawDatagram) (last : Nat) (s : RawState ρ) : RawState ρ :=
  match env.sbappendaddr (s.rcv last) m.ipSrc m with
  | none => s
  | some r => { s with rcv := update s.rcv last r, woken := last :: s.woken }

def ripLoop (env : RawEnv ρ) (m : RawDatagram) : List Rawinpcb → Option Nat → RawState ρ → Option Nat × RawState ρ
  | [], last, s => (last, s)
  | inp :: rest, last, s =>
    if inp.Skips m then ripLoop env m rest last s
    else ripLoop env m rest (some inp.inpSocket) <| match last with
      | none => s
      | some last => if env.mcopy last then ripAppend env m last s else s

def ripInput (env : RawEnv ρ) (rawinpcb : List Rawinpcb) (m : RawDatagram) (s : RawState ρ) : RawState ρ :=
  match ripLoop env m rawinpcb none s with
  | (some last, s) => ripAppend env m last s
  | (none, s) => { s with ipsNoproto := s.ipsNoproto + 1, ipsDelivered := s.ipsDelivered - 1 }

def Rawinpcb.Wants (inp : Rawinpcb) (m : RawDatagram) : Prop :=
  (inp.ipP = 0 ∨ inp.ipP = m.ipP) ∧ (inp.inpLaddr = 0 ∨ inp.inpLaddr = m.ipDst) ∧ (inp.inpFaddr = 0 ∨ inp.inpFaddr = m.ipSrc)

def RawEnv.added (env : RawEnv ρ) (m : RawDatagram) (r : ρ) : ρ := (env.sbappendaddr r m.ipSrc m).getD r

/-- Whatever the mbuf routines answer, the sockets that are to get the datagram get it once, unless there is no copy for them, and
the others do not. -/
def Delivers (rawinpcb : List Rawinpcb) (m : RawDatagram) : Prop :=
  ∀ (ρ : Type) (env : RawEnv ρ) (s : RawState ρ), ∀ inp ∈ rawinpcb,
    (inp.Wants m →
      (env.mcopy inp.inpSocket → (ripInput env rawinpcb m s).rcv inp.inpSocket = env.added m (s.rcv inp.inpSocket)) ∧
      ((ripInput env rawinpcb m s).rcv inp.inpSocket = env.added m (s.rcv inp.inpSocket) ∨
        (ripInput env rawinpcb m s).rcv inp.inpSocket = s.rcv inp.inpSocket)) ∧
    (¬inp.Wants m → (ripInput env rawinpcb m s).rcv inp.inpSocket = s.rcv inp.inpSocket)

def Rawinpcb.Even (inp : Rawinpcb) (m : RawDatagram) : Prop :=
  inp.ipP = 0 ∨ inp.ipP = m.ipP →
    (inp.inpLaddr = 0 ∧ inp.inpFaddr = 0) ∨
      (inp.inpLaddr ≠ 0 ∧ inp.inpFaddr ≠ 0 ∧ (inp.inpLaddr = m.ipDst ↔ inp.inpFaddr ≠ m.ipSrc))

variable {env : RawEnv ρ} {m : RawDatagram} {s : RawState ρ} {inp : Rawinpcb} {rawinpcb : List Rawinpcb} {so so' : Nat}
  {sockets : List Nat}

theorem even_iff : inp.Even m ↔ (inp.Wants m ↔ ¬inp.Skips m) := by
  unfold Rawinpcb.Even Rawinpcb.Wants Rawinpcb.Skips
  tauto

theorem rcv_ripAppend_self : (ripAppend env m so s).rcv so = env.added m (s.rcv so) := by
  unfold ripAppend RawEnv.added
  cases env.sbappendaddr (s.rcv so) m.ipSrc m with
  | none => rfl
  | some r => exact update_self ..

theorem rcv_ripAppend_of_ne (h : so' ≠ so) : (ripAppend env m so s).rcv so' = s.rcv so' := by
  unfold ripAppend
  cases env.sbappendaddr (s.rcv so) m.ipSrc m with
  | none => rfl
  | some r => exact update_of_ne h ..

def giveAll (env : RawEnv ρ) (m : RawDatagram) : List Nat → RawState ρ → RawState ρ
  | [], s => s
  | [so], s => ripAppend env m so s
  | so :: so' :: rest, s => giveAll env m (so' :: rest) (if env.mcopy so then ripAppend env m so s else s)

theorem rcv_giveAll_of_not_mem (h : so ∉ sockets) : (giveAll env m sockets s).rcv so = s.rcv so := by
  induction sockets generalizing s with
  | nil => rfl
  | cons first rest ih =>
    obtain ⟨hne, hrest⟩ := not_or.1 (List.mem_cons.not.1 h)
    cases rest with
    | nil => exact rcv_ripAppend_of_ne hne
    | cons second rest =>
      rw [giveAll, ih hrest]
      split
      · exact rcv_ripAppend_of_ne hne
      · rfl

theorem rcv_giveAll_of_mem (hnodup : sockets.Nodup) (h : so ∈ sockets) :
    (env.mcopy so → (giveAll env m sockets s).rcv so = env.added m (s.rcv so)) ∧
      ((giveAll env m sockets s).rcv so = env.added m (s.rcv so) ∨ (giveAll env m sockets s).rcv so = s.rcv so) := by
  induction sockets generalizing s with
  | nil => exact absurd h List.not_mem_nil
  | cons first rest ih =>
    obtain ⟨hfirst, hrest⟩ := List.nodup_cons.1 hnodup
    cases rest with
    | nil =>
      obtain rfl := List.mem_singleton.1 h
      exact ⟨fun _ => rcv_ripAppend_self, .inl rcv_ripAppend_self⟩
    | cons second rest =>
      rw [giveAll]
      obtain rfl | hmem := List.mem_cons.1 h
      · rw [rcv_giveAll_of_not_mem hfirst]
        by_cases hcopy : env.mcopy so
        · rw [if_pos hcopy]
          exact ⟨fun _ => rcv_ripAppend_self, .inl rcv_ripAppend_self⟩
        · rw [if_neg hcopy]
          exact ⟨fun hc => absurd hc hcopy, .inr rfl⟩
      · have hsame : (if env.mcopy first then ripAppend env m first s else s).rcv so = s.rcv so := by
          have hne : so ≠ first := fun heq => hfirst (heq ▸ hmem)
          split
          · exact rcv_ripAppend_of_ne hne
          · rfl
        rw [← hsame]
        exact ih hrest hmem

def selected (rawinpcb : List Rawinpcb) (m : RawDatagram) : List Nat :=
  (rawinpcb.filter fun inp => ¬inp.Skips m).map Rawinpcb.inpSocket

theorem selected_of_skips (h : inp.Skips m) : selected (inp :: rawinpcb) m = selected rawinpcb m :=
  congrArg (List.map _) (List.filter_cons_of_neg (by simpa using h))

theorem selected_of_not_skips (h : ¬inp.Skips m) : selected (inp :: rawinpcb) m = inp.inpSocket :: selected rawinpcb m :=
  congrArg (List.map _) (List.filter_cons_of_pos (by simpa using h))

theorem ripLoop_some (env : RawEnv ρ) (m : RawDatagram) (rawinpcb : List Rawinpcb) (last : Nat) (s : RawState ρ) :
    ∃ last' s', ripLoop env m rawinpcb (some last) s = (some last', s') ∧
      ripAppend env m last' s' = giveAll env m (last :: selected rawinpcb m) s := by
  induction rawinpcb generalizing last s with
  | nil => exact ⟨last, s, rfl, rfl⟩
  | cons inp rest ih =>
    rw [ripLoop]
    by_cases hskip : inp.Skips m
    · rw [if_pos hskip, selected_of_skips hskip]
      exact ih last s
    · rw [if_neg hskip, selected_of_not_skips hskip]
      exact ih inp.inpSocket _

theorem rcv_ripInput : (ripInput env rawinpcb m s).rcv = (giveAll env m (selected rawinpcb m) s).rcv := by
  induction rawinpcb with
  | nil => rfl
  | cons inp rest ih =>
    rw [ripInput, ripLoop]
    by_cases hskip : inp.Skips m
    · rw [if_pos hskip, selected_of_skips hskip]
      exact ih
    · rw [if_neg hskip, selected_of_not_skips hskip]
      obtain ⟨last, s', hloop, hgive⟩ := ripLoop_some env m rest inp.inpSocket s
      rw [hloop]
      exact congrArg RawState.rcv hgive

theorem mem_selected (hnodup : (rawinpcb.map Rawinpcb.inpSocket).Nodup) (hinp : inp ∈ rawinpcb) :
    inp.inpSocket ∈ selected rawinpcb m ↔ ¬inp.Skips m := by
  unfold selected
  simp only [List.mem_map, List.mem_filter, decide_eq_true_eq]
  constructor
  · rintro ⟨t, ⟨ht, hskip⟩, heq⟩
    obtain rfl := List.inj_on_of_nodup_map hnodup ht hinp heq
    exact hskip
  · exact fun hskip => ⟨inp, ⟨hinp, hskip⟩, rfl⟩

theorem selected_nodup (hnodup : (rawinpcb.map Rawinpcb.inpSocket).Nodup) : (selected rawinpcb m).Nodup :=
  hnodup.sublist (List.filter_sublist.map _)

def countingEnv : RawEnv Nat where
  sbappendaddr n _ _ := some (n + 1)
  mcopy _ := true

/-- **`rip_input` delivers** exactly when the addresses of every block for the protocol are even. -/
theorem ripInput_delivers_iff (rawinpcb : List Rawinpcb) (hnodup : (rawinpcb.map Rawinpcb.inpSocket).Nodup) (m : RawDatagram) :
    Delivers rawinpcb m ↔ ∀ inp ∈ rawinpcb, inp.Even m := by
  constructor
  · intro h inp hinp
    obtain ⟨hwants, hnot⟩ := h Nat countingEnv { rcv := fun _ => 0 } inp hinp
    rw [rcv_ripInput] at hwants hnot
    rw [even_iff]
    constructor
    · intro hw hskip
      have hadded := (hwants hw).1 rfl
      rw [rcv_giveAll_of_not_mem ((mem_selected hnodup hinp).not.2 (not_not.2 hskip))] at hadded
      cases hadded
    · intro hskip
      by_contra hw
      have hadded : (giveAll countingEnv m (selected rawinpcb m) { rcv := fun _ => 0 }).rcv inp.inpSocket = 1 :=
        (rcv_giveAll_of_mem (selected_nodup hnodup) ((mem_selected hnodup hinp).2 hskip)).1 rfl
      cases hadded.symm.trans (hnot hw)
  · intro heven ρ env s inp hinp
    have hiff := even_iff.1 (heven inp hinp)
    rw [rcv_ripInput]
    refine ⟨fun hw => rcv_giveAll_of_mem (selected_nodup hnodup) ((mem_selected hnodup hinp).2 (hiff.1 hw)), fun hw => ?_⟩
    exact rcv_giveAll_of_not_mem ((mem_selected hnodup hinp).not.2 fun hskip => hw (hiff.2 hskip))

def anyone : Rawinpcb := { inpSocket := 1 }

def bound : Rawinpcb := { inpLaddr := 0x0a000001, inpSocket := 2 }

def ping : RawDatagram := { ipP := 1, ipSrc := 0x0a000002, ipDst := 0x0a000001, data := [8, 0] }

theorem ripInput_delivers_iff_anyone : Delivers [anyone] ping ↔ ∀ inp ∈ [anyone], inp.Even ping :=
  ripInput_delivers_iff [anyone] (List.nodup_singleton _) ping

theorem bound_not_delivered : ([anyone, bound].map Rawinpcb.inpSocket).Nodup ∧ ¬Delivers [anyone, bound] ping := by
  refine ⟨by decide, fun h => ?_⟩
  have hadded := ((h Nat countingEnv { rcv := fun _ => 0 } bound (by simp)).1 ⟨.inl rfl, .inr rfl, .inl rfl⟩).1 rfl
  exact absurd hadded (by decide)

end NetBSD.Ip
