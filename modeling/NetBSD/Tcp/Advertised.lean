import NetBSD.Tcp.Options
import NetBSD.Lib.Wrapping
import NetBSD.Lib.Runs
import Mathlib.Tactic.Linarith
import Mathlib.Tactic.Positivity

/-!
# The window that is advertised

What `tcp_output` says of the receive window in the segments of a connection, and where the peer then sees its right edge.
-/

namespace NetBSD.Tcp

open NetBSD.Lib

def tcpMaxwin : Int := 65535

/-- A segment that has been sent: `ti_ack` and `ti_win`, the scale its window goes by, and the position of `ti_ack` in the
stream. -/
structure Sent where
  tiAck : TcpSeq
  tiWin : Word16
  scale : Nat
  ack : Int
  deriving DecidableEq

def Sent.edge (seg : Sent) : Int := seg.ack + seg.tiWin.toNat * 2 ^ seg.scale

/-- The receiving half of a connection. `pos` is the position of `rcv_nxt` in the stream, `sent` what has been sent, the last
segment first. -/
structure Advertiser where
  irs : TcpSeq
  rcvNxt : TcpSeq
  rcvAdv : TcpSeq
  rcvScale : Nat
  tMaxseg : Nat
  soRcv : Sockbuf
  mbspace : Int
  pos : Int
  sent : List Sent

def Advertiser.sbspace (r : Advertiser) : Int := r.soRcv.sbspace r.mbspace

def Advertiser.promised (r : Advertiser) : Int := (r.rcvAdv - r.rcvNxt).toInt

def Advertiser.Silly (r : Advertiser) : Prop := r.sbspace < ((r.soRcv.sbHiwat.toNat / 4 : Nat) : Int) ∧ r.sbspace < r.tMaxseg

instance (r : Advertiser) : Decidable r.Silly := inferInstanceAs (Decidable (_ ∧ _))

def Advertiser.win (r : Advertiser) : Int :=
  let win := if r.Silly then 0 else r.sbspace
  let win := if tcpMaxwin * 2 ^ r.rcvScale < win then tcpMaxwin * 2 ^ r.rcvScale else win
  if win < r.promised then r.promised else win

def Advertiser.segment (r : Advertiser) : Sent where
  tiAck := r.rcvNxt
  tiWin := BitVec.ofInt 16 (r.win / 2 ^ r.rcvScale)
  scale := r.rcvScale
  ack := r.pos

def Advertiser.remember (r : Advertiser) : TcpSeq :=
  if 0 < r.win ∧ seqGt (r.rcvNxt + BitVec.ofInt 32 r.win) r.rcvAdv then r.rcvNxt + BitVec.ofInt 32 r.win else r.rcvAdv

inductive Advertiser.Event where
  /-- `rcv_nxt` moves by `n`, data goes into `so_rcv` and out of it, and `t_maxseg` may change. -/
  | input (n : Nat) (soRcv : Sockbuf) (mbspace : Int) (tMaxseg : Nat)
  /-- `rcv_scale = request_r_scale`. -/
  | scale (requestRScale : Nat)
  /-- `tcp_output` sends a segment, unless there is no mbuf for it or `ip_output` returns an error. -/
  | output (error : Bool)

def Advertiser.step (r : Advertiser) : Event → Option Advertiser
  | .input n soRcv mbspace tMaxseg =>
    if r.soRcv.sbHiwat ≤ soRcv.sbHiwat then
      some { r with
        rcvNxt := r.rcvNxt + BitVec.ofInt 32 n
        soRcv := soRcv
        mbspace := mbspace
        tMaxseg := tMaxseg
        pos := r.pos + n }
    else none
  | .scale requestRScale => if r.rcvScale = 0 ∧ requestRScale ≤ tcpMaxWinshift then some { r with rcvScale := requestRScale } else none
  | .output error => if error then some r else some { r with rcvAdv := r.remember, sent := r.segment :: r.sent }

def Advertiser.NeverShrunk (r : Advertiser) : Prop :=
  r.sent.Pairwise (fun later earlier => earlier.edge ≤ later.edge) ∧ ∀ seg ∈ r.sent, seg.tiAck = serial r.irs seg.ack

def Advertiser.roundUp (r : Advertiser) : Int := (r.promised + (2 ^ r.rcvScale - 1)) / 2 ^ r.rcvScale * 2 ^ r.rcvScale

/-- The window that was promised can be said in units of `1 << rcv_scale`, or there is room for as much as the next unit. -/
def Advertiser.Whole (r : Advertiser) : Prop :=
  r.promised ≤ 0 ∨ 2 ^ r.rcvScale ∣ r.promised ∨ (¬ r.Silly ∧ r.roundUp ≤ r.sbspace)

def Advertiser.Aligned (r : Advertiser) : Prop := ∀ seg ∈ r.sent, 2 ^ r.rcvScale ∣ seg.edge - r.pos

/-- `rcv_nxt` does not leave `rcv_adv` behind by more than a window, and a segment is sent where nothing of a promise is lost in
units of `1 << rcv_scale`. -/
def Advertiser.Lossless (r : Advertiser) : Event → Prop
  | .input n _ _ _ => (r.rcvNxt - r.rcvAdv).toInt + n < 1073741824
  | .scale _ => True
  | .output error => error = true ∨ r.Whole ∨ r.Aligned

structure Advertiser.Inv (r : Advertiser) (adv : Int) : Prop where
  rcvNxt_eq : r.rcvNxt = serial r.irs r.pos
  rcvAdv_eq : r.rcvAdv = serial r.irs adv
  scale_le : r.rcvScale ≤ tcpMaxWinshift
  adv_le : adv - r.pos ≤ tcpMaxwin * 2 ^ r.rcvScale
  pos_lt : r.pos - adv < 1073741824
  edge_le : ∀ seg ∈ r.sent, seg.edge ≤ max adv r.pos
  shrunk : r.NeverShrunk

section Inv

variable {r r' : Advertiser} {adv : Int}

theorem Advertiser.unit_pos (r : Advertiser) : (0 : Int) < 2 ^ r.rcvScale := by positivity

theorem Advertiser.Inv.unit_le (h : r.Inv adv) : (2 : Int) ^ r.rcvScale ≤ 16384 := by
  have hpow := Nat.pow_le_pow_right (by decide : 0 < 2) h.scale_le
  exact_mod_cast hpow

theorem Advertiser.Inv.promised_eq (h : r.Inv adv) : r.promised = adv - r.pos := by
  have hunit := h.unit_le
  have hadv := h.adv_le
  have hpos := h.pos_lt
  rw [tcpMaxwin] at hadv
  rw [promised, h.rcvNxt_eq, h.rcvAdv_eq]
  exact toInt_serial_sub (by decide) (show (-2147483648 : Int) ≤ adv - r.pos by omega) (show adv - r.pos < 2147483648 by omega)

theorem Advertiser.offered_nonneg (r : Advertiser) : 0 ≤ if r.Silly then 0 else r.sbspace := by
  split
  · exact le_refl 0
  · next hsilly =>
    rw [Silly, not_and_or] at hsilly
    omega

theorem Advertiser.win_eq (r : Advertiser) :
    r.win = max (min (if r.Silly then 0 else r.sbspace) (tcpMaxwin * 2 ^ r.rcvScale)) r.promised := by
  rw [win]
  generalize (if r.Silly then 0 else r.sbspace) = offered
  split <;> split <;> omega

theorem Advertiser.promised_le_win (r : Advertiser) : r.promised ≤ r.win := by
  rw [win_eq]
  exact le_max_right _ _

theorem Advertiser.win_nonneg (r : Advertiser) : 0 ≤ r.win := by
  have hlimit : 0 ≤ tcpMaxwin * 2 ^ r.rcvScale := Int.mul_nonneg (by decide) r.unit_pos.le
  rw [win_eq]
  exact le_max_of_le_left (le_min r.offered_nonneg hlimit)

theorem Advertiser.Inv.win_le (h : r.Inv adv) : r.win ≤ tcpMaxwin * 2 ^ r.rcvScale := by
  rw [win_eq, h.promised_eq]
  exact max_le (min_le_right _ _) h.adv_le

theorem Advertiser.Inv.edge_segment (h : r.Inv adv) : r.segment.edge = r.pos + r.win / 2 ^ r.rcvScale * 2 ^ r.rcvScale := by
  have hunit := r.unit_pos
  have hnonneg : 0 ≤ r.win / 2 ^ r.rcvScale := Int.ediv_nonneg r.win_nonneg hunit.le
  have hle : r.win / 2 ^ r.rcvScale ≤ 65535 := Int.ediv_le_of_le_mul hunit h.win_le
  have hfield : ((BitVec.ofInt 16 (r.win / 2 ^ r.rcvScale)).toNat : Int) = r.win / 2 ^ r.rcvScale := by
    rw [BitVec.toNat_ofInt]
    omega
  rw [Sent.edge, segment, hfield]

theorem Advertiser.floor_le (r : Advertiser) : r.win / 2 ^ r.rcvScale * 2 ^ r.rcvScale ≤ r.win :=
  Int.ediv_mul_le _ r.unit_pos.ne'

theorem Advertiser.le_floor {x : Int} (hdvd : 2 ^ r.rcvScale ∣ x) (hle : x ≤ r.win) :
    x ≤ r.win / 2 ^ r.rcvScale * 2 ^ r.rcvScale := by
  obtain ⟨c, rfl⟩ := hdvd
  have hc : c ≤ r.win / 2 ^ r.rcvScale := by
    apply (Int.le_ediv_iff_mul_le r.unit_pos).mpr
    rw [Int.mul_comm]
    exact hle
  rw [Int.mul_comm]
  exact Int.mul_le_mul_of_nonneg_right hc r.unit_pos.le

theorem Advertiser.dvd_roundUp (r : Advertiser) : 2 ^ r.rcvScale ∣ r.roundUp := Dvd.intro_left _ rfl

theorem Advertiser.promised_le_roundUp (r : Advertiser) : r.promised ≤ r.roundUp := by
  have hunit := r.unit_pos
  have hsplit := Int.mul_ediv_add_emod (r.promised + (2 ^ r.rcvScale - 1)) (2 ^ r.rcvScale)
  have hmod := Int.emod_lt_of_pos (r.promised + (2 ^ r.rcvScale - 1)) hunit
  rw [roundUp, Int.mul_comm]
  omega

theorem Advertiser.Inv.roundUp_le (h : r.Inv adv) : r.roundUp ≤ tcpMaxwin * 2 ^ r.rcvScale := by
  have hunit := r.unit_pos
  have hpromised := h.adv_le
  rw [← h.promised_eq] at hpromised
  apply Int.mul_le_mul_of_nonneg_right _ hunit.le
  have hlt : (r.promised + (2 ^ r.rcvScale - 1)) / 2 ^ r.rcvScale < 65536 := by
    apply Int.ediv_lt_of_lt_mul hunit
    rw [tcpMaxwin] at hpromised
    linarith
  exact Int.le_of_lt_add_one hlt

theorem Advertiser.Inv.promised_le_floor (h : r.Inv adv) (hwhole : r.Whole) :
    r.promised ≤ r.win / 2 ^ r.rcvScale * 2 ^ r.rcvScale := by
  have hunit := r.unit_pos
  rcases hwhole with hnone | hdvd | ⟨hsilly, hroom⟩
  · exact le_trans hnone (Int.mul_nonneg (Int.ediv_nonneg r.win_nonneg hunit.le) hunit.le)
  · exact le_floor hdvd r.promised_le_win
  · apply le_trans r.promised_le_roundUp
    apply le_floor r.dvd_roundUp
    rw [win_eq, if_neg hsilly]
    exact le_max_of_le_left (le_min hroom h.roundUp_le)

theorem Advertiser.Inv.edge_le_segment (h : r.Inv adv) (hlossless : r.Whole ∨ r.Aligned) {seg : Sent} (hseg : seg ∈ r.sent) :
    seg.edge ≤ r.segment.edge := by
  have hunit := r.unit_pos
  have hedge := h.edge_le seg hseg
  have hpromised := r.promised_le_win
  have hnonneg := r.win_nonneg
  have hfloor : 0 ≤ r.win / 2 ^ r.rcvScale * 2 ^ r.rcvScale := Int.mul_nonneg (Int.ediv_nonneg hnonneg hunit.le) hunit.le
  rw [h.edge_segment]
  rcases hlossless with hwhole | haligned
  · have hkept := h.promised_le_floor hwhole
    rw [h.promised_eq] at hkept
    omega
  · rw [h.promised_eq] at hpromised
    have hle := le_floor (haligned seg hseg) (by omega)
    omega

theorem Advertiser.Inv.remember_eq (h : r.Inv adv) :
    r.remember = serial r.irs (if 0 < r.win ∧ adv < r.pos + r.win then r.pos + r.win else adv) := by
  have hwin := h.win_le
  have hunit := h.unit_le
  have hpos := h.pos_lt
  have hpromised := r.promised_le_win
  rw [h.promised_eq] at hpromised
  rw [tcpMaxwin] at hwin
  have hnew : r.rcvNxt + BitVec.ofInt 32 r.win = serial r.irs (r.pos + r.win) := by rw [h.rcvNxt_eq, serial_add]
  have hdiff : (serial r.irs (r.pos + r.win) - serial r.irs adv).toInt = r.pos + r.win - adv :=
    toInt_serial_sub (by decide) (show (-2147483648 : Int) ≤ r.pos + r.win - adv by omega)
      (show r.pos + r.win - adv < 2147483648 by omega)
  have hgt : (0 < r.win ∧ seqGt (r.rcvNxt + BitVec.ofInt 32 r.win) r.rcvAdv) ↔ 0 < r.win ∧ adv < r.pos + r.win := by
    rw [hnew, h.rcvAdv_eq, seqGt, hdiff]
    omega
  rw [remember]
  by_cases hlarger : 0 < r.win ∧ adv < r.pos + r.win
  · rw [if_pos (hgt.mpr hlarger), if_pos hlarger, hnew]
  · rw [if_neg (hgt.not.mpr hlarger), if_neg hlarger, h.rcvAdv_eq]

theorem Advertiser.Inv.output (h : r.Inv adv) (hlossless : r.Whole ∨ r.Aligned) :
    ∃ adv', Advertiser.Inv { r with rcvAdv := r.remember, sent := r.segment :: r.sent } adv' := by
  have hwin := h.win_le
  have hnonneg := r.win_nonneg
  have hpos := h.pos_lt
  have hadv := h.adv_le
  refine ⟨if 0 < r.win ∧ adv < r.pos + r.win then r.pos + r.win else adv, h.rcvNxt_eq, h.remember_eq, h.scale_le, ?_, ?_, ?_, ?_, ?_⟩
  · change (if 0 < r.win ∧ adv < r.pos + r.win then r.pos + r.win else adv) - r.pos ≤ tcpMaxwin * 2 ^ r.rcvScale
    split <;> omega
  · change r.pos - (if 0 < r.win ∧ adv < r.pos + r.win then r.pos + r.win else adv) < 1073741824
    split <;> omega
  · intro seg hseg
    change seg.edge ≤ max (if 0 < r.win ∧ adv < r.pos + r.win then r.pos + r.win else adv) r.pos
    rcases List.mem_cons.mp hseg with rfl | hseg
    · have hfloor := r.floor_le
      rw [h.edge_segment]
      split <;> omega
    · have hedge := h.edge_le seg hseg
      split <;> omega
  · exact List.pairwise_cons.mpr ⟨fun seg hseg => h.edge_le_segment hlossless hseg, h.shrunk.1⟩
  · intro seg hseg
    rcases List.mem_cons.mp hseg with rfl | hseg
    · exact h.rcvNxt_eq
    · exact h.shrunk.2 seg hseg

theorem Advertiser.Inv.input (h : r.Inv adv) {n : Nat} {soRcv : Sockbuf} {mbspace : Int} {tMaxseg : Nat}
    (hn : (r.rcvNxt - r.rcvAdv).toInt + n < 1073741824) :
    Advertiser.Inv { r with
      rcvNxt := r.rcvNxt + BitVec.ofInt 32 n, soRcv := soRcv, mbspace := mbspace, tMaxseg := tMaxseg, pos := r.pos + n } adv := by
  have hunit := h.unit_le
  have hadv := h.adv_le
  have hpos := h.pos_lt
  have hdiff : (r.rcvNxt - r.rcvAdv).toInt = r.pos - adv := by
    rw [tcpMaxwin] at hadv
    rw [h.rcvNxt_eq, h.rcvAdv_eq]
    exact toInt_serial_sub (by decide) (show (-2147483648 : Int) ≤ r.pos - adv by omega) (show r.pos - adv < 2147483648 by omega)
  rw [hdiff] at hn
  refine ⟨?_, h.rcvAdv_eq, h.scale_le, ?_, ?_, fun seg hseg => ?_, h.shrunk⟩
  · change r.rcvNxt + BitVec.ofInt 32 n = serial r.irs (r.pos + n)
    rw [h.rcvNxt_eq, serial_add]
  · change adv - (r.pos + n) ≤ tcpMaxwin * 2 ^ r.rcvScale
    omega
  · change r.pos + n - adv < 1073741824
    omega
  · have hedge := h.edge_le seg hseg
    change seg.edge ≤ max adv (r.pos + n)
    omega

theorem Advertiser.Inv.negotiate (h : r.Inv adv) {requestRScale : Nat} (hzero : r.rcvScale = 0) (hle : requestRScale ≤ tcpMaxWinshift) :
    Advertiser.Inv { r with rcvScale := requestRScale } adv := by
  refine ⟨h.rcvNxt_eq, h.rcvAdv_eq, hle, ?_, h.pos_lt, h.edge_le, h.shrunk⟩
  have hadv := h.adv_le
  have hone : (1 : Int) ≤ 2 ^ requestRScale := one_le_pow₀ (by decide)
  rw [hzero, pow_zero] at hadv
  exact le_trans hadv (Int.mul_le_mul_of_nonneg_left hone (by decide))

theorem Advertiser.Inv.step {e : Event} (h : r.Inv adv) (hlossless : r.Lossless e) (hstep : r.step e = some r') :
    ∃ adv', r'.Inv adv' := by
  cases e with
  | input n soRcv mbspace tMaxseg =>
    rw [Advertiser.step] at hstep
    split at hstep
    · obtain rfl := Option.some.inj hstep
      exact ⟨adv, h.input hlossless⟩
    · exact absurd hstep (by simp)
  | scale requestRScale =>
    rw [Advertiser.step] at hstep
    split at hstep
    · next hscale =>
      obtain rfl := Option.some.inj hstep
      exact ⟨adv, h.negotiate hscale.1 hscale.2⟩
    · exact absurd hstep (by simp)
  | output error =>
    rw [Advertiser.step] at hstep
    by_cases herror : error = true
    · rw [if_pos herror] at hstep
      obtain rfl := Option.some.inj hstep
      exact ⟨adv, h⟩
    · rw [if_neg herror] at hstep
      obtain rfl := Option.some.inj hstep
      exact h.output (hlossless.resolve_left herror)

end Inv

def fresh : Advertiser where
  irs := 0
  rcvNxt := 1
  rcvAdv := 1
  rcvScale := 0
  tMaxseg := 512
  soRcv := { sbHiwat := 70000 }
  mbspace := 140000
  pos := 1
  sent := []

end NetBSD.Tcp
