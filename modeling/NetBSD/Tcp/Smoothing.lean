import NetBSD.Tcp.Prediction

/-!
# The round trip time

What `tcp_xmit_timer` makes of `t_srtt`, `t_rttvar` and `t_rxtcur`, for any time that a timestamp gives.
-/

namespace NetBSD.Tcp

variable {srtt rttvar rtt : Int}

def IsShort (n : Int) : Prop := -2 ^ 15 ≤ n ∧ n < 2 ^ 15

theorem isShort_short (n : Int) : IsShort (short n) := ⟨Int.le_bmod (by decide), Int.bmod_lt (by decide)⟩

theorem IsShort.short_eq {n : Int} (h : IsShort n) : short n = n := short_of_mem h.1 h.2

/-- Each value that `tcp_xmit_timer` stores into a `short` on the way to `t_srtt` and `t_rttvar` is one. -/
def Smooth (srtt rttvar rtt : Int) : Prop :=
  if srtt ≠ 0 then
    let delta := rtt - 1 - srtt / 8
    let magnitude := if delta < 0 then -delta else delta
    IsShort delta ∧ IsShort (srtt + delta) ∧ IsShort magnitude ∧ IsShort (magnitude - rttvar / 4) ∧
      IsShort (rttvar + (magnitude - rttvar / 4))
  else IsShort (rtt * 8) ∧ IsShort (rtt * 2)

/-- The first time is positive and less than 4096 ticks; a later one is not so far from the average that the sums
leave the range of a `short`. -/
def Moderate (srtt rttvar rtt : Int) : Prop :=
  if srtt = 0 then 0 < rtt ∧ rtt < 4096
  else
    -2 ^ 15 < rtt - 1 - srtt / 8 ∧ srtt + (rtt - 1 - srtt / 8) < 2 ^ 15 ∧ rttvar - rttvar / 4 + |rtt - 1 - srtt / 8| < 2 ^ 15

theorem smoothed_of_smooth (h : Smooth srtt rttvar rtt) :
    0 < (smoothed srtt rttvar rtt).1 ∧ 0 < (smoothed srtt rttvar rtt).2 ↔ srtt ≠ 0 ∨ 0 < rtt := by
  unfold Smooth at h
  unfold smoothed
  split at h
  · next hne =>
    rw [if_pos hne]
    refine ⟨fun _ => .inl hne, fun _ => ⟨?_, ?_⟩⟩ <;> dsimp only <;> split <;> omega
  · next hzero =>
    rw [if_neg hzero, h.1.short_eq, h.2.short_eq]
    dsimp only
    omega

theorem smooth_iff_moderate (hsrtt : 0 ≤ srtt ∧ srtt < 2 ^ 15) (hrttvar : 0 ≤ rttvar ∧ rttvar < 2 ^ 15) (hrtt : IsShort rtt) :
    Smooth srtt rttvar rtt ∧ (srtt ≠ 0 ∨ 0 < rtt) ↔ Moderate srtt rttvar rtt := by
  unfold Smooth Moderate
  unfold IsShort at *
  by_cases hzero : srtt = 0
  · rw [if_neg (not_not_intro hzero), if_pos hzero]
    omega
  · rw [if_pos hzero, if_neg hzero]
    dsimp only
    generalize hdelta : rtt - 1 - srtt / 8 = delta
    rcases lt_or_ge delta 0 with hneg | hpos
    · rw [if_pos hneg, abs_of_neg hneg]
      omega
    · rw [if_neg (not_lt.2 hpos), abs_of_nonneg hpos]
      omega

theorem tcptRangeset_mem (value : Int) {tvmin : Int} (hmin : 0 ≤ tvmin) :
    tvmin ≤ tcptRangeset value tvmin tcptvRexmtmax ∧ tcptRangeset value tvmin tcptvRexmtmax ≤ tcptvRexmtmax ↔ tvmin ≤ tcptvRexmtmax := by
  refine ⟨fun h => h.1.trans h.2, fun h => ?_⟩
  have hmax : short tcptvRexmtmax = tcptvRexmtmax := by decide
  have htvmin : short tvmin = tvmin := by
    unfold tcptvRexmtmax at h
    exact short_of_mem (by omega) (by omega)
  unfold tcptRangeset
  rw [hmax, htvmin]
  split
  · exact ⟨le_refl _, h⟩
  · split
    · exact ⟨h, le_refl _⟩
    · next hlo hhi => exact ⟨not_lt.1 hlo, not_lt.1 hhi⟩

/-- **The round trip time**: the estimates are positive, no `short` overflows and the retransmit value is in its
range just when the time is moderate and `t_rttmin` is not above the range. -/
theorem tcpXmitTimer_iff (tp : Tcpcb) (rtt : Int) (hsrtt : 0 ≤ tp.tSrtt ∧ tp.tSrtt < 2 ^ 15)
    (hrttvar : 0 ≤ tp.tRttvar ∧ tp.tRttvar < 2 ^ 15) :
    (0 < (tcpXmitTimer tp rtt).tSrtt ∧ 0 < (tcpXmitTimer tp rtt).tRttvar ∧ tp.tRttmin ≤ (tcpXmitTimer tp rtt).tRxtcur ∧
        (tcpXmitTimer tp rtt).tRxtcur ≤ tcptvRexmtmax ∧ Smooth tp.tSrtt tp.tRttvar (short rtt)) ↔
      tp.tRttmin ≤ tcptvRexmtmax ∧ Moderate tp.tSrtt tp.tRttvar (short rtt) := by
  have hrange := tcptRangeset_mem ((smoothed tp.tSrtt tp.tRttvar (short rtt)).1 / 8 + (smoothed tp.tSrtt tp.tRttvar (short rtt)).2)
    (Int.natCast_nonneg tp.tRttmin)
  rw [← smooth_iff_moderate hsrtt hrttvar (isShort_short rtt), ← hrange]
  constructor
  · rintro ⟨hsrtt', hrttvar', hmin, hmax, hsmooth⟩
    exact ⟨⟨hmin, hmax⟩, hsmooth, (smoothed_of_smooth hsmooth).1 ⟨hsrtt', hrttvar'⟩⟩
  · rintro ⟨⟨hmin, hmax⟩, hsmooth, hpos⟩
    obtain ⟨hsrtt', hrttvar'⟩ := (smoothed_of_smooth hsmooth).2 hpos
    exact ⟨hsrtt', hrttvar', hmin, hmax, hsmooth⟩

theorem tcpXmitTimer_iff_first : (0 < (tcpXmitTimer { tRttmin := 2 } 3).tSrtt ∧ 0 < (tcpXmitTimer { tRttmin := 2 } 3).tRttvar ∧
      ({ tRttmin := 2 } : Tcpcb).tRttmin ≤ (tcpXmitTimer { tRttmin := 2 } 3).tRxtcur ∧
      (tcpXmitTimer { tRttmin := 2 } 3).tRxtcur ≤ tcptvRexmtmax ∧ Smooth 0 0 (short 3)) ↔
    ({ tRttmin := 2 } : Tcpcb).tRttmin ≤ tcptvRexmtmax ∧ Moderate 0 0 (short 3) :=
  tcpXmitTimer_iff { tRttmin := 2 } 3 (by decide) (by decide)

/-- A peer that echoes a timestamp from one tick ahead leaves `t_srtt` at 0. -/
theorem srtt_zero_of_echo : ¬∀ (tp : Tcpcb) (env : InputEnv) (seg : Input), 0 ≤ tp.tSrtt ∧ tp.tSrtt < 2 ^ 15 →
    0 ≤ tp.tRttvar ∧ tp.tRttvar < 2 ^ 15 → tp.tRttmin ≤ tcptvRexmtmax → seg.tsPresent = true →
    0 < (updateRtt env seg tp).tSrtt := fun h => by
  have hpos := h { tRttmin := 2 } ⟨100, 0⟩ ⟨⟨0, 0, 0, { ack := true }, 0, 0, []⟩, 0, true, 100, 101, le_refl _, rfl⟩ (by decide) (by decide)
    (by decide) rfl
  exact absurd hpos (by decide)

end NetBSD.Tcp
