import NetBSD.Lib.Framing
import NetBSD.Tcp.Var

/-!
# TCP options

`tcp_dooptions`, over the bytes `cp` that begin with the options; what follows the first `cnt` of them is the data
of the segment. What `tcp_mss` makes of an offer is left open.
-/

namespace NetBSD.Tcp

def tcpoptEol : Byte := 0
def tcpoptNop : Byte := 1
def tcpoptMaxseg : Byte := 2
def tcpoptWindow : Byte := 3
def tcpoptTimestamp : Byte := 8

def tcpolenMaxseg : Nat := 4
def tcpolenWindow : Nat := 3
def tcpolenTimestamp : Nat := 10

def tcpMaxWinshift : Nat := 14

def netShort (cp : Nat → Byte) (p : Nat) : Word16 := cp p ++ cp (p + 1)
def netLong (cp : Nat → Byte) (p : Nat) : Word32 := netShort cp p ++ netShort cp (p + 2)

/-- What `tcp_dooptions` writes to: the control block, what `tcp_mss` reaches from there, and the caller's variables. -/
structure Parse (σ : Type) where
  path : σ
  tp : Tcpcb
  tsPresent : Bool
  tsVal : Word32
  tsEcr : Word32

section

variable {σ : Type} (tcpMss : Word16 → σ × Tcpcb → σ × Tcpcb) (tcpNow : Word32) (tiFlags : ThFlags)

def Parse.timestamp (r : Parse σ) (tsVal tsEcr : Word32) : Parse σ :=
  { r with
    tsPresent := true
    tsVal
    tsEcr
    tp :=
      if tiFlags.syn then
        { r.tp with tFlags := { r.tp.tFlags with rcvdTstmp := true }, tsRecent := tsVal, tsRecentAge := tcpNow }
      else r.tp }

def Parse.maxseg (r : Parse σ) (mss : Word16) : Parse σ :=
  { r with path := (tcpMss mss (r.path, r.tp)).1, tp := (tcpMss mss (r.path, r.tp)).2 }

def Parse.window (r : Parse σ) (shift : Byte) : Parse σ :=
  { r with tp := { r.tp with
      tFlags := { r.tp.tFlags with rcvdScale := true }
      requestedSScale := min shift.toNat tcpMaxWinshift } }

def Parse.option (r : Parse σ) (cp : Nat → Byte) (p optlen : Nat) : Parse σ :=
  if cp p = tcpoptMaxseg then
    if optlen ≠ tcpolenMaxseg then r
    else if !tiFlags.syn then r
    else r.maxseg tcpMss (netShort cp (p + 2))
  else if cp p = tcpoptWindow then
    if optlen ≠ tcpolenWindow then r
    else if !tiFlags.syn then r
    else r.window (cp (p + 2))
  else if cp p = tcpoptTimestamp then
    if optlen ≠ tcpolenTimestamp then r
    else r.timestamp tcpNow tiFlags (netLong cp (p + 2)) (netLong cp (p + 6))
  else r

def tcpDooptionsLoop (cp : Nat → Byte) : Nat → Nat → Int → Parse σ → Option (Parse σ)
  | 0, _, _, _ => none
  | fuel + 1, p, cnt, r =>
    if 0 < cnt then
      if cp p = tcpoptEol then some r
      else if cp p = tcpoptNop then tcpDooptionsLoop cp fuel (p + 1) (cnt - 1) (r.option tcpMss tcpNow tiFlags cp p 1)
      else
        let optlen := (cp (p + 1)).toNat
        if optlen ≤ 0 then some r
        else tcpDooptionsLoop cp fuel (p + optlen) (cnt - optlen) (r.option tcpMss tcpNow tiFlags cp p optlen)
    else some r

def tcpDooptions (cp : Nat → Byte) (cnt : Nat) (r : Parse σ) : Option (Parse σ) :=
  tcpDooptionsLoop tcpMss tcpNow tiFlags cp (cnt + 1) 0 cnt r

end

def options : Lib.Tlv where
  last := tcpoptEol
  filler := tcpoptNop

def taken (tiFlags : ThFlags) (opt : Byte) : Option Nat :=
  if opt = tcpoptMaxseg then if tiFlags.syn then some tcpolenMaxseg else none
  else if opt = tcpoptWindow then if tiFlags.syn then some tcpolenWindow else none
  else if opt = tcpoptTimestamp then some tcpolenTimestamp
  else none

def Contained (tiFlags : ThFlags) (cp : Nat → Byte) (cnt : Nat) : Prop :=
  ∀ p optlen, options.Reached cp cnt p → p < cnt → taken tiFlags (cp p) = some optlen →
    p + 1 < cnt ∧ ((cp (p + 1)).toNat = optlen → p + optlen ≤ cnt)

def Parse.seen {σ : Type} (r : Parse σ) : Nat × TFlags × Nat × Bool × Word32 × Word32 :=
  (r.tp.tMaxseg, r.tp.tFlags, r.tp.requestedSScale, r.tsPresent, r.tsVal, r.tsEcr)

def Confined (tiFlags : ThFlags) (cp : Nat → Byte) (cnt : Nat) : Prop :=
  ∀ (σ : Type) (tcpMss : Word16 → σ × Tcpcb → σ × Tcpcb) (tcpNow : Word32) (r : Parse σ) (cp' : Nat → Byte),
    (∀ i < cnt, cp' i = cp i) →
      (tcpDooptions tcpMss tcpNow tiFlags cp' cnt r).map Parse.seen =
        (tcpDooptions tcpMss tcpNow tiFlags cp cnt r).map Parse.seen

variable {σ : Type} {tcpMss : Word16 → σ × Tcpcb → σ × Tcpcb} {tcpNow : Word32} {tiFlags : ThFlags}
variable {cp cp' : Nat → Byte} {p cnt optlen fuel : Nat} {r : Parse σ}

theorem option_of_not_taken (h : taken tiFlags (cp p) ≠ some optlen) : r.option tcpMss tcpNow tiFlags cp p optlen = r := by
  unfold Parse.option
  unfold taken at h
  split_ifs at h ⊢ with h₁ h₂ h₃ h₄ h₅ h₆ <;> simp_all

theorem netShort_congr {q : Nat} (h : ∀ i, q ≤ i → i < q + 2 → cp' i = cp i) : netShort cp' q = netShort cp q := by
  rw [netShort, netShort, h q le_rfl (by omega), h (q + 1) (by omega) (by omega)]

theorem netLong_congr {q : Nat} (h : ∀ i, q ≤ i → i < q + 4 → cp' i = cp i) : netLong cp' q = netLong cp q := by
  rw [netLong, netLong, netShort_congr fun i hlo hhi => h i hlo (by omega),
    netShort_congr fun i hlo hhi => h i (by omega) (by omega)]

theorem option_congr (hp : ∀ i, p ≤ i → i < p + optlen → cp' i = cp i) (hpos : 0 < optlen) :
    r.option tcpMss tcpNow tiFlags cp' p optlen = r.option tcpMss tcpNow tiFlags cp p optlen := by
  unfold Parse.option
  rw [hp p le_rfl (by omega)]
  split_ifs with hmaxseg hlen hsyn hwindow hlen hsyn htimestamp hlen
  · rfl
  · rfl
  · have hfour : optlen = 4 := not_not.1 hlen
    rw [netShort_congr fun i hlo hhi => hp i (by omega) (by omega)]
  · rfl
  · rfl
  · have hthree : optlen = 3 := not_not.1 hlen
    rw [hp (p + 2) (by omega) (by omega)]
  · rfl
  · have hten : optlen = 10 := not_not.1 hlen
    rw [netLong_congr fun i hlo hhi => hp i (by omega) (by omega),
      netLong_congr fun i hlo hhi => hp i (by omega) (by omega)]
  · rfl

theorem loop_of_le {left : Int} (h : left ≤ 0) :
    tcpDooptionsLoop tcpMss tcpNow tiFlags cp (fuel + 1) p left r = some r := if_neg (not_lt.2 h)

theorem loop_eol {left : Int} (h : 0 < left) (heol : cp p = tcpoptEol) :
    tcpDooptionsLoop tcpMss tcpNow tiFlags cp (fuel + 1) p left r = some r := by
  rw [tcpDooptionsLoop, if_pos h, if_pos heol]

theorem loop_nop {left : Int} (h : 0 < left) (hnop : cp p = tcpoptNop) :
    tcpDooptionsLoop tcpMss tcpNow tiFlags cp (fuel + 1) p left r =
      tcpDooptionsLoop tcpMss tcpNow tiFlags cp fuel (p + 1) (left - 1) r := by
  have hopt : r.option tcpMss tcpNow tiFlags cp p 1 = r := option_of_not_taken (by simp [taken, hnop, tcpoptNop, tcpoptMaxseg, tcpoptWindow, tcpoptTimestamp])
  have heol : cp p ≠ tcpoptEol := by rw [hnop]; decide
  rw [tcpDooptionsLoop, if_pos h, if_neg heol, if_pos hnop, hopt]

theorem loop_broken {left : Int} (heol : cp p ≠ tcpoptEol) (hnop : cp p ≠ tcpoptNop) (hlen : cp (p + 1) = 0) :
    tcpDooptionsLoop tcpMss tcpNow tiFlags cp (fuel + 1) p left r = some r := by
  by_cases h : 0 < left
  · rw [tcpDooptionsLoop, if_pos h, if_neg heol, if_neg hnop]
    exact if_pos (by rw [hlen]; decide)
  · exact loop_of_le (not_lt.1 h)

theorem loop_option {left : Int} (h : 0 < left) (heol : cp p ≠ tcpoptEol) (hnop : cp p ≠ tcpoptNop)
    (hlen : cp (p + 1) ≠ 0) :
    tcpDooptionsLoop tcpMss tcpNow tiFlags cp (fuel + 1) p left r =
      tcpDooptionsLoop tcpMss tcpNow tiFlags cp fuel (p + (cp (p + 1)).toNat) (left - (cp (p + 1)).toNat)
        (r.option tcpMss tcpNow tiFlags cp p (cp (p + 1)).toNat) := by
  have hpos : ¬(cp (p + 1)).toNat ≤ 0 := fun hle => hlen (BitVec.eq_of_toNat_eq (Nat.le_zero.1 hle))
  rw [tcpDooptionsLoop, if_pos h, if_neg heol, if_neg hnop]
  exact if_neg hpos

theorem toNat_pos {b : Byte} (h : b ≠ 0) : 0 < b.toNat :=
  Nat.pos_of_ne_zero fun hzero => h (BitVec.eq_of_toNat_eq hzero)

theorem loop_terminates : ∀ (fuel p : Nat) (left : Int) (r : Parse σ), left ≤ fuel →
    ∃ r', ∀ more, tcpDooptionsLoop tcpMss tcpNow tiFlags cp (fuel + more + 1) p left r = some r' := by
  intro fuel
  induction fuel with
  | zero => exact fun p left r hfuel => ⟨r, fun more => loop_of_le hfuel⟩
  | succ fuel ih =>
    intro p left r hfuel
    by_cases h : 0 < left
    · by_cases heol : cp p = tcpoptEol
      · exact ⟨r, fun more => loop_eol h heol⟩
      · by_cases hnop : cp p = tcpoptNop
        · obtain ⟨r', hr'⟩ := ih (p + 1) (left - 1) r (by omega)
          exact ⟨r', fun more => by rw [loop_nop h hnop, Nat.add_right_comm fuel 1]; exact hr' more⟩
        · by_cases hlen : cp (p + 1) = 0
          · exact ⟨r, fun more => loop_broken heol hnop hlen⟩
          · have hpos := toNat_pos hlen
            obtain ⟨r', hr'⟩ := ih (p + (cp (p + 1)).toNat) (left - (cp (p + 1)).toNat)
              (r.option tcpMss tcpNow tiFlags cp p (cp (p + 1)).toNat) (by omega)
            exact ⟨r', fun more => by rw [loop_option h heol hnop hlen, Nat.add_right_comm fuel 1]; exact hr' more⟩
    · exact ⟨r, fun more => loop_of_le (not_lt.1 h)⟩

theorem loop_last {left : Int} (h : 0 < left) (hlast : left ≤ 1) (heol : cp p ≠ tcpoptEol) (hnop : cp p ≠ tcpoptNop)
    (htaken : taken tiFlags (cp p) = none) :
    tcpDooptionsLoop tcpMss tcpNow tiFlags cp (fuel + 1 + 1) p left r = some r := by
  by_cases hlen : cp (p + 1) = 0
  · exact loop_broken heol hnop hlen
  · have hpos := toNat_pos hlen
    rw [loop_option h heol hnop hlen, loop_of_le (by omega), option_of_not_taken (by rw [htaken]; exact (Option.some_ne_none _).symm)]

theorem loop_congr (tcpMss : Word16 → σ × Tcpcb → σ × Tcpcb) (tcpNow : Word32)
    (hcontained : Contained tiFlags cp cnt) (hsame : ∀ i < cnt, cp' i = cp i) :
    ∀ (fuel p : Nat) (r : Parse σ), cnt ≤ fuel + p → options.Reached cp cnt p →
      tcpDooptionsLoop tcpMss tcpNow tiFlags cp' (fuel + 1) p (cnt - p : Int) r =
        tcpDooptionsLoop tcpMss tcpNow tiFlags cp (fuel + 1) p (cnt - p : Int) r := by
  intro fuel
  induction fuel with
  | zero =>
    intro p r hfuel _
    rw [loop_of_le (by omega), loop_of_le (by omega)]
  | succ fuel ih =>
    intro p r hfuel hreached
    by_cases h : p < cnt
    · have hleft : (0 : Int) < cnt - p := by omega
      have hkind := hsame p h
      by_cases heol : cp p = tcpoptEol
      · rw [loop_eol hleft heol, loop_eol hleft (hkind.trans heol)]
      · by_cases hnop : cp p = tcpoptNop
        · have hrec := ih (p + 1) r (by omega) (hreached.filler h hnop)
          have hcast : (cnt - p : Int) - 1 = cnt - ((p + 1 : Nat) : Int) := by omega
          rw [loop_nop hleft hnop, loop_nop hleft (hkind.trans hnop), hcast]
          exact hrec
        · by_cases hinside : p + 1 < cnt
          · have hlength := hsame (p + 1) hinside
            by_cases hlen : cp (p + 1) = 0
            · rw [loop_broken heol hnop hlen, loop_broken (hkind ▸ heol) (hkind ▸ hnop) (hlength.trans hlen)]
            · have hoption : r.option tcpMss tcpNow tiFlags cp' p (cp (p + 1)).toNat =
                  r.option tcpMss tcpNow tiFlags cp p (cp (p + 1)).toNat := by
                by_cases htaken : taken tiFlags (cp p) = some (cp (p + 1)).toNat
                · have hfits := (hcontained p _ hreached h htaken).2 rfl
                  exact option_congr (fun i _ hi => hsame i (by omega)) (toNat_pos hlen)
                · rw [option_of_not_taken htaken, option_of_not_taken (hkind ▸ htaken)]
              have hrec := ih (p + (cp (p + 1)).toNat) (r.option tcpMss tcpNow tiFlags cp p (cp (p + 1)).toNat)
                (by have := toNat_pos hlen; omega) (hreached.long ⟨h, heol, hnop⟩ hlen)
              have hcast : (cnt - p : Int) - (cp (p + 1)).toNat = cnt - ((p + (cp (p + 1)).toNat : Nat) : Int) := by
                omega
              rw [loop_option hleft heol hnop hlen, loop_option hleft (hkind ▸ heol) (hkind ▸ hnop) (hlength ▸ hlen),
                hlength, hoption, hcast]
              exact hrec
          · have htaken : taken tiFlags (cp p) = none := by
              cases htaken : taken tiFlags (cp p) with
              | none => rfl
              | some optlen => exact absurd (hcontained p optlen hreached h htaken).1 hinside
            rw [loop_last hleft (by omega) heol hnop htaken,
              loop_last hleft (by omega) (hkind ▸ heol) (hkind ▸ hnop) (hkind ▸ htaken)]
    · rw [loop_of_le (by omega), loop_of_le (by omega)]

theorem loop_reached (tcpMss : Word16 → σ × Tcpcb → σ × Tcpcb) (tcpNow : Word32) (tiFlags : ThFlags)
    (hsame : ∀ i < cnt, cp' i = cp i) (hreached : options.Reached cp cnt p) (hp : p < cnt) (r : Parse σ) :
    ∃ fuel r', cnt ≤ fuel + p ∧ tcpDooptions tcpMss tcpNow tiFlags cp' cnt r =
      tcpDooptionsLoop tcpMss tcpNow tiFlags cp' (fuel + 1) p (cnt - p : Int) r' := by
  induction hreached with
  | first => exact ⟨cnt, r, le_rfl, by rw [Int.natCast_zero, Int.sub_zero]; rfl⟩
  | @filler q hq hlt hnop ih =>
    obtain ⟨fuel, r', hfuel, heq⟩ := ih hlt
    obtain ⟨fuel, rfl⟩ : ∃ f, fuel = f + 1 := ⟨fuel - 1, by omega⟩
    refine ⟨fuel, r', by omega, ?_⟩
    have hcast : (cnt - q : Int) - 1 = cnt - ((q + 1 : Nat) : Int) := by omega
    rw [heq, loop_nop (by omega) ((hsame q hlt).trans hnop), hcast]
  | @long q hq hlong hlen ih =>
    obtain ⟨hlt, heol, hnop⟩ := hlong
    obtain ⟨fuel, r', hfuel, heq⟩ := ih hlt
    obtain ⟨fuel, rfl⟩ : ∃ f, fuel = f + 1 := ⟨fuel - 1, by omega⟩
    have hpos := toNat_pos hlen
    have hkind := hsame q hlt
    have hlength := hsame (q + 1) (by omega)
    refine ⟨fuel, r'.option tcpMss tcpNow tiFlags cp' q (cp (q + 1)).toNat, by omega, ?_⟩
    have hcast : (cnt - q : Int) - (cp (q + 1)).toNat = cnt - ((q + (cp (q + 1)).toNat : Nat) : Int) := by omega
    rw [heq, loop_option (by omega) (hkind ▸ heol) (hkind ▸ hnop) (hlength ▸ hlen), hlength, hcast]

/-- The options with `x` everywhere behind them, but the length byte of an option that has none. -/
def followed (cp : Nat → Byte) (cnt p : Nat) (optlen : Nat) (x : Byte) (i : Nat) : Byte :=
  if i < cnt then cp i else if i = p + 1 then BitVec.ofNat 8 optlen else x

def takeOffer (mss : Word16) (s : Unit × Tcpcb) : Unit × Tcpcb := (s.1, { s.2 with tMaxseg := mss.toNat })

theorem taken_cases {opt : Byte} (h : taken tiFlags opt = some optlen) :
    (opt = tcpoptMaxseg ∧ tiFlags.syn = true ∧ optlen = tcpolenMaxseg) ∨
    (opt = tcpoptWindow ∧ tiFlags.syn = true ∧ optlen = tcpolenWindow) ∨
    (opt = tcpoptTimestamp ∧ optlen = tcpolenTimestamp) := by
  unfold taken at h
  split_ifs at h with hmaxseg hsyn hwindow hsyn htimestamp
  · exact .inl ⟨hmaxseg, hsyn, (Option.some.inj h).symm⟩
  · exact .inr (.inl ⟨hwindow, hsyn, (Option.some.inj h).symm⟩)
  · exact .inr (.inr ⟨htimestamp, (Option.some.inj h).symm⟩)

theorem option_maxseg (hopt : cp p = tcpoptMaxseg) (hsyn : tiFlags.syn = true) :
    r.option tcpMss tcpNow tiFlags cp p tcpolenMaxseg = r.maxseg tcpMss (netShort cp (p + 2)) := by
  simp [Parse.option, hopt, hsyn]

theorem option_window (hopt : cp p = tcpoptWindow) (hsyn : tiFlags.syn = true) :
    r.option tcpMss tcpNow tiFlags cp p tcpolenWindow = r.window (cp (p + 2)) := by
  have hne : tcpoptWindow ≠ tcpoptMaxseg := by decide
  simp [Parse.option, hopt, hsyn, hne]

theorem option_timestamp (hopt : cp p = tcpoptTimestamp) :
    r.option tcpMss tcpNow tiFlags cp p tcpolenTimestamp =
      r.timestamp tcpNow tiFlags (netLong cp (p + 2)) (netLong cp (p + 6)) := by
  have hne : tcpoptTimestamp ≠ tcpoptMaxseg := by decide
  have hne' : tcpoptTimestamp ≠ tcpoptWindow := by decide
  simp [Parse.option, hopt, hne, hne']

theorem netShort_ne {cp₀ cp₁ : Nat → Byte} (h : cp₀ (p + 1) ≠ cp₁ (p + 1)) : netShort cp₀ p ≠ netShort cp₁ p := by
  intro heq
  have hlow := congrArg (BitVec.setWidth 8) heq
  rw [netShort, netShort, BitVec.setWidth_append_eq_right, BitVec.setWidth_append_eq_right] at hlow
  exact h hlow

theorem netLong_ne {cp₀ cp₁ : Nat → Byte} (h : cp₀ (p + 3) ≠ cp₁ (p + 3)) : netLong cp₀ p ≠ netLong cp₁ p := by
  intro heq
  have hlow := congrArg (BitVec.setWidth 16) heq
  rw [netLong, netLong, BitVec.setWidth_append_eq_right, BitVec.setWidth_append_eq_right] at hlow
  exact netShort_ne h hlow

theorem seen_ne_of_taken {r₀ r₁ : Parse Unit} {cp₀ cp₁ : Nat → Byte} (h : taken tiFlags (cp₀ p) = some optlen)
    (hkind : cp₁ p = cp₀ p) (hlast₀ : cp₀ (p + optlen - 1) = 0) (hlast₁ : cp₁ (p + optlen - 1) = 1) :
    (r₀.option takeOffer tcpNow tiFlags cp₀ p optlen).seen ≠ (r₁.option takeOffer tcpNow tiFlags cp₁ p optlen).seen := by
  intro heq
  have hlast : cp₀ (p + optlen - 1) ≠ cp₁ (p + optlen - 1) := by
    rw [hlast₀, hlast₁]
    decide
  obtain ⟨hopt, hsyn, rfl⟩ | ⟨hopt, hsyn, rfl⟩ | ⟨hopt, rfl⟩ := taken_cases h
  · rw [option_maxseg hopt hsyn, option_maxseg (hkind.trans hopt) hsyn] at heq
    have hmss : (netShort cp₀ (p + 2)).toNat = (netShort cp₁ (p + 2)).toNat := congrArg (fun s => s.1) heq
    exact netShort_ne hlast (BitVec.eq_of_toNat_eq hmss)
  · rw [option_window hopt hsyn, option_window (hkind.trans hopt) hsyn] at heq
    have hshift : min (cp₀ (p + 2)).toNat tcpMaxWinshift = min (cp₁ (p + 2)).toNat tcpMaxWinshift :=
      congrArg (fun s => s.2.2.1) heq
    have hplace : p + tcpolenWindow - 1 = p + 2 := rfl
    rw [← hplace, hlast₀, hlast₁] at hshift
    exact absurd hshift (by decide)
  · rw [option_timestamp hopt, option_timestamp (hkind.trans hopt)] at heq
    have hecr : netLong cp₀ (p + 6) = netLong cp₁ (p + 6) := congrArg (fun s => s.2.2.2.2.2) heq
    exact netLong_ne hlast hecr

theorem taken_pos (h : taken tiFlags (cp p) = some optlen) : 2 < optlen ∧ optlen < 256 := by
  obtain ⟨-, -, rfl⟩ | ⟨-, -, rfl⟩ | ⟨-, rfl⟩ := taken_cases h <;> decide

theorem taken_kind (h : taken tiFlags (cp p) = some optlen) : cp p ≠ tcpoptEol ∧ cp p ≠ tcpoptNop := by
  obtain ⟨hopt, -⟩ | ⟨hopt, -⟩ | ⟨hopt, -⟩ := taken_cases h <;> rw [hopt] <;> decide

theorem dooptions_followed (tcpMss : Word16 → σ × Tcpcb → σ × Tcpcb) (tcpNow : Word32)
    (hreached : options.Reached cp cnt p) (hp : p < cnt) (htaken : taken tiFlags (cp p) = some optlen)
    (hover : cnt < p + optlen) (hlength : p + 1 < cnt → (cp (p + 1)).toNat = optlen) (x : Byte) (r : Parse σ) :
    ∃ r' : Parse σ, tcpDooptions tcpMss tcpNow tiFlags (followed cp cnt p optlen x) cnt r =
      some (r'.option tcpMss tcpNow tiFlags (followed cp cnt p optlen x) p optlen) := by
  have hsame : ∀ i < cnt, followed cp cnt p optlen x i = cp i := fun i hi => if_pos hi
  obtain ⟨fuel, r', hfuel, heq⟩ :=
    loop_reached tcpMss tcpNow tiFlags hsame hreached hp r
  obtain ⟨fuel, rfl⟩ : ∃ f, fuel = f + 1 := ⟨fuel - 1, by omega⟩
  have hbounds := taken_pos htaken
  have hkind := hsame p hp
  have hbyte : (followed cp cnt p optlen x (p + 1)).toNat = optlen := by
    by_cases hinside : p + 1 < cnt
    · rw [hsame _ hinside, hlength hinside]
    · rw [followed, if_neg hinside, if_pos rfl, BitVec.toNat_ofNat]
      exact Nat.mod_eq_of_lt hbounds.2
  have hne : followed cp cnt p optlen x (p + 1) ≠ 0 := by
    intro hzero
    rw [hzero] at hbyte
    exact absurd hbyte (by have : (0 : Byte).toNat = 0 := rfl; omega)
  obtain ⟨heol, hnop⟩ := taken_kind htaken
  refine ⟨r', ?_⟩
  rw [heq, loop_option (by omega) (hkind ▸ heol) (hkind ▸ hnop) hne, hbyte, loop_of_le (by omega)]

/-- The options are confined to their area exactly when the ones that are taken up are; the loop ends in any case. -/
theorem tcpDooptions_confined_iff (tiFlags : ThFlags) (cp : Nat → Byte) (cnt : Nat) :
    (∀ (σ : Type) (tcpMss : Word16 → σ × Tcpcb → σ × Tcpcb) (tcpNow : Word32) (r : Parse σ),
      ∃ r', ∀ more, tcpDooptionsLoop tcpMss tcpNow tiFlags cp (cnt + more + 1) 0 cnt r = some r') ∧
    (Confined tiFlags cp cnt ↔ Contained tiFlags cp cnt) := by
  refine ⟨fun σ tcpMss tcpNow r => loop_terminates cnt 0 cnt r le_rfl, fun hconfined p optlen hreached hp htaken => ?_, ?_⟩
  · by_contra hnot
    have hlength : p + 1 < cnt → (cp (p + 1)).toNat = optlen := by
      intro hinside
      by_contra hne
      exact hnot ⟨hinside, fun heq => absurd heq hne⟩
    have hbounds := taken_pos htaken
    have hover : cnt < p + optlen := by
      by_contra hle
      exact hnot ⟨by omega, fun _ => by omega⟩
    have hrun (x : Byte) := dooptions_followed takeOffer 0 hreached hp htaken hover hlength x
      { path := (), tp := {}, tsPresent := false, tsVal := 0, tsEcr := 0 }
    have hseen (x : Byte) := hconfined Unit takeOffer 0 { path := (), tp := {}, tsPresent := false, tsVal := 0, tsEcr := 0 }
      (followed cp cnt p optlen x) fun i hi => if_pos hi
    obtain ⟨r₀, h₀⟩ := hrun 0
    obtain ⟨r₁, h₁⟩ := hrun 1
    have heq := (hseen 0).trans (hseen 1).symm
    rw [h₀, h₁] at heq
    have hkind (x : Byte) : followed cp cnt p optlen x p = cp p := if_pos hp
    have hlast (x : Byte) : followed cp cnt p optlen x (p + optlen - 1) = x := by
      rw [followed, if_neg (by omega), if_neg (by omega)]
    exact seen_ne_of_taken (by rw [hkind]; exact htaken) ((hkind 1).trans (hkind 0).symm) (hlast 0) (hlast 1)
      (Option.some.inj heq)
  · intro hcontained σ tcpMss tcpNow r cp' hsame
    have hloop := loop_congr tcpMss tcpNow hcontained hsame cnt 0 r (by omega) .first
    rw [Int.natCast_zero, Int.sub_zero] at hloop
    rw [tcpDooptions, hloop, tcpDooptions]

def headOfTimestamp (behind : Byte) (i : Nat) : Byte :=
  [tcpoptNop, tcpoptNop, tcpoptTimestamp, 10].getD i behind

theorem headOfTimestamp_not_confined : ¬Confined { ack := true } (headOfTimestamp 0) 4 := by
  intro h
  have hsame : ∀ i < 4, headOfTimestamp 1 i = headOfTimestamp 0 i := by decide
  have heq := h Unit (fun _ s => s) 0 { path := (), tp := {}, tsPresent := false, tsVal := 0, tsEcr := 0 } _ hsame
  have hval := congrArg (fun seen => seen.map fun s => s.2.2.2.2.1) heq
  exact absurd hval (by decide)

end NetBSD.Tcp
