import NetBSD.Ip.Dooptions
import Mathlib.Data.List.Basic
import Mathlib.Tactic.SplitIfs

/-!
# Options of a datagram that goes out

`ip_insertoptions`, with what `ip_output` makes of the length that it leaves, and the places where an option mbuf comes
from: `ip_pcbopts`, `ip_srcroute` and `icmp_reflect`.
-/

namespace NetBSD.Ip

def maxIpoptlen : Nat := 40
def ipMaxpacket : Nat := 65535
def ipoptSecurity : Byte := 130

structure Ipoption where
  ipoptDst : List Byte
  ipoptList : List Byte
  deriving DecidableEq

structure Outgoing where
  ipLen : Word16
  ipDst : List Byte
  /-- There is no room in front of the header: the data is in a cluster, or too near to the start of the mbuf. -/
  noLead : Nat → Bool
  /-- `MGETHDR` returns an mbuf. -/
  mget : Bool
  /-- What the variable `len` of `ip_output` holds before anything is stored to it. -/
  stale : Int

structure Inserted where
  opts : List Byte
  ipLen : Word16
  ipDst : List Byte
  phlen : Option Nat
  deriving DecidableEq

def ipInsertoptions (m : Outgoing) (opt : Ipoption) : Inserted :=
  let optlen := opt.ipoptList.length
  if ipMaxpacket < optlen + m.ipLen.toNat then { opts := [], ipLen := m.ipLen, ipDst := m.ipDst, phlen := none }
  else
    let ipDst := if opt.ipoptDst.any (· ≠ 0) then opt.ipoptDst else m.ipDst
    if m.noLead optlen ∧ m.mget = false then { opts := [], ipLen := m.ipLen, ipDst, phlen := none }
    else { opts := opt.ipoptList, ipLen := m.ipLen + BitVec.ofNat 16 optlen, ipDst, phlen := some (sizeofIp + optlen) }

structure Sent where
  opts : List Byte
  ipHl : BitVec 4
  ipLen : Word16
  covered : Int
  deriving DecidableEq

/-- `ip_output` without `IP_FORWARDING` and `IP_RAWOUTPUT`, as far as the header's length goes. -/
def outputHeader (m : Outgoing) (opt : Option Ipoption) : Sent :=
  match opt with
  | none => { opts := [], ipHl := BitVec.ofNat 4 (sizeofIp / 4), ipLen := m.ipLen, covered := sizeofIp }
  | some opt =>
    let p := ipInsertoptions m opt
    let hlen : Int := match p.phlen with
      | some n => n
      | none => m.stale
    { opts := p.opts, ipHl := BitVec.ofInt 4 (hlen / 4), ipLen := p.ipLen, covered := hlen }

/-- The loop of `ip_pcbopts`: the first hop of a source route is taken out of the options. -/
def pcboptsLoop : Nat → Nat → Nat → Ipoption → Option Ipoption
  | fuel + 1, p, cnt, m =>
    if 0 < cnt then
      let opt := m.ipoptList.getD p 0
      if opt = ipoptEol then some m
      else if opt = ipoptNop then pcboptsLoop fuel (p + 1) (cnt - 1) m
      else
        let optlen := (m.ipoptList.getD (p + ipoptOlen) 0).toNat
        if optlen ≤ ipoptOlen ∨ cnt < optlen then none
        else if opt = ipoptLsrr ∨ opt = ipoptSsrr then
          if optlen < ipoptMinoff - 1 + 4 then none
          else
            let list := m.ipoptList.set (p + ipoptOlen) (BitVec.ofNat 8 (optlen - 4))
            pcboptsLoop fuel (p + (optlen - 4)) (cnt - 4 - (optlen - 4))
              { ipoptDst := (list.drop (p + 3)).take 4, ipoptList := list.take (p + 3) ++ list.drop (p + 7) }
        else pcboptsLoop fuel (p + optlen) (cnt - optlen) m
    else some m
  | 0, _, _, m => some m

def ipPcbopts (space : Nat) (m : List Byte) : Option Ipoption :=
  if m.length % 4 ≠ 0 then none
  else if space ≤ m.length + 4 then none
  else do
    let opt ← pcboptsLoop m.length 0 m.length { ipoptDst := [0, 0, 0, 0], ipoptList := m }
    if maxIpoptlen < opt.ipoptList.length then none else some opt

def hops (route : List Byte) : Nat → List (List Byte)
  | 0 => []
  | n + 1 => hops route n ++ [(route.drop (4 * n)).take 4]

def ipSrcroute (srcopt dst : List Byte) : Option Ipoption :=
  let route := (hops (srcopt.drop 3) ((srcopt.length - 3) / 4)).reverse
  match route with
  | [] => none
  | first :: rest => some
      { ipoptDst := first
        ipoptList := ipoptNop :: srcopt.take 2 ++ [BitVec.ofNat 8 ipoptMinoff] ++ rest.flatten ++ dst }

def reflectLoop (cp : Nat → Byte) : Nat → Nat → Nat → List Byte
  | fuel + 1, p, cnt =>
    if 0 < cnt then
      if cp p = ipoptEol then []
      else if cp p = ipoptNop then reflectLoop cp fuel (p + 1) (cnt - 1)
      else
        let len := (cp (p + ipoptOlen)).toNat
        if len ≤ 0 ∨ cnt < len then []
        else if cp p = ipoptRr ∨ cp p = ipoptTs ∨ cp p = ipoptSecurity then
          (List.range len).map (fun i => cp (p + i)) ++ reflectLoop cp fuel (p + len) (cnt - len)
        else reflectLoop cp fuel (p + len) (cnt - len)
    else []
  | 0, _, _ => []

/-- The option mbuf of `icmp_reflect`, for a packet with `optlen` bytes of options and the route that was saved from it. -/
def reflectOptions (srcroute : Option Ipoption) (cp : Nat → Byte) (optlen : Nat) : Ipoption :=
  let opts := srcroute.getD { ipoptDst := [0, 0, 0, 0], ipoptList := [] }
  let list := opts.ipoptList ++ reflectLoop cp optlen 0 optlen
  { opts with ipoptList := list ++ List.replicate ((4 - list.length % 4) % 4) ipoptEol }

/-- The option mbufs that come to `ip_output`; `save_rte` has kept an option of a header. -/
inductive Produced : Ipoption → Prop
  | pcbopts {space : Nat} {m : List Byte} {opt : Ipoption} (h : ipPcbopts space m = some opt) : Produced opt
  | srcroute {srcopt dst : List Byte} {opt : Ipoption} (hlo : 4 ≤ srcopt.length) (hhi : srcopt.length ≤ maxIpoptlen)
      (hdst : dst.length = 4) (h : ipSrcroute srcopt dst = some opt) : Produced opt
  | reflect {route : Option Ipoption} {cp : Nat → Byte} {optlen : Nat} (hlo : 0 < optlen) (hhi : optlen ≤ maxIpoptlen)
      (hroute : ∀ r ∈ route, ∃ srcopt dst : List Byte, 4 ≤ srcopt.length ∧ srcopt.length ≤ maxIpoptlen ∧ dst.length = 4 ∧
        ipSrcroute srcopt dst = some r) : Produced (reflectOptions route cp optlen)

def Sized (m : Outgoing) (opt : Option Ipoption) : Prop :=
  (outputHeader m opt).ipHl.toNat * 4 = sizeofIp + (outputHeader m opt).opts.length ∧
  (outputHeader m opt).ipLen.toNat = m.ipLen.toNat + (outputHeader m opt).opts.length ∧
  (sizeofIp + (outputHeader m opt).opts.length) / 4 < 16 ∧
  (outputHeader m opt).covered = (outputHeader m opt).ipHl.toNat * 4

def Outgoing.Takes (m : Outgoing) (opt : Ipoption) : Prop :=
  opt.ipoptList.length + m.ipLen.toNat ≤ ipMaxpacket ∧ (m.noLead opt.ipoptList.length = true → m.mget = true)

instance (m : Outgoing) (opt : Ipoption) : Decidable (m.Takes opt) := by unfold Outgoing.Takes; infer_instance

variable {m : Outgoing} {opt : Ipoption} {fuel p cnt : Nat} {list : List Byte}

theorem length_close_up (h : p + 7 ≤ list.length) : (list.take (p + 3) ++ list.drop (p + 7)).length = list.length - 4 := by
  rw [List.length_append, List.length_take, List.length_drop]
  omega

theorem length_pcboptsLoop : ∀ (fuel p cnt : Nat) (m opt : Ipoption), p + cnt ≤ m.ipoptList.length →
    pcboptsLoop fuel p cnt m = some opt → opt.ipoptList.length % 4 = m.ipoptList.length % 4 := by
  intro fuel
  induction fuel with
  | zero =>
    intro p cnt m opt _ h
    cases h
    rfl
  | succ fuel ih =>
    intro p cnt m opt hcnt h
    rw [pcboptsLoop] at h
    dsimp only at h
    split_ifs at h with hpos heol hnop hbad hroute hshort
    · cases h
      rfl
    · exact ih _ _ _ _ (by omega) h
    · unfold ipoptMinoff at hshort
      refine (ih _ _ _ _ ?_ h).trans ?_
      all_goals
        dsimp only
        rw [length_close_up (by rw [List.length_set]; omega), List.length_set]
        omega
    · exact ih _ _ _ _ (by omega) h
    · cases h
      rfl

theorem length_pcbopts {space : Nat} {m : List Byte} (h : ipPcbopts space m = some opt) :
    opt.ipoptList.length % 4 = 0 ∧ opt.ipoptList.length ≤ maxIpoptlen := by
  unfold ipPcbopts at h
  split_ifs at h with hwords hspace
  obtain ⟨opt', hloop, hopt⟩ := Option.bind_eq_some_iff.1 h
  split_ifs at hopt with hlong
  cases hopt
  exact ⟨(length_pcboptsLoop _ _ _ _ _ (by simp) hloop).trans (not_not.1 hwords), not_lt.1 hlong⟩

theorem length_hops (route : List Byte) : ∀ n, 4 * n ≤ route.length → ∀ hop ∈ hops route n, hop.length = 4
  | 0, _, _, hmem => absurd hmem List.not_mem_nil
  | n + 1, hle, hop, hmem => by
    rw [hops, List.mem_append] at hmem
    obtain hmem | hmem := hmem
    · exact length_hops route n (by omega) hop hmem
    · rw [List.mem_singleton.1 hmem, List.length_take, List.length_drop]
      omega

theorem length_hops_list (route : List Byte) (n : Nat) : (hops route n).length = n := by
  induction n with
  | zero => rfl
  | succ n ih => rw [hops, List.length_append, ih, List.length_singleton]

theorem length_flatten_words : ∀ words : List (List Byte), (∀ w ∈ words, w.length = 4) →
    words.flatten.length = words.length * 4
  | [], _ => rfl
  | w :: words, h => by
    have hrec := length_flatten_words words fun w' hmem => h w' (List.mem_cons_of_mem w hmem)
    rw [List.flatten_cons, List.length_append, hrec, h w List.mem_cons_self, List.length_cons]
    omega

theorem length_srcroute {srcopt dst : List Byte} (hlo : 4 ≤ srcopt.length) (hhi : srcopt.length ≤ maxIpoptlen)
    (hdst : dst.length = 4) (h : ipSrcroute srcopt dst = some opt) :
    opt.ipoptList.length % 4 = 0 ∧ opt.ipoptList.length ≤ maxIpoptlen := by
  unfold ipSrcroute at h
  dsimp only at h
  split at h
  · cases h
  · rename_i first rest hroute
    have hcount := congrArg List.length hroute
    rw [List.length_reverse, length_hops_list, List.length_cons] at hcount
    have hfour : ∀ hop ∈ rest, hop.length = 4 := fun hop hmem =>
      length_hops (srcopt.drop 3) _ (by rw [List.length_drop]; omega) hop
        (List.mem_reverse.1 (hroute ▸ List.mem_cons_of_mem first hmem))
    have hflatten := length_flatten_words rest hfour
    cases h
    simp only [List.length_cons, List.length_append, List.length_take, List.length_nil, hflatten, hdst]
    unfold maxIpoptlen at hhi ⊢
    omega

theorem length_reflect (route : Option Ipoption) (cp : Nat → Byte) (optlen : Nat) :
    (reflectOptions route cp optlen).ipoptList.length % 4 = 0 := by
  simp only [reflectOptions, List.length_append, List.length_replicate]
  omega

theorem Produced.words (h : Produced opt) : opt.ipoptList.length % 4 = 0 := by
  cases h with
  | pcbopts h => exact (length_pcbopts h).1
  | srcroute hlo hhi hdst h => exact (length_srcroute hlo hhi hdst h).1
  | reflect => exact length_reflect ..

theorem outputHeader_takes (h : m.Takes opt) : outputHeader m (some opt) =
    { opts := opt.ipoptList, ipHl := BitVec.ofInt 4 ((sizeofIp + opt.ipoptList.length : Nat) / 4 : Int),
      ipLen := m.ipLen + BitVec.ofNat 16 opt.ipoptList.length, covered := (sizeofIp + opt.ipoptList.length : Nat) } := by
  have hlead : ¬(m.noLead opt.ipoptList.length = true ∧ m.mget = false) := by
    rintro ⟨hno, hget⟩
    rw [h.2 hno] at hget
    cases hget
  rw [outputHeader, ipInsertoptions]
  dsimp only
  rw [if_neg (not_lt.2 h.1), if_neg hlead]

theorem outputHeader_not_takes (h : ¬m.Takes opt) : outputHeader m (some opt) =
    { opts := [], ipHl := BitVec.ofInt 4 (m.stale / 4), ipLen := m.ipLen, covered := m.stale } := by
  rw [outputHeader, ipInsertoptions]
  dsimp only
  by_cases hlong : ipMaxpacket < opt.ipoptList.length + m.ipLen.toNat
  · rw [if_pos hlong]
  · rw [if_neg hlong]
    by_cases hlead : m.noLead opt.ipoptList.length = true ∧ m.mget = false
    · rw [if_pos hlead]
    · refine absurd ⟨not_lt.1 hlong, fun hno => ?_⟩ h
      rw [← Bool.not_eq_false]
      exact fun hget => hlead ⟨hno, hget⟩

theorem toNat_ofInt_four {n : Nat} : (BitVec.ofInt 4 (n : Int)).toNat = n % 16 := by
  rw [BitVec.ofInt_natCast, BitVec.toNat_ofNat]

/-- The header has its length right exactly when there are no options, when they are inserted and are forty bytes at most, or when
they are not inserted and `len` held twenty already. -/
theorem sized_iff (m : Outgoing) (opt : Option Ipoption) (hopt : ∀ o ∈ opt, Produced o) :
    Sized m opt ↔ ∀ o ∈ opt, (m.Takes o → o.ipoptList.length ≤ maxIpoptlen) ∧ (¬m.Takes o → m.stale = sizeofIp) := by
  cases opt with
  | none =>
    refine iff_of_true ⟨rfl, rfl, (by decide : (20 + 0) / 4 < 16), rfl⟩ fun o hmem => ?_
    cases hmem
  | some opt =>
    have hwords := (hopt opt rfl).words
    simp only [Option.mem_def, Option.some.injEq, forall_eq']
    by_cases htakes : m.Takes opt
    · have hroom : opt.ipoptList.length + m.ipLen.toNat ≤ 65535 := htakes.1
      have hlen : (m.ipLen + BitVec.ofNat 16 opt.ipoptList.length).toNat = m.ipLen.toNat + opt.ipoptList.length := by
        rw [BitVec.toNat_add, BitVec.toNat_ofNat]
        omega
      have hhl : (BitVec.ofInt 4 ((sizeofIp + opt.ipoptList.length : Nat) / 4 : Int)).toNat =
          (sizeofIp + opt.ipoptList.length) / 4 % 16 := toNat_ofInt_four
      rw [Sized, outputHeader_takes htakes]
      dsimp only
      rw [hhl, hlen]
      unfold sizeofIp maxIpoptlen
      constructor
      · rintro ⟨hlength, -, hfits, -⟩
        exact ⟨fun _ => by omega, fun hnot => absurd htakes hnot⟩
      · rintro ⟨hmax, -⟩
        have hle := hmax htakes
        exact ⟨by omega, rfl, by omega, by omega⟩
    · rw [Sized, outputHeader_not_takes htakes]
      dsimp only
      rw [List.length_nil]
      constructor
      · rintro ⟨hlength, -, -, hcovered⟩
        exact ⟨fun h => absurd h htakes, fun _ => by rw [hcovered]; exact_mod_cast hlength⟩
      · rintro ⟨-, hstale⟩
        rw [hstale htakes]
        exact ⟨rfl, rfl, by decide, rfl⟩

def noMbuf : Outgoing where
  ipLen := 30
  ipDst := [10, 0, 0, 2]
  noLead _ := true
  mget := false
  stale := 0

def socketOptions : Ipoption where
  ipoptDst := [0, 0, 0, 0]
  ipoptList := [ipoptRr, 7, 4, 0, 0, 0, 0, ipoptEol]

theorem socketOptions_produced : Produced socketOptions :=
  .pcbopts (show ipPcbopts 108 [ipoptRr, 7, 4, 0, 0, 0, 0, ipoptEol] = some socketOptions by decide)

theorem sized_iff_noMbuf : Sized noMbuf (some socketOptions) ↔ ∀ o ∈ some socketOptions,
    (noMbuf.Takes o → o.ipoptList.length ≤ maxIpoptlen) ∧ (¬noMbuf.Takes o → noMbuf.stale = sizeofIp) :=
  sized_iff noMbuf (some socketOptions) fun _ hmem => Option.some.inj hmem ▸ socketOptions_produced

theorem noMbuf_not_sized : Produced socketOptions ∧ ¬Sized noMbuf (some socketOptions) :=
  ⟨socketOptions_produced, fun h => absurd h.1 (by decide)⟩

end NetBSD.Ip
