import NetBSD.Ip.Output
import NetBSD.Lib.Framing

/-!
# Options of fragments

What `ip_optcopy` puts into the header of a fragment, for any option area: a header that a user has made, with
`IP_HDRINCL`, is not looked at before.
-/

namespace NetBSD.Ip

def options : Lib.Tlv where
  last := ipoptEol
  filler := ipoptNop

def optionsOf : Nat → List Byte → List (List Byte)
  | n + 1, opt :: rest =>
    if opt = ipoptEol then []
    else if opt = ipoptNop then [opt] :: optionsOf n rest
    else
      let optlen := max 1 (rest.headD 1).toNat
      (opt :: rest).take optlen :: optionsOf n ((opt :: rest).drop optlen)
  | _, _ => []

def kept (option : List Byte) : Bool := option.head?.any fun opt => opt = ipoptNop ∨ opt &&& 0x80 ≠ 0

def padded (opts : List Byte) : List Byte := opts ++ List.replicate ((4 - opts.length % 4) % 4) ipoptEol

def copiedOptions (area : List Byte) : List Byte := ((optionsOf area.length area).filter kept).flatten

/-- `ip_optcopy` returns, with the options that are to be copied and no more than the area has. -/
def CopiesOptions (m : Packet) : Prop :=
  (∃ fuel opts, ipOptcopyLoop (m.opts ++ m.data) fuel 0 (m.ip.hlen - 20) = some opts) ∧
  ipOptcopy m = some (padded (copiedOptions m.opts)) ∧
  (padded (copiedOptions m.opts)).length % 4 = 0 ∧ (padded (copiedOptions m.opts)).length ≤ m.opts.length

variable {mem area behind : List Byte} {p fuel : Nat} {cnt : Int} {opts : List Byte}

theorem optionsOf_fuel : ∀ (n m : Nat) (area : List Byte), area.length ≤ n → area.length ≤ m →
    optionsOf n area = optionsOf m area
  | _, _, [], _, _ => by simp [optionsOf]
  | n + 1, m + 1, opt :: rest, hn, hm => by
    have hrec : ∀ l : List Byte, l.length ≤ rest.length → optionsOf n l = optionsOf m l := fun l hl =>
      optionsOf_fuel n m l (hl.trans (Nat.le_of_succ_le_succ hn)) (hl.trans (Nat.le_of_succ_le_succ hm))
    rw [optionsOf, optionsOf, hrec rest le_rfl]
    dsimp only
    rw [hrec _ (by rw [List.length_drop, List.length_cons]; omega)]
  | 0, _, _ :: _, hn, _ => absurd hn (Nat.not_succ_le_zero _)
  | _, 0, _ :: _, _, hm => absurd hm (Nat.not_succ_le_zero _)

theorem length_copied_le : ∀ (n : Nat) (area : List Byte), ((optionsOf n area).filter kept).flatten.length ≤ area.length
  | 0, area => by simp [optionsOf]
  | n + 1, [] => by simp [optionsOf]
  | n + 1, opt :: rest => by
    have hcons : ∀ (option : List Byte) (l : List Byte), option.length + l.length ≤ (opt :: rest).length →
        ((option :: optionsOf n l).filter kept).flatten.length ≤ (opt :: rest).length := by
      intro option l hl
      have hrec := length_copied_le n l
      rw [List.filter_cons]
      split
      · rw [List.flatten_cons, List.length_append]
        omega
      · omega
    rw [optionsOf]
    split
    · exact Nat.zero_le _
    · split
      · exact hcons _ _ (by rw [List.length_singleton, List.length_cons, Nat.add_comm])
      · dsimp only
        exact hcons _ _ (by rw [← List.length_append, List.take_append_drop])

theorem length_padded (opts : List Byte) : (padded opts).length = (opts.length + 3) / 4 * 4 := by
  rw [padded, List.length_append, List.length_replicate]
  omega

theorem optcopyLoop_of_le (h : cnt ≤ 0) : ipOptcopyLoop mem (fuel + 1) p cnt = some [] := if_pos h

theorem optcopyLoop_eol (h : 0 < cnt) (heol : mem[p]? = some ipoptEol) : ipOptcopyLoop mem (fuel + 1) p cnt = some [] := by
  rw [ipOptcopyLoop, if_neg (not_le.2 h), heol]
  rfl

theorem optcopyLoop_nop (h : 0 < cnt) (hnop : mem[p]? = some ipoptNop) :
    ipOptcopyLoop mem (fuel + 1) p cnt = (ipOptcopyLoop mem fuel (p + 1) (cnt - 1)).map (ipoptNop :: ·) := by
  have hne : ipoptNop ≠ ipoptEol := by decide
  rw [ipOptcopyLoop, if_neg (not_le.2 h), hnop]
  simp only [Option.bind_eq_bind, Option.bind_some, if_neg hne, if_true]
  cases ipOptcopyLoop mem fuel (p + 1) (cnt - 1) <;> rfl

theorem optcopyLoop_option {opt length : Byte} (h : 0 < cnt) (hopt : mem[p]? = some opt) (heol : opt ≠ ipoptEol)
    (hnop : opt ≠ ipoptNop) (hlength : mem[p + 1]? = some length) (hroom : p + cnt ≤ mem.length) {n : Nat}
    (hn : (n : Int) = min (length.toNat : Int) cnt) :
    ipOptcopyLoop mem (fuel + 1) p cnt = (ipOptcopyLoop mem fuel (p + n) (cnt - n)).map
      ((if opt &&& 0x80 ≠ 0 then (mem.drop p).take n else []) ++ ·) := by
  have hbytes : bytesAt mem p n = some ((mem.drop p).take n) := bytesAt_natCast (by omega)
  rw [ipOptcopyLoop, if_neg (not_le.2 h), hopt, hlength]
  simp only [Option.bind_eq_bind, Option.bind_some, if_neg heol, if_neg hnop, ← hn, Int.toNat_natCast, hbytes]
  cases ipOptcopyLoop mem fuel (p + n) (cnt - n) <;> split <;> rfl

def byteOf (mem : List Byte) (i : Nat) : Byte := mem.getD i 0

theorem byteOf_eq (h : p < mem.length) : mem[p]? = some (byteOf mem p) := by
  rw [byteOf, List.getD_eq_getElem?_getD, List.getElem?_eq_getElem h, Option.getD_some]

def NoneEmpty (area behind : List Byte) : Prop :=
  ∀ p, options.Reached (byteOf (area ++ behind)) area.length p → options.Long (byteOf (area ++ behind)) area.length p →
    byteOf (area ++ behind) (p + 1) ≠ 0

theorem take_drop_append {n : Nat} (hp : p + n ≤ area.length) :
    ((area ++ behind).drop p).take n = (area.drop p).take n := by
  rw [List.drop_append_of_le_length (by omega), List.take_append_of_le_length (by rw [List.length_drop]; omega)]

theorem drop_eq_cons (behind : List Byte) (hp : p < area.length) : area.drop p = byteOf (area ++ behind) p :: area.drop (p + 1) := by
  have hbyte : byteOf (area ++ behind) p = area[p] := by
    rw [byteOf, List.getD_eq_getElem?_getD, List.getElem?_append_left hp, List.getElem?_eq_getElem hp, Option.getD_some]
  rw [hbyte, List.drop_eq_getElem_cons hp]

theorem min_optlen (hp : p < area.length) (hne : byteOf (area ++ behind) (p + 1) ≠ 0) :
    min (max 1 ((area.drop (p + 1)).headD 1).toNat) (area.length - p) =
      min (byteOf (area ++ behind) (p + 1)).toNat (area.length - p) := by
  have hpos : 0 < (byteOf (area ++ behind) (p + 1)).toNat :=
    Nat.pos_of_ne_zero fun hzero => hne (BitVec.eq_of_toNat_eq hzero)
  by_cases hinside : p + 1 < area.length
  · rw [drop_eq_cons behind hinside, List.headD_cons, Nat.max_eq_right hpos]
  · have hone : area.length - p = 1 := by omega
    rw [hone]
    omega

theorem kept_option {opt : Byte} {rest : List Byte} {n : Nat} (hn : 0 < n) (hnop : opt ≠ ipoptNop) :
    kept ((opt :: rest).take n) = decide (opt &&& 0x80 ≠ 0) := by
  obtain ⟨n, rfl⟩ : ∃ m, n = m + 1 := ⟨n - 1, by omega⟩
  simp [kept, hnop]

theorem rest_of_option {n optlen : Nat} (hn : n = min optlen (area.length - p)) :
    (area.drop p).take optlen = (area.drop p).take n ∧ (area.drop p).drop optlen = area.drop (p + n) := by
  have hlength : (area.drop p).length = area.length - p := List.length_drop
  rw [List.drop_drop]
  by_cases hle : optlen ≤ area.length - p
  · rw [hn, Nat.min_eq_left hle]
    exact ⟨rfl, rfl⟩
  · have hnone (i : Nat) (hi : area.length ≤ i) : area.drop i = [] := List.drop_eq_nil_of_le hi
    rw [hnone (p + optlen) (by omega), hnone (p + n) (by omega)]
    exact ⟨(List.take_of_length_le (by omega)).trans (List.take_of_length_le (by omega)).symm, rfl⟩

theorem loop_copies (hbehind : behind ≠ []) (hnonempty : NoneEmpty area behind) : ∀ (fuel p : Nat),
    area.length ≤ fuel + p → options.Reached (byteOf (area ++ behind)) area.length p →
      ipOptcopyLoop (area ++ behind) (fuel + 1) p (area.length - p : Int) =
        some ((optionsOf fuel (area.drop p)).filter kept).flatten := by
  have hlength : area.length < (area ++ behind).length := by
    have := List.length_pos_iff.2 hbehind
    rw [List.length_append]
    omega
  intro fuel
  induction fuel with
  | zero =>
    intro p hfuel _
    rw [optcopyLoop_of_le (by omega)]
    rfl
  | succ fuel ih =>
    intro p hfuel hreached
    by_cases hp : p < area.length
    · have hleft : (0 : Int) < area.length - p := by omega
      have hkind := byteOf_eq (hp.trans hlength)
      rw [drop_eq_cons behind hp, optionsOf]
      by_cases heol : byteOf (area ++ behind) p = ipoptEol
      · rw [optcopyLoop_eol hleft (heol ▸ hkind), if_pos heol]
        rfl
      · rw [if_neg heol]
        by_cases hnop : byteOf (area ++ behind) p = ipoptNop
        · have hrec := ih (p + 1) (by omega) (hreached.filler hp hnop)
          have hcast : (area.length - p : Int) - 1 = area.length - ((p + 1 : Nat) : Int) := by omega
          rw [optcopyLoop_nop hleft (hnop ▸ hkind), hcast, hrec, if_pos hnop, hnop]
          rfl
        · have hlong : options.Long (byteOf (area ++ behind)) area.length p := ⟨hp, heol, hnop⟩
          have hne := hnonempty p hreached hlong
          have hmin := min_optlen hp hne
          have hlen : 0 < (byteOf (area ++ behind) (p + 1)).toNat :=
            Nat.pos_of_ne_zero fun hzero => hne (BitVec.eq_of_toNat_eq hzero)
          obtain ⟨n, hn⟩ : ∃ n, n = min (byteOf (area ++ behind) (p + 1)).toNat (area.length - p) := ⟨_, rfl⟩
          have hrest := rest_of_option (n := n) (hn.trans hmin.symm)
          have hrec : ipOptcopyLoop (area ++ behind) (fuel + 1) (p + n) (area.length - p - n : Int) =
              some ((optionsOf fuel (area.drop (p + n))).filter kept).flatten := by
            by_cases hfits : (byteOf (area ++ behind) (p + 1)).toNat ≤ area.length - p
            · have hrec := ih (p + n) (by omega) (by rw [hn, Nat.min_eq_left hfits]; exact hreached.long hlong hne)
              rwa [Int.natCast_add, ← Int.sub_sub] at hrec
            · rw [optcopyLoop_of_le (by omega), List.drop_eq_nil_of_le (by omega)]
              cases fuel <;> rfl
          rw [optcopyLoop_option hleft hkind heol hnop (byteOf_eq (by omega)) (by omega) (n := n) (by omega), hrec, if_neg hnop]
          dsimp only
          rw [← drop_eq_cons behind hp, hrest.1, hrest.2, List.filter_cons, take_drop_append (by omega),
            drop_eq_cons behind hp, kept_option (by omega) hnop]
          split
          · rename_i hcopied
            rw [if_pos (decide_eq_true hcopied)]
            rfl
          · rename_i hcopied
            rw [if_neg (by simpa using hcopied)]
            rfl
    · rw [optcopyLoop_of_le (by omega), List.drop_eq_nil_of_le (by omega)]
      rfl

theorem loop_empty {area behind : List Byte} {p : Nat} (hbehind : behind ≠ []) (hlong : options.Long (byteOf (area ++ behind)) area.length p)
    (hzero : byteOf (area ++ behind) (p + 1) = 0) (fuel : Nat) :
    ipOptcopyLoop (area ++ behind) fuel p (area.length - p : Int) = none := by
  have hlength : area.length < (area ++ behind).length := by
    have := List.length_pos_iff.2 hbehind
    rw [List.length_append]
    omega
  obtain ⟨hp, heol, hnop⟩ := hlong
  induction fuel with
  | zero => rfl
  | succ fuel ih =>
    rw [optcopyLoop_option (n := 0) (by omega) (byteOf_eq (by omega)) heol hnop (byteOf_eq (by omega)) (by omega)
      (by rw [hzero]; simp; omega), Nat.add_zero, Int.natCast_zero, Int.sub_zero, ih]
    rfl

theorem loop_reached (hbehind : behind ≠ []) (hreached : options.Reached (byteOf (area ++ behind)) area.length p)
    (hp : p < area.length) (hloop : ∃ fuel, (ipOptcopyLoop (area ++ behind) fuel 0 area.length).isSome) :
    ∃ fuel, (ipOptcopyLoop (area ++ behind) fuel p (area.length - p : Int)).isSome := by
  have hlength : area.length < (area ++ behind).length := by
    have := List.length_pos_iff.2 hbehind
    rw [List.length_append]
    omega
  induction hreached with
  | first => simpa using hloop
  | @filler q hq hlt hnop ih =>
    obtain ⟨fuel, hfuel⟩ := ih hlt
    cases fuel with
    | zero => cases hfuel
    | succ fuel =>
      refine ⟨fuel, ?_⟩
      have hkind : (area ++ behind)[q]? = some ipoptNop := (byteOf_eq (by omega)).trans (congrArg some hnop)
      rw [optcopyLoop_nop (by omega) hkind, Option.isSome_map] at hfuel
      rwa [Int.natCast_add, ← Int.sub_sub]
  | @long q hq hlong hlen ih =>
    obtain ⟨hlt, heol, hnop⟩ := hlong
    obtain ⟨fuel, hfuel⟩ := ih hlt
    cases fuel with
    | zero => cases hfuel
    | succ fuel =>
      refine ⟨fuel, ?_⟩
      rw [optcopyLoop_option (n := (byteOf (area ++ behind) (q + 1)).toNat) (by omega) (byteOf_eq (by omega)) heol hnop
        (byteOf_eq (by omega)) (by omega) (by omega), Option.isSome_map] at hfuel
      rwa [Int.natCast_add, ← Int.sub_sub]

/-- `ip_optcopy` does its work exactly when no option that it comes to has a length byte of zero. -/
theorem ipOptcopy_iff (m : Packet) (hhl : 5 ≤ m.ip.ipHl ∧ m.ip.ipHl ≤ 15) (hopts : m.opts.length = m.ip.hlen - 20)
    (hdata : m.data ≠ []) : CopiesOptions m ↔ NoneEmpty m.opts m.data := by
  have hcnt : (m.ip.hlen - 20 : Int) = m.opts.length := by
    rw [hopts]
    unfold IpHeader.hlen
    omega
  constructor
  · rintro ⟨⟨fuel, opts, hloop⟩, -⟩ p hreached hlong hzero
    rw [hcnt] at hloop
    obtain ⟨fuel, hfuel⟩ := loop_reached hdata hreached hlong.lt ⟨fuel, by rw [hloop]; rfl⟩
    rw [loop_empty hdata hlong hzero] at hfuel
    cases hfuel
  · intro hnonempty
    have hloop := loop_copies hdata hnonempty m.ip.hlen 0 (by omega) .first
    have harea : optionsOf m.ip.hlen (m.opts.drop 0) = optionsOf m.opts.length m.opts :=
      optionsOf_fuel _ _ _ (by rw [List.drop_zero]; omega) le_rfl
    rw [harea, Int.natCast_zero, Int.sub_zero] at hloop
    have hle : (copiedOptions m.opts).length ≤ m.opts.length := length_copied_le _ _
    refine ⟨⟨_, _, by rw [hcnt]; exact hloop⟩, ?_, ?_, ?_⟩
    · rw [ipOptcopy, hcnt, hloop]
      rfl
    · rw [length_padded]
      omega
    · have hwords : m.opts.length % 4 = 0 := by
        rw [hopts]
        unfold IpHeader.hlen
        omega
      rw [length_padded]
      omega

def emptyOption : Packet where
  ip := { ipHl := 6, ipTos := 0, ipLen := 2000, ipId := 1, ipOff := 0, ipTtl := 64, ipP := 255, ipSrc := 0x0a000001, ipDst := 0x0a000002 }
  opts := [0x83, 0, 0, 0]
  data := List.replicate 1976 0

theorem ipOptcopy_iff_plain :
    CopiesOptions { emptyOption with opts := [0x94, 4, 0, 0] } ↔ NoneEmpty [0x94, 4, 0, 0] (List.replicate 1976 0) :=
  ipOptcopy_iff { emptyOption with opts := [0x94, 4, 0, 0] } (by decide) rfl (List.cons_ne_nil 0 _)

theorem emptyOption_not_copied : ¬CopiesOptions emptyOption := by
  rintro ⟨⟨fuel, opts, hloop⟩, -⟩
  have hnone := @loop_empty [0x83, 0, 0, 0] (List.replicate 1976 0) 0 (List.cons_ne_nil 0 _)
    ⟨by decide, by decide, by decide⟩ rfl fuel
  cases hnone.symm.trans hloop

end NetBSD.Ip
