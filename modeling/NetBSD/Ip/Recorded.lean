import NetBSD.Ip.Dooptions
import Mathlib.Tactic.SplitIfs
import Mathlib.Tactic.ByContra

/-!
# Where options are recorded

Which datagrams `ip_dooptions` handles within their headers, whatever the interfaces and the routes are.
-/

namespace NetBSD.Ip

section Bytes

variable (mem : Nat → Byte) (cp : Nat)

def optlenAt : Nat := (mem (cp + ipoptOlen)).toNat
def ptrAt : Nat := (mem (cp + ipoptOffset)).toNat
def flgAt : Byte := mem (cp + 3) &&& 0x0f

def routes (opt : Byte) : Prop := opt = ipoptLsrr ∨ opt = ipoptSsrr ∨ opt = ipoptRr

def BadStamp : Prop :=
  optlenAt mem cp < 5 ∨
  (optlenAt mem cp < ptrAt mem cp + 4 ∧ (mem (cp + 3) + 0x10) &&& 0xf0 = 0) ∨
  (ptrAt mem cp + 4 ≤ optlenAt mem cp ∧ flgAt mem cp ≠ ipoptTsTsonly ∧
    (flgAt mem cp = ipoptTsTsandaddr ∨ flgAt mem cp = ipoptTsPrespec → optlenAt mem cp < ptrAt mem cp + 8))

def Malformed (cnt : Nat) : Prop :=
  optlenAt mem cp = 0 ∨ cnt < optlenAt mem cp ∨ (routes (mem cp) ∧ ptrAt mem cp < ipoptMinoff) ∨
    (mem cp = ipoptTs ∧ BadStamp mem cp)

def FitsRoute (hlen : Nat) : Prop :=
  cp + ipoptOffset < hlen ∧ (ipoptMinoff ≤ ptrAt mem cp → 4 ≤ optlenAt mem cp)

def FitsStamp : Prop :=
  5 ≤ optlenAt mem cp → ptrAt mem cp + 4 ≤ optlenAt mem cp →
    (flgAt mem cp = ipoptTsTsonly → 1 ≤ ptrAt mem cp) ∧
    (flgAt mem cp = ipoptTsTsandaddr → ptrAt mem cp + 8 ≤ optlenAt mem cp → 4 ≤ ptrAt mem cp)

def FitsOption (hlen cnt : Nat) : Prop :=
  cp + ipoptOlen < hlen ∧ (0 < optlenAt mem cp → optlenAt mem cp ≤ cnt →
    (routes (mem cp) → FitsRoute mem cp hlen) ∧ (mem cp = ipoptTs → FitsStamp mem cp))

end Bytes

inductive Comes (mem : Nat → Byte) (hlen : Nat) : Nat → Prop
  | first : Comes mem hlen sizeofIp
  | nop {cp : Nat} (h : Comes mem hlen cp) (hlt : cp < hlen) (hnop : mem cp = ipoptNop) : Comes mem hlen (cp + 1)
  | option {cp : Nat} (h : Comes mem hlen cp) (hlt : cp < hlen) (heol : mem cp ≠ ipoptEol) (hnop : mem cp ≠ ipoptNop)
      (hgood : ¬Malformed mem cp (hlen - cp)) : Comes mem hlen (cp + optlenAt mem cp)

structure Lookups.Complete (env : Lookups) : Prop where
  net : ∀ a, (env.ifaIfwithnet a).isSome
  rtaddr : ∀ a, (env.ipRtaddr a).isSome
  ours : ∀ a, (env.ifaIfwithaddr a).isSome

/-- `ip_dooptions` stays in the header, records inside the options, and rejects a datagram with an option that is out of order. -/
def StaysInside (hlen : Nat) (mem : Nat → Byte) : Prop :=
  ∀ env, ipDooptions env hlen mem ≠ .error .fault ∧
    ∀ cp, Comes mem hlen cp → cp < hlen → mem cp ≠ ipoptEol → mem cp ≠ ipoptNop → Malformed mem cp (hlen - cp) →
      (∃ type code, ipDooptions env hlen mem = .error (.bad type code)) ∧
      (env.Complete → ∃ code, ipDooptions env hlen mem = .error (.bad .paramprob code))

def Same (mem' mem : Nat → Byte) (cp : Nat) : Prop := ∀ a, cp ≤ a → mem' a = mem a

variable {env : Lookups} {hlen cp cnt off a : Nat} {mem mem' : Nat → Byte} {o : Place} {w : Work} {v : InAddr} {b : Byte}
variable {bad : Prop} {r : Except Stop Work}

theorem readByte_ok (h : a < hlen) : readByte hlen mem a = .ok (mem a) := if_pos h

theorem readAddr_ok (h : a + 4 ≤ hlen) : readAddr hlen mem a = .ok (addrAt mem a) := if_pos h

theorem record_ok (hlo : o.cp ≤ a) (hhi : a + 4 ≤ o.cp + o.optlen) : o.record mem a v = .ok (putAddr mem a v) :=
  if_pos ⟨hlo, hhi⟩

theorem record_fault (h : ¬(o.cp ≤ a ∧ a + 4 ≤ o.cp + o.optlen)) : o.record mem a v = .error .fault := if_neg h

theorem set_ok {i : Nat} (h : i < o.optlen) : o.set mem i b = .ok (Function.update mem (o.cp + i) b) := if_pos h

theorem putAddr_of_le (h : a + 4 ≤ cp) : Same (putAddr mem a v) mem cp := fun _ hx => dif_neg (by omega)

theorem update_of_lt (h : a < cp) : Same (Function.update mem a b) mem cp :=
  fun _ hx => Function.update_of_ne (by omega) _ _

theorem Same.trans {mem'' : Nat → Byte} (h : Same mem'' mem' cp) (h' : Same mem' mem cp) : Same mem'' mem cp :=
  fun a ha => (h a ha).trans (h' a ha)

theorem noRoom_iff {optlen : Nat} (hoff : off < 256) (hlo : 4 ≤ optlen) (hhi : optlen < 256) :
    noRoom off optlen = true ↔ optlen < off + 4 := by
  simp only [noRoom, BitVec.lt_def, decide_eq_true_eq]
  bv_omega

theorem noRoom_short {optlen : Nat} (hoff : off < 256) (hlo : 0 < optlen) (hhi : optlen < 4) : noRoom off optlen = false := by
  simp only [noRoom, BitVec.lt_def, decide_eq_false_iff_not]
  bv_omega

def Handled (env : Lookups) (o : Place) (bad : Prop) (w : Work) (r : Except Stop Work) : Prop :=
  (bad ∧ ∃ code, r = .error (.bad .paramprob code)) ∨
  (¬bad ∧ ((∃ w', r = .ok w' ∧ Same w'.mem w.mem (o.cp + o.optlen)) ∨
    (¬env.Complete ∧ ∃ code, r = .error (.bad .unreach code))))

theorem Handled.rejected {code : Nat} (hbad : bad) : Handled env o bad w (.error (.bad .paramprob code)) := .inl ⟨hbad, code, rfl⟩

theorem Handled.done {w' : Work} (hgood : ¬bad) (hsame : Same w'.mem w.mem (o.cp + o.optlen)) : Handled env o bad w (.ok w') :=
  .inr ⟨hgood, .inl ⟨w', rfl, hsame⟩⟩

theorem Handled.unreach {code : Nat} (hgood : ¬bad) (hnone : ¬env.Complete) :
    Handled env o bad w (.error (.bad .unreach code)) := .inr ⟨hgood, .inr ⟨hnone, code, rfl⟩⟩

theorem Handled.congr {bad' : Prop} (h : Handled env o bad w r) (hiff : bad ↔ bad') : Handled env o bad' w r := by
  rw [Handled, hiff] at h
  exact h

theorem bump_ok (h : 2 < o.optlen) :
    o.bump mem = .ok (Function.update mem (o.cp + ipoptOffset) (mem (o.cp + ipoptOffset) + 4)) := set_ok h

theorem bump_same (h : 2 < o.optlen) :
    Same (Function.update mem (o.cp + ipoptOffset) b) mem (o.cp + o.optlen) :=
  update_of_lt (by unfold ipoptOffset; omega)

theorem ptrAt_lt (mem : Nat → Byte) (cp : Nat) : ptrAt mem cp < 256 := (mem (cp + ipoptOffset)).isLt

theorem ok_bind {α β : Type} (x : α) (f : α → Except Stop β) : (Except.ok x >>= f) = f x := rfl

theorem record_bump {β : Type} (mem : Nat → Byte) (v : InAddr) (hlo : o.cp ≤ a) (hroom : a + 4 ≤ o.cp + o.optlen) (hlen : 2 < o.optlen)
    (f : (Nat → Byte) → Except Stop β) :
    ∃ m, (o.record mem a v >>= fun m => o.bump m >>= f) = f m ∧ Same m mem (o.cp + o.optlen) := by
  rw [record_ok hlo hroom, ok_bind, bump_ok hlen, ok_bind]
  exact ⟨_, rfl, (bump_same hlen).trans (putAddr_of_le hroom)⟩

theorem saveRte_spec (hlength : o.optlen = optlenAt w.mem o.cp) (hend : o.cp + o.optlen ≤ hlen) :
    ∃ w', saveRte hlen o w = .ok w' ∧ w'.mem = w.mem := by
  unfold saveRte
  dsimp only
  rw [optlenAt] at hlength
  rw [← hlength, if_pos hend]
  split
  · exact ⟨w, rfl, rfl⟩
  · exact ⟨_, rfl, rfl⟩

theorem sourceRoute_spec (hfits : FitsRoute w.mem o.cp hlen) (hlength : o.optlen = optlenAt w.mem o.cp)
    (hend : o.cp + o.optlen ≤ hlen) (hstart : sizeofIp ≤ o.cp) (strict : Bool) :
    Handled env o (ptrAt w.mem o.cp < ipoptMinoff) w (sourceRoute env hlen o strict w) := by
  unfold sourceRoute
  rw [readByte_ok hfits.1, ok_bind]
  by_cases hptr : ptrAt w.mem o.cp < ipoptMinoff
  · rw [if_pos (show (w.mem (o.cp + ipoptOffset)).toNat < ipoptMinoff from hptr)]
    exact .rejected hptr
  · rw [if_neg (show ¬(w.mem (o.cp + ipoptOffset)).toNat < ipoptMinoff from hptr)]
    have hfour := hfits.2 (not_lt.1 hptr)
    have hbyte := ptrAt_lt w.mem o.cp
    have hbyte' : optlenAt w.mem o.cp < 256 := (w.mem (o.cp + ipoptOlen)).isLt
    cases hours : env.ifaIfwithaddr (addrAt w.mem dstOffset) with
    | none =>
      dsimp only
      split
      · exact .unreach hptr fun hcomplete => by simpa [hours] using hcomplete.ours (addrAt w.mem dstOffset)
      · exact .done hptr fun _ _ => rfl
    | some ia =>
      dsimp only
      split
      · obtain ⟨w', hsave, hmem⟩ := saveRte_spec hlength hend
        rw [hsave]
        exact .done hptr fun a _ => by rw [hmem]
      · rename_i hroom
        have hfull : ptrAt w.mem o.cp - 1 + 4 ≤ o.optlen := by
          rw [hlength, noRoom_iff (by unfold ptrAt at hbyte; omega) hfour hbyte'] at hroom
          rw [hlength]
          exact not_lt.1 hroom
        rw [readAddr_ok (by unfold ptrAt at hfull; omega), ok_bind]
        split
        · rename_i hnone
          refine .unreach hptr fun hcomplete => ?_
          split at hnone
          · have hnet := hcomplete.net (addrAt w.mem (o.cp + ((w.mem (o.cp + ipoptOffset)).toNat - 1)))
            rw [((Option.orElse_eq_none _ _).1 hnone).2] at hnet
            cases hnet
          · have hroute := hcomplete.rtaddr (addrAt w.mem (o.cp + ((w.mem (o.cp + ipoptOffset)).toNat - 1)))
            rw [hnone] at hroute
            cases hroute
        · rename_i ia' _
          obtain ⟨m, hm, hsame⟩ := record_bump (o := o)
            (putAddr w.mem dstOffset (addrAt w.mem (o.cp + ((w.mem (o.cp + ipoptOffset)).toNat - 1)))) ia'
            (a := o.cp + ((w.mem (o.cp + ipoptOffset)).toNat - 1)) (by omega) (by unfold ptrAt at hfull; omega) (by omega)
            (fun m => .ok { w with
              mem := m
              forward := !inMulticast (addrAt w.mem (o.cp + ((w.mem (o.cp + ipoptOffset)).toNat - 1))) })
          rw [hm]
          refine .done hptr (hsame.trans (putAddr_of_le ?_))
          unfold dstOffset
          unfold sizeofIp at hstart
          omega

theorem recordRoute_spec (hfits : FitsRoute w.mem o.cp hlen) (hlength : o.optlen = optlenAt w.mem o.cp) :
    Handled env o (ptrAt w.mem o.cp < ipoptMinoff) w (recordRoute env hlen o w) := by
  unfold recordRoute
  rw [readByte_ok hfits.1, ok_bind]
  by_cases hptr : ptrAt w.mem o.cp < ipoptMinoff
  · rw [if_pos (show (w.mem (o.cp + ipoptOffset)).toNat < ipoptMinoff from hptr)]
    exact .rejected hptr
  · rw [if_neg (show ¬(w.mem (o.cp + ipoptOffset)).toNat < ipoptMinoff from hptr)]
    have hfour := hfits.2 (not_lt.1 hptr)
    have hbyte := ptrAt_lt w.mem o.cp
    have hbyte' : optlenAt w.mem o.cp < 256 := (w.mem (o.cp + ipoptOlen)).isLt
    dsimp only
    split
    · exact .done hptr fun _ _ => rfl
    · rename_i hroom
      have hfull : ptrAt w.mem o.cp - 1 + 4 ≤ o.optlen := by
        rw [hlength, noRoom_iff (by unfold ptrAt at hbyte; omega) hfour hbyte'] at hroom
        rw [hlength]
        exact not_lt.1 hroom
      split
      · rename_i hnone
        refine .unreach hptr fun hcomplete => ?_
        have hroute := hcomplete.rtaddr (addrAt w.mem dstOffset)
        rw [((Option.orElse_eq_none _ _).1 hnone).2] at hroute
        cases hroute
      · rename_i ia _
        obtain ⟨m, hm, hsame⟩ := record_bump (o := o) w.mem ia
          (a := o.cp + ((w.mem (o.cp + ipoptOffset)).toNat - 1)) (by omega) (by unfold ptrAt at hfull; omega) (by omega)
          (fun m => .ok { w with mem := m })
        rw [hm]
        exact .done hptr hsame

theorem stamp_spec (hsame : Same mem w.mem (o.cp + o.optlen)) (hgood : ¬bad) (hlen : 2 < o.optlen) (hlo : 1 ≤ ptrAt mem o.cp)
    (hroom : ptrAt mem o.cp + 3 ≤ o.optlen) : Handled env o bad w (stamp env o w mem) := by
  unfold ptrAt at hlo hroom
  obtain ⟨m, hm, hsame'⟩ := record_bump (o := o) mem (env.iptime o.cp)
    (a := o.cp + (mem (o.cp + ipoptOffset)).toNat - 1) (by omega) (by omega) hlen (fun m => .ok { w with mem := m })
  unfold stamp
  rw [hm]
  exact .done hgood (hsame'.trans hsame)

theorem ptrAt_bump (mem : Nat → Byte) (cp : Nat) (b : Byte) : ptrAt (Function.update mem (cp + ipoptOffset) b) cp = b.toNat := by
  rw [ptrAt, Function.update_self]

theorem timestamp_spec {dst : InAddr} (hfits : FitsStamp w.mem o.cp) (hlength : o.optlen = optlenAt w.mem o.cp)
    (hpos : 0 < o.optlen) (hend : o.cp + o.optlen ≤ hlen) (hread : o.cp + ipoptOlen < hlen) :
    Handled env o (BadStamp w.mem o.cp) w (timestamp env hlen o dst w) := by
  have hptrlt := ptrAt_lt w.mem o.cp
  have hlenlt : optlenAt w.mem o.cp < 256 := (w.mem (o.cp + ipoptOlen)).isLt
  unfold timestamp
  rw [readByte_ok hread, ok_bind]
  dsimp only
  rw [show (w.mem (o.cp + ipoptOlen)).toNat = optlenAt w.mem o.cp from rfl]
  by_cases hshort : optlenAt w.mem o.cp < 5
  · rw [if_pos hshort]
    exact .rejected (.inl hshort)
  · rw [if_neg hshort, readByte_ok (by unfold ipoptOffset; omega), ok_bind, readByte_ok (by omega), ok_bind,
      show (w.mem (o.cp + ipoptOffset)).toNat = ptrAt w.mem o.cp from rfl]
    have hfull := noRoom_iff hptrlt (by omega) hlenlt
    split
    · rename_i hroom
      have hover := hfull.1 hroom
      rw [set_ok (by omega), ok_bind]
      split
      · rename_i hzero
        exact .rejected (.inr (.inl ⟨hover, hzero⟩))
      · rename_i hcount
        refine .done ?_ (update_of_lt (by omega))
        rintro (h | ⟨-, h⟩ | ⟨h, -⟩)
        · exact hshort h
        · exact hcount h
        · omega
    · rename_i hroom
      have hfits' : ptrAt w.mem o.cp + 4 ≤ optlenAt w.mem o.cp := by
        by_contra hover
        exact hroom (hfull.2 (by omega))
      obtain ⟨honly, hpair⟩ := hfits (by omega) hfits'
      have hgood (hflg : flgAt w.mem o.cp = ipoptTsTsonly ∨
          (flgAt w.mem o.cp = ipoptTsTsandaddr ∨ flgAt w.mem o.cp = ipoptTsPrespec) ∧
            ptrAt w.mem o.cp + 8 ≤ optlenAt w.mem o.cp) : ¬BadStamp w.mem o.cp := by
        rintro (h | ⟨h, -⟩ | ⟨-, hne, h⟩)
        · exact hshort h
        · omega
        · obtain honly | ⟨hboth, hle⟩ := hflg
          · exact hne honly
          · exact absurd (h hboth) (by omega)
      rw [show w.mem (o.cp + 3) &&& 0x0f = flgAt w.mem o.cp from rfl]
      split
      · rename_i hflg
        exact stamp_spec (fun _ _ => rfl) (hgood (.inl hflg)) (by omega) (honly hflg) (by omega)
      · rename_i honly'
        have hnext : (w.mem (o.cp + ipoptOffset) + 4).toNat = ptrAt w.mem o.cp + 4 ∨ optlenAt w.mem o.cp < ptrAt w.mem o.cp + 8 := by
          unfold ptrAt at hptrlt ⊢
          rw [BitVec.toNat_add]
          have hfour : (4 : Byte).toNat = 4 := rfl
          omega
        split
        · rename_i hflg
          split
          · rename_i hlt
            exact .rejected (.inr (.inr ⟨hfits', honly', fun _ => hlt⟩))
          · rename_i hle
            have hfour := hpair hflg (not_lt.1 hle)
            have hgood' := hgood (.inr ⟨.inl hflg, not_lt.1 hle⟩)
            split
            · exact .done hgood' fun _ _ => rfl
            · rename_i ia _
              have hbefore : putAddr w.mem (o.cp + ptrAt w.mem o.cp - 1) ia (o.cp + ipoptOffset) = w.mem (o.cp + ipoptOffset) :=
                dif_neg (by unfold ipoptOffset; omega)
              rw [record_ok (by omega) (by omega), ok_bind, bump_ok (by omega), ok_bind, hbefore]
              have hptr := ptrAt_bump (putAddr w.mem (o.cp + ptrAt w.mem o.cp - 1) ia) o.cp
                (w.mem (o.cp + ipoptOffset) + 4)
              exact stamp_spec ((bump_same (by omega)).trans (putAddr_of_le (by omega))) hgood' (by omega) (by omega) (by omega)
        · rename_i hpair'
          split
          · rename_i hflg
            split
            · rename_i hlt
              exact .rejected (.inr (.inr ⟨hfits', honly', fun _ => hlt⟩))
            · rename_i hle
              have hgood' := hgood (.inr ⟨.inr hflg, not_lt.1 hle⟩)
              rw [readAddr_ok (by omega), ok_bind]
              split
              · exact .done hgood' fun _ _ => rfl
              · rw [bump_ok (by omega), ok_bind]
                have hptr := ptrAt_bump w.mem o.cp (w.mem (o.cp + ipoptOffset) + 4)
                exact stamp_spec (bump_same (by omega)) hgood' (by omega) (by omega) (by omega)
          · rename_i hnone
            exact .rejected (.inr (.inr ⟨hfits', honly', fun hboth => absurd hboth (not_or.2 ⟨hpair', hnone⟩)⟩))

theorem optionKind_spec (env : Lookups) (dst : InAddr) (hroute : routes (w.mem o.cp) → FitsRoute w.mem o.cp hlen)
    (hstamp : w.mem o.cp = ipoptTs → FitsStamp w.mem o.cp) (hlength : o.optlen = optlenAt w.mem o.cp) (hpos : 0 < o.optlen)
    (hend : o.cp + o.optlen ≤ hlen) (hread : o.cp + ipoptOlen < hlen) (hstart : sizeofIp ≤ o.cp) :
    Handled env o ((routes (w.mem o.cp) ∧ ptrAt w.mem o.cp < ipoptMinoff) ∨ (w.mem o.cp = ipoptTs ∧ BadStamp w.mem o.cp)) w
      (optionKind env hlen o dst (w.mem o.cp) w) := by
  have hts (h : w.mem o.cp = ipoptTs) : ¬routes (w.mem o.cp) := by
    rw [h]
    unfold routes
    decide
  have hasRoute (h : routes (w.mem o.cp)) : ptrAt w.mem o.cp < ipoptMinoff ↔
      (routes (w.mem o.cp) ∧ ptrAt w.mem o.cp < ipoptMinoff) ∨ (w.mem o.cp = ipoptTs ∧ BadStamp w.mem o.cp) :=
    ⟨fun hlt => .inl ⟨h, hlt⟩, fun hbad => hbad.elim And.right fun hstamp => absurd h (hts hstamp.1)⟩
  unfold optionKind
  split
  · rename_i hlsrr
    have hr : routes (w.mem o.cp) := .inl hlsrr
    exact (sourceRoute_spec (hroute hr) hlength hend hstart false).congr (hasRoute hr)
  · split
    · rename_i hssrr
      have hr : routes (w.mem o.cp) := .inr (.inl hssrr)
      exact (sourceRoute_spec (hroute hr) hlength hend hstart true).congr (hasRoute hr)
    · split
      · rename_i hrr
        have hr : routes (w.mem o.cp) := .inr (.inr hrr)
        exact (recordRoute_spec (hroute hr) hlength).congr (hasRoute hr)
      · rename_i hlsrr hssrr hrr
        have hnone : ¬routes (w.mem o.cp) := not_or.2 ⟨hlsrr, not_or.2 ⟨hssrr, hrr⟩⟩
        split
        · rename_i hkind
          refine (timestamp_spec (hstamp hkind) hlength hpos hend hread).congr ⟨fun hbad => .inr ⟨hkind, hbad⟩, ?_⟩
          exact fun hbad => hbad.elim (fun h => absurd h.1 hnone) And.right
        · rename_i hkind
          exact .done (not_or.2 ⟨fun h => hnone h.1, fun h => hkind h.1⟩) fun _ _ => rfl

theorem oneOption_spec (env : Lookups) (dst : InAddr) (hfits : FitsOption w.mem cp hlen cnt) (hend : cp + cnt ≤ hlen) (hstart : sizeofIp ≤ cp) :
    (Malformed w.mem cp cnt ∧ ∃ code, oneOption env hlen dst cp cnt w = .error (.bad .paramprob code)) ∨
    (¬Malformed w.mem cp cnt ∧
      ((∃ w', oneOption env hlen dst cp cnt w = .ok (optlenAt w.mem cp, w') ∧ Same w'.mem w.mem (cp + optlenAt w.mem cp)) ∨
        (¬env.Complete ∧ ∃ code, oneOption env hlen dst cp cnt w = .error (.bad .unreach code)))) := by
  unfold oneOption
  rw [readByte_ok hfits.1, ok_bind]
  dsimp only
  rw [show (w.mem (cp + ipoptOlen)).toNat = optlenAt w.mem cp from rfl]
  by_cases hlength : optlenAt w.mem cp ≤ 0 ∨ cnt < optlenAt w.mem cp
  · rw [if_pos hlength]
    refine .inl ⟨?_, _, rfl⟩
    exact hlength.elim (fun h => .inl (Nat.le_zero.1 h)) fun h => .inr (.inl h)
  · rw [if_neg hlength]
    obtain ⟨hpos, hle⟩ := not_or.1 hlength
    obtain ⟨hroute, hstamp⟩ := hfits.2 (not_le.1 hpos) (not_lt.1 hle)
    have hspec := optionKind_spec env dst (w := w) (o := { cp, optlen := optlenAt w.mem cp })
      hroute hstamp rfl (not_le.1 hpos) (by dsimp only; omega) hfits.1 hstart
    have hmalformed : Malformed w.mem cp cnt ↔
        (routes (w.mem cp) ∧ ptrAt w.mem cp < ipoptMinoff) ∨ (w.mem cp = ipoptTs ∧ BadStamp w.mem cp) := by
      constructor
      · rintro (h | h | h)
        · exact absurd h.le hpos
        · exact absurd h hle
        · exact h
      · exact fun h => .inr (.inr h)
    obtain ⟨hbad, code, hcode⟩ | ⟨hgood, ⟨w', hok, hsame⟩ | ⟨hnone, code, hcode⟩⟩ := hspec
    · exact .inl ⟨hmalformed.2 hbad, code, by rw [hcode]; rfl⟩
    · exact .inr ⟨fun h => hgood (hmalformed.1 h), .inl ⟨w', by rw [hok]; rfl, hsame⟩⟩
    · exact .inr ⟨fun h => hgood (hmalformed.1 h), .inr ⟨hnone, code, by rw [hcode]; rfl⟩⟩

theorem Same.optlenAt (hsame : Same mem' mem cp) : optlenAt mem' cp = optlenAt mem cp := by
  rw [Ip.optlenAt, hsame (cp + ipoptOlen) (Nat.le_add_right ..), Ip.optlenAt]

theorem Same.ptrAt (hsame : Same mem' mem cp) : ptrAt mem' cp = ptrAt mem cp := by
  rw [Ip.ptrAt, hsame (cp + ipoptOffset) (Nat.le_add_right ..), Ip.ptrAt]

theorem Same.malformed (hsame : Same mem' mem cp) : Malformed mem' cp cnt ↔ Malformed mem cp cnt := by
  rw [Malformed, Malformed, BadStamp, BadStamp, flgAt, flgAt, hsame.optlenAt, hsame.ptrAt, hsame cp le_rfl,
    hsame (cp + 3) (Nat.le_add_right ..)]

theorem Same.fits (hsame : Same mem' mem cp) : FitsOption mem' cp hlen cnt ↔ FitsOption mem cp hlen cnt := by
  rw [FitsOption, FitsOption, FitsRoute, FitsRoute, FitsStamp, FitsStamp, flgAt, flgAt, hsame.optlenAt, hsame.ptrAt, hsame cp le_rfl,
    hsame (cp + 3) (Nat.le_add_right ..)]

theorem Same.mono {cp' : Nat} (h : Same mem' mem cp) (hle : cp ≤ cp') : Same mem' mem cp' := fun a ha => h a (hle.trans ha)

variable {dst : InAddr} {fuel : Nat}

theorem loop_end : dooptionsLoop env hlen dst fuel cp 0 w = .ok w := by
  cases fuel <;> rfl

theorem loop_eol (hlt : cp < hlen) (heol : w.mem cp = ipoptEol) :
    dooptionsLoop env hlen dst (fuel + 1) cp (hlen - cp) w = .ok w := by
  rw [dooptionsLoop, if_pos (by omega), readByte_ok hlt, ok_bind, if_pos heol]

theorem loop_nop (hlt : cp < hlen) (hnop : w.mem cp = ipoptNop) :
    dooptionsLoop env hlen dst (fuel + 1) cp (hlen - cp) w = dooptionsLoop env hlen dst fuel (cp + 1) (hlen - (cp + 1)) w := by
  have hne : ipoptNop ≠ ipoptEol := by decide
  rw [dooptionsLoop, if_pos (by omega), readByte_ok hlt, ok_bind, hnop, if_neg hne, if_pos rfl, Nat.sub_sub]

theorem loop_option (hlt : cp < hlen) (heol : w.mem cp ≠ ipoptEol) (hnop : w.mem cp ≠ ipoptNop) :
    dooptionsLoop env hlen dst (fuel + 1) cp (hlen - cp) w = (oneOption env hlen dst cp (hlen - cp) w >>= fun r =>
      dooptionsLoop env hlen dst fuel (cp + r.1) (hlen - cp - r.1) r.2) := by
  rw [dooptionsLoop, if_pos (by omega), readByte_ok hlt, ok_bind, if_neg heol, if_neg hnop]

theorem Comes.bounds (h : Comes mem hlen cp) (hhl : sizeofIp ≤ hlen) : sizeofIp ≤ cp ∧ cp ≤ hlen := by
  induction h with
  | first => exact ⟨le_rfl, hhl⟩
  | nop _ hlt _ ih => exact ⟨ih.1.trans (Nat.le_succ _), hlt⟩
  | @option cp _ hlt _ _ hgood ih =>
    have hle : optlenAt mem cp ≤ hlen - cp := by
      by_contra hover
      exact hgood (.inr (.inl (not_le.1 hover)))
    omega

def AtPlace (env : Lookups) (hlen : Nat) (mem : Nat → Byte) (cp : Nat) : Prop :=
  ∃ fuel w, hlen - cp ≤ fuel ∧ Same w.mem mem cp ∧
    ipDooptions env hlen mem = dooptionsLoop env hlen (addrAt mem dstOffset) fuel cp (hlen - cp) w

def Unfit (hlen : Nat) (mem : Nat → Byte) (cp : Nat) : Prop :=
  cp < hlen ∧ mem cp ≠ ipoptEol ∧ mem cp ≠ ipoptNop ∧ ¬FitsOption mem cp hlen (hlen - cp)

theorem atPlace_of_comes (env : Lookups) (hhl : sizeofIp ≤ hlen) (h : Comes mem hlen cp) :
    AtPlace env hlen mem cp ∨ (¬env.Complete ∧ ∃ code, ipDooptions env hlen mem = .error (.bad .unreach code)) ∨
      ∃ cp', Comes mem hlen cp' ∧ Unfit hlen mem cp' ∧ AtPlace env hlen mem cp' := by
  induction h with
  | first => exact .inl ⟨hlen - sizeofIp, { mem }, le_rfl, fun _ _ => rfl, rfl⟩
  | @nop cp _ hlt hnop ih =>
    refine ih.imp_left fun ⟨fuel, w, hfuel, hsame, hrun⟩ => ?_
    obtain ⟨fuel, rfl⟩ : ∃ f, fuel = f + 1 := ⟨fuel - 1, by omega⟩
    exact ⟨fuel, w, by omega, hsame.mono (Nat.le_succ cp), hrun.trans (loop_nop hlt ((hsame cp le_rfl).trans hnop))⟩
  | @option cp hcomes hlt heol hnop hgood ih =>
    obtain hplace | hrest := ih
    · by_cases hfits : FitsOption mem cp hlen (hlen - cp)
      · obtain ⟨fuel, w, hfuel, hsame, hrun⟩ := hplace
        obtain ⟨fuel, rfl⟩ : ∃ f, fuel = f + 1 := ⟨fuel - 1, by omega⟩
        have hkind := hsame cp le_rfl
        rw [loop_option hlt (hkind ▸ heol) (hkind ▸ hnop)] at hrun
        obtain ⟨hbad, -⟩ | ⟨-, ⟨w', hok, hsame'⟩ | ⟨hnone, code, hcode⟩⟩ := oneOption_spec env
          (addrAt mem dstOffset) (hsame.fits.2 hfits) (by omega) (hcomes.bounds hhl).1
        · exact absurd (hsame.malformed.1 hbad) hgood
        · rw [hok, ok_bind, hsame.optlenAt, Nat.sub_sub] at hrun
          rw [hsame.optlenAt] at hsame'
          have hpos : optlenAt mem cp ≠ 0 := fun hzero => hgood (.inl hzero)
          exact .inl ⟨fuel, w', by omega, hsame'.trans (hsame.mono (Nat.le_add_right ..)), hrun⟩
        · rw [hcode] at hrun
          exact .inr (.inl ⟨hnone, code, hrun⟩)
      · exact .inr (.inr ⟨cp, hcomes, ⟨hlt, heol, hnop, hfits⟩, hplace⟩)
    · exact .inr hrest

theorem ok_ne_fault : (Except.ok w : Except Stop Work) ≠ .error .fault := by
  intro h
  cases h

theorem bad_ne_fault {type : IcmpType} {code : Nat} : (Except.error (.bad type code) : Except Stop Work) ≠ .error .fault := by
  intro h
  cases h

theorem loop_no_fault (hhl : sizeofIp ≤ hlen) (hfits : ∀ cp, Comes mem hlen cp → ¬Unfit hlen mem cp) :
    ∀ (fuel cp : Nat) (w : Work), Comes mem hlen cp → Same w.mem mem cp →
      dooptionsLoop env hlen dst fuel cp (hlen - cp) w ≠ .error .fault := by
  intro fuel
  induction fuel with
  | zero => exact fun cp w _ _ => ok_ne_fault
  | succ fuel ih =>
    intro cp w hcomes hsame
    have hbounds := hcomes.bounds hhl
    by_cases hlt : cp < hlen
    · have hkind := hsame cp le_rfl
      by_cases heol : mem cp = ipoptEol
      · rw [loop_eol hlt (hkind.trans heol)]
        exact ok_ne_fault
      · by_cases hnop : mem cp = ipoptNop
        · rw [loop_nop hlt (hkind.trans hnop)]
          exact ih (cp + 1) w (hcomes.nop hlt hnop) (hsame.mono (Nat.le_succ cp))
        · have hfit : FitsOption mem cp hlen (hlen - cp) := by
            by_contra hnot
            exact hfits cp hcomes ⟨hlt, heol, hnop, hnot⟩
          rw [loop_option hlt (hkind ▸ heol) (hkind ▸ hnop)]
          obtain ⟨-, code, hcode⟩ | ⟨hgood, ⟨w', hok, hsame'⟩ | ⟨-, code, hcode⟩⟩ := oneOption_spec env dst
            (hsame.fits.2 hfit) (by omega) hbounds.1
          · rw [hcode]
            exact bad_ne_fault
          · rw [hok, ok_bind, hsame.optlenAt, Nat.sub_sub]
            rw [hsame.optlenAt] at hsame'
            exact ih _ w' (hcomes.option hlt heol hnop fun hbad => hgood (hsame.malformed.2 hbad))
              (hsame'.trans (hsame.mono (Nat.le_add_right ..)))
          · rw [hcode]
            exact bad_ne_fault
    · rw [Nat.sub_eq_zero_of_le (not_lt.1 hlt), loop_end]
      exact ok_ne_fault

def everyRoute : Lookups where
  ifaIfwithaddr _ := some fun _ => 200
  ifaIfwithdstaddr _ := some fun _ => 200
  ifaIfwithnet _ := some fun _ => 200
  ipRtaddr _ := some fun _ => 200
  ifaofIfpforaddr _ := some fun _ => 200
  iptime _ _ := 0

theorem readByte_fault (h : ¬a < hlen) : readByte hlen mem a = .error .fault := if_neg h

theorem record_bind_fault {β : Type} (h : ¬(o.cp ≤ a ∧ a + 4 ≤ o.cp + o.optlen)) (f : (Nat → Byte) → Except Stop β) :
    (o.record mem a v >>= f) = .error .fault := by
  rw [record_fault h]
  rfl

theorem sourceRoute_fault (hunfit : ¬FitsRoute w.mem o.cp hlen) (hlength : o.optlen = optlenAt w.mem o.cp) (hpos : 0 < o.optlen)
    (strict : Bool) : sourceRoute everyRoute hlen o strict w = .error .fault := by
  unfold sourceRoute
  by_cases hread : o.cp + ipoptOffset < hlen
  · have hshort : ¬(ipoptMinoff ≤ ptrAt w.mem o.cp → 4 ≤ optlenAt w.mem o.cp) := fun h => hunfit ⟨hread, h⟩
    obtain ⟨hptr, hlen⟩ := Classical.not_imp.1 hshort
    have hbyte := ptrAt_lt w.mem o.cp
    have hroom : noRoom ((w.mem (o.cp + ipoptOffset)).toNat - 1) o.optlen = false := by
      unfold ptrAt at hbyte
      exact noRoom_short (by omega) hpos (by omega)
    rw [readByte_ok hread, ok_bind, if_neg (show ¬(w.mem (o.cp + ipoptOffset)).toNat < ipoptMinoff from not_lt.2 hptr)]
    dsimp only [everyRoute]
    rw [hroom, if_neg Bool.false_ne_true]
    unfold readAddr
    split
    · unfold ptrAt ipoptMinoff at hptr
      have hplace : ¬(o.cp ≤ o.cp + ((w.mem (o.cp + ipoptOffset)).toNat - 1) ∧
          o.cp + ((w.mem (o.cp + ipoptOffset)).toNat - 1) + 4 ≤ o.cp + o.optlen) := by omega
      cases strict <;> exact record_bind_fault hplace _
    · rfl
  · rw [readByte_fault hread]
    rfl

theorem recordRoute_fault (hunfit : ¬FitsRoute w.mem o.cp hlen) (hlength : o.optlen = optlenAt w.mem o.cp)
    (hpos : 0 < o.optlen) : recordRoute everyRoute hlen o w = .error .fault := by
  unfold recordRoute
  by_cases hread : o.cp + ipoptOffset < hlen
  · have hshort : ¬(ipoptMinoff ≤ ptrAt w.mem o.cp → 4 ≤ optlenAt w.mem o.cp) := fun h => hunfit ⟨hread, h⟩
    obtain ⟨hptr, hlen⟩ := Classical.not_imp.1 hshort
    have hbyte := ptrAt_lt w.mem o.cp
    have hroom : noRoom ((w.mem (o.cp + ipoptOffset)).toNat - 1) o.optlen = false := by
      unfold ptrAt at hbyte
      exact noRoom_short (by omega) hpos (by omega)
    rw [readByte_ok hread, ok_bind, if_neg (show ¬(w.mem (o.cp + ipoptOffset)).toNat < ipoptMinoff from not_lt.2 hptr)]
    dsimp only [everyRoute]
    rw [hroom, if_neg Bool.false_ne_true]
    unfold ptrAt ipoptMinoff at hptr
    have hplace : ¬(o.cp ≤ o.cp + ((w.mem (o.cp + ipoptOffset)).toNat - 1) ∧
        o.cp + ((w.mem (o.cp + ipoptOffset)).toNat - 1) + 4 ≤ o.cp + o.optlen) := by omega
    exact record_bind_fault hplace _
  · rw [readByte_fault hread]
    rfl

theorem timestamp_fault {dst : InAddr} (hunfit : ¬FitsStamp w.mem o.cp) (hlength : o.optlen = optlenAt w.mem o.cp)
    (hend : o.cp + o.optlen ≤ hlen) (hstart : sizeofIp ≤ o.cp) (hhl : hlen ≤ 60) :
    timestamp everyRoute hlen o dst w = .error .fault := by
  have hptrlt := ptrAt_lt w.mem o.cp
  have hlenlt : optlenAt w.mem o.cp < 256 := (w.mem (o.cp + ipoptOlen)).isLt
  obtain ⟨hfive, hunfit'⟩ := Classical.not_imp.1 hunfit
  obtain ⟨hroom, hflags⟩ := Classical.not_imp.1 hunfit'
  have hfull : noRoom (ptrAt w.mem o.cp) (optlenAt w.mem o.cp) = false := by
    rw [Bool.eq_false_iff]
    intro h
    have := (noRoom_iff hptrlt (by omega) hlenlt).1 h
    omega
  unfold timestamp
  rw [readByte_ok (by unfold ipoptOlen; omega), ok_bind]
  dsimp only
  rw [show (w.mem (o.cp + ipoptOlen)).toNat = optlenAt w.mem o.cp from rfl, if_neg (by omega),
    readByte_ok (by unfold ipoptOffset; omega), ok_bind, readByte_ok (by omega), ok_bind,
    show (w.mem (o.cp + ipoptOffset)).toNat = ptrAt w.mem o.cp from rfl, hfull, if_neg Bool.false_ne_true,
    show w.mem (o.cp + 3) &&& 0x0f = flgAt w.mem o.cp from rfl]
  by_cases hflg : flgAt w.mem o.cp = ipoptTsTsonly
  · rw [if_pos hflg, stamp, show (w.mem (o.cp + ipoptOffset)).toNat = ptrAt w.mem o.cp from rfl]
    have hzero : ptrAt w.mem o.cp = 0 := by
      by_contra hne
      refine hflags ⟨fun _ => Nat.pos_of_ne_zero hne, fun hpair => ?_⟩
      rw [hflg] at hpair
      exact absurd hpair (by decide)
    unfold sizeofIp at hstart
    exact record_bind_fault (by omega) _
  · have hpair : flgAt w.mem o.cp = ipoptTsTsandaddr ∧ ptrAt w.mem o.cp + 8 ≤ optlenAt w.mem o.cp ∧ ptrAt w.mem o.cp < 4 := by
      by_contra hnot
      refine hflags ⟨fun honly => absurd honly hflg, fun hpair hle => ?_⟩
      by_contra hlt
      exact hnot ⟨hpair, hle, not_le.1 hlt⟩
    obtain ⟨hpair, hle, hptr⟩ := hpair
    rw [if_neg hflg, if_pos hpair, if_neg (by omega)]
    dsimp only [everyRoute]
    by_cases hzero : ptrAt w.mem o.cp = 0
    · unfold sizeofIp at hstart
      exact record_bind_fault (by omega) _
    · rw [record_ok (by omega) (by omega), ok_bind, bump_ok (by omega), ok_bind]
      have hover : putAddr w.mem (o.cp + ptrAt w.mem o.cp - 1) (fun _ => 200) (o.cp + ipoptOffset) = 200 :=
        dif_pos (by unfold ipoptOffset; omega)
      have hfar : (200 + 4 : Byte).toNat = 204 := rfl
      rw [hover, stamp, Function.update_self]
      exact record_bind_fault (by omega) _

theorem oneOption_fault {dst : InAddr} (hunfit : ¬FitsOption w.mem cp hlen cnt) (hend : cp + cnt ≤ hlen) (hstart : sizeofIp ≤ cp)
    (hhl : hlen ≤ 60) : oneOption everyRoute hlen dst cp cnt w = .error .fault := by
  unfold oneOption
  by_cases hread : cp + ipoptOlen < hlen
  · obtain ⟨hpos, hrest⟩ := Classical.not_imp.1 fun h => hunfit ⟨hread, h⟩
    obtain ⟨hle, hkinds⟩ := Classical.not_imp.1 hrest
    rw [readByte_ok hread, ok_bind]
    dsimp only
    rw [show (w.mem (cp + ipoptOlen)).toNat = optlenAt w.mem cp from rfl, if_neg (by omega)]
    have hkind : optionKind everyRoute hlen { cp, optlen := optlenAt w.mem cp } dst (w.mem cp) w = .error .fault := by
      unfold optionKind
      by_cases hroutes : routes (w.mem cp) → FitsRoute w.mem cp hlen
      · have hstamp : ¬(w.mem cp = ipoptTs → FitsStamp w.mem cp) := fun h => hkinds ⟨hroutes, h⟩
        obtain ⟨hts, hunfit⟩ := Classical.not_imp.1 hstamp
        rw [hts, if_neg (by decide), if_neg (by decide), if_neg (by decide), if_pos rfl]
        exact timestamp_fault hunfit rfl (by dsimp only; omega) hstart hhl
      · obtain ⟨hroute, hunfit⟩ := Classical.not_imp.1 hroutes
        split
        · exact sourceRoute_fault hunfit rfl hpos false
        · split
          · exact sourceRoute_fault hunfit rfl hpos true
          · rename_i hlsrr hssrr
            rw [if_pos ((hroute.resolve_left hlsrr).resolve_left hssrr)]
            exact recordRoute_fault hunfit rfl hpos
    rw [hkind]
    rfl
  · rw [readByte_fault hread]
    rfl

theorem everyRoute_complete : everyRoute.Complete := ⟨fun _ => rfl, fun _ => rfl, fun _ => rfl⟩

theorem dooptions_fault (hlo : sizeofIp ≤ hlen) (hhi : hlen ≤ 60) (hcomes : Comes mem hlen cp) (hunfit : Unfit hlen mem cp) :
    ipDooptions everyRoute hlen mem = .error .fault := by
  have hat : ∀ cp, Comes mem hlen cp → Unfit hlen mem cp → AtPlace everyRoute hlen mem cp →
      ipDooptions everyRoute hlen mem = .error .fault := by
    intro cp hcomes hunfit hplace
    obtain ⟨fuel, w, hfuel, hsame, hrun⟩ := hplace
    obtain ⟨hlt, heol, hnop, hnot⟩ := hunfit
    obtain ⟨fuel, rfl⟩ : ∃ f, fuel = f + 1 := ⟨fuel - 1, by omega⟩
    have hkind := hsame cp le_rfl
    rw [hrun, loop_option hlt (hkind ▸ heol) (hkind ▸ hnop),
      oneOption_fault (fun h => hnot (hsame.fits.1 h)) (by omega) (hcomes.bounds hlo).1 hhi]
    rfl
  obtain hplace | ⟨hnone, -⟩ | ⟨cp', hcomes', hunfit', hplace⟩ := atPlace_of_comes everyRoute hlo hcomes
  · exact hat cp hcomes hunfit hplace
  · exact absurd everyRoute_complete hnone
  · exact hat cp' hcomes' hunfit' hplace

/-- `ip_dooptions` does what it is to do exactly when every option that it comes to fits. -/
theorem staysInside_iff (hlen : Nat) (hlo : sizeofIp ≤ hlen) (hhi : hlen ≤ 60) (mem : Nat → Byte) :
    StaysInside hlen mem ↔ ∀ cp, Comes mem hlen cp → ¬Unfit hlen mem cp := by
  constructor
  · intro hinside cp hcomes hunfit
    exact (hinside everyRoute).1 (dooptions_fault hlo hhi hcomes hunfit)
  · intro hfits env
    refine ⟨loop_no_fault hlo hfits _ _ _ .first fun _ _ => rfl, fun cp hcomes hlt heol hnop hbad => ?_⟩
    obtain hplace | ⟨hnone, code, hcode⟩ | ⟨cp', hcomes', hunfit, -⟩ := atPlace_of_comes env hlo hcomes
    · obtain ⟨fuel, w, hfuel, hsame, hrun⟩ := hplace
      obtain ⟨fuel, rfl⟩ : ∃ f, fuel = f + 1 := ⟨fuel - 1, by omega⟩
      have hkind := hsame cp le_rfl
      have hfit : FitsOption mem cp hlen (hlen - cp) := by
        by_contra hnot
        exact hfits cp hcomes ⟨hlt, heol, hnop, hnot⟩
      rw [loop_option hlt (hkind ▸ heol) (hkind ▸ hnop)] at hrun
      obtain ⟨-, code, hcode⟩ | ⟨hgood, -⟩ := oneOption_spec env (addrAt mem dstOffset)
        (hsame.fits.2 hfit) (by omega) (hcomes.bounds hlo).1
      · rw [hcode] at hrun
        exact ⟨⟨_, code, hrun⟩, fun _ => ⟨code, hrun⟩⟩
      · exact absurd (hsame.malformed.2 hbad) hgood
    · exact ⟨⟨_, code, hcode⟩, fun hcomplete => absurd hcomplete hnone⟩
    · exact absurd hunfit (hfits cp' hcomes')

def fullRoute (i : Nat) : Byte :=
  [0x46, 0, 0, 24, 0, 1, 0, 0, 64, 17, 0, 0, 10, 0, 0, 1, 10, 0, 0, 2, ipoptRr, 3, 4, 0].getD i 0

theorem staysInside_iff_fullRoute : StaysInside 24 fullRoute ↔ ∀ cp, Comes fullRoute 24 cp → ¬Unfit 24 fullRoute cp :=
  staysInside_iff 24 (by decide) (by decide) fullRoute

theorem fullRoute_not_inside : ¬StaysInside 24 fullRoute := fun h => (h everyRoute).1 rfl

end NetBSD.Ip
