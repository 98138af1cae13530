import NetBSD.Ip.Pieces

/-!
# The fragments of one datagram

The packets that `ip_output` makes of a datagram carry pieces of its data that follow one another
without a gap or an overlap, so each of them is needed to cover it.
-/

namespace NetBSD.Ip

open NetBSD.Lib

structure Packet.IsDatagram (m : Packet) : Prop where
  ipHl_eq : m.ip.ipHl = 5
  opts_eq : m.opts = []
  ipLen_eq : m.ip.ipLen.toNat = 20 + m.data.length
  ipLen_le : m.ip.ipLen.toNat ≤ 32767
  whole : m.ip.ipOff &&& ~~~ipDf = 0

structure Fits (m : Packet) (p : Piece Byte Bool) : Prop where
  agrees : p.Agrees fun i => m.data.getD i 0
  nonempty : p.start < p.finish
  finish_le : p.finish ≤ m.data.length
  more_iff : p.tag = true ↔ p.finish < m.data.length

theorem Fits.tail {m : Packet} {p q : Piece Byte Bool} (h : Fits m q) (hp : p.IsTail q) : Fits m p where
  agrees := hp.agrees h.agrees
  nonempty := hp.nonempty h.nonempty
  finish_le := hp.finish_eq ▸ h.finish_le
  more_iff := by rw [hp.tag_eq, hp.finish_eq, h.more_iff]

structure IsFragment (m f : Packet) : Prop where
  fits : Fits m f.asFrag.piece
  sound : f.asFrag.Sound
  hlen_eq : f.ip.hlen = 20
  ipId_eq : f.ip.ipId = m.ip.ipId
  ipP_eq : f.ip.ipP = m.ip.ipP
  ipSrc_eq : f.ip.ipSrc = m.ip.ipSrc
  ipDst_eq : f.ip.ipDst = m.ip.ipDst
  flagged : f.ip.ipOff &&& ~~~ipDf ≠ 0
  partial_ : f.asFrag.more = true ∨ f.asFrag.ipOff ≠ 0

section OffsetField

variable {x : Word16}

theorem and_ipMf_of_lt (hx : x.toNat < 2 ^ 13) : x &&& ipMf = 0 := by
  have hmf : ipMf = BitVec.twoPow 16 13 := by rfl
  rw [hmf, BitVec.and_twoPow, BitVec.getLsbD, Nat.testBit_lt_two_pow hx]
  rfl

theorem and_not_ipDf_of_lt (hx : x.toNat < 2 ^ 13) : x &&& ~~~ipDf = x := by
  have hdf : ipDf = BitVec.twoPow 16 14 := by rfl
  apply BitVec.eq_of_getLsbD_eq
  intro i hi
  rw [BitVec.getLsbD_and, BitVec.getLsbD_not, hdf, BitVec.getLsbD_twoPow]
  by_cases h14 : i = 14
  · subst h14
    rw [BitVec.getLsbD, Nat.testBit_lt_two_pow (Nat.lt_of_lt_of_le hx (by decide))]
    simp
  · simp [hi, show ¬ 14 = i from fun h => h14 h.symm]

theorem or_ipMf_and_ipMf (x : Word16) : (x ||| ipMf) &&& ipMf = ipMf := by
  apply BitVec.eq_of_getLsbD_eq
  intro i _
  simp only [BitVec.getLsbD_and, BitVec.getLsbD_or]
  cases x.getLsbD i <;> cases ipMf.getLsbD i <;> rfl

theorem or_ipMf_shiftLeft (x : Word16) : (x ||| ipMf) <<< 3 = x <<< 3 := by
  have hmf : ipMf <<< 3 = 0 := by rfl
  rw [BitVec.shiftLeft_or_distrib, hmf]
  simp

theorem or_ipMf_and_not_ipDf (x : Word16) : (x ||| ipMf) &&& ~~~ipDf ≠ 0 := by
  intro h
  have hbit : ((x ||| ipMf) &&& ~~~ipDf).getLsbD 13 = (0 : Word16).getLsbD 13 := by rw [h]
  rw [BitVec.getLsbD_and, BitVec.getLsbD_or] at hbit
  have hmf : ipMf.getLsbD 13 = true := by rfl
  have hdf : (~~~ipDf).getLsbD 13 = true := by rfl
  rw [hmf, hdf, Bool.or_true] at hbit
  exact absurd hbit (by decide)

theorem toNat_shiftLeft_ofNat {pos : Nat} (hpos : pos < 2 ^ 15) (haligned : pos % 8 = 0) :
    (BitVec.ofNat 16 (pos / 8) <<< 3).toNat = pos := by
  rw [BitVec.toNat_shiftLeft, BitVec.toNat_ofNat, Nat.shiftLeft_eq]
  omega

theorem low_bit_set (t : Byte) : (t &&& ~~~1 ||| 1) &&& 1 ≠ (0 : Byte) := by
  intro h
  have hbit : ((t &&& ~~~1 ||| 1) &&& 1 : Byte).getLsbD 0 = (0 : Byte).getLsbD 0 := by rw [h]
  simp at hbit

theorem low_bit_clear (t : Byte) : (t &&& ~~~1) &&& 1 = (0 : Byte) := by
  have hnone : (~~~1 &&& 1 : Byte) = 0 := by rfl
  rw [BitVec.and_assoc, hnone]
  simp

end OffsetField

section Sender

variable {m : Packet}

theorem isFragment_of_offset (hm : m.IsDatagram) {f : Packet} {pos n : Nat} (haligned : pos % 8 = 0)
    (hn : 0 < n) (hfit : pos + n ≤ m.data.length) (hpart : n < m.data.length)
    (hhead : f.ip.ipHl = 5 ∧ f.ip.ipId = m.ip.ipId ∧ f.ip.ipP = m.ip.ipP ∧ f.ip.ipSrc = m.ip.ipSrc
      ∧ f.ip.ipDst = m.ip.ipDst)
    (hlen : f.ip.ipLen = BitVec.ofNat 16 (20 + n)) (hdata : f.data = (m.data.drop pos).take n)
    (hoff : f.ip.ipOff = if pos + n = m.data.length then BitVec.ofNat 16 (pos / 8)
      else BitVec.ofNat 16 (pos / 8) ||| ipMf) :
    IsFragment m f ∧ f.asFrag.piece.start = pos ∧ f.asFrag.piece.finish = pos + n := by
  obtain ⟨hhl, hid, hp, hsrc, hdst⟩ := hhead
  have hbound : m.data.length < 2 ^ 15 - 20 := by
    have := hm.ipLen_eq
    have := hm.ipLen_le
    omega
  have hsmall : (BitVec.ofNat 16 (pos / 8)).toNat < 2 ^ 13 := by
    rw [BitVec.toNat_ofNat]
    omega
  have hdataLen : f.data.length = n := by
    rw [hdata, List.length_take, List.length_drop]
    omega
  have hhlen : f.ip.hlen = 20 := by rw [IpHeader.hlen, hhl]
  have hshift : f.asFrag.ipOff = BitVec.ofNat 16 (pos / 8) <<< 3 := by
    simp only [Packet.asFrag, hoff]
    split
    · rfl
    · exact or_ipMf_shiftLeft _
  have hstart : f.asFrag.piece.start = pos := by
    simp only [Ipasfrag.piece, hshift]
    exact toNat_shiftLeft_ofNat (by omega) haligned
  have hfinish : f.asFrag.piece.finish = pos + n := by
    rw [Piece.finish, hstart, ← hdataLen]
    rfl
  have hmore : f.asFrag.more = true ↔ pos + n < m.data.length := by
    by_cases hlast : pos + n = m.data.length
    · rw [if_pos hlast] at hoff
      simp only [Ipasfrag.more, Packet.asFrag, hoff, and_ipMf_of_lt hsmall, low_bit_clear, ne_eq,
        not_true, if_false, decide_false, Bool.false_eq_true, false_iff]
      omega
    · rw [if_neg hlast] at hoff
      have hmf : ipMf ≠ 0 := by decide
      simp only [Ipasfrag.more, Packet.asFrag, hoff, or_ipMf_and_ipMf, hmf, ne_eq, not_false_iff,
        if_true, low_bit_set, decide_true, true_iff]
      omega
  refine ⟨⟨⟨?_, by omega, by omega, ?_⟩, ⟨by omega, ?_⟩, hhlen, hid, hp, hsrc, hdst, ?_, ?_⟩, hstart,
    hfinish⟩
  · have hlength : f.asFrag.piece.data.length = n := hdataLen
    rw [Piece.Agrees, hlength, hstart, slice_getD _ _ hfit]
    exact hdata
  · exact hfinish ▸ hmore
  · simp only [Packet.asFrag, hlen, hhlen, BitVec.toNat_sub, BitVec.toNat_ofNat, hdataLen]
    omega
  · by_cases hlast : pos + n = m.data.length
    · rw [hoff, if_pos hlast, and_not_ipDf_of_lt hsmall]
      intro hzero
      have hnum := congrArg BitVec.toNat hzero
      have hzeroNat : (0 : Word16).toNat = 0 := rfl
      rw [BitVec.toNat_ofNat, hzeroNat] at hnum
      omega
    · rw [hoff, if_neg hlast]
      exact or_ipMf_and_not_ipDf _
  · by_cases hlast : pos + n = m.data.length
    · right
      intro hzero
      have hpos : f.asFrag.ipOff.toNat = pos := hstart
      have hzeroNat : (0 : Word16).toNat = 0 := rfl
      rw [hzero, hzeroNat] at hpos
      omega
    · exact Or.inl (hmore.mpr (by omega))

structure Carries (m : Packet) (pos : Nat) (frags : List Packet) : Prop where
  isFragment : ∀ f ∈ frags, IsFragment m f
  le_start : ∀ f ∈ frags, pos ≤ f.asFrag.piece.start
  apart : frags.Pairwise fun f g => f.asFrag.piece.finish ≤ g.asFrag.piece.start
  covers : ∀ i, pos ≤ i → i < m.data.length → ∃ f ∈ frags, f.asFrag.piece.Covers i

theorem Carries.cons {f : Packet} {frags : List Packet} {pos : Nat} (hf : IsFragment m f)
    (hstart : f.asFrag.piece.start = pos) (hrest : Carries m f.asFrag.piece.finish frags) :
    Carries m pos (f :: frags) where
  isFragment := by
    intro g hg
    rcases List.mem_cons.mp hg with rfl | hg
    · exact hf
    · exact hrest.isFragment g hg
  le_start := by
    intro g hg
    rcases List.mem_cons.mp hg with rfl | hg
    · omega
    · have := hrest.le_start g hg
      have := f.asFrag.piece.start_le_finish
      omega
  apart := List.pairwise_cons.mpr ⟨fun g hg => hrest.le_start g hg, hrest.apart⟩
  covers := by
    intro i hpos hi
    by_cases hfi : i < f.asFrag.piece.finish
    · exact ⟨f, List.mem_cons_self, by omega, hfi⟩
    · obtain ⟨g, hg, hgi⟩ := hrest.covers i (by omega) hi
      exact ⟨g, List.mem_cons_of_mem _ hg, hgi⟩

theorem isFragment_fragmentAt (hm : m.IsDatagram) (hoff : m.ip.ipOff = 0) {len pos : Nat} (hlen : 8 ≤ len)
    (haligned : pos % 8 = 0) (hzero : 0 < pos) (hpos : pos < m.data.length) :
    IsFragment m (fragmentAt m [] len (20 + pos))
      ∧ (fragmentAt m [] len (20 + pos)).asFrag.piece.start = pos
      ∧ (fragmentAt m [] len (20 + pos)).asFrag.piece.finish = min (pos + len) m.data.length := by
  have hiplen := hm.ipLen_eq
  have hhlen : m.ip.hlen = 20 := by rw [IpHeader.hlen, hm.ipHl_eq]
  obtain ⟨n, hn⟩ : ∃ n, n = min len (m.data.length - pos) := ⟨_, rfl⟩
  have hif : (if m.ip.ipLen.toNat ≤ 20 + pos + len then m.ip.ipLen.toNat - (20 + pos) else len) = n := by
    split <;> omega
  have hback : 20 + pos - m.ip.hlen = pos := by omega
  obtain ⟨hfrag, hstart, hfinish⟩ := isFragment_of_offset hm (f := fragmentAt m [] len (20 + pos))
    haligned (show 0 < n by omega) (show pos + n ≤ m.data.length by omega) (by omega)
    ⟨rfl, rfl, rfl, rfl, rfl⟩ (by simp only [fragmentAt, hif]; rfl)
    (by simp only [fragmentAt, hif, hback])
    (by
      have hmf : (0 : Word16) &&& ipMf = 0 := by rfl
      have hnot : (0 : Word16) &&& ~~~ipMf = 0 := by rfl
      simp only [fragmentAt, hoff, hback, hmf, hnot, ne_eq, not_true, if_false]
      have hadd : BitVec.ofNat 16 (pos / 8) + 0 = BitVec.ofNat 16 (pos / 8) := BitVec.add_zero _
      rw [hadd]
      by_cases hlast : pos + n = m.data.length
      · rw [if_pos (by omega), if_pos hlast]
      · rw [if_neg (by omega), if_neg hlast])
  exact ⟨hfrag, hstart, by omega⟩

theorem carries_nil {pos : Nat} (hpos : m.data.length ≤ pos) : Carries m pos [] :=
  ⟨by simp, by simp, .nil, fun i hi hi' => by omega⟩

theorem carries_fragmentLoop (hm : m.IsDatagram) (hoff : m.ip.ipOff = 0) {len : Nat} (hlen : 8 ≤ len)
    (haligned : len % 8 = 0) {alloc : Nat → Bool} :
    ∀ {fuel pos : Nat} {frags : List Packet}, m.data.length ≤ fuel + pos → pos % 8 = 0 → 0 < pos →
      fragmentLoop m [] len alloc fuel (20 + pos) = .ok frags → Carries m pos frags := by
  intro fuel
  induction fuel with
  | zero =>
    intro pos frags hfuel _ _ h
    simp only [fragmentLoop, Except.ok.injEq] at h
    exact h ▸ carries_nil (by omega)
  | succ fuel ih =>
    intro pos frags hfuel hpos hzero h
    have hiplen := hm.ipLen_eq
    unfold fragmentLoop at h
    split at h
    · next hmore =>
      split at h
      · split at h
        · next rest hrest =>
          simp only [Except.ok.injEq] at h
          obtain ⟨hfrag, hstart, hfinish⟩ :=
            isFragment_fragmentAt hm hoff hlen hpos hzero (by omega)
          have hcarry : Carries m (pos + len) rest :=
            ih (by omega) (by omega) (by omega) (Nat.add_assoc _ _ _ ▸ hrest)
          rw [← h]
          refine .cons hfrag hstart ?_
          by_cases hend : pos + len ≤ m.data.length
          · rw [hfinish, Nat.min_eq_left hend]
            exact hcarry
          · -- the last fragment, with nothing behind it
            have hnil : rest = [] := by
              rcases List.eq_nil_or_concat rest with hnil | ⟨front, g, rfl⟩
              · exact hnil
              · have hg := hcarry.le_start g (by simp)
                have hfits := (hcarry.isFragment g (by simp)).fits
                have := hfits.nonempty
                have := hfits.finish_le
                omega
            rw [hnil]
            exact carries_nil (by omega)
        · simp at h
      · simp at h
    · simp only [Except.ok.injEq] at h
      exact h ▸ carries_nil (by omega)

theorem carries_ipOutput (hm : m.IsDatagram) {mtu : Nat} {alloc : Nat → Bool} {frags : List Packet}
    (hmtu : mtu < m.ip.ipLen.toNat) (hout : ipOutput m mtu alloc = .ok frags) : Carries m 0 frags := by
  have hiplen := hm.ipLen_eq
  have hle := hm.ipLen_le
  have hhlen : m.ip.hlen = 20 := by rw [IpHeader.hlen, hm.ipHl_eq]
  simp only [ipOutput, hhlen, if_true] at hout
  rw [if_neg (by omega)] at hout
  split at hout
  · simp at hout
  · next hdf =>
    split at hout
    · simp at hout
    · next hlen =>
      have hoff : m.ip.ipOff = 0 := by
        have hall : ipDf ||| ~~~ipDf = BitVec.allOnes 16 := by rfl
        calc m.ip.ipOff = m.ip.ipOff &&& (ipDf ||| ~~~ipDf) := by rw [hall, BitVec.and_allOnes]
          _ = m.ip.ipOff &&& ipDf ||| m.ip.ipOff &&& ~~~ipDf := BitVec.and_or_distrib_left
          _ = 0 := by rw [hm.whole, not_not.mp hdf]; rfl
      obtain ⟨len, hlenNat⟩ : ∃ len : Nat, ((mtu : Int) - 20) / 8 * 8 = len :=
        ⟨(((mtu : Int) - 20) / 8 * 8).toNat, by omega⟩
      have hint : ((mtu : Int) - (20 : Nat)) / 8 * 8 = len := hlenNat
      rw [hint] at hout hlen
      rw [Int.toNat_natCast] at hout
      split at hout
      · simp at hout
      · next rest hrest =>
        simp only [Except.ok.injEq] at hout
        have hcarry := carries_fragmentLoop hm hoff (by omega) (by omega) (by omega) (by omega)
          (by omega) hrest
        rw [← hout]
        obtain ⟨hfrag, hstart, hfinish⟩ := isFragment_of_offset hm (f := firstFragment m len)
          (show 0 % 8 = 0 from rfl) (show 0 < len by omega)
          (show 0 + len ≤ m.data.length by omega) (by omega)
          ⟨hm.ipHl_eq, rfl, rfl, rfl, rfl⟩ (by simp only [firstFragment, hhlen]) rfl
          (by
            rw [if_neg (by omega)]
            simp only [firstFragment, hoff]
            rfl)
        refine .cons hfrag hstart ?_
        rw [hfinish, Nat.zero_add]
        exact hcarry

theorem Carries.eq_of_covers {frags : List Packet} {pos i : Nat} (h : Carries m pos frags) {f g : Packet}
    (hf : f ∈ frags) (hg : g ∈ frags) (hfi : f.asFrag.piece.Covers i)
    (hgi : g.asFrag.piece.Covers i) : f = g := by
  have hdisjoint : frags.Pairwise fun f g =>
      f.asFrag.piece.Covers i → g.asFrag.piece.Covers i → f = g :=
    h.apart.imp fun hle hfi hgi => by
      have := hfi.2
      have := hgi.1
      omega
  exact hdisjoint.forall_of_forall_of_flip (fun _ _ _ _ => rfl)
    (hdisjoint.imp fun hfg hg hf => (hfg hf hg).symm) hf hg hfi hgi

end Sender

end NetBSD.Ip
