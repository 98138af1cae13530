import NetBSD.Sl.Compress

/-!
# What is encoded is decoded

From the last header of a connection and the encoded changes the decompressor rebuilds the packet.
-/

namespace NetBSD.Sl

open NetBSD.Lib

theorem word_bytes (n : Word16) : word ((n >>> 8).setWidth 8) (n.setWidth 8) = n := append_bytes n

theorem decode_longForm (n : Word16) (cp : List Byte) : decode (longForm n ++ cp) = some (n, cp) := by
  simp only [longForm, decode, List.cons_append, List.nil_append, if_true, word_bytes]

theorem decode_short {n : Word16} (hn : n ≠ 0) (hlt : n.toNat < 256) (cp : List Byte) :
    decode (n.setWidth 8 :: cp) = some (n, cp) := by
  have hwide : (n.setWidth 8).setWidth 16 = n := by
    apply BitVec.eq_of_toNat_eq
    simp only [BitVec.toNat_setWidth]
    omega
  have hfirst : n.setWidth 8 ≠ 0 := by
    intro hzero
    rw [hzero] at hwide
    exact hn hwide.symm
  simp only [decode, if_neg hfirst, hwide]

theorem decode_encode {n : Word16} (hn : n ≠ 0) (cp : List Byte) :
    decode (encode n ++ cp) = some (n, cp) := by
  unfold encode
  split
  · exact decode_longForm n cp
  · exact decode_short hn (by omega) cp

theorem decode_encodez (n : Word16) (cp : List Byte) : decode (encodez n ++ cp) = some (n, cp) := by
  unfold encodez
  split
  · exact decode_longForm n cp
  · next hshort => exact decode_short (fun h => hshort (Or.inr h)) (by omega) cp

def mask (u w a s i p c : Bool) : Byte :=
  bitIf u newU ||| bitIf w newW ||| bitIf a newA ||| bitIf s newS ||| bitIf i newI
    ||| bitIf p tcpPushBit ||| bitIf c newC

def tcpMask (u w a s : Bool) : Byte := bitIf u newU ||| bitIf w newW ||| bitIf a newA ||| bitIf s newS

section Mask

variable (u w a s i p c : Bool)

theorem mask_newU : mask u w a s i p c &&& newU ≠ 0 ↔ u = true := by
  revert u w a s i p c
  decide

theorem mask_newW : mask u w a s i p c &&& newW ≠ 0 ↔ w = true := by
  revert u w a s i p c
  decide

theorem mask_newA : mask u w a s i p c &&& newA ≠ 0 ↔ a = true := by
  revert u w a s i p c
  decide

theorem mask_newS : mask u w a s i p c &&& newS ≠ 0 ↔ s = true := by
  revert u w a s i p c
  decide

theorem mask_newI : mask u w a s i p c &&& newI ≠ 0 ↔ i = true := by
  revert u w a s i p c
  decide

theorem mask_push : mask u w a s i p c &&& tcpPushBit ≠ 0 ↔ p = true := by
  revert u w a s i p c
  decide

theorem mask_newC : mask u w a s i p c &&& newC ≠ 0 ↔ c = true := by
  revert u w a s i p c
  decide

theorem mask_specials : mask u w a s i p c &&& specialsMask = tcpMask u w a s := by
  revert u w a s i p c
  decide

end Mask

section Fields

variable {changes : Byte} {th : Tcphdr} {cp : List Byte}

theorem decodeUrp_encoded {u : Bool} (n : Word16) (hu : changes &&& newU ≠ 0 ↔ u = true) :
    decodeUrp changes th ((if u then encodez n else []) ++ cp)
      = some ({ th with
          thFlags := if u then th.thFlags ||| thUrg else th.thFlags &&& ~~~thUrg
          thUrp := if u then n else th.thUrp }, cp) := by
  unfold decodeUrp
  cases u with
  | true =>
    rw [if_pos (hu.mpr rfl), if_pos rfl, decode_encodez]
    rfl
  | false =>
    rw [if_neg (hu.not.mpr (by simp))]
    rfl

theorem decodeWin_encoded {n : Word16} (hw : changes &&& newW ≠ 0 ↔ n ≠ 0) :
    decodeWin changes th ((if n ≠ 0 then encode n else []) ++ cp)
      = some ({ th with thWin := th.thWin + n }, cp) := by
  unfold decodeWin
  by_cases hn : n = 0
  · rw [if_neg (hw.not.mpr (not_not.mpr hn)), if_neg (not_not.mpr hn)]
    simp [hn]
  · rw [if_pos (hw.mpr hn), if_pos hn, decode_encode hn]
    rfl

theorem setWidth_setWidth_of_le {n : Word32} (hn : n.toNat ≤ 0xffff) :
    (n.setWidth 16).setWidth 32 = n := by
  apply BitVec.eq_of_toNat_eq
  simp only [BitVec.toNat_setWidth]
  omega

theorem setWidth_ne_zero {n : Word32} (hn : n.toNat ≤ 0xffff) (hne : n ≠ 0) : n.setWidth 16 ≠ 0 := by
  intro hzero
  have hwide := setWidth_setWidth_of_le hn
  rw [hzero] at hwide
  exact hne hwide.symm

theorem decodeAck_encoded {n : Word32} (hle : n.toNat ≤ 0xffff) (ha : changes &&& newA ≠ 0 ↔ n ≠ 0) :
    decodeAck changes th ((if n ≠ 0 then encode (n.setWidth 16) else []) ++ cp)
      = some ({ th with thAck := th.thAck + n }, cp) := by
  unfold decodeAck
  by_cases hn : n = 0
  · rw [if_neg (ha.not.mpr (not_not.mpr hn)), if_neg (not_not.mpr hn)]
    simp [hn]
  · rw [if_pos (ha.mpr hn), if_pos hn, decode_encode (setWidth_ne_zero hle hn)]
    simp only [Option.map_some, setWidth_setWidth_of_le hle]

theorem decodeSeq_encoded {n : Word32} (hle : n.toNat ≤ 0xffff) (hs : changes &&& newS ≠ 0 ↔ n ≠ 0) :
    decodeSeq changes th ((if n ≠ 0 then encode (n.setWidth 16) else []) ++ cp)
      = some ({ th with thSeq := th.thSeq + n }, cp) := by
  unfold decodeSeq
  by_cases hn : n = 0
  · rw [if_neg (hs.not.mpr (not_not.mpr hn)), if_neg (not_not.mpr hn)]
    simp [hn]
  · rw [if_pos (hs.mpr hn), if_pos hn, decode_encode (setWidth_ne_zero hle hn)]
    simp only [Option.map_some, setWidth_setWidth_of_le hle]

theorem decodeId_encoded (new old : Word16) (cp : List Byte) (hi : changes &&& newI ≠ 0
      ↔ (new.setWidth 32 - old.setWidth 32 : Word32) ≠ 1) :
    decodeId changes ((if (new.setWidth 32 - old.setWidth 32 : Word32) ≠ 1 then
        encodez ((new.setWidth 32 - old.setWidth 32 : Word32).setWidth 16) else []) ++ cp) old
      = some (new, cp) := by
  have hdelta : (new.setWidth 32 - old.setWidth 32 : Word32).setWidth 16 = new - old := by
    apply BitVec.eq_of_toNat_eq
    simp only [BitVec.toNat_setWidth, BitVec.toNat_sub]
    omega
  unfold decodeId
  by_cases hone : (new.setWidth 32 - old.setWidth 32 : Word32) = 1
  · have hnext : new - old = 1 := by
      rw [← hdelta, hone]
      rfl
    rw [if_neg (hi.not.mpr (not_not.mpr hone)), if_neg (not_not.mpr hone), ← hnext,
      BitVec.add_comm, BitVec.sub_add_cancel]
    rfl
  · rw [if_pos (hi.mpr hone), if_pos hone, decode_encodez, hdelta]
    simp only [Option.map_some, BitVec.add_comm old, BitVec.sub_add_cancel]

end Fields

structure Header.WellFormed (h : Header) : Prop where
  ipP_eq : h.ip.ipP = ipprotoTcp
  ipHl_ge : 5 ≤ h.ipHl
  ipOpts_length : h.ipOpts.length = (h.ipHl - 5) * 4
  thOff_ge : 5 ≤ h.thOff
  thOpts_length : h.thOpts.length = (h.thOff - 5) * 4
  hlen_le : h.hlen ≤ maxHdr
  thX2_eq : h.th.thOffX2 &&& 0xf = 0
  thFlags_eq : h.th.thFlags &&& 0xc0 = 0

structure Packet.WellFormed (p : Packet) : Prop where
  hdr : p.hdr.WellFormed
  ipLen_eq : p.hdr.ip.ipLen.toNat = p.hdr.hlen + p.data.length
  sum_valid : carry (carry (wordSum p.hdr.ipWords)) = 0xffff

def Header.OnlyAck (h : Header) : Prop :=
  h.th.thFlags &&& (thSyn ||| thFin ||| thRst ||| thAck) = thAck

def Header.zeroSum (h : Header) : Header := { h with ip := { h.ip with ipSum := 0 } }

theorem thFlags_eq_of_onlyAck {h : Header} (hwf : h.WellFormed) (hack : h.OnlyAck) :
    h.th.thFlags = thAck ||| bitIf h.push thPush ||| bitIf h.urg thUrg := by
  have hall : ∀ flags : Byte, flags &&& 0xc0 = 0 →
      flags &&& (thSyn ||| thFin ||| thRst ||| thAck) = thAck →
      flags = thAck ||| bitIf (flags &&& thPush ≠ 0) thPush ||| bitIf (flags &&& thUrg ≠ 0) thUrg := by
    decide
  exact hall h.th.thFlags hwf.thFlags_eq hack

theorem thOffX2_eq {p o : Header} (hp : p.WellFormed) (ho : o.WellFormed) (hoff : p.thOff = o.thOff) :
    o.th.thOffX2 = p.th.thOffX2 := by
  have hsplit : ∀ x : Byte, x = (x >>> 4) <<< 4 ||| (x &&& 0xf) := by decide
  rw [hsplit o.th.thOffX2, hsplit p.th.thOffX2, hp.thX2_eq, ho.thX2_eq, BitVec.eq_of_toNat_eq hoff]

theorem length_words (bytes : List Byte) : (words bytes).length ≤ bytes.length := by
  induction bytes using words.induct with
  | case1 high low bytes ih =>
    simp only [words, List.length_cons]
    omega
  | case2 bytes hshort => simp [words]

theorem ipChecksum_zeroSum {p : Packet} (hp : p.WellFormed) (hsum : p.hdr.ip.ipSum ≠ 0xffff) :
    ipChecksum p.hdr.zeroSum = p.hdr.ip.ipSum := by
  have hhl := hp.hdr.ipHl_ge
  have hopts := hp.hdr.ipOpts_length
  have hlen : p.hdr.zeroSum.ipWords.length < 2 ^ 15 := by
    have hle := length_words p.hdr.ipOpts
    have hmax := hp.hdr.hlen_le
    simp only [Header.hlen, maxHdr] at hmax
    simp only [Header.ipWords, Header.zeroSum, List.length_append, List.length_cons, List.length_nil]
    omega
  have hpos : 0 < wordSum p.hdr.zeroSum.ipWords := by
    have hle : p.hdr.ipHl ≤ p.hdr.ip.ipVhl.toNat := by
      rw [Header.ipHl, BitVec.toNat_and]
      exact Nat.and_le_left
    have hword : (word p.hdr.ip.ipVhl p.hdr.ip.ipTos).toNat
        = p.hdr.ip.ipVhl.toNat * 256 + p.hdr.ip.ipTos.toNat := toNat_append_bytes _ _
    simp only [Header.ipWords, Header.zeroSum, wordSum_append, wordSum_cons, hword]
    omega
  have hsplit : wordSum p.hdr.ipWords = wordSum p.hdr.zeroSum.ipWords + p.hdr.ip.ipSum.toNat := by
    have hzero : (0 : Word16).toNat = 0 := rfl
    simp only [Header.ipWords, Header.zeroSum, wordSum_append, wordSum_cons, wordSum_nil, hzero]
    omega
  exact swapBytes_complement_wordSum hlen hpos (hsplit ▸ hp.sum_valid) hsum

section Rebuild

variable {p o : Header} {changes : Byte} {newSeq : List Byte}

theorem tcpChanges_fst (p o : Header) :
    (tcpChanges p o).1 = tcpMask p.urg (decide (p.th.thWin - o.th.thWin ≠ 0))
      (decide (p.th.thAck - o.th.thAck ≠ 0)) (decide (p.th.thSeq - o.th.thSeq ≠ 0)) := rfl

structure Follows (p o : Header) : Prop where
  expected : OnlyExpected p o
  thUrp_eq : p.urg = false → p.th.thUrp = o.th.thUrp
  deltaA_le : (p.th.thAck - o.th.thAck).toNat ≤ 0xffff
  deltaS_le : (p.th.thSeq - o.th.thSeq).toNat ≤ 0xffff

theorem Follows.hlen_eq (h : Follows p o) : o.hlen = p.hlen := by
  obtain ⟨hvhl, _, _, _, _, hthOff, _, _⟩ := h.expected
  simp only [Header.hlen, Header.ipHl, hvhl, hthOff]

theorem specialChanges_cases (h : specialChanges p o = some (changes, newSeq)) :
    ((changes, newSeq) = tcpChanges p o ∧ changes ≠ specialI ∧ changes ≠ specialD)
      ∨ (changes = specialI ∧ newSeq = [] ∧ p.urg = false ∧ p.th.thWin - o.th.thWin = 0
          ∧ p.th.thSeq - o.th.thSeq = o.ip.ipLen.setWidth 32 - BitVec.ofNat 32 p.hlen
          ∧ p.th.thAck - o.th.thAck = o.ip.ipLen.setWidth 32 - BitVec.ofNat 32 p.hlen)
      ∨ (changes = specialD ∧ newSeq = [] ∧ p.urg = false ∧ p.th.thWin - o.th.thWin = 0
          ∧ p.th.thSeq - o.th.thSeq = o.ip.ipLen.setWidth 32 - BitVec.ofNat 32 p.hlen
          ∧ p.th.thAck - o.th.thAck = 0) := by
  have hbits := tcpChanges_fst p o
  have hSA : ∀ u w a s : Bool, tcpMask u w a s = newS ||| newA → u = false ∧ w = false := by decide
  have hS : ∀ u w a s : Bool, tcpMask u w a s = newS → u = false ∧ w = false ∧ a = false := by decide
  have hplain : (tcpChanges p o).1 ≠ specialI ∧ (tcpChanges p o).1 ≠ specialD →
      some (tcpChanges p o) = some (changes, newSeq) →
      (changes, newSeq) = tcpChanges p o ∧ changes ≠ specialI ∧ changes ≠ specialD := by
    rintro ⟨hI, hD⟩ heq
    rw [Option.some.injEq] at heq
    have hchanges : (tcpChanges p o).1 = changes := congrArg Prod.fst heq
    exact ⟨heq.symm, hchanges ▸ hI, hchanges ▸ hD⟩
  unfold specialChanges at h
  simp only at h
  split at h
  · next hzero =>
    split at h
    · refine Or.inl (hplain ?_ h)
      rw [hzero]
      decide
    · simp at h
  · split at h
    · simp at h
    · next hspecial =>
      rw [not_or] at hspecial
      split at h
      · next hboth =>
        split at h
        · next hlast =>
          rw [hbits] at hboth
          obtain ⟨hu, hw⟩ := hSA _ _ _ _ hboth
          simp only [Option.some.injEq, Prod.mk.injEq] at h
          refine Or.inr (Or.inl ⟨h.1.symm, h.2.symm, hu, by simpa using hw, hlast.2, ?_⟩)
          rw [← hlast.1]
          exact hlast.2
        · exact Or.inl (hplain hspecial h)
      · split at h
        · next hseq =>
          split at h
          · next hlast =>
            rw [hbits] at hseq
            obtain ⟨hu, hw, ha⟩ := hS _ _ _ _ hseq
            simp only [Option.some.injEq, Prod.mk.injEq] at h
            exact Or.inr (Or.inr
              ⟨h.1.symm, h.2.symm, hu, by simpa using hw, hlast, by simpa using ha⟩)
          · exact Or.inl (hplain hspecial h)
        · exact Or.inl (hplain hspecial h)

theorem specialChanges_bits (h : specialChanges p o = some (changes, newSeq)) (i q c : Bool) :
    (changes ||| bitIf i newI ||| bitIf q tcpPushBit ||| bitIf c newC) &&& specialsMask = changes
      ∧ ((changes ||| bitIf i newI ||| bitIf q tcpPushBit ||| bitIf c newC) &&& newI ≠ 0 ↔ i = true)
      ∧ ((changes ||| bitIf i newI ||| bitIf q tcpPushBit ||| bitIf c newC) &&& tcpPushBit ≠ 0
          ↔ q = true)
      ∧ ((changes ||| bitIf i newI ||| bitIf q tcpPushBit ||| bitIf c newC) &&& newC ≠ 0
          ↔ c = true) := by
  have hbits : ∃ u w a s, changes = tcpMask u w a s := by
    rcases specialChanges_cases h with ⟨hplain, _⟩ | ⟨rfl, _⟩ | ⟨rfl, _⟩
    · exact ⟨_, _, _, _, congrArg Prod.fst hplain⟩
    · exact ⟨true, true, false, true, by decide⟩
    · exact ⟨true, true, true, true, by decide⟩
  obtain ⟨u, w, a, s, rfl⟩ := hbits
  exact ⟨mask_specials u w a s i q c, mask_newI u w a s i q c, mask_push u w a s i q c,
    mask_newC u w a s i q c⟩

theorem allChanges_eq_some (h : allChanges p o = some (changes, newSeq)) :
    Follows p o ∧ ∃ tcp tcpSeq, specialChanges p o = some (tcp, tcpSeq)
      ∧ changes = tcp ||| bitIf ((p.ip.ipId.setWidth 32 - o.ip.ipId.setWidth 32 : Word32) ≠ 1) newI
          ||| bitIf p.push tcpPushBit
      ∧ newSeq = tcpSeq ++ (if (p.ip.ipId.setWidth 32 - o.ip.ipId.setWidth 32 : Word32) ≠ 1 then
          encodez ((p.ip.ipId.setWidth 32 - o.ip.ipId.setWidth 32 : Word32).setWidth 16) else []) := by
  unfold allChanges at h
  split at h
  · simp at h
  · next hexpected =>
    split at h
    · simp at h
    · next hurp =>
      split at h
      · simp at h
      · split at h
        · simp at h
        · obtain ⟨⟨tcp, tcpSeq⟩, hspecial, heq⟩ := Option.map_eq_some_iff.mp h
          simp only [Prod.mk.injEq] at heq
          refine ⟨⟨not_not.mp hexpected, fun hu => ?_, by omega, by omega⟩, tcp, tcpSeq, hspecial,
            heq.1.symm, heq.2.symm⟩
          by_contra hne
          exact hurp ⟨by simp [hu], hne⟩

theorem allChanges_newC (h : allChanges p o = some (changes, newSeq)) (c : Bool) :
    (changes ||| bitIf c newC) &&& newC ≠ 0 ↔ c = true := by
  obtain ⟨_, tcp, tcpSeq, hspecial, rfl, _⟩ := allChanges_eq_some h
  exact (specialChanges_bits hspecial _ p.push c).2.2.2

def SameConn (p o : Header) : Prop :=
  p.ip.ipSrc = o.ip.ipSrc ∧ p.ip.ipDst = o.ip.ipDst
    ∧ p.th.thSport = o.th.thSport ∧ p.th.thDport = o.th.thDport

theorem thFlags_patchTcp (ho : o.WellFormed) (hack : o.OnlyAck) {b : Byte} {push : Bool}
    (hb : b &&& tcpPushBit ≠ 0 ↔ push = true) (sum : Word16) :
    (patchTcp b sum o.th).thFlags = thAck ||| bitIf push thPush ||| bitIf o.urg thUrg := by
  have hall : ∀ old new urg : Bool,
      (if new then (thAck ||| bitIf old thPush ||| bitIf urg thUrg) ||| thPush
        else (thAck ||| bitIf old thPush ||| bitIf urg thUrg) &&& ~~~thPush)
      = thAck ||| bitIf new thPush ||| bitIf urg thUrg := by
    decide
  simp only [patchTcp, hb]
  rw [thFlags_eq_of_onlyAck ho hack]
  exact hall _ _ _

theorem urg_thFlags (push old new : Bool) :
    (if new then (thAck ||| bitIf push thPush ||| bitIf old thUrg) ||| thUrg
      else (thAck ||| bitIf push thPush ||| bitIf old thUrg) &&& ~~~thUrg)
    = thAck ||| bitIf push thPush ||| bitIf new thUrg := by
  revert push old new
  decide

theorem add_sub_self {w : Nat} (new old : BitVec w) : old + (new - old) = new := by
  rw [BitVec.add_comm, BitVec.sub_add_cancel]

theorem decodeTcp_specialChanges (hp : p.WellFormed) (hpack : p.OnlyAck) (ho : o.WellFormed)
    (hoack : o.OnlyAck) (hconn : SameConn p o) (hfollows : Follows p o) {tcp : Byte} {tcpSeq : List Byte}
    (hspecial : specialChanges p o = some (tcp, tcpSeq))
    (hurg : o.urg = true → tcp ≠ specialI ∧ tcp ≠ specialD) (i c : Bool) (cp : List Byte) {b : Byte}
    (hb : b = tcp ||| bitIf i newI ||| bitIf p.push tcpPushBit ||| bitIf c newC) :
    decodeTcp b (patchTcp b p.th.thSum o.th) (tcpSeq ++ cp)
        (o.ip.ipLen.setWidth 32 - BitVec.ofNat 32 p.hlen)
      = some (p.th, cp) := by
  obtain ⟨_, _, hsport, hdport⟩ := hconn
  have hoff := thOffX2_eq hp ho hfollows.expected.2.2.2.2.2.1
  have hpush := hb ▸ (specialChanges_bits hspecial i p.push c).2.2.1
  have hflags := thFlags_patchTcp ho hoack hpush p.th.thSum
  have hpflags := thFlags_eq_of_onlyAck hp hpack
  rcases specialChanges_cases hspecial with ⟨hplain, hI, hD⟩ | ⟨rfl, rfl, hu, hw, hs, ha⟩
      | ⟨rfl, rfl, hu, hw, hs, ha⟩
  · -- every field by itself
    obtain ⟨u, hu⟩ : ∃ u, u = p.urg := ⟨_, rfl⟩
    obtain ⟨w, hw⟩ : ∃ w, w = decide (p.th.thWin - o.th.thWin ≠ 0) := ⟨_, rfl⟩
    obtain ⟨a, ha⟩ : ∃ a, a = decide (p.th.thAck - o.th.thAck ≠ 0) := ⟨_, rfl⟩
    obtain ⟨s, hs⟩ : ∃ s, s = decide (p.th.thSeq - o.th.thSeq ≠ 0) := ⟨_, rfl⟩
    have htcp : tcp = tcpMask u w a s := by
      rw [hu, hw, ha, hs]
      exact congrArg Prod.fst hplain
    have hseq := congrArg Prod.snd hplain
    simp only [tcpChanges] at hseq
    have hmask : b = mask u w a s i p.push c := by
      rw [hb, htcp]
      rfl
    rw [hseq]
    unfold decodeTcp
    rw [hmask, mask_specials, ← htcp, if_neg hI, if_neg hD, ← hmask]
    simp only [List.append_assoc]
    rw [decodeUrp_encoded p.th.thUrp (hmask ▸ (mask_newU u w a s i p.push c).trans (by rw [hu])),
      Option.bind_some]
    simp only
    rw [decodeWin_encoded (hmask ▸ (mask_newW u w a s i p.push c).trans (by simp [hw])), Option.bind_some]
    simp only
    rw [decodeAck_encoded hfollows.deltaA_le (hmask ▸ (mask_newA u w a s i p.push c).trans (by simp [ha])),
      Option.bind_some]
    simp only
    rw [decodeSeq_encoded hfollows.deltaS_le (hmask ▸ (mask_newS u w a s i p.push c).trans (by simp [hs]))]
    congr 2
    apply Tcphdr.ext
    · exact hsport.symm
    · exact hdport.symm
    · exact add_sub_self _ _
    · exact add_sub_self _ _
    · exact hoff
    · simp only [hflags]
      rw [urg_thFlags, ← hpflags]
    · exact add_sub_self _ _
    · rfl
    · simp only [patchTcp]
      split
      · rfl
      · next hnot => exact (hfollows.thUrp_eq (by simpa using hnot)).symm
  · have hold : o.urg = false := by
      by_contra hne
      exact (hurg (by simpa using hne)).1 rfl
    have hspecials := hb ▸ (specialChanges_bits hspecial i p.push c).1
    unfold decodeTcp
    rw [if_pos hspecials]
    congr 2
    apply Tcphdr.ext
    · exact hsport.symm
    · exact hdport.symm
    · rw [← hs]
      exact add_sub_self _ _
    · rw [← ha]
      exact add_sub_self _ _
    · exact hoff
    · simp only [hflags]
      rw [hpflags, hu, hold]
    · exact (sub_eq_zero.mp hw).symm
    · rfl
    · exact (hfollows.thUrp_eq hu).symm
  · have hold : o.urg = false := by
      by_contra hne
      exact (hurg (by simpa using hne)).2 rfl
    have hspecials := hb ▸ (specialChanges_bits hspecial i p.push c).1
    have hne : specialD ≠ specialI := by decide
    unfold decodeTcp
    rw [hspecials, if_neg hne, if_pos rfl]
    congr 2
    apply Tcphdr.ext
    · exact hsport.symm
    · exact hdport.symm
    · rw [← hs]
      exact add_sub_self _ _
    · exact (sub_eq_zero.mp ha).symm
    · exact hoff
    · simp only [hflags]
      rw [hpflags, hu, hold]
    · exact (sub_eq_zero.mp hw).symm
    · rfl
    · exact (hfollows.thUrp_eq hu).symm

theorem Header.eq_of_opts {hl hl' : Nat} {opts opts' : List Byte} (hlen : opts.length = (hl - 5) * 4)
    (hlen' : opts'.length = (hl' - 5) * 4) (hhl : hl = hl') (hopts : 5 < hl → opts = opts') :
    opts' = opts := by
  by_cases hlt : 5 < hl
  · exact (hopts hlt).symm
  · rw [List.length_eq_zero_iff.mp (by omega : opts.length = 0),
      List.length_eq_zero_iff.mp (by omega : opts'.length = 0)]

theorem rebuild_allChanges {p : Packet} (hp : p.WellFormed) (hpack : p.hdr.OnlyAck)
    (hsum : p.hdr.ip.ipSum ≠ 0xffff) (ho : o.WellFormed) (hoack : o.OnlyAck)
    (hconn : SameConn p.hdr o) (hall : allChanges p.hdr o = some (changes, newSeq))
    (hurg : o.urg = true →
      changes &&& specialsMask ≠ specialI ∧ changes &&& specialsMask ≠ specialD) (c : Bool) :
    rebuild (changes ||| bitIf c newC) p.hdr.th.thSum ⟨o.zeroSum, o.hlen⟩ (newSeq ++ p.data)
      = some (p.hdr.zeroSum, p) := by
  obtain ⟨hfollows, tcp, tcpSeq, hspecial, rfl, rfl⟩ := allChanges_eq_some hall
  obtain ⟨hvhl, htos, hoff, httl, hprot, hthOff, hipOpts, hthOpts⟩ := hfollows.expected
  have hhl : p.hdr.ipHl = o.ipHl := by simp only [Header.ipHl, hvhl]
  have hhlen := hfollows.hlen_eq
  obtain ⟨i, hi⟩ : ∃ i, i = decide ((p.hdr.ip.ipId.setWidth 32 - o.ip.ipId.setWidth 32 : Word32) ≠ 1) :=
    ⟨_, rfl⟩
  rw [← hi] at hurg ⊢
  have hurg' : o.urg = true → tcp ≠ specialI ∧ tcp ≠ specialD := by
    intro hold
    have hnone := hurg hold
    have hspecials := (specialChanges_bits hspecial i p.hdr.push false).1
    rw [show bitIf false newC = 0#8 from rfl, BitVec.or_zero] at hspecials
    rw [hspecials] at hnone
    exact hnone
  obtain ⟨_, hnewI, hpush, _⟩ := specialChanges_bits hspecial i p.hdr.push c
  have htcp := fun cp => decodeTcp_specialChanges hp.hdr hpack ho hoack hconn hfollows hspecial hurg' i c
    cp rfl
  have hid := decodeId_encoded p.hdr.ip.ipId o.ip.ipId p.data (hnewI.trans (by simp [hi]))
  have hsaved : RState.update ⟨o.zeroSum, o.hlen⟩ p.hdr.th p.hdr.ip.ipId p.data = p.hdr.zeroSum := by
    obtain ⟨hsrc, hdst, _, _⟩ := hconn
    apply Header.ext
    · apply Ip.ext
      · exact hvhl.symm
      · exact htos.symm
      · show BitVec.ofNat 16 (p.data.length + o.hlen) = p.hdr.ip.ipLen
        rw [hhlen, Nat.add_comm, ← hp.ipLen_eq, BitVec.ofNat_toNat, BitVec.setWidth_eq]
      · rfl
      · exact hoff.symm
      · exact httl.symm
      · exact hprot.symm
      · rfl
      · exact hsrc.symm
      · exact hdst.symm
    · exact Header.eq_of_opts hp.hdr.ipOpts_length ho.ipOpts_length hhl hipOpts
    · rfl
    · exact Header.eq_of_opts hp.hdr.thOpts_length ho.thOpts_length hthOff hthOpts
  have hpacket : p.hdr.zeroSum.withChecksum = p.hdr := by
    rw [Header.withChecksum, ipChecksum_zeroSum hp hsum]
    rfl
  unfold rebuild
  rw [List.append_assoc, hhlen]
  simp only [Header.zeroSum] at hsaved hpacket ⊢
  rw [htcp, Option.bind_eq_bind, Option.bind_some]
  simp only [Option.bind_eq_bind, hid, Option.bind_some, ← hhlen, hsaved, hpacket]
  rfl

end Rebuild

end NetBSD.Sl
