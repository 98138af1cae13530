import NetBSD.Ip.Fragments

/-!
# Reassembly undoes fragmentation

The queue of a datagram holds, in order, what has arrived of it. As long as a fragment is missing some
byte is not covered and nothing is delivered; when the last one arrives the queue concatenates to the
data.
-/

namespace NetBSD.Ip

open NetBSD.Lib

section Receiver

variable {m : Packet} {got : List Packet} {fp : Ipq}

structure Receiving (m : Packet) (got : List Packet) (fp : Ipq) : Prop where
  isFor : fp.ipqId = m.ip.ipId ∧ fp.ipqSrc = m.ip.ipSrc ∧ fp.ipqDst = m.ip.ipDst ∧ fp.ipqP = m.ip.ipP
  nonempty : fp.frags ≠ []
  sound : ∀ f ∈ fp.frags, f.Sound
  inOrder : InOrder (fp.frags.map Ipasfrag.piece)
  fits : ∀ p ∈ fp.frags.map Ipasfrag.piece, Fits m p
  ids : ∀ f ∈ fp.frags, f.ipId = m.ip.ipId ∧ f.ipP = m.ip.ipP
  covered_iff : ∀ i, Covered (fp.frags.map Ipasfrag.piece) i ↔ ∃ f ∈ got, f.asFrag.piece.Covers i

theorem ids_reassInsert {frags : List Ipasfrag} {ip : Ipasfrag}
    (hfrags : ∀ f ∈ frags, f.ipId = m.ip.ipId ∧ f.ipP = m.ip.ipP)
    (hip : ip.ipId = m.ip.ipId ∧ ip.ipP = m.ip.ipP) :
    ∀ f ∈ (reassInsert frags ip).getD frags, f.ipId = m.ip.ipId ∧ f.ipP = m.ip.ipP := by
  have hsucc : ∀ (ip : Ipasfrag) (l : List Ipasfrag), (∀ f ∈ l, f.ipId = m.ip.ipId ∧ f.ipP = m.ip.ipP) →
      ∀ f ∈ reassSucceeding ip l, f.ipId = m.ip.ipId ∧ f.ipP = m.ip.ipP := by
    intro ip l hl
    induction l with
    | nil => simp [reassSucceeding]
    | cons q rest ih =>
      have hrest := fun f hf => hl f (List.mem_cons_of_mem _ hf)
      simp only [reassSucceeding]
      split
      · split
        · intro f hf
          rcases List.mem_cons.mp hf with rfl | hf
          · exact hl q List.mem_cons_self
          · exact hrest f hf
        · exact ih hrest
      · exact hl
  cases hins : reassInsert frags ip with
  | none => exact hfrags
  | some frags' =>
    simp only [reassInsert, Option.map_eq_some_iff] at hins
    obtain ⟨ip', hpre, rfl⟩ := hins
    have hip' : ip'.ipId = m.ip.ipId ∧ ip'.ipP = m.ip.ipP := by
      unfold reassPreceding at hpre
      split at hpre
      · exact Option.some.inj hpre ▸ hip
      · simp only at hpre
        split at hpre
        · split at hpre
          · simp at hpre
          · exact Option.some.inj hpre ▸ hip
        · exact Option.some.inj hpre ▸ hip
    intro f hf
    rcases List.mem_append.mp hf with hf | hf
    · exact hfrags f (List.takeWhile_subset _ hf)
    · rcases List.mem_cons.mp hf with rfl | hf
      · exact hip'
      · exact hsucc ip' _ (fun f hf => hfrags f (List.dropWhile_subset _ hf)) f hf

theorem Receiving.insert (h : Receiving m got fp) {f : Packet} (hf : IsFragment m f) :
    Receiving m (got ++ [f]) { fp with frags := (reassInsert fp.frags f.asFrag).getD fp.frags } := by
  obtain ⟨hpiece, hsound⟩ := reassInsert_piece h.sound hf.sound
  refine ⟨h.isFor, ?_, hsound, ?_, ?_, ids_reassInsert h.ids ⟨hf.ipId_eq, hf.ipP_eq⟩, fun i => ?_⟩
  · cases hins : reassInsert fp.frags f.asFrag with
    | none => exact h.nonempty
    | some frags =>
      simp only [reassInsert, Option.map_eq_some_iff] at hins
      obtain ⟨ip', _, rfl⟩ := hins
      simp
  · simp only [hpiece]
    exact inOrder_place h.inOrder
  · simp only [hpiece]
    intro p hp
    obtain ⟨q, hq, htail⟩ := mem_place hp
    rcases hq with hq | rfl
    · exact (h.fits q hq).tail htail
    · exact hf.fits.tail htail
  · simp only [hpiece, covered_place h.inOrder, h.covered_iff i, List.mem_append, List.mem_singleton]
    constructor
    · rintro (⟨g, hg, hgi⟩ | hfi)
      · exact ⟨g, Or.inl hg, hgi⟩
      · exact ⟨f, Or.inr rfl, hfi⟩
    · rintro ⟨g, hg | rfl, hgi⟩
      · exact Or.inl ⟨g, hg, hgi⟩
      · exact Or.inr hgi

theorem Receiving.reassComplete_eq (h : Receiving m got fp) :
    ((∀ i < m.data.length, Covered (fp.frags.map Ipasfrag.piece) i) →
        reassComplete fp.frags = some (m.data.length : Int)
          ∧ fp.frags.flatMap Ipasfrag.data = m.data)
      ∧ (reassComplete fp.frags ≠ none →
          ∀ i < m.data.length, Covered (fp.frags.map Ipasfrag.piece) i) := by
  obtain ⟨queue, hqueue⟩ : ∃ queue, queue = fp.frags.map Ipasfrag.piece := ⟨_, rfl⟩
  have hsplit : (gather 0 queue).used ++ (gather 0 queue).rest = queue := gather_append
  have hwalk : reassWalk 0 fp.frags = if (gather 0 queue).rest = [] then
      some ((gather 0 queue).upTo : Int) else none := hqueue ▸ reassWalk_eq h.sound
  have hlast : fp.frags.getLast?.map Ipasfrag.piece = queue.getLast? := by
    rw [hqueue, List.getLast?_map]
  have hfits : ∀ p ∈ queue, Fits m p := hqueue ▸ h.fits
  have hcov : ∀ i, Covered queue i ↔
      (0 ≤ i ∧ i < (gather 0 queue).upTo) ∨ Covered (gather 0 queue).rest i := by
    intro i
    rw [← covered_gather, ← covered_append, hsplit]
  have hle : (gather 0 queue).rest = [] → (gather 0 queue).upTo ≤ m.data.length := by
    intro hrest
    cases hgl : (gather 0 queue).used.getLast? with
    | none =>
      have hcov0 : Covered (gather 0 queue).used 0 ↔ 0 ≤ 0 ∧ 0 < (gather 0 queue).upTo :=
        covered_gather
      rw [List.getLast?_eq_none_iff.mp hgl] at hcov0
      simp only [covered_nil, false_iff] at hcov0
      omega
    | some last =>
      rw [upTo_eq_finish_getLast hgl]
      exact (hfits last (hsplit ▸ List.mem_append_left _ (List.mem_of_getLast? hgl))).finish_le
  rw [← hqueue]
  constructor
  · intro hall
    have hrest : (gather 0 queue).rest = [] := by
      by_contra hne
      obtain ⟨p, hp⟩ := List.exists_mem_of_ne_nil _ hne
      have hlt := upTo_lt_of_mem_rest (hqueue ▸ h.inOrder) (fun p _ => Nat.zero_le p.start) hp
      have hpfits := hfits p (hsplit ▸ List.mem_append_right _ hp)
      have hfinish := hpfits.finish_le
      have hnonempty := hpfits.nonempty
      rcases (hcov _).mp (hall (gather 0 queue).upTo (by omega)) with hi | ⟨q, hq, hqi⟩
      · omega
      · have hqlt := upTo_lt_of_mem_rest (hqueue ▸ h.inOrder) (fun p _ => Nat.zero_le p.start) hq
        have := hqi.1
        omega
    have hup : (gather 0 queue).upTo = m.data.length := by
      have hupLe := hle hrest
      by_contra hne
      rcases (hcov _).mp (hall (gather 0 queue).upTo (by omega)) with hi | hi
      · omega
      · rw [hrest] at hi
        exact covered_nil hi
    rw [hrest, List.append_nil] at hsplit
    have hmore : ∀ last ∈ fp.frags.getLast?, last.more = false := by
      intro last hl
      have hl' : queue.getLast? = some last.piece := by
        rw [← hlast, hl]
        rfl
      have hfinish := upTo_eq_finish_getLast (hsplit ▸ hl' : (gather 0 queue).used.getLast? = _)
      have hmore := (hfits _ (List.mem_of_getLast? hl')).more_iff
      rw [← hfinish, hup] at hmore
      exact Bool.eq_false_iff.mpr fun hm => absurd (hmore.mp hm) (by omega)
    refine ⟨?_, ?_⟩
    · simp only [reassComplete, hwalk, hrest, if_true, hup]
      cases hl : fp.frags.getLast? with
      | none => rfl
      | some last => simp [hmore last hl]
    · have hdata := data_gather (n := 0) fun p hp => (hfits p hp).agrees
      rw [hup, ← flatMap_used_gather, hsplit, Nat.sub_zero, slice_getD _ _ (by omega)] at hdata
      rw [hqueue, List.flatMap_map, List.drop_zero, List.take_length] at hdata
      exact hdata
  · intro hcomplete i hi
    have hrest : (gather 0 queue).rest = [] := by
      by_contra hne
      exact hcomplete (by simp [reassComplete, hwalk, hne])
    refine (hcov i).mpr (Or.inl ⟨Nat.zero_le i, ?_⟩)
    have hupLe := hle hrest
    by_contra hlt
    -- the last fragment would have more behind it
    rw [hrest, List.append_nil] at hsplit
    cases hl : fp.frags.getLast? with
    | none =>
      exact absurd (List.getLast?_eq_none_iff.mp hl) h.nonempty
    | some last =>
      have hl' : queue.getLast? = some last.piece := by
        rw [← hlast, hl]
        rfl
      have hfinish := upTo_eq_finish_getLast (hsplit ▸ hl' : (gather 0 queue).used.getLast? = _)
      have hmore := (hfits _ (List.mem_of_getLast? hl')).more_iff.mpr (by omega)
      exact hcomplete (by simp [reassComplete, hwalk, hrest, hl, show last.more = true from hmore])

structure SameDatagram (m : Packet) (d : Delivered) : Prop where
  ipSrc_eq : d.ip.ipSrc = m.ip.ipSrc
  ipDst_eq : d.ip.ipDst = m.ip.ipDst
  ipP_eq : d.ip.ipP = m.ip.ipP
  ipId_eq : d.ip.ipId = m.ip.ipId
  data_eq : d.data = m.data
  ipLen_eq : d.ip.ipLen.toInt = m.data.length

def Missing (m : Packet) (got : List Packet) : Prop :=
  ∃ i < m.data.length, ∀ f ∈ got, ¬ f.asFrag.piece.Covers i

theorem Receiving.finish_of_missing (h : Receiving m got fp) (hmissing : Missing m got) (hlen : Nat) :
    reassFinish fp hlen = (some fp, none) := by
  obtain ⟨i, hi, hnone⟩ := hmissing
  have hincomplete : reassComplete fp.frags = none := by
    by_contra hcomplete
    obtain ⟨f, hf, hfi⟩ := (h.covered_iff i).mp (h.reassComplete_eq.2 hcomplete i hi)
    exact hnone f hf hfi
  simp [reassFinish, hincomplete]

theorem Receiving.finish_of_not_missing (hm : m.IsDatagram) (h : Receiving m got fp)
    (hall : ¬ Missing m got) (hlen : Nat) :
    ∃ d, reassFinish fp hlen = (none, some d) ∧ SameDatagram m d := by
  have hcov : ∀ i < m.data.length, Covered (fp.frags.map Ipasfrag.piece) i := by
    intro i hi
    by_contra hi'
    exact hall ⟨i, hi, fun f hf hfi => hi' ((h.covered_iff i).mpr ⟨f, hf, hfi⟩)⟩
  obtain ⟨hcomplete, hdata⟩ := h.reassComplete_eq.1 hcov
  obtain ⟨_, hsrc, hdst, _⟩ := h.isFor
  cases hfrags : fp.frags with
  | nil => exact absurd hfrags h.nonempty
  | cons q rest =>
    obtain ⟨hid, hp⟩ := h.ids q (by simp [hfrags])
    have hconcat : ∃ ip : IpHeader, ip = ⟨q.ipHl, q.ipfMff &&& ~~~1,
        BitVec.ofInt 16 (m.data.length : Int), q.ipId, q.ipOff, q.ipTtl, q.ipP, fp.ipqSrc, fp.ipqDst⟩
        ∧ reassConcat fp m.data.length hlen
          = some ⟨ip, q.opts, fp.frags.flatMap Ipasfrag.data, hlen⟩ := by
      refine ⟨_, rfl, ?_⟩
      simp only [reassConcat, hfrags]
    obtain ⟨ip, rfl, hconcat⟩ := hconcat
    refine ⟨_, by simp only [reassFinish, hcomplete, hconcat]; rfl, ?_⟩
    have hiplen := hm.ipLen_eq
    have hle := hm.ipLen_le
    have hlenInt : (BitVec.ofInt 16 (m.data.length : Int)).toInt = m.data.length := by
      rw [BitVec.toInt_ofInt, Int.bmod_eq_of_le (by omega) (by omega)]
    exact ⟨hsrc, hdst, hp, hid, hdata, hlenInt⟩

theorem receiving_singleton {f : Packet} (hf : IsFragment m f) :
    Receiving m [f] ⟨ipfragttl, f.ip.ipP, f.ip.ipId, f.ip.ipSrc, f.ip.ipDst, [f.asFrag]⟩ where
  isFor := ⟨hf.ipId_eq, hf.ipSrc_eq, hf.ipDst_eq, hf.ipP_eq⟩
  nonempty := by simp
  sound := by simpa using hf.sound
  inOrder := by simp [InOrder]
  fits := by simpa using hf.fits
  ids := by simpa using ⟨hf.ipId_eq, hf.ipP_eq⟩
  covered_iff := by simp

theorem Receiving.isFor_eq (h : Receiving m got fp) {f : Packet} (hf : IsFragment m f) :
    fp.isFor f.ip = true := by
  obtain ⟨hid, hsrc, hdst, hp⟩ := h.isFor
  simp [Ipq.isFor, hid, hsrc, hdst, hp, hf.ipId_eq, hf.ipSrc_eq, hf.ipDst_eq, hf.ipP_eq]

theorem Receiving.ipReass_eq (h : Receiving m got fp) {f : Packet} (hf : IsFragment m f) (hlen : Nat) :
    (Missing m (got ++ [f]) → ∃ fp', ipReass f.asFrag fp hlen = (some fp', none)
        ∧ Receiving m (got ++ [f]) fp' ∧ fp'.ipqTtl = fp.ipqTtl)
      ∧ (m.IsDatagram → Missing m got → ¬ Missing m (got ++ [f]) →
          ∃ d, ipReass f.asFrag fp hlen = (none, some d) ∧ SameDatagram m d) := by
  have hinsert := h.insert hf
  unfold ipReass
  cases hins : reassInsert fp.frags f.asFrag with
  | none =>
    rw [hins] at hinsert
    refine ⟨fun _ => ⟨fp, rfl, hinsert, rfl⟩, fun _ hmissing hall => absurd ?_ hall⟩
    -- a dropped fragment adds nothing, so what was missing still is
    obtain ⟨i, hi, hnone⟩ := hmissing
    refine ⟨i, hi, fun g hg hgi => ?_⟩
    obtain ⟨g', hg', hgi'⟩ := (h.covered_iff i).mp ((hinsert.covered_iff i).mpr ⟨g, hg, hgi⟩)
    exact hnone g' hg' hgi'
  | some frags =>
    rw [hins, Option.getD_some] at hinsert
    refine ⟨fun hmissing => ⟨_, hinsert.finish_of_missing hmissing hlen, hinsert, rfl⟩, ?_⟩
    exact fun hm _ hall => hinsert.finish_of_not_missing hm hall hlen

end Receiver

section Run

variable {m : Packet} {frags got : List Packet} {ipq : List Ipq} {fp : Ipq}

def IpEvent.opens : IpEvent → Bool
  | .arrive _ mget => mget
  | .slowtimo => false

def IpEvent.packet : IpEvent → Option Packet
  | .arrive m _ => some m
  | .slowtimo => none

def IpEvent.isTick : IpEvent → Bool
  | .arrive _ _ => false
  | .slowtimo => true

def opened (events : List IpEvent) : List IpEvent := events.dropWhile fun e => !e.opens

def received (events : List IpEvent) : List Packet := (opened events).filterMap IpEvent.packet

def ticks (events : List IpEvent) : Nat := (opened events).countP IpEvent.isTick

theorem opened_append {events : List IpEvent} {e : IpEvent} :
    opened (events ++ [e]) = if (opened events).isEmpty then opened [e] else opened events ++ [e] :=
  List.dropWhile_append

theorem received_append_of_closed {events : List IpEvent} {f : Packet} {mget : Bool}
    (hclosed : opened events = []) :
    received (events ++ [.arrive f mget]) = if mget then [f] else [] := by
  rw [received, opened_append, hclosed]
  cases mget <;> rfl

theorem received_append_of_open {events : List IpEvent} {f : Packet} {mget : Bool}
    (hopen : opened events ≠ []) :
    received (events ++ [.arrive f mget]) = received events ++ [f] := by
  rw [received, opened_append, if_neg (by simpa using hopen), List.filterMap_append]
  rfl

def Unknown (m : Packet) (ipq : List Ipq) : Prop := ∀ fp ∈ ipq, fp.isFor m.ip = false

theorem Unknown.slowtimo (h : Unknown m ipq) : Unknown m (ipSlowtimo ipq) := by
  intro fp hfp
  simp only [ipSlowtimo, List.mem_filter, List.mem_map] at hfp
  obtain ⟨⟨fp', hfp', rfl⟩, _⟩ := hfp
  exact h fp' hfp'

theorem IsFragment.isFor_congr {f : Packet} (hf : IsFragment m f) (fp : Ipq) :
    fp.isFor f.ip = fp.isFor m.ip := by
  simp [Ipq.isFor, hf.ipId_eq, hf.ipSrc_eq, hf.ipDst_eq, hf.ipP_eq]

theorem ipintr_of_receiving (h : Receiving m got fp) {f : Packet} (hf : IsFragment m f) (mget : Bool) :
    ipintr (fp :: ipq) f mget
      = ((ipReass f.asFrag fp 20).1.toList ++ ipq, (ipReass f.asFrag fp 20).2) := by
  have hfind : (fp :: ipq).find? (fun q => q.isFor f.ip) = some fp := by simp [h.isFor_eq hf]
  unfold ipintr
  rw [if_pos hf.flagged]
  simp only [hfind, hf.hlen_eq]
  rw [if_pos (by simpa using hf.partial_)]
  simp [updateQueue, h.isFor_eq hf]

theorem ipintr_of_unknown (h : Unknown m ipq) {f : Packet} (hf : IsFragment m f) (mget : Bool) :
    ipintr ipq f mget =
      if mget then
        let out := reassFinish ⟨ipfragttl, f.ip.ipP, f.ip.ipId, f.ip.ipSrc, f.ip.ipDst, [f.asFrag]⟩ 20
        (out.1.toList ++ ipq, out.2)
      else (ipq, none) := by
  have hfind : ipq.find? (fun q => q.isFor f.ip) = none := by
    rw [List.find?_eq_none]
    intro fp hfp
    rw [hf.isFor_congr, h fp hfp]
    decide
  unfold ipintr
  rw [if_pos hf.flagged]
  simp only [hfind, hf.hlen_eq]
  rw [if_pos (by simpa using hf.partial_)]

theorem Missing.of_append {got' : List Packet} (h : Missing m (got ++ got')) : Missing m got := by
  obtain ⟨i, hi, hnone⟩ := h
  exact ⟨i, hi, fun f hf => hnone f (List.mem_append_left _ hf)⟩

theorem ipRun_of_receiving {events : List IpEvent} (hfrags : ∀ f ∈ frags, IsFragment m f)
    (h : Receiving m got fp) (hothers : Unknown m ipq)
    (harrive : ∀ e ∈ events, ∀ f ∈ e.packet, f ∈ frags)
    (htime : events.countP IpEvent.isTick < fp.ipqTtl.toNat)
    (hmissing : Missing m (got ++ events.filterMap IpEvent.packet)) :
    (∀ out ∈ (ipRun (fp :: ipq) events).2, out = none)
      ∧ ∃ fp' ipq', (ipRun (fp :: ipq) events).1 = fp' :: ipq' ∧ Unknown m ipq'
        ∧ Receiving m (got ++ events.filterMap IpEvent.packet) fp' := by
  induction events generalizing got fp ipq with
  | nil => exact ⟨by simp [ipRun], fp, ipq, rfl, hothers, by simpa using h⟩
  | cons e events ih =>
    have hrest : ∀ e ∈ events, ∀ f ∈ e.packet, f ∈ frags :=
      fun e' he' => harrive e' (List.mem_cons_of_mem _ he')
    cases e with
    | arrive f mget =>
      have hf := hfrags f (harrive _ List.mem_cons_self f rfl)
      have hgot : got ++ (IpEvent.arrive f mget :: events).filterMap IpEvent.packet
          = (got ++ [f]) ++ events.filterMap IpEvent.packet := by simp [IpEvent.packet]
      rw [hgot] at hmissing ⊢
      obtain ⟨fp', hreass, h', httl⟩ := (h.ipReass_eq hf 20).1 hmissing.of_append
      have hstep : ipStep (fp :: ipq) (.arrive f mget) = (fp' :: ipq, none) := by
        rw [ipStep, ipintr_of_receiving h hf, hreass]
        rfl
      have htime' : events.countP IpEvent.isTick < fp'.ipqTtl.toNat := by
        rw [httl]
        simpa [IpEvent.isTick] using htime
      obtain ⟨hnone, hfinal⟩ := ih h' hothers hrest htime' hmissing
      simp only [ipRun, hstep]
      exact ⟨List.forall_mem_cons.mpr ⟨rfl, hnone⟩, hfinal⟩
    | slowtimo =>
      have hgot : (IpEvent.slowtimo :: events).filterMap IpEvent.packet
          = events.filterMap IpEvent.packet := rfl
      have hcount : (IpEvent.slowtimo :: events).countP IpEvent.isTick
          = events.countP IpEvent.isTick + 1 := List.countP_cons_of_pos rfl
      rw [hgot] at hmissing ⊢
      rw [hcount] at htime
      have hone : (1 : Byte).toNat = 1 := rfl
      have httl : (fp.ipqTtl - 1).toNat = fp.ipqTtl.toNat - 1 := by
        have := fp.ipqTtl.isLt
        rw [BitVec.toNat_sub, hone]
        omega
      have hne : fp.ipqTtl - 1 ≠ 0 := by
        intro hzero
        have hzeroNat : (0 : Byte).toNat = 0 := rfl
        rw [hzero, hzeroNat] at httl
        omega
      have hstep : ipStep (fp :: ipq) .slowtimo
          = ({ fp with ipqTtl := fp.ipqTtl - 1 } :: ipSlowtimo ipq, none) := by
        simp only [ipStep, ipSlowtimo, List.map_cons]
        rw [List.filter_cons_of_pos (by simpa using hne)]
      have h' : Receiving m got { fp with ipqTtl := fp.ipqTtl - 1 } :=
        ⟨h.isFor, h.nonempty, h.sound, h.inOrder, h.fits, h.ids, h.covered_iff⟩
      obtain ⟨hnone, hfinal⟩ := ih h' hothers.slowtimo hrest
        (show _ < (fp.ipqTtl - 1).toNat by omega) hmissing
      simp only [ipRun, hstep]
      exact ⟨List.forall_mem_cons.mpr ⟨rfl, hnone⟩, hfinal⟩

theorem ipRun_of_unknown {events : List IpEvent} (hfrags : ∀ f ∈ frags, IsFragment m f)
    (hnew : Unknown m ipq) (harrive : ∀ e ∈ events, ∀ f ∈ e.packet, f ∈ frags)
    (htime : ticks events < ipfragttl.toNat) (hmissing : Missing m (received events)) :
    (∀ out ∈ (ipRun ipq events).2, out = none)
      ∧ (opened events = [] ∧ Unknown m (ipRun ipq events).1
        ∨ ∃ fp' ipq', (ipRun ipq events).1 = fp' :: ipq' ∧ Unknown m ipq'
          ∧ Receiving m (received events) fp' ∧ opened events ≠ []) := by
  induction events generalizing ipq with
  | nil => exact ⟨by simp [ipRun], Or.inl ⟨rfl, hnew⟩⟩
  | cons e events ih =>
    have hrest : ∀ e ∈ events, ∀ f ∈ e.packet, f ∈ frags :=
      fun e' he' => harrive e' (List.mem_cons_of_mem _ he')
    cases hopens : e.opens with
    | false =>
      have hsame : opened (e :: events) = opened events := by simp [opened, hopens]
      have hstep : (ipStep ipq e).2 = none ∧ Unknown m (ipStep ipq e).1 := by
        cases e with
        | slowtimo => exact ⟨rfl, hnew.slowtimo⟩
        | arrive f mget =>
          have hf := hfrags f (harrive _ List.mem_cons_self f rfl)
          simp only [IpEvent.opens] at hopens
          simp only [ipStep, ipintr_of_unknown hnew hf, hopens]
          exact ⟨rfl, hnew⟩
      simp only [received, ticks, hsame] at hmissing htime ⊢
      obtain ⟨hnone, hfinal⟩ := ih hstep.2 hrest htime hmissing
      simp only [ipRun, hstep.1]
      exact ⟨List.forall_mem_cons.mpr ⟨rfl, hnone⟩, hfinal⟩
    | true =>
      have hsame : opened (e :: events) = e :: events := by simp [opened, hopens]
      cases e with
      | slowtimo => simp [IpEvent.opens] at hopens
      | arrive f mget =>
        have hf := hfrags f (harrive _ List.mem_cons_self f rfl)
        have hgot : (IpEvent.arrive f mget :: events).filterMap IpEvent.packet
            = [f] ++ events.filterMap IpEvent.packet := by simp [IpEvent.packet]
        simp only [IpEvent.opens] at hopens
        simp only [received, ticks, hsame, hgot] at hmissing htime ⊢
        have hstep : ipStep ipq (.arrive f mget)
            = (⟨ipfragttl, f.ip.ipP, f.ip.ipId, f.ip.ipSrc, f.ip.ipDst, [f.asFrag]⟩ :: ipq, none) := by
          rw [ipStep, ipintr_of_unknown hnew hf, if_pos hopens]
          simp [(receiving_singleton hf).finish_of_missing hmissing.of_append]
        obtain ⟨hnone, fp', ipq', hrun, hothers, hfinal⟩ := ipRun_of_receiving hfrags
          (receiving_singleton hf) hnew hrest (by simpa [IpEvent.isTick] using htime) hmissing
        simp only [ipRun, hstep]
        exact ⟨List.forall_mem_cons.mpr ⟨rfl, hnone⟩,
          Or.inr ⟨fp', ipq', hrun, hothers, hfinal, by simp⟩⟩

theorem missing_iff (hcarry : Carries m 0 frags) (hgot : ∀ f ∈ got, f ∈ frags) :
    Missing m got ↔ ∃ f ∈ frags, f ∉ got := by
  constructor
  · rintro ⟨i, hi, hnone⟩
    obtain ⟨f, hf, hfi⟩ := hcarry.covers i (Nat.zero_le i) hi
    exact ⟨f, hf, fun hmem => hnone f hmem hfi⟩
  · rintro ⟨f, hf, hmem⟩
    have hfits := (hcarry.isFragment f hf).fits
    have hnonempty := hfits.nonempty
    have hfinish := hfits.finish_le
    refine ⟨f.asFrag.piece.start, by omega, fun g hg hgi => hmem ?_⟩
    rw [hcarry.eq_of_covers hf (hgot g hg) ⟨le_refl _, hnonempty⟩ hgi]
    exact hg

theorem mem_of_mem_received {events : List IpEvent}
    (harrive : ∀ e ∈ events, ∀ f ∈ e.packet, f ∈ frags) {f : Packet} (hf : f ∈ received events) :
    f ∈ frags := by
  obtain ⟨e, he, hef⟩ := List.mem_filterMap.mp hf
  exact harrive e (List.dropWhile_subset _ he) f hef

/-- **Reassembly undoes fragmentation.** The fragments of a datagram arrive in any order and any number
of times, before the timer of their queue runs out. While one of them is missing `ip_reass` returns
nothing, and the arrival that completes them yields the datagram and leaves no queue behind. -/
theorem ipReass_undoes_ipOutput {mtu : Nat} {alloc : Nat → Bool} {events : List IpEvent}
    (hm : m.IsDatagram) (hmtu : mtu < m.ip.ipLen.toNat) (hout : ipOutput m mtu alloc = .ok frags)
    (hnew : Unknown m ipq) (harrive : ∀ e ∈ events, ∀ f ∈ e.packet, f ∈ frags)
    (htime : ticks events < ipfragttl.toNat) (hmissing : ∃ f ∈ frags, f ∉ received events) :
    (∀ out ∈ (ipRun ipq events).2, out = none)
      ∧ ∀ f mget, f ∈ frags → (∀ g ∈ frags, g ∈ received (events ++ [.arrive f mget])) →
          ∃ d, (ipStep (ipRun ipq events).1 (.arrive f mget)).2 = some d ∧ SameDatagram m d
            ∧ Unknown m (ipStep (ipRun ipq events).1 (.arrive f mget)).1 := by
  have hcarry := carries_ipOutput hm hmtu hout
  have hmissing' := (missing_iff hcarry fun f => mem_of_mem_received harrive).mpr hmissing
  obtain ⟨hnone, hfinal⟩ := ipRun_of_unknown hcarry.isFragment hnew harrive htime hmissing'
  refine ⟨hnone, fun f mget hf hall => ?_⟩
  have hfrag := hcarry.isFragment f hf
  have harrive' : ∀ e ∈ events ++ [.arrive f mget], ∀ f ∈ e.packet, f ∈ frags := by
    intro e he g hg
    rcases List.mem_append.mp he with he | he
    · exact harrive e he g hg
    · rw [List.mem_singleton.mp he] at hg
      exact Option.some.inj hg ▸ hf
  have hcomplete : ¬ Missing m (received (events ++ [.arrive f mget])) := by
    rw [missing_iff hcarry fun g => mem_of_mem_received harrive']
    rintro ⟨g, hg, hgone⟩
    exact hgone (hall g hg)
  rcases hfinal with ⟨hclosed, hunknown⟩ | ⟨fp, others, hrun, hothers, hrecv, hopen⟩
  · -- the datagram has no queue yet
    rw [received_append_of_closed hclosed] at hcomplete
    cases mget with
    | false =>
      have hnone := hall f hf
      rw [received_append_of_closed hclosed] at hnone
      simp at hnone
    | true =>
      rw [if_pos rfl] at hcomplete
      obtain ⟨d, hd, hsame⟩ := (receiving_singleton hfrag).finish_of_not_missing hm hcomplete 20
      simp only [ipStep, ipintr_of_unknown hunknown hfrag, if_true, hd]
      exact ⟨d, rfl, hsame, hunknown⟩
  · rw [received_append_of_open hopen] at hcomplete
    obtain ⟨d, hd, hsame⟩ := (hrecv.ipReass_eq hfrag 20).2 hm hmissing' hcomplete
    simp only [ipStep, hrun, ipintr_of_receiving hrecv hfrag, hd]
    exact ⟨d, rfl, hsame, hothers⟩

end Run

def sampleDatagram : Packet :=
  ⟨⟨5, 0, 40, 7, 0, 64, 17, 0x0a000001, 0x0a000002⟩, [],
    [1, 2, 3, 4, 5, 6, 7, 8, 9, 10, 11, 12, 13, 14, 15, 16, 17, 18, 19, 20]⟩

def sampleFragments : List Packet :=
  [firstFragment sampleDatagram 8, fragmentAt sampleDatagram [] 8 28, fragmentAt sampleDatagram [] 8 36]

def sampleArrivals : List IpEvent :=
  [.arrive (fragmentAt sampleDatagram [] 8 36) true, .arrive (firstFragment sampleDatagram 8) false,
    .slowtimo, .arrive (firstFragment sampleDatagram 8) true]

/-- The middle one completes the datagram. -/
theorem sampleDatagram_reassembles :
    ∃ d, (ipStep (ipRun [] sampleArrivals).1 (.arrive (fragmentAt sampleDatagram [] 8 28) true)).2
      = some d ∧ SameDatagram sampleDatagram d := by
  have hm : sampleDatagram.IsDatagram := ⟨rfl, rfl, rfl, by decide, rfl⟩
  have hout : ipOutput sampleDatagram 28 (fun _ => true) = .ok sampleFragments := by rfl
  have hnew : Unknown sampleDatagram [] := fun _ h => absurd h (by simp)
  have harrive : ∀ e ∈ sampleArrivals, ∀ f ∈ e.packet, f ∈ sampleFragments := by decide
  have hmissing : ∃ f ∈ sampleFragments, f ∉ received sampleArrivals :=
    ⟨fragmentAt sampleDatagram [] 8 28, by decide, by decide⟩
  obtain ⟨d, hd, hsame, _⟩ := (ipReass_undoes_ipOutput hm (by decide) hout hnew harrive (by decide)
    hmissing).2 (fragmentAt sampleDatagram [] 8 28) true (by decide) (by decide)
  exact ⟨d, hd, hsame⟩

end NetBSD.Ip
