import NetBSD.Ip.Pieces

/-!
# Lengths that are shorts

The offset and the length of a fragment are `short`s, and so is the length of the datagram that is made of them. It is right
as long as no fragment reaches beyond the last position that is a `short`.
-/

namespace NetBSD.Ip

open NetBSD.Lib

/-- `ipintr` lets the packet through: the total length, as a `short`, is not below that of the header, and the data is all there. -/
structure Packet.Accepted (m : Packet) : Prop where
  le : m.ip.hlen ≤ m.ip.ipLen.toInt
  length : (m.data.length : Int) = m.ip.ipLen.toInt - m.ip.hlen

/-- The fragments that `ip_reass` has been given for a queue, and the queue; they are not all of the datagram. -/
inductive Queues : List Packet → List Ipasfrag → Prop
  | start : Queues [] []
  | insert {got : List Packet} {frags frags' : List Ipasfrag} {m : Packet} (h : Queues got frags) (hm : m.Accepted)
      (hinsert : reassInsert frags m.asFrag = some frags') (hwait : reassComplete frags' = none) : Queues (got ++ [m]) frags'
  | drop {got : List Packet} {frags : List Ipasfrag} {m : Packet} (h : Queues got frags) (hm : m.Accepted)
      (hdrop : reassInsert frags m.asFrag = none) : Queues (got ++ [m]) frags

def Delivered.Right (d : Delivered) : Prop := 0 ≤ d.ip.ipLen.toInt ∧ d.ip.ipLen.toInt = d.data.length

def Ipasfrag.Sized (f : Ipasfrag) : Prop := f.ipLen.toInt = f.data.length

def Ipasfrag.Far (f : Ipasfrag) : Prop := 0 ≤ f.ipOff.toInt ∧ 32767 < f.ipOff.toInt + f.ipLen.toInt

def Beyond (frags : List Ipasfrag) : Prop := (∃ f ∈ frags.head?, f.ipOff.toInt < 0) ∨ ∃ f ∈ frags, f.Far

variable {f s ip ip' : Ipasfrag} {l frags frags' : List Ipasfrag} {got : List Packet} {m : Packet} {fp : Ipq} {d : Delivered}
  {i n t : Int} {hlen : Nat}

theorem Ipasfrag.Sized.bounds (h : f.Sized) : 0 ≤ f.ipLen.toInt ∧ f.ipLen.toInt ≤ 32767 := by
  have hlt := f.ipLen.toInt_lt
  have hsized : f.ipLen.toInt = f.data.length := h
  omega

theorem bmod_short {x : Int} (hlo : -32768 ≤ x) (hhi : x ≤ 32767) : x.bmod (2 ^ 16) = x := by
  rw [Int.bmod_def]
  omega

theorem toInt_add_ofInt (x : Word16) (hlo : -32768 ≤ x.toInt + i) (hhi : x.toInt + i ≤ 32767) (hi : 0 ≤ i) (hi' : i ≤ 32767) :
    (x + BitVec.ofInt 16 i).toInt = x.toInt + i := by
  rw [BitVec.toInt_add, BitVec.toInt_ofInt, bmod_short (by omega) hi', bmod_short hlo hhi]

theorem toInt_sub_ofInt (x : Word16) (hlo : -32768 ≤ x.toInt - i) (hhi : x.toInt - i ≤ 32767) (hi : 0 ≤ i) (hi' : i ≤ 32767) :
    (x - BitVec.ofInt 16 i).toInt = x.toInt - i := by
  rw [BitVec.toInt_sub, BitVec.toInt_ofInt, bmod_short (by omega) hi', bmod_short hlo hhi]

theorem Packet.Accepted.sized (hm : m.Accepted) : m.asFrag.Sized := by
  have hle := hm.le
  have hlength := hm.length
  have hlt := m.ip.ipLen.toInt_lt
  have hsub : m.asFrag.ipLen = m.ip.ipLen - BitVec.ofInt 16 m.ip.hlen := by
    rw [BitVec.ofInt_natCast]
    rfl
  unfold Ipasfrag.Sized
  rw [hsub, toInt_sub_ofInt _ (by omega) (by omega) (by omega) (by omega)]
  exact hlength.symm

theorem Ipasfrag.Sized.trim (h : f.Sized) (hlo : 0 < i) (hhi : i < f.ipLen.toInt) : (f.trim i).Sized ∧
    (f.trim i).ipLen.toInt = f.ipLen.toInt - i ∧ (f.ipOff.toInt + i ≤ 32767 → (f.trim i).ipOff.toInt = f.ipOff.toInt + i) := by
  have hsized : f.ipLen.toInt = f.data.length := h
  have hbounds := h.bounds
  have hlow := f.ipOff.le_toInt
  have hlen : (f.trim i).ipLen.toInt = f.ipLen.toInt - i :=
    toInt_sub_ofInt f.ipLen (by omega) (by omega) hlo.le (by omega)
  refine ⟨?_, hlen, fun hle => toInt_add_ofInt f.ipOff (by omega) hle hlo.le (by omega)⟩
  have hdata : (f.trim i).data.length = f.data.length - i.toNat := List.length_drop
  unfold Ipasfrag.Sized
  rw [hlen, hdata]
  omega

theorem Ipasfrag.Sized.far (h : f.Sized) (hend : 32767 < f.ipOff.toInt + f.ipLen.toInt) : f.Far :=
  ⟨by have := h.bounds; omega, hend⟩

theorem reassPreceding_sized {prev : Option Ipasfrag} (hip : ip.Sized) (h : reassPreceding prev ip = some ip') : ip'.Sized := by
  unfold reassPreceding at h
  split at h
  · exact Option.some.inj h ▸ hip
  · dsimp only at h
    split at h
    · split at h
      · cases h
      · obtain rfl := Option.some.inj h
        exact (hip.trim (by omega) (by omega)).1
    · exact Option.some.inj h ▸ hip

theorem reassSucceeding_sized (hl : ∀ q ∈ l, q.Sized) : ∀ q ∈ reassSucceeding ip l, q.Sized := by
  induction l with
  | nil => exact hl
  | cons q rest ih =>
    obtain ⟨hq, hrest⟩ := List.forall_mem_cons.1 hl
    rw [reassSucceeding]
    split
    · dsimp only
      split
      · exact List.forall_mem_cons.2 ⟨(hq.trim (by omega) (by omega)).1, hrest⟩
      · exact ih hrest
    · exact hl

theorem reassInsert_eq_some (h : reassInsert frags ip = some frags') :
    ∃ before after ip', frags = before ++ after ∧ (∀ q ∈ before, q.ipOff.toInt ≤ ip.ipOff.toInt) ∧
      (∀ q ∈ after.head?, ip.ipOff.toInt < q.ipOff.toInt) ∧ reassPreceding before.getLast? ip = some ip' ∧
      frags' = before ++ ip' :: reassSucceeding ip' after := by
  obtain ⟨ip', hpre, rfl⟩ := Option.map_eq_some_iff.1 h
  refine ⟨_, _, ip', (List.takeWhile_append_dropWhile ..).symm, fun q hq => ?_, fun q hq => ?_, hpre, rfl⟩
  · simpa using List.mem_takeWhile_imp hq
  · have hnot := List.head?_dropWhile_not (fun q : Ipasfrag => decide (q.ipOff.toInt ≤ ip.ipOff.toInt)) frags
    rw [Option.mem_def.1 hq] at hnot
    simpa using hnot

theorem reassInsert_sized (hip : ip.Sized) (hfrags : ∀ q ∈ frags, q.Sized) (h : reassInsert frags ip = some frags') :
    ∀ q ∈ frags', q.Sized := by
  obtain ⟨before, after, ip', rfl, -, -, hpre, rfl⟩ := reassInsert_eq_some h
  obtain ⟨hbefore, hafter⟩ := List.forall_mem_append.1 hfrags
  exact List.forall_mem_append.2 ⟨hbefore, List.forall_mem_cons.2 ⟨reassPreceding_sized hip hpre, reassSucceeding_sized hafter⟩⟩

theorem Queues.sized (h : Queues got frags) : ∀ q ∈ frags, q.Sized := by
  induction h with
  | start => exact List.forall_mem_nil _
  | insert _ hm hinsert _ ih => exact reassInsert_sized hm.sized ih hinsert
  | drop _ _ _ ih => exact ih

theorem reassSucceeding_far (hl : ∀ q ∈ l, q.Sized) (hs : s ∈ l) (hfar : s.Far) :
    (∃ q ∈ reassSucceeding ip l, q.Far) ∨ 32767 < ip.ipOff.toInt + ip.ipLen.toInt := by
  induction l with
  | nil => exact absurd hs List.not_mem_nil
  | cons q rest ih =>
    obtain ⟨hq, hrest⟩ := List.forall_mem_cons.1 hl
    rw [reassSucceeding]
    by_cases hover : q.ipOff.toInt < ip.ipOff.toInt + ip.ipLen.toInt
    · rw [if_pos hover]
      dsimp only
      by_cases hpart : ip.ipOff.toInt + ip.ipLen.toInt - q.ipOff.toInt < q.ipLen.toInt
      · rw [if_pos hpart]
        obtain rfl | hmem := List.mem_cons.1 hs
        · by_cases hend : ip.ipOff.toInt + ip.ipLen.toInt ≤ 32767
          · obtain ⟨-, hlen, hoff⟩ := hq.trim (by omega) hpart
            have hoff' := hoff (by omega)
            have := hfar.1
            have := hfar.2
            exact .inl ⟨_, List.mem_cons_self, by omega, by omega⟩
          · exact .inr (by omega)
        · exact .inl ⟨s, List.mem_cons_of_mem _ hmem, hfar⟩
      · rw [if_neg hpart]
        obtain rfl | hmem := List.mem_cons.1 hs
        · have := hfar.2
          exact .inr (by omega)
        · exact ih hrest hmem
    · rw [if_neg hover]
      exact .inl ⟨s, hs, hfar⟩

theorem Beyond.insert (hbeyond : Beyond frags) (hip : ip.Sized) (hfrags : ∀ q ∈ frags, q.Sized)
    (h : reassInsert frags ip = some frags') : Beyond frags' := by
  obtain ⟨before, after, ip', rfl, -, hafter, hpre, rfl⟩ := reassInsert_eq_some h
  have hip' := reassPreceding_sized hip hpre
  obtain ⟨f, hf, hneg⟩ | ⟨s, hs, hfar⟩ := hbeyond
  · left
    cases before with
    | nil =>
      obtain rfl := Option.some.inj hpre
      have := hafter f hf
      exact ⟨ip, rfl, by omega⟩
    | cons first before => exact ⟨f, hf, hneg⟩
  · right
    obtain hmem | hmem := List.mem_append.1 hs
    · exact ⟨s, List.mem_append_left _ hmem, hfar⟩
    · obtain ⟨q, hq, hfar'⟩ | hend := reassSucceeding_far (fun q hq => hfrags q (List.mem_append_right _ hq)) hmem hfar
      · exact ⟨q, List.mem_append_right _ (List.mem_cons_of_mem _ hq), hfar'⟩
      · exact ⟨ip', List.mem_append_right _ List.mem_cons_self, hip'.far hend⟩

theorem Ipasfrag.Sized.of_not_lt (h : f.Sized) (hend : ¬f.piece.finish < 2 ^ 15) : f.ipOff.toInt < 0 ∨ f.Far := by
  have hsized : f.ipLen.toInt = f.data.length := h
  have hfinish : f.piece.finish = f.ipOff.toNat + f.data.length := rfl
  rw [hfinish] at hend
  by_cases hoff : f.ipOff.toNat < 2 ^ 15
  · have hint := BitVec.toInt_eq_toNat_of_lt (x := f.ipOff) (by omega)
    exact .inr ⟨by omega, by omega⟩
  · have hint := BitVec.toInt_eq_toNat_cond f.ipOff
    rw [if_neg (by omega)] at hint
    have := f.ipOff.isLt
    exact .inl (by omega)

theorem reassPreceding_far {prev : Option Ipasfrag} (hprev : ∀ p ∈ prev, p.Sized) (hip : ip.Sized) (hfar : ip.Far) :
    (∃ p ∈ prev, p.Far) ∨ ∃ ip', reassPreceding prev ip = some ip' ∧ ip'.Far := by
  cases prev with
  | none => exact .inr ⟨ip, rfl, hfar⟩
  | some p =>
    obtain ⟨hoff, hend⟩ := hfar
    by_cases hfarp : 32767 < p.ipOff.toInt + p.ipLen.toInt
    · exact .inl ⟨p, rfl, (hprev p rfl).far hfarp⟩
    · rw [reassPreceding]
      by_cases hover : 0 < p.ipOff.toInt + p.ipLen.toInt - ip.ipOff.toInt
      · rw [if_pos hover, if_neg (by omega)]
        obtain ⟨-, hlen, hoff'⟩ := hip.trim hover (by omega)
        have := hoff' (by omega)
        exact .inr ⟨_, rfl, by omega, by omega⟩
      · rw [if_neg hover]
        exact .inr ⟨ip, rfl, hoff, hend⟩

theorem beyond_of_insert (hip : ip.Sized) (hfrags : ∀ q ∈ frags, q.Sized) (hend : ¬ip.piece.finish < 2 ^ 15)
    (h : reassInsert frags ip = some frags') : Beyond frags' := by
  obtain ⟨before, after, ip', rfl, hbefore, -, hpre, rfl⟩ := reassInsert_eq_some h
  obtain hneg | hfar := hip.of_not_lt hend
  · left
    cases before with
    | nil =>
      obtain rfl := Option.some.inj hpre
      exact ⟨ip, rfl, hneg⟩
    | cons first before =>
      have := hbefore first List.mem_cons_self
      exact ⟨first, rfl, by omega⟩
  · right
    have hlast : ∀ p ∈ before.getLast?, p.Sized := fun p hp => hfrags p (List.mem_append_left _ (List.mem_of_getLast? hp))
    obtain ⟨p, hp, hfarp⟩ | ⟨ip₁, hpre', hfar'⟩ := reassPreceding_far hlast hip hfar
    · exact ⟨p, List.mem_append_left _ (List.mem_of_getLast? hp), hfarp⟩
    · obtain rfl := Option.some.inj (hpre'.symm.trans hpre)
      exact ⟨ip₁, List.mem_append_right _ List.mem_cons_self, hfar'⟩

theorem beyond_of_drop (hip : ip.Sized) (hfrags : ∀ q ∈ frags, q.Sized) (hend : ¬ip.piece.finish < 2 ^ 15)
    (h : reassInsert frags ip = none) : Beyond frags := by
  have hpre := Option.map_eq_none_iff.1 h
  obtain hneg | hfar := hip.of_not_lt hend
  · left
    cases frags with
    | nil => cases hpre
    | cons first rest =>
      refine ⟨first, rfl, ?_⟩
      by_cases hle : first.ipOff.toInt ≤ ip.ipOff.toInt
      · omega
      · rw [List.takeWhile_cons_of_neg (by simpa using hle)] at hpre
        cases hpre
  · right
    have hmem : ∀ p ∈ (frags.takeWhile fun q => q.ipOff.toInt ≤ ip.ipOff.toInt).getLast?, p ∈ frags :=
      fun p hp => List.takeWhile_subset _ (List.mem_of_getLast? hp)
    obtain ⟨p, hp, hfarp⟩ | ⟨ip', hpre', -⟩ := reassPreceding_far (fun p hp => hfrags p (hmem p hp)) hip hfar
    · exact ⟨p, hmem p hp, hfarp⟩
    · cases hpre'.symm.trans hpre

theorem Queues.beyond (h : Queues got frags) (hend : ∃ f ∈ got, ¬f.asFrag.piece.finish < 2 ^ 15) : Beyond frags := by
  induction h with
  | start =>
    obtain ⟨f, hf, -⟩ := hend
    exact absurd hf List.not_mem_nil
  | insert hq hm hinsert _ ih =>
    obtain ⟨f, hf, hfend⟩ := hend
    obtain hf | hf := List.mem_append.1 hf
    · exact (ih ⟨f, hf, hfend⟩).insert hm.sized hq.sized hinsert
    · exact beyond_of_insert hm.sized hq.sized (List.mem_singleton.1 hf ▸ hfend) hinsert
  | drop hq hm hdrop ih =>
    obtain ⟨f, hf, hfend⟩ := hend
    obtain hf | hf := List.mem_append.1 hf
    · exact ih ⟨f, hf, hfend⟩
    · exact beyond_of_drop hm.sized hq.sized (List.mem_singleton.1 hf ▸ hfend) hdrop

theorem reassWalk_spec (hfrags : ∀ q ∈ frags, q.Sized) (h : reassWalk n frags = some t) :
    t = n + (frags.flatMap Ipasfrag.data).length ∧ (∀ q ∈ frags.head?, q.ipOff.toInt = n) ∧
      ∀ q ∈ frags, q.ipOff.toInt + q.ipLen.toInt ≤ t := by
  induction frags generalizing n with
  | nil =>
    obtain rfl := Option.some.inj h
    exact ⟨(Int.add_zero n).symm, fun _ hq => (Option.not_mem_none _ hq).elim, List.forall_mem_nil _⟩
  | cons q rest ih =>
    obtain ⟨hq, hrest⟩ := List.forall_mem_cons.1 hfrags
    have hsized : q.ipLen.toInt = q.data.length := hq
    rw [reassWalk] at h
    split at h
    · cases h
    · rename_i hoff
      obtain ⟨ht, -, hends⟩ := ih hrest h
      refine ⟨?_, fun p hp => ?_, List.forall_mem_cons.2 ⟨?_, hends⟩⟩
      · rw [List.flatMap_cons, List.length_append]
        omega
      · obtain rfl := Option.some.inj hp
        exact not_not.1 hoff
      · omega

theorem reassWalk_lt (hfrags : ∀ q ∈ frags, q.Sound) (hn : n < 32768) (h : reassWalk n frags = some t) : t < 32768 := by
  induction frags generalizing n with
  | nil => exact Option.some.inj h ▸ hn
  | cons q rest ih =>
    obtain ⟨hq, hrest⟩ := List.forall_mem_cons.1 hfrags
    rw [reassWalk] at h
    split at h
    · cases h
    · rename_i hoff
      obtain ⟨hoff', hlen⟩ := hq.toInt
      have hfinish : q.piece.start + q.piece.data.length < 2 ^ 15 := hq.finish_lt
      exact ih hrest (by omega) h

theorem Packet.Accepted.sound (hm : m.Accepted) (hend : m.asFrag.piece.finish < 2 ^ 15) : m.asFrag.Sound := by
  have hsized : m.asFrag.ipLen.toInt = m.asFrag.data.length := hm.sized
  have hcond := BitVec.toInt_eq_toNat_cond m.asFrag.ipLen
  have hlt := m.asFrag.ipLen.isLt
  refine ⟨hend, ?_⟩
  split at hcond <;> omega

theorem Queues.sound (h : Queues got frags) (hend : ∀ f ∈ got, f.asFrag.piece.finish < 2 ^ 15) : ∀ q ∈ frags, q.Sound := by
  induction h with
  | start => exact List.forall_mem_nil _
  | insert hq hm hinsert _ ih =>
    obtain ⟨hgot, hlast⟩ := List.forall_mem_append.1 hend
    have hsound := (reassInsert_piece (ih hgot) (hm.sound (hlast _ (List.mem_singleton_self _)))).2
    rwa [hinsert] at hsound
  | drop _ _ _ ih => exact ih (List.forall_mem_append.1 hend).1

theorem ipReass_returns (h : ipReass ip fp hlen = (none, some d)) : ∃ frags next, reassInsert fp.frags ip = some frags ∧
    reassWalk 0 frags = some next ∧ d.ip.ipLen = BitVec.ofInt 16 next ∧ d.data = frags.flatMap Ipasfrag.data := by
  unfold ipReass at h
  split at h
  · cases h
  rename_i frags hinsert
  unfold reassFinish at h
  split at h
  · cases h
  rename_i next hcomplete
  refine ⟨frags, next, hinsert, ?_, ?_⟩
  · unfold reassComplete at hcomplete
    split at hcomplete
    · cases hcomplete
    rename_i next' hwalk
    dsimp only at hcomplete hwalk
    split at hcomplete
    · exact hcomplete ▸ hwalk
    · split at hcomplete
      · cases hcomplete
      · exact hcomplete ▸ hwalk
  · have hconcat := congrArg Prod.snd h
    unfold reassConcat at hconcat
    dsimp only at hconcat
    split at hconcat
    · cases hconcat
    · obtain rfl := Option.some.inj hconcat
      exact ⟨rfl, rfl⟩

theorem Queues.right_iff (hq : Queues got fp.frags) (hm : m.Accepted) (h : ipReass m.asFrag fp hlen = (none, some d)) :
    d.Right ↔ ∀ f ∈ got ++ [m], f.asFrag.piece.finish < 2 ^ 15 := by
  obtain ⟨frags, next, hinsert, hwalk, hlen', hdata⟩ := ipReass_returns h
  have hsized := reassInsert_sized hm.sized hq.sized hinsert
  obtain ⟨hnext, hhead, hends⟩ := reassWalk_spec hsized hwalk
  rw [← hdata, Int.zero_add] at hnext
  constructor
  · rintro ⟨-, hright⟩
    by_contra hnot
    have hbeyond : Beyond frags := by
      simp only [not_forall] at hnot
      obtain ⟨f, hf, hend⟩ := hnot
      obtain hf | hf := List.mem_append.1 hf
      · exact (hq.beyond ⟨f, hf, hend⟩).insert hm.sized hq.sized hinsert
      · exact beyond_of_insert hm.sized hq.sized (List.mem_singleton.1 hf ▸ hend) hinsert
    obtain ⟨f, hf, hneg⟩ | ⟨s, hs, -, hfar⟩ := hbeyond
    · have := hhead f hf
      omega
    · have hle := hends s hs
      have hlt := d.ip.ipLen.toInt_lt
      omega
  · intro hend
    obtain ⟨hgot, hlast⟩ := List.forall_mem_append.1 hend
    have hsound := (reassInsert_piece (hq.sound hgot) (hm.sound (hlast _ (List.mem_singleton_self _)))).2
    rw [hinsert, Option.getD_some] at hsound
    have hlt := reassWalk_lt hsound (by decide) hwalk
    have hint : d.ip.ipLen.toInt = next := by
      rw [hlen', BitVec.toInt_ofInt, bmod_short (by omega) (by omega)]
    exact ⟨by omega, by omega⟩

/-- **The length of a datagram that is put together** is right exactly when every fragment of it ends at a position that is a short. -/
theorem ipReass_right_iff (got : List Packet) (fp : Ipq) (hq : Queues got fp.frags) (m : Packet) (hm : m.Accepted) (hlen : Nat)
    (d : Delivered) (h : ipReass m.asFrag fp hlen = (none, some d)) :
    d.Right ↔ ∀ f ∈ got ++ [m], f.asFrag.piece.finish < 2 ^ 15 :=
  hq.right_iff hm h

def zeros (ipOff : Word16) (len : Nat) : Packet where
  ip := { ipHl := 5, ipTos := 0, ipLen := BitVec.ofNat 16 (20 + len), ipId := 1, ipOff, ipTtl := 64, ipP := 17, ipSrc := 0x0a000001,
          ipDst := 0x0a000002 }
  opts := []
  data := List.replicate len 0

theorem zeros_accepted (ipOff : Word16) {len : Nat} (h : len ≤ 32747) : (zeros ipOff len).Accepted := by
  have hlen : (BitVec.ofNat 16 (20 + len)).toInt = 20 + len := by
    rw [BitVec.toInt_ofNat', bmod_short (by omega) (by omega)]
    omega
  have hhlen : (zeros ipOff len).ip.hlen = 20 := rfl
  constructor
  · rw [hhlen]
    change _ ≤ (BitVec.ofNat 16 (20 + len)).toInt
    omega
  · rw [hhlen]
    change _ = (BitVec.ofNat 16 (20 + len)).toInt - _
    rw [hlen, show (zeros ipOff len).data.length = len from List.length_replicate]
    omega

def queueOf (f : Packet) : Ipq where
  ipqTtl := ipfragttl
  ipqP := 17
  ipqId := 1
  ipqSrc := 0x0a000001
  ipqDst := 0x0a000002
  frags := [f.asFrag]

theorem ipReass_right_iff_small : ∃ d, ipReass (zeros 1 4).asFrag (queueOf (zeros 0x2000 8)) 20 = (none, some d) ∧
    (d.Right ↔ ∀ f ∈ [zeros 0x2000 8] ++ [zeros 1 4], f.asFrag.piece.finish < 2 ^ 15) :=
  ⟨_, rfl, ipReass_right_iff [zeros 0x2000 8] (queueOf (zeros 0x2000 8))
    (.insert .start (zeros_accepted _ (by decide)) rfl rfl) (zeros 1 4) (zeros_accepted _ (by decide)) 20 _ rfl⟩

/-- Two fragments of twenty thousand bytes make a datagram of a negative length. -/
theorem large_not_right : Queues [zeros 0x2000 20000] (queueOf (zeros 0x2000 20000)).frags ∧ (zeros 2500 20000).Accepted ∧
    ∃ d, ipReass (zeros 2500 20000).asFrag (queueOf (zeros 0x2000 20000)) 20 = (none, some d) ∧ ¬d.Right := by
  refine ⟨.insert .start (zeros_accepted _ (by decide)) rfl rfl, zeros_accepted _ (by decide), _, rfl, fun h => absurd h.1 ?_⟩
  decide

end NetBSD.Ip
