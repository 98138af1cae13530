import NetBSD.Ip.Output

/-!
# Receiving fragments

`ipintr` from `ours` on, with `ip_reass`, `ip_freef` and `ip_slowtimo`. The list of reassembly queues
and each queue's list of fragments are in the order of their links; offsets and lengths are compared
as the `short`s they are.
-/

namespace NetBSD.Ip

def ipfragttl : Byte := 60

/-- A fragment on a reassembly queue. `ipf_mff` overlays `ip_tos`, and the links overlay the
addresses. -/
structure Ipasfrag where
  ipHl : Nat
  ipfMff : Byte
  ipLen : Word16
  ipId : Word16
  ipOff : Word16
  ipTtl : Byte
  ipP : Byte
  opts : List Byte
  data : List Byte
  deriving DecidableEq

def Ipasfrag.more (f : Ipasfrag) : Bool := f.ipfMff &&& 1 ≠ 0

structure Ipq where
  ipqTtl : Byte
  ipqP : Byte
  ipqId : Word16
  ipqSrc : Word32
  ipqDst : Word32
  frags : List Ipasfrag
  deriving DecidableEq

structure Delivered where
  ip : IpHeader
  opts : List Byte
  data : List Byte
  hlen : Nat
  deriving DecidableEq

def Ipasfrag.trim (f : Ipasfrag) (i : Int) : Ipasfrag :=
  { f with
    ipOff := f.ipOff + BitVec.ofInt 16 i
    ipLen := f.ipLen - BitVec.ofInt 16 i
    data := f.data.drop i.toNat }

def reassPreceding (prev : Option Ipasfrag) (ip : Ipasfrag) : Option Ipasfrag :=
  match prev with
  | none => some ip
  | some prev =>
    let i := prev.ipOff.toInt + prev.ipLen.toInt - ip.ipOff.toInt
    if 0 < i then
      if ip.ipLen.toInt ≤ i then none else some (ip.trim i)
    else some ip

def reassSucceeding (ip : Ipasfrag) : List Ipasfrag → List Ipasfrag
  | [] => []
  | q :: rest =>
    if q.ipOff.toInt < ip.ipOff.toInt + ip.ipLen.toInt then
      let i := ip.ipOff.toInt + ip.ipLen.toInt - q.ipOff.toInt
      if i < q.ipLen.toInt then q.trim i :: rest else reassSucceeding ip rest
    else q :: rest

def reassInsert (frags : List Ipasfrag) (ip : Ipasfrag) : Option (List Ipasfrag) :=
  let before := frags.takeWhile fun q => q.ipOff.toInt ≤ ip.ipOff.toInt
  let after := frags.dropWhile fun q => q.ipOff.toInt ≤ ip.ipOff.toInt
  (reassPreceding before.getLast? ip).map fun ip => before ++ ip :: reassSucceeding ip after

def reassWalk (next : Int) : List Ipasfrag → Option Int
  | [] => some next
  | q :: rest => if q.ipOff.toInt ≠ next then none else reassWalk (next + q.ipLen.toInt) rest

def reassComplete (frags : List Ipasfrag) : Option Int :=
  match reassWalk 0 frags with
  | none => none
  | some next =>
    match frags.getLast? with
    | none => some next
    | some last => if last.more then none else some next

def reassConcat (fp : Ipq) (next : Int) (hlen : Nat) : Option Delivered :=
  match fp.frags with
  | [] => none
  | q :: _ =>
    some {
      ip := ⟨q.ipHl, q.ipfMff &&& ~~~1, BitVec.ofInt 16 next, q.ipId, q.ipOff, q.ipTtl, q.ipP,
        fp.ipqSrc, fp.ipqDst⟩
      opts := q.opts
      data := fp.frags.flatMap Ipasfrag.data
      hlen := hlen }

def reassFinish (fp : Ipq) (hlen : Nat) : Option Ipq × Option Delivered :=
  match reassComplete fp.frags with
  | none => (some fp, none)
  | some next => (none, reassConcat fp next hlen)

def ipReass (ip : Ipasfrag) (fp : Ipq) (hlen : Nat) : Option Ipq × Option Delivered :=
  match reassInsert fp.frags ip with
  | none => (some fp, none)
  | some frags => reassFinish { fp with frags := frags } hlen

def Ipq.isFor (fp : Ipq) (ip : IpHeader) : Bool :=
  ip.ipId = fp.ipqId && ip.ipSrc = fp.ipqSrc && ip.ipDst = fp.ipqDst && ip.ipP = fp.ipqP

def updateQueue (ip : IpHeader) (f : Ipq → Option Ipq) : List Ipq → List Ipq
  | [] => []
  | fp :: rest => if fp.isFor ip then (f fp).toList ++ rest else fp :: updateQueue ip f rest

def Packet.asFrag (m : Packet) : Ipasfrag where
  ipHl := m.ip.ipHl
  ipfMff := if m.ip.ipOff &&& ipMf ≠ 0 then m.ip.ipTos &&& ~~~1 ||| 1 else m.ip.ipTos &&& ~~~1
  ipLen := m.ip.ipLen - BitVec.ofNat 16 m.ip.hlen
  ipId := m.ip.ipId
  ipOff := m.ip.ipOff <<< 3
  ipTtl := m.ip.ipTtl
  ipP := m.ip.ipP
  opts := m.opts
  data := m.data

/-- `ipintr` from `ours` on: the queues, and what is handed to the protocol. `mget` is whether
`ip_reass` gets an mbuf for a new queue. -/
def ipintr (ipq : List Ipq) (m : Packet) (mget : Bool) : List Ipq × Option Delivered :=
  let hlen := m.ip.hlen
  if m.ip.ipOff &&& ~~~ipDf ≠ 0 then
    let ip := m.asFrag
    match ipq.find? (·.isFor m.ip) with
    | some fp =>
      if ip.more ∨ ip.ipOff ≠ 0 then
        let out := ipReass ip fp hlen
        (updateQueue m.ip (fun _ => out.1) ipq, out.2)
      else
        (updateQueue m.ip (fun _ => none) ipq, some ⟨{ m.ip with
          ipTos := ip.ipfMff, ipLen := ip.ipLen, ipOff := ip.ipOff }, m.opts, m.data, hlen⟩)
    | none =>
      if ip.more ∨ ip.ipOff ≠ 0 then
        if mget then
          let fp : Ipq := ⟨ipfragttl, m.ip.ipP, m.ip.ipId, m.ip.ipSrc, m.ip.ipDst, [ip]⟩
          let out := reassFinish fp hlen
          (out.1.toList ++ ipq, out.2)
        else (ipq, none)
      else
        (ipq, some ⟨{ m.ip with
          ipTos := ip.ipfMff, ipLen := ip.ipLen, ipOff := ip.ipOff }, m.opts, m.data, hlen⟩)
  else
    (ipq, some ⟨{ m.ip with ipLen := m.ip.ipLen - BitVec.ofNat 16 hlen }, m.opts, m.data, hlen⟩)

def ipSlowtimo (ipq : List Ipq) : List Ipq :=
  (ipq.map fun fp => { fp with ipqTtl := fp.ipqTtl - 1 }).filter fun fp => fp.ipqTtl ≠ 0

inductive IpEvent where
  | arrive (m : Packet) (mget : Bool)
  | slowtimo
  deriving DecidableEq

def ipStep (ipq : List Ipq) : IpEvent → List Ipq × Option Delivered
  | .arrive m mget => ipintr ipq m mget
  | .slowtimo => (ipSlowtimo ipq, none)

def ipRun (ipq : List Ipq) : List IpEvent → List Ipq × List (Option Delivered)
  | [] => (ipq, [])
  | e :: events =>
    let out := ipStep ipq e
    let rest := ipRun out.1 events
    (rest.1, out.2 :: rest.2)

end NetBSD.Ip

/-!
## The header length handed to the protocol

A reassembled datagram has the header of the first fragment of its queue, but `ipintr` hands the protocol
the header length of the fragment that arrived last.
-/

namespace NetBSD.Ip

variable {ipq : List Ipq} {m : Packet} {fp : Ipq} {ip q : Ipasfrag} {d : Delivered} {frags : List Ipasfrag}
  {mget : Bool} {hlen : Nat}

def Packet.isFragment (m : Packet) : Prop :=
  m.ip.ipOff &&& ~~~ipDf ≠ 0 ∧ (m.asFrag.more ∨ m.asFrag.ipOff ≠ 0)

/-- The header of the datagram would be as long as that of the packet: a queue that `m` belongs to, but
not in front, begins with a fragment whose header is as long. -/
def SameHlen (ipq : List Ipq) (m : Packet) : Prop :=
  m.isFragment → ∀ fp, ipq.find? (·.isFor m.ip) = some fp → ∀ q, fp.frags.head? = some q →
    q.ipOff.toInt ≤ m.asFrag.ipOff.toInt → q.ipHl = m.ip.ipHl

theorem reassConcat_eq_some {next : Int} (h : reassConcat fp next hlen = some d) :
    ∃ q, fp.frags.head? = some q ∧ d.ip.ipHl = q.ipHl ∧ d.hlen = hlen := by
  cases hfrags : fp.frags with
  | nil => simp [reassConcat, hfrags] at h
  | cons q rest =>
    simp only [reassConcat, hfrags, Option.some.injEq] at h
    subst h
    exact ⟨q, rfl, rfl, rfl⟩

theorem reassFinish_eq_some (h : (reassFinish fp hlen).2 = some d) :
    ∃ q, fp.frags.head? = some q ∧ d.ip.ipHl = q.ipHl ∧ d.hlen = hlen := by
  cases hcomplete : reassComplete fp.frags with
  | none => simp [reassFinish, hcomplete] at h
  | some next =>
    simp only [reassFinish, hcomplete] at h
    exact reassConcat_eq_some h

theorem head?_reassInsert {frags' : List Ipasfrag} (h : reassInsert frags ip = some frags') :
    ∃ q', frags'.head? = some q' ∧
      ((∃ q, frags.head? = some q ∧ q.ipOff.toInt ≤ ip.ipOff.toInt ∧ q' = q)
        ∨ (∀ q, frags.head? = some q → ¬ q.ipOff.toInt ≤ ip.ipOff.toInt) ∧ q' = ip) := by
  obtain ⟨ip', hprev, rfl⟩ := Option.map_eq_some_iff.mp h
  cases frags with
  | nil =>
    obtain rfl : ip = ip' := Option.some.inj hprev
    exact ⟨ip, rfl, .inr ⟨fun q hq => absurd hq (by simp), rfl⟩⟩
  | cons q rest =>
    by_cases hq : q.ipOff.toInt ≤ ip.ipOff.toInt
    · refine ⟨q, ?_, .inl ⟨q, rfl, hq, rfl⟩⟩
      rw [List.takeWhile_cons_of_pos (by simpa using hq)]
      rfl
    · rw [List.takeWhile_cons_of_neg (by simpa using hq)] at hprev ⊢
      obtain rfl : ip = ip' := Option.some.inj hprev
      refine ⟨ip, rfl, .inr ⟨fun q' hq' => ?_, rfl⟩⟩
      rwa [← Option.some.inj hq']

theorem ipReass_eq_some (h : (ipReass ip fp hlen).2 = some d) :
    d.hlen = hlen ∧ ((∃ q, fp.frags.head? = some q ∧ q.ipOff.toInt ≤ ip.ipOff.toInt ∧ d.ip.ipHl = q.ipHl)
      ∨ (∀ q, fp.frags.head? = some q → ¬ q.ipOff.toInt ≤ ip.ipOff.toInt) ∧ d.ip.ipHl = ip.ipHl) := by
  cases hinsert : reassInsert fp.frags ip with
  | none => simp [ipReass, hinsert] at h
  | some frags =>
    simp only [ipReass, hinsert] at h
    obtain ⟨q', hq', hhl, hhlen⟩ := reassFinish_eq_some h
    obtain ⟨q'', hq'', hcase⟩ := head?_reassInsert hinsert
    obtain rfl : q' = q'' := Option.some.inj (hq'.symm.trans hq'')
    refine ⟨hhlen, ?_⟩
    rcases hcase with ⟨q, hq, hle, rfl⟩ | ⟨hfront, rfl⟩
    · exact .inl ⟨q', hq, hle, hhl⟩
    · exact .inr ⟨hfront, hhl⟩

theorem hlen_eq_iff {ip ip' : IpHeader} : ip.hlen = ip'.hlen ↔ ip.ipHl = ip'.ipHl := by
  rw [IpHeader.hlen, IpHeader.hlen]
  omega

theorem ipintr_hlen_iff (h : (ipintr ipq m mget).2 = some d) :
    d.hlen = d.ip.hlen ↔ SameHlen ipq m := by
  by_cases hoff : m.ip.ipOff &&& ~~~ipDf ≠ 0
  · by_cases hpart : m.asFrag.more ∨ m.asFrag.ipOff ≠ 0
    · have hfrag : m.isFragment := ⟨hoff, hpart⟩
      cases hfind : ipq.find? (·.isFor m.ip) with
      | some fp =>
        simp only [ipintr, if_pos hoff, hfind, if_pos hpart] at h
        obtain ⟨hhlen, hcase⟩ := ipReass_eq_some h
        rw [hhlen, hlen_eq_iff]
        rcases hcase with ⟨q, hq, hle, hhl⟩ | ⟨hfront, hhl⟩
        · rw [hhl]
          refine ⟨fun heq _ fp' hfp' q' hq' _ => ?_, fun hsame => (hsame hfrag fp hfind q hq hle).symm⟩
          obtain rfl : fp = fp' := Option.some.inj (hfind.symm.trans hfp')
          obtain rfl : q = q' := Option.some.inj (hq.symm.trans hq')
          exact heq.symm
        · refine ⟨fun _ _ fp' hfp' q' hq' hle => ?_, fun _ => hhl.symm⟩
          obtain rfl : fp = fp' := Option.some.inj (hfind.symm.trans hfp')
          exact absurd hle (hfront q' hq')
      | none =>
        refine iff_of_true ?_ fun _ fp hfp => absurd (hfind.symm.trans hfp) (by simp)
        simp only [ipintr, if_pos hoff, hfind, if_pos hpart] at h
        cases mget with
        | false => simp at h
        | true =>
          obtain ⟨q, hq, hhl, hhlen⟩ := reassFinish_eq_some h
          obtain rfl := Option.some.inj hq
          rw [hhlen, hlen_eq_iff]
          exact hhl.symm
    · refine iff_of_true ?_ fun hfrag => absurd hfrag.2 hpart
      cases hfind : ipq.find? (·.isFor m.ip) <;>
        simp only [ipintr, if_pos hoff, hfind, if_neg hpart, Option.some.injEq] at h <;>
        exact h ▸ rfl
  · refine iff_of_true ?_ fun hfrag => absurd hfrag.1 hoff
    simp only [ipintr, if_neg hoff, Option.some.injEq] at h
    exact h ▸ rfl

theorem some_mem_ipRun {events : List IpEvent} : some d ∈ (ipRun ipq events).2 ↔
    ∃ before m mget after, events = before ++ .arrive m mget :: after
      ∧ (ipintr (ipRun ipq before).1 m mget).2 = some d := by
  induction events generalizing ipq with
  | nil => simp [ipRun]
  | cons e events ih =>
    simp only [ipRun, List.mem_cons, ih]
    constructor
    · rintro (hd | ⟨before, m, mget, after, rfl, hd⟩)
      · cases e with
        | arrive m mget => exact ⟨[], m, mget, events, rfl, hd.symm⟩
        | slowtimo => exact absurd hd (by simp [ipStep])
      · exact ⟨e :: before, m, mget, after, rfl, hd⟩
    · rintro ⟨before, m, mget, after, hevents, hd⟩
      cases before with
      | nil =>
        obtain ⟨rfl, -⟩ := List.cons.inj hevents
        exact .inl hd.symm
      | cons e' before =>
        obtain ⟨rfl, hrest⟩ := List.cons.inj hevents
        exact .inr ⟨before, m, mget, after, hrest, hd⟩

/-- **The header length of what is delivered.** In a run from empty queues the protocols are always told
the length of the header they get if and only if every packet that completes a datagram has a header as
long as the datagram's first fragment. -/
theorem ipRun_hlen_iff (events : List IpEvent) :
    (∀ d, some d ∈ (ipRun [] events).2 → d.hlen = d.ip.hlen) ↔
      ∀ before m mget after, events = before ++ .arrive m mget :: after →
        (ipintr (ipRun [] before).1 m mget).2 ≠ none → SameHlen (ipRun [] before).1 m := by
  constructor
  · intro hall before m mget after hevents hsome
    obtain ⟨d, hd⟩ := Option.ne_none_iff_exists'.mp hsome
    exact (ipintr_hlen_iff hd).mp (hall d (some_mem_ipRun.mpr ⟨before, m, mget, after, hevents, hd⟩))
  · intro hall d hmem
    obtain ⟨before, m, mget, after, hevents, hd⟩ := some_mem_ipRun.mp hmem
    refine (ipintr_hlen_iff hd).mpr (hall before m mget after hevents ?_)
    rw [hd]
    simp

def routedDatagram : Packet :=
  ⟨⟨7, 0, 44, 9, 0, 64, 17, 0x0a000001, 0x0a000002⟩, [7, 7, 8, 10, 0, 0, 3, 0],
    [1, 2, 3, 4, 5, 6, 7, 8, 9, 10, 11, 12, 13, 14, 15, 16]⟩

/-- An MTU of 36 makes two fragments of it, and the second one arrives last. -/
theorem routedDatagram_hlen :
    ∃ first second d, ipOutput routedDatagram 36 (fun _ => true) = .ok [first, second]
      ∧ some d ∈ (ipRun [] [.arrive first true, .arrive second true]).2
      ∧ d.hlen = 20 ∧ d.ip.hlen = 28 := by
  refine ⟨firstFragment routedDatagram 8, fragmentAt routedDatagram [] 8 36, ?_⟩
  refine ⟨⟨⟨7, 0, 16, 9, 0, 64, 17, 0x0a000001, 0x0a000002⟩, routedDatagram.opts, routedDatagram.data, 20⟩,
    ?_, ?_, rfl, rfl⟩
  · decide
  · decide

end NetBSD.Ip
