import NetBSD.Sysv.Order
import NetBSD.Mbuf.Chain

/-!
# The bytes of a message

What `msgsnd` copies into the segments and `msgrcv` copies out of them, beside the states of the calls. A place in
`msgpool` is a number, and so is a place in the buffer of a user, from `mtext` on. A copy that faults is taken to copy
nothing.
-/

namespace NetBSD.Sysv

open Function (update)
open Lib (Linked Runs)

/-- A call of `msgrcv` that has returned a message of `size` bytes, given a buffer of `msgsz` bytes. -/
structure Receipt where
  size : Word32
  content : Nat → BitVec 8
  msgsz : Nat
  out : Nat → Option (BitVec 8)
  retval : Nat

/-- `msgpool`; and for each header what `msgsnd` was given, as far as it was copied, how far `user_msgp` has come in
the call that has the header, and what `msgrcv` was given and has written. -/
structure Copied where
  m : Messages
  pool : Nat → BitVec 8
  size : Nat → Word32
  content : Nat → Nat → BitVec 8
  userMsgp : Nat → Nat
  msgsz : Nat → Nat
  out : Nat → Nat → Option (BitVec 8)
  receipts : List Receipt

def write {β : Type} (f : Nat → β) (p n : Nat) (g : Nat → β) : Nat → β := fun a =>
  if p ≤ a ∧ a < p + n then g (a - p) else f a

def Copied.copy (c : Msginfo) (usr : Nat → BitVec 8) (s : Copied) : Task → Copied
  | .sndType _ args h =>
    { s with size := update s.size h args.msgsz, userMsgp := update s.userMsgp h 0 }
  | .sndBody _ msgsz k h =>
    let tlen := min msgsz c.msgssz
    let user := fun o => usr (s.userMsgp h + o)
    { s with
      pool := write s.pool (k * c.msgssz) tlen user
      content := update s.content h (write (s.content h) (s.userMsgp h) tlen user)
      userMsgp := update s.userMsgp h (s.userMsgp h + tlen) }
  | .rcvType _ _ h => { s with userMsgp := update s.userMsgp h 0, out := update s.out h fun _ => none }
  | .rcvBody _ msgsz _ k h =>
    let tlen := min msgsz c.msgssz
    { s with
      out := update s.out h (write (s.out h) (s.userMsgp h) tlen fun o => some (s.pool (k * c.msgssz + o)))
      userMsgp := update s.userMsgp h (s.userMsgp h + tlen) }
  | _ => s

def Copied.taken (s : Copied) (args : RcvArgs) (r : Reply) (m : Messages) : Copied :=
  match r, m.tasks.getLast? with
  | .waits, some (.rcvType _ _ h) => { s with m, msgsz := update s.msgsz h args.msgsz }
  | _, _ => { s with m }

def Copied.wentOn (s : Copied) (t : Task) (r : Reply) (m : Messages) : Copied :=
  match t with
  | .rcvWaits _ args => s.taken args r m
  | .rcvType _ msgsz h | .rcvBody _ msgsz _ _ h =>
    if r = .done then
      { s with m, receipts := s.receipts ++ [⟨s.size h, s.content h, s.msgsz h, s.out h, msgsz⟩] }
    else { s with m }
  | _ => { s with m }

def Copied.step (c : Msginfo) (s : Copied) (e : MsgCall × (Nat → BitVec 8)) : Option Copied :=
  match e.1 with
  | .resume i failed msgType =>
    match s.m.tasks[i]? with
    | none => some s
    | some t =>
      (s.m.step c (.resume i failed msgType)).map fun (r, m) =>
        (if failed then s else s.copy c e.2 t).wentOn t r m
  | .msgrcv msqid args ipcperm =>
    (s.m.step c (.msgrcv msqid args ipcperm)).map fun (r, m) => s.taken args r m
  | call => (s.m.step c call).map fun (_, m) => { s with m }

def Copied.Reached (c : Msginfo) : Copied → Prop :=
  Runs (fun s => s.m = msginit c ∧ s.receipts = []) (Copied.step c) fun _ _ => True

structure Receipt.Right (r : Receipt) : Prop where
  retval : r.retval = min r.msgsz r.size.toNat
  out : ∀ i, r.out i = if i < min r.msgsz r.size.toNat then some (r.content i) else none

def Receipt.Fits (c : Msginfo) (r : Receipt) : Prop :=
  min r.msgsz r.size.toNat ≤ c.msgssz ∨ c.msgssz ∣ min r.msgsz r.size.toNat

instance (c : Msginfo) (r : Receipt) : Decidable (r.Fits c) := inferInstanceAs (Decidable (_ ∨ _))

def Selects (c : Msginfo) (m : Messages) (ix : Nat) (args : RcvArgs) (h : Nat) : Prop :=
  (m.queue c ix).find? (fun a => decide (args.msgtyp = 0) || args.takes (m.msghdrs a)) = some h

def Task.receives : Task → Option Nat
  | .rcvType _ _ h | .rcvBody _ _ _ _ h => some h
  | _ => none

def Copied.finish (c : Msginfo) : Nat → Nat → Copied → Option Copied
  | 0, _, _ => none
  | fuel + 1, i, s =>
    (s.step c (.resume i false 0, fun _ => 0)).bind fun s' =>
      if s'.receipts.length = s.receipts.length then s'.finish c fuel (s'.m.tasks.length - 1) else some s'

variable {c : Msginfo} {s s' : Copied} {m' : Messages} {ts ts' : List Task} {t : Task} {L L' : Layout}
  {h a ix k n : Nat} {r : Reply} {usr : Nat → BitVec 8}

def Filled (c : Msginfo) (s : Copied) (L : Layout) (h n : Nat) : Prop :=
  ∀ j k o, (L.segs h)[j]? = some k → o < c.msgssz → j * c.msgssz + o < n →
    s.pool (k * c.msgssz + o) = s.content h (j * c.msgssz + o)

structure Body (c : Msginfo) (s : Copied) (L : Layout) (h : Nat) : Prop where
  ts : (s.m.msghdrs h).msgTs = (s.size h).toNat % 2 ^ 16
  needs : c.Needs (L.segs h).length (s.size h).toNat
  filled : Filled c s L h (s.size h).toNat

def Task.Carries (c : Msginfo) (s : Copied) (L : Layout) : Task → Prop
  | .sndType _ args h => (s.m.msghdrs h).msgTs = args.msgsz.toNat % 2 ^ 16
  | .sndBody _ msgsz k h => (s.m.msghdrs h).msgTs = (s.size h).toNat % 2 ^ 16 ∧ 0 < msgsz ∧
      s.userMsgp h + msgsz = (s.size h).toNat ∧ Filled c s L h (s.userMsgp h) ∧
      ∃ j, (L.segs h)[j]? = some k ∧ s.userMsgp h = j * c.msgssz
  | .rcvType _ msgsz h => Body c s L h ∧ msgsz = min (s.msgsz h) (s.m.msghdrs h).msgTs
  | .rcvBody _ msgsz len k h => Body c s L h ∧ msgsz = min (s.msgsz h) (s.m.msghdrs h).msgTs ∧
      len < msgsz ∧ s.userMsgp h = len ∧ (∀ i, s.out h i = if i < len then some (s.content h i) else none) ∧
      ∃ j, (L.segs h)[j]? = some k ∧ len = j * c.msgssz
  | _ => True

structure Carried (c : Msginfo) (s : Copied) (ts : List Task) (L : Layout) : Prop where
  tasks : ∀ t ∈ ts, t.Carries c s L
  queued : ∀ ix < c.msgmni, ∀ h ∈ L.queue ix, Body c s L h
  receipts : ∀ r ∈ s.receipts, r.size.toNat < 2 ^ 16 ∧ (r.Right ↔ r.Fits c)

structure Same (c : Msginfo) (s s' : Copied) (L L' : Layout) (a : Nat) : Prop where
  ts : (s'.m.msghdrs a).msgTs = (s.m.msghdrs a).msgTs
  segs : L'.segs a = L.segs a
  pool : ∀ k ∈ L.segs a, ∀ o < c.msgssz, s'.pool (k * c.msgssz + o) = s.pool (k * c.msgssz + o)
  size : s'.size a = s.size a
  content : s'.content a = s.content a
  userMsgp : s'.userMsgp a = s.userMsgp a
  msgsz : s'.msgsz a = s.msgsz a
  out : s'.out a = s.out a

theorem Filled.same (hf : Filled c s L a n) (hs : Same c s s' L L' a) : Filled c s' L' a n := by
  intro j k o hj ho hn
  rw [hs.segs] at hj
  rw [hs.pool k (List.mem_of_getElem? hj) o ho, hs.content]
  exact hf j k o hj ho hn

theorem Body.same (hb : Body c s L a) (hs : Same c s s' L L' a) : Body c s' L' a where
  ts := by rw [hs.ts, hs.size, hb.ts]
  needs := by rw [hs.segs, hs.size]; exact hb.needs
  filled := by rw [hs.size]; exact hb.filled.same hs

theorem Task.Carries.same (hc : t.Carries c s L) (hs : ∀ a, t.holds = some a → Same c s s' L L' a) :
    t.Carries c s' L' := by
  cases t with
  | sndWaits ix args weOwnIt => trivial
  | rcvWaits ix args => trivial
  | sndType ix args h => exact ((hs h rfl).ts).trans hc
  | sndBody ix msgsz k h =>
    have hsame := hs h rfl
    obtain ⟨hts, hpos, hleft, hfilled, j, hj, hat⟩ := hc
    refine ⟨by rw [hsame.ts, hsame.size, hts], hpos, by rw [hsame.userMsgp, hsame.size, hleft], ?_, j, ?_, ?_⟩
    · rw [hsame.userMsgp]
      exact hfilled.same hsame
    · rw [hsame.segs, hj]
    · rw [hsame.userMsgp, hat]
  | rcvType ix msgsz h =>
    have hsame := hs h rfl
    obtain ⟨hbody, hmsgsz⟩ := hc
    exact ⟨hbody.same hsame, by rw [hsame.msgsz, hsame.ts, hmsgsz]⟩
  | rcvBody ix msgsz len k h =>
    have hsame := hs h rfl
    obtain ⟨hbody, hmsgsz, hlt, huser, hout, j, hj, hlen⟩ := hc
    refine ⟨hbody.same hsame, by rw [hsame.msgsz, hsame.ts, ← hmsgsz], hlt, hsame.userMsgp.trans huser, ?_, j, ?_, hlen⟩
    · rw [hsame.out, hsame.content]
      exact hout
    · rw [hsame.segs, hj]

theorem Carried.same (hc : Carried c s ts L) (htasks : ∀ t ∈ ts', t ∈ ts)
    (hqueue : ∀ ix < c.msgmni, ∀ a ∈ L'.queue ix, a ∈ L.queue ix) (hreceipts : s'.receipts = s.receipts)
    (hheld : ∀ t ∈ ts', ∀ a, t.holds = some a → Same c s s' L L' a)
    (hqueued : ∀ ix < c.msgmni, ∀ a ∈ L'.queue ix, Same c s s' L L' a) : Carried c s' ts' L' where
  tasks t ht := (hc.tasks t (htasks t ht)).same (hheld t ht)
  queued ix hix a ha := (hc.queued ix hix a (hqueue ix hix a ha)).same (hqueued ix hix a ha)
  receipts := by
    rw [hreceipts]
    exact hc.receipts

theorem Carried.append (hc : Carried c s ts L) {new : List Task} (hnew : ∀ t ∈ new, t.Carries c s L) :
    Carried c s (ts ++ new) L where
  tasks t ht := (List.mem_append.mp ht).elim (hc.tasks t) (hnew t)
  queued := hc.queued
  receipts := hc.receipts

theorem Task.Carries.of_holds_none (ht : t.holds = none) : t.Carries c s L := by
  cases t <;> trivial

theorem same_of_hdr (hts : (m'.msghdrs a).msgTs = (s.m.msghdrs a).msgTs) (hsegs : L'.segs a = L.segs a) :
    Same c s { s with m := m' } L L' a := ⟨hts, hsegs, fun _ _ _ _ => rfl, rfl, rfl, rfl, rfl, rfl⟩

theorem Carried.sleep (hc : Carried c s s.m.tasks L) (hnew : t.Carries c { s with m := s.m.sleep t } L) :
    Carried c { s with m := s.m.sleep t } (s.m.sleep t).tasks L := by
  have hsame : ∀ a, Same c s { s with m := s.m.sleep t } L L a := fun a => same_of_hdr rfl rfl
  have hold : Carried c { s with m := s.m.sleep t } s.m.tasks L :=
    hc.same (fun _ ht => ht) (fun _ _ _ ha => ha) rfl (fun _ _ a _ => hsame a) fun _ _ a _ => hsame a
  refine hold.append fun t' ht' => ?_
  obtain rfl := List.mem_singleton.mp ht'
  exact hnew

theorem Waited.carried {new : List Task} (hw : Waited c s.m L new m') (hc : Carried c s s.m.tasks L) :
    Carried c { s with m := m' } m'.tasks L := by
  have hsame : ∀ a, Same c s { s with m := m' } L L a := fun a => same_of_hdr (by rw [hw.hdrs]) rfl
  rw [hw.tasks]
  refine Carried.append ?_ fun t ht => .of_holds_none (hw.holds t ht)
  exact hc.same (fun _ ht => ht) (fun _ _ _ ha => ha) rfl (fun _ _ a _ => hsame a) fun _ _ a _ => hsame a

theorem Gone.carried (hg : Gone c s.m L h m') (hi : Inv c s.m (t :: s.m.tasks) L) (ht : t.holds = some h)
    (hc : Carried c s s.m.tasks L) : ∃ L', Inv c m' m'.tasks L' ∧ Carried c { s with m := m' } m'.tasks L' := by
  obtain ⟨free, freeSegs, hi'⟩ := hg.inv
  refine ⟨_, hi', ?_⟩
  rw [hg.tasks]
  refine hc.same (fun _ ht => ht) (fun _ _ _ ha => ha) rfl (fun t' ht' a ha => ?_) fun j hj a ha => ?_
  · exact same_of_hdr (by rw [hg.others a (hi.held_ne ht ht' ha)]) rfl
  · exact same_of_hdr (by rw [hg.others a (hi.queued_ne ht hj ha)]) rfl

theorem Alloc.carried {args : SndArgs} (ha : Alloc c s.m L ix args h L' m') (hi : Inv c s.m ts L)
    (hts : ∀ t ∈ s.m.tasks, t ∈ ts) (hc : Carried c s s.m.tasks L) : Carried c { s with m := m' } m'.tasks L' := by
  obtain ⟨hqueue, hheld⟩ := hi.free_ne ha.free
  rw [ha.tasks]
  refine Carried.append ?_ fun t ht => ?_
  · refine hc.same (fun _ ht => ht) (fun j _ a haq => by rwa [ha.queue] at haq) rfl (fun t ht a hta => ?_)
      fun j hj a haq => ?_
    · have hne := hheld t (hts t ht) a hta
      exact same_of_hdr (by rw [ha.others a hne]) (ha.segs a hne)
    · rw [ha.queue] at haq
      have hne := hqueue j hj a haq
      exact same_of_hdr (by rw [ha.others a hne]) (ha.segs a hne)
  · obtain rfl := List.mem_singleton.mp ht
    exact ha.ts

theorem Sent.carried (hsent : Sent c s.m L ix h m') (hbody : Body c s L h) (hc : Carried c s s.m.tasks L) :
    Carried c { s with m := m' } m'.tasks { L with queue := update L.queue ix (L.queue ix ++ [h]) } := by
  have hsame : ∀ a, Same c s { s with m := m' } L { L with queue := update L.queue ix (L.queue ix ++ [h]) } a :=
    fun a => same_of_hdr (hsent.ts a) rfl
  rw [hsent.tasks]
  refine ⟨fun t ht => (hc.tasks t ht).same fun a _ => hsame a, fun j hj a ha => ?_, hc.receipts⟩
  refine Body.same ?_ (hsame a)
  dsimp only at ha
  by_cases hji : j = ix
  · subst hji
    rw [Function.update_self] at ha
    rcases List.mem_append.mp ha with ha | ha
    · exact hc.queued j hj a ha
    · obtain rfl := List.mem_singleton.mp ha
      exact hbody
  · rw [Function.update_of_ne hji] at ha
    exact hc.queued j hj a ha

theorem Taken.carried {args : RcvArgs} {p q : List Nat} (htaken : Taken c s.m L ix args p h q m')
    (hi : Inv c s.m s.m.tasks L) (hix : ix < c.msgmni) (hc : Carried c s s.m.tasks L) :
    Carried c { s with m := m', msgsz := update s.msgsz h args.msgsz } m'.tasks
      { L with queue := update L.queue ix (p ++ q) } := by
  have hmem : h ∈ L.queue ix := by simp [htaken.queue]
  have hnodup : (p ++ h :: q).Nodup := by
    rw [← htaken.queue]
    refine (hi.queued ix hix fun hzero => ?_).linked.nodup
    rw [hi.removed ix hix hzero] at hmem
    cases hmem
  have hsame : ∀ a, a ≠ h → Same c s { s with m := m', msgsz := update s.msgsz h args.msgsz } L
      { L with queue := update L.queue ix (p ++ q) } a := fun a ha =>
    ⟨htaken.ts a, rfl, fun _ _ _ _ => rfl, rfl, rfl, rfl, Function.update_of_ne ha _ _, rfl⟩
  have hold : ∀ j < c.msgmni, ∀ a ∈ update L.queue ix (p ++ q) j, a ∈ L.queue j ∧ a ≠ h := by
    intro j hj a ha
    by_cases hji : j = ix
    · subst hji
      rw [Function.update_self] at ha
      rw [htaken.queue]
      have hperm : (p ++ h :: q).Perm (h :: (p ++ q)) := List.perm_middle
      refine ⟨hperm.mem_iff.mpr (List.mem_cons_of_mem h ha), fun hah => ?_⟩
      exact (List.nodup_cons.mp (hperm.nodup_iff.mp hnodup)).1 (hah ▸ ha)
    · rw [Function.update_of_ne hji] at ha
      exact ⟨ha, fun hah => hi.queue_disjoint hix hj hji hmem (hah ▸ ha)⟩
  rw [htaken.tasks]
  refine Carried.append ?_ fun t ht => ?_
  · refine hc.same (fun _ ht => ht) (fun j hj a ha => (hold j hj a ha).1) rfl (fun t ht a hta => hsame a fun hah => ?_)
      fun j hj a ha => hsame a (hold j hj a ha).2
    exact hi.held_not_queued hix (hi.held ht hta) (hah ▸ hmem)
  · obtain rfl := List.mem_singleton.mp ht
    have hbody := hc.queued ix hix h hmem
    refine ⟨⟨(htaken.ts h).trans hbody.ts, hbody.needs, hbody.filled⟩, ?_⟩
    dsimp only
    rw [Function.update_self, htaken.ts]

theorem Cleared.carried (hcl : Cleared c s.m L ix m') (hi : Inv c s.m s.m.tasks L) (hix : ix < c.msgmni)
    (hc : Carried c s s.m.tasks L) : ∃ L', Inv c m' m'.tasks L' ∧ Carried c { s with m := m' } m'.tasks L' := by
  obtain ⟨free, freeSegs, hi'⟩ := hcl.inv
  have hold : ∀ j < c.msgmni, ∀ a ∈ update L.queue ix [] j, a ∈ L.queue j ∧ a ∉ L.queue ix := by
    intro j hj a ha
    by_cases hji : j = ix
    · subst hji
      simp at ha
    · rw [Function.update_of_ne hji] at ha
      exact ⟨ha, fun hin => hi.queue_disjoint hix hj hji hin ha⟩
  refine ⟨_, hi', ?_⟩
  rw [hcl.tasks]
  refine hc.same (fun _ ht => ht) (fun j hj a ha => (hold j hj a ha).1) rfl (fun t ht a hta => ?_) fun j hj a ha => ?_
  · exact same_of_hdr (by rw [hcl.others a (hi.held_not_queued hix (hi.held ht hta))]) rfl
  · exact same_of_hdr (by rw [hcl.others a (hold j hj a ha).2]) rfl

theorem taken_of_ne {args : RcvArgs} (hr : r ≠ .waits) : s.taken args r m' = { s with m := m' } := by
  cases r with
  | waits => exact absurd rfl hr
  | done => rfl
  | error e => rfl

theorem Received.carried {args : RcvArgs} (hr : Received c s.m L ix args r m') (hi : Inv c s.m s.m.tasks L)
    (hix : ix < c.msgmni) (hc : Carried c s s.m.tasks L) :
    ∃ L', Inv c m' m'.tasks L' ∧ Carried c (s.taken args r m') m'.tasks L' := by
  cases hr with
  | nothing new _ hfinds hw =>
    refine ⟨L, hw.inv, ?_⟩
    have htaken : s.taken args r m' = { s with m := m' } := by
      unfold rcvFindsNone at hfinds
      split at hfinds
      · obtain ⟨rfl, rfl⟩ := Prod.mk.inj hfinds
        rfl
      · obtain ⟨rfl, rfl⟩ := Prod.mk.inj hfinds
        simp [Copied.taken, Messages.sleep]
    rw [htaken]
    exact hw.carried hc
  | tooBig p q h _ _ _ _ hr hm' =>
    subst hr hm'
    exact ⟨L, hi, hc⟩
  | takes p q h hr htaken =>
    refine ⟨_, htaken.inv, ?_⟩
    have hlast : s.taken args r m' = { s with m := m', msgsz := update s.msgsz h args.msgsz } := by
      simp only [Copied.taken, hr, htaken.tasks, List.getLast?_concat]
    rw [hlast]
    exact htaken.carried hi hix hc

theorem Inv.segs_disjoint (hi : Inv c s.m ts L) {b : Nat}
    (ha : a ∈ (List.range c.msgmni).flatMap L.queue ++ ts.filterMap Task.holds)
    (hb : b ∈ (List.range c.msgmni).flatMap L.queue ++ ts.filterMap Task.holds) (hne : a ≠ b)
    (hka : k ∈ L.segs a) : k ∉ L.segs b := by
  have hnodup := (List.nodup_append.mp hi.stored.segs_nodup).2.1
  have hpair := (List.nodup_flatMap.mp hnodup).2
  have : Std.Symm (Function.onFun List.Disjoint L.segs) := ⟨fun _ _ hd => List.Disjoint.symm hd⟩
  exact fun hkb => hpair.forall ha hb hne hka hkb

theorem write_apart {f g : Nat → BitVec 8} {o ssz : Nat} (hne : a ≠ k) (ho : o < ssz) (hn : n ≤ ssz) :
    write f (k * ssz) n g (a * ssz + o) = f (a * ssz + o) := by
  refine if_neg fun hc => ?_
  rcases Nat.lt_or_gt_of_ne hne with hlt | hlt
  · have hle := Nat.mul_le_mul_right ssz (Nat.succ_le_of_lt hlt)
    rw [Nat.succ_mul] at hle
    omega
  · have hle := Nat.mul_le_mul_right ssz (Nat.succ_le_of_lt hlt)
    rw [Nat.succ_mul] at hle
    omega

theorem copy_same (hi : Inv c s.m (t :: ts) L) (ht : t.holds = some h) (hc : t.Carries c s L) (hne : a ≠ h)
    (ha : a ∈ (List.range c.msgmni).flatMap L.queue ++ (t :: ts).filterMap Task.holds) :
    Same c s (s.copy c usr t) L L a := by
  cases t with
  | sndWaits ix args weOwnIt => cases ht
  | rcvWaits ix args => cases ht
  | sndType ix args g =>
    obtain rfl := Option.some.inj ht
    exact ⟨rfl, rfl, fun _ _ _ _ => rfl, Function.update_of_ne hne _ _, rfl, Function.update_of_ne hne _ _, rfl, rfl⟩
  | sndBody ix msgsz k g =>
    obtain rfl := Option.some.inj ht
    obtain ⟨-, -, -, -, j, hj, -⟩ := hc
    refine ⟨rfl, rfl, fun k' hk' o ho => ?_, rfl, Function.update_of_ne hne _ _, Function.update_of_ne hne _ _, rfl, rfl⟩
    have hapart : k' ≠ k := fun hkk =>
      hi.segs_disjoint ha (List.mem_append_right _ (hi.held List.mem_cons_self rfl)) hne hk'
        (hkk ▸ List.mem_of_getElem? hj)
    simp only [Copied.copy]
    exact write_apart hapart ho (Nat.min_le_right msgsz c.msgssz)
  | rcvType ix msgsz g =>
    obtain rfl := Option.some.inj ht
    exact ⟨rfl, rfl, fun _ _ _ _ => rfl, rfl, rfl, Function.update_of_ne hne _ _, rfl, Function.update_of_ne hne _ _⟩
  | rcvBody ix msgsz len k g =>
    obtain rfl := Option.some.inj ht
    exact ⟨rfl, rfl, fun _ _ _ _ => rfl, rfl, rfl, Function.update_of_ne hne _ _, rfl, Function.update_of_ne hne _ _⟩

theorem copy_m : (s.copy c usr t).m = s.m := by cases t <;> rfl

theorem copy_receipts : (s.copy c usr t).receipts = s.receipts := by cases t <;> rfl

theorem Carried.copied (hc : Carried c s (t :: ts) L) (hi : Inv c s.m (t :: ts) L) (usr : Nat → BitVec 8) :
    Carried c (s.copy c usr t) ts L := by
  cases hh : t.holds with
  | none =>
    have hnothing : s.copy c usr t = s := by cases t <;> first | rfl | cases hh
    rw [hnothing]
    exact ⟨fun t' ht' => hc.tasks t' (List.mem_cons_of_mem t ht'), hc.queued, hc.receipts⟩
  | some h =>
    refine hc.same (fun t' ht' => List.mem_cons_of_mem t ht') (fun _ _ _ ha => ha) copy_receipts
      (fun t' ht' a ha => ?_) fun j hj a ha => ?_
    · exact copy_same hi hh (hc.tasks t List.mem_cons_self) (hi.held_ne hh ht' ha)
        (List.mem_append_right _ (hi.held (List.mem_cons_of_mem t ht') ha))
    · exact copy_same hi hh (hc.tasks t List.mem_cons_self) (hi.queued_ne hh hj ha)
        (List.mem_append_left _ (hi.mem_queues hj ha))

theorem linked_next {f : Nat → Option Nat} {p : Option Nat} {l : List Nat} {j : Nat} (hl : Linked f p l none)
    (hj : l[j]? = some k) : f k = l[j + 1]? := by
  induction l generalizing p j with
  | nil => cases hj
  | cons a l ih =>
    obtain ⟨-, hrest⟩ := hl
    cases j with
    | zero =>
      obtain rfl := Option.some.inj hj
      rw [hrest.eq_head?, List.head?_eq_getElem?]
      rfl
    | succ j => exact ih hrest hj

theorem Inv.chain (hi : Inv c s.m (t :: ts) L) (ht : t.holds = some h) :
    Linked s.m.msgmaps (s.m.msghdrs h).msgSpot (L.segs h) none :=
  hi.stored.chained h (List.mem_append_right _ (hi.held List.mem_cons_self ht))

theorem Filled.copied {msgsz j : Nat} (hi : Inv c s.m (.sndBody ix msgsz k h :: ts) L)
    (hf : Filled c s L h (s.userMsgp h)) (hj : (L.segs h)[j]? = some k) (hat : s.userMsgp h = j * c.msgssz)
    (usr : Nat → BitVec 8) : Filled c (s.copy c usr (.sndBody ix msgsz k h)) L h (s.userMsgp h + min msgsz c.msgssz) := by
  have hnodup : (L.segs h).Nodup := (hi.chain rfl).nodup
  intro j' k' o hj' ho hlt
  simp only [Copied.copy, Function.update_self]
  by_cases hjj : j' = j
  · subst hjj
    obtain rfl : k' = k := Option.some.inj (hj'.symm.trans hj)
    rw [write, write, if_pos (by omega), if_pos (by omega), ← hat]
    congr 2
    omega
  · have hlt' : j' < j := by
      by_contra hge
      have hle := Nat.mul_le_mul_right c.msgssz (show j + 1 ≤ j' by omega)
      rw [Nat.succ_mul] at hle
      omega
    have hle := Nat.mul_le_mul_right c.msgssz (show j' + 1 ≤ j by omega)
    rw [Nat.succ_mul] at hle
    have hne : k' ≠ k := fun hkk => hjj ((List.getElem?_inj (List.getElem?_eq_some_iff.mp hj').1 hnodup).mp
      (hj'.trans (hkk ▸ hj.symm)))
    rw [write_apart hne ho (Nat.min_le_right _ _), write, if_neg (by omega)]
    exact hf j' k' o hj' ho (by omega)

theorem out_copied {msgsz len j : Nat} (hb : Body c s L h) (hmsgsz : msgsz = min (s.msgsz h) (s.m.msghdrs h).msgTs)
    (huser : s.userMsgp h = len) (hout : ∀ i, s.out h i = if i < len then some (s.content h i) else none)
    (hj : (L.segs h)[j]? = some k) (hlen : len = j * c.msgssz) (ix : Nat) (usr : Nat → BitVec 8) (i : Nat) :
    (i < msgsz → (s.copy c usr (.rcvBody ix msgsz len k h)).out h i =
      if i < len + min msgsz c.msgssz then some (s.content h i) else none) ∧
    ((s.copy c usr (.rcvBody ix msgsz len k h)).out h i ≠ none ↔ i < len + min msgsz c.msgssz) := by
  have hts := hb.ts
  have hmod : (s.size h).toNat % 2 ^ 16 ≤ (s.size h).toNat := Nat.mod_le _ _
  simp only [Copied.copy, Function.update_self, write, huser]
  refine ⟨fun hi => ?_, ?_⟩
  · by_cases hin : len ≤ i ∧ i < len + min msgsz c.msgssz
    · rw [if_pos hin, if_pos hin.2, hb.filled j k (i - len) hj (by omega) (by omega)]
      congr 2
      omega
    · rw [if_neg hin, hout]
      by_cases hlt : i < len
      · rw [if_pos hlt, if_pos (by omega)]
      · rw [if_neg hlt, if_neg (by omega)]
  · by_cases hin : len ≤ i ∧ i < len + min msgsz c.msgssz
    · simp [hin]
    · rw [if_neg hin, hout]
      by_cases hlt : i < len
      · simp only [if_pos hlt, ne_eq, reduceCtorEq, not_false_eq_true, true_iff]
        omega
      · simp only [if_neg hlt, ne_eq, not_true_eq_false, false_iff]
        omega

theorem fits_iff {q : Receipt} (hretval : q.retval = min q.msgsz q.size.toNat) :
    q.Fits c ↔ q.retval ≤ c.msgssz ∨ c.msgssz ∣ q.retval := by
  rw [Receipt.Fits, ← hretval]

theorem receipt_right {q : Receipt} {total : Nat} (hretval : q.retval = min q.msgsz q.size.toNat)
    (hbytes : ∀ i < q.retval, q.out i = if i < total then some (q.content i) else none)
    (hextent : ∀ i, q.out i ≠ none ↔ i < total) (hle : q.retval ≤ total) : q.Right ↔ q.retval = total := by
  constructor
  · intro hright
    by_contra hne
    have hmore := (hextent q.retval).mpr (by omega)
    rw [hright.out, ← hretval, if_neg (Nat.lt_irrefl _)] at hmore
    exact hmore rfl
  · intro htotal
    refine ⟨hretval, fun i => ?_⟩
    rw [← hretval]
    by_cases hi : i < q.retval
    · rw [if_pos hi, hbytes i hi, if_pos (by omega)]
    · rw [if_neg hi]
      by_contra hne
      exact hi (htotal ▸ (hextent i).mp hne)

theorem resume_sndType_carried {args : SndArgs} {failed : Bool} {msgType : Int}
    (hi : Inv c s.m (.sndType ix args h :: s.m.tasks) L) (hc : Carried c s (.sndType ix args h :: s.m.tasks) L)
    (hresume : (Task.sndType ix args h).resume c failed msgType s.m = some (r, m')) :
    ∃ L', Inv c m' m'.tasks L' ∧
      Carried c { (if failed then s else s.copy c usr (.sndType ix args h)) with m := m' } m'.tasks L' := by
  have hcarries : (s.m.msghdrs h).msgTs = args.msgsz.toNat % 2 ^ 16 := hc.tasks _ List.mem_cons_self
  have hcopied := hc.copied hi usr
  have hkept : Carried c s s.m.tasks L :=
    ⟨fun t ht => hc.tasks t (List.mem_cons_of_mem _ ht), hc.queued, hc.receipts⟩
  have hgone : ∀ {b : Bool}, Gone c s.m L h m' → ∃ L', Inv c m' m'.tasks L' ∧
      Carried c { (if b then s else s.copy c usr (.sndType ix args h)) with m := m' } m'.tasks L' := by
    intro b hg
    cases b with
    | true => exact hg.carried hi rfl hkept
    | false => exact Gone.carried (s := s.copy c usr (.sndType ix args h)) hg hi rfl hcopied
  obtain hg | ⟨⟨rfl, -⟩, m₁, rfl, hgo⟩ := resume_sndType hi hresume
  · exact hgone hg
  · -- the type is part of no byte
    have hsame : ∀ a, Same c (s.copy c usr (.sndType ix args h))
        { s.copy c usr (.sndType ix args h) with m := s.m.setHdr h { s.m.msghdrs h with msgType } } L L a := by
      refine fun a => same_of_hdr ?_ rfl
      by_cases ha : a = h
      · subst ha
        simp [Messages.setHdr, copy_m]
      · simp [Messages.setHdr, ha, copy_m]
    have hcarried : Carried c
        { s.copy c usr (.sndType ix args h) with m := s.m.setHdr h { s.m.msghdrs h with msgType } } s.m.tasks L :=
      hcopied.same (fun _ ht => ht) (fun _ _ _ ha => ha) rfl (fun _ _ a _ => hsame a) fun _ _ a _ => hsame a
    have hts : ((s.m.setHdr h { s.m.msghdrs h with msgType }).msghdrs h).msgTs = args.msgsz.toNat % 2 ^ 16 := by
      simp [Messages.setHdr, hcarries]
    obtain ⟨k, hpos, hk, rfl, hi'⟩ | ⟨hzero, hk, hg | hsent⟩ := hgo
    · refine ⟨L, hi', Carried.sleep (s := { s.copy c usr (.sndType ix args h) with
        m := s.m.setHdr h { s.m.msghdrs h with msgType } }) hcarried ?_⟩
      have hhead := (hi.chain rfl).eq_head?
      refine ⟨?_, hpos, ?_, ?_, 0, ?_, ?_⟩
      · simp only [Copied.copy, Function.update_self]
        exact hts
      · simp [Copied.copy]
      · intro j k o _ _ hlt
        simp [Copied.copy] at hlt
      · rw [← List.head?_eq_getElem?, ← hhead, hk]
      · simp [Copied.copy]
    · exact hgone hg
    · refine ⟨_, hsent.inv, Sent.carried (s := { s.copy c usr (.sndType ix args h) with
        m := s.m.setHdr h { s.m.msghdrs h with msgType } }) hsent ?_ hcarried⟩
      have hnil := (hi.chain rfl).eq_nil hk
      refine ⟨?_, ?_, fun j k o hj => ?_⟩
      · simp only [Copied.copy, Function.update_self]
        exact hts
      · simp only [Copied.copy, Function.update_self, hnil, List.length_nil]
        exact c.needs_zero (by omega)
      · rw [hnil] at hj
        cases hj

theorem resume_sndBody_carried {msgsz : Nat} {failed : Bool} {msgType : Int}
    (hi : Inv c s.m (.sndBody ix msgsz k h :: s.m.tasks) L) (hc : Carried c s (.sndBody ix msgsz k h :: s.m.tasks) L)
    (hresume : (Task.sndBody ix msgsz k h).resume c failed msgType s.m = some (r, m')) :
    ∃ L', Inv c m' m'.tasks L' ∧
      Carried c { (if failed then s else s.copy c usr (.sndBody ix msgsz k h)) with m := m' } m'.tasks L' := by
  obtain ⟨hts, hpos, hleft, hfilled, j, hj, hat⟩ := hc.tasks _ List.mem_cons_self
  have hcopied := hc.copied hi usr
  have hkept : Carried c s s.m.tasks L :=
    ⟨fun t ht => hc.tasks t (List.mem_cons_of_mem _ ht), hc.queued, hc.receipts⟩
  have hgone : ∀ {b : Bool}, Gone c s.m L h m' → ∃ L', Inv c m' m'.tasks L' ∧
      Carried c { (if b then s else s.copy c usr (.sndBody ix msgsz k h)) with m := m' } m'.tasks L' := by
    intro b hg
    cases b with
    | true => exact hg.carried hi rfl hkept
    | false => exact Gone.carried (s := s.copy c usr (.sndBody ix msgsz k h)) hg hi rfl hcopied
  have hfilled' := hfilled.copied hi hj hat usr
  have huser : (s.copy c usr (.sndBody ix msgsz k h)).userMsgp h = s.userMsgp h + min msgsz c.msgssz := by
    simp [Copied.copy]
  have hnext := linked_next (hi.chain rfl) hj
  obtain hg | ⟨rfl, ⟨k', hpos', hk', rfl, hi'⟩ | ⟨hzero, hnone, hsent⟩⟩ := resume_sndBody hi hresume
  · exact hgone hg
  · refine ⟨L, hi', Carried.sleep (s := s.copy c usr (.sndBody ix msgsz k h)) hcopied ?_⟩
    refine ⟨hts, hpos', ?_, ?_, j + 1, ?_, ?_⟩
    · dsimp only
      rw [huser]
      show _ = (s.size h).toNat
      omega
    · dsimp only
      rw [huser]
      exact hfilled'
    · rw [← hnext, hk']
    · dsimp only
      rw [huser, hat, Nat.succ_mul]
      omega
  · refine ⟨_, hsent.inv, Sent.carried (s := s.copy c usr (.sndBody ix msgsz k h)) hsent ⟨hts, ?_, ?_⟩ hcopied⟩
    · have hlength : (L.segs h).length = j + 1 := by
        have hlt := (List.getElem?_eq_some_iff.mp hj).1
        rw [hnext, List.getElem?_eq_none_iff] at hnone
        omega
      show c.Needs _ (s.size h).toNat
      rw [hlength, Msginfo.Needs, Nat.succ_mul]
      omega
    · have hall : (s.size h).toNat = s.userMsgp h + min msgsz c.msgssz := by omega
      show Filled c _ L h (s.size h).toNat
      rw [hall]
      exact hfilled'

theorem Carried.receipt (hc : Carried c s ts L) (q : Receipt) (hq : q.size.toNat < 2 ^ 16 ∧ (q.Right ↔ q.Fits c)) :
    Carried c { s with receipts := s.receipts ++ [q] } ts L := by
  have hsame : ∀ a, Same c s { s with receipts := s.receipts ++ [q] } L L a := fun _ =>
    ⟨rfl, rfl, fun _ _ _ _ => rfl, rfl, rfl, rfl, rfl, rfl⟩
  refine ⟨fun t ht => (hc.tasks t ht).same fun a _ => hsame a, fun j hj a ha => (hc.queued j hj a ha).same (hsame a),
    fun q' hq' => ?_⟩
  rcases List.mem_append.mp hq' with hq' | hq'
  · exact hc.receipts q' hq'
  · exact List.mem_singleton.mp hq' ▸ hq

theorem Msginfo.msgssz_le (c : Msginfo) : c.msgssz ≤ 1024 := by
  obtain ⟨k, -, hk, heq⟩ := c.msgssz_eq
  rw [heq]
  exact Nat.pow_le_pow_right (by decide) hk

theorem Body.short (hb : Body c s L h) (hneeds : c.Needs (L.segs h).length (s.m.msghdrs h).msgTs) :
    (s.size h).toNat < 2 ^ 16 := by
  have hts := hb.ts
  have hle := hb.needs.1
  have hlt := hneeds.2
  have hssz := c.msgssz_le
  omega

theorem Body.ts_eq (hb : Body c s L h) (hshort : (s.size h).toNat < 2 ^ 16) :
    (s.m.msghdrs h).msgTs = (s.size h).toNat := hb.ts.trans (Nat.mod_eq_of_lt hshort)

theorem resume_rcvType_carried {msgsz : Nat} {failed : Bool} {msgType : Int}
    (hi : Inv c s.m (.rcvType ix msgsz h :: s.m.tasks) L) (hc : Carried c s (.rcvType ix msgsz h :: s.m.tasks) L)
    (hresume : (Task.rcvType ix msgsz h).resume c failed msgType s.m = some (r, m')) :
    ∃ L', Inv c m' m'.tasks L' ∧ Carried c
      ((if failed then s else s.copy c usr (.rcvType ix msgsz h)).wentOn (.rcvType ix msgsz h) r m') m'.tasks L' := by
  obtain ⟨hbody, hmsgsz⟩ := hc.tasks _ List.mem_cons_self
  have hcopied := hc.copied hi usr
  obtain ⟨hr, hg⟩ | ⟨rfl, ⟨k, hpos, hk, rfl, rfl, hi'⟩ | ⟨hzero, rfl, hg⟩⟩ := resume_rcvType hi hresume
  · simp only [Copied.wentOn, if_neg hr]
    cases failed with
    | true =>
      exact hg.carried hi rfl ⟨fun t ht => hc.tasks t (List.mem_cons_of_mem _ ht), hc.queued, hc.receipts⟩
    | false => exact Gone.carried (s := s.copy c usr (.rcvType ix msgsz h)) hg hi rfl hcopied
  · refine ⟨L, hi', Carried.sleep (s := s.copy c usr (.rcvType ix msgsz h)) hcopied ?_⟩
    have hhead := (hi.chain rfl).eq_head?
    refine ⟨⟨hbody.ts, hbody.needs, hbody.filled⟩, hmsgsz, hpos, ?_, fun i => ?_, 0, ?_, (Nat.zero_mul _).symm⟩
    · simp [Copied.copy]
    · simp [Copied.copy]
    · rw [← List.head?_eq_getElem?, ← hhead, hk]
  · obtain rfl : msgsz = 0 := Nat.le_zero.mp hzero
    obtain ⟨L', hi', hc'⟩ := Gone.carried (s := s.copy c usr (.rcvType ix 0 h)) hg hi rfl hcopied
    have hshort := hbody.short hg.needs
    have hretval : 0 = min (s.msgsz h) (s.size h).toNat := by rw [← hbody.ts_eq hshort]; exact hmsgsz
    refine ⟨L', hi', hc'.receipt _ ⟨hshort, ?_⟩⟩
    rw [receipt_right hretval (fun i hi => absurd hi (Nat.not_lt_zero i)) (fun i => ?_) (Nat.le_refl 0), fits_iff hretval]
    · exact iff_of_true rfl (.inl (Nat.zero_le _))
    · simp [Copied.copy]

theorem ends_iff {ssz msgsz len j : Nat} (hlen : len = j * ssz) (hlt : len < msgsz) (hle : msgsz ≤ len + ssz) :
    msgsz = len + min msgsz ssz ↔ msgsz ≤ ssz ∨ ssz ∣ msgsz := by
  constructor
  · intro heq
    by_cases hone : msgsz ≤ ssz
    · exact .inl hone
    · refine .inr ⟨j + 1, ?_⟩
      rw [Nat.mul_succ, Nat.mul_comm ssz j]
      omega
  · rintro (hone | ⟨n, rfl⟩)
    · have hzero : j = 0 := by
        by_contra hne
        have hge := Nat.le_mul_of_pos_left ssz (Nat.pos_of_ne_zero hne)
        omega
      rw [hzero, Nat.zero_mul] at hlen
      omega
    · have hn : n = j + 1 := by
        have hlt' : j * ssz < n * ssz := by rw [Nat.mul_comm n]; omega
        have hle' : n * ssz ≤ (j + 1) * ssz := by rw [Nat.mul_comm n, Nat.succ_mul]; omega
        have hjn := Nat.lt_of_mul_lt_mul_right hlt'
        have hpos : 0 < ssz := Nat.pos_of_ne_zero fun h => by simp [h] at hlt'
        have hnj := Nat.le_of_mul_le_mul_right hle' hpos
        omega
      have hge := Nat.le_mul_of_pos_right ssz (show 0 < n by omega)
      rw [Nat.min_eq_right hge, hn, Nat.mul_succ, Nat.mul_comm ssz j]
      omega

theorem resume_rcvBody_carried {msgsz len : Nat} {failed : Bool} {msgType : Int}
    (hi : Inv c s.m (.rcvBody ix msgsz len k h :: s.m.tasks) L)
    (hc : Carried c s (.rcvBody ix msgsz len k h :: s.m.tasks) L)
    (hresume : (Task.rcvBody ix msgsz len k h).resume c failed msgType s.m = some (r, m')) :
    ∃ L', Inv c m' m'.tasks L' ∧ Carried c
      ((if failed then s else s.copy c usr (.rcvBody ix msgsz len k h)).wentOn (.rcvBody ix msgsz len k h) r m')
      m'.tasks L' := by
  obtain ⟨hbody, hmsgsz, hlt, huser, hout, j, hj, hlen⟩ := hc.tasks _ List.mem_cons_self
  have hcopied := hc.copied hi usr
  have hbytes := out_copied hbody hmsgsz huser hout hj hlen ix usr
  have huser' : (s.copy c usr (.rcvBody ix msgsz len k h)).userMsgp h = len + min msgsz c.msgssz := by
    simp [Copied.copy, huser]
  obtain ⟨hr, hg⟩ | ⟨rfl, ⟨k', hlt', hk', rfl, rfl, hi'⟩ | ⟨hle, rfl, hg⟩⟩ := resume_rcvBody hi hresume
  · simp only [Copied.wentOn, if_neg hr]
    cases failed with
    | true =>
      exact hg.carried hi rfl ⟨fun t ht => hc.tasks t (List.mem_cons_of_mem _ ht), hc.queued, hc.receipts⟩
    | false => exact Gone.carried (s := s.copy c usr (.rcvBody ix msgsz len k h)) hg hi rfl hcopied
  · refine ⟨L, hi', Carried.sleep (s := s.copy c usr (.rcvBody ix msgsz len k h)) hcopied ?_⟩
    have hwhole : min msgsz c.msgssz = c.msgssz := by omega
    rw [hwhole] at hbytes huser'
    refine ⟨⟨hbody.ts, hbody.needs, hbody.filled⟩, hmsgsz, hlt', huser', fun i => ?_, j + 1, ?_, ?_⟩
    · by_cases hin : i < len + c.msgssz
      · exact (hbytes i).1 (by omega)
      · rw [if_neg hin]
        exact not_not.mp fun hne => hin ((hbytes i).2.mp hne)
    · rw [← linked_next (hi.chain rfl) hj, hk']
    · rw [hlen, Nat.succ_mul]
  · obtain ⟨L', hi', hc'⟩ := Gone.carried (s := s.copy c usr (.rcvBody ix msgsz len k h)) hg hi rfl hcopied
    have hshort := hbody.short hg.needs
    have hretval : msgsz = min (s.msgsz h) (s.size h).toNat := by rw [← hbody.ts_eq hshort]; exact hmsgsz
    refine ⟨L', hi', hc'.receipt _ ⟨hshort, ?_⟩⟩
    rw [receipt_right hretval (fun i hi => (hbytes i).1 hi) (fun i => (hbytes i).2) (by dsimp only; omega),
      fits_iff hretval]
    exact ends_iff hlen hlt hle

theorem resume_carried {failed : Bool} {msgType : Int} (usr : Nat → BitVec 8) (hi : Inv c s.m (t :: s.m.tasks) L)
    (hc : Carried c s (t :: s.m.tasks) L) (hresume : t.resume c failed msgType s.m = some (r, m')) :
    ∃ L', Inv c m' m'.tasks L' ∧
      Carried c ((if failed then s else s.copy c usr t).wentOn t r m') m'.tasks L' := by
  have hkept : Carried c s s.m.tasks L :=
    ⟨fun t ht => hc.tasks t (List.mem_cons_of_mem _ ht), hc.queued, hc.receipts⟩
  cases t with
  | sndWaits ix args weOwnIt =>
    rw [show (if failed then s else s.copy c usr (.sndWaits ix args weOwnIt)) = s from ite_self s]
    obtain ⟨new, hw⟩ | ⟨hdr, L', ha⟩ := resume_sndWaits hi hresume
    · exact ⟨L, hw.inv, hw.carried hkept⟩
    · exact ⟨L', ha.inv, ha.carried hi (fun t ht => List.mem_cons_of_mem _ ht) hkept⟩
  | sndType ix args h => exact resume_sndType_carried hi hc hresume
  | sndBody ix msgsz k h => exact resume_sndBody_carried hi hc hresume
  | rcvWaits ix args =>
    rw [show (if failed then s else s.copy c usr (.rcvWaits ix args)) = s from ite_self s]
    obtain ⟨hr, hw⟩ | ⟨-, -, hr⟩ := resume_rcvWaits hi hresume
    · rw [show s.wentOn (.rcvWaits ix args) r m' = { s with m := m' } from taken_of_ne hr]
      exact ⟨L, hw.inv, hw.carried hkept⟩
    · exact hr.carried (hi.tail rfl rfl) (hi.valid _ List.mem_cons_self) hkept
  | rcvType ix msgsz h => exact resume_rcvType_carried hi hc hresume
  | rcvBody ix msgsz len k h => exact resume_rcvBody_carried hi hc hresume

theorem copied_wentOn {failed : Bool} {m₀ : Messages} :
    (if failed then { s with m := m₀ } else Copied.copy c usr { s with m := m₀ } t).wentOn t r m' =
      (if failed then s else s.copy c usr t).wentOn t r m' := by
  cases t <;> cases failed <;> rfl

theorem taken_m {args : RcvArgs} : (s.taken args r m').m = m' := by
  unfold Copied.taken
  split <;> rfl

theorem wentOn_m : (s.wentOn t r m').m = m' := by
  unfold Copied.wentOn
  split
  · exact taken_m
  · split <;> rfl
  · split <;> rfl
  · rfl

theorem Copied.step_carried {e : MsgCall × (Nat → BitVec 8)} (hi : Inv c s.m s.m.tasks L)
    (hc : Carried c s s.m.tasks L) (hstep : s.step c e = some s') :
    ∃ L', Inv c s'.m s'.m.tasks L' ∧ Carried c s' s'.m.tasks L' := by
  obtain ⟨call, usr⟩ := e
  simp only [Copied.step] at hstep
  cases call with
  | msgget key creat excl ipcperm =>
    obtain ⟨⟨r, m'⟩, hcall, rfl⟩ := Option.map_eq_some_iff.mp hstep
    have hw := msgget_spec hi (Option.some.inj hcall)
    exact ⟨L, hw.inv, hw.carried hc⟩
  | rmid msqid ipcperm =>
    obtain ⟨⟨r, m'⟩, hcall, rfl⟩ := Option.map_eq_some_iff.mp hstep
    obtain rfl | ⟨hix, hcl⟩ := msgctlRmid_spec hi hcall
    · exact ⟨L, hi, hc⟩
    · exact hcl.carried hi hix hc
  | msgsnd msqid args ipcperm =>
    obtain ⟨⟨r, m'⟩, hcall, rfl⟩ := Option.map_eq_some_iff.mp hstep
    obtain ⟨new, hw⟩ | ⟨hdr, L', ha⟩ := msgsnd_spec hi hcall
    · exact ⟨L, hw.inv, hw.carried hc⟩
    · exact ⟨L', ha.inv, ha.carried hi (fun t ht => ht) hc⟩
  | msgrcv msqid args ipcperm =>
    obtain ⟨⟨r, m'⟩, hcall, rfl⟩ := Option.map_eq_some_iff.mp hstep
    obtain ⟨hr, hw⟩ | ⟨hix, -, hr⟩ := msgrcv_spec hi hcall
    · dsimp only
      rw [taken_of_ne hr]
      exact ⟨L, hw.inv, hw.carried hc⟩
    · obtain ⟨L', hi', hc'⟩ := hr.carried hi hix hc
      refine ⟨L', ?_, ?_⟩
      · rw [taken_m]
        exact hi'
      · rw [taken_m]
        exact hc'
  | resume i failed msgType =>
    dsimp only at hstep
    cases ht : s.m.tasks[i]? with
    | none =>
      rw [ht] at hstep
      obtain rfl := Option.some.inj hstep
      exact ⟨L, hi, hc⟩
    | some t =>
      rw [ht] at hstep
      obtain ⟨⟨r, m'⟩, hcall, rfl⟩ := Option.map_eq_some_iff.mp hstep
      simp only [Messages.step, ht] at hcall
      have hc₀ : Carried c { s with m := { s.m with tasks := s.m.tasks.eraseIdx i } } (t :: s.m.tasks.eraseIdx i) L := by
        refine hc.same (fun t' ht' => ?_) (fun _ _ _ ha => ha) rfl (fun _ _ a _ => same_of_hdr rfl rfl)
          fun _ _ a _ => same_of_hdr rfl rfl
        obtain ⟨hlt, rfl⟩ := List.getElem?_eq_some_iff.mp ht
        exact (List.getElem_cons_eraseIdx_perm hlt).mem_iff.mp ht'
      obtain ⟨L', hi', hc'⟩ := resume_carried usr (hi.running ht) hc₀ hcall
      rw [copied_wentOn] at hc'
      refine ⟨L', ?_, ?_⟩
      · rw [wentOn_m]
        exact hi'
      · rw [wentOn_m]
        exact hc'

theorem Copied.Reached.carried (hrun : s.Reached c) : ∃ L, Inv c s.m s.m.tasks L ∧ Carried c s s.m.tasks L := by
  refine Runs.invariant (I := fun s => ∃ L, Inv c s.m s.m.tasks L ∧ Carried c s s.m.tasks L) hrun ?_ ?_
  · rintro s ⟨hm, hreceipts⟩
    obtain ⟨L, hi⟩ := kept_msginit c
    rw [hm]
    refine ⟨L, hi, ⟨fun t ht => ?_, fun j hj a ha => ?_, fun q hq => ?_⟩⟩
    · cases ht
    · rw [hi.removed j hj rfl] at ha
      cases ha
    · rw [hreceipts] at hq
      cases hq
  · rintro s e s' ⟨L, hi, hc⟩ - hstep
    exact Copied.step_carried hi hc hstep

theorem Task.holds_of_receives (ht : t.receives = some h) : t.holds = some h := by
  cases t <;> simp_all [receives, holds]

def Task.left : Task → Nat
  | .rcvType _ msgsz _ => msgsz + 1
  | .rcvBody _ msgsz len _ _ => msgsz - len
  | _ => 0

theorem Inv.segs_lt {m : Messages} (hi : Inv c m (t :: ts) L) (ht : t.holds = some h) :
    ∀ k ∈ L.segs h, k < c.msgseg := by
  intro k hk
  refine List.mem_range.mp (hi.stored.segs.mem_iff.mp (List.mem_append_right _ ?_))
  exact List.mem_flatMap.mpr ⟨h, List.mem_append_right _ (hi.held List.mem_cons_self ht), hk⟩

theorem msgFreehdr_isSome {m : Messages} (hi : Inv c m (t :: ts) L) (ht : t.holds = some h)
    (hneeds : c.Needs (L.segs h).length (m.msghdrs h).msgTs) : ∃ m', msgFreehdr c h m = some m' := by
  obtain ⟨m₁, hloop⟩ := freeSegments_isSome
    (hi.stored.chained h (List.mem_append_right _ (hi.held List.mem_cons_self ht))) (hi.segs_lt ht) hneeds
    (Nat.le_refl _)
  unfold msgFreehdr
  rw [hloop]
  exact ⟨_, rfl⟩

theorem rcvNext_isSome {m : Messages} {msgsz : Nat} (hi : Inv c m (t :: ts) L) (ht : t.holds = some h)
    (hneeds : c.Needs (L.segs h).length (m.msghdrs h).msgTs) (hle : msgsz ≤ (m.msghdrs h).msgTs) (ix j : Nat) :
    (∃ m', rcvNext c ix msgsz (j * c.msgssz) (L.segs h)[j]? h m = some (.done, m')) ∨
      j * c.msgssz < msgsz ∧ ∃ k, rcvNext c ix msgsz (j * c.msgssz) (L.segs h)[j]? h m =
        some (.waits, m.sleep (.rcvBody ix msgsz (j * c.msgssz) k h)) := by
  unfold rcvNext
  by_cases hlt : j * c.msgssz < msgsz
  · have hj : j < (L.segs h).length := by
      by_contra hge
      have hmul := Nat.mul_le_mul_right c.msgssz (Nat.le_of_not_lt hge)
      have henough := hneeds.1
      omega
    rw [if_pos hlt, List.getElem?_eq_getElem hj]
    dsimp only
    rw [if_neg (Nat.not_le.mpr (hi.segs_lt ht _ (List.getElem_mem hj)))]
    exact .inr ⟨hlt, _, rfl⟩
  · obtain ⟨m', hfree⟩ := msgFreehdr_isSome hi ht hneeds
    rw [if_neg hlt, hfree]
    exact .inl ⟨m', rfl⟩

theorem Copied.receiver_goes {i : Nat} (usr : Nat → BitVec 8) (hi : Inv c s.m s.m.tasks L) (hc : Carried c s s.m.tasks L)
    (ht : s.m.tasks[i]? = some t) (hh : t.receives = some h) (hshort : (s.size h).toNat < 2 ^ 16) :
    ∃ s', s.step c (.resume i false 0, usr) = some s' ∧ (s'.receipts.length = s.receipts.length + 1 ∨
      s'.receipts = s.receipts ∧ s'.size h = s.size h ∧
        ∃ t', s'.m.tasks[s'.m.tasks.length - 1]? = some t' ∧ t'.receives = some h ∧ t'.left < t.left) := by
  have hi₀ := hi.running ht
  have hcarries := hc.tasks t (List.mem_of_getElem? ht)
  have hholds := Task.holds_of_receives hh
  simp only [Copied.step, ht, Messages.step]
  cases t with
  | rcvType ix msgsz g =>
    obtain rfl := Option.some.inj hh
    obtain ⟨hbody, hmsgsz⟩ := hcarries
    have hneeds : c.Needs (L.segs g).length (s.m.msghdrs g).msgTs := hbody.ts_eq hshort ▸ hbody.needs
    have hspot : (s.m.msghdrs g).msgSpot = (L.segs g)[0]? := by
      rw [← List.head?_eq_getElem?]
      exact (hi₀.stored.chained g (List.mem_append_right _ (hi₀.held List.mem_cons_self rfl))).eq_head?
    have hgoes := rcvNext_isSome hi₀ rfl hneeds (show msgsz ≤ (s.m.msghdrs g).msgTs by omega) ix 0
    rw [Nat.zero_mul, ← hspot] at hgoes
    simp only [Task.resume, Bool.false_eq_true, if_false]
    obtain ⟨m', hdone⟩ | ⟨hlt, k, hwaits⟩ := hgoes
    · rw [hdone]
      exact ⟨_, rfl, .inl (by simp [Copied.wentOn, Copied.copy])⟩
    · rw [hwaits]
      refine ⟨_, rfl, .inr ⟨rfl, rfl, .rcvBody ix msgsz 0 k g, ?_, rfl, ?_⟩⟩
      · simp [wentOn_m, Messages.sleep]
      · simp [Task.left]
  | rcvBody ix msgsz len k g =>
    obtain rfl := Option.some.inj hh
    obtain ⟨hbody, hmsgsz, hlt, -, -, j, hj, hlen⟩ := hcarries
    have hneeds : c.Needs (L.segs g).length (s.m.msghdrs g).msgTs := hbody.ts_eq hshort ▸ hbody.needs
    have hnext := linked_next (hi₀.stored.chained g (List.mem_append_right _ (hi₀.held List.mem_cons_self rfl))) hj
    have hgoes := rcvNext_isSome hi₀ rfl hneeds (show msgsz ≤ (s.m.msghdrs g).msgTs by omega) ix (j + 1)
    rw [Nat.succ_mul, ← hlen, ← hnext] at hgoes
    have hpos := c.msgssz_pos
    simp only [Task.resume, Bool.false_eq_true, if_false]
    obtain ⟨m', hdone⟩ | ⟨hlt', k', hwaits⟩ := hgoes
    · rw [hdone]
      exact ⟨_, rfl, .inl (by simp [Copied.wentOn, Copied.copy])⟩
    · rw [hwaits]
      refine ⟨_, rfl, .inr ⟨rfl, rfl, .rcvBody ix msgsz (len + c.msgssz) k' g, ?_, rfl, ?_⟩⟩
      · simp [wentOn_m, Messages.sleep]
      · simp only [Task.left]
        omega
  | sndWaits | sndType | sndBody | rcvWaits => cases hh

theorem Copied.finish_isSome {i : Nat} (hi : Inv c s.m s.m.tasks L) (hc : Carried c s s.m.tasks L)
    (ht : s.m.tasks[i]? = some t) (hh : t.receives = some h) (hshort : (s.size h).toNat < 2 ^ 16)
    (hleft : t.left < n) : ∃ s', s.finish c n i = some s' := by
  induction n generalizing s i t L with
  | zero => cases hleft
  | succ n ih =>
    obtain ⟨s', hstep, hgoes⟩ := Copied.receiver_goes (fun _ => 0) hi hc ht hh hshort
    rw [Copied.finish, hstep, Option.bind_some]
    obtain hone | ⟨hreceipts, hsize, t', ht', hh', hlt⟩ := hgoes
    · rw [if_neg (by omega)]
      exact ⟨s', rfl⟩
    · obtain ⟨L', hi', hc'⟩ := Copied.step_carried hi hc hstep
      rw [if_pos (by rw [hreceipts])]
      exact ih hi' hc' ht' hh' (by rwa [hsize]) (by omega)

theorem find?_middle {f : Nat → Bool} {p q : List Nat} {b : Nat} (hb : f b = true) (hp : ∀ a ∈ p, f a = false) :
    (p ++ b :: q).find? f = some b := by
  rw [List.find?_append, List.find?_eq_none.mpr fun a ha => by simp [hp a ha], Option.none_or, List.find?_cons_of_pos hb]

theorem Received.e2big_iff {args : RcvArgs} {m₀ : Messages} (hr : Received c m₀ L ix args r m')
    (hhdrs : m₀.msghdrs = s.m.msghdrs) (hqueue : s.m.queue c ix = L.queue ix) (hsel : Selects c s.m ix args h)
    (hnoerror : args.noerror = false) :
    (r = .error .e2big ↔ args.msgsz < (s.m.msghdrs h).msgTs) ∧ (r = .error .e2big → m' = m₀) := by
  have hselected : ∀ p q g, L.queue ix = p ++ g :: q → (args.msgtyp = 0 ∧ p = [] ∨ args.msgtyp ≠ 0 ∧
      args.takes (m₀.msghdrs g) = true ∧ ∀ a ∈ p, args.takes (m₀.msghdrs a) = false) → g = h := by
    intro p q g hL hfirst
    rw [hhdrs] at hfirst
    refine Option.some.inj (Eq.trans (Eq.symm ?_) hsel)
    rw [hqueue, hL]
    obtain ⟨hzero, rfl⟩ | ⟨hne, htakes, hpassed⟩ := hfirst
    · exact find?_middle (by simp [hzero]) (by simp)
    · exact find?_middle (by simp [htakes]) fun a ha => by simp [hne, hpassed a ha]
  cases hr with
  | nothing new hnone _ _ =>
    exfalso
    rw [hhdrs] at hnone
    have hnot : (s.m.queue c ix).find? (fun a => decide (args.msgtyp = 0) || args.takes (s.m.msghdrs a)) = none := by
      rw [hqueue]
      obtain ⟨-, hempty⟩ | ⟨hne, hpassed⟩ := hnone
      · rw [hempty]
        rfl
      · exact List.find?_eq_none.mpr fun a ha => by simp [hne, hpassed a ha]
    cases hnot.symm.trans hsel
  | tooBig p q g hL hfirst hbig _ hr hm' =>
    obtain rfl := hselected p q g hL hfirst
    rw [hhdrs] at hbig
    exact ⟨iff_of_true hr hbig, fun _ => hm'⟩
  | takes p q g hr htaken =>
    obtain rfl := hselected p q g htaken.queue htaken.takes
    have hne : r ≠ .error .e2big := by rw [hr]; simp
    refine ⟨iff_of_false hne fun hlt => ?_, fun h => absurd h hne⟩
    · have hfits := htaken.fits
      rw [hhdrs, hnoerror] at hfits
      cases hfits hlt

/-- **A message comes back** with the bytes that the message and the buffer both have, no others, and their count, if
and only if these are in one segment or fill theirs. A message of 2¹⁶ bytes or more never comes back, a shorter one does
when its receiver goes on without a fault, and one that is longer than the buffer is refused if `msg_ts` says so, and
stays where it is. -/
theorem msgrcv_copies (hrun : s.Reached c) :
    (∀ q ∈ s.receipts, q.size.toNat < 2 ^ 16 ∧ (q.Right ↔ q.Fits c)) ∧
      (∀ i t h, s.m.tasks[i]? = some t → t.receives = some h → (s.size h).toNat < 2 ^ 16 →
        ∃ fuel s', s.finish c fuel i = some s') ∧
      ∀ ix args call h, Receives c s.m ix args call → Selects c s.m ix args h → args.noerror = false →
        args.msgsz < (s.size h).toNat →
          ((∃ ts, s.m.step c call = some (.error .e2big, { s.m with tasks := ts })) ↔
            args.msgsz < (s.size h).toNat % 2 ^ 16) := by
  obtain ⟨L, hi, hc⟩ := hrun.carried
  refine ⟨hc.receipts, fun i t h ht hh hshort => ?_, fun ix args call h hrcv hsel hnoerror _ => ?_⟩
  · exact ⟨t.left + 1, Copied.finish_isSome hi hc ht hh hshort (Nat.lt_succ_self _)⟩
  · have hbody : ix < c.msgmni → (s.m.msghdrs h).msgTs = (s.size h).toNat % 2 ^ 16 := fun hix => by
      refine (hc.queued ix hix h ?_).ts
      rw [← hi.queue_eq hix]
      exact List.mem_of_find?_eq_some hsel
    cases hrcv with
    | call msqid args hmsqid hix hne hseq =>
      subst hmsqid
      obtain ⟨⟨r, m'⟩, htry⟩ := rcvTry_isSome { args with seq := ipcidToSeq msqid } hi hix hne
      have hstep : s.m.step c (.msgrcv msqid args none) = some (r, m') := by
        simp only [Messages.step, msgrcv]
        rw [if_neg (by simp [hix, hne, hseq])]
        exact htry
      obtain ⟨hiff, hsame⟩ := (rcvTry_spec hi hix hne htry).e2big_iff rfl (hi.queue_eq hix) hsel hnoerror
      rw [hstep, ← hbody hix, ← hiff]
      refine ⟨?_, fun hr => ⟨_, by rw [hr, hsame hr]⟩⟩
      rintro ⟨ts, heq⟩
      exact (Prod.mk.inj (Option.some.inj heq)).1
    | woken i args msgType ht hne hseq =>
      have hi₀ := hi.running ht
      have hi₁ : Inv c { s.m with tasks := s.m.tasks.eraseIdx i } (s.m.tasks.eraseIdx i) L := hi₀.tail rfl rfl
      have hix : ix < c.msgmni := hi₀.valid _ List.mem_cons_self
      obtain ⟨⟨r, m'⟩, htry⟩ := rcvTry_isSome args hi₁ hix hne
      have hstep : s.m.step c (.resume i false msgType) = some (r, m') := by
        simp only [Messages.step, ht, Task.resume]
        rw [if_neg (by simp), if_neg (by simp [hne, hseq])]
        exact htry
      obtain ⟨hiff, hsame⟩ := (rcvTry_spec hi₁ hix hne htry).e2big_iff rfl (hi.queue_eq hix) hsel hnoerror
      rw [hstep, ← hbody hix, ← hiff]
      refine ⟨?_, fun hr => ⟨_, by rw [hr, hsame hr]⟩⟩
      rintro ⟨ts, heq⟩
      exact (Prod.mk.inj (Option.some.inj heq)).1

def Copied.calls (c : Msginfo) : List MsgCall → Copied → Option Copied
  | [], s => some s
  | call :: rest, s => (s.step c (call, fun _ => 1)).bind (Copied.calls c rest)

theorem Copied.reached_of_calls (l : List MsgCall) (hs : s.Reached c) (hcalls : s.calls c l = some s') :
    s'.Reached c := by
  induction l generalizing s with
  | nil =>
    obtain rfl : s = s' := Option.some.inj hcalls
    exact hs
  | cons call l ih =>
    obtain ⟨s₁, hstep, hrest⟩ := Option.bind_eq_some_iff.mp hcalls
    exact ih (hs.call _ trivial hstep) hrest

def Copied.boot (c : Msginfo) : Copied where
  m := msginit c
  pool _ := 0
  size _ := 0
  content _ _ := 0
  userMsgp _ := 0
  msgsz _ := 0
  out _ _ := none
  receipts := []

def eightBytes : List MsgCall :=
  [.msgget 0 true false none,
    .msgsnd 0x10000 { msgsz := 8 } none, .resume 0 false 1, .resume 0 false 1,
    .msgrcv 0x10000 { seq := 0, msgsz := 8 } none, .resume 0 false 1, .resume 0 false 1,
    .msgsnd 0x10000 { msgsz := 8 } none, .resume 0 false 1, .resume 0 false 1,
    .msgrcv 0x10000 { seq := 0, msgsz := 8 } none,
    .msgsnd 0x10000 { msgsz := 8 } none, .resume 1 false 1, .resume 1 false 1]

def eightSent : Copied := (Copied.calls twoMsginfo eightBytes (.boot twoMsginfo)).getD (.boot twoMsginfo)

theorem reached_eightSent : eightSent.Reached twoMsginfo :=
  Copied.reached_of_calls (s := .boot twoMsginfo) eightBytes (.start ⟨rfl, rfl⟩) rfl

theorem msgrcv_copies_eightSent : (∃ q ∈ eightSent.receipts, q.Right) ∧
    (∃ fuel s', eightSent.finish twoMsginfo fuel 0 = some s') ∧
    ∃ ts, eightSent.m.step twoMsginfo (.msgrcv 0x10000 { seq := 0, msgsz := 4 } none) =
      some (.error .e2big, { eightSent.m with tasks := ts }) := by
  obtain ⟨hreceipts, hfinish, hbig⟩ := msgrcv_copies reached_eightSent
  refine ⟨?_, hfinish 0 (.rcvType 0 8 0) 0 rfl rfl (by decide), ?_⟩
  · have hfits : ∀ q ∈ eightSent.receipts, q.Fits twoMsginfo := by decide
    obtain ⟨q, hq⟩ : ∃ q, eightSent.receipts = [q] := ⟨_, rfl⟩
    have hmem : q ∈ eightSent.receipts := hq ▸ List.mem_cons_self
    exact ⟨q, hmem, (hreceipts q hmem).2.mpr (hfits q hmem)⟩
  · exact (hbig 0 _ _ 1 (.call 0x10000 { seq := 0, msgsz := 4 } rfl (by decide) (by decide) rfl) rfl rfl (by decide)).mpr
      (by decide)

def sixteenMsginfo : Msginfo := { twoMsginfo with msgmnb := 16, msgmnb_lt := by decide }

def nineBytes : List MsgCall :=
  [.msgget 0 true false none,
    .msgsnd 0x10000 { msgsz := 9 } none, .resume 0 false 1, .resume 0 false 1, .resume 0 false 1,
    .msgrcv 0x10000 { seq := 0, msgsz := 9 } none, .resume 0 false 1, .resume 0 false 1, .resume 0 false 1]

def nineSent : Copied := (Copied.calls sixteenMsginfo nineBytes (.boot sixteenMsginfo)).getD (.boot sixteenMsginfo)

/-- Of nine bytes the buffer gets sixteen. -/
theorem msgrcv_overruns : ¬ ∀ c s, Copied.Reached c s → ∀ q ∈ s.receipts, q.Right := by
  intro hall
  have hreached : nineSent.Reached sixteenMsginfo :=
    Copied.reached_of_calls (s := .boot sixteenMsginfo) nineBytes (.start ⟨rfl, rfl⟩) rfl
  have hall9 : ∀ q ∈ nineSent.receipts, q.out 9 ≠ if 9 < min q.msgsz q.size.toNat then some (q.content 9) else none := by
    decide
  obtain ⟨q, hq⟩ : ∃ q, nineSent.receipts = [q] := ⟨_, rfl⟩
  have hmem : q ∈ nineSent.receipts := hq ▸ List.mem_cons_self
  exact hall9 q hmem ((hall _ _ hreached q hmem).out 9)

end NetBSD.Sysv
