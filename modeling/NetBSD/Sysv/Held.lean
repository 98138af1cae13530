import NetBSD.Sysv.Storage
import NetBSD.Sysv.Queue

/-!
# Who has a message

Every header is free, on a queue, or held by a process that is sending or receiving its message. The
invariant is about a list of tasks, which is that of the state between calls and has the running task in
front within one.
-/

namespace NetBSD.Sysv

open Function (update)
open Lib (Linked)

structure Layout where
  free : List Nat
  queue : Nat → List Nat
  freeSegs : List Nat
  segs : Nat → List Nat

/-- Nothing is lost and nothing is in two places, with `held` the headers that processes have. -/
structure Conserved (c : Msginfo) (m : Messages) (held : List Nat) (L : Layout) : Prop where
  stored : Stored c m L.free ((List.range c.msgmni).flatMap L.queue ++ held) L.freeSegs L.segs
  queued : ∀ ix < c.msgmni, (m.msqids ix).msgQbytes ≠ 0 → Queued (m.msqids ix) m.msghdrs (L.queue ix)
  removed : ∀ ix < c.msgmni, (m.msqids ix).msgQbytes = 0 → L.queue ix = []

namespace Task

def ix : Task → Nat
  | sndWaits ix _ _ | sndType ix _ _ | sndBody ix _ _ _ | rcvWaits ix _ | rcvType ix _ _ | rcvBody ix _ _ _ _ => ix

def sends : Task → Option Nat
  | sndType _ _ h | sndBody _ _ _ h => some h
  | _ => none

def holds : Task → Option Nat
  | sndType _ _ h | sndBody _ _ _ h | rcvType _ _ h | rcvBody _ _ _ _ h => some h
  | _ => none

def owns : Task → Bool
  | sndWaits _ _ weOwnIt => weOwnIt
  | sndType _ _ _ | sndBody _ _ _ _ => true
  | _ => false

theorem holds_of_sends {t : Task} {h : Nat} (ht : t.sends = some h) : t.holds = some h := by
  cases t <;> simp_all [sends, holds]

theorem owns_of_sends {t : Task} {h : Nat} (ht : t.sends = some h) : t.owns = true := by
  cases t <;> simp_all [sends, owns]

end Task

theorem Stored.relinked {c : Msginfo} {m m' : Messages} {free msgs freeSegs S : List Nat}
    {segs : Nat → List Nat} {ix : Nat} (hs : Stored c m free msgs freeSegs segs) (hr : Relinked ix S m m')
    (hS : ∀ a ∈ S, a ∈ msgs) : Stored c m' free msgs freeSegs segs where
  freeLinked := by
    rw [hr.freeMsghdrs]
    refine hs.freeLinked.congr fun a ha => congrArg Msg.msgNext (hr.others a fun haS => ?_)
    exact hs.not_mem_free (hS a haS) ha
  hdrs := hs.hdrs
  freeSegsLinked := by
    rw [hr.msgmaps, hr.freeMsgmaps]
    exact hs.freeSegsLinked
  nfree := by
    rw [hr.nfreeMsgmaps]
    exact hs.nfree
  chained a ha := by
    rw [hr.msgmaps, hr.spot]
    exact hs.chained a ha
  segs := hs.segs

def owners (ts : List Task) (ix : Nat) : Nat := ts.countP fun t => t.owns && t.ix == ix

theorem owners_cons (t : Task) (ts : List Task) (ix : Nat) :
    owners (t :: ts) ix = owners ts ix + if t.ix = ix then t.owns.toNat else 0 := by
  rw [owners, owners, List.countP_cons]
  by_cases hix : t.ix = ix <;> cases ht : t.owns <;> simp [hix]

structure Inv (c : Msginfo) (m : Messages) (ts : List Task) (L : Layout) : Prop
    extends Conserved c m (ts.filterMap Task.holds) L where
  valid : ∀ t ∈ ts, t.ix < c.msgmni
  lock : ∀ ix < c.msgmni, owners ts ix = (m.msqids ix).locked.toNat
  room : ∀ t ∈ ts, ∀ h, t.sends = some h → (m.msqids t.ix).msgQbytes ≠ 0 →
    (m.msqids t.ix).msgCbytes + (m.msghdrs h).msgTs ≤ (m.msqids t.ix).msgQbytes

variable {c : Msginfo} {m m' : Messages} {ts ts' : List Task} {t t' : Task} {L : Layout} {h ix : Nat}
  {l S : List Nat}

theorem flatMap_range_perm {n : Nat} (hix : ix < n) {f : Nat → List Nat} {x : List Nat}
    (hp : (f ix).Perm (x ++ l)) :
    ((List.range n).flatMap f).Perm (x ++ (List.range n).flatMap (update f ix l)) := by
  obtain ⟨s, t, hst⟩ := List.append_of_mem (List.mem_range.mpr hix)
  have hnodup : (s ++ ix :: t).Nodup := hst ▸ List.nodup_range
  obtain ⟨-, ht, hdisj⟩ := List.nodup_append.mp hnodup
  have hs' : ∀ a ∈ s, update f ix l a = f a := fun a ha =>
    Function.update_of_ne (hdisj a ha ix List.mem_cons_self) l f
  have ht' : ∀ a ∈ t, update f ix l a = f a := fun a ha =>
    Function.update_of_ne (ne_of_mem_of_not_mem ha (List.nodup_cons.mp ht).1) l f
  rw [hst, List.flatMap_append, List.flatMap_append, List.flatMap_cons, List.flatMap_cons,
    List.flatMap_congr hs', List.flatMap_congr ht', Function.update_self]
  calc List.Perm (s.flatMap f ++ (f ix ++ t.flatMap f)) (s.flatMap f ++ (x ++ (l ++ t.flatMap f))) := by
        refine (List.Perm.refl _).append ?_
        rw [← List.append_assoc]
        exact hp.append (List.Perm.refl _)
    List.Perm _ (x ++ (s.flatMap f ++ (l ++ t.flatMap f))) := by
        rw [← List.append_assoc, ← List.append_assoc x]
        exact List.perm_append_comm.append (List.Perm.refl _)

namespace Inv

theorem perm (hi : Inv c m ts L) (hp : ts.Perm ts') : Inv c m ts' L where
  stored := hi.stored.perm ((List.Perm.refl _).append (hp.filterMap Task.holds))
  queued := hi.queued
  removed := hi.removed
  valid t ht := hi.valid t (hp.mem_iff.mpr ht)
  lock ix hix := by
    rw [← hi.lock ix hix]
    exact (hp.countP_eq _).symm
  room t ht := hi.room t (hp.mem_iff.mpr ht)

theorem setTasks (hi : Inv c m ts L) (ts' : List Task) : Inv c { m with tasks := ts' } ts L where
  stored := hi.stored.setTasks ts'
  queued := hi.queued
  removed := hi.removed
  valid := hi.valid
  lock := hi.lock
  room := hi.room

theorem sleep (hi : Inv c m (t :: m.tasks) L) : Inv c (m.sleep t) (m.sleep t).tasks L :=
  (hi.setTasks (m.tasks ++ [t])).perm (List.perm_append_singleton t m.tasks).symm

theorem replace (hi : Inv c m (t :: ts) L) (t' : Task) (hholds : t'.holds = t.holds) (hsends : t'.sends = t.sends)
    (howns : t'.owns = t.owns) (hix : t'.ix = t.ix) : Inv c m (t' :: ts) L where
  stored := by simpa [List.filterMap_cons, hholds] using hi.stored
  queued := hi.queued
  removed := hi.removed
  valid a ha := by
    rcases List.mem_cons.mp ha with rfl | ha
    · rw [hix]
      exact hi.valid t List.mem_cons_self
    · exact hi.valid a (List.mem_cons_of_mem t ha)
  lock ix hlt := by
    rw [← hi.lock ix hlt, owners_cons, owners_cons, howns, hix]
  room a ha h hs := by
    rcases List.mem_cons.mp ha with rfl | ha
    · rw [hix]
      exact hi.room t List.mem_cons_self h (hsends ▸ hs)
    · exact hi.room a (List.mem_cons_of_mem t ha) h hs

theorem tail (hi : Inv c m (t :: ts) L) (hholds : t.holds = none) (howns : t.owns = false) :
    Inv c m ts L where
  stored := by simpa [List.filterMap_cons, hholds] using hi.stored
  queued := hi.queued
  removed := hi.removed
  valid a ha := hi.valid a (List.mem_cons_of_mem t ha)
  lock ix hlt := by
    rw [← hi.lock ix hlt, owners_cons, howns]
    simp
  room a ha := hi.room a (List.mem_cons_of_mem t ha)

theorem cons (hi : Inv c m ts L) (hholds : t.holds = none) (howns : t.owns = false) (hix : t.ix < c.msgmni) :
    Inv c m (t :: ts) L where
  stored := by simpa [List.filterMap_cons, hholds] using hi.stored
  queued := hi.queued
  removed := hi.removed
  valid a ha := by
    rcases List.mem_cons.mp ha with rfl | ha
    · exact hix
    · exact hi.valid a ha
  lock ix hlt := by
    rw [← hi.lock ix hlt, owners_cons, howns]
    simp
  room a ha h hs := by
    rcases List.mem_cons.mp ha with rfl | ha
    · rw [Task.owns_of_sends hs] at howns
      cases howns
    · exact hi.room a ha h hs

theorem relock (hi : Inv c m (t :: ts) L) (t' : Task) (hholds : t'.holds = t.holds) (hsends : t'.sends = none)
    (hix : t'.ix = t.ix) {b : Bool}
    (hb : t'.owns.toNat + (m.msqids t.ix).locked.toNat = t.owns.toNat + b.toNat) :
    Inv c (m.lock t.ix b) (t' :: ts) L where
  stored := by
    rw [List.filterMap_cons, hholds, ← List.filterMap_cons]
    exact hi.stored.setQueue t.ix _
  queued ix hlt hne := by
    by_cases heq : ix = t.ix
    · subst heq
      simp only [Messages.lock, Messages.setQueue, Function.update_self] at hne ⊢
      have hq := hi.queued t.ix hlt hne
      exact ⟨hq.linked, hq.last, hq.qnum, hq.cbytes, hq.fits⟩
    · simp only [Messages.lock, Messages.setQueue, Function.update_of_ne heq] at hne ⊢
      exact hi.queued ix hlt hne
  removed ix hlt hzero := by
    refine hi.removed ix hlt ?_
    by_cases heq : ix = t.ix
    · subst heq
      simpa [Messages.lock, Messages.setQueue] using hzero
    · simpa [Messages.lock, Messages.setQueue, heq] using hzero
  valid a ha := by
    rcases List.mem_cons.mp ha with rfl | ha
    · rw [hix]
      exact hi.valid t List.mem_cons_self
    · exact hi.valid a (List.mem_cons_of_mem t ha)
  lock ix hlt := by
    have hlock := hi.lock ix hlt
    rw [owners_cons] at hlock ⊢
    rw [hix]
    by_cases heq : t.ix = ix
    · subst heq
      rw [if_pos rfl] at hlock ⊢
      simp only [Messages.lock, Messages.setQueue, Function.update_self]
      omega
    · rw [if_neg heq] at hlock ⊢
      rw [hlock, Messages.lock, Messages.setQueue]
      simp [show ix ≠ t.ix from fun h => heq h.symm]
  room a ha h hs hne := by
    rcases List.mem_cons.mp ha with rfl | ha
    · simp [hsends] at hs
    · by_cases heq : a.ix = t.ix
      · have hroom := hi.room a (List.mem_cons_of_mem t ha) h hs
        simp only [Messages.lock, Messages.setQueue, heq, Function.update_self] at hne hroom ⊢
        exact hroom hne
      · simp only [Messages.lock, Messages.setQueue, Function.update_of_ne heq] at hne ⊢
        exact hi.room a (List.mem_cons_of_mem t ha) h hs hne

theorem held (_ : Inv c m ts L) (ht : t ∈ ts) (hh : t.holds = some h) : h ∈ ts.filterMap Task.holds :=
  List.mem_filterMap.mpr ⟨t, ht, hh⟩

theorem held_ne (hi : Inv c m (t :: ts) L) (hh : t.holds = some h) (ht' : t' ∈ ts) {h' : Nat}
    (hh' : t'.holds = some h') : h' ≠ h := by
  have hnodup := (List.nodup_append.mp (List.nodup_append.mp hi.stored.hdrs_nodup).2.1).2.1
  rw [List.filterMap_cons, hh] at hnodup
  exact ne_of_mem_of_not_mem (List.mem_filterMap.mpr ⟨t', ht', hh'⟩) (List.nodup_cons.mp hnodup).1

theorem mem_queues (_ : Inv c m ts L) (hix : ix < c.msgmni) (hh : h ∈ L.queue ix) :
    h ∈ (List.range c.msgmni).flatMap L.queue :=
  List.mem_flatMap.mpr ⟨ix, List.mem_range.mpr hix, hh⟩

theorem held_not_queued (hi : Inv c m ts L) (hix : ix < c.msgmni) (hh : h ∈ ts.filterMap Task.holds) :
    h ∉ L.queue ix := fun hq =>
  (List.nodup_append.mp (List.nodup_append.mp hi.stored.hdrs_nodup).2.1).2.2 h (hi.mem_queues hix hq) h hh rfl

theorem queue_disjoint (hi : Inv c m ts L) (hix : ix < c.msgmni) {j : Nat} (hj : j < c.msgmni) (hne : j ≠ ix)
    (hh : h ∈ L.queue ix) : h ∉ L.queue j := fun hq => by
  have hnodup := (List.nodup_append.mp (List.nodup_append.mp hi.stored.hdrs_nodup).2.1).1
  have hsplit : (L.queue ix).Perm (L.queue ix ++ []) := by simp
  rw [(flatMap_range_perm hix hsplit).nodup_iff] at hnodup
  refine (List.nodup_append.mp hnodup).2.2 h hh h (List.mem_flatMap.mpr ⟨j, List.mem_range.mpr hj, ?_⟩) rfl
  simpa [hne] using hq

theorem no_sender (hi : Inv c m ts L) (hix : ix < c.msgmni) (hlocked : (m.msqids ix).locked = false)
    (ht : t ∈ ts) (htix : t.ix = ix) : t.sends = none := by
  have hzero := hi.lock ix hix
  rw [hlocked, owners] at hzero
  cases hs : t.sends with
  | none => rfl
  | some h =>
    have hnone := List.countP_eq_zero.mp hzero t ht
    simp [Task.owns_of_sends hs, htix] at hnone

theorem msgFreehdr (hi : Inv c m (t :: ts) L) (ht : t.holds = some h)
    (hfree : Sysv.msgFreehdr c h m = some m') (t' : Task) (hholds : t'.holds = none) (howns : t'.owns = t.owns)
    (hix : t'.ix = t.ix) : Freed h m m' ∧ ∃ free freeSegs,
      Inv c m' (t' :: ts) { L with free, freeSegs } := by
  have hstored := hi.stored
  rw [List.filterMap_cons, ht] at hstored
  obtain ⟨hs, hfreed⟩ := (hstored.perm List.perm_middle).msgFreehdr hfree
  refine ⟨hfreed, h :: L.free, (L.segs h).reverse ++ L.freeSegs, ?_⟩
  exact {
    stored := by
      rw [List.filterMap_cons, hholds]
      exact hs
    queued := fun j hj hne => by
      rw [hfreed.msqids] at hne ⊢
      refine (hi.queued j hj hne).congr fun a ha => hfreed.others a ?_
      exact ne_of_mem_of_not_mem ha (hi.held_not_queued hj (hi.held List.mem_cons_self ht))
    removed := fun j hj hzero => hi.removed j hj (by rwa [hfreed.msqids] at hzero)
    valid := fun a ha => by
      rcases List.mem_cons.mp ha with rfl | ha
      · rw [hix]
        exact hi.valid t List.mem_cons_self
      · exact hi.valid a (List.mem_cons_of_mem t ha)
    lock := fun j hj => by
      rw [hfreed.msqids, ← hi.lock j hj, owners_cons, owners_cons, howns, hix]
    room := fun a ha g hg => by
      rcases List.mem_cons.mp ha with rfl | ha
      · rw [Task.holds_of_sends hg] at hholds
        cases hholds
      · have hne : g ≠ h := hi.held_ne ht ha (Task.holds_of_sends hg)
        rw [hfreed.msqids, hfreed.others g hne]
        exact hi.room a (List.mem_cons_of_mem t ha) g hg }

theorem alloc (hi : Inv c m (t :: ts) L) (ht : t.holds = none) (hh : m.freeMsghdrs = some h) {n : Nat}
    {msg : Msg} (hspot : msg.msgSpot = none)
    (halloc : allocSegments c h n
      { m.setHdr h msg with freeMsghdrs := (m.msghdrs h).msgNext } = some m')
    (t' : Task) (hsends : t'.sends = some h) (howns : t'.owns = t.owns) (hix : t'.ix = t.ix)
    (hroom : (m.msqids t.ix).msgCbytes + msg.msgTs ≤ (m.msqids t.ix).msgQbytes) :
    m'.tasks = m.tasks ∧ m'.msqids = m.msqids ∧ (∀ a, a ≠ h → m'.msghdrs a = m.msghdrs a) ∧
      (m'.msghdrs h).msgTs = msg.msgTs ∧ h ∈ L.free ∧ ∃ free freeSegs chain, chain.length = n ∧
        Inv c m' (t' :: ts) ⟨free, L.queue, freeSegs, update L.segs h chain⟩ := by
  have hstored := hi.stored
  rw [List.filterMap_cons, ht] at hstored
  cases hfree : L.free with
  | nil =>
    have hlinked := hstored.freeLinked
    rw [hfree, hh] at hlinked
    cases hlinked
  | cons h' free =>
    rw [hfree] at hstored
    obtain rfl : h = h' := Option.some.inj (hh.symm.trans hstored.freeLinked.1)
    obtain ⟨⟨freeSegs, chain, hs, hlength⟩, hmoved⟩ := (hstored.allocHdr hspot).allocSegments halloc
    rw [Function.update_idem] at hs
    rw [Function.update_self, List.length_nil, Nat.zero_add] at hlength
    have hnot : ∀ a ∈ (List.range c.msgmni).flatMap L.queue ++ ts.filterMap Task.holds, a ≠ h := fun a ha =>
      fun heq => hstored.not_mem_free ha (heq ▸ List.mem_cons_self)
    have hsame : ∀ a, a ≠ h → m'.msghdrs a = m.msghdrs a := fun a ha => by
      rw [hmoved.others a ha]
      simp [Messages.setHdr, ha]
    have hmsqids : m'.msqids = m.msqids := hmoved.msqids
    have hts : (m'.msghdrs h).msgTs = msg.msgTs := by
      rw [hmoved.ts h]
      simp [Messages.setHdr]
    refine ⟨hmoved.tasks, hmsqids, hsame, hts, List.mem_cons_self, free, freeSegs, chain, hlength, ?_⟩
    exact {
      stored := by
        rw [List.filterMap_cons, Task.holds_of_sends hsends]
        exact hs.perm List.perm_middle.symm
      queued := fun j hj hne => by
        rw [hmsqids] at hne ⊢
        refine (hi.queued j hj hne).congr fun a ha => hsame a (hnot a ?_)
        exact List.mem_append_left _ (hi.mem_queues hj ha)
      removed := fun j hj hzero => hi.removed j hj (by rwa [hmsqids] at hzero)
      valid := fun a ha => by
        rcases List.mem_cons.mp ha with rfl | ha
        · rw [hix]
          exact hi.valid t List.mem_cons_self
        · exact hi.valid a (List.mem_cons_of_mem t ha)
      lock := fun j hj => by
        rw [hmsqids, ← hi.lock j hj, owners_cons, owners_cons, howns, hix]
      room := fun a ha g hg => by
        rw [hmsqids]
        rcases List.mem_cons.mp ha with rfl | ha
        · obtain rfl : h = g := Option.some.inj (hsends.symm.trans hg)
          rw [hts, hix]
          exact fun _ => hroom
        · have hgh : g ≠ h := hnot g
            (List.mem_append_right _ (List.mem_filterMap.mpr ⟨a, ha, Task.holds_of_sends hg⟩))
          rw [hsame g hgh]
          exact hi.room a (List.mem_cons_of_mem t ha) g hg }

theorem requeue (hi : Inv c m ts L) (hix : ix < c.msgmni) (hr : Relinked ix S m m')
    (hS : ∀ a ∈ S, a ∈ L.queue ix ∨ a ∈ ts.filterMap Task.holds)
    (hq : Queued (m'.msqids ix) m'.msghdrs l) (hne : (m.msqids ix).msgQbytes ≠ 0)
    (hmsgs : ((List.range c.msgmni).flatMap L.queue ++ ts.filterMap Task.holds).Perm
      ((List.range c.msgmni).flatMap (update L.queue ix l) ++ ts'.filterMap Task.holds))
    (hvalid : ∀ t ∈ ts', t.ix < c.msgmni) (howners : ∀ j, owners ts' j = owners ts j)
    (hsends : ∀ t ∈ ts', ∀ g, t.sends = some g → t ∈ ts ∧
      (t.ix = ix → (m'.msqids ix).msgCbytes ≤ (m.msqids ix).msgCbytes)) :
    Inv c m' ts' { L with queue := update L.queue ix l } := by
  have hmem : ∀ a ∈ S, a ∈ (List.range c.msgmni).flatMap L.queue ++ ts.filterMap Task.holds := fun a ha =>
    List.mem_append.mpr ((hS a ha).imp (hi.mem_queues hix) id)
  have hlocked : ∀ j, (m'.msqids j).locked = (m.msqids j).locked := fun j => by
    by_cases hj : j = ix
    · exact hj ▸ hr.locked
    · rw [hr.queues j hj]
  have hqbytes : ∀ j, (m'.msqids j).msgQbytes = (m.msqids j).msgQbytes := fun j => by
    by_cases hj : j = ix
    · exact hj ▸ hr.qbytes
    · rw [hr.queues j hj]
  exact {
    stored := (hi.stored.relinked hr hmem).perm hmsgs
    queued := fun j hj hj0 => by
      by_cases heq : j = ix
      · subst heq
        simpa using hq
      · rw [hqbytes j] at hj0
        rw [hr.queues j heq]
        simp only [Function.update_of_ne heq]
        refine (hi.queued j hj hj0).congr fun a ha => hr.others a fun haS => ?_
        rcases hS a haS with hin | hin
        · exact hi.queue_disjoint hix hj heq hin ha
        · exact hi.held_not_queued hj hin ha
    removed := fun j hj hj0 => by
      rw [hqbytes j] at hj0
      have hji : j ≠ ix := fun heq => hne (heq ▸ hj0)
      simpa [hji] using hi.removed j hj hj0
    valid := hvalid
    lock := fun j hj => by rw [howners j, hlocked j, hi.lock j hj]
    room := fun t ht g hg hj0 => by
      obtain ⟨hin, hle⟩ := hsends t ht g hg
      rw [hqbytes t.ix] at hj0 ⊢
      rw [hr.ts g]
      have hroom := hi.room t hin g hg hj0
      by_cases heq : t.ix = ix
      · have := hle heq
        rw [heq] at hroom ⊢
        omega
      · rwa [hr.queues t.ix heq] }

theorem enqueue (hi : Inv c m (t :: ts) L) (ht : t.holds = some h) (howns : t.owns = false)
    (hlocked : (m.msqids t.ix).locked = false) (hne : (m.msqids t.ix).msgQbytes ≠ 0)
    (hfits : (m.msqids t.ix).msgCbytes + (m.msghdrs h).msgTs ≤ (m.msqids t.ix).msgQbytes)
    (henq : Sysv.enqueue t.ix h m = some m') : Relinked t.ix (h :: L.queue t.ix) m m' ∧
      Inv c m' ts { L with queue := update L.queue t.ix (L.queue t.ix ++ [h]) } := by
  have hix : t.ix < c.msgmni := hi.valid t List.mem_cons_self
  have hheld : h ∈ (t :: ts).filterMap Task.holds := hi.held List.mem_cons_self ht
  obtain ⟨hr, hq⟩ := enqueue_spec (hi.queued t.ix hix hne) (hi.held_not_queued hix hheld) hfits henq
  refine ⟨hr, hi.requeue hix hr ?_ hq hne ?_ ?_ ?_ ?_⟩
  · intro a ha
    rcases List.mem_cons.mp ha with rfl | ha
    · exact Or.inr hheld
    · exact Or.inl ha
  · have hp := flatMap_range_perm hix (f := update L.queue t.ix (L.queue t.ix ++ [h]))
      (l := L.queue t.ix) (x := [h]) (by simp)
    rw [Function.update_idem, Function.update_eq_self] at hp
    rw [List.filterMap_cons, ht]
    exact List.perm_middle.trans (hp.symm.append (List.Perm.refl (ts.filterMap Task.holds)))
  · exact fun a ha => hi.valid a (List.mem_cons_of_mem t ha)
  · intro j
    rw [owners_cons, howns]
    simp
  · intro a ha g hg
    refine ⟨List.mem_cons_of_mem t ha, fun haix => ?_⟩
    rw [hi.no_sender hix hlocked (List.mem_cons_of_mem t ha) haix] at hg
    cases hg

theorem dequeue {s r : List Nat} (hi : Inv c m ts L) (hix : ix < c.msgmni)
    (hne : (m.msqids ix).msgQbytes ≠ 0) (hL : L.queue ix = s ++ h :: r)
    (hr : Relinked ix (s ++ r) m m') (hq : Queued (m'.msqids ix) m'.msghdrs (s ++ r))
    (hle : (m'.msqids ix).msgCbytes ≤ (m.msqids ix).msgCbytes)
    (ht : t.holds = some h) (hsends : t.sends = none) (howns : t.owns = false) (htix : t.ix = ix) :
    Inv c m' (t :: ts) { L with queue := update L.queue ix (s ++ r) } := by
  refine hi.requeue hix hr ?_ hq hne ?_ ?_ ?_ ?_
  · intro a ha
    rw [hL]
    exact Or.inl (List.perm_middle.mem_iff.mpr (List.mem_cons_of_mem h ha))
  · rw [List.filterMap_cons, ht]
    have hp := flatMap_range_perm (x := [h]) hix (hL ▸ List.perm_middle)
    exact (hp.append (List.Perm.refl (ts.filterMap Task.holds))).trans List.perm_middle.symm
  · intro a ha
    rcases List.mem_cons.mp ha with rfl | ha
    · rwa [htix]
    · exact hi.valid a ha
  · intro j
    rw [owners_cons, howns]
    simp
  · intro a ha g hg
    rcases List.mem_cons.mp ha with rfl | ha
    · rw [hsends] at hg
      cases hg
    · exact ⟨ha, fun _ => hle⟩

theorem setType (hi : Inv c m (t :: ts) L) (ht : t.holds = some h) (msgType : Int) :
    Inv c (m.setHdr h { m.msghdrs h with msgType }) (t :: ts) L where
  stored := hi.stored.setHdr (List.mem_append_right _ (hi.held List.mem_cons_self ht)) rfl
  queued j hj hne := by
    refine (hi.queued j hj hne).congr fun a ha => ?_
    have hah : a ≠ h :=
      ne_of_mem_of_not_mem ha (hi.held_not_queued hj (hi.held List.mem_cons_self ht))
    simp [Messages.setHdr, hah]
  removed := hi.removed
  valid := hi.valid
  lock := hi.lock
  room a ha g hg hne := by
    have hts : ((m.setHdr h { m.msghdrs h with msgType }).msghdrs g).msgTs = (m.msghdrs g).msgTs := by
      by_cases hgh : g = h <;> simp [Messages.setHdr, hgh]
    rw [hts]
    exact hi.room a ha g hg hne

theorem create {q : MsqidDs} (hi : Inv c m ts L) (hix : ix < c.msgmni)
    (hremoved : (m.msqids ix).msgQbytes = 0) (hlocked : (m.msqids ix).locked = false)
    (hq : Queued q m.msghdrs []) (hqlocked : q.locked = false) : Inv c (m.setQueue ix q) ts L where
  stored := hi.stored.setQueue ix q
  queued j hj hne := by
    by_cases heq : j = ix
    · subst heq
      simpa [Messages.setQueue, hi.removed j hix hremoved] using hq
    · simp only [Messages.setQueue, Function.update_of_ne heq] at hne ⊢
      exact hi.queued j hj hne
  removed j hj hzero := by
    by_cases heq : j = ix
    · exact heq ▸ hi.removed ix hix hremoved
    · exact hi.removed j hj (by simpa [Messages.setQueue, heq] using hzero)
  valid := hi.valid
  lock j hj := by
    rw [hi.lock j hj]
    by_cases heq : j = ix
    · subst heq
      simp [Messages.setQueue, hlocked, hqlocked]
    · simp [Messages.setQueue, heq]
  room t ht g hg := by
    have heq : t.ix ≠ ix := fun heq => by
      rw [hi.no_sender hix hlocked ht heq] at hg
      cases hg
    simp only [Messages.setQueue, Function.update_of_ne heq]
    exact hi.room t ht g hg

theorem remove {fuel : Nat} (hi : Inv c m ts L) (hix : ix < c.msgmni) (hne : (m.msqids ix).msgQbytes ≠ 0)
    (hfree : freeQueue c ix fuel (m.msqids ix).msgFirst m = some m') :
    m'.tasks = m.tasks ∧ (∀ a, a ∉ L.queue ix → m'.msghdrs a = m.msghdrs a) ∧ ∃ free freeSegs,
      Inv c (m'.setQueue ix { m'.msqids ix with msgQbytes := 0 }) ts
        ⟨free, update L.queue ix [], freeSegs, L.segs⟩ := by
  have hsplit : (L.queue ix).Perm (L.queue ix ++ []) := by simp
  have hp := (flatMap_range_perm hix hsplit).append (List.Perm.refl (ts.filterMap Task.holds))
  rw [List.append_assoc] at hp
  obtain ⟨⟨free, freeSegs, hs⟩, htasks, hothers, hmsqids⟩ :=
    (hi.stored.perm hp).freeQueue (hi.queued ix hix hne).linked hfree
  have hsame : ∀ j, j ≠ ix → m'.msqids j = m.msqids j := fun j hj => by
    rw [hmsqids, Function.update_of_ne hj]
  have hlocked : (m'.msqids ix).locked = (m.msqids ix).locked := by
    rw [hmsqids, Function.update_self]
  refine ⟨htasks, hothers, free, freeSegs, ?_⟩
  exact {
    stored := hs.setQueue ix _
    queued := fun j hj hj0 => by
      by_cases heq : j = ix
      · simp [Messages.setQueue, heq] at hj0
      · simp only [Messages.setQueue, Function.update_of_ne heq, hsame j heq] at hj0 ⊢
        refine (hi.queued j hj hj0).congr fun a ha => hothers a fun hin => ?_
        exact hi.queue_disjoint hix hj heq hin ha
    removed := fun j hj hj0 => by
      by_cases heq : j = ix
      · simp [heq]
      · simp only [Messages.setQueue, Function.update_of_ne heq, hsame j heq] at hj0 ⊢
        exact hi.removed j hj hj0
    valid := hi.valid
    lock := fun j hj => by
      rw [hi.lock j hj]
      by_cases heq : j = ix
      · subst heq
        simp [Messages.setQueue, hlocked]
      · simp [Messages.setQueue, heq, hsame j heq]
    room := fun t ht g hg hj0 => by
      have heq : t.ix ≠ ix := fun heq => by simp [Messages.setQueue, heq] at hj0
      have hg' : g ∉ L.queue ix :=
        hi.held_not_queued hix (hi.held ht (Task.holds_of_sends hg))
      simp only [Messages.setQueue, Function.update_of_ne heq, hsame t.ix heq, hothers g hg'] at hj0 ⊢
      exact hi.room t ht g hg hj0 }

end Inv

end NetBSD.Sysv
