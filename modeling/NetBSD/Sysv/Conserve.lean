import NetBSD.Sysv.Held
import NetBSD.Lib.Runs

/-!
# Message storage is conserved

Whatever the calls of the processes, and wherever they sleep, fault or are interrupted, no header and no
segment is lost, and the counts of a queue are those of its messages.
-/

namespace NetBSD.Sysv

open Function (update)
open Lib (Linked Runs)

variable {c : Msginfo} {m m' : Messages} {ts : List Task} {t : Task} {L : Layout} {h ix msgsz len : Nat}
  {next : Option Nat} {r : Reply}

def Messages.Reached (c : Msginfo) : Messages → Prop :=
  Runs (· = msginit c) (fun m call => (m.step c call).map Prod.snd) fun _ _ => True

def Kept (c : Msginfo) (m : Messages) : Prop := ∃ L, Inv c m m.tasks L

theorem linked_chainAll {n : Nat} (hn : 0 < n) :
    Linked (chainAll n fun _ => none) (some 0) (List.range n) none := by
  induction n with
  | zero => omega
  | succ n ih =>
    rw [chainAll, List.range_succ, List.foldl_append, ← chainAll]
    cases n with
    | zero => simp [chainAll]
    | succ n =>
      have hlinked := (ih (Nat.succ_pos n)).update (a := n + 1) (by simp) none
      have hlast : Linked (update (chainAll (n + 1) fun _ => none) (n + 1) none) (some (n + 1)) [n + 1] none := by
        simp
      rw [List.range_succ] at hlinked ⊢
      have hjoined := hlinked.join hlast (by simp)
      rw [Function.update_comm (by omega)] at hjoined
      simpa using hjoined

theorem kept_msginit (c : Msginfo) : Kept c (msginit c) := by
  have hnil : ∀ l : List Nat, l.flatMap (fun _ => ([] : List Nat)) = [] := fun l =>
    List.flatMap_eq_nil_iff.mpr fun _ _ => rfl
  refine ⟨⟨List.range c.msgtql, fun _ => [], List.range c.msgseg, fun _ => []⟩, ?_⟩
  exact {
    stored := {
      freeLinked := linked_chainAll c.msgtql_pos
      hdrs := by simp [msginit, hnil]
      freeSegsLinked := linked_chainAll c.msgseg_pos
      nfree := by simp [msginit]
      chained := by simp [msginit]
      segs := by simp [msginit, hnil] }
    queued := fun ix _ hne => absurd rfl hne
    removed := fun _ _ _ => rfl
    valid := by simp [msginit]
    lock := fun ix _ => rfl
    room := by simp [msginit] }

structure Waited (c : Msginfo) (m : Messages) (L : Layout) (new : List Task) (m' : Messages) : Prop where
  tasks : m'.tasks = m.tasks ++ new
  holds : ∀ t ∈ new, t.holds = none
  hdrs : m'.msghdrs = m.msghdrs
  inv : Inv c m' m'.tasks L

structure Gone (c : Msginfo) (m : Messages) (L : Layout) (h : Nat) (m' : Messages) : Prop where
  tasks : m'.tasks = m.tasks
  others : ∀ a, a ≠ h → m'.msghdrs a = m.msghdrs a
  needs : c.Needs (L.segs h).length (m.msghdrs h).msgTs
  inv : ∃ free freeSegs, Inv c m' m'.tasks { L with free, freeSegs }

namespace Inv

theorem release (hi : Inv c m (t :: ts) L) (hholds : t.holds = none) (howns : t.owns = true) :
    Inv c (m.lock t.ix false) ts L := by
  have hlock := hi.lock t.ix (hi.valid t List.mem_cons_self)
  rw [owners_cons, if_pos rfl, howns] at hlock
  have hunlocked := hi.relock (.sndWaits t.ix { msgsz := 0 } false) (b := false) hholds.symm rfl rfl
    (by
      rw [howns]
      cases hl : (m.msqids t.ix).locked
      · rw [hl] at hlock
        simp at hlock
      · rfl)
  exact hunlocked.tail rfl rfl

theorem needs (hi : Inv c m (t :: ts) L) (ht : t.holds = some h) (hfree : Sysv.msgFreehdr c h m = some m') :
    c.Needs (L.segs h).length (m.msghdrs h).msgTs := by
  unfold Sysv.msgFreehdr at hfree
  cases hloop : freeSegments c (m.msghdrs h).msgTs (m.msghdrs h).msgTs (m.msghdrs h).msgSpot m with
  | none => simp [hloop] at hfree
  | some r =>
    obtain ⟨spot, m₁⟩ := r
    cases spot with
    | some k => simp [hloop] at hfree
    | none =>
      exact freeSegments_needs (hi.stored.chained h (List.mem_append_right _ (hi.held List.mem_cons_self ht))) hloop

theorem freed (hi : Inv c m (t :: m.tasks) L) (ht : t.holds = some h) (howns : t.owns = false)
    (hfree : Sysv.msgFreehdr c h m = some m') : Gone c m L h m' := by
  obtain ⟨hfreed, free, freeSegs, hi'⟩ :=
    hi.msgFreehdr ht hfree (.sndWaits t.ix { msgsz := 0 } false) rfl howns.symm rfl
  refine ⟨hfreed.tasks, hfreed.others, hi.needs ht hfree, free, freeSegs, ?_⟩
  rw [hfreed.tasks]
  exact hi'.tail rfl rfl

theorem waited (hi : Inv c m m.tasks L) : Waited c m L [] m := ⟨by simp, by simp, rfl, hi⟩

end Inv

/-- The header `h` with a chain of segments for a message of `msgsz` bytes goes to a sender. -/
structure Alloc (c : Msginfo) (m : Messages) (L : Layout) (ix : Nat) (args : SndArgs) (h : Nat) (L' : Layout)
    (m' : Messages) : Prop where
  tasks : m'.tasks = m.tasks ++ [.sndType ix args h]
  free : h ∈ L.free
  queue : L'.queue = L.queue
  segs : ∀ a, a ≠ h → L'.segs a = L.segs a
  length : (L'.segs h).length = segsNeeded c args.msgsz
  ts : (m'.msghdrs h).msgTs = args.msgsz.toNat % 2 ^ 16
  others : ∀ a, a ≠ h → m'.msghdrs a = m.msghdrs a
  fits : args.msgsz.toNat ≤ (m.msqids ix).msgQbytes
  inv : Inv c m' m'.tasks L'

theorem sndTry_spec {args : SndArgs} (hi : Inv c m m.tasks L) (hix : ix < c.msgmni)
    (h : sndTry c ix args m = some (r, m')) :
    (∃ new, Waited c m L new m') ∨ ∃ hdr L', Alloc c m L ix args hdr L' m' := by
  unfold sndTry at h
  dsimp only at h
  have hi₀ := hi.cons (t := .sndWaits ix args false) rfl rfl hix
  split at h
  · obtain ⟨-, rfl⟩ := Prod.mk.inj (Option.some.inj h)
    exact .inl ⟨[], hi.waited⟩
  · next hfits₀ =>
    split at h
    · split at h
      · obtain ⟨-, rfl⟩ := Prod.mk.inj (Option.some.inj h)
        exact .inl ⟨[], hi.waited⟩
      · split at h
        · obtain ⟨-, rfl⟩ := Prod.mk.inj (Option.some.inj h)
          exact .inl ⟨[.sndWaits ix args false], rfl, by simp [Task.holds], rfl, hi₀.sleep⟩
        · next hlocked =>
          obtain ⟨-, rfl⟩ := Prod.mk.inj (Option.some.inj h)
          have hi₁ := hi₀.relock (.sndWaits ix args true) (b := true) rfl rfl rfl (by
            simp only [Task.ix, Task.owns, Bool.not_eq_true] at hlocked ⊢
            simp [hlocked])
          exact .inl ⟨[.sndWaits ix args true], rfl, by simp [Task.holds], rfl, hi₁.sleep⟩
    · next hresources =>
      simp only [not_or, not_lt] at hresources
      obtain ⟨hlocked, hfits, -, -⟩ := hresources
      cases hh : m.freeMsghdrs with
      | none => simp [hh] at h
      | some hdr =>
        rw [hh] at h
        obtain ⟨m₁, halloc, hm₁⟩ := Option.bind_eq_some_iff.mp h
        obtain ⟨-, rfl⟩ := Prod.mk.inj (Option.some.inj hm₁)
        have hi₁ := hi₀.relock (.sndWaits ix args true) (b := true) rfl rfl rfl (by
          simp only [Task.ix, Task.owns, Bool.not_eq_true] at hlocked ⊢
          simp [hlocked])
        have hts : args.msgsz.toNat % 2 ^ 16 ≤ args.msgsz.toNat := Nat.mod_le _ _
        obtain ⟨htasks, -, hothers, hts', hfree, free, freeSegs, chain, hlength, hi₂⟩ :=
          hi₁.alloc rfl hh rfl halloc (.sndType ix args hdr) rfl rfl rfl (by
            simp only [Task.ix, Messages.lock, Messages.setQueue, Function.update_self]
            omega)
        rw [← show m₁.tasks = m.tasks from htasks] at hi₂
        refine .inr ⟨hdr, ⟨free, L.queue, freeSegs, update L.segs hdr chain⟩, ?_⟩
        exact {
          tasks := congrArg (· ++ [Task.sndType ix args hdr]) htasks
          free := hfree
          queue := rfl
          segs := fun a ha => Function.update_of_ne ha chain L.segs
          length := by
            simp only [Function.update_self]
            exact hlength
          ts := hts'
          others := hothers
          fits := Nat.le_of_not_lt hfits₀
          inv := hi₂.sleep }

theorem sndFails_spec {e : Errno} (hi : Inv c m (t :: m.tasks) L) (ht : t.sends = some h) (hix : t.ix = ix)
    (hfails : sndFails c ix h e m = some (r, m')) : Gone c m L h m' := by
  obtain ⟨m₁, hfree, hm₁⟩ := Option.map_eq_some_iff.mp hfails
  obtain ⟨-, rfl⟩ := Prod.mk.inj hm₁
  obtain ⟨hfreed, free, freeSegs, hi₁⟩ := hi.msgFreehdr (Task.holds_of_sends ht) hfree
    (.sndWaits ix { msgsz := 0 } true) rfl (Task.owns_of_sends ht).symm hix.symm
  rw [← hfreed.tasks] at hi₁
  exact ⟨hfreed.tasks, hfreed.others, hi.needs (Task.holds_of_sends ht) hfree, free, freeSegs, hi₁.release rfl rfl⟩

structure Sent (c : Msginfo) (m : Messages) (L : Layout) (ix h : Nat) (m' : Messages) : Prop where
  tasks : m'.tasks = m.tasks
  ts : ∀ a, (m'.msghdrs a).msgTs = (m.msghdrs a).msgTs
  type : ∀ a, (m'.msghdrs a).msgType = (m.msghdrs a).msgType
  inv : Inv c m' m'.tasks { L with queue := update L.queue ix (L.queue ix ++ [h]) }

theorem sndDone_spec (hi : Inv c m (t :: m.tasks) L) (ht : t.sends = some h) (hix : t.ix = ix)
    (hdone : sndDone c ix h m = some (r, m')) : Gone c m L h m' ∨ Sent c m L ix h m' := by
  subst hix
  have hlt := hi.valid t List.mem_cons_self
  have howns := Task.owns_of_sends ht
  have hlock := hi.lock t.ix hlt
  rw [owners_cons, if_pos rfl, howns] at hlock
  -- the message is still this one's, the lock is not
  have hi₁ := hi.relock (.rcvType t.ix 0 h) (b := false) (Task.holds_of_sends ht).symm rfl rfl (by
    rw [howns]
    cases hl : (m.msqids t.ix).locked
    · rw [hl] at hlock
      simp at hlock
    · rfl)
  have hsame : (m.lock t.ix false).msqids t.ix = { m.msqids t.ix with locked := false } := by
    simp [Messages.lock, Messages.setQueue]
  unfold sndDone at hdone
  dsimp only at hdone
  split at hdone
  · obtain ⟨m₁, hfree, hm₁⟩ := Option.map_eq_some_iff.mp hdone
    obtain ⟨-, rfl⟩ := Prod.mk.inj hm₁
    have hgone := Inv.freed (m := m.lock t.ix false) hi₁ rfl rfl hfree
    exact .inl ⟨hgone.tasks, hgone.others, hgone.needs, hgone.inv⟩
  · next hne =>
    obtain ⟨m₁, henq, hm₁⟩ := Option.map_eq_some_iff.mp hdone
    obtain ⟨-, rfl⟩ := Prod.mk.inj hm₁
    have hlocked : ((m.lock t.ix false).msqids t.ix).locked = false := by rw [hsame]
    have hroom : ((m.lock t.ix false).msqids t.ix).msgCbytes + (m.msghdrs h).msgTs ≤
        ((m.lock t.ix false).msqids t.ix).msgQbytes := by
      rw [hsame] at hne ⊢
      exact hi.room t List.mem_cons_self h ht hne
    obtain ⟨hr, hi₂⟩ := hi₁.enqueue rfl rfl hlocked hne hroom henq
    refine .inr ⟨hr.tasks, hr.ts, hr.type, ?_⟩
    rw [hr.tasks]
    exact hi₂

theorem sndNext_spec (hi : Inv c m (t :: m.tasks) L) (ht : t.sends = some h) (hix : t.ix = ix)
    (hnext : sndNext c ix msgsz next h m = some (r, m')) :
    (∃ k, 0 < msgsz ∧ next = some k ∧ m' = m.sleep (.sndBody ix msgsz k h) ∧ Inv c m' m'.tasks L) ∨
      msgsz = 0 ∧ next = none ∧ (Gone c m L h m' ∨ Sent c m L ix h m') := by
  unfold sndNext at hnext
  split at hnext
  · next hpos =>
    cases next with
    | none => cases hnext
    | some k =>
      dsimp only at hnext
      split at hnext
      · cases hnext
      · obtain ⟨-, rfl⟩ := Prod.mk.inj (Option.some.inj hnext)
        have hi₁ := hi.replace (.sndBody ix msgsz k h) (Task.holds_of_sends ht).symm ht.symm
          (Task.owns_of_sends ht).symm hix.symm
        exact .inl ⟨k, hpos, rfl, rfl, hi₁.sleep⟩
  · next hzero =>
    cases next with
    | none => exact .inr ⟨by omega, rfl, sndDone_spec hi ht hix hnext⟩
    | some k => cases hnext

structure Taken (c : Msginfo) (m : Messages) (L : Layout) (ix : Nat) (args : RcvArgs) (s : List Nat) (h : Nat)
    (l : List Nat) (m' : Messages) : Prop where
  queue : L.queue ix = s ++ h :: l
  takes : args.msgtyp = 0 ∧ s = [] ∨ args.msgtyp ≠ 0 ∧ args.takes (m.msghdrs h) = true ∧
    ∀ a ∈ s, args.takes (m.msghdrs a) = false
  fits : args.msgsz < (m.msghdrs h).msgTs → args.noerror = true
  tasks : m'.tasks = m.tasks ++ [.rcvType ix (min args.msgsz (m.msghdrs h).msgTs) h]
  ts : ∀ a, (m'.msghdrs a).msgTs = (m.msghdrs a).msgTs
  type : ∀ a, (m'.msghdrs a).msgType = (m.msghdrs a).msgType
  inv : Inv c m' m'.tasks { L with queue := update L.queue ix (s ++ l) }

theorem rcvTakes_spec {args : RcvArgs} {s l : List Nat} {m₁ : Messages} (hi : Inv c m m.tasks L)
    (hix : ix < c.msgmni) (hne : (m.msqids ix).msgQbytes ≠ 0) (hL : L.queue ix = s ++ h :: l)
    (hun : Unlinked ix (s ++ l) m m₁) (htakes : rcvTakes ix args h m₁ = (r, m'))
    (hfirst : args.msgtyp = 0 ∧ s = [] ∨ args.msgtyp ≠ 0 ∧ args.takes (m.msghdrs h) = true ∧
      ∀ a ∈ s, args.takes (m.msghdrs a) = false)
    (hfit : args.msgsz < (m.msghdrs h).msgTs → args.noerror = true) : Taken c m L ix args s h l m' := by
  obtain ⟨-, rfl⟩ := Prod.mk.inj htakes
  have hq := hi.queued ix hix hne
  rw [hL] at hq
  have hqnum := hq.qnum
  have hcbytes := hq.cbytes
  have hfits := hq.fits
  have hts : (fun a => (m₁.msghdrs a).msgTs) = fun a => (m.msghdrs a).msgTs := funext hun.ts
  have hth := hun.ts h
  simp only [List.length_append, List.length_cons, List.map_append, List.map_cons, List.sum_append,
    List.sum_cons] at hqnum hcbytes
  have hr := hun.toRelinked.trans (relinked_setQueue ix (m := m₁) (s ++ l)
    (q := { m₁.msqids ix with
      msgCbytes := (m₁.msqids ix).msgCbytes - (m₁.msghdrs h).msgTs
      msgQnum := (m₁.msqids ix).msgQnum - 1 }) rfl rfl)
  have hi' := hi.dequeue (t := .rcvType ix (min args.msgsz (m₁.msghdrs h).msgTs) h) hix hne hL hr
    (by
      simp only [Messages.setQueue, Function.update_self]
      exact {
        linked := hun.linked
        last := hun.last
        qnum := by
          simp only [hun.qnum, List.length_append]
          omega
        cbytes := by
          simp only [hun.cbytes, hts, List.map_append, List.sum_append]
          omega
        fits := by
          simp only [hun.cbytes, hun.qbytes]
          omega })
    (by
      simp only [Messages.setQueue, Function.update_self, hun.cbytes]
      omega) rfl rfl rfl rfl
  rw [← hun.tasks] at hi'
  refine ⟨hL, hfirst, hfit, ?_, hun.ts, hun.type, hi'.sleep⟩
  rw [← hth, ← hun.tasks]
  rfl

inductive Received (c : Msginfo) (m : Messages) (L : Layout) (ix : Nat) (args : RcvArgs) (r : Reply)
    (m' : Messages) : Prop where
  | nothing (new : List Task) : (args.msgtyp = 0 ∧ L.queue ix = [] ∨ args.msgtyp ≠ 0 ∧
      ∀ a ∈ L.queue ix, args.takes (m.msghdrs a) = false) → rcvFindsNone ix args m = (r, m') →
      Waited c m L new m' → Received c m L ix args r m'
  | tooBig (s l : List Nat) (h : Nat) : L.queue ix = s ++ h :: l →
      (args.msgtyp = 0 ∧ s = [] ∨ args.msgtyp ≠ 0 ∧ args.takes (m.msghdrs h) = true ∧
        ∀ a ∈ s, args.takes (m.msghdrs a) = false) →
      args.msgsz < (m.msghdrs h).msgTs → args.noerror = false → r = .error .e2big → m' = m →
      Received c m L ix args r m'
  | takes (s l : List Nat) (h : Nat) : r = .waits → Taken c m L ix args s h l m' → Received c m L ix args r m'

theorem rcvFindsNone_waited {args : RcvArgs} (hi : Inv c m m.tasks L) (hix : ix < c.msgmni)
    (hnone : rcvFindsNone ix args m = (r, m')) : ∃ new, Waited c m L new m' := by
  unfold rcvFindsNone at hnone
  split at hnone
  · obtain ⟨-, rfl⟩ := Prod.mk.inj hnone
    exact ⟨[], hi.waited⟩
  · obtain ⟨-, rfl⟩ := Prod.mk.inj hnone
    have hi₁ := hi.cons (t := .rcvWaits ix args) rfl rfl hix
    exact ⟨[.rcvWaits ix args], rfl, by simp [Task.holds], rfl, hi₁.sleep⟩

theorem rcvTry_spec {args : RcvArgs} (hi : Inv c m m.tasks L) (hix : ix < c.msgmni)
    (hne : (m.msqids ix).msgQbytes ≠ 0) (htry : rcvTry c ix args m = some (r, m')) :
    Received c m L ix args r m' := by
  have hq := hi.queued ix hix hne
  unfold rcvTry at htry
  dsimp only at htry
  split at htry
  · next htyp =>
    cases hfirst : (m.msqids ix).msgFirst with
    | none =>
      rw [hfirst] at htry
      obtain ⟨new, hwaited⟩ := rcvFindsNone_waited hi hix (Option.some.inj htry)
      exact .nothing new (.inl ⟨htyp, hq.linked.eq_nil hfirst⟩) (Option.some.inj htry) hwaited
    | some h =>
      rw [hfirst] at htry
      dsimp only at htry
      cases hL : L.queue ix with
      | nil =>
        have hlinked := hq.linked
        rw [hL, hfirst] at hlinked
        cases hlinked
      | cons h' l =>
        rw [hL] at hq
        obtain rfl : h = h' := Option.some.inj (hfirst.symm.trans hq.linked.1)
        split at htry
        · next hbig =>
          obtain ⟨rfl, rfl⟩ := Prod.mk.inj (Option.some.inj htry)
          exact .tooBig [] l h hL (.inl ⟨htyp, rfl⟩) hbig.1 hbig.2 rfl rfl
        · next hfits =>
          obtain ⟨m₁, hun, hm₁⟩ := Option.map_eq_some_iff.mp htry
          have htaken := rcvTakes_spec (s := []) hi hix hne hL (unlinkFirst_spec hq hun) hm₁
            (.inl ⟨htyp, rfl⟩) fun hlt => by simpa using not_and.mp hfits hlt
          exact .takes [] l h (Prod.mk.inj hm₁).1.symm htaken
  · next htyp =>
    cases hfind : findType args m c.msgtql none (m.msqids ix).msgFirst with
    | none => simp [hfind] at htry
    | some found =>
      obtain ⟨previous, found⟩ := found
      rw [hfind] at htry
      cases found with
      | none =>
        obtain ⟨new, hwaited⟩ := rcvFindsNone_waited hi hix (Option.some.inj htry)
        exact .nothing new (.inr ⟨htyp, findType_none hq.linked hfind⟩) (Option.some.inj htry) hwaited
      | some h =>
        dsimp only at htry
        obtain ⟨s, l, hL, hprev, htakes, hpassed⟩ := findType_spec hq.linked hfind
        rw [Option.or_none] at hprev
        rw [hL] at hq
        subst hprev
        split at htry
        · next hbig =>
          obtain ⟨rfl, rfl⟩ := Prod.mk.inj (Option.some.inj htry)
          exact .tooBig s l h hL (.inr ⟨htyp, htakes, hpassed⟩) hbig.1 hbig.2 rfl rfl
        · next hfits =>
          have htaken := rcvTakes_spec hi hix hne hL (unlinkType_spec hq) (Option.some.inj htry)
            (.inr ⟨htyp, htakes, hpassed⟩) fun hlt => by simpa using not_and.mp hfits hlt
          exact .takes s l h (Prod.mk.inj (Option.some.inj htry)).1.symm htaken

theorem rcvNext_spec (hi : Inv c m (t :: m.tasks) L) (ht : t.holds = some h) (hsends : t.sends = none)
    (howns : t.owns = false) (hix : t.ix = ix) (hnext : rcvNext c ix msgsz len next h m = some (r, m')) :
    (∃ k, len < msgsz ∧ next = some k ∧ r = .waits ∧ m' = m.sleep (.rcvBody ix msgsz len k h) ∧
      Inv c m' m'.tasks L) ∨ msgsz ≤ len ∧ r = .done ∧ Gone c m L h m' := by
  unfold rcvNext at hnext
  split at hnext
  · next hlt =>
    cases next with
    | none => cases hnext
    | some k =>
      dsimp only at hnext
      split at hnext
      · cases hnext
      · obtain ⟨rfl, rfl⟩ := Prod.mk.inj (Option.some.inj hnext)
        have hi₁ := hi.replace (.rcvBody ix msgsz len k h) ht.symm hsends.symm howns.symm hix.symm
        exact .inl ⟨k, hlt, rfl, rfl, rfl, hi₁.sleep⟩
  · next hle =>
    obtain ⟨m₁, hfree, hm₁⟩ := Option.map_eq_some_iff.mp hnext
    obtain ⟨rfl, rfl⟩ := Prod.mk.inj hm₁
    exact .inr ⟨Nat.le_of_not_lt hle, rfl, hi.freed ht howns hfree⟩

structure Cleared (c : Msginfo) (m : Messages) (L : Layout) (ix : Nat) (m' : Messages) : Prop where
  tasks : m'.tasks = m.tasks
  others : ∀ a, a ∉ L.queue ix → m'.msghdrs a = m.msghdrs a
  inv : ∃ free freeSegs, Inv c m' m'.tasks ⟨free, update L.queue ix [], freeSegs, L.segs⟩

theorem msgctlRmid_spec {msqid : Word32} {ipcperm : Option Errno} (hi : Inv c m m.tasks L)
    (hrmid : msgctlRmid c msqid ipcperm m = some (r, m')) :
    m' = m ∨ ipcidToIx msqid < c.msgmni ∧ Cleared c m L (ipcidToIx msqid) m' := by
  unfold msgctlRmid at hrmid
  dsimp only at hrmid
  split at hrmid
  · obtain ⟨-, rfl⟩ := Prod.mk.inj (Option.some.inj hrmid)
    exact .inl rfl
  · next hthere =>
    simp only [not_or, not_le] at hthere
    obtain ⟨hix, hne, -⟩ := hthere
    cases ipcperm with
    | some e =>
      obtain ⟨-, rfl⟩ := Prod.mk.inj (Option.some.inj hrmid)
      exact .inl rfl
    | none =>
      obtain ⟨m₁, hfree, hm₁⟩ := Option.bind_eq_some_iff.mp hrmid
      split at hm₁
      · cases hm₁
      · obtain ⟨-, rfl⟩ := Prod.mk.inj (Option.some.inj hm₁)
        obtain ⟨htasks, hothers, free, freeSegs, hi'⟩ := hi.remove hix hne hfree
        refine .inr ⟨hix, htasks, hothers, free, freeSegs, ?_⟩
        rwa [← htasks] at hi'

theorem msgget_spec {key : Int} {creat excl : Bool} {ipcperm : Option Errno} (hi : Inv c m m.tasks L)
    (hget : msgget c key creat excl ipcperm m = (r, m')) : Waited c m L [] m' := by
  unfold msgget at hget
  dsimp only at hget
  split at hget
  · split at hget
    · exact (Prod.mk.inj hget).2 ▸ hi.waited
    · cases ipcperm <;> exact (Prod.mk.inj hget).2 ▸ hi.waited
  · split at hget
    · split at hget
      · exact (Prod.mk.inj hget).2 ▸ hi.waited
      · next ix hfind =>
        obtain ⟨-, rfl⟩ := Prod.mk.inj hget
        obtain ⟨hzero, hlocked⟩ : (m.msqids ix).msgQbytes = 0 ∧ (m.msqids ix).locked = false := by
          simpa using List.find?_some hfind
        have hix := List.mem_range.mp (List.mem_of_find?_eq_some hfind)
        exact ⟨by simp [Messages.setQueue], by simp, rfl,
          hi.create hix hzero hlocked ⟨rfl, rfl, rfl, rfl, by simp⟩ rfl⟩
    · exact (Prod.mk.inj hget).2 ▸ hi.waited

theorem resume_sndWaits {args : SndArgs} {weOwnIt failed : Bool} {msgType : Int}
    (hi : Inv c m (.sndWaits ix args weOwnIt :: m.tasks) L)
    (h : (Task.sndWaits ix args weOwnIt).resume c failed msgType m = some (r, m')) :
    (∃ new, Waited c m L new m') ∨ ∃ hdr L', Alloc c m L ix args hdr L' m' := by
  have hix : ix < c.msgmni := hi.valid _ List.mem_cons_self
  obtain ⟨m₁, hm₁, hhdrs, htasks, hqbytes, hi₁⟩ : ∃ m₁, (if weOwnIt then m.lock ix false else m) = m₁ ∧
      m₁.msghdrs = m.msghdrs ∧ m₁.tasks = m.tasks ∧ (m₁.msqids ix).msgQbytes = (m.msqids ix).msgQbytes ∧
      Inv c m₁ m₁.tasks L := by
    cases weOwnIt with
    | true => exact ⟨_, rfl, rfl, rfl, by simp [Messages.lock, Messages.setQueue], hi.release rfl rfl⟩
    | false => exact ⟨_, rfl, rfl, rfl, rfl, hi.tail rfl rfl⟩
  simp only [Task.resume, hm₁] at h
  have hsame : ∀ e, some (e, m₁) = some (r, m') → ∃ new, Waited c m L new m' := fun e heq =>
    ⟨[], (Prod.mk.inj (Option.some.inj heq)).2 ▸ ⟨by simp [htasks], by simp, hhdrs, hi₁⟩⟩
  split at h
  · exact .inl (hsame _ h)
  · split at h
    · exact .inl (hsame _ h)
    · obtain ⟨new, hw⟩ | ⟨hdr, L', ha⟩ := sndTry_spec hi₁ hix h
      · exact .inl ⟨new, htasks ▸ hw.tasks, hw.holds, hw.hdrs.trans hhdrs, hw.inv⟩
      · exact .inr ⟨hdr, L', htasks ▸ ha.tasks, ha.free, ha.queue, ha.segs, ha.length, ha.ts,
          fun a hne => (ha.others a hne).trans (congrFun hhdrs a), hqbytes ▸ ha.fits, ha.inv⟩

theorem resume_sndType {args : SndArgs} {failed : Bool} {msgType : Int}
    (hi : Inv c m (.sndType ix args h :: m.tasks) L)
    (hresume : (Task.sndType ix args h).resume c failed msgType m = some (r, m')) :
    Gone c m L h m' ∨ (failed = false ∧ 1 ≤ msgType) ∧ ∃ m₁, m₁ = m.setHdr h { m.msghdrs h with msgType } ∧
      ((∃ k, 0 < args.msgsz.toNat ∧ (m.msghdrs h).msgSpot = some k ∧
          m' = m₁.sleep (.sndBody ix args.msgsz.toNat k h) ∧ Inv c m' m'.tasks L) ∨
        args.msgsz.toNat = 0 ∧ (m.msghdrs h).msgSpot = none ∧ (Gone c m L h m' ∨ Sent c m₁ L ix h m')) := by
  have hothers : ∀ a, a ≠ h → (m.setHdr h { m.msghdrs h with msgType }).msghdrs a = m.msghdrs a := fun a ha => by
    simp [Messages.setHdr, ha]
  have hspot : ((m.setHdr h { m.msghdrs h with msgType }).msghdrs h).msgSpot = (m.msghdrs h).msgSpot := by
    simp [Messages.setHdr]
  have hgone : Gone c (m.setHdr h { m.msghdrs h with msgType }) L h m' → Gone c m L h m' := fun hg =>
    ⟨hg.tasks, fun a ha => (hg.others a ha).trans (hothers a ha), by
      have hneeds := hg.needs
      simp only [Messages.setHdr, Function.update_self] at hneeds
      exact hneeds, hg.inv⟩
  have hi₁ : Inv c (m.setHdr h { m.msghdrs h with msgType })
      (.sndType ix args h :: (m.setHdr h { m.msghdrs h with msgType }).tasks) L := hi.setType rfl msgType
  simp only [Task.resume] at hresume
  split at hresume
  · exact .inl (sndFails_spec hi rfl rfl hresume)
  · next hok =>
    split at hresume
    · exact .inl (hgone (sndFails_spec hi₁ rfl rfl hresume))
    · next htype =>
      refine .inr ⟨⟨by simpa using hok, by omega⟩, _, rfl, ?_⟩
      rw [hspot] at hresume
      obtain ⟨k, hpos, hk, hm', hi'⟩ | ⟨hzero, hk, hdone⟩ := sndNext_spec hi₁ rfl rfl hresume
      · exact .inl ⟨k, hpos, hk, hm', hi'⟩
      · exact .inr ⟨hzero, hk, hdone.imp_left hgone⟩

theorem resume_sndBody {k : Nat} {failed : Bool} {msgType : Int} (hi : Inv c m (.sndBody ix msgsz k h :: m.tasks) L)
    (hresume : (Task.sndBody ix msgsz k h).resume c failed msgType m = some (r, m')) :
    Gone c m L h m' ∨ failed = false ∧
      ((∃ k', 0 < msgsz - min msgsz c.msgssz ∧ m.msgmaps k = some k' ∧
          m' = m.sleep (.sndBody ix (msgsz - min msgsz c.msgssz) k' h) ∧ Inv c m' m'.tasks L) ∨
        msgsz - min msgsz c.msgssz = 0 ∧ m.msgmaps k = none ∧ Sent c m L ix h m') := by
  simp only [Task.resume] at hresume
  split at hresume
  · exact .inl (sndFails_spec hi rfl rfl hresume)
  · next hok =>
    obtain hgo | ⟨hzero, hk, hgone | hsent⟩ := sndNext_spec hi rfl rfl hresume
    · exact .inr ⟨by simpa using hok, .inl hgo⟩
    · exact .inl hgone
    · exact .inr ⟨by simpa using hok, .inr ⟨hzero, hk, hsent⟩⟩

theorem resume_rcvWaits {args : RcvArgs} {failed : Bool} {msgType : Int}
    (hi : Inv c m (.rcvWaits ix args :: m.tasks) L)
    (hresume : (Task.rcvWaits ix args).resume c failed msgType m = some (r, m')) :
    (r ≠ .waits ∧ Waited c m L [] m') ∨ (m.msqids ix).msgQbytes ≠ 0 ∧ rcvTry c ix args m = some (r, m') ∧
      Received c m L ix args r m' := by
  have hi₁ : Inv c m m.tasks L := hi.tail rfl rfl
  have hfails : ∀ e, some (.error e, m) = some (r, m') → r ≠ .waits ∧ Waited c m L [] m' := fun e heq => by
    obtain ⟨rfl, rfl⟩ := Prod.mk.inj (Option.some.inj heq)
    exact ⟨by simp, hi₁.waited⟩
  simp only [Task.resume] at hresume
  split at hresume
  · exact .inl (hfails _ hresume)
  · split at hresume
    · exact .inl (hfails _ hresume)
    · next hthere =>
      have hne := (not_or.mp hthere).1
      exact .inr ⟨hne, hresume, rcvTry_spec hi₁ (hi.valid _ List.mem_cons_self) hne hresume⟩

theorem resume_rcvType {failed : Bool} {msgType : Int} (hi : Inv c m (.rcvType ix msgsz h :: m.tasks) L)
    (hresume : (Task.rcvType ix msgsz h).resume c failed msgType m = some (r, m')) :
    (r ≠ .done ∧ Gone c m L h m') ∨ failed = false ∧
      ((∃ k, 0 < msgsz ∧ (m.msghdrs h).msgSpot = some k ∧ r = .waits ∧ m' = m.sleep (.rcvBody ix msgsz 0 k h) ∧
          Inv c m' m'.tasks L) ∨ msgsz ≤ 0 ∧ r = .done ∧ Gone c m L h m') := by
  simp only [Task.resume] at hresume
  split at hresume
  · obtain ⟨m₁, hfree, hm₁⟩ := Option.map_eq_some_iff.mp hresume
    obtain ⟨rfl, rfl⟩ := Prod.mk.inj hm₁
    exact .inl ⟨by simp, hi.freed rfl rfl hfree⟩
  · next hok => exact .inr ⟨by simpa using hok, rcvNext_spec hi rfl rfl rfl rfl hresume⟩

theorem resume_rcvBody {k : Nat} {failed : Bool} {msgType : Int}
    (hi : Inv c m (.rcvBody ix msgsz len k h :: m.tasks) L)
    (hresume : (Task.rcvBody ix msgsz len k h).resume c failed msgType m = some (r, m')) :
    (r ≠ .done ∧ Gone c m L h m') ∨ failed = false ∧
      ((∃ k', len + c.msgssz < msgsz ∧ m.msgmaps k = some k' ∧ r = .waits ∧
          m' = m.sleep (.rcvBody ix msgsz (len + c.msgssz) k' h) ∧ Inv c m' m'.tasks L) ∨
        msgsz ≤ len + c.msgssz ∧ r = .done ∧ Gone c m L h m') := by
  simp only [Task.resume] at hresume
  split at hresume
  · obtain ⟨m₁, hfree, hm₁⟩ := Option.map_eq_some_iff.mp hresume
    obtain ⟨rfl, rfl⟩ := Prod.mk.inj hm₁
    exact .inl ⟨by simp, hi.freed rfl rfl hfree⟩
  · next hok => exact .inr ⟨by simpa using hok, rcvNext_spec hi rfl rfl rfl rfl hresume⟩

theorem kept_received {args : RcvArgs} (h : Received c m L ix args r m') (hi : Inv c m m.tasks L) : Kept c m' := by
  cases h with
  | nothing new _ _ hw => exact ⟨_, hw.inv⟩
  | tooBig s l h _ _ _ _ _ hm' => exact ⟨L, hm' ▸ hi⟩
  | takes s l h _ ht => exact ⟨_, ht.inv⟩

theorem Gone.kept (h : Gone c m L ix m') : Kept c m' :=
  let ⟨_, _, hi⟩ := h.inv
  ⟨_, hi⟩

theorem resume_kept {failed : Bool} {msgType : Int} (hi : Inv c m (t :: m.tasks) L)
    (hresume : t.resume c failed msgType m = some (r, m')) : Kept c m' := by
  cases t with
  | sndWaits ix args weOwnIt =>
    obtain ⟨new, hw⟩ | ⟨hdr, L', ha⟩ := resume_sndWaits hi hresume
    · exact ⟨_, hw.inv⟩
    · exact ⟨_, ha.inv⟩
  | sndType ix args h =>
    obtain hg | ⟨-, m₁, rfl, ⟨k, -, -, -, hi'⟩ | ⟨-, -, hg | hs⟩⟩ := resume_sndType hi hresume
    · exact hg.kept
    · exact ⟨_, hi'⟩
    · exact hg.kept
    · exact ⟨_, hs.inv⟩
  | sndBody ix msgsz next h =>
    obtain hg | ⟨-, ⟨k, -, -, -, hi'⟩ | ⟨-, -, hs⟩⟩ := resume_sndBody hi hresume
    · exact hg.kept
    · exact ⟨_, hi'⟩
    · exact ⟨_, hs.inv⟩
  | rcvWaits ix args =>
    obtain ⟨-, hw⟩ | ⟨-, -, hr⟩ := resume_rcvWaits hi hresume
    · exact ⟨_, hw.inv⟩
    · exact kept_received hr (hi.tail rfl rfl)
  | rcvType ix msgsz h =>
    obtain ⟨-, hg⟩ | ⟨-, ⟨k, -, -, -, -, hi'⟩ | ⟨-, -, hg⟩⟩ := resume_rcvType hi hresume
    · exact hg.kept
    · exact ⟨_, hi'⟩
    · exact hg.kept
  | rcvBody ix msgsz len next h =>
    obtain ⟨-, hg⟩ | ⟨-, ⟨k, -, -, -, -, hi'⟩ | ⟨-, -, hg⟩⟩ := resume_rcvBody hi hresume
    · exact hg.kept
    · exact ⟨_, hi'⟩
    · exact hg.kept

theorem Inv.running (hi : Inv c m m.tasks L) {i : Nat} (ht : m.tasks[i]? = some t) :
    Inv c { m with tasks := m.tasks.eraseIdx i } (t :: m.tasks.eraseIdx i) L := by
  obtain ⟨hlt, rfl⟩ := List.getElem?_eq_some_iff.mp ht
  exact (hi.setTasks (m.tasks.eraseIdx i)).perm (List.getElem_cons_eraseIdx_perm hlt).symm

theorem msgsnd_spec {msqid : Word32} {args : SndArgs} {ipcperm : Option Errno} (hi : Inv c m m.tasks L)
    (hsnd : msgsnd c msqid args ipcperm m = some (r, m')) :
    (∃ new, Waited c m L new m') ∨ ∃ hdr L', Alloc c m L (ipcidToIx msqid) args hdr L' m' := by
  unfold msgsnd at hsnd
  dsimp only at hsnd
  split at hsnd
  · exact .inl ⟨[], (Prod.mk.inj (Option.some.inj hsnd)).2 ▸ hi.waited⟩
  · next hthere =>
    simp only [not_or, not_le] at hthere
    cases ipcperm with
    | some e => exact .inl ⟨[], (Prod.mk.inj (Option.some.inj hsnd)).2 ▸ hi.waited⟩
    | none => exact sndTry_spec hi hthere.1 hsnd

theorem msgrcv_spec {msqid : Word32} {args : RcvArgs} {ipcperm : Option Errno} (hi : Inv c m m.tasks L)
    (hrcv : msgrcv c msqid args ipcperm m = some (r, m')) :
    (r ≠ .waits ∧ Waited c m L [] m') ∨ ipcidToIx msqid < c.msgmni ∧ (m.msqids (ipcidToIx msqid)).msgQbytes ≠ 0 ∧
      Received c m L (ipcidToIx msqid) { args with seq := ipcidToSeq msqid } r m' := by
  have hfails : ∀ e, some (.error e, m) = some (r, m') → r ≠ .waits ∧ Waited c m L [] m' := fun e heq => by
    obtain ⟨rfl, rfl⟩ := Prod.mk.inj (Option.some.inj heq)
    exact ⟨by simp, hi.waited⟩
  unfold msgrcv at hrcv
  dsimp only at hrcv
  split at hrcv
  · exact .inl (hfails _ hrcv)
  · next hthere =>
    simp only [not_or, not_le] at hthere
    cases ipcperm with
    | some e => exact .inl (hfails _ hrcv)
    | none => exact .inr ⟨hthere.1, hthere.2.1, rcvTry_spec hi hthere.1 hthere.2.1 hrcv⟩

theorem step_kept {call : MsgCall} (hk : Kept c m) (hstep : m.step c call = some (r, m')) : Kept c m' := by
  obtain ⟨L, hi⟩ := hk
  cases call with
  | msgget key creat excl ipcperm => exact ⟨L, (msgget_spec hi (Option.some.inj hstep)).inv⟩
  | rmid msqid ipcperm =>
    obtain rfl | ⟨-, hc⟩ := msgctlRmid_spec hi hstep
    · exact ⟨L, hi⟩
    · obtain ⟨free, freeSegs, hi'⟩ := hc.inv
      exact ⟨_, hi'⟩
  | msgsnd msqid args ipcperm =>
    obtain ⟨new, hw⟩ | ⟨hdr, L', ha⟩ := msgsnd_spec hi hstep
    · exact ⟨_, hw.inv⟩
    · exact ⟨_, ha.inv⟩
  | msgrcv msqid args ipcperm =>
    obtain ⟨-, hw⟩ | ⟨-, -, hr⟩ := msgrcv_spec hi hstep
    · exact ⟨_, hw.inv⟩
    · exact kept_received hr hi
  | resume i failed msgType =>
    simp only [Messages.step] at hstep
    cases ht : m.tasks[i]? with
    | none =>
      rw [ht] at hstep
      exact (Prod.mk.inj (Option.some.inj hstep)).2 ▸ ⟨L, hi⟩
    | some t =>
      rw [ht] at hstep
      exact resume_kept (hi.running ht) hstep

/-- No header and no segment is ever lost or in two places, and the counts are right: the headers are those on
the free list, those on the queues, and those that a sender or a receiver has. -/
theorem storage_conserved (hrun : Messages.Reached c m) :
    ∃ L, Conserved c m (m.tasks.filterMap Task.holds) L := by
  have hk : Kept c m := by
    refine hrun.invariant ?_ ?_
    · rintro m rfl
      exact kept_msginit c
    · intro m call m' hk _ hstep
      obtain ⟨⟨r, m₁⟩, hcall, rfl⟩ := Option.map_eq_some_iff.mp hstep
      exact step_kept hk hcall
  obtain ⟨L, hi⟩ := hk
  exact ⟨L, hi.toConserved⟩

def oneMsginfo : Msginfo where
  msgmni := 1
  msgmnb := 8
  msgtql := 1
  msgssz := 8
  msgseg := 1
  msgssz_eq := ⟨3, by decide, by decide, rfl⟩
  msgseg_pos := by decide
  msgseg_le := by decide
  msgtql_pos := by decide
  msgmnb_lt := by decide

def whileReceiving : List MsgCall :=
  [.msgget 0 true false none, .msgsnd 0x10000 { msgsz := 1 } none, .resume 0 false 1, .resume 0 false 1,
    .msgrcv 0x10000 { seq := 0, msgsz := 8 } none]

def Messages.calls (c : Msginfo) : List MsgCall → Messages → Option Messages
  | [], m => some m
  | call :: rest, m => (m.step c call).bind fun rm => rm.2.calls c rest

theorem reached_of_calls {l : List MsgCall} (hm : m.Reached c) (hcalls : m.calls c l = some m') :
    m'.Reached c := by
  induction l generalizing m with
  | nil =>
    obtain rfl : m = m' := Option.some.inj hcalls
    exact hm
  | cons call l ih =>
    obtain ⟨⟨r, m₁⟩, hstep, hrest⟩ := Option.bind_eq_some_iff.mp hcalls
    exact ih (hm.call call trivial (Option.map_eq_some_iff.mpr ⟨(r, m₁), hstep, rfl⟩)) hrest

theorem whileReceiving_facts : ∃ m, (msginit oneMsginfo).calls oneMsginfo whileReceiving = some m ∧
    m.freeMsghdrs = none ∧ (m.msqids 0).msgFirst = none ∧ (m.msqids 0).msgQbytes = 8 ∧
    m.tasks = [.rcvType 0 1 0] :=
  ⟨_, rfl, rfl, rfl, rfl, rfl⟩

theorem storage_conserved_whileReceiving : ∃ m, (msginit oneMsginfo).calls oneMsginfo whileReceiving = some m ∧
    ∃ L, Conserved oneMsginfo m [0] L := by
  obtain ⟨m, hcalls, -, -, -, htasks⟩ := whileReceiving_facts
  obtain ⟨L, hL⟩ := storage_conserved (reached_of_calls (Runs.start rfl) hcalls)
  rw [htasks] at hL
  exact ⟨m, hcalls, L, hL⟩

/-- The header of a message that is being received is not free, on a queue, or with a sender. -/
theorem senders_not_conserved : ¬ ∀ c m, Messages.Reached c m →
    ∃ L, Conserved c m (m.tasks.filterMap Task.sends) L := by
  intro hall
  obtain ⟨m, hcalls, hfree, hfirst, hqbytes, htasks⟩ := whileReceiving_facts
  obtain ⟨L, hL⟩ := hall oneMsginfo m (reached_of_calls (Runs.start rfl) hcalls)
  have hLfree : L.free = [] := hL.stored.freeLinked.eq_nil hfree
  have hq := hL.queued 0 (by decide) (by rw [hqbytes]; decide)
  have hLqueue : L.queue 0 = [] := hq.linked.eq_nil hfirst
  have hhdrs := hL.stored.hdrs.length_eq
  rw [hLfree, htasks] at hhdrs
  simp [oneMsginfo, hLqueue, List.filterMap_cons, Task.sends] at hhdrs

end NetBSD.Sysv
