import NetBSD.Sysv.Msg

/-!
# The messages on a queue

What `msgsnd` and `msgrcv` do to the links: a message goes to the end, and one leaves from the front or from
anywhere.
-/

namespace NetBSD.Sysv

open Function (update)
open Lib (Linked)

structure Queued (q : MsqidDs) (hdrs : Nat → Msg) (l : List Nat) : Prop where
  linked : Linked (fun h => (hdrs h).msgNext) q.msgFirst l none
  last : q.msgLast = l.getLast?
  qnum : q.msgQnum = l.length
  cbytes : q.msgCbytes = (l.map fun h => (hdrs h).msgTs).sum
  fits : q.msgCbytes ≤ q.msgQbytes

structure Relinked (ix : Nat) (S : List Nat) (m m' : Messages) : Prop where
  msgmaps : m'.msgmaps = m.msgmaps
  freeMsgmaps : m'.freeMsgmaps = m.freeMsgmaps
  nfreeMsgmaps : m'.nfreeMsgmaps = m.nfreeMsgmaps
  freeMsghdrs : m'.freeMsghdrs = m.freeMsghdrs
  tasks : m'.tasks = m.tasks
  others : ∀ a, a ∉ S → m'.msghdrs a = m.msghdrs a
  ts : ∀ a, (m'.msghdrs a).msgTs = (m.msghdrs a).msgTs
  spot : ∀ a, (m'.msghdrs a).msgSpot = (m.msghdrs a).msgSpot
  type : ∀ a, (m'.msghdrs a).msgType = (m.msghdrs a).msgType
  queues : ∀ j, j ≠ ix → m'.msqids j = m.msqids j
  locked : (m'.msqids ix).locked = (m.msqids ix).locked
  qbytes : (m'.msqids ix).msgQbytes = (m.msqids ix).msgQbytes

structure Unlinked (ix : Nat) (l : List Nat) (m m' : Messages) : Prop extends Relinked ix l m m' where
  linked : Linked (fun h => (m'.msghdrs h).msgNext) (m'.msqids ix).msgFirst l none
  last : (m'.msqids ix).msgLast = l.getLast?
  cbytes : (m'.msqids ix).msgCbytes = (m.msqids ix).msgCbytes
  qnum : (m'.msqids ix).msgQnum = (m.msqids ix).msgQnum

variable {m m' : Messages} {q : MsqidDs} {hdrs hdrs' : Nat → Msg} {ix h p : Nat} {l s t : List Nat}
  {args : RcvArgs}

theorem Queued.congr (hq : Queued q hdrs l) (hsame : ∀ h ∈ l, hdrs' h = hdrs h) : Queued q hdrs' l where
  linked := hq.linked.congr fun h hh => congrArg Msg.msgNext (hsame h hh)
  last := hq.last
  qnum := hq.qnum
  cbytes := by
    rw [List.map_congr_left fun h hh => congrArg Msg.msgTs (hsame h hh)]
    exact hq.cbytes
  fits := hq.fits

theorem relinked_setQueue (ix : Nat) (S : List Nat) (hlocked : q.locked = (m.msqids ix).locked)
    (hqbytes : q.msgQbytes = (m.msqids ix).msgQbytes) : Relinked ix S m (m.setQueue ix q) where
  msgmaps := rfl
  freeMsgmaps := rfl
  nfreeMsgmaps := rfl
  freeMsghdrs := rfl
  tasks := rfl
  others _ _ := rfl
  ts _ := rfl
  spot _ := rfl
  type _ := rfl
  queues j hj := by simp [Messages.setQueue, hj]
  locked := by simpa [Messages.setQueue] using hlocked
  qbytes := by simpa [Messages.setQueue] using hqbytes

theorem relinked_setHdr {S : List Nat} (hp : p ∈ S) (next : Option Nat) :
    Relinked ix S m (m.setHdr p { m.msghdrs p with msgNext := next }) where
  msgmaps := rfl
  freeMsgmaps := rfl
  nfreeMsgmaps := rfl
  freeMsghdrs := rfl
  tasks := rfl
  others a ha := by simp [Messages.setHdr, show a ≠ p from fun h => ha (h ▸ hp)]
  ts a := by by_cases hap : a = p <;> simp [Messages.setHdr, hap]
  spot a := by by_cases hap : a = p <;> simp [Messages.setHdr, hap]
  type a := by by_cases hap : a = p <;> simp [Messages.setHdr, hap]
  queues _ _ := rfl
  locked := rfl
  qbytes := rfl

theorem Relinked.trans {S : List Nat} {m'' : Messages} (h₁ : Relinked ix S m m') (h₂ : Relinked ix S m' m'') :
    Relinked ix S m m'' where
  msgmaps := h₂.msgmaps.trans h₁.msgmaps
  freeMsgmaps := h₂.freeMsgmaps.trans h₁.freeMsgmaps
  nfreeMsgmaps := h₂.nfreeMsgmaps.trans h₁.nfreeMsgmaps
  freeMsghdrs := h₂.freeMsghdrs.trans h₁.freeMsghdrs
  tasks := h₂.tasks.trans h₁.tasks
  others a ha := (h₂.others a ha).trans (h₁.others a ha)
  ts a := (h₂.ts a).trans (h₁.ts a)
  spot a := (h₂.spot a).trans (h₁.spot a)
  type a := (h₂.type a).trans (h₁.type a)
  queues j hj := (h₂.queues j hj).trans (h₁.queues j hj)
  locked := h₂.locked.trans h₁.locked
  qbytes := h₂.qbytes.trans h₁.qbytes

theorem enqueue_spec (hq : Queued (m.msqids ix) m.msghdrs l) (hh : h ∉ l)
    (hfits : (m.msqids ix).msgCbytes + (m.msghdrs h).msgTs ≤ (m.msqids ix).msgQbytes)
    (henq : enqueue ix h m = some m') :
    Relinked ix (h :: l) m m' ∧ Queued (m'.msqids ix) m'.msghdrs (l ++ [h]) := by
  have hhead := hq.linked.eq_head?
  unfold enqueue at henq
  dsimp only at henq
  cases l with
  | nil =>
    rw [hhead] at henq
    obtain rfl := Option.some.inj henq
    have hcbytes := hq.cbytes
    have hqnum := hq.qnum
    refine ⟨(relinked_setHdr List.mem_cons_self none).trans (relinked_setQueue _ _ rfl rfl), ?_⟩
    simp only [Messages.setQueue, Messages.setHdr, Function.update_self]
    exact ⟨by simp, rfl, by simpa using hqnum, by simpa using hcbytes, hfits⟩
  | cons a l =>
    obtain ⟨s, last, hsplit⟩ := (List.eq_nil_or_concat (a :: l)).resolve_left (List.cons_ne_nil a l)
    rw [List.concat_eq_append] at hsplit
    have hlast : (m.msqids ix).msgLast = some last := by rw [hq.last, hsplit, List.getLast?_concat]
    rw [hhead, hlast] at henq
    obtain rfl := Option.some.inj henq
    have hlastmem : last ∈ a :: l := hsplit ▸ List.mem_append_right s List.mem_cons_self
    have hne : h ≠ last := fun heq => hh (heq ▸ hlastmem)
    have hnodup : (s ++ [last]).Nodup := hsplit ▸ hq.linked.nodup
    have hcbytes := hq.cbytes
    have hqnum := hq.qnum
    have hlinked := hq.linked
    rw [hhead, hsplit] at hlinked
    obtain ⟨hs, -⟩ := Lib.linked_concat.mp hlinked
    refine ⟨(relinked_setHdr (List.mem_cons_of_mem h hlastmem) (some h)).trans
      ((relinked_setHdr List.mem_cons_self none).trans (relinked_setQueue _ _ rfl rfl)), ?_⟩
    rw [hsplit] at hh hcbytes hqnum ⊢
    have hts : ∀ b, ((update (update m.msghdrs last { m.msghdrs last with msgNext := some h }) h
        { update m.msghdrs last { m.msghdrs last with msgNext := some h } h with msgNext := none }) b).msgTs =
          (m.msghdrs b).msgTs := fun b => by
      by_cases hbh : b = h <;> by_cases hbl : b = last <;> simp_all
    simp only [Messages.setQueue, Messages.setHdr, Function.update_self]
    exact {
      linked := by
        refine Lib.linked_concat.mpr ⟨Lib.linked_concat.mpr ⟨hs.congr fun b hb => ?_, ?_⟩, by simp⟩
        · have hbl : b ≠ last := fun heq =>
            (List.nodup_append.mp hnodup).2.2 b hb last List.mem_cons_self heq
          have hbh : b ≠ h := fun heq => hh (heq ▸ List.mem_append_left _ hb)
          simp [hbl, hbh]
        · simp [hne.symm]
      last := by simp
      qnum := by
        simp only [List.length_append, List.length_cons, List.length_nil] at hqnum ⊢
        omega
      cbytes := by
        simp only [hts, List.map_append, List.sum_append, List.map_cons, List.map_nil] at hcbytes ⊢
        simp only [List.sum_cons, List.sum_nil] at hcbytes ⊢
        omega
      fits := hfits }

theorem findType_spec {fuel : Nat} {previous p previous' : Option Nat} {h : Nat}
    (hl : Linked (fun h => (m.msghdrs h).msgNext) p l none)
    (hfind : findType args m fuel previous p = some (previous', some h)) :
    ∃ s t, l = s ++ h :: t ∧ previous' = s.getLast?.or previous ∧ args.takes (m.msghdrs h) = true ∧
      ∀ a ∈ s, args.takes (m.msghdrs a) = false := by
  induction fuel generalizing previous p l with
  | zero => cases p <;> simp [findType] at hfind
  | succ fuel ih =>
    cases p with
    | none => simp [findType] at hfind
    | some a =>
      cases l with
      | nil => cases hl
      | cons b l =>
        obtain rfl : a = b := Option.some.inj hl.1
        unfold findType at hfind
        split at hfind
        · next htakes =>
          obtain ⟨rfl, rfl⟩ : previous = previous' ∧ a = h := by simpa using hfind
          exact ⟨[], l, rfl, by simp, htakes, by simp⟩
        · next hnot =>
          obtain ⟨s, t, rfl, hprev, htakes, hs⟩ := ih hl.2 hfind
          refine ⟨a :: s, t, rfl, ?_, htakes, List.forall_mem_cons.mpr ⟨by simpa using hnot, hs⟩⟩
          rw [hprev, List.getLast?_cons]
          cases s.getLast? <;> simp

theorem findType_none {fuel : Nat} {previous p previous' : Option Nat}
    (hl : Linked (fun h => (m.msghdrs h).msgNext) p l none)
    (hfind : findType args m fuel previous p = some (previous', none)) :
    ∀ a ∈ l, args.takes (m.msghdrs a) = false := by
  induction fuel generalizing previous p l with
  | zero =>
    cases p with
    | none =>
      cases l with
      | nil => simp
      | cons b l => cases hl.1
    | some a => simp [findType] at hfind
  | succ fuel ih =>
    cases p with
    | none =>
      cases l with
      | nil => simp
      | cons b l => cases hl.1
    | some a =>
      cases l with
      | nil => cases hl
      | cons b l =>
        obtain rfl : a = b := Option.some.inj hl.1
        unfold findType at hfind
        split at hfind
        · simp at hfind
        · next hnot => exact List.forall_mem_cons.mpr ⟨by simpa using hnot, ih hl.2 hfind⟩

theorem unlinkFirst_spec (hq : Queued (m.msqids ix) m.msghdrs (h :: l))
    (hun : unlinkFirst ix h m = some m') : Unlinked ix l m m' := by
  have hnodup := List.nodup_cons.mp hq.linked.nodup
  unfold unlinkFirst at hun
  dsimp only at hun
  split at hun
  · next heq =>
    obtain rfl := Option.some.inj hun
    -- the first message is the last one
    have hnil : l = [] := by
      rw [hq.linked.1, hq.last] at heq
      cases l with
      | nil => rfl
      | cons b l =>
        rw [List.getLast?_cons_cons] at heq
        exact absurd (List.mem_of_getLast? heq.symm) hnodup.1
    subst hnil
    exact {
      toRelinked := relinked_setQueue _ _ rfl rfl
      linked := by simp [Messages.setQueue]
      last := by simp [Messages.setQueue]
      cbytes := by simp [Messages.setQueue]
      qnum := by simp [Messages.setQueue] }
  · next hne =>
    cases hnext : (m.msghdrs h).msgNext with
    | none => simp [hnext] at hun
    | some next =>
      rw [hnext] at hun
      obtain rfl := Option.some.inj hun
      have hlinked : Linked (fun h => (m.msghdrs h).msgNext) (m.msghdrs h).msgNext l none := hq.linked.2
      have hlast := hq.last
      rw [hnext] at hlinked
      cases l with
      | nil => cases hlinked
      | cons b l =>
        exact {
          toRelinked := relinked_setQueue _ _ rfl rfl
          linked := by simpa [Messages.setQueue] using hlinked
          last := by simpa [Messages.setQueue, List.getLast?_cons_cons] using hlast
          cbytes := by simp [Messages.setQueue]
          qnum := by simp [Messages.setQueue] }

theorem unlinkType_spec (hq : Queued (m.msqids ix) m.msghdrs (s ++ h :: t)) :
    Unlinked ix (s ++ t) m (unlinkType ix s.getLast? h m) := by
  have hlinked := hq.linked
  have hlast := hq.last
  have hnodup := hlinked.nodup
  have hht : h ∉ t := (List.nodup_cons.mp (List.nodup_append.mp hnodup).2.1).1
  have hend : some h = (m.msqids ix).msgLast ↔ t = [] := by
    rw [hlast, List.getLast?_append]
    cases t with
    | nil => simp
    | cons b t =>
      rw [List.getLast?_cons_cons, List.getLast?_cons]
      refine iff_of_false (fun heq => hht ?_) (List.cons_ne_nil b t)
      rw [Option.some_or, ← List.getLast?_cons] at heq
      exact List.mem_of_getLast? heq.symm
  unfold unlinkType
  cases hs : s.getLast? with
  | none =>
    obtain rfl := List.getLast?_eq_none_iff.mp hs
    have hrest : Linked (fun h => (m.msghdrs h).msgNext) (m.msghdrs h).msgNext t none := hlinked.2
    dsimp only
    split
    · next heq =>
      obtain rfl := hend.mp heq
      exact {
        toRelinked := relinked_setQueue _ _ rfl rfl
        linked := by simp [Messages.setQueue]
        last := by simp [Messages.setQueue]
        cbytes := by simp [Messages.setQueue]
        qnum := by simp [Messages.setQueue] }
    · next hne =>
      exact {
        toRelinked := relinked_setQueue _ _ rfl rfl
        linked := by simpa [Messages.setQueue] using hrest
        last := by
          cases t with
          | nil => exact absurd (hend.mpr rfl) hne
          | cons b t => simpa [Messages.setQueue] using hlast
        cbytes := by simp [Messages.setQueue]
        qnum := by simp [Messages.setQueue] }
  | some p =>
    obtain ⟨s, rfl⟩ := List.getLast?_eq_some_iff.mp hs
    obtain ⟨-, hst, hdisj⟩ := List.nodup_append.mp hnodup
    obtain ⟨r, hsp, htail⟩ := Lib.linked_append.mp hlinked
    obtain ⟨hsl, -⟩ := Lib.linked_concat.mp hsp
    have hps : p ∉ s := fun hp =>
      (List.nodup_append.mp (List.nodup_append.mp hnodup).1).2.2 p hp p List.mem_cons_self rfl
    have hpt : p ∉ t := fun hp =>
      hdisj p (List.mem_append_right s List.mem_cons_self) p (List.mem_cons_of_mem h hp) rfl
    have hrest : Linked (fun h => (m.msghdrs h).msgNext) (m.msghdrs h).msgNext t none := htail.2
    have hrelinked : Linked
        (fun a => (update m.msghdrs p { m.msghdrs p with msgNext := (m.msghdrs h).msgNext } a).msgNext)
        (m.msqids ix).msgFirst (s ++ [p] ++ t) none := by
      refine Lib.linked_append.mpr ⟨(m.msghdrs h).msgNext, Lib.linked_concat.mpr ⟨?_, by simp⟩, ?_⟩
      · refine hsl.congr fun a ha => ?_
        simp [ne_of_mem_of_not_mem ha hps]
      · refine hrest.congr fun a ha => ?_
        simp [ne_of_mem_of_not_mem ha hpt]
    have hmem : p ∈ s ++ [p] ++ t := by simp
    dsimp only
    split
    · next heq =>
      obtain rfl := hend.mp heq
      exact {
        toRelinked := (relinked_setHdr hmem _).trans (relinked_setQueue _ _ rfl rfl)
        linked := by simpa [Messages.setQueue, Messages.setHdr] using hrelinked
        last := by simp [Messages.setQueue]
        cbytes := by simp [Messages.setQueue, Messages.setHdr]
        qnum := by simp [Messages.setQueue, Messages.setHdr] }
    · next hne =>
      exact {
        toRelinked := relinked_setHdr hmem _
        linked := hrelinked
        last := by
          cases t with
          | nil => exact absurd (hend.mpr rfl) hne
          | cons b t => simpa [Messages.setHdr, List.getLast?_append] using hlast
        cbytes := rfl
        qnum := rfl }

end NetBSD.Sysv
