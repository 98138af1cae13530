import NetBSD.Sysv.Conserve

/-!
# Which message is received

The messages on a queue stand in the order in which they were put there, so that the first one that a receiver
comes to is the oldest that it takes.
-/

namespace NetBSD.Sysv

open Function (update)
open Lib (Linked Runs)

def followNext (hdrs : Nat → Msg) : Nat → Option Nat → List Nat
  | 0, _ => []
  | _ + 1, none => []
  | fuel + 1, some h => h :: followNext hdrs fuel (hdrs h).msgNext

def Messages.queue (c : Msginfo) (m : Messages) (ix : Nat) : List Nat :=
  if (m.msqids ix).msgQbytes = 0 then [] else followNext m.msghdrs c.msgtql (m.msqids ix).msgFirst

def Messages.onQueue (c : Msginfo) (m : Messages) (h : Nat) : Bool :=
  (List.range c.msgmni).any fun ix => (m.queue c ix).contains h

structure Aged where
  m : Messages
  since : Nat → Nat := fun _ => 0
  now : Nat := 0

def Aged.step (c : Msginfo) (s : Aged) (call : MsgCall) : Option Aged :=
  (s.m.step c call).map fun r =>
    { m := r.2
      since := fun h => if r.2.onQueue c h ∧ ¬ s.m.onQueue c h then s.now else s.since h
      now := s.now + 1 }

def Aged.Reached (c : Msginfo) : Aged → Prop := Runs (· = { m := msginit c }) (Aged.step c) fun _ _ => True

inductive Receives (c : Msginfo) (m : Messages) (ix : Nat) : RcvArgs → MsgCall → Prop where
  | call (msqid : Word32) (args : RcvArgs) : ipcidToIx msqid = ix → ix < c.msgmni →
      (m.msqids ix).msgQbytes ≠ 0 → (m.msqids ix).seq = ipcidToSeq msqid →
      Receives c m ix { args with seq := ipcidToSeq msqid } (.msgrcv msqid args none)
  | woken (i : Nat) (args : RcvArgs) (msgType : Int) : m.tasks[i]? = some (.rcvWaits ix args) →
      (m.msqids ix).msgQbytes ≠ 0 → (m.msqids ix).seq = args.seq → Receives c m ix args (.resume i false msgType)

def Wanted (msgtyp type : Int) : Prop :=
  msgtyp = 0 ∨ 0 < msgtyp ∧ type = msgtyp ∨ msgtyp < 0 ∧ type ≤ -msgtyp

structure Oldest (c : Msginfo) (s : Aged) (ix : Nat) (msgtyp : Int) (h : Nat) : Prop where
  queued : h ∈ s.m.queue c ix
  wanted : Wanted msgtyp (s.m.msghdrs h).msgType
  first : ∀ a ∈ s.m.queue c ix, Wanted msgtyp (s.m.msghdrs a).msgType → s.since h ≤ s.since a

variable {c : Msginfo} {m m' : Messages} {s s' : Aged} {ts : List Task} {t : Task} {L L' : Layout} {h ix : Nat}
  {since since' : Nat → Nat} {now : Nat} {r : Reply} {l : List Nat}

theorem followNext_eq {fuel : Nat} {p : Option Nat} (hl : Linked (fun h => (m.msghdrs h).msgNext) p l none)
    (hfuel : l.length ≤ fuel) : followNext m.msghdrs fuel p = l := by
  induction l generalizing p fuel with
  | nil =>
    obtain rfl : p = none := hl
    cases fuel <;> rfl
  | cons a l ih =>
    obtain ⟨rfl, hrest⟩ := hl
    cases fuel with
    | zero => simp at hfuel
    | succ fuel =>
      rw [followNext, ih hrest (Nat.le_of_succ_le_succ hfuel)]

theorem Inv.queue_length (hi : Inv c m ts L) (hix : ix < c.msgmni) : (L.queue ix).length ≤ c.msgtql := by
  obtain ⟨s, t, hst⟩ := List.append_of_mem (List.mem_range.mpr hix)
  have hlength := hi.stored.hdrs.length_eq
  rw [List.length_range, hst] at hlength
  simp only [List.flatMap_append, List.flatMap_cons, List.length_append] at hlength
  omega

theorem Inv.queue_eq (hi : Inv c m ts L) (hix : ix < c.msgmni) : m.queue c ix = L.queue ix := by
  unfold Messages.queue
  split
  · next hzero => exact (hi.removed ix hix hzero).symm
  · next hne => exact followNext_eq (hi.queued ix hix hne).linked (hi.queue_length hix)

theorem Inv.onQueue_iff (hi : Inv c m ts L) : m.onQueue c h = true ↔ ∃ ix < c.msgmni, h ∈ L.queue ix := by
  unfold Messages.onQueue
  rw [List.any_eq_true]
  constructor
  · rintro ⟨ix, hix, hh⟩
    have hix' := List.mem_range.mp hix
    rw [hi.queue_eq hix'] at hh
    exact ⟨ix, hix', List.contains_iff_mem.mp hh⟩
  · rintro ⟨ix, hix, hh⟩
    refine ⟨ix, List.mem_range.mpr hix, ?_⟩
    rw [hi.queue_eq hix]
    exact List.contains_iff_mem.mpr hh

def Task.body : Task → Option Nat
  | .sndBody _ _ _ h => some h
  | _ => none

theorem Task.holds_of_body (ht : t.body = some h) : t.holds = some h := by
  cases t <;> simp_all [body, holds]

structure Ordered (c : Msginfo) (m : Messages) (ts : List Task) (L : Layout) (since : Nat → Nat) (now : Nat) :
    Prop where
  sorted : ∀ j < c.msgmni, (L.queue j).Pairwise fun a b => since a < since b
  past : ∀ j < c.msgmni, ∀ a ∈ L.queue j, since a < now
  typed : ∀ j < c.msgmni, ∀ a ∈ L.queue j, 1 ≤ (m.msghdrs a).msgType
  sending : ∀ t ∈ ts, ∀ h, t.body = some h → 1 ≤ (m.msghdrs h).msgType

structure Requeued (c : Msginfo) (m : Messages) (L : Layout) (m' : Messages) (L' : Layout) : Prop where
  queues : (∀ j < c.msgmni, (L'.queue j).Sublist (L.queue j)) ∨
    ∃ ix < c.msgmni, ∃ h, (∀ j < c.msgmni, h ∉ L.queue j) ∧ 1 ≤ (m'.msghdrs h).msgType ∧
      L'.queue = update L.queue ix (L.queue ix ++ [h])
  typed : ∀ j < c.msgmni, ∀ a ∈ L.queue j, a ∈ L'.queue j → (m'.msghdrs a).msgType = (m.msghdrs a).msgType
  sending : ∀ t ∈ m'.tasks, ∀ h, t.body = some h → 1 ≤ (m'.msghdrs h).msgType

theorem Ordered.requeued (ho : Ordered c m ts L since now) (hr : Requeued c m L m' L')
    (hsince : ∀ h, since' h =
      if (∃ j < c.msgmni, h ∈ L'.queue j) ∧ ¬ (∃ j < c.msgmni, h ∈ L.queue j) then now else since h) :
    Ordered c m' m'.tasks L' since' (now + 1) := by
  have hold : ∀ j < c.msgmni, ∀ a ∈ L.queue j, since' a = since a := fun j hj a ha => by
    rw [hsince, if_neg fun hc => hc.2 ⟨j, hj, ha⟩]
  obtain hsub | ⟨ix, hix, h, hnew, htype, hqueue⟩ := hr.queues
  · refine ⟨fun j hj => ?_, fun j hj a ha => ?_, fun j hj a ha => ?_, hr.sending⟩
    · refine ((ho.sorted j hj).sublist (hsub j hj)).imp_of_mem fun ha hb hab => ?_
      rwa [hold j hj _ ((hsub j hj).subset ha), hold j hj _ ((hsub j hj).subset hb)]
    · have ha' := (hsub j hj).subset ha
      have hlt := ho.past j hj a ha'
      rw [hold j hj a ha']
      omega
    · have ha' := (hsub j hj).subset ha
      rw [hr.typed j hj a ha' ha]
      exact ho.typed j hj a ha'
  · have hh : since' h = now := by
      rw [hsince, if_pos]
      exact ⟨⟨ix, hix, by simp [hqueue]⟩, fun ⟨j, hj, hhj⟩ => hnew j hj hhj⟩
    have hmem : ∀ j < c.msgmni, ∀ a ∈ L'.queue j, a ∈ L.queue j ∨ a = h := fun j _ a ha => by
      rw [hqueue] at ha
      by_cases hji : j = ix
      · subst hji
        simpa using ha
      · rw [Function.update_of_ne hji] at ha
        exact .inl ha
    refine ⟨fun j hj => ?_, fun j hj a ha => ?_, fun j hj a ha => ?_, hr.sending⟩
    · have hsame : (L.queue j).Pairwise fun a b => since' a < since' b :=
        (ho.sorted j hj).imp_of_mem fun ha hb hab => by rwa [hold j hj _ ha, hold j hj _ hb]
      rw [hqueue]
      by_cases hji : j = ix
      · subst hji
        rw [Function.update_self, List.pairwise_append]
        refine ⟨hsame, List.pairwise_singleton _ _, fun a ha b hb => ?_⟩
        obtain rfl := List.mem_singleton.mp hb
        rw [hh, hold j hj a ha]
        exact ho.past j hj a ha
      · rwa [Function.update_of_ne hji]
    · obtain ha' | rfl := hmem j hj a ha
      · have hlt := ho.past j hj a ha'
        rw [hold j hj a ha']
        omega
      · omega
    · obtain ha' | rfl := hmem j hj a ha
      · rw [hr.typed j hj a ha' ha]
        exact ho.typed j hj a ha'
      · exact htype

def Sending (m : Messages) (ts : List Task) : Prop := ∀ t ∈ ts, ∀ h, t.body = some h → 1 ≤ (m.msghdrs h).msgType

theorem Waited.requeued {new : List Task} (hw : Waited c m L new m') (hs : Sending m m.tasks) :
    Requeued c m L m' L where
  queues := .inl fun _ _ => List.Sublist.refl _
  typed j _ a _ _ := by rw [hw.hdrs]
  sending t ht h hh := by
    rw [hw.tasks] at ht
    rw [hw.hdrs]
    rcases List.mem_append.mp ht with ht | ht
    · exact hs t ht h hh
    · have hnone := hw.holds t ht
      rw [Task.holds_of_body hh] at hnone
      cases hnone

theorem Inv.queued_ne (hi : Inv c m (t :: ts) L) (ht : t.holds = some h) {j a : Nat} (hj : j < c.msgmni)
    (ha : a ∈ L.queue j) : a ≠ h :=
  ne_of_mem_of_not_mem ha (hi.held_not_queued hj (hi.held List.mem_cons_self ht))

theorem Gone.requeued (hg : Gone c m L h m') (hi : Inv c m (t :: m.tasks) L) (ht : t.holds = some h)
    (hs : Sending m m.tasks) : ∃ L', Inv c m' m'.tasks L' ∧ Requeued c m L m' L' := by
  obtain ⟨free, freeSegs, hi'⟩ := hg.inv
  refine ⟨_, hi', .inl fun _ _ => List.Sublist.refl _, fun j hj a ha _ => ?_, fun t' ht' h' hh' => ?_⟩
  · rw [hg.others a (hi.queued_ne ht hj ha)]
  · rw [hg.tasks] at ht'
    rw [hg.others h' (hi.held_ne ht ht' (Task.holds_of_body hh'))]
    exact hs t' ht' h' hh'

theorem Inv.free_ne (hi : Inv c m ts L) (hh : h ∈ L.free) : (∀ j < c.msgmni, ∀ a ∈ L.queue j, a ≠ h) ∧
    ∀ t ∈ ts, ∀ a, t.holds = some a → a ≠ h := by
  have hnot : ∀ a ∈ (List.range c.msgmni).flatMap L.queue ++ ts.filterMap Task.holds, a ≠ h := fun a ha heq =>
    hi.stored.not_mem_free ha (heq ▸ hh)
  exact ⟨fun j hj a ha => hnot a (List.mem_append_left _ (hi.mem_queues hj ha)),
    fun t ht a hta => hnot a (List.mem_append_right _ (hi.held ht hta))⟩

theorem Alloc.requeued {args : SndArgs} (ha : Alloc c m L ix args h L' m') (hi : Inv c m ts L)
    (hts : ∀ t ∈ m.tasks, t ∈ ts) (hs : Sending m m.tasks) : Requeued c m L m' L' := by
  obtain ⟨hqueue, hheld⟩ := hi.free_ne ha.free
  refine ⟨.inl fun j _ => by rw [ha.queue], fun j hj a haq _ => ?_, fun t ht g hg => ?_⟩
  · rw [ha.others a (hqueue j hj a haq)]
  · rw [ha.tasks] at ht
    rcases List.mem_append.mp ht with ht | ht
    · rw [ha.others g (hheld t (hts t ht) g (Task.holds_of_body hg))]
      exact hs t ht g hg
    · obtain rfl := List.mem_singleton.mp ht
      cases hg

theorem Sent.requeued (hsent : Sent c m L ix h m') (hi : Inv c m (t :: ts) L) (ht : t.holds = some h)
    (hix : ix < c.msgmni) (htype : 1 ≤ (m.msghdrs h).msgType) (hs : Sending m m.tasks) :
    Requeued c m L m' { L with queue := update L.queue ix (L.queue ix ++ [h]) } where
  queues := .inr ⟨ix, hix, h, fun j hj => hi.held_not_queued hj (hi.held List.mem_cons_self ht),
    by rwa [hsent.type], rfl⟩
  typed j _ a _ _ := hsent.type a
  sending t ht g hg := by
    rw [hsent.tasks] at ht
    rw [hsent.type]
    exact hs t ht g hg

theorem Taken.requeued {args : RcvArgs} {s : List Nat} (htaken : Taken c m L ix args s h l m')
    (hs : Sending m m.tasks) : Requeued c m L m' { L with queue := update L.queue ix (s ++ l) } where
  queues := .inl fun j _ => by
    dsimp only
    by_cases hj : j = ix
    · subst hj
      rw [Function.update_self, htaken.queue]
      exact (List.sublist_cons_self h l).append_left s
    · rw [Function.update_of_ne hj]
  typed j _ a _ _ := htaken.type a
  sending t ht g hg := by
    rw [htaken.tasks] at ht
    rw [htaken.type]
    rcases List.mem_append.mp ht with ht | ht
    · exact hs t ht g hg
    · obtain rfl := List.mem_singleton.mp ht
      cases hg

theorem Cleared.requeued (hc : Cleared c m L ix m') (hi : Inv c m m.tasks L) (hix : ix < c.msgmni)
    (hs : Sending m m.tasks) : ∃ L', Inv c m' m'.tasks L' ∧ Requeued c m L m' L' := by
  obtain ⟨free, freeSegs, hi'⟩ := hc.inv
  refine ⟨_, hi', .inl fun j _ => ?_, fun j hj a ha ha' => ?_, fun t ht g hg => ?_⟩
  · dsimp only
    by_cases hj : j = ix
    · subst hj
      simp
    · rw [Function.update_of_ne hj]
  · by_cases hji : j = ix
    · subst hji
      simp at ha'
    · rw [hc.others a fun hin => hi.queue_disjoint hix hj hji hin ha]
  · rw [hc.tasks] at ht
    rw [hc.others g (hi.held_not_queued hix (hi.held ht (Task.holds_of_body hg)))]
    exact hs t ht g hg

theorem requeued_sleep (hs : Sending m m.tasks) (ht : ∀ h, t.body = some h → 1 ≤ (m.msghdrs h).msgType) :
    Requeued c m L (m.sleep t) L where
  queues := .inl fun _ _ => List.Sublist.refl _
  typed _ _ _ _ _ := rfl
  sending t' ht' g hg := by
    rcases List.mem_append.mp ht' with ht' | ht'
    · exact hs t' ht' g hg
    · obtain rfl := List.mem_singleton.mp ht'
      exact ht g hg

theorem Received.requeued {args : RcvArgs} (hr : Received c m L ix args r m') (hi : Inv c m m.tasks L)
    (hs : Sending m m.tasks) : ∃ L', Inv c m' m'.tasks L' ∧ Requeued c m L m' L' := by
  cases hr with
  | nothing new _ _ hw => exact ⟨L, hw.inv, hw.requeued hs⟩
  | tooBig s l h _ _ _ _ _ hm' => exact ⟨L, hm' ▸ hi, hm' ▸ hi.waited.requeued hs⟩
  | takes s l h _ htaken => exact ⟨_, htaken.inv, htaken.requeued hs⟩

theorem resume_requeued {failed : Bool} {msgType : Int} (hi : Inv c m (t :: m.tasks) L)
    (hs : Sending m (t :: m.tasks)) (hresume : t.resume c failed msgType m = some (r, m')) :
    ∃ L', Inv c m' m'.tasks L' ∧ Requeued c m L m' L' := by
  have hs' : Sending m m.tasks := fun a ha => hs a (List.mem_cons_of_mem t ha)
  have hix := hi.valid t List.mem_cons_self
  cases t with
  | sndWaits ix args weOwnIt =>
    obtain ⟨new, hw⟩ | ⟨hdr, L', ha⟩ := resume_sndWaits hi hresume
    · exact ⟨L, hw.inv, hw.requeued hs'⟩
    · exact ⟨L', ha.inv, ha.requeued hi (fun t ht => List.mem_cons_of_mem _ ht) hs'⟩
  | sndType ix args h =>
    obtain hg | ⟨⟨-, htype⟩, m₁, rfl, hgo⟩ := resume_sndType hi hresume
    · exact hg.requeued hi rfl hs'
    · have hsame : ∀ a, a ≠ h → (m.setHdr h { m.msghdrs h with msgType }).msghdrs a = m.msghdrs a := fun a ha => by
        simp [Messages.setHdr, ha]
      have hself : ((m.setHdr h { m.msghdrs h with msgType }).msghdrs h).msgType = msgType := by
        simp [Messages.setHdr]
      have hs₁ : Sending (m.setHdr h { m.msghdrs h with msgType }) m.tasks := fun t ht g hg => by
        rw [hsame g (hi.held_ne rfl ht (Task.holds_of_body hg))]
        exact hs' t ht g hg
      -- what holds after the type was read holds as well of what was there before
      have hback : ∀ {L'}, Requeued c (m.setHdr h { m.msghdrs h with msgType }) L m' L' →
          Requeued c m L m' L' := fun hr =>
        ⟨hr.queues, fun j hj a ha ha' => (hr.typed j hj a ha ha').trans
          (by rw [hsame a (hi.queued_ne rfl hj ha)]), hr.sending⟩
      obtain ⟨k, -, -, rfl, hi'⟩ | ⟨-, -, hg | hsent⟩ := hgo
      · refine ⟨L, hi', hback (requeued_sleep hs₁ fun g hg => ?_)⟩
        obtain rfl : h = g := Option.some.inj hg
        rw [hself]
        exact htype
      · exact hg.requeued hi rfl hs'
      · have hi₁ : Inv c (m.setHdr h { m.msghdrs h with msgType }) (.sndType ix args h :: m.tasks) L :=
          hi.setType rfl msgType
        exact ⟨_, hsent.inv, hback (hsent.requeued hi₁ rfl hix (by rwa [hself]) hs₁)⟩
  | sndBody ix msgsz next h =>
    have htype : 1 ≤ (m.msghdrs h).msgType := hs _ List.mem_cons_self h rfl
    obtain hg | ⟨-, ⟨k, -, -, rfl, hi'⟩ | ⟨-, -, hsent⟩⟩ := resume_sndBody hi hresume
    · exact hg.requeued hi rfl hs'
    · refine ⟨L, hi', requeued_sleep hs' fun g hg => ?_⟩
      obtain rfl : h = g := Option.some.inj hg
      exact htype
    · exact ⟨_, hsent.inv, hsent.requeued hi rfl hix htype hs'⟩
  | rcvWaits ix args =>
    obtain ⟨-, hw⟩ | ⟨-, -, hr⟩ := resume_rcvWaits hi hresume
    · exact ⟨L, hw.inv, hw.requeued hs'⟩
    · exact hr.requeued (hi.tail rfl rfl) hs'
  | rcvType ix msgsz h =>
    obtain ⟨-, hg⟩ | ⟨-, ⟨k, -, -, -, rfl, hi'⟩ | ⟨-, -, hg⟩⟩ := resume_rcvType hi hresume
    · exact hg.requeued hi rfl hs'
    · exact ⟨L, hi', requeued_sleep hs' fun g hg => by cases hg⟩
    · exact hg.requeued hi rfl hs'
  | rcvBody ix msgsz len next h =>
    obtain ⟨-, hg⟩ | ⟨-, ⟨k, -, -, -, rfl, hi'⟩ | ⟨-, -, hg⟩⟩ := resume_rcvBody hi hresume
    · exact hg.requeued hi rfl hs'
    · exact ⟨L, hi', requeued_sleep hs' fun g hg => by cases hg⟩
    · exact hg.requeued hi rfl hs'

theorem step_requeued {call : MsgCall} (hi : Inv c m m.tasks L) (hs : Sending m m.tasks)
    (hstep : m.step c call = some (r, m')) : ∃ L', Inv c m' m'.tasks L' ∧ Requeued c m L m' L' := by
  cases call with
  | msgget key creat excl ipcperm =>
    have hw := msgget_spec hi (Option.some.inj hstep)
    exact ⟨L, hw.inv, hw.requeued hs⟩
  | rmid msqid ipcperm =>
    obtain rfl | ⟨hix, hc⟩ := msgctlRmid_spec hi hstep
    · exact ⟨L, hi, hi.waited.requeued hs⟩
    · exact hc.requeued hi hix hs
  | msgsnd msqid args ipcperm =>
    obtain ⟨new, hw⟩ | ⟨hdr, L', ha⟩ := msgsnd_spec hi hstep
    · exact ⟨L, hw.inv, hw.requeued hs⟩
    · exact ⟨L', ha.inv, ha.requeued hi (fun t ht => ht) hs⟩
  | msgrcv msqid args ipcperm =>
    obtain ⟨-, hw⟩ | ⟨-, -, hr⟩ := msgrcv_spec hi hstep
    · exact ⟨L, hw.inv, hw.requeued hs⟩
    · exact hr.requeued hi hs
  | resume i failed msgType =>
    simp only [Messages.step] at hstep
    cases ht : m.tasks[i]? with
    | none =>
      rw [ht] at hstep
      obtain ⟨-, rfl⟩ := Prod.mk.inj (Option.some.inj hstep)
      exact ⟨L, hi, hi.waited.requeued hs⟩
    | some t =>
      rw [ht] at hstep
      have hs₀ : Sending m (t :: m.tasks.eraseIdx i) := fun a ha => by
        obtain ⟨hlt, rfl⟩ := List.getElem?_eq_some_iff.mp ht
        exact hs a ((List.getElem_cons_eraseIdx_perm hlt).mem_iff.mp ha)
      obtain ⟨L', hi', hr⟩ := resume_requeued (m := { m with tasks := m.tasks.eraseIdx i })
        (hi.running ht) hs₀ hstep
      exact ⟨L', hi', hr.queues, hr.typed, hr.sending⟩

theorem ordered (hrun : Aged.Reached c s) :
    ∃ L, Inv c s.m s.m.tasks L ∧ Ordered c s.m s.m.tasks L s.since s.now := by
  refine hrun.invariant (I := fun s => ∃ L, Inv c s.m s.m.tasks L ∧ Ordered c s.m s.m.tasks L s.since s.now) ?_ ?_
  · rintro s rfl
    obtain ⟨L, hi⟩ := kept_msginit c
    have hempty : ∀ j < c.msgmni, L.queue j = [] := fun j hj => hi.removed j hj rfl
    refine ⟨L, hi, fun j hj => ?_, fun j hj a ha => ?_, fun j hj a ha => ?_, fun t ht => ?_⟩
    · rw [hempty j hj]
      exact List.Pairwise.nil
    · rw [hempty j hj] at ha
      cases ha
    · rw [hempty j hj] at ha
      cases ha
    · cases ht
  · rintro s call s' ⟨L, hi, ho⟩ - hstep
    obtain ⟨⟨r, m'⟩, hstep', rfl⟩ := Option.map_eq_some_iff.mp hstep
    obtain ⟨L', hi', hr⟩ := step_requeued hi ho.sending hstep'
    refine ⟨L', hi', ho.requeued hr fun h => ?_⟩
    simp only [hi'.onQueue_iff, hi.onQueue_iff]

theorem findType_isSome {fuel : Nat} {p : Option Nat} (args : RcvArgs) (previous : Option Nat)
    (hl : Linked (fun h => (m.msghdrs h).msgNext) p l none) (hfuel : l.length ≤ fuel) :
    ∃ found, findType args m fuel previous p = some found := by
  induction fuel generalizing previous p l with
  | zero =>
    obtain rfl := List.eq_nil_of_length_eq_zero (Nat.le_zero.mp hfuel)
    obtain rfl : p = none := hl
    exact ⟨_, rfl⟩
  | succ fuel ih =>
    cases l with
    | nil =>
      obtain rfl : p = none := hl
      exact ⟨_, rfl⟩
    | cons a l =>
      obtain ⟨rfl, hrest⟩ := hl
      rw [findType]
      split
      · exact ⟨_, rfl⟩
      · exact ih _ hrest (Nat.le_of_succ_le_succ hfuel)

theorem unlinkFirst_isSome (hq : Queued (m.msqids ix) m.msghdrs (h :: l)) : ∃ m', unlinkFirst ix h m = some m' := by
  unfold unlinkFirst
  dsimp only
  split
  · exact ⟨_, rfl⟩
  · next hne =>
    have hrest : Linked (fun h => (m.msghdrs h).msgNext) (m.msghdrs h).msgNext l none := hq.linked.2
    cases hnext : (m.msghdrs h).msgNext with
    | some next => exact ⟨_, rfl⟩
    | none =>
      rw [hrest.eq_nil hnext] at hq
      exact absurd (hq.linked.1.trans hq.last.symm) hne

theorem rcvTry_isSome (args : RcvArgs) (hi : Inv c m ts L) (hix : ix < c.msgmni)
    (hne : (m.msqids ix).msgQbytes ≠ 0) :
    ∃ rm, rcvTry c ix args m = some rm := by
  have hq := hi.queued ix hix hne
  unfold rcvTry
  dsimp only
  split
  · cases hfirst : (m.msqids ix).msgFirst with
    | none => exact ⟨_, rfl⟩
    | some h =>
      dsimp only
      split
      · exact ⟨_, rfl⟩
      · cases hL : L.queue ix with
        | nil =>
          have hlinked := hq.linked
          rw [hL, hfirst] at hlinked
          cases hlinked
        | cons h' l =>
          rw [hL] at hq
          obtain rfl : h = h' := Option.some.inj (hfirst.symm.trans hq.linked.1)
          obtain ⟨m₁, hun⟩ := unlinkFirst_isSome hq
          rw [hun]
          exact ⟨_, rfl⟩
  · obtain ⟨⟨previous, found⟩, hfind⟩ := findType_isSome args none hq.linked
      (hi.queue_length hix)
    rw [hfind]
    cases found with
    | none => exact ⟨_, rfl⟩
    | some h =>
      dsimp only
      split <;> exact ⟨_, rfl⟩

theorem wanted_iff {args : RcvArgs} {msg : Msg} (htype : 1 ≤ msg.msgType) :
    Wanted args.msgtyp msg.msgType ↔ args.msgtyp = 0 ∨ args.takes msg = true := by
  simp only [Wanted, RcvArgs.takes, decide_eq_true_eq]
  omega

/-- What `msgrcv` does to the queue `ix`: it leaves it, or takes the oldest message for it off, which may be too big. -/
structure TakesOldest (c : Msginfo) (s : Aged) (ix : Nat) (args : RcvArgs) (r : Reply) (m' : Messages) : Prop where
  none : (∀ a ∈ s.m.queue c ix, ¬ Wanted args.msgtyp (s.m.msghdrs a).msgType) → m'.queue c ix = s.m.queue c ix
  tooBig : ∀ h, Oldest c s ix args.msgtyp h → args.msgsz < (s.m.msghdrs h).msgTs ∧ args.noerror = false →
    r = .error .e2big ∧ m'.queue c ix = s.m.queue c ix
  takes : ∀ h, Oldest c s ix args.msgtyp h → ¬ (args.msgsz < (s.m.msghdrs h).msgTs ∧ args.noerror = false) →
    r = .waits ∧ .rcvType ix (min args.msgsz (s.m.msghdrs h).msgTs) h ∈ m'.tasks ∧
      m'.queue c ix = (s.m.queue c ix).erase h
  others : ∀ j < c.msgmni, j ≠ ix → m'.queue c j = s.m.queue c j
  consistent : ∀ j < c.msgmni, (m'.msqids j).msgQbytes ≠ 0 → Queued (m'.msqids j) m'.msghdrs (m'.queue c j)

theorem oldest_unique {args : RcvArgs} {p q : List Nat} {g : Nat} (hi : Inv c s.m ts L)
    (ho : Ordered c s.m ts L s.since s.now) (hix : ix < c.msgmni) (hL : L.queue ix = p ++ g :: q)
    (hfirst : args.msgtyp = 0 ∧ p = [] ∨ args.msgtyp ≠ 0 ∧ args.takes (s.m.msghdrs g) = true ∧
      ∀ a ∈ p, args.takes (s.m.msghdrs a) = false) : ∀ h, Oldest c s ix args.msgtyp h ↔ h = g := by
  have hqueue : s.m.queue c ix = p ++ g :: q := (hi.queue_eq hix).trans hL
  have htyped := ho.typed ix hix
  have hsorted := ho.sorted ix hix
  rw [hL] at htyped hsorted
  obtain ⟨-, hgq, hpg⟩ := List.pairwise_append.mp hsorted
  have hwanted : Wanted args.msgtyp (s.m.msghdrs g).msgType :=
    (wanted_iff (htyped g (by simp))).mpr (hfirst.imp And.left fun h => h.2.1)
  have hpassed : ∀ a ∈ p, ¬ Wanted args.msgtyp (s.m.msghdrs a).msgType := fun a ha hw => by
    rcases hfirst with ⟨-, rfl⟩ | ⟨hne, -, hp⟩
    · cases ha
    · rcases (wanted_iff (htyped a (List.mem_append_left _ ha))).mp hw with h0 | htakes
      · exact hne h0
      · rw [hp a ha] at htakes
        cases htakes
  intro h
  constructor
  · intro hold
    have hmem := hold.queued
    rw [hqueue] at hmem
    rcases List.mem_append.mp hmem with hp | hmem
    · exact absurd hold.wanted (hpassed h hp)
    · rcases List.mem_cons.mp hmem with rfl | hq
      · rfl
      · have hle := hold.first g (by simp [hqueue]) hwanted
        have hlt := (List.pairwise_cons.mp hgq).1 h hq
        omega
  · rintro rfl
    refine ⟨by simp [hqueue], hwanted, fun a ha hw => ?_⟩
    rw [hqueue] at ha
    rcases List.mem_append.mp ha with hp | ha
    · exact absurd hw (hpassed a hp)
    · rcases List.mem_cons.mp ha with rfl | hq
      · exact Nat.le_refl _
      · exact Nat.le_of_lt ((List.pairwise_cons.mp hgq).1 a hq)

theorem consistent_of_inv (hi : Inv c m ts L) :
    ∀ j < c.msgmni, (m.msqids j).msgQbytes ≠ 0 → Queued (m.msqids j) m.msghdrs (m.queue c j) := fun j hj hne => by
  rw [hi.queue_eq hj]
  exact hi.queued j hj hne

theorem Received.takesOldest {args : RcvArgs} {m₀ : Messages} (hr : Received c m₀ L ix args r m')
    (hhdrs : m₀.msghdrs = s.m.msghdrs) (hi₀ : Inv c m₀ m₀.tasks L) (hi : Inv c s.m ts L)
    (ho : Ordered c s.m ts L s.since s.now) (hix : ix < c.msgmni) : TakesOldest c s ix args r m' := by
  cases hr with
  | nothing new hnone _ hw =>
    have hqueues : ∀ j < c.msgmni, m'.queue c j = s.m.queue c j := fun j hj => by
      rw [hw.inv.queue_eq hj, hi.queue_eq hj]
    have habsurd : ∀ h, ¬ Oldest c s ix args.msgtyp h := fun h hold => by
      have hmem := hold.queued
      rw [hi.queue_eq hix] at hmem
      rcases hnone with ⟨-, hempty⟩ | ⟨hne, hnot⟩
      · rw [hempty] at hmem
        cases hmem
      · rcases (wanted_iff (ho.typed ix hix h hmem)).mp hold.wanted with h0 | htakes
        · exact hne h0
        · rw [← hhdrs, hnot h hmem] at htakes
          cases htakes
    exact ⟨fun _ => hqueues ix hix, fun h hold => absurd hold (habsurd h), fun h hold => absurd hold (habsurd h),
      fun j hj _ => hqueues j hj, consistent_of_inv hw.inv⟩
  | tooBig p q g hL hfirst hbig hnoerror hreply hm' =>
    rw [hhdrs] at hfirst hbig
    have hunique := oldest_unique hi ho hix hL hfirst
    have hqueues : ∀ j < c.msgmni, m'.queue c j = s.m.queue c j := fun j hj => by
      rw [hm', hi₀.queue_eq hj, hi.queue_eq hj]
    refine ⟨fun _ => hqueues ix hix, fun h _ _ => ⟨hreply, hqueues ix hix⟩, fun h hold hfits => ?_,
      fun j hj _ => hqueues j hj, hm' ▸ consistent_of_inv hi₀⟩
    obtain rfl := (hunique h).mp hold
    exact absurd ⟨hbig, hnoerror⟩ hfits
  | takes p q g hreply htaken =>
    have hfirst := htaken.takes
    have hfits := htaken.fits
    have htasks := htaken.tasks
    rw [hhdrs] at hfirst hfits htasks
    have hunique := oldest_unique hi ho hix htaken.queue hfirst
    have hgp : g ∉ p := fun hp => by
      have hnodup := (htaken.queue ▸ (ho.sorted ix hix)).imp fun hlt => Nat.ne_of_lt hlt
      exact (List.pairwise_append.mp hnodup).2.2 g hp g List.mem_cons_self rfl
    refine ⟨fun hnot => ?_, fun h hold hbig => ?_, fun h hold _ => ?_, fun j hj hne => ?_,
      consistent_of_inv htaken.inv⟩
    · have hold := (hunique g).mpr rfl
      exact absurd hold.wanted (hnot g hold.queued)
    · obtain rfl := (hunique h).mp hold
      rw [hfits hbig.1] at hbig
      cases hbig.2
    · obtain rfl := (hunique h).mp hold
      refine ⟨hreply, by simp [htasks], ?_⟩
      rw [htaken.inv.queue_eq hix, hi.queue_eq hix, htaken.queue, List.erase_append_right _ hgp,
        List.erase_cons_head]
      exact Function.update_self ix _ _
    · rw [htaken.inv.queue_eq hj, hi.queue_eq hj]
      exact Function.update_of_ne hne _ _

/-- **`msgrcv` takes the oldest message** of any type, of a type, or of a type up to a bound, in every state that sends
and receives lead to; the others keep their order, and `msg_first` and `msg_last` are those of the list. -/
theorem msgrcv_takesOldest (hrun : Aged.Reached c s) {args : RcvArgs} {call : MsgCall}
    (hrcv : Receives c s.m ix args call) :
    ∃ r m', s.m.step c call = some (r, m') ∧ TakesOldest c s ix args r m' := by
  obtain ⟨L, hi, ho⟩ := ordered hrun
  cases hrcv with
  | call msqid args hmsqid hix hne hseq =>
    subst hmsqid
    obtain ⟨⟨r, m'⟩, htry⟩ := rcvTry_isSome { args with seq := ipcidToSeq msqid } hi hix hne
    refine ⟨r, m', ?_, (rcvTry_spec hi hix hne htry).takesOldest rfl hi hi ho hix⟩
    simp only [Messages.step, msgrcv]
    rw [if_neg (by simp [hix, hne, hseq])]
    exact htry
  | woken i args msgType ht hne hseq =>
    have hi₀ := hi.running ht
    have hi₁ : Inv c { s.m with tasks := s.m.tasks.eraseIdx i } (s.m.tasks.eraseIdx i) L := hi₀.tail rfl rfl
    have hix : ix < c.msgmni := hi₀.valid _ List.mem_cons_self
    obtain ⟨⟨r, m'⟩, htry⟩ := rcvTry_isSome args hi₁ hix hne
    refine ⟨r, m', ?_, (rcvTry_spec hi₁ hix hne htry).takesOldest rfl hi₁ hi ho hix⟩
    simp only [Messages.step, ht, Task.resume]
    rw [if_neg (by simp), if_neg (by simp [hne, hseq])]
    exact htry

def twoMsginfo : Msginfo :=
  { oneMsginfo with
    msgtql := 2
    msgseg := 2
    msgseg_pos := by decide
    msgseg_le := by decide
    msgtql_pos := by decide }

def Aged.calls (c : Msginfo) : List MsgCall → Aged → Option Aged
  | [], s => some s
  | call :: rest, s => (s.step c call).bind (Aged.calls c rest)

theorem Aged.reached_of_calls (l : List MsgCall) (hs : s.Reached c) (hcalls : s.calls c l = some s') :
    s'.Reached c := by
  induction l generalizing s with
  | nil =>
    obtain rfl : s = s' := Option.some.inj hcalls
    exact hs
  | cons call l ih =>
    obtain ⟨s₁, hstep, hrest⟩ := Option.bind_eq_some_iff.mp hcalls
    exact ih (hs.call call trivial hstep) hrest

def twoSends : List MsgCall :=
  [.msgget 0 true false none, .msgsnd 0x10000 { msgsz := 0 } none, .resume 0 false 2,
    .msgsnd 0x10000 { msgsz := 0 } none, .resume 0 false 1]

def twoSent : Aged :=
  (Aged.calls twoMsginfo twoSends { m := msginit twoMsginfo }).getD { m := msginit twoMsginfo }

theorem reached_twoSent : Aged.Reached twoMsginfo twoSent :=
  Aged.reached_of_calls twoSends (.start rfl) rfl

theorem receives_upToTwo : Receives twoMsginfo twoSent.m 0 { seq := 1, msgsz := 8, msgtyp := -2 }
    (.msgrcv 0x10000 { seq := 0, msgsz := 8, msgtyp := -2 } none) :=
  .call 0x10000 { seq := 0, msgsz := 8, msgtyp := -2 } rfl (by decide) (by decide) rfl

theorem msgrcv_takesOldest_twoSent : ∃ r m',
    twoSent.m.step twoMsginfo (.msgrcv 0x10000 { seq := 0, msgsz := 8, msgtyp := -2 } none) = some (r, m') ∧
      TakesOldest twoMsginfo twoSent 0 { seq := 1, msgsz := 8, msgtyp := -2 } r m' :=
  msgrcv_takesOldest reached_twoSent receives_upToTwo

/-- The oldest message of the lowest type up to the bound that a negative `msgtyp` gives. -/
structure OldestOfLowest (c : Msginfo) (s : Aged) (ix : Nat) (msgtyp : Int) (h : Nat) : Prop where
  queued : h ∈ s.m.queue c ix
  bound : (s.m.msghdrs h).msgType ≤ -msgtyp
  lowest : ∀ a ∈ s.m.queue c ix, (s.m.msghdrs a).msgType ≤ -msgtyp →
    (s.m.msghdrs h).msgType ≤ (s.m.msghdrs a).msgType ∧
      ((s.m.msghdrs h).msgType = (s.m.msghdrs a).msgType → s.since h ≤ s.since a)

/-- An older message of a higher type is taken first. -/
theorem msgrcv_not_lowest : ¬ ∀ c s, Aged.Reached c s → ∀ ix args call, Receives c s.m ix args call →
    args.msgtyp < 0 → ∃ r m', s.m.step c call = some (r, m') ∧ ∀ h, OldestOfLowest c s ix args.msgtyp h →
      ¬ (args.msgsz < (s.m.msghdrs h).msgTs ∧ args.noerror = false) →
        m'.queue c ix = (s.m.queue c ix).erase h := by
  intro hall
  obtain ⟨r, m', hstep, htakes⟩ :=
    hall twoMsginfo twoSent reached_twoSent 0 _ _ receives_upToTwo (by decide)
  have hqueue : twoSent.m.queue twoMsginfo 0 = [0, 1] := rfl
  have hlowest : OldestOfLowest twoMsginfo twoSent 0 (-2) 1 := by
    refine ⟨by rw [hqueue]; decide, by decide, ?_⟩
    rw [hqueue]
    decide
  have hleft := htakes 1 hlowest (by decide)
  obtain ⟨rfl, rfl⟩ := Prod.mk.inj (Option.some.inj ((show some (_, _) = twoSent.m.step twoMsginfo
    (.msgrcv 0x10000 { seq := 0, msgsz := 8, msgtyp := -2 } none) from rfl).trans hstep))
  exact absurd hleft (by decide)

end NetBSD.Sysv
