import NetBSD.Sysv.Msg
import Mathlib.Data.List.Perm.Basic
import Mathlib.Data.List.Range

/-!
# Where the headers and segments of messages are

The headers are on the free list or belong to a message, the segments are on their free list or in the chain
of a message. Allocation moves the first one of a free list, `msg_freehdr` moves back a header with its chain.
-/

namespace NetBSD.Sysv

open Function (update)
open Lib (Linked)

structure Stored (c : Msginfo) (m : Messages) (free msgs freeSegs : List Nat) (segs : Nat → List Nat) :
    Prop where
  freeLinked : Linked (fun h => (m.msghdrs h).msgNext) m.freeMsghdrs free none
  hdrs : (free ++ msgs).Perm (List.range c.msgtql)
  freeSegsLinked : Linked m.msgmaps m.freeMsgmaps freeSegs none
  nfree : m.nfreeMsgmaps = freeSegs.length
  chained : ∀ h ∈ msgs, Linked m.msgmaps (m.msghdrs h).msgSpot (segs h) none
  segs : (freeSegs ++ msgs.flatMap segs).Perm (List.range c.msgseg)

variable {c : Msginfo} {m m' : Messages} {free msgs msgs' freeSegs : List Nat} {segs : Nat → List Nat}
  {h k : Nat}

namespace Stored

theorem perm (hs : Stored c m free msgs freeSegs segs) (hp : msgs.Perm msgs') :
    Stored c m free msgs' freeSegs segs where
  freeLinked := hs.freeLinked
  hdrs := ((List.Perm.refl free).append hp.symm).trans hs.hdrs
  freeSegsLinked := hs.freeSegsLinked
  nfree := hs.nfree
  chained h hh := hs.chained h (hp.mem_iff.mpr hh)
  segs := ((List.Perm.refl freeSegs).append (hp.symm.flatMap_right segs)).trans hs.segs

theorem setQueue (hs : Stored c m free msgs freeSegs segs) (ix : Nat) (q : MsqidDs) :
    Stored c (m.setQueue ix q) free msgs freeSegs segs :=
  ⟨hs.freeLinked, hs.hdrs, hs.freeSegsLinked, hs.nfree, hs.chained, hs.segs⟩

theorem setTasks (hs : Stored c m free msgs freeSegs segs) (ts : List Task) :
    Stored c { m with tasks := ts } free msgs freeSegs segs :=
  ⟨hs.freeLinked, hs.hdrs, hs.freeSegsLinked, hs.nfree, hs.chained, hs.segs⟩

theorem hdrs_nodup (hs : Stored c m free msgs freeSegs segs) : (free ++ msgs).Nodup :=
  hs.hdrs.nodup_iff.mpr List.nodup_range

theorem segs_nodup (hs : Stored c m free msgs freeSegs segs) : (freeSegs ++ msgs.flatMap segs).Nodup :=
  hs.segs.nodup_iff.mpr List.nodup_range

theorem not_mem_free (hs : Stored c m free msgs freeSegs segs) (hh : h ∈ msgs) : h ∉ free := fun hf =>
  (List.nodup_append.mp hs.hdrs_nodup).2.2 h hf h hh rfl

theorem setHdr (hs : Stored c m free msgs freeSegs segs) (hh : h ∈ msgs) {msg : Msg}
    (hspot : msg.msgSpot = (m.msghdrs h).msgSpot) : Stored c (m.setHdr h msg) free msgs freeSegs segs where
  freeLinked := by
    refine hs.freeLinked.congr fun a ha => ?_
    have hne : a ≠ h := ne_of_mem_of_not_mem ha (hs.not_mem_free hh)
    simp [Messages.setHdr, hne]
  hdrs := hs.hdrs
  freeSegsLinked := hs.freeSegsLinked
  nfree := hs.nfree
  chained a ha := by
    have hspots : ((m.setHdr h msg).msghdrs a).msgSpot = (m.msghdrs a).msgSpot := by
      by_cases hah : a = h
      · subst hah
        simpa [Messages.setHdr] using hspot
      · simp [Messages.setHdr, hah]
    rw [hspots]
    exact hs.chained a ha
  segs := hs.segs

theorem allocHdr (hs : Stored c m (h :: free) msgs freeSegs segs) {msg : Msg} (hspot : msg.msgSpot = none) :
    Stored c { m.setHdr h msg with freeMsghdrs := (m.msghdrs h).msgNext } free (h :: msgs) freeSegs
      (update segs h []) where
  freeLinked := by
    have hh : h ∉ free := (List.nodup_cons.mp hs.freeLinked.nodup).1
    refine hs.freeLinked.2.congr fun a ha => ?_
    have hne : a ≠ h := ne_of_mem_of_not_mem ha hh
    simp [Messages.setHdr, hne]
  hdrs := List.perm_middle.trans hs.hdrs
  freeSegsLinked := hs.freeSegsLinked
  nfree := hs.nfree
  chained a ha := by
    by_cases hah : a = h
    · subst hah
      simpa [Messages.setHdr] using hspot
    · simpa [Messages.setHdr, hah] using hs.chained a ((List.mem_cons.mp ha).resolve_left hah)
  segs := by
    have hh : h ∉ msgs := fun hm => hs.not_mem_free hm List.mem_cons_self
    have hsame : msgs.flatMap (update segs h []) = msgs.flatMap segs :=
      List.flatMap_congr fun a ha => Function.update_of_ne (ne_of_mem_of_not_mem ha hh) [] segs
    simpa [hsame] using hs.segs

theorem allocSeg (hs : Stored c m free (h :: msgs) (k :: freeSegs) segs) :
    Stored c { m.setHdr h { m.msghdrs h with msgSpot := some k } with
      msgmaps := update m.msgmaps k (m.msghdrs h).msgSpot
      freeMsgmaps := m.msgmaps k
      nfreeMsgmaps := m.nfreeMsgmaps - 1 } free (h :: msgs) freeSegs (update segs h (k :: segs h)) where
  freeLinked := by
    have hh : h ∉ free := hs.not_mem_free List.mem_cons_self
    refine hs.freeLinked.congr fun a ha => ?_
    have hne : a ≠ h := ne_of_mem_of_not_mem ha hh
    simp [Messages.setHdr, hne]
  hdrs := hs.hdrs
  freeSegsLinked := hs.freeSegsLinked.2.update (List.nodup_cons.mp hs.freeSegsLinked.nodup).1 _
  nfree := by
    have hnfree := hs.nfree
    simp only [List.length_cons] at hnfree
    show m.nfreeMsgmaps - 1 = freeSegs.length
    omega
  chained a ha := by
    have hk : k ∉ segs a := fun hka =>
      (List.nodup_append.mp hs.segs_nodup).2.2 k List.mem_cons_self k
        (List.mem_flatMap.mpr ⟨a, ha, hka⟩) rfl
    have hchain := (hs.chained a ha).update hk (m.msghdrs h).msgSpot
    by_cases hah : a = h
    · subst hah
      simpa [Messages.setHdr] using hchain
    · simpa [Messages.setHdr, hah] using hchain
  segs := by
    have hh : h ∉ msgs := (List.nodup_cons.mp (List.nodup_append.mp hs.hdrs_nodup).2.1).1
    have hsame : msgs.flatMap (update segs h (k :: segs h)) = msgs.flatMap segs :=
      List.flatMap_congr fun a ha => Function.update_of_ne (ne_of_mem_of_not_mem ha hh) _ segs
    rw [List.flatMap_cons, hsame, Function.update_self, List.cons_append]
    exact List.perm_middle.trans (by simpa using hs.segs)

end Stored

structure SpotMoved (h : Nat) (m m' : Messages) : Prop where
  msqids : m'.msqids = m.msqids
  tasks : m'.tasks = m.tasks
  ts : ∀ a, (m'.msghdrs a).msgTs = (m.msghdrs a).msgTs
  others : ∀ a, a ≠ h → m'.msghdrs a = m.msghdrs a

theorem SpotMoved.trans {m'' : Messages} (h₁ : SpotMoved h m m') (h₂ : SpotMoved h m' m'') :
    SpotMoved h m m'' where
  msqids := h₂.msqids.trans h₁.msqids
  tasks := h₂.tasks.trans h₁.tasks
  ts a := (h₂.ts a).trans (h₁.ts a)
  others a ha := (h₂.others a ha).trans (h₁.others a ha)

theorem spotMoved_of_update {spot : Option Nat} (hmsqids : m'.msqids = m.msqids) (htasks : m'.tasks = m.tasks)
    (hhdrs : m'.msghdrs = update m.msghdrs h { m.msghdrs h with msgSpot := spot }) : SpotMoved h m m' where
  msqids := hmsqids
  tasks := htasks
  ts a := by
    by_cases hah : a = h
    · subst hah
      simp [hhdrs]
    · simp [hhdrs, hah]
  others a hah := by simp [hhdrs, hah]

theorem Stored.allocSegments {n : Nat} (hs : Stored c m free (h :: msgs) freeSegs segs)
    (halloc : allocSegments c h n m = some m') :
    (∃ freeSegs' chain, Stored c m' free (h :: msgs) freeSegs' (update segs h chain) ∧
      chain.length = (segs h).length + n) ∧ SpotMoved h m m' := by
  induction n generalizing m freeSegs segs with
  | zero =>
    obtain rfl : m = m' := Option.some.inj halloc
    refine ⟨⟨freeSegs, segs h, ?_, rfl⟩, rfl, rfl, fun a => rfl, fun a ha => rfl⟩
    rwa [Function.update_eq_self]
  | succ n ih =>
    have hlinked := hs.freeSegsLinked
    unfold Sysv.allocSegments at halloc
    cases hfree : m.freeMsgmaps with
    | none => simp [hfree] at halloc
    | some k =>
      rw [hfree] at halloc
      cases freeSegs with
      | nil => simp [hfree] at hlinked
      | cons k' freeSegs =>
        obtain rfl : k = k' := Option.some.inj (hfree.symm.trans hlinked.1)
        dsimp only at halloc
        split at halloc
        · simp at halloc
        · obtain ⟨⟨freeSegs', chain, hs', hlength⟩, hmoved⟩ := ih hs.allocSeg halloc
          refine ⟨⟨freeSegs', chain, ?_, ?_⟩, SpotMoved.trans ?_ hmoved⟩
          · rwa [Function.update_idem] at hs'
          · rw [hlength, Function.update_self, List.length_cons]
            omega
          · exact spotMoved_of_update rfl rfl rfl

structure SegsFreed (m m' : Messages) (freeSegs chain : List Nat) : Prop where
  linked : Linked m'.msgmaps m'.freeMsgmaps (chain.reverse ++ freeSegs) none
  nfree : m'.nfreeMsgmaps = m.nfreeMsgmaps + chain.length
  others : ∀ k, k ∉ chain → m'.msgmaps k = m.msgmaps k
  msghdrs : m'.msghdrs = m.msghdrs
  freeMsghdrs : m'.freeMsghdrs = m.freeMsghdrs
  msqids : m'.msqids = m.msqids
  tasks : m'.tasks = m.tasks

theorem freeSegments_spec {fuel ts : Nat} {spot : Option Nat} {chain : List Nat}
    (hspot : Linked m.msgmaps spot chain none) (hfree : Linked m.msgmaps m.freeMsgmaps freeSegs none)
    (hdisj : ∀ k ∈ chain, k ∉ freeSegs) (h : freeSegments c fuel ts spot m = some (none, m')) :
    SegsFreed m m' freeSegs chain := by
  induction fuel generalizing ts spot chain m freeSegs with
  | zero =>
    unfold freeSegments at h
    split at h
    · simp at h
    · obtain ⟨rfl, rfl⟩ := Prod.mk.inj (Option.some.inj h)
      obtain rfl : chain = [] := hspot.eq_nil rfl
      exact ⟨hfree, by simp, fun k hk => rfl, rfl, rfl, rfl, rfl⟩
  | succ fuel ih =>
    unfold freeSegments at h
    split at h
    · cases hk : spot with
      | none => simp [hk] at h
      | some k =>
        rw [hk] at h hspot
        dsimp only at h
        split at h
        · simp at h
        · cases chain with
          | nil => simp at hspot
          | cons k' chain =>
            obtain rfl : k = k' := Option.some.inj hspot.1
            have hnodup := List.nodup_cons.mp hspot.nodup
            have hkfree : k ∉ freeSegs := hdisj k List.mem_cons_self
            have hfree' : Linked (update m.msgmaps k m.freeMsgmaps) (some k) (k :: freeSegs) none :=
              ⟨rfl, by simpa using hfree.update hkfree m.freeMsgmaps⟩
            have hfreed := ih (hspot.2.update hnodup.1 m.freeMsgmaps) hfree'
              (fun a ha => List.not_mem_cons_of_ne_of_not_mem (ne_of_mem_of_not_mem ha hnodup.1)
                (hdisj a (List.mem_cons_of_mem k ha))) h
            exact {
              linked := by simpa using hfreed.linked
              nfree := by
                have hn := hfreed.nfree
                simp only [List.length_cons] at hn ⊢
                omega
              others := fun a ha => by
                obtain ⟨hak, hac⟩ := List.ne_and_not_mem_of_not_mem_cons ha
                simpa [hak] using hfreed.others a hac
              msghdrs := hfreed.msghdrs
              freeMsghdrs := hfreed.freeMsghdrs
              msqids := hfreed.msqids
              tasks := hfreed.tasks }
    · obtain ⟨rfl, rfl⟩ := Prod.mk.inj (Option.some.inj h)
      obtain rfl : chain = [] := hspot.eq_nil rfl
      exact ⟨hfree, by simp, fun k hk => rfl, rfl, rfl, rfl, rfl⟩

theorem Msginfo.msgssz_pos (c : Msginfo) : 0 < c.msgssz := by
  obtain ⟨k, -, -, hk⟩ := c.msgssz_eq
  rw [hk]
  exact Nat.two_pow_pos k

def Msginfo.Needs (c : Msginfo) (n ts : Nat) : Prop := ts ≤ n * c.msgssz ∧ n * c.msgssz < ts + c.msgssz

theorem Msginfo.Needs.next {n ts : Nat} (hts : 0 < ts) :
    c.Needs (n + 1) ts ↔ c.Needs n (if ts ≥ c.msgssz then ts - c.msgssz else 0) := by
  have hpos := c.msgssz_pos
  unfold Msginfo.Needs
  rw [Nat.succ_mul]
  split
  · omega
  · constructor
    · exact fun h => by omega
    · exact fun h => by
        have hzero : n * c.msgssz = 0 := by
          rcases Nat.eq_zero_or_pos n with rfl | hn
          · exact Nat.zero_mul _
          · have hle := Nat.le_mul_of_pos_left c.msgssz hn
            omega
        omega

theorem Msginfo.needs_zero {ts : Nat} (hzero : ¬ ts > 0) : c.Needs 0 ts := by
  have hpos := c.msgssz_pos
  unfold Msginfo.Needs
  omega

theorem freeSegments_needs {fuel ts : Nat} {spot : Option Nat} {chain : List Nat}
    (hspot : Linked m.msgmaps spot chain none) (h : freeSegments c fuel ts spot m = some (none, m')) :
    c.Needs chain.length ts := by
  induction fuel generalizing ts spot chain m with
  | zero =>
    unfold freeSegments at h
    split at h
    · cases h
    · next hzero =>
      obtain ⟨rfl, -⟩ := Prod.mk.inj (Option.some.inj h)
      obtain rfl := hspot.eq_nil rfl
      exact c.needs_zero hzero
  | succ fuel ih =>
    unfold freeSegments at h
    split at h
    · next hts =>
      cases hk : spot with
      | none => simp [hk] at h
      | some k =>
        rw [hk] at h hspot
        dsimp only at h
        split at h
        · cases h
        · cases chain with
          | nil => simp at hspot
          | cons k' chain =>
            obtain rfl : k = k' := Option.some.inj hspot.1
            have hnodup := List.nodup_cons.mp hspot.nodup
            rw [List.length_cons, Msginfo.Needs.next hts]
            exact ih (hspot.2.update hnodup.1 m.freeMsgmaps) h
    · next hzero =>
      obtain ⟨rfl, -⟩ := Prod.mk.inj (Option.some.inj h)
      obtain rfl := hspot.eq_nil rfl
      exact c.needs_zero hzero

theorem freeSegments_isSome {fuel ts : Nat} {spot : Option Nat} {chain : List Nat}
    (hspot : Linked m.msgmaps spot chain none) (hrange : ∀ k ∈ chain, k < c.msgseg)
    (hneeds : c.Needs chain.length ts) (hfuel : ts ≤ fuel) : ∃ m', freeSegments c fuel ts spot m = some (none, m') := by
  have hpos := c.msgssz_pos
  induction fuel generalizing ts spot chain m with
  | zero =>
    obtain rfl : ts = 0 := Nat.le_zero.mp hfuel
    obtain rfl : chain = [] := List.eq_nil_of_length_eq_zero (by
      by_contra hne
      have hle := Nat.le_mul_of_pos_left c.msgssz (Nat.pos_of_ne_zero hne)
      have hlt := hneeds.2
      omega)
    obtain rfl : spot = none := hspot
    exact ⟨m, rfl⟩
  | succ fuel ih =>
    unfold freeSegments
    cases chain with
    | nil =>
      obtain rfl : spot = none := hspot
      have hle := hneeds.1
      rw [List.length_nil, Nat.zero_mul] at hle
      rw [if_neg (by omega)]
      exact ⟨m, rfl⟩
    | cons k chain =>
      obtain ⟨rfl, hrest⟩ := hspot
      have hts : 0 < ts := by
        have hlt := hneeds.2
        rw [List.length_cons, Nat.succ_mul] at hlt
        omega
      have hnodup := List.nodup_cons.mp (Linked.nodup (p := some k) ⟨rfl, hrest⟩)
      rw [if_pos hts]
      dsimp only
      rw [if_neg (Nat.not_le.mpr (hrange k List.mem_cons_self))]
      refine ih (hrest.update hnodup.1 m.freeMsgmaps) (fun a ha => hrange a (List.mem_cons_of_mem k ha)) ?_ ?_
      · rw [List.length_cons, Msginfo.Needs.next hts] at hneeds
        exact hneeds
      · split <;> omega

structure Freed (h : Nat) (m m' : Messages) : Prop where
  msqids : m'.msqids = m.msqids
  tasks : m'.tasks = m.tasks
  others : ∀ a, a ≠ h → m'.msghdrs a = m.msghdrs a

theorem Stored.msgFreehdr (hs : Stored c m free (h :: msgs) freeSegs segs)
    (hfree : msgFreehdr c h m = some m') :
    Stored c m' (h :: free) msgs ((segs h).reverse ++ freeSegs) segs ∧ Freed h m m' := by
  unfold Sysv.msgFreehdr at hfree
  cases hloop : freeSegments c (m.msghdrs h).msgTs (m.msghdrs h).msgTs (m.msghdrs h).msgSpot m with
  | none => simp [hloop] at hfree
  | some r =>
    obtain ⟨spot, m₁⟩ := r
    cases spot with
    | some k => simp [hloop] at hfree
    | none =>
      rw [hloop] at hfree
      obtain rfl := Option.some.inj hfree
      have hsegs := hs.segs_nodup
      rw [List.flatMap_cons, List.nodup_append'] at hsegs
      obtain ⟨hfreeNodup, hmsgsNodup, hdisj⟩ := hsegs
      have hfreed := freeSegments_spec (hs.chained h List.mem_cons_self) hs.freeSegsLinked
        (fun k hk hkf => hdisj hkf (List.mem_append_left _ hk)) hloop
      have hh : h ∉ free := hs.not_mem_free List.mem_cons_self
      have hhm : h ∉ msgs := (List.nodup_cons.mp (List.nodup_append.mp hs.hdrs_nodup).2.1).1
      refine ⟨?_, hfreed.msqids, hfreed.tasks, fun a hah => by simp [Messages.setHdr, hah, hfreed.msghdrs]⟩
      exact {
        freeLinked := by
          refine ⟨rfl, ?_⟩
          have hlinked := hs.freeLinked
          rw [← hfreed.freeMsghdrs] at hlinked
          simp only [Messages.setHdr, Function.update_self]
          refine hlinked.congr fun a ha => ?_
          have hah : a ≠ h := ne_of_mem_of_not_mem ha hh
          simp [hah, hfreed.msghdrs]
        hdrs := List.perm_middle.symm.trans hs.hdrs
        freeSegsLinked := hfreed.linked
        nfree := by
          have hn := hfreed.nfree
          have hn' := hs.nfree
          simp only [Messages.setHdr, List.length_append, List.length_reverse]
          omega
        chained := fun a ha => by
          have hah : a ≠ h := ne_of_mem_of_not_mem ha hhm
          simp only [Messages.setHdr, Function.update_of_ne hah, hfreed.msghdrs]
          refine (hs.chained a (List.mem_cons_of_mem h ha)).congr fun k hk => hfreed.others k ?_
          intro hkh
          exact (List.nodup_append.mp hmsgsNodup).2.2 k hkh k (List.mem_flatMap.mpr ⟨a, ha, hk⟩) rfl
        segs := by
          refine List.Perm.trans ?_ hs.segs
          rw [List.flatMap_cons, ← List.append_assoc]
          refine List.Perm.append ?_ (List.Perm.refl _)
          exact List.perm_append_comm.trans ((List.Perm.refl _).append (List.reverse_perm _)) }

theorem Stored.freeQueue {ix fuel : Nat} {p : Option Nat} {q : List Nat}
    (hs : Stored c m free (q ++ msgs) freeSegs segs)
    (hq : Linked (fun h => (m.msghdrs h).msgNext) p q none) (hfree : freeQueue c ix fuel p m = some m') :
    (∃ free' freeSegs', Stored c m' free' msgs freeSegs' segs) ∧ m'.tasks = m.tasks ∧
      (∀ a, a ∉ q → m'.msghdrs a = m.msghdrs a) ∧
      m'.msqids = update m.msqids ix { m.msqids ix with
        msgCbytes := (m.msqids ix).msgCbytes - (q.map fun h => (m.msghdrs h).msgTs).sum
        msgQnum := (m.msqids ix).msgQnum - q.length } := by
  induction fuel generalizing m p q free freeSegs with
  | zero =>
    cases q with
    | nil =>
      obtain rfl : p = none := hq
      obtain rfl : m = m' := Option.some.inj hfree
      exact ⟨⟨free, freeSegs, hs⟩, rfl, fun a _ => rfl, by simp⟩
    | cons h q =>
      obtain rfl : p = some h := hq.1
      simp [Sysv.freeQueue] at hfree
  | succ fuel ih =>
    cases q with
    | nil =>
      obtain rfl : p = none := hq
      obtain rfl : m = m' := Option.some.inj hfree
      exact ⟨⟨free, freeSegs, hs⟩, rfl, fun a _ => rfl, by simp⟩
    | cons h q =>
      obtain rfl : p = some h := hq.1
      unfold Sysv.freeQueue at hfree
      obtain ⟨m₁, hm₁, hrest⟩ := Option.bind_eq_some_iff.mp hfree
      obtain ⟨hs₁, hfreed⟩ := (hs.setQueue ix _).msgFreehdr hm₁
      have hhq : h ∉ q := (List.nodup_cons.mp hq.nodup).1
      have hsame : ∀ a ∈ q, m₁.msghdrs a = m.msghdrs a := fun a ha =>
        hfreed.others a (ne_of_mem_of_not_mem ha hhq)
      have hq₁ : Linked (fun a => (m₁.msghdrs a).msgNext) (m.msghdrs h).msgNext q none :=
        hq.2.congr fun a ha => congrArg Msg.msgNext (hsame a ha)
      obtain ⟨hs', htasks, hothers, hmsqids⟩ := ih hs₁ hq₁ hrest
      refine ⟨hs', htasks.trans hfreed.tasks, fun a ha => ?_, ?_⟩
      · obtain ⟨hah, haq⟩ := List.ne_and_not_mem_of_not_mem_cons ha
        exact (hothers a haq).trans (hfreed.others a hah)
      · have hts : (q.map fun a => (m₁.msghdrs a).msgTs) = q.map fun a => (m.msghdrs a).msgTs :=
          List.map_congr_left fun a ha => congrArg Msg.msgTs (hsame a ha)
        rw [hmsqids, hfreed.msqids, hts]
        simp only [Messages.setQueue, Function.update_self, Function.update_idem, List.map_cons,
          List.sum_cons, List.length_cons, Nat.cast_add, Nat.cast_one]
        congr 2 <;> omega

end NetBSD.Sysv
