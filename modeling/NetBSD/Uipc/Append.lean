import NetBSD.Uipc.Compress

/-!
# Adding to a socket buffer

Each routine that adds a chain puts its mbufs into the buffer or frees them, and the bytes of the chain
stand where the routine puts its record.
-/

namespace NetBSD.Uipc

open NetBSD.Lib

variable {before after recs : List (List Addr)} {r ms l : List Addr} {m mp q : Option Addr} {a b n : Addr}
  {st st' : Store}

theorem heads_sublist (h : ∀ r ∈ recs, r ≠ []) : (heads recs).Sublist recs.flatten := by
  induction recs with
  | nil => exact List.Sublist.slnil
  | cons r recs ih =>
    have hrest := ih fun r hr => h r (List.mem_cons_of_mem _ hr)
    cases r with
    | nil => exact absurd rfl (h [] List.mem_cons_self)
    | cons a l =>
      rw [heads_cons_cons, List.flatten_cons, List.cons_append]
      exact (hrest.trans (List.sublist_append_right l _)).cons_cons a

section SetNextpkt

theorem mNext_setNextpkt : ((st.setNextpkt mp q).mbuf b).mNext = (st.mbuf b).mNext := by
  cases mp with
  | none => rfl
  | some a =>
    rw [Store.setNextpkt, Store.mbuf_setMbuf, Function.update_apply]
    split <;> simp_all

theorem bytes_setNextpkt : ((st.setNextpkt mp q).mbuf b).bytes = (st.mbuf b).bytes := by
  cases mp with
  | none => rfl
  | some a =>
    rw [Store.setNextpkt, Store.mbuf_setMbuf, Function.update_apply]
    split
    · next hb => rw [hb]; rfl
    · rfl

theorem mbuf_setNextpkt_of_ne (h : mp ≠ some b) : (st.setNextpkt mp q).mbuf b = st.mbuf b := by
  cases mp with
  | none => rfl
  | some a => exact Function.update_of_ne (fun hb => h (congrArg some hb.symm)) _ _

theorem Counted.setNextpkt (h : Counted st l) : Counted (st.setNextpkt mp q) l := by
  cases mp with
  | none => exact ⟨h.nodup, h.sbCc_eq, h.sbMbcnt_eq, h.fits, h.below⟩
  | some a => exact h.setMbuf rfl rfl fun hfits => ⟨hfits.inside, hfits.dat⟩

theorem free_setNextpkt : (st.setNextpkt mp q).free = st.free := by cases mp <;> rfl

theorem size_setNextpkt : (st.setNextpkt mp q).size = st.size := by cases mp <;> rfl

theorem sbLock_setNextpkt : (st.setNextpkt mp q).sb.sbLock = st.sb.sbLock := by cases mp <;> rfl

end SetNextpkt

theorem Records.insert (h : Records st.mbuf st.sb.sbMb (before ++ after))
    (hchain : Linked (fun a => (st.mbuf a).mNext) (some a) (a :: ms) none)
    (ha : a ∉ (before ++ after).flatten) (hpkt : (st.mbuf a).mNextpkt = (heads after).head?) :
    let st₁ := st.setNextpkt (heads before).getLast? (some a)
    Records st₁.mbuf st₁.sb.sbMb (before ++ [a :: ms] ++ after) := by
  intro st₁
  have hqueue := h.queue
  rw [heads_append] at hqueue
  have hheads : heads (before ++ [a :: ms] ++ after) = heads before ++ a :: heads after := by simp
  have haheads : ∀ b ∈ heads before ++ heads after, b ≠ a := fun b hb heq =>
    ha (mem_flatten_of_mem_heads (heads_append before after ▸ heq ▸ hb))
  refine ⟨?_, ?_, ?_⟩
  · rw [hheads]
    rcases List.eq_nil_or_concat (heads before) with hnil | ⟨s, b, hs⟩
    · have hst₁ : st₁ = { st with sb := { st.sb with sbMb := some a } } := by
        simp only [st₁, hnil]
        rfl
      rw [hnil] at hqueue ⊢
      refine ⟨by rw [hst₁], ?_⟩
      have hstart : (st₁.mbuf a).mNextpkt = st.sb.sbMb := by
        rw [hst₁]
        exact hpkt.trans (Linked.eq_head? hqueue).symm
      have hrest : Linked (fun b => (st₁.mbuf b).mNextpkt) (st₁.mbuf a).mNextpkt (heads after) none := by
        rw [hstart]
        exact hqueue.congr fun c _ => by rw [hst₁]
      exact hrest
    · rw [List.concat_eq_append] at hs
      have hlast : (heads before).getLast? = some b := by rw [hs, List.getLast?_concat]
      have hst₁ : st₁ = st.setMbuf b { st.mbuf b with mNextpkt := some a } := by
        simp only [st₁, hlast]
        rfl
      rw [hs] at hqueue haheads ⊢
      have hba : b ≠ a := haheads b (by simp)
      have hother : ∀ c, c ≠ b → st₁.mbuf c = st.mbuf c := fun c hc => by
        rw [hst₁, Store.mbuf_setMbuf, Function.update_of_ne hc]
      have hqueue' := hqueue.nodup
      obtain ⟨r, hbefore, hafter⟩ := linked_append.mp hqueue
      have hlink : st.sb.sbMb = st₁.sb.sbMb := by rw [hst₁, Store.sb_setMbuf]
      rw [← hlink]
      refine hqueue.insert ?_ ?_ fun c hc => ?_
      · rw [hst₁, Store.mbuf_setMbuf, Function.update_self]
      · rw [hother a hba.symm, hpkt, (linked_concat.mp hbefore).2, Linked.eq_head? hafter]
      · have hcb : c ≠ b := by
          rw [List.append_assoc, List.nodup_append] at hqueue'
          obtain ⟨-, hbt, hdisj⟩ := hqueue'
          rcases List.mem_append.mp hc with hc | hc
          · exact hdisj c hc b (by simp)
          · exact ne_of_mem_of_not_mem hc (List.nodup_cons.mp hbt).1
        rw [hother c hcb]
  · exact forall_mem_between.mpr ⟨h.ne_nil, List.cons_ne_nil a ms⟩
  · have hsame : ∀ {p r}, Linked (fun a => (st.mbuf a).mNext) p r none →
        Linked (fun a => (st₁.mbuf a).mNext) p r none :=
      fun hl => hl.congr fun _ _ => mNext_setNextpkt
    exact forall_mem_between.mpr ⟨fun r hr => hsame (h.chain r hr), hsame hchain⟩

theorem Records.cut {mbuf : Addr → Mbuf} {p : Option Addr}
    (h : Records mbuf p (before ++ [a :: ms] ++ after)) (ha : a ∉ (before ++ after).flatten) :
    Records (Function.update mbuf a { mbuf a with mNext := none }) p (before ++ [[a]] ++ after) := by
  have hheads : heads (before ++ [[a]] ++ after) = heads (before ++ [a :: ms] ++ after) := by simp
  refine ⟨hheads ▸ h.queue.congr fun b _ => ?_, ?_, ?_⟩
  · rw [Function.update_apply]
    split
    · next hb => rw [hb]
    · rfl
  · exact forall_mem_between.mpr ⟨(forall_mem_between.mp h.ne_nil).1, List.cons_ne_nil a []⟩
  · refine forall_mem_between.mpr ⟨fun r hr => ?_, rfl, ?_⟩
    · refine ((forall_mem_between.mp h.chain).1 r hr).congr fun b hb => ?_
      rw [Function.update_of_ne (ne_of_mem_of_not_mem (List.mem_flatten.mpr ⟨r, hr, hb⟩) ha)]
    · show (Function.update mbuf a _ a).mNext = none
      rw [Function.update_self]

/-- The chain `ms` was added to the buffer, and `data` between the bytes of two groups of records. -/
structure Added (st st' : Store) (before after : List (List Addr)) (ms : List Addr) (data : List Byte)
    (recs : List (List Addr)) : Prop where
  good : Good st' recs
  bytes : bytesOf st'.mbuf recs.flatten
    = bytesOf st.mbuf before.flatten ++ data ++ bytesOf st.mbuf after.flatten
  perm : (recs.flatten ++ st'.free).Perm ((before ++ after).flatten ++ ms ++ st.free)
  size_eq : st'.size = st.size
  sbLock_eq : st'.sb.sbLock = st.sb.sbLock

theorem Pending.added (h : Pending st before r after m ms) :
    ∃ st' recs, sbcompress st m r.getLast? = .ok st'
      ∧ Added st st' (before ++ record r) after ms (bytesOf st.mbuf ms) recs := by
  obtain ⟨st', r', hrun, hgood, hm⟩ := h.sbcompress_eq
  have hnodup := h.counted.nodup_left
  rw [List.append_assoc] at hnodup
  have hother : ∀ b ∈ before.flatten ++ after.flatten, st'.mbuf b = st.mbuf b := by
    intro b hb
    refine hm.frame b (fun hr => ?_) fun hms => ?_
    · obtain ⟨-, hra, hdisj⟩ := List.nodup_append.mp hnodup
      rcases List.mem_append.mp hb with hb | hb
      · exact hdisj b hb b (List.mem_append_left _ hr) rfl
      · exact (List.nodup_append.mp hra).2.2 b hr b hb rfl
    · refine h.outside.notMem b hms ?_
      simp only [List.mem_append] at hb ⊢
      tauto
  refine ⟨st', _, hrun, hgood, ?_, ?_, hm.size_eq, hm.sbLock_eq⟩
  · have hbefore : bytesOf st'.mbuf before.flatten = bytesOf st.mbuf before.flatten :=
      bytesOf_congr fun b hb => by rw [hother b (List.mem_append_left _ hb)]
    have hafter : bytesOf st'.mbuf after.flatten = bytesOf st.mbuf after.flatten :=
      bytesOf_congr fun b hb => by rw [hother b (List.mem_append_right _ hb)]
    simp only [List.flatten_append, flatten_record, bytesOf_append, hbefore, hafter, hm.bytes,
      List.append_assoc]
  · have hout : ∀ x f : List Addr, (before.flatten ++ x ++ after.flatten ++ f).Perm
        (before.flatten ++ after.flatten ++ (x ++ f)) := fun x f => by
      rw [← List.append_assoc]
      refine List.Perm.append_right f ?_
      rw [List.append_assoc, List.append_assoc]
      exact List.perm_append_comm.append_left _
    simp only [List.flatten_append, flatten_record]
    refine (hout r' st'.free).trans ((hm.perm.append_left _).trans ?_)
    rw [List.append_assoc r ms]
    refine (hout r (ms ++ st.free)).symm.trans ?_
    rw [List.append_assoc _ ms]

theorem Pending.mark (h : Pending st before r after m ms) (b : Addr) (eor : Bool) :
    Pending (st.setMbuf b { st.mbuf b with mEor := eor }) before r after m ms := by
  have hsame : ∀ {β : Type} (f : Mbuf → β), f { st.mbuf b with mEor := eor } = f (st.mbuf b) →
      ∀ c, f ((st.setMbuf b { st.mbuf b with mEor := eor }).mbuf c) = f (st.mbuf c) := by
    intro β f hf c
    by_cases hc : c = b
    · rw [hc, Store.mbuf_setMbuf, Function.update_self, hf]
    · rw [Store.mbuf_setMbuf, Function.update_of_ne hc]
  refine ⟨h.records.congr (fun c _ => hsame Mbuf.mNext rfl c) fun c _ => hsame Mbuf.mNextpkt rfl c,
    h.counted.setMbuf rfl rfl fun hfits => ⟨hfits.inside, hfits.dat⟩, h.start,
    h.chain.congr fun c _ => hsame Mbuf.mNext rfl c, h.outside.nodup, h.outside.notMem,
    fun c hc => ?_, fun c hc => ?_, h.outside.below⟩
  · rw [hsame Mbuf.mNextpkt rfl c]
    exact h.outside.mNextpkt_eq c hc
  · by_cases hcb : c = b
    · subst hcb
      rw [Store.mbuf_setMbuf, Function.update_self]
      exact ⟨(h.outside.fits c hc).inside, (h.outside.fits c hc).dat⟩
    · rw [Store.mbuf_setMbuf, Function.update_of_ne hcb]
      exact h.outside.fits c hc

theorem bytesOf_mark (st : Store) (b : Addr) (eor : Bool) (l : List Addr) :
    bytesOf (st.setMbuf b { st.mbuf b with mEor := eor }).mbuf l = bytesOf st.mbuf l := by
  refine bytesOf_congr fun c _ => ?_
  by_cases hc : c = b
  · rw [hc, Store.mbuf_setMbuf, Function.update_self]
    rfl
  · rw [Store.mbuf_setMbuf, Function.update_of_ne hc]

theorem Good.insert (h : Good st (before ++ after))
    (hchain : Linked (fun a => (st.mbuf a).mNext) (some a) (a :: ms) none)
    (hout : Outside st (before ++ after).flatten (a :: ms)) :
    let st₁ := ((st.sballoc a).setMbuf a
      { st.mbuf a with mNextpkt := (heads after).head? }).setNextpkt (heads before).getLast? (some a)
    Pending (st₁.setMbuf a { st₁.mbuf a with mNext := none }) before [a] after (st.mbuf a).mNext ms := by
  intro st₁
  have ha : a ∉ (before ++ after).flatten ++ st.free := hout.notMem a List.mem_cons_self
  have hain : a ∉ (before ++ after).flatten := fun hmem => ha (List.mem_append_left _ hmem)
  have hmp : ∀ b ∈ a :: ms, (heads before).getLast? ≠ some b := by
    intro b hb hlast
    have hmem := mem_flatten_of_mem_heads (List.mem_of_getLast? hlast)
    refine hout.notMem b hb ?_
    simp [hmem]
  have hnotms : a ∉ ms := (List.nodup_cons.mp hout.nodup).1
  have hself : st₁.mbuf a = { st.mbuf a with mNextpkt := (heads after).head? } :=
    (mbuf_setNextpkt_of_ne (hmp a List.mem_cons_self)).trans (Function.update_self _ _ _)
  have hms : ∀ b ∈ ms, st₁.mbuf b = st.mbuf b := fun b hb =>
    (mbuf_setNextpkt_of_ne (hmp b (List.mem_cons_of_mem a hb))).trans
      (Function.update_of_ne (ne_of_mem_of_not_mem hb hnotms) _ _)
  have hcounted : Counted st₁ (before.flatten ++ a :: after.flatten) := by
    have hlist : (before ++ after).flatten = before.flatten ++ after.flatten := List.flatten_append
    have halloc := (hlist ▸ h.counted).sballoc (hlist ▸ ha) (hout.fits a List.mem_cons_self)
      (hout.below a List.mem_cons_self)
    refine Counted.setNextpkt (halloc.setMbuf ?_ ?_ ?_)
    · rfl
    · rfl
    · exact fun hfits => ⟨hfits.inside, hfits.dat⟩
  have hlist : before.flatten ++ [a] ++ after.flatten = before.flatten ++ a :: after.flatten := by simp
  refine ⟨?_, ?_, by simp, ?_, ?_⟩
  · rw [record_of_ne_nil (List.cons_ne_nil a [])]
    refine Records.cut (show Records _ _ (before ++ [a :: ms] ++ after) from ?_) hain
    refine Records.insert (h.records.update hain _) ?_ hain ?_
    · refine ⟨rfl, ?_⟩
      show Linked _ (Function.update st.mbuf a _ a).mNext ms none
      rw [Function.update_self]
      refine hchain.2.congr fun b hb => ?_
      show (Function.update st.mbuf a _ b).mNext = _
      rw [Function.update_of_ne (ne_of_mem_of_not_mem hb hnotms)]
    · show (Function.update st.mbuf a _ a).mNextpkt = _
      rw [Function.update_self]
  · rw [hlist]
    exact hcounted.setMbuf rfl rfl fun hfits => ⟨hfits.inside, hfits.dat⟩
  · refine hchain.2.congr fun b hb => ?_
    rw [Store.mbuf_setMbuf, Function.update_of_ne (ne_of_mem_of_not_mem hb hnotms), hms b hb]
  · refine hout.tail (fun b hb => ?_) (fun b hb => ?_) ?_
    · rw [Store.mbuf_setMbuf, Function.update_of_ne (ne_of_mem_of_not_mem hb hnotms), hms b hb]
    · rw [hlist, Store.free_setMbuf] at hb
      simp only [st₁, free_setNextpkt, Store.free_setMbuf, Store.sballoc, List.flatten_append,
        List.mem_append, List.mem_cons] at hb ⊢
      tauto
    · rw [Store.size_setMbuf]
      exact size_setNextpkt

theorem Pending.compressRest_eq {st₁ : Store}
    (h : Pending (st₁.setMbuf a { st₁.mbuf a with mNext := none }) before [a] after (st₁.mbuf a).mNext ms) :
    ∃ st' recs, compressRest st₁ a = .ok st'
      ∧ Added (st₁.setMbuf a { st₁.mbuf a with mNext := none }) st' (before ++ [[a]]) after ms
        (bytesOf (st₁.setMbuf a { st₁.mbuf a with mNext := none }).mbuf ms) recs := by
  cases hnext : (st₁.mbuf a).mNext with
  | none =>
    have heq : compressRest st₁ a
        = sbcompress (st₁.setMbuf a { st₁.mbuf a with mNext := none }) none (some a) := by
      simp only [compressRest, hnext]
    rw [heq]
    exact (hnext ▸ h).added
  | some b =>
    by_cases heor : (st₁.mbuf a).mEor = true
    · set cut := st₁.setMbuf a { st₁.mbuf a with mNext := none } with hcut
      set plain := cut.setMbuf a { cut.mbuf a with mEor := false } with hplain
      have heq : compressRest st₁ a
          = sbcompress (plain.setMbuf b { plain.mbuf b with mEor := true }) (some b) (some a) := by
        simp only [compressRest, hnext, if_pos heor, ← hcut, ← hplain]
      rw [heq]
      obtain ⟨st', recs, hrun, hadded⟩ := (((hnext ▸ h).mark a false).mark b true).added
      refine ⟨st', recs, hrun, hadded.good, ?_, hadded.perm, hadded.size_eq, hadded.sbLock_eq⟩
      have hbytes := hadded.bytes
      rw [bytesOf_mark, bytesOf_mark, bytesOf_mark, bytesOf_mark, bytesOf_mark, bytesOf_mark] at hbytes
      exact hbytes
    · have heq : compressRest st₁ a
          = sbcompress (st₁.setMbuf a { st₁.mbuf a with mNext := none }) (some b) (some a) := by
        simp only [compressRest, hnext, if_neg heor]
      rw [heq]
      exact (hnext ▸ h).added

theorem Good.compressRest_eq (h : Good st (before ++ after))
    (hchain : Linked (fun a => (st.mbuf a).mNext) (some a) (a :: ms) none)
    (hout : Outside st (before ++ after).flatten (a :: ms)) :
    ∃ st' recs, compressRest (((st.sballoc a).setMbuf a
        { st.mbuf a with mNextpkt := (heads after).head? }).setNextpkt (heads before).getLast? (some a)) a
          = .ok st'
      ∧ Added st st' before after (a :: ms) (bytesOf st.mbuf (a :: ms)) recs := by
  have hpending := h.insert hchain hout
  dsimp only at hpending
  set st₁ := ((st.sballoc a).setMbuf a
    { st.mbuf a with mNextpkt := (heads after).head? }).setNextpkt (heads before).getLast? (some a) with hst₁
  have hnext : (st₁.mbuf a).mNext = (st.mbuf a).mNext := by
    rw [hst₁, mNext_setNextpkt, Store.mbuf_setMbuf, Function.update_self]
  have hbytes : ∀ l, bytesOf (st₁.setMbuf a { st₁.mbuf a with mNext := none }).mbuf l
      = bytesOf st.mbuf l := by
    refine fun l => bytesOf_congr fun b _ => ?_
    have hb : (st₁.mbuf b).bytes = (st.mbuf b).bytes := by
      rw [hst₁, bytes_setNextpkt, Store.mbuf_setMbuf, Function.update_apply]
      split
      · next hb => rw [hb]; rfl
      · rfl
    rw [Store.mbuf_setMbuf, Function.update_apply]
    split
    · next heq => rw [← hb, heq]; rfl
    · exact hb
  rw [← hnext] at hpending
  obtain ⟨st', recs, hrun, hadded⟩ := hpending.compressRest_eq
  refine ⟨st', recs, hrun, hadded.good, ?_, ?_, ?_, ?_⟩
  · rw [hadded.bytes, hbytes, hbytes, hbytes]
    simp
  · refine hadded.perm.trans ?_
    have hfree : (st₁.setMbuf a { st₁.mbuf a with mNext := none }).free = st.free := by
      rw [Store.free_setMbuf, hst₁, free_setNextpkt]
      rfl
    rw [hfree, List.flatten_append, List.flatten_append, List.flatten_singleton, List.flatten_append]
    refine List.Perm.append_right _ ?_
    rw [List.append_assoc, List.append_assoc, List.append_assoc]
    have hmid : (a :: (after.flatten ++ ms)).Perm (after.flatten ++ a :: ms) := List.perm_middle.symm
    exact hmid.append_left _
  · rw [hadded.size_eq, Store.size_setMbuf, hst₁, size_setNextpkt]
    rfl
  · rw [hadded.sbLock_eq, Store.sb_setMbuf, hst₁, sbLock_setNextpkt]
    rfl

structure Chain (st : Store) (held : List Addr) (m : Option Addr) (ms : List Addr) : Prop where
  linked : Linked (fun a => (st.mbuf a).mNext) m ms none
  outside : Outside st held ms

theorem Outside.length_le {held : List Addr} (h : Outside st held ms) : ms.length ≤ st.size := by
  have hsub : ms ⊆ List.range st.size := fun a ha => List.mem_range.mpr (h.below a ha)
  simpa using (h.nodup.subperm hsub).length_le

theorem Added.refl (h : Good st (before ++ after)) : Added st st before after [] [] (before ++ after) :=
  ⟨h, by simp, by simp, rfl, rfl⟩

theorem Good.lastRecord_some (h : Good st recs) (hmb : st.sb.sbMb = some b) :
    ∃ n, (heads recs).getLast? = some n ∧ st.lastRecord b = .ok n := by
  have hqueue := h.records.queue
  rw [hmb] at hqueue
  have hlen : (heads recs).length ≤ st.size + 1 :=
    ((heads_sublist h.records.ne_nil).length_le.trans h.counted.length_le).trans (Nat.le_succ _)
  have hlast := lastFrom_of_linked hqueue hlen
  cases hheads : (heads recs).getLast? with
  | none =>
    rw [List.getLast?_eq_none_iff.mp hheads] at hqueue
    exact absurd hqueue (by simp)
  | some n =>
    rw [hheads] at hlast
    exact ⟨n, rfl, by rw [Store.lastRecord, hlast]; rfl⟩

theorem Good.lastRecord_eq (h : Good st recs) :
    st.sb.sbMb.mapM st.lastRecord = .ok (heads recs).getLast? := by
  cases hmb : st.sb.sbMb with
  | none =>
    have hqueue := h.records.queue
    rw [hmb] at hqueue
    cases hheads : heads recs with
    | nil => rfl
    | cons a l =>
      rw [hheads] at hqueue
      exact absurd hqueue.1 (by simp)
  | some b =>
    obtain ⟨n, hn, hlast⟩ := h.lastRecord_some hmb
    rw [hn, Option.mapM_some, hlast]
    rfl

theorem sbappendrecord_eq (h : Good st recs) (hc : Chain st recs.flatten m ms) :
    ∃ st' recs', sbappendrecord st m = .ok st'
      ∧ Added st st' recs [] ms (bytesOf st.mbuf ms) recs' := by
  cases ms with
  | nil =>
    obtain rfl : m = none := hc.linked
    exact ⟨st, recs ++ [], rfl, Added.refl ((List.append_nil recs).symm ▸ h)⟩
  | cons a ms =>
    obtain rfl : m = some a := hc.linked.1
    have hgood : Good st (recs ++ []) := (List.append_nil recs).symm ▸ h
    obtain ⟨st', recs', hrun, hadded⟩ := hgood.compressRest_eq hc.linked ((List.append_nil recs).symm ▸ hc.outside)
    refine ⟨st', recs', ?_, hadded⟩
    -- The head of the chain starts no queue, so that nothing need be written there.
    have hwrite : (st.sballoc a).setMbuf a { st.mbuf a with mNextpkt := (heads []).head? }
        = st.sballoc a := by
      have hsame : { st.mbuf a with mNextpkt := none } = st.mbuf a := by
        rw [← hc.outside.mNextpkt_eq a List.mem_cons_self]
      show (st.sballoc a).setMbuf a { st.mbuf a with mNextpkt := none } = _
      rw [hsame, Store.setMbuf]
      show { st.sballoc a with mbuf := Function.update st.mbuf a (st.mbuf a) } = _
      rw [Function.update_eq_self]
      rfl
    rw [hwrite] at hrun
    rw [sbappendrecord, h.lastRecord_eq]
    exact hrun

theorem isOob_eq {fuel : Nat} (h : Linked (fun a => (st.mbuf a).mNext) (some a) l none)
    (hfuel : l.length ≤ fuel) : ∃ oob, st.isOob fuel a = .ok oob := by
  induction l generalizing a fuel with
  | nil => simp at h
  | cons b l ih =>
    obtain rfl : a = b := Option.some.inj h.1
    obtain _ | fuel := fuel
    · simp at hfuel
    rw [Store.isOob]
    cases (st.mbuf a).mType with
    | oobdata => exact ⟨true, rfl⟩
    | control =>
      cases hnext : (st.mbuf a).mNext with
      | none => exact ⟨false, rfl⟩
      | some c =>
        have hrest : Linked (fun a => (st.mbuf a).mNext) (st.mbuf a).mNext l none := h.2
        rw [hnext] at hrest
        exact ih hrest (by simpa using hfuel)
    | _ => exact ⟨false, rfl⟩

theorem oobPlace_eq {fuel : Nat} (h : Linked (fun a => (st.mbuf a).mNextpkt) m (heads after) none)
    (hne : ∀ r ∈ after, r ≠ [])
    (hchain : ∀ r ∈ after, Linked (fun a => (st.mbuf a).mNext) r.head? r none)
    (hlen : ∀ r ∈ after, r.length ≤ st.size + 1) (hfuel : after.length ≤ fuel) :
    ∃ x y, after = x ++ y
      ∧ st.oobPlace fuel (heads before).getLast? m = .ok ((heads (before ++ x)).getLast?, (heads y).head?) := by
  induction after generalizing before m fuel with
  | nil =>
    obtain rfl : m = none := h
    exact ⟨[], [], rfl, by rw [Store.oobPlace, List.append_nil]; rfl⟩
  | cons r after ih =>
    cases r with
    | nil => exact absurd rfl (hne [] List.mem_cons_self)
    | cons a l =>
      obtain rfl : m = some a := h.1
      obtain _ | fuel := fuel
      · simp at hfuel
      obtain ⟨oob, hoob⟩ := isOob_eq (hchain (a :: l) List.mem_cons_self) (hlen _ List.mem_cons_self)
      cases oob with
      | false =>
        refine ⟨[], (a :: l) :: after, rfl, ?_⟩
        rw [Store.oobPlace, hoob, List.append_nil]
        rfl
      | true =>
        obtain ⟨x, y, hxy, hrun⟩ : ∃ x y, after = x ++ y ∧
            st.oobPlace fuel (heads (before ++ [a :: l])).getLast? (st.mbuf a).mNextpkt
              = .ok ((heads (before ++ [a :: l] ++ x)).getLast?, (heads y).head?) := ih h.2
          (fun r hr => hne r (List.mem_cons_of_mem _ hr))
          (fun r hr => hchain r (List.mem_cons_of_mem _ hr))
          (fun r hr => hlen r (List.mem_cons_of_mem _ hr)) (by simpa using hfuel)
        refine ⟨(a :: l) :: x, y, by rw [hxy]; rfl, ?_⟩
        rw [Store.oobPlace, hoob]
        have hlast : (heads (before ++ [a :: l])).getLast? = some a := by simp
        rw [hlast] at hrun
        have hassoc : before ++ (a :: l) :: x = before ++ [a :: l] ++ x := by simp
        rw [hassoc]
        exact hrun

theorem Good.length_le (h : Good st recs) : recs.length ≤ st.size := by
  have hheads : (heads recs).length = recs.length := by
    have hne := h.records.ne_nil
    clear h
    induction recs with
    | nil => rfl
    | cons r recs ih =>
      cases r with
      | nil => exact absurd rfl (hne [] List.mem_cons_self)
      | cons a l =>
        rw [heads_cons_cons, List.length_cons, List.length_cons,
          ih fun r hr => hne r (List.mem_cons_of_mem _ hr)]
  rw [← hheads]
  exact (heads_sublist h.records.ne_nil).length_le.trans h.counted.length_le

theorem Good.length_record_le (h : Good st recs) (hr : r ∈ recs) : r.length ≤ st.size :=
  (List.sublist_flatten_of_mem hr).length_le.trans h.counted.length_le

theorem sbinsertoob_eq (h : Good st recs) (hc : Chain st recs.flatten m ms) :
    ∃ st' before after recs', recs = before ++ after ∧ sbinsertoob st m = .ok st'
      ∧ Added st st' before after ms (bytesOf st.mbuf ms) recs' := by
  cases ms with
  | nil =>
    obtain rfl : m = none := hc.linked
    exact ⟨st, [], recs, recs, rfl, rfl, Added.refl h⟩
  | cons a ms =>
    obtain rfl : m = some a := hc.linked.1
    obtain ⟨x, y, rfl, hplace⟩ : ∃ x y, recs = x ++ y ∧
        st.oobPlace (st.size + 1) (heads []).getLast? st.sb.sbMb
          = .ok ((heads ([] ++ x)).getLast?, (heads y).head?) :=
      oobPlace_eq h.records.queue h.records.ne_nil h.records.chain (fun r hr => Nat.le_succ_of_le (h.length_record_le hr))
      (Nat.le_succ_of_le h.length_le)
    obtain ⟨st', recs', hrun, hadded⟩ := h.compressRest_eq hc.linked hc.outside
    refine ⟨st', x, y, recs', rfl, ?_, hadded⟩
    have hstart : (heads ([] : List (List Addr))).getLast? = none := rfl
    rw [hstart] at hplace
    rw [sbinsertoob, hplace]
    exact hrun

theorem endOfRecord_eq {fuel : Nat} (h : Linked (fun a => (st.mbuf a).mNext) (some a) l none)
    (hfuel : l.length ≤ fuel) :
    ∃ b eor, st.endOfRecord fuel a = .ok (b, eor) ∧ (eor = false → l.getLast? = some b) := by
  induction l generalizing a fuel with
  | nil => simp at h
  | cons b l ih =>
    obtain rfl : a = b := Option.some.inj h.1
    obtain _ | fuel := fuel
    · simp at hfuel
    have hrest : Linked (fun a => (st.mbuf a).mNext) (st.mbuf a).mNext l none := h.2
    rw [Store.endOfRecord]
    by_cases heor : (st.mbuf a).mEor = true
    · exact ⟨a, true, if_pos heor, by simp⟩
    · rw [if_neg heor]
      cases l with
      | nil =>
        have hnext : (st.mbuf a).mNext = none := hrest
        exact ⟨a, false, by rw [hnext], fun _ => rfl⟩
      | cons c l =>
        have hnext : (st.mbuf a).mNext = some c := hrest.1
        rw [hnext] at hrest ⊢
        obtain ⟨b, eor, hrun, hlast⟩ := ih hrest (by simpa using hfuel)
        exact ⟨b, eor, hrun, fun he => List.getLast?_cons_cons.trans (hlast he)⟩

theorem sbcompress_record_eq (h : Good st (before ++ [r] ++ after))
    (hc : Chain st (before ++ [r] ++ after).flatten m ms) :
    ∃ st' recs', sbcompress st m r.getLast? = .ok st'
      ∧ Added st st' (before ++ [r]) after ms (bytesOf st.mbuf ms) recs' := by
  have hr : r ≠ [] := h.records.ne_nil r (by simp)
  have hflatten : (before ++ [r] ++ after).flatten = before.flatten ++ r ++ after.flatten := by simp
  have hpending : Pending st before r after m ms :=
    ⟨(record_of_ne_nil hr).symm ▸ h.records, hflatten ▸ h.counted, fun he => absurd he hr, hc.linked,
      hflatten ▸ hc.outside⟩
  have := hpending.added
  rwa [record_of_ne_nil hr] at this

theorem sbcompress_empty_eq (h : Good st []) (hc : Chain st [] m ms) :
    ∃ st' recs', sbcompress st m none = .ok st'
      ∧ Added st st' [] [] ms (bytesOf st.mbuf ms) recs' :=
  (show Pending st [] [] [] m ms from
    ⟨h.records, h.counted, fun _ => ⟨rfl, rfl⟩, hc.linked, hc.outside⟩).added

theorem sbappend_eq (h : Good st recs) (hc : Chain st recs.flatten m ms) :
    ∃ st' recs', sbappend st m = .ok st' ∧ Added st st' recs [] ms (bytesOf st.mbuf ms) recs' := by
  cases ms with
  | nil =>
    obtain rfl : m = none := hc.linked
    exact ⟨st, recs ++ [], rfl, Added.refl ((List.append_nil recs).symm ▸ h)⟩
  | cons a ms =>
    obtain rfl : m = some a := hc.linked.1
    rw [sbappend]
    rcases List.eq_nil_or_concat recs with rfl | ⟨before, r, rfl⟩
    · have hmb : st.sb.sbMb = none := h.records.queue
      rw [hmb]
      exact sbcompress_empty_eq h hc
    · rw [List.concat_eq_append] at h hc ⊢
      have hr : r ≠ [] := h.records.ne_nil r (by simp)
      obtain ⟨n, l, rfl⟩ := List.exists_cons_of_ne_nil hr
      have hlast : (heads (before ++ [n :: l])).getLast? = some n := by simp
      cases hmb : st.sb.sbMb with
      | none =>
        have hqueue := h.records.queue
        rw [hmb] at hqueue
        rw [← Linked.unique (l := []) rfl hqueue] at hlast
        exact absurd hlast (by simp)
      | some p =>
        obtain ⟨n', hn', hrun⟩ := h.lastRecord_some hmb
        obtain rfl : n = n' := Option.some.inj (hlast.symm.trans hn')
        have hmem : n :: l ∈ before ++ [n :: l] := by simp
        obtain ⟨b, eor, hend, heor⟩ := endOfRecord_eq (h.records.chain _ hmem)
          (Nat.le_succ_of_le (h.length_record_le hmem))
        dsimp only
        rw [hrun]
        show ∃ st' recs', (st.endOfRecord (st.size + 1) n >>= _) = _ ∧ _
        rw [hend]
        cases eor with
        | true => exact sbappendrecord_eq h hc
        | false =>
          have hnil : before ++ [n :: l] ++ [] = before ++ [n :: l] := List.append_nil _
          have := sbcompress_record_eq (hnil.symm ▸ h) (hnil.symm ▸ hc)
          rw [heor rfl] at this
          exact this

end NetBSD.Uipc
