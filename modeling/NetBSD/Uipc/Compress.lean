import NetBSD.Uipc.Records

/-!
# Compressing a chain into a socket buffer

`sbcompress` moves a chain behind an mbuf of the buffer. It keeps the records and the counters, and the
bytes behind the mbuf become those of the chain, whatever was freed, copied or linked.
-/

namespace NetBSD.Uipc

open NetBSD.Lib

variable {before after : List (List Addr)} {r r' ms l : List Addr} {m : Option Addr} {a n c : Addr}
  {st st' : Store} {eor : Bool}

def record (r : List Addr) : List (List Addr) := if r = [] then [] else [r]

@[simp] theorem record_nil : record [] = [] := rfl

theorem record_of_ne_nil (h : r ≠ []) : record r = [r] := if_neg h

@[simp] theorem flatten_record (r : List Addr) : (record r).flatten = r := by
  by_cases h : r = []
  · rw [h, record_nil, List.flatten_nil]
  · rw [record_of_ne_nil h, List.flatten_singleton]

theorem Records.extend {mbuf mbuf' : Addr → Mbuf} {p : Option Addr}
    (h : Records mbuf p (before ++ [l ++ [n]] ++ after))
    (hnodup : (before ++ [l ++ [n]] ++ after).flatten.Nodup)
    (hn : (mbuf' n).mNext = some c) (hc : (mbuf' c).mNext = none)
    (hnext : ∀ a ∈ (before ++ [l ++ [n]] ++ after).flatten, a ≠ n → (mbuf' a).mNext = (mbuf a).mNext)
    (hpkt : ∀ a ∈ (before ++ [l ++ [n]] ++ after).flatten, (mbuf' a).mNextpkt = (mbuf a).mNextpkt) :
    Records mbuf' p (before ++ [l ++ [n] ++ [c]] ++ after) := by
  have hheads : heads (before ++ [l ++ [n] ++ [c]] ++ after) = heads (before ++ [l ++ [n]] ++ after) := by
    cases l <;> simp
  have hothers : ∀ r ∈ before ++ after, n ∉ r := by
    intro r hr hnr
    have hsplit : (before ++ [l ++ [n]] ++ after).flatten.Perm
        ((before ++ after).flatten ++ (l ++ [n])) := by
      simp only [List.flatten_append, List.flatten_singleton]
      rw [List.append_assoc before.flatten, List.append_assoc before.flatten]
      exact List.perm_append_comm.append_left _
    exact (List.nodup_append.mp (hsplit.nodup_iff.mp hnodup)).2.2 n (List.mem_flatten.mpr ⟨r, hr, hnr⟩) n
      (by simp) rfl
  refine ⟨hheads ▸ h.queue.congr fun a ha => hpkt a (mem_flatten_of_mem_heads ha), ?_, ?_⟩
  · exact forall_mem_between.mpr ⟨(forall_mem_between.mp h.ne_nil).1, by simp⟩
  · obtain ⟨hrest, hold⟩ := forall_mem_between.mp h.chain
    refine forall_mem_between.mpr ⟨fun r hr => ?_, ?_⟩
    · have hmem : r ∈ before ++ [l ++ [n]] ++ after := by
        simp only [List.mem_append] at hr ⊢
        tauto
      exact (hrest r hr).congr fun a ha =>
        hnext a (List.mem_flatten.mpr ⟨r, hmem, ha⟩) (ne_of_mem_of_not_mem ha (hothers r hr))
    · have hmem : l ++ [n] ∈ before ++ [l ++ [n]] ++ after := by simp
      have hnl : n ∉ l := by
        have hr : (l ++ [n]).Nodup := hold.nodup
        simpa using (List.nodup_append.mp hr).2.2 n
      have hhead : (l ++ [n] ++ [c]).head? = (l ++ [n]).head? := by cases l <;> rfl
      rw [hhead, linked_concat, linked_concat]
      refine ⟨⟨(linked_concat.mp hold).1.congr fun a ha => ?_, hn⟩, hc⟩
      exact hnext a (List.mem_flatten.mpr ⟨_, hmem, List.mem_append_left _ ha⟩)
        (ne_of_mem_of_not_mem ha hnl)

theorem Records.singleton {mbuf : Addr → Mbuf} (hnext : (mbuf c).mNext = none)
    (hpkt : (mbuf c).mNextpkt = none) : Records mbuf (some c) [[c]] where
  queue := ⟨rfl, hpkt⟩
  ne_nil := by simp
  chain := fun r hr => by
    rw [List.mem_singleton.mp hr]
    exact ⟨rfl, hnext⟩

theorem length_overwrite {s data : List Byte} {i : Nat} (h : i + data.length ≤ s.length) :
    (overwrite s i data).length = s.length := by
  simp only [overwrite, List.length_append, List.length_take, List.length_drop]
  omega

theorem take_drop_overwrite {s data : List Byte} {d k : Nat} (h : d + k + data.length ≤ s.length) :
    ((overwrite s (d + k) data).drop d).take (k + data.length) = (s.drop d).take k ++ data := by
  have hfront : (s.take (d + k)).drop d = (s.drop d).take k := by
    rw [List.drop_take, Nat.add_sub_cancel_left]
  have hlen : d ≤ (s.take (d + k)).length := by
    rw [List.length_take]
    omega
  have hk : ((s.drop d).take k).length = k := by
    rw [List.length_take, List.length_drop]
    omega
  rw [overwrite, List.append_assoc, List.drop_append_of_le_length hlen, hfront, List.take_append,
    List.take_of_length_le (by omega), hk, Nat.add_sub_cancel_left, List.take_left]

def Mbuf.absorb (n m : Mbuf) : Mbuf :=
  { n with storage := overwrite n.storage (n.mData + n.mLen) m.bytes, mLen := n.mLen + m.mLen }

section Absorb

variable {nb mb : Mbuf}

theorem Mbuf.takes_iff : nb.takes mb = true ↔
    nb.mExt = none ∧ nb.mEor = false ∧ nb.mData + nb.mLen + mb.mLen < mlen ∧ nb.mType = mb.mType := by
  simp [Mbuf.takes, Option.isNone_iff_eq_none, and_assoc]

theorem Mbuf.absorb_room (h : nb.takes mb = true) (hn : nb.Fits) (hm : mb.Fits) :
    nb.mData + nb.mLen + mb.bytes.length ≤ nb.storage.length := by
  obtain ⟨hext, -, hroom, -⟩ := Mbuf.takes_iff.mp h
  have hdat := hn.dat hext
  have hlen := hm.length_bytes
  omega

theorem Mbuf.bytes_absorb (h : nb.takes mb = true) (hn : nb.Fits) (hm : mb.Fits) :
    (nb.absorb mb).bytes = nb.bytes ++ mb.bytes := by
  have hroom := Mbuf.absorb_room h hn hm
  have hlen := hm.length_bytes
  rw [Mbuf.bytes, Mbuf.absorb]
  show ((overwrite nb.storage (nb.mData + nb.mLen) mb.bytes).drop nb.mData).take (nb.mLen + mb.mLen) = _
  rw [← hlen, take_drop_overwrite hroom]
  rfl

theorem Mbuf.Fits.absorb (h : nb.takes mb = true) (hn : nb.Fits) (hm : mb.Fits) :
    (nb.absorb mb).Fits := by
  have hroom := Mbuf.absorb_room h hn hm
  have hlen := hm.length_bytes
  have hstorage : (nb.absorb mb).storage.length = nb.storage.length := length_overwrite hroom
  refine ⟨?_, fun hext => hstorage.trans (hn.dat hext)⟩
  rw [hstorage]
  show nb.mData + (nb.mLen + mb.mLen) ≤ _
  omega

end Absorb

/-- Inside `sbcompress`: the chain `ms` at `m` is still to be moved behind the record `r`. -/
structure Pending (st : Store) (before : List (List Addr)) (r : List Addr) (after : List (List Addr))
    (m : Option Addr) (ms : List Addr) : Prop where
  records : Records st.mbuf st.sb.sbMb (before ++ record r ++ after)
  counted : Counted st (before.flatten ++ r ++ after.flatten)
  start : r = [] → before = [] ∧ after = []
  chain : Linked (fun a => (st.mbuf a).mNext) m ms none
  outside : Outside st (before.flatten ++ r ++ after.flatten) ms

structure Moved (st st' : Store) (r r' ms : List Addr) : Prop where
  bytes : bytesOf st'.mbuf r' = bytesOf st.mbuf r ++ bytesOf st.mbuf ms
  frame : ∀ a, a ∉ r → a ∉ ms → st'.mbuf a = st.mbuf a
  mem : ∀ a ∈ r', a ∈ r ∨ a ∈ ms
  perm : (r' ++ st'.free).Perm (r ++ ms ++ st.free)
  size_eq : st'.size = st.size
  sbLock_eq : st'.sb.sbLock = st.sb.sbLock

theorem Moved.refl (st : Store) (r : List Addr) : Moved st st r r [] :=
  ⟨by simp, fun _ _ _ => rfl, fun _ h => .inl h, by simp, rfl, rfl⟩

theorem Moved.cons {st₁ : Store} {r₁ : List Addr} (h₁ : Moved st st₁ r r₁ [a])
    (h₂ : Moved st₁ st' r₁ r' ms) (hms : ∀ b ∈ ms, b ∉ r ∧ b ≠ a) : Moved st st' r r' (a :: ms) where
  bytes := by
    have hrest : bytesOf st₁.mbuf ms = bytesOf st.mbuf ms :=
      bytesOf_congr fun b hb => by rw [h₁.frame b (hms b hb).1 (by simpa using (hms b hb).2)]
    rw [h₂.bytes, h₁.bytes, hrest]
    simp
  frame := fun b hr hb => by
    have hba : b ∉ [a] := by
      simp only [List.mem_cons, not_or] at hb
      simpa using hb.1
    have hr₁ : b ∉ r₁ := fun hmem => (h₁.mem b hmem).elim hr hba
    rw [h₂.frame b hr₁ fun hmem => hb (List.mem_cons_of_mem a hmem), h₁.frame b hr hba]
  mem := fun b hb => by
    rcases h₂.mem b hb with hb | hb
    · exact (h₁.mem b hb).imp id fun hba => by
        rw [List.mem_singleton.mp hba]
        exact List.mem_cons_self
    · exact .inr (List.mem_cons_of_mem a hb)
  perm := by
    have hfirst : (r₁ ++ st₁.free ++ ms).Perm (r ++ [a] ++ st.free ++ ms) := h₁.perm.append_right ms
    have hin : (r₁ ++ ms ++ st₁.free).Perm (r₁ ++ st₁.free ++ ms) := by
      rw [List.append_assoc, List.append_assoc]
      exact List.perm_append_comm.append_left _
    have hout : (r ++ [a] ++ st.free ++ ms).Perm (r ++ a :: ms ++ st.free) := by
      have hassoc : r ++ a :: ms ++ st.free = r ++ [a] ++ (ms ++ st.free) := by simp
      rw [hassoc, List.append_assoc (r ++ [a])]
      exact List.perm_append_comm.append_left _
    exact h₂.perm.trans (hin.trans (hfirst.trans hout))
  size_eq := h₂.size_eq.trans h₁.size_eq
  sbLock_eq := h₂.sbLock_eq.trans h₁.sbLock_eq

theorem Moved.setMbuf (h : Moved st st' r r' ms) (hn : n ∈ r') {z : Mbuf}
    (hbytes : z.bytes = (st'.mbuf n).bytes) : Moved st (st'.setMbuf n z) r r' ms where
  bytes := by
    rw [← h.bytes]
    refine bytesOf_congr fun b _ => ?_
    by_cases hb : b = n
    · rw [hb, Store.mbuf_setMbuf, Function.update_self, hbytes]
    · rw [Store.mbuf_setMbuf, Function.update_of_ne hb]
  frame := fun b hr hms => by
    have hb : b ≠ n := fun heq => (h.mem n hn).elim (heq ▸ hr) (heq ▸ hms)
    rw [Store.mbuf_setMbuf, Function.update_of_ne hb, h.frame b hr hms]
  mem := h.mem
  perm := h.perm
  size_eq := h.size_eq
  sbLock_eq := h.sbLock_eq

section Steps

variable {mb nb : Mbuf}

theorem Pending.notMem (h : Pending st before r after (some a) (a :: ms)) :
    a ∉ before.flatten ++ r ++ after.flatten ++ st.free :=
  h.outside.notMem a List.mem_cons_self

theorem Pending.notMem_record (h : Pending st before r after m ms) : ∀ b ∈ ms, b ∉ r := by
  intro b hb hr
  refine h.outside.notMem b hb ?_
  simp [hr]

theorem Pending.discard (h : Pending st before r after (some a) (a :: ms))
    (hlen : (st.mbuf a).mLen = 0) :
    Pending (st.mfree a).1 before r after (st.mbuf a).mNext ms
      ∧ Moved st (st.mfree a).1 r r [a] := by
  refine ⟨⟨h.records, h.counted.mfree h.notMem (h.outside.below a List.mem_cons_self), h.start,
    h.chain.2, h.outside.tail (fun _ _ => rfl) (fun b hb => ?_) rfl⟩, ⟨?_, fun _ _ _ => rfl,
    fun _ hb => .inl hb, ?_, rfl, rfl⟩⟩
  · simp only [Store.mfree, List.mem_append, List.mem_cons] at hb ⊢
    tauto
  · have hbytes : (st.mbuf a).bytes = [] := by simp [Mbuf.bytes, hlen]
    simp [Store.mfree, hbytes]
  · simp [Store.mfree]

theorem Pending.take (h : Pending st before (l ++ [n]) after (some a) (a :: ms))
    (htakes : (st.mbuf n).takes (st.mbuf a) = true) :
    let st₁ := ({ st with sb := { st.sb with sbCc := st.sb.sbCc + (st.mbuf a).mLen } }.setMbuf n
      ((st.mbuf n).absorb (st.mbuf a)) |>.mfree a).1
    Pending st₁ before (l ++ [n]) after (st.mbuf a).mNext ms
      ∧ Moved st st₁ (l ++ [n]) (l ++ [n]) [a] := by
  intro st₁
  have hna : a ∉ l ++ [n] := h.notMem_record a List.mem_cons_self
  have hne : a ≠ n := fun heq => hna (by simp [heq])
  have hnfits : (st.mbuf n).Fits := h.counted.fits n (by simp)
  have hafits : (st.mbuf a).Fits := h.outside.fits a List.mem_cons_self
  have hlist : before.flatten ++ (l ++ [n]) ++ after.flatten
      = before.flatten ++ l ++ n :: after.flatten := by simp
  have hframe : ∀ b, b ≠ n → st₁.mbuf b = st.mbuf b := fun b hb => Function.update_of_ne hb _ _
  have hself : st₁.mbuf n = (st.mbuf n).absorb (st.mbuf a) := Function.update_self _ _ _
  have hms : ∀ b ∈ ms, b ≠ n := fun b hb heq =>
    h.notMem_record b (List.mem_cons_of_mem a hb) (by simp [heq])
  have hcounted : Counted st (before.flatten ++ l ++ n :: after.flatten) := hlist ▸ h.counted
  have hgrown : Counted st₁ (before.flatten ++ (l ++ [n]) ++ after.flatten) := by
    rw [hlist]
    have hlen : (((st.mbuf n).absorb (st.mbuf a)).mLen : Int)
        = (st.mbuf n).mLen + (st.mbuf a).mLen := Nat.cast_add _ _
    refine (hcounted.resize (z := (st.mbuf n).absorb (st.mbuf a)) (by rw [hlen]; omega) rfl
      (hnfits.absorb htakes hafits)).mfree ?_
      (h.outside.below a List.mem_cons_self)
    rw [← hlist]
    exact h.notMem
  refine ⟨⟨h.records.congr (fun b _ => ?_) fun b _ => ?_, hgrown, h.start,
    h.chain.2.congr fun b hb => by rw [hframe b (hms b hb)],
    h.outside.tail (fun b hb => hframe b (hms b hb)) (fun b hb => ?_) rfl⟩,
    ⟨?_, fun b hb _ => hframe b fun heq => hb (by simp [heq]), fun b hb => .inl hb, ?_, rfl, rfl⟩⟩
  · by_cases hb : b = n
    · rw [hb, hself]
      rfl
    · rw [hframe b hb]
  · by_cases hb : b = n
    · rw [hb, hself]
      rfl
    · rw [hframe b hb]
  · simp only [st₁, Store.mfree, Store.setMbuf, List.mem_append, List.mem_cons] at hb ⊢
    tauto
  · have hnl : n ∉ l := by
      have := hcounted.nodup_left.of_append_left.of_append_right
      have hdisj := (List.nodup_append.mp hcounted.nodup_left).2.2
      exact fun hn => hdisj n (List.mem_append_right _ hn) n List.mem_cons_self rfl
    have hrest : bytesOf st₁.mbuf l = bytesOf st.mbuf l :=
      bytesOf_congr fun b hb => by rw [hframe b (ne_of_mem_of_not_mem hb hnl)]
    rw [bytesOf_append, hrest, bytesOf_cons, hself, Mbuf.bytes_absorb htakes hnfits hafits]
    simp
  · simp [st₁, Store.mfree, Store.setMbuf]

theorem Pending.linkFirst (h : Pending st [] [] [] (some a) (a :: ms)) :
    let mb := st.mbuf a
    let st₁ := ({ st with sb := { st.sb with sbMb := some a } }.sballoc a).setMbuf a
      { mb with mEor := false, mNext := none }
    Pending st₁ [] [a] [] mb.mNext ms ∧ Moved st st₁ [] [a] [a] := by
  intro mb st₁
  have hself : st₁.mbuf a = { mb with mEor := false, mNext := none } := Function.update_self _ _ _
  have hframe : ∀ b, b ≠ a → st₁.mbuf b = st.mbuf b := fun b hb => Function.update_of_ne hb _ _
  have hms : ∀ b ∈ ms, b ≠ a := fun b hb heq =>
    (List.nodup_cons.mp h.outside.nodup).1 (heq ▸ hb)
  have hafits : (st.mbuf a).Fits := h.outside.fits a List.mem_cons_self
  have hcounted : Counted { st with sb := { st.sb with sbMb := some a } } ([] ++ []) :=
    ⟨h.counted.nodup, h.counted.sbCc_eq, h.counted.sbMbcnt_eq, h.counted.fits, h.counted.below⟩
  have hgrown : Counted st₁ [a] :=
    (hcounted.sballoc h.notMem hafits (h.outside.below a List.mem_cons_self)).setMbuf rfl rfl
      fun hfits => ⟨hfits.inside, hfits.dat⟩
  refine ⟨⟨Records.singleton (c := a) ?_ ?_, hgrown, by simp, ?_, ?_⟩, ⟨?_, ?_, ?_, ?_, rfl, rfl⟩⟩
  · rw [hself]
  · rw [hself]
    exact h.outside.mNextpkt_eq a List.mem_cons_self
  · exact h.chain.2.congr fun b hb => by rw [hframe b (hms b hb)]
  · refine h.outside.tail (fun b hb => hframe b (hms b hb)) (fun b hb => ?_) rfl
    rcases List.mem_append.mp hb with hb | hb
    · exact .inr (by simpa using hb)
    · exact .inl hb
  · rw [bytesOf_cons, hself]
    rfl
  · exact fun b _ hb => hframe b (by simpa using hb)
  · exact fun b hb => .inr hb
  · exact List.Perm.refl _

theorem Pending.link (h : Pending st before (l ++ [n]) after (some a) (a :: ms)) :
    let mb := st.mbuf a
    let st₁ := ((st.setMbuf n { st.mbuf n with mNext := some a }).sballoc a).setMbuf a
      { mb with mEor := false, mNext := none }
    Pending st₁ before (l ++ [n] ++ [a]) after mb.mNext ms
      ∧ Moved st st₁ (l ++ [n]) (l ++ [n] ++ [a]) [a] := by
  intro mb st₁
  have hna : a ∉ l ++ [n] := h.notMem_record a List.mem_cons_self
  have hne : n ≠ a := fun heq => hna (by simp [heq])
  have hself : st₁.mbuf a = { mb with mEor := false, mNext := none } := Function.update_self _ _ _
  have hn : st₁.mbuf n = { st.mbuf n with mNext := some a } :=
    (Function.update_of_ne hne _ _).trans (Function.update_self _ _ _)
  have hframe : ∀ b, b ≠ a → b ≠ n → st₁.mbuf b = st.mbuf b := fun b hba hbn =>
    (Function.update_of_ne hba _ _).trans (Function.update_of_ne hbn _ _)
  have hms : ∀ b ∈ ms, b ≠ a ∧ b ≠ n := fun b hb =>
    ⟨fun heq => (List.nodup_cons.mp h.outside.nodup).1 (heq ▸ hb),
      fun heq => h.notMem_record b (List.mem_cons_of_mem a hb) (by simp [heq])⟩
  have hafits : (st.mbuf a).Fits := h.outside.fits a List.mem_cons_self
  have hwrite : st.mbuf a = (st.setMbuf n { st.mbuf n with mNext := some a }).mbuf a :=
    (Function.update_of_ne hne.symm _ _).symm
  have hlist : before.flatten ++ (l ++ [n] ++ [a]) ++ after.flatten
      = before.flatten ++ (l ++ [n]) ++ a :: after.flatten := by simp
  have hgrown : Counted st₁ (before.flatten ++ (l ++ [n] ++ [a]) ++ after.flatten) := by
    have hcounted := h.counted.setMbuf (m := n) (z := { st.mbuf n with mNext := some a }) rfl rfl
      fun hfits => ⟨hfits.inside, hfits.dat⟩
    have halloc := hcounted.sballoc h.notMem (hwrite ▸ hafits) (h.outside.below a List.mem_cons_self)
    have hlen := congrArg Mbuf.mLen hwrite
    have hspace := congrArg Mbuf.space hwrite
    rw [hlist]
    exact halloc.setMbuf hlen hspace fun _ => ⟨hafits.inside, hafits.dat⟩
  have hflatten : (before ++ [l ++ [n]] ++ after).flatten
      = before.flatten ++ (l ++ [n]) ++ after.flatten := by simp
  have hin : ∀ b ∈ (before ++ [l ++ [n]] ++ after).flatten, b ≠ a := by
    intro b hb heq
    rw [hflatten] at hb
    exact h.notMem (List.mem_append_left _ (heq ▸ hb))
  have hrecords := h.records
  rw [record_of_ne_nil (by simp)] at hrecords
  refine ⟨⟨?_, hgrown, by simp, ?_, ?_⟩, ⟨?_, ?_, ?_, ?_, rfl, rfl⟩⟩
  · rw [record_of_ne_nil (by simp)]
    refine hrecords.extend (hflatten ▸ h.counted.nodup_left) ?_ ?_ (fun b hb hbn => ?_) fun b hb => ?_
    · rw [hn]
    · rw [hself]
    · rw [hframe b (hin b hb) hbn]
    · by_cases hbn : b = n
      · rw [hbn, hn]
      · rw [hframe b (hin b hb) hbn]
  · exact h.chain.2.congr fun b hb => by rw [hframe b (hms b hb).1 (hms b hb).2]
  · refine h.outside.tail (fun b hb => hframe b (hms b hb).1 (hms b hb).2) (fun b hb => ?_) rfl
    rw [hlist] at hb
    simp only [List.mem_append, List.mem_cons] at hb ⊢
    tauto
  · have hrecord : bytesOf st₁.mbuf (l ++ [n]) = bytesOf st.mbuf (l ++ [n]) := by
      refine bytesOf_congr fun b hb => ?_
      by_cases hbn : b = n
      · rw [hbn, hn]
        rfl
      · rw [hframe b (ne_of_mem_of_not_mem hb hna) hbn]
    rw [bytesOf_append (x := l ++ [n]), hrecord, bytesOf_cons, hself]
    rfl
  · exact fun b hb hba => hframe b (by simpa using hba) fun heq => hb (by simp [heq])
  · intro b hb
    exact List.mem_append.mp hb
  · exact List.Perm.refl _

end Steps

theorem Pending.length_le (h : Pending st before r after m ms) : ms.length ≤ st.size := by
  have hsub : ms ⊆ List.range st.size := fun a ha => List.mem_range.mpr (h.outside.below a ha)
  simpa using (h.outside.nodup.subperm hsub).length_le

theorem Pending.notMem_of_moved (h : Pending st before r after (some a) (a :: ms)) :
    ∀ b ∈ ms, b ∉ r ∧ b ≠ a := fun b hb =>
  ⟨h.notMem_record b (List.mem_cons_of_mem a hb),
    fun heq => (List.nodup_cons.mp h.outside.nodup).1 (heq ▸ hb)⟩

theorem Pending.sbcompressLoop_eq {fuel : Nat} (h : Pending st before r after m ms) (eor : Bool)
    (hfuel : ms.length ≤ fuel) :
    ∃ st' r' eor', sbcompressLoop fuel st m r.getLast? eor = .ok (st', r'.getLast?, eor')
      ∧ Pending st' before r' after none [] ∧ Moved st st' r r' ms := by
  induction ms generalizing fuel st r m eor with
  | nil =>
    obtain rfl : m = none := h.chain
    exact ⟨st, r, eor, by rw [sbcompressLoop], h, Moved.refl st r⟩
  | cons a ms ih =>
    obtain rfl : m = some a := h.chain.1
    obtain _ | fuel := fuel
    · simp at hfuel
    have hrest : ms.length ≤ fuel := by simpa using hfuel
    -- Whatever is done with the first mbuf, the rest of the chain follows it.
    have hstep : ∀ {st₁ r₁}, Pending st₁ before r₁ after (st.mbuf a).mNext ms →
        Moved st st₁ r r₁ [a] →
        sbcompressLoop (fuel + 1) st (some a) r.getLast? eor
          = sbcompressLoop fuel st₁ (st.mbuf a).mNext r₁.getLast? (eor || (st.mbuf a).mEor) →
        ∃ st' r' eor', sbcompressLoop (fuel + 1) st (some a) r.getLast? eor
            = .ok (st', r'.getLast?, eor')
          ∧ Pending st' before r' after none [] ∧ Moved st st' r r' (a :: ms) := by
      intro st₁ r₁ hp hm heq
      obtain ⟨st', r', eor', hrun, hp', hm'⟩ := ih hp _ hrest
      exact ⟨st', r', eor', heq.trans hrun, hp', hm.cons hm' h.notMem_of_moved⟩
    by_cases hdiscard : st.discards (st.mbuf a) r.getLast? (eor || (st.mbuf a).mEor) = true
    · have hlen : (st.mbuf a).mLen = 0 := by
        simp only [Store.discards, Bool.and_eq_true, beq_iff_eq] at hdiscard
        exact hdiscard.1
      obtain ⟨hp, hm⟩ := h.discard hlen
      refine hstep hp hm ?_
      rw [sbcompressLoop.eq_def]
      exact if_pos hdiscard
    · rcases List.eq_nil_or_concat r with rfl | ⟨l, n, rfl⟩
      · obtain ⟨rfl, rfl⟩ := h.start rfl
        obtain ⟨hp, hm⟩ := h.linkFirst
        refine hstep hp hm ?_
        rw [sbcompressLoop.eq_def]
        exact if_neg hdiscard
      · rw [List.concat_eq_append] at h hstep hdiscard ⊢
        have hlast : (l ++ [n]).getLast? = some n := by simp
        by_cases htakes : (st.mbuf n).takes (st.mbuf a) = true
        · obtain ⟨hp, hm⟩ := h.take htakes
          refine hstep hp hm ?_
          rw [hlast] at hdiscard ⊢
          rw [sbcompressLoop]
          refine (if_neg hdiscard).trans ?_
          dsimp only
          rw [if_pos htakes]
          have hna : a ≠ n := fun heq => h.notMem_record a List.mem_cons_self (by simp [heq])
          have hnext : (Function.update st.mbuf n ((st.mbuf n).absorb (st.mbuf a)) a).mNext
              = (st.mbuf a).mNext := by rw [Function.update_of_ne hna]
          exact congrArg (fun p => sbcompressLoop fuel _ p (some n) _) hnext
        · obtain ⟨hp, hm⟩ := h.link
          refine hstep hp hm ?_
          rw [hlast] at hdiscard ⊢
          rw [show (l ++ [n] ++ [a]).getLast? = some a by simp, sbcompressLoop]
          refine (if_neg hdiscard).trans ?_
          exact if_neg htakes

theorem Pending.sbcompress_eq (h : Pending st before r after m ms) :
    ∃ st' r', sbcompress st m r.getLast? = .ok st'
      ∧ Good st' (before ++ record r' ++ after) ∧ Moved st st' r r' ms := by
  obtain ⟨st', r', eor, hrun, hp, hm⟩ := h.sbcompressLoop_eq false (Nat.le_succ_of_le h.length_le)
  have hflatten : (before ++ record r' ++ after).flatten = before.flatten ++ r' ++ after.flatten := by
    simp
  have hgood : Good st' (before ++ record r' ++ after) := ⟨hp.records, hflatten ▸ hp.counted⟩
  rcases List.eq_nil_or_concat r' with rfl | ⟨l, n, rfl⟩
  · refine ⟨st', [], ?_, hgood, hm⟩
    rw [sbcompress, hrun]
    rfl
  · rw [List.concat_eq_append] at hrun hgood hm
    cases eor with
    | false =>
      refine ⟨st', l ++ [n], ?_, hgood, hm⟩
      rw [sbcompress, hrun, show (l ++ [n]).getLast? = some n by simp]
      rfl
    | true =>
      refine ⟨st'.setMbuf n { st'.mbuf n with mEor := true }, l ++ [n], ?_, ⟨?_, ?_⟩, ?_⟩
      · rw [sbcompress, hrun, show (l ++ [n]).getLast? = some n by simp]
        rfl
      · refine hgood.records.congr (fun b _ => ?_) fun b _ => ?_ <;>
          rw [Store.mbuf_setMbuf, Function.update_apply] <;> split <;> simp_all
      · exact hgood.counted.setMbuf rfl rfl fun hfits => ⟨hfits.inside, hfits.dat⟩
      · exact hm.setMbuf (by simp) rfl

end NetBSD.Uipc
