import NetBSD.Uipc.Append

/-!
# Dropping from a socket buffer

`sbdrop` takes bytes from the front, over mbufs and records, and what stays is a buffer again;
`sbdroprecord` takes the first record, and `sbflush` everything.
-/

namespace NetBSD.Uipc

open NetBSD.Lib

variable {recs recs' : List (List Addr)} {l l' l'' r : List Addr} {m next : Option Addr} {a : Addr}
  {st st' st'' : Store} {j k len : Nat}

structure Dropping (st : Store) (m next : Option Addr) (l : List Addr) (recs : List (List Addr)) : Prop where
  chain : Linked (fun a => (st.mbuf a).mNext) m l none
  records : Records st.mbuf next recs
  counted : Counted st (l ++ recs.flatten)

/-- The first `k` bytes of the mbufs `l` were dropped, and `l'` of the mbufs were not freed. -/
structure Dropped (st st' : Store) (k : Nat) (l l' : List Addr) : Prop where
  bytes : bytesOf st'.mbuf l' = (bytesOf st.mbuf l).drop k
  perm : (l' ++ st'.free).Perm (l ++ st.free)
  size_eq : st'.size = st.size
  sbLock_eq : st'.sb.sbLock = st.sb.sbLock

theorem Dropped.refl (st : Store) (l : List Addr) : Dropped st st 0 l l := ⟨rfl, List.Perm.refl _, rfl, rfl⟩

theorem Dropped.trans (h : Dropped st st' j l l') (h' : Dropped st' st'' k l' l'') :
    Dropped st st'' (j + k) l l'' :=
  ⟨by rw [h'.bytes, h.bytes, List.drop_drop], h'.perm.trans h.perm, h'.size_eq.trans h.size_eq,
    h'.sbLock_eq.trans h.sbLock_eq⟩

theorem Dropping.length_bytes (h : Dropping st m next l recs) :
    (bytesOf st.mbuf (l ++ recs.flatten)).length = st.sb.sbCc :=
  (length_bytesOf h.counted.fits).trans h.counted.sbCc_eq.symm

theorem length_bytes_le {mbuf : Addr → Mbuf} (ha : a ∈ l) :
    (mbuf a).bytes.length ≤ (bytesOf mbuf l).length := by
  rw [bytesOf, List.flatMap]
  exact (List.sublist_flatten_of_mem (List.mem_map_of_mem (f := fun b => (mbuf b).bytes) ha)).length_le

theorem Dropping.advance (h : Dropping st none (some a) l recs) :
    ∃ l' recs', Dropping st (some a) (st.mbuf a).mNextpkt l' recs'
      ∧ l ++ recs.flatten = l' ++ recs'.flatten ∧ recs = l' :: recs' := by
  obtain rfl : l = [] := h.chain.unique rfl
  cases recs with
  | nil => exact absurd h.records.queue (by simp)
  | cons r recs =>
    cases r with
    | nil => exact absurd rfl (h.records.ne_nil [] List.mem_cons_self)
    | cons b r =>
      obtain rfl : a = b := Option.some.inj h.records.queue.1
      refine ⟨a :: r, recs, ⟨h.records.chain _ List.mem_cons_self, ⟨h.records.queue.2, ?_, ?_⟩,
        h.counted⟩, rfl, rfl⟩
      · exact fun r hr => h.records.ne_nil r (List.mem_cons_of_mem _ hr)
      · exact fun r hr => h.records.chain r (List.mem_cons_of_mem _ hr)

theorem Dropping.free (h : Dropping st (some a) next (a :: l) recs) :
    Dropping ((st.sbfree a).mfree a).1 (st.mbuf a).mNext next l recs
      ∧ Dropped st ((st.sbfree a).mfree a).1 (st.mbuf a).mLen (a :: l ++ recs.flatten) (l ++ recs.flatten) := by
  have ha := (h.counted.fits a (by simp)).length_bytes
  refine ⟨⟨h.chain.2, h.records, Counted.sbfree (x := []) h.counted⟩, ⟨?_, ?_, rfl, rfl⟩⟩
  · rw [List.cons_append, bytesOf_cons, ← ha, List.drop_left]
    rfl
  · show (l ++ recs.flatten ++ a :: st.free).Perm _
    exact List.perm_middle

theorem Dropping.shorten (h : Dropping st (some a) next (a :: l) recs) (hlen : len < (st.mbuf a).mLen) :
    let mb := st.mbuf a
    let st' := { st with sb := { st.sb with sbCc := st.sb.sbCc - len } }.setMbuf a
      { mb with mLen := mb.mLen - len, mData := mb.mData + len }
    Dropping st' (some a) next (a :: l) recs
      ∧ Dropped st st' len (a :: l ++ recs.flatten) (a :: l ++ recs.flatten) := by
  intro mb st'
  have hfits := h.counted.fits a (by simp)
  have hself : st'.mbuf a = { mb with mLen := mb.mLen - len, mData := mb.mData + len } :=
    Function.update_self _ _ _
  have hother : ∀ b, b ≠ a → st'.mbuf b = st.mbuf b := fun b hb => Function.update_of_ne hb _ _
  have hnodup : a ∉ l ++ recs.flatten := (List.nodup_cons.mp h.counted.nodup_left).1
  have hain : a ∉ recs.flatten := fun hmem => hnodup (List.mem_append_right _ hmem)
  refine ⟨⟨h.chain.congr fun b _ => ?_, h.records.update hain _, ?_⟩, ⟨?_, List.Perm.refl _, rfl, rfl⟩⟩
  · by_cases hb : b = a
    · rw [hb, hself]
    · rw [hother b hb]
  · refine Counted.resize (x := []) h.counted ?_ rfl ⟨?_, hfits.dat⟩
    · have hlen' : len < mb.mLen := hlen
      show st.sb.sbCc - len = st.sb.sbCc + ((mb.mLen - len : Nat) - (mb.mLen : Int))
      omega
    · have hlen' : len < mb.mLen := hlen
      have hinside : mb.mData + mb.mLen ≤ mb.storage.length := hfits.inside
      show mb.mData + len + (mb.mLen - len) ≤ mb.storage.length
      omega
  · have hrest : bytesOf st'.mbuf (l ++ recs.flatten) = bytesOf st.mbuf (l ++ recs.flatten) :=
      bytesOf_congr fun b hb => by rw [hother b (ne_of_mem_of_not_mem hb hnodup)]
    have hown : (st'.mbuf a).bytes = mb.bytes.drop len := by
      rw [hself]
      show (mb.storage.drop (mb.mData + len)).take (mb.mLen - len) = ((mb.storage.drop mb.mData).take mb.mLen).drop len
      rw [List.drop_take, List.drop_drop]
    have hle : len ≤ mb.bytes.length := by
      rw [hfits.length_bytes]
      exact hlen.le
    rw [List.cons_append, bytesOf_cons, bytesOf_cons, hrest, hown, List.drop_append_of_le_length hle]

theorem Dropping.sbdropLoop_eq {fuel : Nat} (h : Dropping st m next l recs)
    (hlen : len ≤ (bytesOf st.mbuf (l ++ recs.flatten)).length)
    (hfuel : l.length + recs.flatten.length + recs.length ≤ fuel) :
    ∃ st' m' next' l' recs', sbdropLoop fuel st m next len = .ok (st', m', next')
      ∧ Dropping st' m' next' l' recs' ∧ Dropped st st' len (l ++ recs.flatten) (l' ++ recs'.flatten)
      ∧ recs'.length ≤ recs.length := by
  induction fuel generalizing st m next l recs len with
  | zero =>
    obtain rfl : l = [] := List.length_eq_zero_iff.mp (by omega)
    obtain rfl : recs = [] := List.length_eq_zero_iff.mp (by omega)
    obtain rfl : len = 0 := by simpa using hlen
    exact ⟨st, m, next, [], [], by rw [sbdropLoop], h, Dropped.refl st _, le_rfl⟩
  | succ fuel ih =>
    by_cases hzero : len = 0
    · subst hzero
      exact ⟨st, m, next, l, recs, by rw [sbdropLoop], h, Dropped.refl st _, le_rfl⟩
    cases l with
    | nil =>
      obtain rfl : m = none := h.chain
      cases next with
      | none =>
        have hnil : recs = [] := h.records.unique Records.nil
        rw [hnil] at hlen
        exact absurd hlen (by simpa using hzero)
      | some a =>
        obtain ⟨l', recs', h', hflatten, rfl⟩ := h.advance
        rw [hflatten] at hlen
        obtain ⟨st', m', next', l'', recs'', hrun, hdrop, hdropped, hle⟩ := ih h' hlen (by
          simp only [List.length_nil, List.flatten_cons, List.length_append, List.length_cons] at hfuel
          omega)
        refine ⟨st', m', next', l'', recs'', ?_, hdrop, hflatten ▸ hdropped, Nat.le_succ_of_le hle⟩
        rw [← hrun, sbdropLoop.eq_def]
        cases len with
        | zero => exact absurd rfl hzero
        | succ len => rfl
    | cons a l =>
      obtain rfl : m = some a := h.chain.1
      by_cases hshort : len < (st.mbuf a).mLen
      · obtain ⟨hdrop, hdropped⟩ := h.shorten hshort
        refine ⟨_, some a, next, a :: l, recs, ?_, hdrop, hdropped, le_rfl⟩
        rw [sbdropLoop.eq_def]
        cases len with
        | zero => exact absurd rfl hzero
        | succ len => exact if_pos hshort
      · obtain ⟨hfree, hfreed⟩ := h.free
        have hbytes := congrArg List.length hfreed.bytes
        rw [List.length_drop] at hbytes
        obtain ⟨st', m', next', l', recs', hrun, hdrop, hdropped, hle⟩ := ih hfree
          (show len - (st.mbuf a).mLen ≤ _ by omega) (by
            simp only [List.length_cons] at hfuel
            omega)
        have hsum : (st.mbuf a).mLen + (len - (st.mbuf a).mLen) = len := by omega
        refine ⟨st', m', next', l', recs', ?_, hdrop, hsum ▸ hfreed.trans hdropped, hle⟩
        rw [← hrun, sbdropLoop.eq_def]
        cases len with
        | zero => exact absurd rfl hzero
        | succ len => exact if_neg hshort

theorem Dropping.freeEmpty_eq {fuel : Nat} (h : Dropping st m next l recs) (hfuel : l.length ≤ fuel) :
    ∃ st' m' l', freeEmpty fuel st m = .ok (st', m') ∧ Dropping st' m' next l' recs
      ∧ Dropped st st' 0 (l ++ recs.flatten) (l' ++ recs.flatten)
      ∧ ∀ a, m' = some a → (st'.mbuf a).mLen ≠ 0 := by
  induction l generalizing st m fuel with
  | nil =>
    obtain rfl : m = none := h.chain
    exact ⟨st, none, [], by rw [freeEmpty], h, Dropped.refl st _, fun a ha => absurd ha (by simp)⟩
  | cons a l ih =>
    obtain rfl : m = some a := h.chain.1
    obtain _ | fuel := fuel
    · simp at hfuel
    by_cases hzero : (st.mbuf a).mLen = 0
    · obtain ⟨hfree, hfreed⟩ := h.free
      obtain ⟨st', m', l', hrun, hdrop, hdropped, hhead⟩ := ih hfree (by simpa using hfuel)
      have hall := hfreed.trans hdropped
      rw [hzero] at hall
      refine ⟨st', m', l', ?_, hdrop, hall, hhead⟩
      rw [freeEmpty, if_pos hzero]
      exact hrun
    · refine ⟨st, some a, a :: l, ?_, h, Dropped.refl st _, fun b hb => ?_⟩
      · rw [freeEmpty, if_neg hzero]
      · rwa [← Option.some.inj hb]

theorem Dropping.finish (h : Dropping st (some a) next l recs) :
    let st' := { st with sb := { st.sb with sbMb := some a } }
    Good (st'.setMbuf a { st'.mbuf a with mNextpkt := next }) (l :: recs)
      ∧ Dropped st (st'.setMbuf a { st'.mbuf a with mNextpkt := next }) 0 (l ++ recs.flatten)
        (l ++ recs.flatten) := by
  intro st'
  cases l with
  | nil => exact absurd h.chain (by simp)
  | cons b l =>
    obtain rfl : a = b := Option.some.inj h.chain.1
    have hain : a ∉ recs.flatten := fun hmem =>
      (List.nodup_cons.mp h.counted.nodup_left).1 (List.mem_append_right _ hmem)
    have hcounted : Counted st' (a :: l ++ recs.flatten) :=
      ⟨h.counted.nodup, h.counted.sbCc_eq, h.counted.sbMbcnt_eq, h.counted.fits, h.counted.below⟩
    have hrecords := h.records.update hain { st.mbuf a with mNextpkt := next }
    have hchain : Linked (fun b => (Function.update st.mbuf a { st.mbuf a with mNextpkt := next } b).mNext)
        (some a) (a :: l) none := by
      refine h.chain.congr fun b _ => ?_
      rw [Function.update_apply]
      split
      · next hb => rw [hb]
      · rfl
    refine ⟨⟨⟨⟨rfl, ?_⟩, ?_, ?_⟩, hcounted.setMbuf rfl rfl fun hfits => ⟨hfits.inside, hfits.dat⟩⟩,
      ⟨?_, List.Perm.refl _, rfl, rfl⟩⟩
    · show Linked _ (Function.update st.mbuf a _ a).mNextpkt _ none
      rw [Function.update_self]
      exact hrecords.queue
    · exact List.forall_mem_cons.mpr ⟨List.cons_ne_nil a l, hrecords.ne_nil⟩
    · exact List.forall_mem_cons.mpr ⟨hchain, hrecords.chain⟩
    · rw [List.drop_zero]
      refine bytesOf_congr fun b _ => ?_
      rw [Store.mbuf_setMbuf, Function.update_apply]
      split
      · next hb => rw [hb]; rfl
      · rfl

theorem Good.sbdrop_eq (h : Good st recs) (hlen : (len : Int) ≤ st.sb.sbCc) :
    ∃ st' recs', sbdrop st len = .ok st' ∧ Good st' recs'
      ∧ Dropped st st' len recs.flatten recs'.flatten
      ∧ (len = st.sb.sbCc → recs ≠ [] → recs'.length < recs.length) := by
  have hstart : ∃ l rest, Dropping st st.sb.sbMb (st.sb.sbMb.bind fun m => (st.mbuf m).mNextpkt) l rest
      ∧ recs.flatten = l ++ rest.flatten ∧ rest.length ≤ recs.length
      ∧ (recs ≠ [] → rest.length < recs.length) := by
    cases hmb : st.sb.sbMb with
    | none =>
      obtain rfl : recs = [] := h.records.unique (hmb ▸ Records.nil)
      exact ⟨[], [], ⟨rfl, Records.nil, h.counted⟩, rfl, le_rfl, fun hne => absurd rfl hne⟩
    | some a =>
      have hdropping : Dropping st none (some a) [] recs := ⟨rfl, hmb ▸ h.records, h.counted⟩
      obtain ⟨l, rest, h', hflatten, rfl⟩ := hdropping.advance
      exact ⟨l, rest, h', rfl, by simp, fun _ => by simp⟩
  obtain ⟨l, rest, hdropping, hflatten, hrest, hlt⟩ := hstart
  have hbytes := hdropping.length_bytes
  have hsize := h.counted.length_le
  rw [hflatten, List.length_append] at hsize
  have hrecs := h.length_le
  obtain ⟨st₁, m₁, next₁, l₁, recs₁, hrun₁, hdrop₁, hdropped₁, hle₁⟩ :=
    hdropping.sbdropLoop_eq (show len ≤ _ by omega) (show _ ≤ 2 * st.size + 1 by omega)
  have hsize₁ := hdrop₁.counted.length_le
  rw [hdropped₁.size_eq, List.length_append] at hsize₁
  obtain ⟨st₂, m₂, l₂, hrun₂, hdrop₂, hdropped₂, hhead⟩ :=
    hdrop₁.freeEmpty_eq (show l₁.length ≤ st₁.size + 1 by rw [hdropped₁.size_eq]; omega)
  have hdropped := hdropped₁.trans hdropped₂
  rw [sbdrop, hrun₁]
  simp only [bind, Except.bind, hrun₂]
  cases m₂ with
  | none =>
    obtain rfl : l₂ = [] := hdrop₂.chain.unique rfl
    refine ⟨_, recs₁, rfl, ⟨hdrop₂.records, ⟨hdrop₂.counted.nodup, hdrop₂.counted.sbCc_eq,
      hdrop₂.counted.sbMbcnt_eq, hdrop₂.counted.fits, hdrop₂.counted.below⟩⟩, ?_, fun _ hne => ?_⟩
    · rw [hflatten]
      exact ⟨hdropped.bytes, hdropped.perm, hdropped.size_eq, hdropped.sbLock_eq⟩
    · exact hle₁.trans_lt (hlt hne)
  | some a =>
    obtain ⟨hgood, hkept⟩ := hdrop₂.finish
    refine ⟨_, l₂ :: recs₁, rfl, hgood, hflatten ▸ hdropped.trans hkept, fun hall _ => ?_⟩
    -- Nothing is left, but the first mbuf is not empty.
    exfalso
    have hmem : a ∈ l₂ := by
      cases l₂ with
      | nil => exact absurd hdrop₂.chain (by simp)
      | cons b l =>
        rw [Option.some.inj hdrop₂.chain.1]
        exact List.mem_cons_self
    have hfits := (hdrop₂.counted.fits a (List.mem_append_left _ hmem)).length_bytes
    have hsub : (st₂.mbuf a).bytes.length ≤ (bytesOf st₂.mbuf (l₂ ++ recs₁.flatten)).length :=
      length_bytes_le (List.mem_append_left _ hmem)
    rw [hdropped.bytes, List.length_drop] at hsub
    have := hhead a rfl
    omega

theorem Dropping.freeRecord_eq {fuel : Nat} (h : Dropping st m next l recs) (hfuel : l.length ≤ fuel) :
    ∃ st', freeRecord fuel st m = .ok st' ∧ Records st'.mbuf next recs ∧ Counted st' recs.flatten
      ∧ Dropped st st' (bytesOf st.mbuf l).length (l ++ recs.flatten) recs.flatten
      ∧ st'.sb.sbMb = st.sb.sbMb := by
  induction l generalizing st m fuel with
  | nil =>
    obtain rfl : m = none := h.chain
    exact ⟨st, by rw [freeRecord], h.records, h.counted, Dropped.refl st _, rfl⟩
  | cons a l ih =>
    obtain rfl : m = some a := h.chain.1
    obtain _ | fuel := fuel
    · simp at hfuel
    have ha := (h.counted.fits a (by simp)).length_bytes
    obtain ⟨hfree, hfreed⟩ := h.free
    obtain ⟨st', hrun, hrecords, hcounted, hdropped, hmb⟩ := ih hfree (by simpa using hfuel)
    refine ⟨st', by rw [freeRecord]; exact hrun, hrecords, hcounted, ?_, hmb⟩
    rw [bytesOf_cons, List.length_append, ha]
    exact hfreed.trans hdropped

theorem Good.sbdroprecord_eq (h : Good st recs) :
    ∃ st', sbdroprecord st = .ok st' ∧ Good st' recs.tail
      ∧ Dropped st st' (bytesOf st.mbuf (recs.headD [])).length recs.flatten recs.tail.flatten := by
  cases hmb : st.sb.sbMb with
  | none =>
    obtain rfl : recs = [] := h.records.unique (hmb ▸ Records.nil)
    exact ⟨st, by rw [sbdroprecord, hmb], h, Dropped.refl st _⟩
  | some a =>
    have hdropping : Dropping st none (some a) [] recs := ⟨rfl, hmb ▸ h.records, h.counted⟩
    obtain ⟨l, rest, h', hflatten, rfl⟩ := hdropping.advance
    have h'' : Dropping { st with sb := { st.sb with sbMb := (st.mbuf a).mNextpkt } } (some a)
        (st.mbuf a).mNextpkt l rest :=
      ⟨h'.chain, h'.records, ⟨h'.counted.nodup, h'.counted.sbCc_eq, h'.counted.sbMbcnt_eq, h'.counted.fits,
        h'.counted.below⟩⟩
    have hlen := h.counted.length_le
    rw [List.flatten_cons, List.length_append] at hlen
    obtain ⟨st', hrun, hrecords, hcounted, hdropped, hsame⟩ :=
      h''.freeRecord_eq (show l.length ≤ st.size + 1 by omega)
    refine ⟨st', by rw [sbdroprecord, hmb]; exact hrun, ⟨?_, hcounted⟩, hdropped.bytes, hdropped.perm,
      hdropped.size_eq, hdropped.sbLock_eq⟩
    rw [hsame]
    exact hrecords

theorem Good.eq_nil_iff (h : Good st recs) : recs = [] ↔ st.sb.sbMbcnt = 0 := by
  have hcount := h.counted.sbMbcnt_eq
  constructor
  · rintro rfl
    exact hcount
  · intro hzero
    cases recs with
    | nil => rfl
    | cons r recs =>
      cases r with
      | nil => exact absurd rfl (h.records.ne_nil [] List.mem_cons_self)
      | cons a l =>
        rw [hzero, List.flatten_cons, List.cons_append, spaceOf_cons, Mbuf.space] at hcount
        have : 0 ≤ spaceOf st.mbuf (l ++ recs.flatten) := spaceOf_nonneg
        simp only [msize] at hcount
        omega

theorem Good.sbCc_nonneg (h : Good st recs) : 0 ≤ st.sb.sbCc := by
  rw [h.counted.sbCc_eq]
  exact lenOf_nonneg

theorem Good.sbflushLoop_eq {fuel : Nat} (h : Good st recs) (hfuel : recs.length < fuel) :
    ∃ st', sbflushLoop fuel st = .ok st' ∧ Good st' [] ∧ st'.free.Perm (recs.flatten ++ st.free)
      ∧ st'.size = st.size ∧ st'.sb.sbLock = st.sb.sbLock := by
  induction fuel generalizing st recs with
  | zero => omega
  | succ fuel ih =>
    by_cases hzero : st.sb.sbMbcnt = 0
    · obtain rfl : recs = [] := h.eq_nil_iff.mpr hzero
      exact ⟨st, by rw [sbflushLoop, if_pos hzero], h, List.Perm.refl _, rfl, rfl⟩
    · have hcc := Int.toNat_of_nonneg h.sbCc_nonneg
      obtain ⟨st₁, recs₁, hrun₁, hgood, hdropped, hlt⟩ := h.sbdrop_eq hcc.le
      have hfewer := hlt hcc fun hnil => hzero (h.eq_nil_iff.mp hnil)
      obtain ⟨st', hrun, hempty, hperm, hsize, hlock⟩ := ih hgood (by omega)
      refine ⟨st', ?_, hempty, hperm.trans hdropped.perm, hsize.trans hdropped.size_eq,
        hlock.trans hdropped.sbLock_eq⟩
      rw [sbflushLoop, if_neg hzero, hrun₁]
      exact hrun

theorem Good.sbflush_eq (h : Good st recs) (hlock : st.sb.sbLock = false) :
    ∃ st', sbflush st = .ok st' ∧ Good st' [] ∧ st'.free.Perm (recs.flatten ++ st.free)
      ∧ st'.size = st.size ∧ st'.sb.sbLock = false := by
  obtain ⟨st', hrun, hgood, hperm, hsize, hlock'⟩ := h.sbflushLoop_eq (Nat.lt_succ_of_le h.length_le)
  refine ⟨st', ?_, hgood, hperm, hsize, hlock'.trans hlock⟩
  have hcc : st'.sb.sbCc = 0 := hgood.counted.sbCc_eq
  have hmb : st'.sb.sbMb = none := hgood.records.queue
  unfold sbflush
  rw [hlock, hrun]
  simp only [bind, Except.bind, hcc, hmb]
  rfl

end NetBSD.Uipc
