import NetBSD.Uipc.Sockbuf
import Mathlib.Algebra.Order.BigOperators.Group.List
import Mathlib.Data.List.Perm.Lattice

/-!
# Records and counters

What a socket buffer holds: a queue of records, each a chain of mbufs, no mbuf twice, with counters that
agree. Each change the routines make to the memory keeps this, and has its lemma here.
-/

namespace NetBSD.Uipc

open NetBSD.Lib

variable {mbuf mbuf' : Addr → Mbuf} {p : Option Addr} {recs before after : List (List Addr)}
  {l r x y : List Addr} {a m n : Addr} {st : Store}

def heads (recs : List (List Addr)) : List Addr := recs.filterMap List.head?

@[simp] theorem heads_append (recs recs' : List (List Addr)) :
    heads (recs ++ recs') = heads recs ++ heads recs' := List.filterMap_append

@[simp] theorem heads_nil : heads [] = [] := rfl

@[simp] theorem heads_cons_cons (a : Addr) (l : List Addr) (recs : List (List Addr)) :
    heads ((a :: l) :: recs) = a :: heads recs := rfl

theorem mem_flatten_of_mem_heads (h : a ∈ heads recs) : a ∈ recs.flatten := by
  obtain ⟨r, hr, ha⟩ := List.mem_filterMap.mp h
  exact List.mem_flatten.mpr ⟨r, hr, List.mem_of_mem_head? ha⟩

theorem forall_mem_between {P : List Addr → Prop} :
    (∀ r ∈ before ++ [l] ++ after, P r) ↔ (∀ r ∈ before ++ after, P r) ∧ P l := by
  simp only [List.mem_append, List.mem_singleton, or_imp, forall_and, forall_eq]
  tauto

structure Records (mbuf : Addr → Mbuf) (p : Option Addr) (recs : List (List Addr)) : Prop where
  queue : Linked (fun a => (mbuf a).mNextpkt) p (heads recs) none
  ne_nil : ∀ r ∈ recs, r ≠ []
  chain : ∀ r ∈ recs, Linked (fun a => (mbuf a).mNext) r.head? r none

theorem Records.nil : Records mbuf none [] :=
  ⟨rfl, by simp, by simp⟩

theorem Records.congr (h : Records mbuf p recs)
    (hnext : ∀ a ∈ recs.flatten, (mbuf' a).mNext = (mbuf a).mNext)
    (hpkt : ∀ a ∈ heads recs, (mbuf' a).mNextpkt = (mbuf a).mNextpkt) : Records mbuf' p recs where
  queue := h.queue.congr hpkt
  ne_nil := h.ne_nil
  chain := fun r hr => (h.chain r hr).congr fun a ha => hnext a (List.mem_flatten.mpr ⟨r, hr, ha⟩)

theorem Records.update (h : Records mbuf p recs) (hm : m ∉ recs.flatten) (x : Mbuf) :
    Records (Function.update mbuf m x) p recs := by
  refine h.congr (fun a ha => ?_) fun a ha => ?_
  · rw [Function.update_of_ne (ne_of_mem_of_not_mem ha hm)]
  · rw [Function.update_of_ne (ne_of_mem_of_not_mem (mem_flatten_of_mem_heads ha) hm)]

theorem Records.unique {recs' : List (List Addr)} (h : Records mbuf p recs) (h' : Records mbuf p recs') :
    recs = recs' := by
  have hheads := h.queue.unique h'.queue
  obtain ⟨-, hne, hchain⟩ := h
  obtain ⟨-, hne', hchain'⟩ := h'
  induction recs generalizing recs' with
  | nil =>
    cases recs' with
    | nil => rfl
    | cons r' recs' =>
      cases r' with
      | nil => exact absurd rfl (hne' [] List.mem_cons_self)
      | cons a l => simp [heads] at hheads
  | cons r recs ih =>
    cases r with
    | nil => exact absurd rfl (hne [] List.mem_cons_self)
    | cons a l =>
      cases recs' with
      | nil => simp [heads] at hheads
      | cons r' recs' =>
        cases r' with
        | nil => exact absurd rfl (hne' [] List.mem_cons_self)
        | cons b l' =>
          simp only [heads_cons_cons, List.cons.injEq] at hheads
          obtain ⟨rfl, hrest⟩ := hheads
          have hrecord : a :: l = a :: l' :=
            (hchain (a :: l) List.mem_cons_self).unique (hchain' (a :: l') List.mem_cons_self)
          rw [hrecord, ih hrest (fun r hr => hne r (List.mem_cons_of_mem _ hr))
              (fun r hr => hchain r (List.mem_cons_of_mem _ hr))
              (fun r hr => hne' r (List.mem_cons_of_mem _ hr))
              (fun r hr => hchain' r (List.mem_cons_of_mem _ hr))]

def bytesOf (mbuf : Addr → Mbuf) (l : List Addr) : List Byte := l.flatMap fun a => (mbuf a).bytes

@[simp] theorem bytesOf_nil : bytesOf mbuf [] = [] := rfl

@[simp] theorem bytesOf_cons : bytesOf mbuf (a :: l) = (mbuf a).bytes ++ bytesOf mbuf l := rfl

@[simp] theorem bytesOf_append : bytesOf mbuf (x ++ y) = bytesOf mbuf x ++ bytesOf mbuf y :=
  List.flatMap_append

def lenOf (mbuf : Addr → Mbuf) (l : List Addr) : Int := (l.map fun a => ((mbuf a).mLen : Int)).sum

def spaceOf (mbuf : Addr → Mbuf) (l : List Addr) : Int := (l.map fun a => (mbuf a).space).sum

@[simp] theorem lenOf_nil : lenOf mbuf [] = 0 := rfl

@[simp] theorem lenOf_cons : lenOf mbuf (a :: l) = (mbuf a).mLen + lenOf mbuf l := by simp [lenOf]

@[simp] theorem lenOf_append : lenOf mbuf (x ++ y) = lenOf mbuf x + lenOf mbuf y := by simp [lenOf]

@[simp] theorem spaceOf_nil : spaceOf mbuf [] = 0 := rfl

@[simp] theorem spaceOf_cons : spaceOf mbuf (a :: l) = (mbuf a).space + spaceOf mbuf l := by
  simp [spaceOf]

@[simp] theorem spaceOf_append : spaceOf mbuf (x ++ y) = spaceOf mbuf x + spaceOf mbuf y := by
  simp [spaceOf]

theorem lenOf_nonneg : 0 ≤ lenOf mbuf l := by
  induction l with
  | nil => simp
  | cons a l ih =>
    rw [lenOf_cons]
    omega

theorem spaceOf_nonneg : 0 ≤ spaceOf mbuf l := by
  induction l with
  | nil => simp
  | cons a l ih =>
    rw [spaceOf_cons, Mbuf.space]
    omega

theorem bytesOf_congr (h : ∀ a ∈ l, (mbuf' a).bytes = (mbuf a).bytes) :
    bytesOf mbuf' l = bytesOf mbuf l := List.flatMap_congr h

theorem lenOf_congr (h : ∀ a ∈ l, (mbuf' a).mLen = (mbuf a).mLen) : lenOf mbuf' l = lenOf mbuf l := by
  rw [lenOf, lenOf, List.map_congr_left fun a ha => by rw [h a ha]]

theorem spaceOf_congr (h : ∀ a ∈ l, (mbuf' a).space = (mbuf a).space) :
    spaceOf mbuf' l = spaceOf mbuf l := by
  rw [spaceOf, spaceOf, List.map_congr_left h]

structure Mbuf.Fits (m : Mbuf) : Prop where
  inside : m.mData + m.mLen ≤ m.storage.length
  dat : m.mExt = none → m.storage.length = mlen

theorem Mbuf.Fits.length_bytes {m : Mbuf} (h : m.Fits) : m.bytes.length = m.mLen := by
  have := h.inside
  simp only [Mbuf.bytes, List.length_take, List.length_drop]
  omega

theorem length_bytesOf (h : ∀ a ∈ l, (mbuf a).Fits) : (bytesOf mbuf l).length = lenOf mbuf l := by
  induction l with
  | nil => simp
  | cons a l ih =>
    have ha := (h a List.mem_cons_self).length_bytes
    have hl := ih fun b hb => h b (List.mem_cons_of_mem a hb)
    simp only [bytesOf_cons, List.length_append, lenOf_cons]
    omega

structure Counted (st : Store) (l : List Addr) : Prop where
  nodup : (l ++ st.free).Nodup
  sbCc_eq : st.sb.sbCc = lenOf st.mbuf l
  sbMbcnt_eq : st.sb.sbMbcnt = spaceOf st.mbuf l
  fits : ∀ a ∈ l, (st.mbuf a).Fits
  below : ∀ a ∈ l ++ st.free, a < st.size

/-- The mbufs at `l` belong neither to `held` nor to the free ones, hold data and start no queue. -/
structure Outside (st : Store) (held l : List Addr) : Prop where
  nodup : l.Nodup
  notMem : ∀ a ∈ l, a ∉ held ++ st.free
  mNextpkt_eq : ∀ a ∈ l, (st.mbuf a).mNextpkt = none
  fits : ∀ a ∈ l, (st.mbuf a).Fits
  below : ∀ a ∈ l, a < st.size

theorem Outside.tail {st' : Store} {held held' : List Addr} (h : Outside st held (a :: l))
    (hframe : ∀ b ∈ l, st'.mbuf b = st.mbuf b)
    (hmem : ∀ b ∈ held' ++ st'.free, b ∈ held ++ st.free ∨ b = a) (hsize : st'.size = st.size) :
    Outside st' held' l where
  nodup := h.nodup.of_cons
  notMem := fun b hb hb' => by
    rcases hmem b hb' with hold | rfl
    · exact h.notMem b (List.mem_cons_of_mem a hb) hold
    · exact (List.nodup_cons.mp h.nodup).1 hb
  mNextpkt_eq := fun b hb => by
    rw [hframe b hb]
    exact h.mNextpkt_eq b (List.mem_cons_of_mem a hb)
  fits := fun b hb => by
    rw [hframe b hb]
    exact h.fits b (List.mem_cons_of_mem a hb)
  below := fun b hb => by
    rw [hsize]
    exact h.below b (List.mem_cons_of_mem a hb)

structure Good (st : Store) (recs : List (List Addr)) : Prop where
  records : Records st.mbuf st.sb.sbMb recs
  counted : Counted st recs.flatten

theorem Counted.length_le (h : Counted st l) : l.length ≤ st.size := by
  have hsub : l ⊆ List.range st.size := fun a ha =>
    List.mem_range.mpr (h.below a (List.mem_append_left _ ha))
  simpa using (h.nodup.of_append_left.subperm hsub).length_le

theorem Counted.nodup_left (h : Counted st l) : l.Nodup := h.nodup.of_append_left

@[simp] theorem Store.mbuf_setMbuf (st : Store) (m : Addr) (x : Mbuf) :
    (st.setMbuf m x).mbuf = Function.update st.mbuf m x := rfl

@[simp] theorem Store.sb_setMbuf (st : Store) (m : Addr) (x : Mbuf) : (st.setMbuf m x).sb = st.sb := rfl

@[simp] theorem Store.free_setMbuf (st : Store) (m : Addr) (x : Mbuf) :
    (st.setMbuf m x).free = st.free := rfl

@[simp] theorem Store.size_setMbuf (st : Store) (m : Addr) (x : Mbuf) :
    (st.setMbuf m x).size = st.size := rfl

theorem Counted.setMbuf (h : Counted st l) {z : Mbuf} (hlen : z.mLen = (st.mbuf m).mLen)
    (hspace : z.space = (st.mbuf m).space) (hfits : (st.mbuf m).Fits → z.Fits) :
    Counted (st.setMbuf m z) l where
  nodup := h.nodup
  sbCc_eq := by
    rw [Store.sb_setMbuf, h.sbCc_eq, Store.mbuf_setMbuf]
    refine (lenOf_congr fun a _ => ?_).symm
    by_cases ha : a = m
    · rw [ha, Function.update_self, hlen]
    · rw [Function.update_of_ne ha]
  sbMbcnt_eq := by
    rw [Store.sb_setMbuf, h.sbMbcnt_eq, Store.mbuf_setMbuf]
    refine (spaceOf_congr fun a _ => ?_).symm
    by_cases ha : a = m
    · rw [ha, Function.update_self, hspace]
    · rw [Function.update_of_ne ha]
  fits := fun a ha => by
    rw [Store.mbuf_setMbuf]
    by_cases ham : a = m
    · subst ham
      rw [Function.update_self]
      exact hfits (h.fits a ha)
    · rw [Function.update_of_ne ham]
      exact h.fits a ha
  below := h.below

theorem Counted.setMbuf_of_notMem (h : Counted st l) (hm : m ∉ l) (z : Mbuf) :
    Counted (st.setMbuf m z) l where
  nodup := h.nodup
  sbCc_eq := by
    rw [Store.sb_setMbuf, h.sbCc_eq, Store.mbuf_setMbuf]
    refine (lenOf_congr fun a ha => ?_).symm
    rw [Function.update_of_ne (ne_of_mem_of_not_mem ha hm)]
  sbMbcnt_eq := by
    rw [Store.sb_setMbuf, h.sbMbcnt_eq, Store.mbuf_setMbuf]
    refine (spaceOf_congr fun a ha => ?_).symm
    rw [Function.update_of_ne (ne_of_mem_of_not_mem ha hm)]
  fits := fun a ha => by
    rw [Store.mbuf_setMbuf, Function.update_of_ne (ne_of_mem_of_not_mem ha hm)]
    exact h.fits a ha
  below := h.below

theorem Counted.sballoc (h : Counted st (x ++ y)) (hm : m ∉ x ++ y ++ st.free)
    (hfits : (st.mbuf m).Fits) (hlt : m < st.size) : Counted (st.sballoc m) (x ++ m :: y) where
  nodup := by
    have hperm : (x ++ m :: y ++ st.free).Perm (m :: (x ++ y ++ st.free)) := by
      rw [List.append_assoc, List.append_assoc]
      exact List.perm_middle
    exact hperm.nodup_iff.mpr (List.nodup_cons.mpr ⟨hm, h.nodup⟩)
  sbCc_eq := by
    have := h.sbCc_eq
    simp only [Store.sballoc, lenOf_append, lenOf_cons] at this ⊢
    omega
  sbMbcnt_eq := by
    have := h.sbMbcnt_eq
    simp only [Store.sballoc, spaceOf_append, spaceOf_cons] at this ⊢
    omega
  fits := fun a ha => by
    rcases List.mem_append.mp ha with ha | ha
    · exact h.fits a (List.mem_append_left _ ha)
    · rcases List.mem_cons.mp ha with rfl | ha
      · exact hfits
      · exact h.fits a (List.mem_append_right _ ha)
  below := fun a ha => by
    rcases List.mem_append.mp ha with ha | ha
    · rcases List.mem_append.mp ha with ha | ha
      · exact h.below a (List.mem_append_left _ (List.mem_append_left _ ha))
      · rcases List.mem_cons.mp ha with rfl | ha
        · exact hlt
        · exact h.below a (List.mem_append_left _ (List.mem_append_right _ ha))
    · exact h.below a (List.mem_append_right _ ha)

theorem Counted.sbfree (h : Counted st (x ++ m :: y)) : Counted ((st.sbfree m).mfree m).1 (x ++ y) where
  nodup := by
    have hout : (x ++ y ++ m :: st.free).Perm (m :: (x ++ y ++ st.free)) := List.perm_middle
    have hin : (x ++ m :: y ++ st.free).Perm (m :: (x ++ y ++ st.free)) := by
      rw [List.append_assoc, List.append_assoc]
      exact List.perm_middle
    exact (hout.trans hin.symm).nodup_iff.mpr h.nodup
  sbCc_eq := by
    have := h.sbCc_eq
    simp only [Store.mfree, Store.sbfree, lenOf_append, lenOf_cons] at this ⊢
    omega
  sbMbcnt_eq := by
    have := h.sbMbcnt_eq
    simp only [Store.mfree, Store.sbfree, spaceOf_append, spaceOf_cons] at this ⊢
    omega
  fits := fun a ha => h.fits a (by
    rcases List.mem_append.mp ha with ha | ha
    · exact List.mem_append_left _ ha
    · exact List.mem_append_right _ (List.mem_cons_of_mem m ha))
  below := fun a ha => h.below a (by
    simp only [Store.mfree, Store.sbfree, List.mem_append, List.mem_cons] at ha ⊢
    tauto)

theorem Counted.mfree (h : Counted st l) (hm : m ∉ l ++ st.free) (hlt : m < st.size) :
    Counted (st.mfree m).1 l where
  nodup := by
    have hperm : (l ++ m :: st.free).Perm (m :: (l ++ st.free)) := List.perm_middle
    exact hperm.nodup_iff.mpr (List.nodup_cons.mpr ⟨hm, h.nodup⟩)
  sbCc_eq := h.sbCc_eq
  sbMbcnt_eq := h.sbMbcnt_eq
  fits := h.fits
  below := fun a ha => by
    rcases List.mem_append.mp ha with ha | ha
    · exact h.below a (List.mem_append_left _ ha)
    · rcases List.mem_cons.mp ha with rfl | ha
      · exact hlt
      · exact h.below a (List.mem_append_right _ ha)

theorem Counted.resize (h : Counted st (x ++ n :: y)) {z : Mbuf} {c : Int}
    (hc : c = st.sb.sbCc + (z.mLen - (st.mbuf n).mLen)) (hspace : z.space = (st.mbuf n).space)
    (hfits : z.Fits) :
    Counted ({ st with sb := { st.sb with sbCc := c } }.setMbuf n z) (x ++ n :: y) where
  nodup := h.nodup
  sbCc_eq := by
    have hnx : n ∉ x := fun hn => (List.nodup_append.mp h.nodup_left).2.2 n hn n List.mem_cons_self rfl
    have hny : n ∉ y := (List.nodup_cons.mp h.nodup_left.of_append_right).1
    have hx : lenOf (Function.update st.mbuf n z) x = lenOf st.mbuf x :=
      lenOf_congr fun a ha => by rw [Function.update_of_ne (ne_of_mem_of_not_mem ha hnx)]
    have hy : lenOf (Function.update st.mbuf n z) y = lenOf st.mbuf y :=
      lenOf_congr fun a ha => by rw [Function.update_of_ne (ne_of_mem_of_not_mem ha hny)]
    have := h.sbCc_eq
    simp only [lenOf_append, lenOf_cons] at this
    simp only [Store.sb_setMbuf, Store.mbuf_setMbuf, lenOf_append, lenOf_cons, Function.update_self, hx,
      hy, hc]
    omega
  sbMbcnt_eq := by
    refine h.sbMbcnt_eq.trans (spaceOf_congr fun a _ => ?_).symm
    rw [Store.mbuf_setMbuf]
    by_cases ha : a = n
    · rw [ha, Function.update_self, hspace]
    · rw [Function.update_of_ne ha]
  fits := fun a ha => by
    rw [Store.mbuf_setMbuf]
    by_cases han : a = n
    · rw [han, Function.update_self]
      exact hfits
    · rw [Function.update_of_ne han]
      exact h.fits a ha
  below := h.below

end NetBSD.Uipc
