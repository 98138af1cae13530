import NetBSD.Uipc.Append

/-!
# Adding a record as it is

`sbappendaddr` and `sbappendcontrol` join the chains they are given into one record and link it in
without compressing it. When there is no space they do nothing.
-/

namespace NetBSD.Uipc

open NetBSD.Lib

variable {recs : List (List Addr)} {ctl ms l : List Addr} {m m0 control : Option Addr} {a b c n : Addr}
  {st st' : Store} {asa : List Byte}

theorem chainLen_eq {fuel : Nat} (h : Linked (fun a => (st.mbuf a).mNext) m l none)
    (hfuel : l.length ≤ fuel) : ∃ len, st.chainLen fuel m = .ok len := by
  induction l generalizing m fuel with
  | nil =>
    obtain rfl : m = none := h
    exact ⟨0, by rw [Store.chainLen]⟩
  | cons a l ih =>
    obtain rfl : m = some a := h.1
    obtain _ | fuel := fuel
    · simp at hfuel
    obtain ⟨len, hlen⟩ := ih h.2 (by simpa using hfuel)
    exact ⟨(st.mbuf a).mLen + len, by rw [Store.chainLen, hlen]; rfl⟩

theorem lastMbuf_eq (h : Linked (fun a => (st.mbuf a).mNext) (some a) (ctl ++ [n]) none)
    (hlen : (ctl ++ [n]).length ≤ st.size) : st.lastMbuf a = .ok n := by
  have hlast := lastFrom_of_linked h (Nat.le_succ_of_le hlen)
  rw [List.getLast?_concat] at hlast
  rw [Store.lastMbuf, hlast]
  rfl

theorem Counted.sballocChain_eq {fuel : Nat} (h : Counted st l)
    (hchain : Linked (fun a => (st.mbuf a).mNext) m ms none) (hout : Outside st l ms)
    (hfuel : ms.length ≤ fuel) :
    ∃ sb, sballocChain fuel st m = .ok { st with sb := sb } ∧ Counted { st with sb := sb } (l ++ ms)
      ∧ sb.sbMb = st.sb.sbMb ∧ sb.sbLock = st.sb.sbLock := by
  induction ms generalizing st l m fuel with
  | nil =>
    obtain rfl : m = none := hchain
    exact ⟨st.sb, by rw [sballocChain], (List.append_nil l).symm ▸ h, rfl, rfl⟩
  | cons a ms ih =>
    obtain rfl : m = some a := hchain.1
    obtain _ | fuel := fuel
    · simp at hfuel
    have hcounted : Counted (st.sballoc a) (l ++ [a]) :=
      Counted.sballoc (y := []) ((List.append_nil l).symm ▸ h)
        ((List.append_nil l).symm ▸ hout.notMem a List.mem_cons_self)
        (hout.fits a List.mem_cons_self) (hout.below a List.mem_cons_self)
    have hout' : Outside (st.sballoc a) (l ++ [a]) ms := by
      refine hout.tail (fun _ _ => rfl) (fun b hb => ?_) rfl
      simp only [Store.sballoc, List.mem_append, List.mem_singleton] at hb ⊢
      tauto
    obtain ⟨sb, hrun, hall, hmb, hlock⟩ := ih hcounted hchain.2 hout' (by simpa using hfuel)
    refine ⟨sb, by rw [sballocChain]; exact hrun, ?_, hmb, hlock⟩
    rw [List.append_assoc] at hall
    exact hall

theorem Good.appendChain_eq (h : Good st recs) (hc : Chain st recs.flatten (some a) (a :: ms)) :
    ∃ st', appendChain st a = .ok st'
      ∧ Added st st' recs [] (a :: ms) (bytesOf st.mbuf (a :: ms)) (recs ++ [a :: ms]) := by
  obtain ⟨sb, hrun, hcounted, hmb, hlock⟩ := h.counted.sballocChain_eq hc.linked hc.outside
    (Nat.le_succ_of_le hc.outside.length_le)
  have hlast : Option.mapM (Store.lastRecord { st with sb := sb }) sb.sbMb = .ok (heads recs).getLast? := by
    rw [hmb]
    exact h.lastRecord_eq
  have hain : a ∉ (recs ++ []).flatten := fun hmem =>
    hc.outside.notMem a List.mem_cons_self (List.mem_append_left _ (by simpa using hmem))
  have hrecords : Records ({ st with sb := sb } : Store).mbuf ({ st with sb := sb } : Store).sb.sbMb
      (recs ++ []) := by
    rw [List.append_nil]
    show Records st.mbuf sb.sbMb recs
    rw [hmb]
    exact h.records
  have hinsert := hrecords.insert hc.linked hain (hc.outside.mNextpkt_eq a List.mem_cons_self)
  have hflatten : (recs ++ [a :: ms]).flatten = recs.flatten ++ a :: ms := by simp
  refine ⟨({ st with sb := sb } : Store).setNextpkt (heads recs).getLast? (some a), ?_, ⟨?_, ?_⟩, ?_, ?_,
    size_setNextpkt, sbLock_setNextpkt.trans hlock⟩
  · rw [appendChain, hrun]
    show (Option.mapM (Store.lastRecord { st with sb := sb }) sb.sbMb >>= _) = _
    rw [hlast]
    rfl
  · simpa using hinsert
  · rw [hflatten]
    exact hcounted.setNextpkt
  · rw [hflatten, bytesOf_congr fun b _ => bytes_setNextpkt]
    simp
  · rw [hflatten, free_setNextpkt]
    simp

theorem Good.setMbuf_of_notMem (h : Good st recs) (ha : a ∉ recs.flatten) (x : Mbuf) :
    Good (st.setMbuf a x) recs :=
  ⟨h.records.update ha x, h.counted.setMbuf_of_notMem ha x⟩

theorem Chain.join {held : List Addr} (hc : Linked (fun a => (st.mbuf a).mNext) control (ctl ++ [n]) none)
    (hm : Linked (fun a => (st.mbuf a).mNext) m0 ms none) (hout : Outside st held (ctl ++ [n] ++ ms)) :
    Chain (st.setMbuf n { st.mbuf n with mNext := m0 }) held control (ctl ++ [n] ++ ms) := by
  have hn : n ∉ ms := fun hmem => (List.nodup_append.mp hout.nodup).2.2 n (by simp) n hmem rfl
  have hsame : ∀ b, b ≠ n → (st.setMbuf n { st.mbuf n with mNext := m0 }).mbuf b = st.mbuf b :=
    fun b hb => Function.update_of_ne hb _ _
  have hself : (st.setMbuf n { st.mbuf n with mNext := m0 }).mbuf n = { st.mbuf n with mNext := m0 } :=
    Function.update_self _ _ _
  refine ⟨(hc.join hm hn).congr fun b _ => ?_, hout.nodup, hout.notMem, fun b hb => ?_, fun b hb => ?_,
    hout.below⟩
  · by_cases hb : b = n
    · rw [hb, hself, Function.update_self]
    · rw [hsame b hb, Function.update_of_ne hb]
  · by_cases hbn : b = n
    · rw [hbn, hself]
      exact hout.mNextpkt_eq n (hbn ▸ hb)
    · rw [hsame b hbn]
      exact hout.mNextpkt_eq b hb
  · by_cases hbn : b = n
    · rw [hbn, hself]
      exact ⟨(hout.fits n (hbn ▸ hb)).inside, (hout.fits n (hbn ▸ hb)).dat⟩
    · rw [hsame b hbn]
      exact hout.fits b hb

theorem bytesOf_join : bytesOf (st.setMbuf n { st.mbuf n with mNext := m0 }).mbuf l = bytesOf st.mbuf l := by
  refine bytesOf_congr fun b _ => ?_
  by_cases hb : b = n
  · rw [hb, Store.mbuf_setMbuf, Function.update_self]
    rfl
  · rw [Store.mbuf_setMbuf, Function.update_of_ne hb]

theorem Chain.cons {held : List Addr} (h : Chain st held m ms) (ha : a ∉ held ++ st.free) (hams : a ∉ ms)
    (hlt : a < st.size) {x : Mbuf} (hnext : x.mNext = m) (hpkt : x.mNextpkt = none) (hfits : x.Fits) :
    Chain (st.setMbuf a x) held (some a) (a :: ms) := by
  have hsame : ∀ b ∈ ms, (st.setMbuf a x).mbuf b = st.mbuf b := fun b hb =>
    Function.update_of_ne (ne_of_mem_of_not_mem hb hams) _ _
  have hself : (st.setMbuf a x).mbuf a = x := Function.update_self _ _ _
  refine ⟨⟨rfl, ?_⟩, List.nodup_cons.mpr ⟨hams, h.outside.nodup⟩, fun b hb => ?_, fun b hb => ?_,
    fun b hb => ?_, fun b hb => ?_⟩
  · show Linked _ ((st.setMbuf a x).mbuf a).mNext ms none
    rw [hself, hnext]
    exact h.linked.congr fun b hb => by rw [hsame b hb]
  all_goals rcases List.mem_cons.mp hb with rfl | hb
  · exact ha
  · exact h.outside.notMem b hb
  · rw [hself]
    exact hpkt
  · rw [hsame b hb]
    exact h.outside.mNextpkt_eq b hb
  · rw [hself]
    exact hfits
  · rw [hsame b hb]
    exact h.outside.fits b hb
  · exact hlt
  · exact h.outside.below b hb

theorem sbappendcontrol_eq (h : Good st recs)
    (hc : Linked (fun a => (st.mbuf a).mNext) (some c) (ctl ++ [n]) none)
    (hm : Linked (fun a => (st.mbuf a).mNext) m0 ms none)
    (hout : Outside st recs.flatten (ctl ++ [n] ++ ms)) :
    ∃ st' done, sbappendcontrol st m0 (some c) = .ok (st', done) ∧ (done = false → st' = st)
      ∧ (done = true → Added st st' recs [] (ctl ++ [n] ++ ms) (bytesOf st.mbuf (ctl ++ [n] ++ ms))
          (recs ++ [ctl ++ [n] ++ ms])) := by
  have hlen := hout.length_le
  rw [List.length_append] at hlen
  obtain ⟨k, hk⟩ := chainLen_eq hc (show (ctl ++ [n]).length ≤ st.size + 1 by omega)
  obtain ⟨k', hk'⟩ := chainLen_eq hm (show ms.length ≤ st.size + 1 by omega)
  have hlast := lastMbuf_eq hc (by omega)
  have hn : n ∉ recs.flatten := fun hmem =>
    hout.notMem n (by simp) (List.mem_append_left _ hmem)
  obtain ⟨l, hl⟩ : ∃ l, ctl ++ [n] ++ ms = c :: l := by
    cases ctl with
    | nil => exact ⟨ms, by rw [Option.some.inj hc.1]; rfl⟩
    | cons a ctl => exact ⟨ctl ++ [n] ++ ms, by rw [Option.some.inj hc.1]; rfl⟩
  have hchain := Chain.join hc hm hout
  have hgood := h.setMbuf_of_notMem hn { st.mbuf n with mNext := m0 }
  rw [hl] at hchain ⊢
  obtain ⟨st', hrun, hadded⟩ := hgood.appendChain_eq hchain
  by_cases hspace : st.sb.sbspace < (k + k' : Nat)
  · refine ⟨st, false, ?_, fun _ => rfl, fun hf => absurd hf (by simp)⟩
    simp only [sbappendcontrol, hk, hk']
    exact if_pos hspace
  · refine ⟨st', true, ?_, fun hf => absurd hf (by simp), fun _ => ⟨hadded.good, ?_, hadded.perm,
      hadded.size_eq, hadded.sbLock_eq⟩⟩
    · simp only [sbappendcontrol, hk, hk']
      refine (if_neg hspace).trans ?_
      rw [Store.join, hlast]
      show (appendChain _ c >>= _) = _
      rw [hrun]
      rfl
    · rw [hadded.bytes, bytesOf_join, bytesOf_join, bytesOf_join]

theorem length_nameStorage (h : asa.length ≤ mlen) :
    (overwrite (List.replicate mlen (0 : Byte)) 0 asa).length = mlen := by
  have hlen : (overwrite (List.replicate mlen (0 : Byte)) 0 asa).length
      = (List.replicate mlen (0 : Byte)).length :=
    length_overwrite (by rw [List.length_replicate]; omega)
  rwa [List.length_replicate] at hlen

theorem nameMbuf_fits (h : asa.length ≤ mlen) : (nameMbuf asa m).Fits := by
  have hstorage : (nameMbuf asa m).storage.length = mlen := length_nameStorage h
  refine ⟨?_, fun _ => hstorage⟩
  rw [hstorage]
  show 0 + asa.length ≤ mlen
  omega

theorem bytes_nameMbuf (h : asa.length ≤ mlen) : (nameMbuf asa m).bytes = asa := by
  have htake : ((overwrite (List.replicate mlen (0 : Byte)) (0 + 0) asa).drop 0).take (0 + asa.length)
      = ((List.replicate mlen (0 : Byte)).drop 0).take 0 ++ asa :=
    take_drop_overwrite (by rw [List.length_replicate]; omega)
  simpa [Mbuf.bytes, nameMbuf] using htake

theorem Good.joined (h : Good st recs) (hc : Linked (fun a => (st.mbuf a).mNext) control ctl none)
    (hm : Linked (fun a => (st.mbuf a).mNext) m0 ms none) (hout : Outside st recs.flatten (ctl ++ ms)) :
    ∃ st₁, st.join control m0 = .ok st₁
      ∧ Good st₁ recs ∧ Chain st₁ recs.flatten (control <|> m0) (ctl ++ ms)
      ∧ (∀ l, bytesOf st₁.mbuf l = bytesOf st.mbuf l)
      ∧ st₁.free = st.free ∧ st₁.size = st.size ∧ st₁.sb = st.sb := by
  rcases List.eq_nil_or_concat ctl with rfl | ⟨ctl, n, rfl⟩
  · obtain rfl : control = none := hc
    exact ⟨st, rfl, h, ⟨hm, hout⟩, fun _ => rfl, rfl, rfl, rfl⟩
  · rw [List.concat_eq_append] at hc hout ⊢
    have hlen := hout.length_le
    rw [List.length_append] at hlen
    have hn : n ∉ recs.flatten := fun hmem =>
      hout.notMem n (by simp) (List.mem_append_left _ hmem)
    cases control with
    | none => exact absurd (hc.unique (show Linked _ none [] none from rfl)) (by simp)
    | some c =>
      refine ⟨st.setMbuf n { st.mbuf n with mNext := m0 }, ?_, h.setMbuf_of_notMem hn _,
        Chain.join hc hm hout, fun _ => bytesOf_join, rfl, rfl, rfl⟩
      show (st.lastMbuf c >>= _) = _
      rw [lastMbuf_eq hc (by omega)]
      rfl

theorem sbappendaddr_eq {mget : Option Addr} (asa : List Byte) (h : Good st recs)
    (hc : Linked (fun a => (st.mbuf a).mNext) control ctl none)
    (hm : Linked (fun a => (st.mbuf a).mNext) m0 ms none) (hout : Outside st recs.flatten (ctl ++ ms))
    (hpkt : ∀ b, m0 = some b → (st.mbuf b).mPkthdr ≠ none)
    (hget : ∀ b, mget = some b → b ∉ recs.flatten ++ st.free ∧ b ∉ ctl ++ ms ∧ b < st.size) :
    ∃ st' done, sbappendaddr st asa m0 control mget = .ok (st', done) ∧ (done = false → st' = st)
      ∧ (done = true → ∃ b, mget = some b ∧ Added st st' recs [] (b :: (ctl ++ ms))
          (asa ++ bytesOf st.mbuf (ctl ++ ms)) (recs ++ [b :: (ctl ++ ms)])) := by
  have hlen := hout.length_le
  rw [List.length_append] at hlen
  obtain ⟨k, hk⟩ := chainLen_eq hc (show ctl.length ≤ st.size + 1 by omega)
  obtain ⟨pktLen, hpktLen⟩ : ∃ pktLen, st.pktLen m0 = .ok pktLen := by
    cases m0 with
    | none => exact ⟨0, rfl⟩
    | some b =>
      obtain ⟨len, hsome⟩ := Option.ne_none_iff_exists'.mp (hpkt b rfl)
      exact ⟨len, by rw [Store.pktLen, hsome]⟩
  have hfail : ∀ {x : Except Fault (Store × Bool)}, x = .ok (st, false) →
      ∃ st' done, x = .ok (st', done) ∧ (done = false → st' = st)
        ∧ (done = true → ∃ b, mget = some b ∧ Added st st' recs [] (b :: (ctl ++ ms))
          (asa ++ bytesOf st.mbuf (ctl ++ ms)) (recs ++ [b :: (ctl ++ ms)])) :=
    fun hx => ⟨st, false, hx, fun _ => rfl, fun hf => absurd hf (by simp)⟩
  unfold sbappendaddr
  rw [hpktLen, hk]
  by_cases hspace : st.sb.sbspace < (asa.length + pktLen + k : Nat)
  · exact hfail (if_pos hspace)
  by_cases hmlen : mlen < asa.length
  · exact hfail ((if_neg hspace).trans (if_pos hmlen))
  have hname : asa.length ≤ mlen := Nat.le_of_not_lt hmlen
  cases mget with
  | none => exact hfail ((if_neg hspace).trans (if_neg hmlen))
  | some b =>
    obtain ⟨hb, hbms, hblt⟩ := hget b rfl
    have hbin : b ∉ recs.flatten := fun hmem => hb (List.mem_append_left _ hmem)
    obtain ⟨st₁, hjoin, hgood, hchain, hbytes, hfree, hsize, hsb⟩ := h.joined hc hm hout
    have hcons := hchain.cons (a := b) (hfree.symm ▸ hb) hbms (hsize.symm ▸ hblt)
      (x := nameMbuf asa (control <|> m0)) rfl rfl (nameMbuf_fits hname)
    obtain ⟨st', hrun, hadded⟩ := (hgood.setMbuf_of_notMem hbin _).appendChain_eq hcons
    have hrest : ∀ {l : List Addr}, b ∉ l →
        bytesOf (st₁.setMbuf b (nameMbuf asa (control <|> m0))).mbuf l = bytesOf st.mbuf l := by
      intro l hbl
      rw [← hbytes l]
      refine bytesOf_congr fun c hc => ?_
      rw [Store.mbuf_setMbuf, Function.update_of_ne (ne_of_mem_of_not_mem hc hbl)]
    refine ⟨st', true, ?_, fun hf => absurd hf (by simp), fun _ => ⟨b, rfl, hadded.good, ?_, ?_, ?_, ?_⟩⟩
    · refine (if_neg hspace).trans ((if_neg hmlen).trans ?_)
      dsimp only
      rw [hjoin]
      show (appendChain (st₁.setMbuf b (nameMbuf asa (control <|> m0))) b >>= _) = _
      rw [hrun]
      rfl
    · have hown : ((st₁.setMbuf b (nameMbuf asa (control <|> m0))).mbuf b).bytes = asa := by
        rw [Store.mbuf_setMbuf, Function.update_self, bytes_nameMbuf hname]
      rw [hadded.bytes, hrest hbin, bytesOf_cons, hown, hrest hbms]
      rfl
    · have hperm := hadded.perm
      rw [Store.free_setMbuf, hfree] at hperm
      exact hperm
    · rw [hadded.size_eq, Store.size_setMbuf, hsize]
    · rw [hadded.sbLock_eq, Store.sb_setMbuf, hsb]

end NetBSD.Uipc
