import NetBSD.Ip.Insertoptions
import NetBSD.Ip.Recorded

/-!
# The route back

A source route that ends here is kept by `save_rte`, and `ip_srcroute` makes from it the option for an answer.
-/

namespace NetBSD.Ip

/-- The option `r` is a source route of the kind of `srcopt`, with its own length and with the pointer at the first hop; the first hop
and those that are listed are the route of `srcopt` backwards and then the source. -/
structure Answers (srcopt : List Byte) (src : InAddr) (r : Ipoption) : Prop where
  nop : r.ipoptList.getD 0 0 = ipoptNop
  kind : r.ipoptList.getD 1 0 = srcopt.getD 0 0
  isRoute : srcopt.getD 0 0 = ipoptLsrr ∨ srcopt.getD 0 0 = ipoptSsrr
  olen : (r.ipoptList.getD 2 0).toNat = r.ipoptList.length - 1
  pointer : (r.ipoptList.getD 3 0).toNat = ipoptMinoff
  route : ∃ listed : List (List Byte), r.ipoptList.drop 4 = listed.flatten ∧ (∀ hop ∈ listed, hop.length = 4) ∧
    r.ipoptDst :: listed = (hops (srcopt.drop 3) ((srcopt.length - 3) / 4)).reverse ++ [List.ofFn src]

/-- What `ip_srcroute` makes of the route that was kept is an answer to the source of the datagram. -/
def ReturnsTo (mem : Nat → Byte) (w : Work) : Prop :=
  ∀ srcopt src, w.srcrt = some (srcopt, src) → src = addrAt mem srcOffset ∧
    ∀ r, ipSrcroute srcopt (List.ofFn src) = some r → Answers srcopt src r

structure Saved (src : InAddr) (kept : List Byte × InAddr) : Prop where
  isRoute : kept.1.getD 0 0 = ipoptLsrr ∨ kept.1.getD 0 0 = ipoptSsrr
  olen : (kept.1.getD 1 0).toNat = kept.1.length
  lo : 4 ≤ kept.1.length
  src : kept.2 = src

def LowSame (mem' mem : Nat → Byte) : Prop := ∀ a < dstOffset, mem' a = mem a

variable {env : Lookups} {hlen cp cnt fuel a : Nat} {o : Place} {w w' : Work} {mem mem' : Nat → Byte} {v dst src : InAddr} {b : Byte}
  {srcopt : List Byte} {r : Ipoption}

theorem of_bind_eq_ok {α β : Type} {x : Except Stop α} {f : α → Except Stop β} {y : β} (h : (x >>= f) = .ok y) :
    ∃ a, x = .ok a ∧ f a = .ok y := by
  cases x with
  | error e => cases h
  | ok a => exact ⟨a, rfl, h⟩

theorem LowSame.trans {mem'' : Nat → Byte} (h : LowSame mem'' mem') (h' : LowSame mem' mem) : LowSame mem'' mem :=
  fun a ha => (h a ha).trans (h' a ha)

theorem low_record (hcp : sizeofIp ≤ o.cp) (h : o.record mem a v = .ok mem') : LowSame mem' mem := by
  unfold sizeofIp at hcp
  unfold Place.record at h
  split at h
  · cases h
    intro x hx
    unfold dstOffset at hx
    exact dif_neg (by omega)
  · cases h

theorem low_set {i : Nat} (hcp : sizeofIp ≤ o.cp) (h : o.set mem i b = .ok mem') : LowSame mem' mem := by
  unfold sizeofIp at hcp
  unfold Place.set at h
  split at h
  · cases h
    intro x hx
    unfold dstOffset at hx
    exact Function.update_of_ne (by omega) ..
  · cases h

theorem stamp_keeps (hcp : sizeofIp ≤ o.cp) (hmem : LowSame mem w.mem) (h : stamp env o w mem = .ok w') :
    w'.srcrt = w.srcrt ∧ LowSame w'.mem w.mem := by
  obtain ⟨mem₁, hrecord, h⟩ := of_bind_eq_ok h
  obtain ⟨mem₂, hbump, h⟩ := of_bind_eq_ok h
  cases h
  exact ⟨rfl, (low_set hcp hbump).trans ((low_record hcp hrecord).trans hmem)⟩

theorem recordRoute_keeps (hcp : sizeofIp ≤ o.cp) (h : recordRoute env hlen o w = .ok w') :
    w'.srcrt = w.srcrt ∧ LowSame w'.mem w.mem := by
  obtain ⟨offset, -, h⟩ := of_bind_eq_ok h
  split at h
  · cases h
  · dsimp only at h
    split at h
    · cases h
      exact ⟨rfl, fun _ _ => rfl⟩
    · split at h
      · cases h
      · obtain ⟨mem₁, hrecord, h⟩ := of_bind_eq_ok h
        obtain ⟨mem₂, hbump, h⟩ := of_bind_eq_ok h
        cases h
        exact ⟨rfl, (low_set hcp hbump).trans (low_record hcp hrecord)⟩

theorem timestamp_keeps (hcp : sizeofIp ≤ o.cp) (h : timestamp env hlen o dst w = .ok w') :
    w'.srcrt = w.srcrt ∧ LowSame w'.mem w.mem := by
  have hsame : LowSame w.mem w.mem := fun _ _ => rfl
  obtain ⟨len, -, h⟩ := of_bind_eq_ok h
  dsimp only at h
  split at h
  · cases h
  obtain ⟨ptr, -, h⟩ := of_bind_eq_ok h
  obtain ⟨flags, -, h⟩ := of_bind_eq_ok h
  split at h
  · obtain ⟨mem₁, hset, h⟩ := of_bind_eq_ok h
    split at h
    · cases h
    · cases h
      exact ⟨rfl, low_set hcp hset⟩
  split at h
  · exact stamp_keeps hcp hsame h
  split at h
  · split at h
    · cases h
    split at h
    · cases h
      exact ⟨rfl, hsame⟩
    · obtain ⟨mem₁, hrecord, h⟩ := of_bind_eq_ok h
      obtain ⟨mem₂, hbump, h⟩ := of_bind_eq_ok h
      exact stamp_keeps hcp ((low_set hcp hbump).trans (low_record hcp hrecord)) h
  split at h
  · split at h
    · cases h
    obtain ⟨addr, -, h⟩ := of_bind_eq_ok h
    split at h
    · cases h
      exact ⟨rfl, hsame⟩
    · obtain ⟨mem₁, hbump, h⟩ := of_bind_eq_ok h
      exact stamp_keeps hcp (low_set hcp hbump) h
  · cases h

theorem saveRte_keeps (hlength : o.optlen = optlenAt w.mem o.cp) (hlo : 4 ≤ o.optlen)
    (hroute : w.mem o.cp = ipoptLsrr ∨ w.mem o.cp = ipoptSsrr) (h : saveRte hlen o w = .ok w') :
    w'.mem = w.mem ∧ (w'.srcrt = w.srcrt ∨ ∃ kept, w'.srcrt = some kept ∧ Saved (addrAt w.mem srcOffset) kept) := by
  unfold saveRte at h
  dsimp only at h
  split at h
  · cases h
    exact ⟨rfl, .inl rfl⟩
  split at h
  · cases h
    rw [optlenAt] at hlength
    have hget (i : Nat) (hi : i < o.optlen) :
        ((List.range (w.mem (o.cp + ipoptOlen)).toNat).map fun i => w.mem (o.cp + i)).getD i 0 = w.mem (o.cp + i) := by
      rw [← hlength, List.getD_eq_getElem?_getD, List.getElem?_map, List.getElem?_range hi]
      rfl
    refine ⟨rfl, .inr ⟨_, rfl, ?_, ?_, ?_, rfl⟩⟩
    · rw [hget 0 (by omega)]
      exact hroute
    · rw [hget 1 (by omega), List.length_map, List.length_range]
      rfl
    · rw [List.length_map, List.length_range, ← hlength]
      exact hlo
  · cases h

theorem four_le_of_noRoom {offset : Byte} (hpos : 0 < o.optlen) (hhi : o.optlen < 256)
    (h : noRoom (offset.toNat - 1) o.optlen = true) : 4 ≤ o.optlen := by
  by_contra hshort
  rw [noRoom_short (by omega) hpos (by omega)] at h
  cases h

theorem sourceRoute_keeps {strict : Bool} (hcp : sizeofIp ≤ o.cp) (hlength : o.optlen = optlenAt w.mem o.cp) (hpos : 0 < o.optlen)
    (hroute : w.mem o.cp = ipoptLsrr ∨ w.mem o.cp = ipoptSsrr) (h : sourceRoute env hlen o strict w = .ok w') :
    LowSame w'.mem w.mem ∧ (w'.srcrt = w.srcrt ∨ ∃ kept, w'.srcrt = some kept ∧ Saved (addrAt w.mem srcOffset) kept) := by
  have hsame : LowSame w.mem w.mem := fun _ _ => rfl
  have hhi : o.optlen < 256 := hlength ▸ (w.mem (o.cp + ipoptOlen)).isLt
  obtain ⟨offset, hread, h⟩ := of_bind_eq_ok h
  split at h
  · cases h
  rename_i hoffset
  split at h
  · split at h
    · cases h
    · cases h
      exact ⟨hsame, .inl rfl⟩
  dsimp only at h
  split at h
  · rename_i hroom
    obtain ⟨hmem, hkept⟩ := saveRte_keeps hlength (four_le_of_noRoom hpos hhi hroom) hroute h
    exact ⟨fun a _ => by rw [hmem], hkept⟩
  obtain ⟨addr, -, h⟩ := of_bind_eq_ok h
  split at h
  · cases h
  obtain ⟨mem₁, hrecord, h⟩ := of_bind_eq_ok h
  obtain ⟨mem₂, hbump, h⟩ := of_bind_eq_ok h
  cases h
  have hdst : LowSame (putAddr w.mem dstOffset addr) w.mem := fun a ha => dif_neg (by omega)
  exact ⟨(low_set hcp hbump).trans ((low_record hcp hrecord).trans hdst), .inl rfl⟩

def Keeps (mem : Nat → Byte) (w : Work) : Prop :=
  LowSame w.mem mem ∧ ∀ kept, w.srcrt = some kept → Saved (addrAt mem srcOffset) kept

theorem LowSame.source (h : LowSame mem' mem) : addrAt mem' srcOffset = addrAt mem srcOffset :=
  funext fun i => h _ (by unfold srcOffset dstOffset; omega)

theorem Keeps.step (hw : Keeps mem w) (hmem : LowSame w'.mem w.mem)
    (hkept : w'.srcrt = w.srcrt ∨ ∃ kept, w'.srcrt = some kept ∧ Saved (addrAt w.mem srcOffset) kept) : Keeps mem w' := by
  refine ⟨hmem.trans hw.1, fun kept hsome => ?_⟩
  obtain hsame | ⟨kept', hkept', hsaved⟩ := hkept
  · exact hw.2 kept (hsame ▸ hsome)
  · obtain rfl := Option.some.inj (hkept'.symm.trans hsome)
    exact hw.1.source ▸ hsaved

theorem oneOption_keeps {n : Nat} (hcp : sizeofIp ≤ cp) (hw : Keeps mem w) (h : oneOption env hlen dst cp cnt w = .ok (n, w')) :
    Keeps mem w' := by
  obtain ⟨len, hread, h⟩ := of_bind_eq_ok h
  dsimp only at h
  split at h
  · cases h
  rename_i hlens
  obtain ⟨w₁, hkind, h⟩ := of_bind_eq_ok h
  cases h
  have hlength : len.toNat = optlenAt w.mem cp := by
    unfold readByte at hread
    split at hread <;> cases hread
    rfl
  unfold optionKind at hkind
  split at hkind
  · rename_i hroute
    obtain ⟨hmem, hkept⟩ := sourceRoute_keeps hcp hlength (by dsimp only; omega) (.inl hroute) hkind
    exact hw.step hmem hkept
  split at hkind
  · rename_i hroute
    obtain ⟨hmem, hkept⟩ := sourceRoute_keeps hcp hlength (by dsimp only; omega) (.inr hroute) hkind
    exact hw.step hmem hkept
  split at hkind
  · obtain ⟨hkept, hmem⟩ := recordRoute_keeps hcp hkind
    exact hw.step hmem (.inl hkept)
  split at hkind
  · obtain ⟨hkept, hmem⟩ := timestamp_keeps hcp hkind
    exact hw.step hmem (.inl hkept)
  · cases hkind
    exact hw

theorem dooptionsLoop_keeps (hcp : sizeofIp ≤ cp) (hw : Keeps mem w) (h : dooptionsLoop env hlen dst fuel cp cnt w = .ok w') :
    Keeps mem w' := by
  induction fuel generalizing cp cnt w with
  | zero =>
    cases h
    exact hw
  | succ fuel ih =>
    rw [dooptionsLoop] at h
    split at h
    · obtain ⟨opt, -, h⟩ := of_bind_eq_ok h
      split at h
      · cases h
        exact hw
      split at h
      · exact ih (by omega) hw h
      · obtain ⟨⟨optlen, w₁⟩, hone, h⟩ := of_bind_eq_ok h
        exact ih (by omega) (oneOption_keeps hcp hw hone) h
    · cases h
      exact hw

theorem ipDooptions_keeps (h : ipDooptions env hlen mem = .ok w) : Keeps mem w :=
  dooptionsLoop_keeps (le_refl _) ⟨fun _ _ => rfl, fun _ hkept => (Option.some_ne_none _ hkept.symm).elim⟩ h

theorem answers_iff (hsaved : Saved src (srcopt, src)) (h : ipSrcroute srcopt (List.ofFn src) = some r) :
    Answers srcopt src r ↔ (srcopt.length - 3) % 4 = 0 := by
  have hlo : 4 ≤ srcopt.length := hsaved.lo
  obtain _ | ⟨kind, _ | ⟨olen, tail⟩⟩ := srcopt
  · cases hlo
  · rw [List.length_singleton] at hlo
    omega
  unfold ipSrcroute at h
  dsimp only at h
  split at h
  · cases h
  rename_i first rest hroute
  obtain rfl := Option.some.inj h
  have hcount : (hops _ _).reverse.length = rest.length + 1 := congrArg List.length hroute
  rw [List.length_reverse, length_hops_list] at hcount
  have hfour : ∀ hop ∈ rest, hop.length = 4 := fun hop hmem =>
    length_hops ((kind :: olen :: tail).drop 3) _ (by rw [List.length_drop]; omega) hop
      (List.mem_reverse.1 (hroute ▸ List.mem_cons_of_mem first hmem))
  have hflatten := length_flatten_words rest hfour
  have holen : olen.toNat = (kind :: olen :: tail).length := hsaved.olen
  have hlist : ipoptNop :: (kind :: olen :: tail).take 2 ++ [BitVec.ofNat 8 ipoptMinoff] ++ rest.flatten ++ List.ofFn src =
      [ipoptNop, kind, olen, BitVec.ofNat 8 ipoptMinoff] ++ (rest.flatten ++ List.ofFn src) := by
    rw [List.append_assoc]
    rfl
  have hlength : ([ipoptNop, kind, olen, BitVec.ofNat 8 ipoptMinoff] ++ (rest.flatten ++ List.ofFn src)).length =
      8 + rest.length * 4 := by
    rw [List.length_append, List.length_append, hflatten, List.length_ofFn]
    simp only [List.length_cons, List.length_nil]
    omega
  rw [hlist]
  constructor
  · intro hanswers
    have hbyte : olen.toNat = ([ipoptNop, kind, olen, BitVec.ofNat 8 ipoptMinoff] ++ (rest.flatten ++ List.ofFn src)).length - 1 :=
      hanswers.olen
    rw [hlength] at hbyte
    omega
  · intro hmod
    refine ⟨rfl, rfl, hsaved.isRoute, ?_, rfl, rest ++ [List.ofFn src], ?_, ?_, ?_⟩
    · rw [hlength]
      change olen.toNat = _
      omega
    · rw [List.flatten_append, List.flatten_singleton]
      rfl
    · intro hop hmem
      obtain hmem | hmem := List.mem_append.1 hmem
      · exact hfour hop hmem
      · rw [List.mem_singleton.1 hmem, List.length_ofFn]
    · rw [hroute]
      rfl

theorem ipSrcroute_short (dst : List Byte) (h : srcopt.length < 7) : ipSrcroute srcopt dst = none := by
  unfold ipSrcroute
  rw [show (srcopt.length - 3) / 4 = 0 by omega]
  rfl

theorem ipSrcroute_long (dst : List Byte) (h : ¬srcopt.length < 7) : ∃ r, ipSrcroute srcopt dst = some r := by
  unfold ipSrcroute
  dsimp only
  split
  · rename_i hroute
    have hcount := congrArg List.length hroute
    rw [List.length_reverse, length_hops_list, List.length_nil] at hcount
    omega
  · exact ⟨_, rfl⟩

theorem Keeps.returnsTo_iff (h : Keeps mem w) :
    ReturnsTo mem w ↔ ∀ srcopt src, w.srcrt = some (srcopt, src) → srcopt.length < 7 ∨ (srcopt.length - 3) % 4 = 0 := by
  constructor
  · intro hreturns srcopt src hsome
    obtain ⟨rfl, hanswers⟩ := hreturns srcopt src hsome
    by_cases hshort : srcopt.length < 7
    · exact .inl hshort
    · obtain ⟨r, hr⟩ := ipSrcroute_long _ hshort
      exact .inr ((answers_iff (h.2 _ hsome) hr).1 (hanswers r hr))
  · intro hfits srcopt src hsome
    obtain rfl : src = addrAt mem srcOffset := (h.2 _ hsome).src
    refine ⟨rfl, fun r hr => (answers_iff (h.2 _ hsome) hr).2 ((hfits srcopt _ hsome).resolve_left fun hshort => ?_)⟩
    rw [ipSrcroute_short _ hshort] at hr
    cases hr

/-- **`ip_srcroute` makes an answer** to a datagram exactly when the route that was kept has no address, or has just its addresses. -/
theorem srcroute_answers_iff (env : Lookups) (hlen : Nat) (mem : Nat → Byte) (w : Work) (hpasses : ipDooptions env hlen mem = .ok w) :
    ReturnsTo mem w ↔ ∀ srcopt src, w.srcrt = some (srcopt, src) → srcopt.length < 7 ∨ (srcopt.length - 3) % 4 = 0 :=
  (ipDooptions_keeps hpasses).returnsTo_iff

def routed (route : List Byte) (a : Nat) : Byte := ([0, 0, 0, 0, 0, 0, 0, 0, 0, 0, 0, 0, 10, 0, 0, 9, 10, 0, 0, 1] ++ route).getD a 0

theorem srcroute_answers_iff_one : ∃ w, ipDooptions everyRoute 28 (routed [ipoptLsrr, 7, 8, 10, 0, 0, 2, 0]) = .ok w ∧
    (ReturnsTo (routed [ipoptLsrr, 7, 8, 10, 0, 0, 2, 0]) w ↔
      ∀ srcopt src, w.srcrt = some (srcopt, src) → srcopt.length < 7 ∨ (srcopt.length - 3) % 4 = 0) :=
  ⟨_, rfl, srcroute_answers_iff everyRoute 28 (routed [ipoptLsrr, 7, 8, 10, 0, 0, 2, 0]) _ rfl⟩

/-- A route of eight bytes has one address, and the option of seven bytes that is made from it says eight. -/
theorem padded_not_answered : ∃ w, ipDooptions everyRoute 28 (routed [ipoptLsrr, 8, 9, 10, 0, 0, 2, 0]) = .ok w ∧
    ¬ReturnsTo (routed [ipoptLsrr, 8, 9, 10, 0, 0, 2, 0]) w := by
  have hpasses : ∃ w, ipDooptions everyRoute 28 (routed [ipoptLsrr, 8, 9, 10, 0, 0, 2, 0]) = .ok w ∧
      w.srcrt.map Prod.fst = some [ipoptLsrr, 8, 9, 10, 0, 0, 2, 0] := ⟨_, rfl, rfl⟩
  obtain ⟨w, hw, hkept⟩ := hpasses
  refine ⟨w, hw, fun h => ?_⟩
  obtain ⟨⟨srcopt, src⟩, hsome, rfl⟩ := Option.map_eq_some_iff.1 hkept
  exact absurd ((ipDooptions_keeps hw).returnsTo_iff.1 h _ _ hsome) (by decide)

end NetBSD.Ip
