import NetBSD.Mbuf.Split

/-!
# `m_copym`

A chain is copied mbuf by mbuf: a cluster is shared, and its count in `mclrefcnt` goes up, and other bytes are copied. A null
pointer is the empty chain here, and a panic has no result.
-/

namespace NetBSD.Mbufs

open NetBSD.Lib
open Function (update update_self update_of_ne)

abbrev mCopyall : Int := 1000000000

abbrev Refs := Nat → Int

def Mbuf.count (m : Mbuf) (change : Int) (refs : Refs) : Refs :=
  m.mExt.elim refs fun e => update refs e.extBuf (refs e.extBuf + change)

def freem (c : List Mbuf) (refs : Refs) : Refs := c.foldl (fun refs m => m.count (-1) refs) refs

def skip : Int → List Mbuf → Option (Int × List Mbuf)
  | off, [] => if 0 < off then none else some (off, [])
  | off, m :: rest => if 0 < off ∧ m.mLen ≤ off then skip (off - m.mLen) rest else some (off, m :: rest)

def freshFor (m : Mbuf) (f : Fresh) (copyhdr : Bool) (off0 len : Int) : Mbuf :=
  if copyhdr then
    { mget f m.mType with
      mData := mlen - mhlen
      mPkthdr := m.mPkthdr.map fun h => { h with len := if len = mCopyall then int (h.len - off0) else len } }
  else mget f m.mType

def Mbuf.share (m n : Mbuf) (off len : Int) : Mbuf :=
  if m.mExt.isSome then
    { n with mLen := min len (m.mLen - off), mData := m.mData + off.toNat, mExt := m.mExt, storage := m.storage }
  else
    Mbuf.append { n with mLen := 0 } { m with mData := m.mData + off.toNat, mLen := m.mLen - off } (min len (m.mLen - off))

def copyLoop (alloc : Nat → Option Fresh) (off0 : Int) :
    List Mbuf → List Mbuf → Refs → Int → Int → Bool → Option (List Mbuf × Refs)
  | [], top, refs, _, len, _ => if 0 < len ∧ len ≠ mCopyall then none else some (top, refs)
  | m :: rest, top, refs, off, len, copyhdr =>
    if len ≤ 0 then some (top, refs)
    else
      match alloc top.length with
      | none => some ([], freem top refs)
      | some f =>
        let n := m.share (freshFor m f copyhdr off0 len) off len
        copyLoop alloc off0 rest (top ++ [n]) (m.count 1 refs) 0 (if len = mCopyall then len else len - n.mLen) false

def mCopym (alloc : Nat → Option Fresh) (refs : Refs) (m : List Mbuf) (off0 len : Int) : Option (List Mbuf × Refs) :=
  if off0 < 0 ∨ len < 0 then none
  else
    (skip off0 m).bind fun (off, rest) =>
      copyLoop alloc off0 rest [] refs off len (off0 = 0 ∧ (m.head?.bind Mbuf.mPkthdr).isSome)

def wanted (c : List Mbuf) (off0 len : Int) : List Byte :=
  if len = mCopyall then (chainBytes c).drop off0.toNat else ((chainBytes c).drop off0.toNat).take len.toNat

def refsOf (c : List Mbuf) (buf : Nat) : Int := (c.map fun m => if m.mExt.map Ext.extBuf = some buf then 1 else 0).sum

structure IsCopy (c : List Mbuf) (off0 len : Int) (refs : Refs) (top : List Mbuf) (refs' : Refs) : Prop where
  bytes : chainBytes top = wanted c off0 len
  refs : ∀ buf, refs' buf = refs buf + refsOf top buf
  hdr : off0 = 0 → hdrLen c ≠ none → hdrLen top = some ((chainBytes top).length : Int)

/-- `m_copym` returns a copy, or else a null pointer for want of an mbuf, with the counts as they were. -/
def Copies (alloc : Nat → Option Fresh) (refs : Refs) (c : List Mbuf) (off0 len : Int) : Prop :=
  ∃ top refs', mCopym alloc refs c off0 len = some (top, refs') ∧
    (top = [] → refs' = refs ∧ ∃ i, alloc i = none) ∧ (top ≠ [] → IsCopy c off0 len refs top refs')

variable {c rest top : List Mbuf} {m n : Mbuf} {off off0 len : Int} {alloc : Nat → Option Fresh} {f : Fresh} {refs : Refs}
  {copyhdr : Bool} {buf : Nat}

theorem count_apply (m : Mbuf) (change : Int) (refs : Refs) (buf : Nat) :
    m.count change refs buf = refs buf + change * (if m.mExt.map Ext.extBuf = some buf then 1 else 0) := by
  unfold Mbuf.count
  cases m.mExt with
  | none => simp
  | some e =>
    rw [Option.elim_some, Option.map_some]
    by_cases hbuf : e.extBuf = buf
    · rw [hbuf, update_self, if_pos rfl, Int.mul_one]
    · rw [update_of_ne (Ne.symm hbuf), if_neg (fun h => hbuf (Option.some.inj h)), Int.mul_zero, Int.add_zero]

@[simp] theorem refsOf_nil (buf : Nat) : refsOf [] buf = 0 := rfl

theorem refsOf_append (c c' : List Mbuf) (buf : Nat) : refsOf (c ++ c') buf = refsOf c buf + refsOf c' buf := by
  unfold refsOf
  rw [List.map_append, List.sum_append]

theorem freem_apply (c : List Mbuf) (refs : Refs) (buf : Nat) : freem c refs buf = refs buf - refsOf c buf := by
  induction c generalizing refs with
  | nil => exact (Int.sub_zero _).symm
  | cons m c ih =>
    rw [freem, List.foldl_cons, ← freem, ih, count_apply, refsOf, refsOf, List.map_cons, List.sum_cons]
    omega

theorem take_min (hpos : 0 ≤ m.mLen) (hlen : 0 ≤ len) : m.bytes.take len.toNat = Mbuf.bytes { m with mLen := min len m.mLen } := by
  obtain hle | hge := le_total len m.mLen
  · rw [min_eq_left hle, take_bytes hlen hle]
  · rw [min_eq_right hge, List.take_of_length_le (by rw [length_bytes]; omega)]

theorem share_spec (hn : n.mExt = none) (hoff : 0 ≤ off) (hle : off ≤ m.mLen) (hlen : 0 ≤ len) :
    (m.share n off len).bytes = (m.bytes.drop off.toNat).take len.toNat ∧ (m.share n off len).mLen = min len (m.mLen - off) ∧
      (m.share n off len).mPkthdr = n.mPkthdr ∧ (m.share n off len).mExt = m.mExt := by
  have hpos : 0 ≤ m.mLen - off := by omega
  rw [drop_bytes hoff hle, take_min hpos hlen, Mbuf.share]
  split
  · exact ⟨rfl, rfl, rfl, rfl⟩
  · rename_i hext
    refine ⟨?_, Int.zero_add _, rfl, hn.trans (Option.not_isSome_iff_eq_none.1 hext).symm⟩
    have hcount : 0 ≤ min len (m.mLen - off) := le_min hlen hpos
    rw [bytes_append (le_refl (0 : Int)) hcount (min_le_right len (m.mLen - off)), bytes_zero, List.nil_append,
      take_bytes hcount (min_le_right len (m.mLen - off))]

theorem freshFor_spec (m : Mbuf) (f : Fresh) (copyhdr : Bool) (off0 len : Int) : (freshFor m f copyhdr off0 len).mExt = none ∧
    (copyhdr = true → (freshFor m f copyhdr off0 len).mPkthdr.map Pkthdr.len =
      (m.mPkthdr.map Pkthdr.len).map fun l => if len = mCopyall then int (l - off0) else len) := by
  unfold freshFor
  cases copyhdr with
  | false => exact ⟨rfl, fun h => (Bool.false_ne_true h).elim⟩
  | true => exact ⟨rfl, fun _ => by rw [if_pos rfl, Option.map_map, Option.map_map]; rfl⟩

theorem wanted_cons (rest : List Mbuf) (hn : n.mExt = none) (hoff : 0 ≤ off) (hle : off ≤ m.mLen) (hlen : 0 ≤ len)
    (hcount : len ≤ mCopyall) (hsmall : m.mLen ≤ mCopyall) : wanted (m :: rest) off len = (m.share n off len).bytes ++
      wanted rest 0 (if len = mCopyall then len else len - (m.share n off len).mLen) := by
  obtain ⟨hbytes, hmLen, -, -⟩ := share_spec hn hoff hle hlen
  have hlength : (m.bytes.drop off.toNat).length = (m.mLen - off).toNat := by rw [List.length_drop, length_bytes]; omega
  rw [hbytes, hmLen, wanted, wanted, chainBytes_cons, List.drop_append_of_le_length (by rw [length_bytes]; omega)]
  by_cases hall : len = mCopyall
  · rw [if_pos hall, if_pos hall, if_pos hall, List.take_of_length_le (by omega)]
    rfl
  · rw [if_neg hall, if_neg hall, List.take_append, hlength]
    have hrest : len - min len (m.mLen - off) ≠ mCopyall := by omega
    rw [if_neg hrest]
    congr 2
    omega

theorem copyLoop_spec (alloc : Nat → Option Fresh) (off0 : Int) (top : List Mbuf) (refs : Refs) (copyhdr : Bool)
    (hnonneg : ∀ m ∈ c, 0 ≤ m.mLen) (hsmall : ∀ m ∈ c, m.mLen ≤ mCopyall) (hoff : 0 ≤ off) (hhead : ∀ m ∈ c.head?, off ≤ m.mLen)
    (hnil : c = [] → off = 0) (hlen : 0 ≤ len) (hcount : len ≤ mCopyall)
    (hwithin : len = mCopyall ∨ off + len ≤ chainLen c) :
    ∃ add refs', (copyLoop alloc off0 c top refs off len copyhdr = some (top ++ add, refs') ∧ chainBytes add = wanted c off len ∧
        (∀ buf, refs' buf = refs buf + refsOf add buf) ∧ (copyhdr = true → add ≠ [] →
          hdrLen add = (hdrLen c).map fun l => if len = mCopyall then int (l - off0) else len)) ∨
      (copyLoop alloc off0 c top refs off len copyhdr = some ([], refs') ∧ (∀ buf, refs' buf = refs buf - refsOf top buf) ∧
        ∃ i, alloc i = none) := by
  induction c generalizing top refs off len copyhdr with
  | nil =>
    refine ⟨[], refs, .inl ⟨?_, ?_, fun buf => (Int.add_zero _).symm, fun _ h => absurd rfl h⟩⟩
    · rw [copyLoop, List.append_nil, if_neg]
      rintro ⟨hmore, hnot⟩
      obtain hall | hle := hwithin
      · exact hnot hall
      · rw [chainLen_nil] at hle
        omega
    · unfold wanted
      rw [chainBytes_nil, List.drop_nil, List.take_nil, ite_self]
  | cons m rest ih =>
    obtain ⟨hm, hrest⟩ := List.forall_mem_cons.1 hnonneg
    obtain ⟨hms, hrests⟩ := List.forall_mem_cons.1 hsmall
    have hle : off ≤ m.mLen := hhead m rfl
    rw [copyLoop]
    by_cases hzero : len ≤ 0
    · rw [if_pos hzero]
      obtain rfl : len = 0 := by omega
      exact ⟨[], refs, .inl ⟨by rw [List.append_nil], by rw [wanted, if_neg (by decide)]; rfl, fun buf => (Int.add_zero _).symm,
        fun _ h => absurd rfl h⟩⟩
    · rw [if_neg hzero]
      cases halloc : alloc top.length with
      | none => exact ⟨[], freem top refs, .inr ⟨rfl, freem_apply top refs, _, halloc⟩⟩
      | some f =>
        obtain ⟨hext, hhdr⟩ := freshFor_spec m f copyhdr off0 len
        have hwanted := wanted_cons rest hext hoff hle hlen hcount hms
        obtain ⟨-, hmLen, hn, hcluster⟩ := share_spec hext hoff hle hlen
        dsimp only
        generalize freshFor m f copyhdr off0 len = t at *
        generalize m.share t off len = n at *
        generalize hlen' : (if len = mCopyall then len else len - n.mLen) = len' at *
        have hlens : 0 ≤ len' ∧ len' ≤ mCopyall ∧ (len' = mCopyall ∨ 0 + len' ≤ chainLen rest) := by
          have hpos := chainLen_nonneg hrest
          rw [chainLen_cons] at hwithin
          split at hlen' <;> omega
        have hrefs (buf : Nat) : m.count 1 refs buf = refs buf + refsOf [n] buf := by
          rw [count_apply, Int.one_mul, refsOf, List.map_singleton, List.sum_singleton, hcluster]
        obtain ⟨add, refs', hres⟩ := ih (top ++ [n]) (m.count 1 refs) false hrest hrests (le_refl 0)
          (fun x hx => hrest x (List.mem_of_mem_head? hx)) (fun _ => rfl) hlens.1 hlens.2.1 hlens.2.2
        obtain ⟨hloop, hbytes, hcounts, -⟩ | ⟨hloop, hcounts, hnone⟩ := hres
        · refine ⟨n :: add, refs', .inl ⟨?_, ?_, fun buf => ?_, fun htrue _ => ?_⟩⟩
          · rw [hloop, List.append_assoc, List.singleton_append]
          · rw [chainBytes_cons, hbytes, hwanted]
          · have hadd : refsOf (n :: add) buf = refsOf [n] buf + refsOf add buf := refsOf_append [n] add buf
            rw [hcounts, hrefs, hadd]
            omega
          · rw [hdrLen, List.head?_cons, Option.bind_some, hn, hhdr htrue]
            rfl
        · refine ⟨[], refs', .inr ⟨hloop, fun buf => ?_, hnone⟩⟩
          rw [hcounts, hrefs, refsOf_append]
          omega

theorem skip_spec (hnonneg : ∀ m ∈ c, 0 ≤ m.mLen) (hoff : 0 ≤ off) (hle : off ≤ chainLen c) :
    ∃ front off' rest, skip off c = some (off', rest) ∧ c = front ++ rest ∧ chainLen front + off' = off ∧ 0 ≤ off' ∧
      (∀ m ∈ rest.head?, off' ≤ m.mLen) ∧ (rest = [] → off' = 0) ∧ (off = 0 → front = []) := by
  induction c generalizing off with
  | nil =>
    rw [chainLen_nil] at hle
    obtain rfl : off = 0 := by omega
    exact ⟨[], 0, [], rfl, rfl, rfl, le_refl _, fun _ h => (Option.not_mem_none _ h).elim, fun _ => rfl, fun _ => rfl⟩
  | cons m c ih =>
    obtain ⟨hm, hc⟩ := List.forall_mem_cons.1 hnonneg
    rw [chainLen_cons] at hle
    rw [skip]
    split
    · have hsub : 0 ≤ off - m.mLen := by omega
      obtain ⟨front, off', rest, hskip, rfl, hsum, hpos, hhead, hnil, -⟩ := ih hc hsub (by omega)
      exact ⟨m :: front, off', rest, hskip, rfl, by rw [chainLen_cons]; omega, hpos, hhead, hnil, fun _ => by omega⟩
    · refine ⟨[], off, m :: c, rfl, rfl, Int.zero_add _, hoff, fun x hx => ?_, fun h => (List.cons_ne_nil _ _ h).elim, fun _ => rfl⟩
      obtain rfl := Option.some.inj hx
      omega

/-- No mbuf of the chain has more bytes than `M_COPYALL`, and a header of the chain has the right length. -/
structure IsChain (c : List Mbuf) : Prop where
  nonneg : ∀ m ∈ c, 0 ≤ m.mLen
  small : ∀ m ∈ c, m.mLen ≤ mCopyall
  hdr : ∀ l, hdrLen c = some l → l = chainLen c
  fits : chainLen c < 2147483648

/-- `m_copym` returns a copy, or else a null pointer for want of an mbuf or of bytes to copy, with the counts as they were. -/
def CopiesBytes (alloc : Nat → Option Fresh) (refs : Refs) (c : List Mbuf) (off0 len : Int) : Prop :=
  ∃ top refs', mCopym alloc refs c off0 len = some (top, refs') ∧
    (top = [] → refs' = refs ∧ ((∃ i, alloc i = none) ∨ wanted c off0 len = [])) ∧
    (top ≠ [] → IsCopy c off0 len refs top refs')

theorem length_wanted (hnonneg : ∀ m ∈ c, 0 ≤ m.mLen) (hlen : 0 ≤ len) (hwithin : len = mCopyall ∨ len ≤ chainLen c) :
    ((wanted c 0 len).length : Int) = if len = mCopyall then chainLen c else len := by
  have hall := length_chainBytes hnonneg
  unfold wanted
  by_cases hcopy : len = mCopyall
  · rw [if_pos hcopy, if_pos hcopy, Int.toNat_zero, List.drop_zero, hall]
  · rw [if_neg hcopy, if_neg hcopy, Int.toNat_zero, List.drop_zero, List.length_take]
    omega

theorem hdr_isSome (h : hdrLen c ≠ none) : (c.head?.bind Mbuf.mPkthdr).isSome := by
  cases c with
  | nil => exact absurd rfl h
  | cons m c =>
    refine Option.isSome_iff_ne_none.2 fun hnone => h ?_
    rw [hdrLen, List.head?_cons, Option.bind_some, show m.mPkthdr = none from hnone, Option.map_none]

/-- **`m_copym` copies the bytes** of a chain, or returns a null pointer for want of mbufs or bytes. -/
theorem mCopym_copiesBytes (alloc : Nat → Option Fresh) (refs : Refs) (c : List Mbuf) (hc : IsChain c) (off0 len : Int)
    (hoff : 0 ≤ off0) (hle : off0 ≤ chainLen c) (hlen : len = mCopyall ∨ 0 ≤ len ∧ len < mCopyall ∧ off0 + len ≤ chainLen c) :
    CopiesBytes alloc refs c off0 len := by
  obtain ⟨front, off, rest, hskip, rfl, hsum, hpos, hhead, hnil, hfirst⟩ := skip_spec hc.nonneg hoff hle
  have hfront : ∀ m ∈ front, 0 ≤ m.mLen := fun m hm => hc.nonneg m (List.mem_append_left _ hm)
  have hrest : ∀ m ∈ rest, 0 ≤ m.mLen := fun m hm => hc.nonneg m (List.mem_append_right _ hm)
  have hlength := length_chainBytes hfront
  have hfrontlen := chainLen_nonneg hfront
  have hrestlen := chainLen_nonneg hrest
  have hwanted : wanted rest off len = wanted (front ++ rest) off0 len := by
    have hdrop : (chainBytes (front ++ rest)).drop off0.toNat = (chainBytes rest).drop off.toNat := by
      rw [chainBytes_append, List.drop_append, List.drop_eq_nil_of_le (by omega), List.nil_append]
      congr 1
      omega
    rw [wanted, wanted, hdrop]
  have hwithin : len = mCopyall ∨ off + len ≤ chainLen rest := by
    rw [chainLen_append] at hlen
    omega
  have hcopyall : mCopyall = 1000000000 := rfl
  obtain ⟨add, refs', hres⟩ := copyLoop_spec alloc off0 [] refs (off0 = 0 ∧ ((front ++ rest).head?.bind Mbuf.mPkthdr).isSome) hrest
    (fun m hm => hc.small m (List.mem_append_right _ hm)) hpos hhead hnil (by omega) (by omega) hwithin
  have hcopym : mCopym alloc refs (front ++ rest) off0 len = copyLoop alloc off0 rest [] refs off len
      (off0 = 0 ∧ ((front ++ rest).head?.bind Mbuf.mPkthdr).isSome) := by
    rw [mCopym, if_neg (by omega), hskip]
    rfl
  unfold CopiesBytes
  rw [hcopym]
  obtain ⟨hloop, hbytes, hcounts, hhdr⟩ | ⟨hloop, hcounts, hnone⟩ := hres
  · refine ⟨add, refs', hloop, ?_, ?_⟩
    · rintro rfl
      exact ⟨funext fun buf => (hcounts buf).trans (Int.add_zero _), .inr (hwanted ▸ hbytes.symm)⟩
    · intro hadd
      refine ⟨hbytes.trans hwanted, hcounts, fun hzero hsome => ?_⟩
      obtain rfl := hfirst hzero
      obtain ⟨l, hl⟩ := Option.ne_none_iff_exists'.1 hsome
      obtain rfl := hc.hdr l hl
      have hfits := hc.fits
      have hoff0 : off = off0 := by rw [chainLen_nil] at hsum; omega
      rw [hhdr (decide_eq_true ⟨hzero, hdr_isSome hsome⟩) hadd, hbytes, hoff0, hzero,
        length_wanted hrest (by omega) (by rw [chainLen_append] at hlen; omega)]
      rw [List.nil_append] at hl hfits
      rw [hl, Option.map_some, Int.sub_zero, int_eq (by omega) (by omega)]
  · exact ⟨[], refs', hloop, fun _ => ⟨funext fun buf => (hcounts buf).trans (Int.sub_zero _), .inl hnone⟩, fun h => absurd rfl h⟩

theorem twoBytes_isChain : IsChain twoBytes where
  nonneg := by decide
  small := by decide
  hdr := by
    rintro l ⟨⟩
    rfl
  fits := by decide

theorem mCopym_copiesBytes_twoBytes : CopiesBytes (fun _ => none) (fun _ => 1) twoBytes 1 1 :=
  mCopym_copiesBytes (fun _ => none) (fun _ => 1) twoBytes twoBytes_isChain 1 1 (by decide) (by decide) (.inr (by decide))

/-- There is always an mbuf, but none is used for no bytes. -/
theorem noBytes_not_copied : IsChain twoBytes ∧ ¬Copies (fun _ => some ⟨0, fun _ => 0⟩) (fun _ => 1) twoBytes 0 0 := by
  refine ⟨twoBytes_isChain, ?_⟩
  rintro ⟨top, refs', hcopym, hnull, -⟩
  obtain ⟨rfl, rfl⟩ := Prod.mk.inj (Option.some.inj hcopym)
  obtain ⟨-, i, hi⟩ := hnull rfl
  cases hi

end NetBSD.Mbufs
