import NetBSD.Mbuf.Adj

/-!
# `m_split`

A chain is cut in two. A null pointer is the empty chain here, and the recursion ends at the latest when it runs out of turns.
-/

namespace NetBSD.Mbufs

open NetBSD.Lib

/-- What an mbuf has in it when it is allocated: `MGET` and `MGETHDR` do not set `m_len`. -/
structure Fresh where
  mLen : Int
  storage : Nat → Byte

def mget (f : Fresh) (type : Nat) : Mbuf := { mLen := f.mLen, mData := 0, mType := type, storage := f.storage }

def mgethdr (f : Fresh) (type : Nat) (h : Pkthdr) : Mbuf :=
  { mLen := f.mLen, mData := mlen - mhlen, mType := type, mPkthdr := some h, storage := f.storage }

def Mbuf.align (m : Mbuf) (size : Nat) (len : Int) : Mbuf := { m with mData := m.mData + (size - len.toNat) / 4 * 4 }

/-- The mbuf with the split point: those before it, what is left of `len`, the mbuf, and those behind. -/
def locate : Int → List Mbuf → Option (List Mbuf × Int × Mbuf × List Mbuf)
  | _, [] => none
  | len, m :: rest =>
    if m.mLen < len then (locate (len - m.mLen) rest).map fun r => (m :: r.1, r.2)
    else some ([], len, m, rest)

def Mbuf.keep (m : Mbuf) (len : Int) : Mbuf := { m with mLen := len, mExt := m.mExt.map fun e => { e with extSize := 0 } }

def Mbuf.hand (m n : Mbuf) (len : Int) : Mbuf :=
  if m.mExt.isSome then
    { n with mExt := m.mExt, storage := m.storage, mData := m.mData + len.toNat, mLen := m.mLen - len }
  else
    Mbuf.append { n with mLen := 0 } { m with mData := m.mData + len.toNat, mLen := m.mLen - len } (m.mLen - len)

def mSplit : Nat → (Nat → Option Fresh) → List Mbuf → Int → Option (List Mbuf × List Mbuf)
  | 0, _, _, _ => none
  | fuel + 1, alloc, m0, len0 =>
    match locate len0 m0 with
    | none => some (m0, [])
    | some (front, len, m, next) =>
      let remain := m.mLen - len
      match m0.head?.bind fun first => first.mPkthdr.map fun h => (first.mType, h) with
      | some (type, h) =>
        match alloc 0 with
        | none => some (m0, [])
        | some f =>
          let n := mgethdr f type { h with len := int (h.len - len0) }
          if m.mExt.isSome then
            some (adjustHdr (fun _ => len0) (front ++ [m.keep len]), m.hand n len :: next)
          else if mhlen < remain then
            -- the tail goes behind `n`, whose `m_len` stays as it is
            match mSplit fuel (fun i => alloc (i + 1)) (m :: next) len with
            | none => none
            | some (kept, []) => some (adjustHdr (fun _ => len0) (front ++ kept), [])
            | some (kept, t :: tail) => some (adjustHdr (fun _ => len0) (front ++ kept), n.align mhlen 0 :: t :: tail)
          else some (adjustHdr (fun _ => len0) (front ++ [m.keep len]), m.hand (n.align mhlen remain) len :: next)
      | none =>
        if remain = 0 then some (front ++ [m], next)
        else
          match alloc 0 with
          | none => some (m0, [])
          | some f => some (front ++ [m.keep len], m.hand ((mget f m.mType).align mlen remain) len :: next)

/-- A packet, of which only the first mbuf has a header, and that one has at most `MHLEN` bytes unless it has a cluster. -/
structure IsHeaded (c : List Mbuf) : Prop extends IsPacket c where
  tail : ∀ m ∈ c.tail, m.mPkthdr = none
  first : ∀ m ∈ c.head?, m.mExt = none → m.mLen ≤ mhlen

/-- The two chains have the bytes of `c`, the first has `len0` of them, and both headers have the right length. -/
structure IsCut (c : List Mbuf) (len0 : Int) (m0 n : List Mbuf) : Prop where
  bytes : chainBytes m0 ++ chainBytes n = chainBytes c
  len : chainLen m0 = len0
  hdr : hdrLen m0 = some (chainLen m0)
  hdr' : hdrLen n = some (chainLen n)

/-- `m_split` returns with a cut, or with a null pointer when an allocation has failed and with the lengths as they were. -/
def Splits (alloc : Nat → Option Fresh) (c : List Mbuf) (len0 : Int) : Prop :=
  ∃ fuel m0 n, mSplit fuel alloc c len0 = some (m0, n) ∧
    ((n ≠ [] ∧ IsCut c len0 m0 n) ∨
      (n = [] ∧ (alloc 0 = none ∨ alloc 1 = none) ∧ m0.map Mbuf.mLen = c.map Mbuf.mLen ∧ hdrLen m0 = hdrLen c))

def CutsLong (c : List Mbuf) (len0 : Int) : Prop :=
  ∃ front m next, c = front ++ m :: next ∧ chainLen front < len0 ∧ m.mExt = none ∧ len0 + mhlen < chainLen front + m.mLen

variable {c front next kept : List Mbuf} {m n : Mbuf} {len len0 x : Int} {alloc : Nat → Option Fresh} {f f' : Fresh} {fuel type : Nat}
  {h : Pkthdr}

@[simp] theorem chainBytes_append (c c' : List Mbuf) : chainBytes (c ++ c') = chainBytes c ++ chainBytes c' :=
  List.flatMap_append

@[simp] theorem chainLen_append (c c' : List Mbuf) : chainLen (c ++ c') = chainLen c + chainLen c' := by
  unfold chainLen
  rw [List.map_append, List.sum_append]

theorem bytes_keep (hlo : 0 ≤ len) (hle : len ≤ m.mLen) : (m.keep len).bytes = m.bytes.take len.toNat :=
  (take_bytes hlo hle).symm

theorem hand_spec (n : Mbuf) (hlo : 0 ≤ len) (hle : len ≤ m.mLen) : (m.hand n len).bytes = m.bytes.drop len.toNat ∧
    (m.hand n len).mLen = m.mLen - len ∧ (m.hand n len).mPkthdr = n.mPkthdr := by
  rw [drop_bytes hlo hle, Mbuf.hand]
  split
  · exact ⟨rfl, rfl, rfl⟩
  · refine ⟨?_, Int.zero_add _, rfl⟩
    rw [bytes_append (le_refl (0 : Int)) (show 0 ≤ m.mLen - len by omega) (le_refl _), bytes_zero, List.nil_append]
    exact List.take_of_length_le (length_bytes _).le

theorem locate_of_le (h : len ≤ m.mLen) : locate len (m :: next) = some ([], len, m, next) := by
  rw [locate, if_neg (by omega)]

theorem locate_spec (hne : c ≠ []) (hlo : 0 ≤ len) (hle : len ≤ chainLen c) :
    ∃ front len' m next, locate len c = some (front, len', m, next) ∧ c = front ++ m :: next ∧ chainLen front + len' = len ∧
      0 ≤ len' ∧ len' ≤ m.mLen ∧ (0 < len' ∨ front = []) := by
  induction c generalizing len with
  | nil => exact absurd rfl hne
  | cons m c ih =>
    rw [chainLen_cons] at hle
    by_cases hmore : m.mLen < len
    · have hc : c ≠ [] := by
        rintro rfl
        rw [chainLen_nil] at hle
        omega
      have hsub : 0 ≤ len - m.mLen := by omega
      obtain ⟨front, len', m', next, hlocate, rfl, hsum, hpos, hlen', hlast⟩ := ih hc hsub (by omega)
      refine ⟨m :: front, len', m', next, ?_, rfl, by rw [chainLen_cons]; omega, hpos, hlen', .inl ?_⟩
      · rw [locate, if_pos hmore, hlocate]
        rfl
      · obtain hlast | rfl := hlast
        · exact hlast
        · rw [chainLen_nil] at hsum
          omega
    · exact ⟨[], len, m, c, locate_of_le (by omega), rfl, Int.zero_add _, hlo, by omega, .inr rfl⟩

theorem locate_append (next : List Mbuf) (hfront : ∀ x ∈ front, 0 ≤ x.mLen) (hlo : chainLen front < len)
    (hle : len ≤ chainLen front + m.mLen) :
    locate len (front ++ m :: next) = some (front, len - chainLen front, m, next) := by
  induction front generalizing len with
  | nil =>
    rw [chainLen_nil] at hle
    rw [List.nil_append, locate_of_le (by omega), chainLen_nil, Int.sub_zero]
  | cons x front ih =>
    obtain ⟨hx, hrest⟩ := List.forall_mem_cons.1 hfront
    have hpos := chainLen_nonneg hrest
    rw [chainLen_cons] at hlo hle
    have hsub : chainLen front < len - x.mLen := by omega
    rw [List.cons_append, locate, if_pos (by omega), ih hrest hsub (by omega), chainLen_cons]
    rw [Option.map_some, show len - x.mLen - chainLen front = len - (x.mLen + chainLen front) by omega]

theorem hdrLen_append_cons (front next next' : List Mbuf) (h : m.mPkthdr = n.mPkthdr) :
    hdrLen (front ++ m :: next) = hdrLen (front ++ n :: next') := by
  cases front with
  | nil =>
    rw [List.nil_append, List.nil_append, hdrLen, hdrLen, List.head?_cons, List.head?_cons, Option.bind_some,
      Option.bind_some, h]
  | cons x front => rfl

theorem IsPacket.head (hc : IsPacket c) : ∃ first rest h, c = first :: rest ∧ first.mPkthdr = some h ∧ h.len = chainLen c := by
  have hhdr := hc.hdr
  cases c with
  | nil => cases hhdr
  | cons first rest =>
    obtain ⟨h, hfirst, hlen⟩ := Option.map_eq_some_iff.1 (show first.mPkthdr.map Pkthdr.len = _ from hhdr)
    exact ⟨first, rest, h, rfl, hfirst, hlen⟩

theorem isCut_hand (hc : IsPacket c) (heq : c = front ++ m :: next) (hsum : chainLen front + len = len0) (hlo : 0 ≤ len)
    (hle : len ≤ m.mLen) (hlen0 : 0 ≤ len0) (hn : n.mPkthdr = some { h with len := int (chainLen c - len0) }) :
    IsCut c len0 (adjustHdr (fun _ => len0) (front ++ [m.keep len])) (m.hand n len :: next) := by
  obtain ⟨hbytes, hmLen, hhdr⟩ := hand_spec n hlo hle
  have hnonneg := chainLen_nonneg hc.nonneg
  have hfits := hc.fits
  have hnext : 0 ≤ chainLen next := chainLen_nonneg fun x hx => hc.nonneg x (heq ▸ List.mem_append_right _ (List.mem_cons_of_mem _ hx))
  have hall : chainLen c = chainLen front + (m.mLen + chainLen next) := by rw [heq, chainLen_append, chainLen_cons]
  have hkept : chainLen (front ++ [m.keep len]) = len0 := by
    rw [chainLen_append, chainLen_cons, chainLen_nil, Int.add_zero]
    exact hsum
  constructor
  · rw [chainBytes_adjustHdr, chainBytes_append, chainBytes_cons, chainBytes_cons, chainBytes_nil, List.append_nil, bytes_keep hlo hle,
      hbytes, heq, chainBytes_append, chainBytes_cons, List.append_assoc, ← List.append_assoc (m.bytes.take _), List.take_append_drop]
  · rw [chainLen_adjustHdr, hkept]
  · rw [hdrLen_adjustHdr, hdrLen_append_cons front [] next (m := m.keep len) (n := m) rfl, ← heq, hc.hdr, chainLen_adjustHdr, hkept,
      Option.map_some, int_eq (by omega) (by omega)]
  · rw [chainLen_cons, hmLen, hdrLen, List.head?_cons, Option.bind_some, hhdr, hn, Option.map_some, int_eq (by omega) (by omega)]
    exact congrArg some (by dsimp only; omega)

structure Cuts (c : List Mbuf) (len0 : Int) (first : Mbuf) (h : Pkthdr) (front : List Mbuf) (len : Int) (m : Mbuf) (next : List Mbuf) :
    Prop where
  head : c.head? = some first
  hdr : first.mPkthdr = some h
  hdrLen : h.len = chainLen c
  locate : locate len0 c = some (front, len, m, next)
  eq : c = front ++ m :: next
  sum : chainLen front + len = len0
  nonneg : 0 ≤ len
  le : len ≤ m.mLen
  last : 0 < len ∨ front = []

variable {first : Mbuf}

theorem IsPacket.cuts (hc : IsPacket c) (hlo : 0 ≤ len0) (hle : len0 ≤ chainLen c) :
    ∃ first h front len m next, Cuts c len0 first h front len m next := by
  obtain ⟨first, rest, h, heq, hfirst, hlen⟩ := hc.head
  obtain ⟨front, len, m, next, hlocate, hsplit, hsum, hpos, hle', hlast⟩ := locate_spec (by simp [heq]) hlo hle
  exact ⟨first, h, front, len, m, next, by rw [heq, List.head?_cons], hfirst, hlen, hlocate, hsplit, hsum, hpos, hle', hlast⟩

theorem mSplit_none (hcuts : Cuts c len0 first h front len m next) (halloc : alloc 0 = none) (fuel : Nat) :
    mSplit (fuel + 1) alloc c len0 = some (c, []) := by
  rw [mSplit, hcuts.locate, hcuts.head]
  dsimp only
  rw [Option.bind_some, hcuts.hdr, Option.map_some, halloc]

theorem mSplit_hand (hcuts : Cuts c len0 first h front len m next) (halloc : alloc 0 = some f)
    (hshort : m.mExt = none → m.mLen - len ≤ mhlen) (fuel : Nat) :
    ∃ n : Mbuf, n.mPkthdr = some { h with len := int (chainLen c - len0) } ∧
      mSplit (fuel + 1) alloc c len0 = some (adjustHdr (fun _ => len0) (front ++ [m.keep len]), m.hand n len :: next) := by
  rw [mSplit, hcuts.locate, hcuts.head]
  dsimp only
  rw [Option.bind_some, hcuts.hdr, Option.map_some, halloc]
  dsimp only
  rw [hcuts.hdrLen]
  by_cases hext : m.mExt.isSome
  · rw [if_pos hext]
    exact ⟨_, rfl, rfl⟩
  · have hle := hshort (Option.not_isSome_iff_eq_none.1 hext)
    rw [if_neg hext, if_neg (by omega)]
    exact ⟨_, rfl, rfl⟩

theorem mSplit_rest (alloc : Nat → Option Fresh) (next : List Mbuf) (hm : m.mPkthdr = none) (hext : m.mExt = none) (hle : len ≤ m.mLen)
    (hmore : m.mLen - len ≠ 0) (fuel : Nat) :
    (alloc 0 = none → mSplit (fuel + 1) alloc (m :: next) len = some (m :: next, [])) ∧
      (∀ f, alloc 0 = some f → ∃ n : Mbuf, mSplit (fuel + 1) alloc (m :: next) len = some ([m.keep len], m.hand n len :: next)) := by
  constructor
  · intro halloc
    rw [mSplit, locate_of_le hle]
    dsimp only
    rw [List.head?_cons, Option.bind_some, hm, Option.map_none, halloc, if_neg hmore]
  · intro f halloc
    rw [mSplit, locate_of_le hle]
    dsimp only
    rw [List.head?_cons, Option.bind_some, hm, Option.map_none, halloc, if_neg hmore]
    exact ⟨_, rfl⟩

theorem mSplit_long (hcuts : Cuts c len0 first h front len m next) (halloc : alloc 0 = some f) (hext : m.mExt = none)
    (hm : m.mPkthdr = none) (hlong : mhlen < m.mLen - len) (fuel : Nat) :
    (alloc 1 = none → mSplit (fuel + 2) alloc c len0 = some (adjustHdr (fun _ => len0) c, [])) ∧
      (∀ f', alloc 1 = some f' → ∃ n t : Mbuf, n.mLen = f.mLen ∧ n.mPkthdr = some { h with len := int (chainLen c - len0) } ∧
        (f.mLen = 0 → n.bytes = []) ∧
        mSplit (fuel + 2) alloc c len0 = some (adjustHdr (fun _ => len0) (front ++ [m.keep len]), n :: m.hand t len :: next)) := by
  have hrest := mSplit_rest (fun i => alloc (i + 1)) next hm hext hcuts.le (by omega) fuel
  rw [mSplit, hcuts.locate, hcuts.head]
  dsimp only
  rw [Option.bind_some, hcuts.hdr, Option.map_some, halloc]
  dsimp only
  rw [hcuts.hdrLen]
  rw [if_neg (by rw [hext]; decide), if_pos hlong]
  constructor
  · intro hnone
    rw [hrest.1 hnone, hcuts.eq]
  · intro f' hsome
    obtain ⟨t, ht⟩ := hrest.2 f' hsome
    rw [ht]
    exact ⟨_, t, rfl, rfl, fun hzero => by rw [Mbuf.bytes, Mbuf.align, mgethdr, hzero]; rfl, rfl⟩

theorem mSplit_one (hcuts : Cuts c len0 first h front len m next) (halloc : alloc 0 = some f) (hext : m.mExt = none)
    (hlong : mhlen < m.mLen - len) : mSplit 1 alloc c len0 = none := by
  rw [mSplit, hcuts.locate, hcuts.head]
  dsimp only
  rw [Option.bind_some, hcuts.hdr, Option.map_some, halloc]
  dsimp only
  rw [if_neg (by rw [hext]; decide), if_pos hlong, mSplit]

theorem IsHeaded.behind (hc : IsHeaded c) (hcuts : Cuts c len0 first h front len m next) (hext : m.mExt = none)
    (hlong : mhlen < m.mLen - len) : 0 < len ∧ m.mPkthdr = none := by
  have hnonneg := hcuts.nonneg
  cases front with
  | nil =>
    have hm : m ∈ c.head? := by rw [hcuts.eq]; rfl
    have hshort := hc.first m hm hext
    omega
  | cons x front =>
    refine ⟨hcuts.last.resolve_right (List.cons_ne_nil _ _), hc.tail m ?_⟩
    rw [hcuts.eq]
    exact List.mem_append_right _ List.mem_cons_self

theorem IsHeaded.cutsLong_iff (hc : IsHeaded c) (hcuts : Cuts c len0 first h front len m next) :
    CutsLong c len0 ↔ m.mExt = none ∧ mhlen < m.mLen - len := by
  have hsum := hcuts.sum
  constructor
  · rintro ⟨front', m', next', heq, hlo, hext, hlong⟩
    have hfront : ∀ x ∈ front', 0 ≤ x.mLen := fun x hx => hc.nonneg x (heq ▸ List.mem_append_left _ hx)
    have hlocate := locate_append next' hfront hlo (show len0 ≤ chainLen front' + m'.mLen by omega)
    rw [← heq, hcuts.locate] at hlocate
    obtain ⟨rfl, rfl, rfl, rfl⟩ := by simpa only [Option.some.injEq, Prod.mk.injEq] using hlocate
    exact ⟨hext, by omega⟩
  · rintro ⟨hext, hlong⟩
    have hpos := (hc.behind hcuts hext hlong).1
    exact ⟨front, m, next, hcuts.eq, by omega, hext, by omega⟩

theorem isCut_long_iff (hc : IsPacket c) (hcuts : Cuts c len0 first h front len m next) (hlen0 : 0 ≤ len0) {t : Mbuf}
    (hn : n.mPkthdr = some { h with len := int (chainLen c - len0) }) (hbytes : n.mLen = 0 → n.bytes = []) :
    IsCut c len0 (adjustHdr (fun _ => len0) (front ++ [m.keep len])) (n :: m.hand t len :: next) ↔ n.mLen = 0 := by
  have hcut := isCut_hand (n := n) hc hcuts.eq hcuts.sum hcuts.nonneg hcuts.le hlen0 hn
  have hn' : hdrLen (n :: m.hand t len :: next) = hdrLen (m.hand n len :: next) := by
    rw [hdrLen, hdrLen, List.head?_cons, List.head?_cons, Option.bind_some, Option.bind_some,
      (hand_spec n hcuts.nonneg hcuts.le).2.2]
  have hlen : chainLen (m.hand t len :: next) = chainLen (m.hand n len :: next) := by
    rw [chainLen_cons, chainLen_cons, (hand_spec n hcuts.nonneg hcuts.le).2.1, (hand_spec t hcuts.nonneg hcuts.le).2.1]
  have htail : chainBytes (m.hand t len :: next) = chainBytes (m.hand n len :: next) := by
    rw [chainBytes_cons, chainBytes_cons, (hand_spec n hcuts.nonneg hcuts.le).1, (hand_spec t hcuts.nonneg hcuts.le).1]
  constructor
  · intro hlong
    have heq := hlong.hdr'.symm.trans (hn'.trans hcut.hdr')
    rw [chainLen_cons, hlen] at heq
    have := Option.some.inj heq
    omega
  · intro hzero
    refine ⟨?_, hcut.len, hcut.hdr, ?_⟩
    · rw [chainBytes_cons n, hbytes hzero, List.nil_append, htail, hcut.bytes]
    · rw [hn', hcut.hdr', chainLen_cons n, hzero, Int.zero_add, hlen]

theorem IsHeaded.le_chainLen (hc : IsHeaded c) (hcuts : Cuts c len0 first h front len m next) :
    len0 + (m.mLen - len) ≤ chainLen c := by
  have hsum := hcuts.sum
  have hnext : 0 ≤ chainLen next :=
    chainLen_nonneg fun x hx => hc.nonneg x (hcuts.eq ▸ List.mem_append_right _ (List.mem_cons_of_mem _ hx))
  rw [hcuts.eq, chainLen_append, chainLen_cons]
  omega

theorem IsHeaded.splits_iff (hc : IsHeaded c) (hlo : 0 ≤ len0) (hle : len0 ≤ chainLen c) :
    Splits alloc c len0 ↔ ¬CutsLong c len0 ∨ alloc 0 = none ∨ ∃ f, alloc 0 = some f ∧ f.mLen = 0 ∧ alloc 1 ≠ none := by
  obtain ⟨first, h, front, len, m, next, hcuts⟩ := hc.toIsPacket.cuts hlo hle
  cases halloc : alloc 0 with
  | none =>
    exact iff_of_true ⟨1, c, [], mSplit_none hcuts halloc 0, .inr ⟨rfl, .inl halloc, rfl, rfl⟩⟩ (.inr (.inl rfl))
  | some f =>
    by_cases hlong : CutsLong c len0
    · obtain ⟨hext, hmany⟩ := (hc.cutsLong_iff hcuts).1 hlong
      have hrun := mSplit_long hcuts halloc hext (hc.behind hcuts hext hmany).2 hmany
      constructor
      · rintro ⟨fuel, m0, n, hsplit, hres⟩
        refine .inr (.inr ⟨f, rfl, ?_⟩)
        obtain _ | _ | fuel := fuel
        · cases hsplit
        · cases hsplit.symm.trans (mSplit_one hcuts halloc hext hmany)
        · cases hsecond : alloc 1 with
          | none =>
            -- `m_pkthdr.len` of the chain stays as it was set for the cut
            obtain ⟨rfl, rfl⟩ := Prod.mk.inj (Option.some.inj (hsplit.symm.trans ((hrun fuel).1 hsecond)))
            obtain ⟨hnil, -⟩ | ⟨-, -, -, hhdr⟩ := hres
            · exact absurd rfl hnil
            · have hlens := hc.fits
              rw [hdrLen_adjustHdr, hc.hdr, Option.map_some, int_eq (by omega) (by omega)] at hhdr
              have hnext := hc.le_chainLen hcuts
              have := Option.some.inj hhdr
              omega
          | some f' =>
            obtain ⟨n', t, hzero, hn, hbytes, hdone⟩ := (hrun fuel).2 f' hsecond
            obtain ⟨rfl, rfl⟩ := Prod.mk.inj (Option.some.inj (hsplit.symm.trans hdone))
            obtain ⟨-, hcut⟩ | ⟨hnil, -⟩ := hres
            · rw [isCut_long_iff hc.toIsPacket hcuts hlo hn (fun hz => hbytes (hzero ▸ hz)), hzero] at hcut
              exact ⟨hcut, Option.some_ne_none _⟩
            · cases hnil
      · rintro (hshort | hnone | ⟨f', hf', hzero, hsome⟩)
        · exact absurd hlong hshort
        · cases hnone
        · obtain rfl := Option.some.inj hf'
          obtain ⟨f', hsecond⟩ := Option.ne_none_iff_exists'.1 hsome
          obtain ⟨n, t, hlen, hn, hbytes, hdone⟩ := (hrun 0).2 f' hsecond
          refine ⟨2, _, _, hdone, .inl ⟨List.cons_ne_nil _ _, ?_⟩⟩
          exact (isCut_long_iff hc.toIsPacket hcuts hlo hn fun _ => hbytes hzero).2 (hlen.trans hzero)
    · have hshort : m.mExt = none → m.mLen - len ≤ mhlen := fun hext =>
        not_lt.1 fun hmany => hlong ((hc.cutsLong_iff hcuts).2 ⟨hext, hmany⟩)
      obtain ⟨n, hn, hdone⟩ := mSplit_hand hcuts halloc hshort 0
      refine iff_of_true ⟨1, _, _, hdone, .inl ⟨List.cons_ne_nil _ _, ?_⟩⟩ (.inl hlong)
      exact isCut_hand hc.toIsPacket hcuts.eq hcuts.sum hcuts.nonneg hcuts.le hlo hn

/-- **`m_split` cuts a packet in two** exactly when the cut is not a long one, or there is no mbuf for the header, or there are both mbufs
and the first happens to have the length zero. -/
theorem mSplit_splits_iff (alloc : Nat → Option Fresh) (c : List Mbuf) (hc : IsHeaded c) (len0 : Int) (hlo : 0 ≤ len0)
    (hle : len0 ≤ chainLen c) :
    Splits alloc c len0 ↔ ¬CutsLong c len0 ∨ alloc 0 = none ∨ ∃ f, alloc 0 = some f ∧ f.mLen = 0 ∧ alloc 1 ≠ none :=
  hc.splits_iff hlo hle

theorem twoBytes_isHeaded : IsHeaded twoBytes where
  toIsPacket := twoBytes_isPacket
  tail := List.forall_mem_nil _
  first := by decide

theorem mSplit_splits_iff_twoBytes : Splits (fun _ => none) twoBytes 1 ↔ ¬CutsLong twoBytes 1 ∨ (none : Option Fresh) = none ∨
    ∃ f : Fresh, none = some f ∧ f.mLen = 0 ∧ (none : Option Fresh) ≠ none :=
  mSplit_splits_iff (fun _ => none) twoBytes twoBytes_isHeaded 1 (by decide) (by decide)

def longTail : List Mbuf :=
  [{ mLen := 2, mData := 8, mPkthdr := some ⟨110, 0⟩, storage := fun _ => 7 }, { mLen := 108, mData := 0, storage := fun _ => 9 }]

theorem longTail_isHeaded : IsHeaded longTail where
  nonneg := by decide
  hdr := rfl
  fits := by decide
  tail := by decide
  first := by decide

def oneMbuf : Nat → Option Fresh
  | 0 => some ⟨0, fun _ => 0⟩
  | _ => none

theorem longTail_not_split : IsHeaded longTail ∧ (4 : Int) ≤ chainLen longTail ∧ ¬Splits oneMbuf longTail 4 := by
  refine ⟨longTail_isHeaded, by decide, fun h => ?_⟩
  have hlong : CutsLong longTail 4 :=
    ⟨longTail.take 1, { mLen := 108, mData := 0, storage := fun _ => 9 }, [], rfl, by decide, rfl, by decide⟩
  obtain hshort | hnone | ⟨f, -, -, hsecond⟩ := (longTail_isHeaded.splits_iff (by decide) (by decide)).1 h
  · exact hshort hlong
  · cases hnone
  · exact hsecond rfl

def catLoop : Mbuf → List Mbuf → List Mbuf
  | m, [] => [m]
  | m, n :: rest =>
    if m.mExt.isSome ∨ (mlen : Int) ≤ m.mData + m.mLen + n.mLen then m :: n :: rest
    else catLoop (m.append n n.mLen) rest

def mCat : List Mbuf → List Mbuf → List Mbuf
  | [], n => n
  | [m], n => catLoop m n
  | m :: m' :: rest, n => m :: mCat (m' :: rest) n

def copydataSkip : Int → List Mbuf → Option (Int × List Mbuf)
  | off, [] => if 0 < off then none else some (off, [])
  | off, m :: rest => if 0 < off ∧ m.mLen ≤ off then copydataSkip (off - m.mLen) rest else some (off, m :: rest)

def copydataLoop : Int → Int → List Mbuf → Option (List Byte)
  | _, len, [] => if 0 < len then none else some []
  | off, len, m :: rest =>
    if 0 < len then
      let count := min (m.mLen - off) len
      (copydataLoop 0 (len - count) rest).map fun bytes => slice m.storage (m.mData + off.toNat) count.toNat ++ bytes
    else some []

def mCopydata (m : List Mbuf) (off len : Int) : Option (List Byte) :=
  if off < 0 ∨ len < 0 then none else (copydataSkip off m).bind fun r => copydataLoop r.1 len r.2

theorem catLoop_spec (hm : 0 ≤ m.mLen) (hc : ∀ x ∈ c, 0 ≤ x.mLen) :
    chainBytes (catLoop m c) = m.bytes ++ chainBytes c ∧ ∀ x ∈ catLoop m c, 0 ≤ x.mLen := by
  induction c generalizing m with
  | nil => exact ⟨rfl, List.forall_mem_singleton.2 hm⟩
  | cons x c ih =>
    obtain ⟨hx, hc⟩ := List.forall_mem_cons.1 hc
    rw [catLoop]
    split
    · exact ⟨rfl, List.forall_mem_cons.2 ⟨hm, List.forall_mem_cons.2 ⟨hx, hc⟩⟩⟩
    · obtain ⟨hbytes, hlens⟩ := ih (m := m.append x x.mLen) (Int.add_nonneg hm hx) hc
      rw [bytes_append hm hx (le_refl _), List.take_of_length_le (by rw [length_bytes]), List.append_assoc] at hbytes
      exact ⟨hbytes, hlens⟩

theorem mCat_spec {d : List Mbuf} (hc : ∀ x ∈ c, 0 ≤ x.mLen) (hd : ∀ x ∈ d, 0 ≤ x.mLen) :
    chainBytes (mCat c d) = chainBytes c ++ chainBytes d ∧ ∀ x ∈ mCat c d, 0 ≤ x.mLen := by
  induction c with
  | nil => exact ⟨rfl, hd⟩
  | cons m rest ih =>
    obtain ⟨hm, hrest⟩ := List.forall_mem_cons.1 hc
    cases rest with
    | nil =>
      rw [mCat, chainBytes_cons, chainBytes_nil, List.append_nil]
      exact catLoop_spec hm hd
    | cons m' rest =>
      obtain ⟨hbytes, hlens⟩ := ih hrest
      rw [mCat, chainBytes_cons, chainBytes_cons m, hbytes, List.append_assoc]
      exact ⟨rfl, List.forall_mem_cons.2 ⟨hm, hlens⟩⟩

theorem copydataLoop_spec (hc : ∀ x ∈ c, 0 ≤ x.mLen) (hoff : 0 ≤ len0) (hhead : ∀ x ∈ c.head?, len0 ≤ x.mLen) (hnil : c = [] → len0 = 0)
    (hlen : 0 ≤ len) : copydataLoop len0 len c =
      if len0 + len ≤ chainLen c then some (((chainBytes c).drop len0.toNat).take len.toNat) else none := by
  induction c generalizing len0 len with
  | nil =>
    rw [copydataLoop, hnil rfl, chainLen_nil, chainBytes_nil, List.drop_nil, List.take_nil]
    split_ifs <;> first | rfl | omega
  | cons m c ih =>
    obtain ⟨hm, hc⟩ := List.forall_mem_cons.1 hc
    have hle := hhead m rfl
    have htotal := chainLen_nonneg hc
    rw [copydataLoop, chainLen_cons, chainBytes_cons]
    by_cases hpos : 0 < len
    · have hslice : slice m.storage (m.mData + len0.toNat) (min (m.mLen - len0) len).toNat = (m.bytes.drop len0.toNat).take len.toNat := by
        rw [drop_bytes hoff hle, Mbuf.bytes, slice, slice, ← List.map_take, List.take_range]
        congr 2
        dsimp only
        omega
      rw [if_pos hpos]
      dsimp only
      rw [ih hc (le_refl 0) (fun x hx => hc x (List.mem_of_mem_head? hx)) (fun _ => rfl) (by omega), hslice]
      by_cases hfits : len0 + len ≤ m.mLen + chainLen c
      · rw [if_pos hfits, if_pos (by omega), Option.map_some, List.drop_append_of_le_length (by rw [length_bytes]; omega),
          List.take_append, List.length_drop, length_bytes, Int.toNat_zero, List.drop_zero]
        congr 3
        omega
      · rw [if_neg hfits, if_neg (by omega), Option.map_none]
    · obtain rfl : len = 0 := by omega
      rw [if_neg hpos, if_pos (by omega), Int.toNat_zero, List.take_zero]

theorem copydataSkip_spec (hc : ∀ x ∈ c, 0 ≤ x.mLen) (hoff : 0 ≤ len0) :
    copydataSkip len0 c = none ∧ chainLen c < len0 ∨ ∃ off d, copydataSkip len0 c = some (off, d) ∧ (∀ x ∈ d, 0 ≤ x.mLen) ∧ 0 ≤ off ∧
      (∀ x ∈ d.head?, off ≤ x.mLen) ∧ (d = [] → off = 0) ∧ (chainBytes d).drop off.toNat = (chainBytes c).drop len0.toNat ∧
      chainLen d - off = chainLen c - len0 ∧ len0 ≤ chainLen c := by
  induction c generalizing len0 with
  | nil =>
    rw [copydataSkip]
    split
    · exact .inl ⟨rfl, by rwa [chainLen_nil]⟩
    · exact .inr ⟨len0, [], rfl, hc, hoff, nofun, fun _ => by omega, rfl, rfl, by rw [chainLen_nil]; omega⟩
  | cons m c ih =>
    obtain ⟨hm, hrest⟩ := List.forall_mem_cons.1 hc
    have htotal := chainLen_nonneg hrest
    rw [copydataSkip, chainLen_cons]
    split
    · rename_i hskip
      obtain ⟨hnone, hlt⟩ | ⟨off, d, hsome, hd, hpos, hhead, hnil, hbytes, hlen, hle⟩ := ih hrest (show 0 ≤ len0 - m.mLen by omega)
      · exact .inl ⟨hnone, by omega⟩
      · refine .inr ⟨off, d, hsome, hd, hpos, hhead, hnil, ?_, by omega, by omega⟩
        have hall : m.bytes.length ≤ len0.toNat := by rw [length_bytes]; omega
        rw [hbytes, chainBytes_cons, List.drop_append, List.drop_eq_nil_of_le hall, List.nil_append, length_bytes]
        congr 1
        omega
    · rename_i hstop
      refine .inr ⟨len0, m :: c, rfl, hc, hoff, fun x hx => ?_, nofun, rfl, by rw [chainLen_cons], by omega⟩
      obtain rfl := Option.some.inj hx
      omega

theorem mCopydata_eq (hc : ∀ x ∈ c, 0 ≤ x.mLen) (off len : Int) : mCopydata c off len =
    if 0 ≤ off ∧ 0 ≤ len ∧ off + len ≤ chainLen c then some (((chainBytes c).drop off.toNat).take len.toNat) else none := by
  rw [mCopydata]
  split
  · rw [if_neg (by omega)]
  · rename_i hneg
    obtain ⟨hnone, hlt⟩ | ⟨off', d, hsome, hd, hpos, hhead, hnil, hbytes, hlen, hle⟩ := copydataSkip_spec hc (show 0 ≤ off by omega)
    · rw [hnone, if_neg (by omega), Option.bind_none]
    · rw [hsome, Option.bind_some, copydataLoop_spec hd hpos hhead hnil (by omega), hbytes]
      exact if_congr (by omega) rfl rfl

/-- What `m_split` has cut and `m_cat` puts together again is read by `m_copydata` as before, at every offset and length, and a read
behind the end panics. -/
theorem mCopydata_mCat_mSplit (hc : IsHeaded c) (hlo : 0 ≤ len0) (hle : len0 ≤ chainLen c) (hcut : ¬CutsLong c len0)
    (halloc : alloc 0 = some f) : ∃ m0 n, mSplit 1 alloc c len0 = some (m0, n) ∧ chainLen m0 = len0 ∧ ∀ off len : Int,
      mCopydata (mCat m0 n) off len =
        if 0 ≤ off ∧ 0 ≤ len ∧ off + len ≤ chainLen c then some (((chainBytes c).drop off.toNat).take len.toNat) else none := by
  obtain ⟨first, h, front, x, m, next, hcuts⟩ := hc.toIsPacket.cuts hlo hle
  rw [hc.cutsLong_iff hcuts] at hcut
  obtain ⟨n, hn, hsplit⟩ := mSplit_hand hcuts halloc (fun hext => Int.not_lt.1 fun hlt => hcut ⟨hext, hlt⟩) 0
  have hparts := isCut_hand hc.toIsPacket hcuts.eq hcuts.sum hcuts.nonneg hcuts.le hlo hn
  have hall := hc.nonneg
  rw [hcuts.eq] at hall
  have hfront : ∀ y ∈ adjustHdr (fun _ => len0) (front ++ [m.keep x]), 0 ≤ y.mLen := by
    have hkept : ∀ y ∈ front ++ [m.keep x], 0 ≤ y.mLen := fun y hy => by
      rcases List.mem_append.1 hy with hy | hy
      · exact hall y (List.mem_append_left _ hy)
      · obtain rfl := List.mem_singleton.1 hy
        exact hcuts.nonneg
    cases hf : front ++ [m.keep x] with
    | nil => exact nofun
    | cons y ys =>
      rw [hf] at hkept
      exact List.forall_mem_cons.2 ⟨hkept y List.mem_cons_self, fun z hz => hkept z (List.mem_cons_of_mem _ hz)⟩
  have hback : ∀ y ∈ m.hand n x :: next, 0 ≤ y.mLen := by
    refine List.forall_mem_cons.2 ⟨?_, fun y hy => hall y (List.mem_append_right _ (List.mem_cons_of_mem _ hy))⟩
    rw [(hand_spec n hcuts.nonneg hcuts.le).2.1]
    have := hcuts.le
    omega
  obtain ⟨hbytes, hlens⟩ := mCat_spec hfront hback
  rw [hparts.bytes] at hbytes
  refine ⟨_, _, hsplit, hparts.len, fun off len => ?_⟩
  rw [mCopydata_eq hlens, ← length_chainBytes hlens, hbytes, length_chainBytes hc.nonneg]

theorem mCopydata_mCat_mSplit_twoBytes : ∃ m0 n, mSplit 1 (fun _ => some ⟨0, fun _ => 0⟩) twoBytes 1 = some (m0, n) ∧
    chainLen m0 = 1 ∧ ∀ off len : Int, mCopydata (mCat m0 n) off len =
      if 0 ≤ off ∧ 0 ≤ len ∧ off + len ≤ chainLen twoBytes then some (((chainBytes twoBytes).drop off.toNat).take len.toNat) else none :=
  mCopydata_mCat_mSplit twoBytes_isHeaded (by decide) (by decide)
    (fun ⟨front, m, next, heq, _, _, hlong⟩ => by
      cases front with
      | nil =>
        obtain ⟨rfl, -⟩ := List.cons.inj heq
        exact absurd hlong (by decide)
      | cons y ys => exact absurd (List.cons.inj heq).2 (by simp)) rfl

end NetBSD.Mbufs
