import NetBSD.Mbuf.Chain
import NetBSD.Lib.Reassembly
import Mathlib.Algebra.BigOperators.Group.List.Basic

/-!
# Mbufs

`uipc_mbuf.c`: an mbuf has the storage that its `m_data` points into, which is `m_dat` or a cluster, and a chain is a list
of mbufs. An `int` is an integer that goes round at 32 bits.
-/

namespace NetBSD.Mbufs

open NetBSD.Lib

abbrev mlen : Nat := 108
abbrev mhlen : Nat := 100

def int (x : Int) : Int := x.bmod 4294967296

structure Pkthdr where
  len : Int
  rcvif : Nat
  deriving DecidableEq

structure Ext where
  extBuf : Nat
  extSize : Nat
  deriving DecidableEq

structure Mbuf where
  mLen : Int
  /-- The offset of `m_data` in `m_dat`, or in the cluster. -/
  mData : Nat
  mType : Nat := 1
  /-- The packet header, under `M_PKTHDR`. -/
  mPkthdr : Option Pkthdr := none
  mExt : Option Ext := none
  storage : Nat → Byte

def Mbuf.bytes (m : Mbuf) : List Byte := slice m.storage m.mData m.mLen.toNat

def chainBytes (c : List Mbuf) : List Byte := c.flatMap Mbuf.bytes

def chainLen (c : List Mbuf) : Int := (c.map Mbuf.mLen).sum

def hdrLen (c : List Mbuf) : Option Int := c.head?.bind fun m => m.mPkthdr.map Pkthdr.len

def setLen (f : Int → Int) (m : Mbuf) : Mbuf := { m with mPkthdr := m.mPkthdr.map fun h => { h with len := int (f h.len) } }

def adjustHdr (f : Int → Int) (c : List Mbuf) : List Mbuf := c.modifyHead (setLen f)

def trimHead : Int → List Mbuf → Int × List Mbuf
  | len, [] => (len, [])
  | len, m :: rest =>
    if len ≤ 0 then (len, m :: rest)
    else if m.mLen ≤ len then
      ((trimHead (len - m.mLen) rest).1, { m with mLen := 0 } :: (trimHead (len - m.mLen) rest).2)
    else (0, { m with mLen := m.mLen - len, mData := m.mData + len.toNat } :: rest)

def truncate : Int → List Mbuf → List Mbuf
  | _, [] => []
  | count, m :: rest =>
    if count ≤ m.mLen then { m with mLen := count } :: rest.map fun m => { m with mLen := 0 }
    else m :: truncate (count - m.mLen) rest

def lastLen (c : List Mbuf) : Int := (c.getLast?.map Mbuf.mLen).getD 0

def shorten (len : Int) : List Mbuf → List Mbuf
  | [] => []
  | [m] => [{ m with mLen := int (m.mLen - len) }]
  | m :: m' :: rest => m :: shorten len (m' :: rest)

def mAdj (mp : List Mbuf) (reqLen : BitVec 32) : List Mbuf :=
  if 0 ≤ reqLen.toInt then
    adjustHdr (fun len => len - (reqLen.toInt - (trimHead reqLen.toInt mp).1)) (trimHead reqLen.toInt mp).2
  else
    let len := int (-reqLen.toInt)
    let count := int (chainLen mp)
    if len ≤ lastLen mp then adjustHdr (fun l => l - len) (shorten len mp)
    else
      let count := if int (count - len) < 0 then 0 else int (count - len)
      truncate count (adjustHdr (fun _ => count) mp)

structure IsPacket (c : List Mbuf) : Prop where
  nonneg : ∀ m ∈ c, 0 ≤ m.mLen
  hdr : hdrLen c = some (chainLen c)
  fits : chainLen c < 2147483648

def adjusted (bytes : List Byte) (reqLen : Int) : List Byte :=
  if 0 ≤ reqLen then bytes.drop reqLen.toNat else bytes.take (bytes.length - (-reqLen).toNat)

def Adjusts (mp : List Mbuf) (reqLen : BitVec 32) : Prop :=
  chainBytes (mAdj mp reqLen) = adjusted (chainBytes mp) reqLen.toInt ∧
    hdrLen (mAdj mp reqLen) = some ((chainBytes (mAdj mp reqLen)).length : Int)

variable {c rest : List Mbuf} {m : Mbuf} {len count x : Int} {f : Int → Int} {n : Nat}

theorem int_eq (hlo : -2147483648 ≤ x) (hhi : x < 2147483648) : int x = x := by
  unfold int
  rw [Int.bmod_def]
  omega

@[simp] theorem length_bytes (m : Mbuf) : m.bytes.length = m.mLen.toNat := length_slice ..

@[simp] theorem chainBytes_nil : chainBytes [] = [] := rfl

@[simp] theorem chainBytes_cons (m : Mbuf) (c : List Mbuf) : chainBytes (m :: c) = m.bytes ++ chainBytes c := rfl

@[simp] theorem chainLen_nil : chainLen [] = 0 := rfl

@[simp] theorem chainLen_cons (m : Mbuf) (c : List Mbuf) : chainLen (m :: c) = m.mLen + chainLen c := List.sum_cons

theorem chainLen_nonneg (h : ∀ m ∈ c, 0 ≤ m.mLen) : 0 ≤ chainLen c := by
  induction c with
  | nil => exact le_refl 0
  | cons m c ih =>
    have hm := h m List.mem_cons_self
    have hc := ih fun m hm => h m (List.mem_cons_of_mem _ hm)
    rw [chainLen_cons]
    omega

theorem length_chainBytes (h : ∀ m ∈ c, 0 ≤ m.mLen) : ((chainBytes c).length : Int) = chainLen c := by
  induction c with
  | nil => rfl
  | cons m c ih =>
    have hm := h m List.mem_cons_self
    have hc := ih fun m hm => h m (List.mem_cons_of_mem _ hm)
    rw [chainBytes_cons, chainLen_cons, List.length_append, length_bytes]
    omega

theorem take_bytes (hlo : 0 ≤ count) (hle : count ≤ m.mLen) : m.bytes.take count.toNat = Mbuf.bytes { m with mLen := count } := by
  rw [Mbuf.bytes, Mbuf.bytes, slice, slice, ← List.map_take, List.take_range, min_eq_left (by omega)]

theorem drop_bytes (hlo : 0 ≤ len) (hle : len ≤ m.mLen) :
    m.bytes.drop len.toNat = Mbuf.bytes { m with mLen := m.mLen - len, mData := m.mData + len.toNat } := by
  rw [Mbuf.bytes, Mbuf.bytes, drop_slice _ _ (by omega)]
  exact congrArg _ (by dsimp only; omega)

theorem bytes_zero (m : Mbuf) : Mbuf.bytes { m with mLen := 0 } = [] := rfl

theorem chainBytes_zero (c : List Mbuf) : chainBytes (c.map fun m => { m with mLen := 0 }) = [] := by
  induction c with
  | nil => rfl
  | cons m c ih => exact ih

theorem chainBytes_adjustHdr (f : Int → Int) (c : List Mbuf) : chainBytes (adjustHdr f c) = chainBytes c := by
  cases c <;> rfl

theorem chainLen_adjustHdr (f : Int → Int) (c : List Mbuf) : chainLen (adjustHdr f c) = chainLen c := by
  cases c <;> rfl

theorem hdrLen_adjustHdr (f : Int → Int) (c : List Mbuf) : hdrLen (adjustHdr f c) = (hdrLen c).map fun l => int (f l) := by
  cases c with
  | nil => rfl
  | cons m c =>
    rw [adjustHdr, List.modifyHead_cons, hdrLen, hdrLen, List.head?_cons, List.head?_cons, Option.bind_some, Option.bind_some,
      setLen, Option.map_map, Option.map_map]
    rfl

theorem hdrLen_trimHead (len : Int) (c : List Mbuf) : hdrLen (trimHead len c).2 = hdrLen c := by
  cases c with
  | nil => rfl
  | cons m c =>
    rw [trimHead]
    split
    · rfl
    · split <;> rfl

theorem trimHead_spec (hlen : 0 ≤ len) (h : ∀ m ∈ c, 0 ≤ m.mLen) : (trimHead len c).1 = max (len - chainLen c) 0 ∧
    chainBytes (trimHead len c).2 = (chainBytes c).drop len.toNat := by
  induction c generalizing len with
  | nil => exact ⟨by rw [trimHead, chainLen_nil]; omega, List.drop_nil.symm⟩
  | cons m c ih =>
    have hm := h m List.mem_cons_self
    have hc : ∀ m ∈ c, 0 ≤ m.mLen := fun m hm => h m (List.mem_cons_of_mem _ hm)
    have hrest := chainLen_nonneg hc
    rw [trimHead, chainLen_cons, chainBytes_cons]
    split
    · rename_i hzero
      obtain rfl : len = 0 := by omega
      exact ⟨by dsimp only; omega, rfl⟩
    · split
      · rename_i hle
        have hsub : 0 ≤ len - m.mLen := by omega
        obtain ⟨hleft, hbytes⟩ := ih hsub hc
        have hall : m.bytes.length ≤ len.toNat := by rw [length_bytes]; omega
        refine ⟨by dsimp only; rw [hleft]; congr 1; omega, ?_⟩
        rw [chainBytes_cons, bytes_zero, List.nil_append, hbytes, List.drop_append, length_bytes,
          List.drop_eq_nil_of_le hall, List.nil_append]
        congr 1
        omega
      · rename_i hlt
        refine ⟨by dsimp only; omega, ?_⟩
        rw [chainBytes_cons, ← drop_bytes hlen (by omega), List.drop_append_of_le_length (by rw [length_bytes]; omega)]

theorem hdrLen_shorten (len : Int) (c : List Mbuf) : hdrLen (shorten len c) = hdrLen c := by
  cases c with
  | nil => rfl
  | cons m c => cases c <;> rfl

theorem lastLen_le (h : ∀ m ∈ c, 0 ≤ m.mLen) : lastLen c ≤ chainLen c := by
  induction c with
  | nil => exact le_refl 0
  | cons m c ih =>
    have hm := h m List.mem_cons_self
    have hc : ∀ m ∈ c, 0 ≤ m.mLen := fun m hm => h m (List.mem_cons_of_mem _ hm)
    have hrest := chainLen_nonneg hc
    rw [chainLen_cons]
    cases c with
    | nil => exact (Int.add_zero m.mLen).ge
    | cons m' c =>
      rw [lastLen, List.getLast?_cons_cons]
      have := ih hc
      rw [lastLen] at this
      omega

theorem chainBytes_shorten (hlen : 0 ≤ len) (hle : len ≤ lastLen c) (h : ∀ m ∈ c, 0 ≤ m.mLen) (hfits : chainLen c < 2147483648) :
    chainBytes (shorten len c) = (chainBytes c).take (chainLen c - len).toNat := by
  induction c with
  | nil => exact List.take_nil.symm
  | cons m c ih =>
    have hm := h m List.mem_cons_self
    have hc : ∀ m ∈ c, 0 ≤ m.mLen := fun m hm => h m (List.mem_cons_of_mem _ hm)
    have hrest := chainLen_nonneg hc
    rw [chainLen_cons] at hfits ⊢
    cases c with
    | nil =>
      have hle : len ≤ m.mLen := hle
      rw [shorten, chainBytes_cons, chainBytes_cons, chainBytes_nil, List.append_nil, List.append_nil, chainLen_nil, Int.add_zero,
        int_eq (by omega) (by rw [chainLen_nil] at hfits; omega), take_bytes (by omega) (by omega)]
    | cons m' c =>
      have hlast : lastLen (m :: m' :: c) = lastLen (m' :: c) := by rw [lastLen, List.getLast?_cons_cons, lastLen]
      rw [hlast] at hle
      have hbound := hle.trans (lastLen_le hc)
      have hall : m.bytes.length ≤ (m.mLen + chainLen (m' :: c) - len).toNat := by rw [length_bytes]; omega
      rw [shorten, chainBytes_cons, chainBytes_cons m, ih hle hc (by omega), List.take_append, length_bytes,
        List.take_of_length_le hall]
      congr 2
      omega

theorem hdrLen_truncate (count : Int) (c : List Mbuf) : hdrLen (truncate count c) = hdrLen c := by
  cases c with
  | nil => rfl
  | cons m c =>
    rw [truncate]
    split <;> rfl

theorem chainBytes_truncate (hcount : 0 ≤ count) (h : ∀ m ∈ c, 0 ≤ m.mLen) :
    chainBytes (truncate count c) = (chainBytes c).take count.toNat := by
  induction c generalizing count with
  | nil => exact List.take_nil.symm
  | cons m c ih =>
    have hm := h m List.mem_cons_self
    rw [truncate, chainBytes_cons]
    split
    · rename_i hle
      rw [chainBytes_cons, chainBytes_zero, List.append_nil, ← take_bytes hcount hle, List.take_append_of_le_length
        (by rw [length_bytes]; omega)]
    · rename_i hlt
      have hall : m.bytes.length ≤ count.toNat := by rw [length_bytes]; omega
      rw [chainBytes_cons, ih (by omega) fun m hm => h m (List.mem_cons_of_mem _ hm), List.take_append, length_bytes,
        List.take_of_length_le hall]
      congr 2
      omega

theorem nonneg_adjustHdr (h : ∀ m ∈ c, 0 ≤ m.mLen) : ∀ m ∈ adjustHdr f c, 0 ≤ m.mLen := by
  cases c with
  | nil => exact h
  | cons m c => exact List.forall_mem_cons.2 (List.forall_mem_cons.1 h)

theorem IsPacket.adjusts (h : IsPacket c) {reqLen : BitVec 32} (hreq : reqLen ≠ BitVec.intMin 32) : Adjusts c reqLen := by
  have hlength := length_chainBytes h.nonneg
  have hnonneg := chainLen_nonneg h.nonneg
  have hfits := h.fits
  have hlo := reqLen.le_toInt
  have hhi := reqLen.toInt_lt
  unfold Adjusts adjusted mAdj
  by_cases hpos : 0 ≤ reqLen.toInt
  · obtain ⟨hleft, hbytes⟩ := trimHead_spec hpos h.nonneg
    rw [if_pos hpos, if_pos hpos, chainBytes_adjustHdr, hdrLen_adjustHdr, hdrLen_trimHead, h.hdr, hbytes, hleft, List.length_drop]
    exact ⟨rfl, congrArg some ((int_eq (by omega) (by omega)).trans (by omega))⟩
  · have hmin : reqLen.toInt ≠ -2147483648 := fun heq => hreq (BitVec.eq_of_toInt_eq heq)
    have hneg : int (-reqLen.toInt) = -reqLen.toInt := int_eq (by omega) (by omega)
    have hcount : int (chainLen c) = chainLen c := int_eq (by omega) (by omega)
    rw [if_neg hpos, if_neg hpos]
    dsimp only
    rw [hneg, hcount]
    split
    · rename_i hle
      have hbound := hle.trans (lastLen_le h.nonneg)
      rw [chainBytes_adjustHdr, hdrLen_adjustHdr, hdrLen_shorten, h.hdr,
        chainBytes_shorten (by omega) hle h.nonneg h.fits, List.length_take]
      exact ⟨congrArg (List.take · _) (by omega), congrArg some ((int_eq (by omega) (by omega)).trans (by omega))⟩
    · have hsub : int (chainLen c - -reqLen.toInt) = chainLen c - -reqLen.toInt := int_eq (by omega) (by omega)
      obtain ⟨count, hleft⟩ : ∃ count : Int, (if chainLen c - -reqLen.toInt < 0 then 0 else chainLen c - -reqLen.toInt) = count :=
        ⟨_, rfl⟩
      have hmax : count = max (chainLen c - -reqLen.toInt) 0 := by
        rw [← hleft]
        split <;> omega
      rw [hsub, hleft, chainBytes_truncate (by omega) (nonneg_adjustHdr h.nonneg), chainBytes_adjustHdr, hdrLen_truncate,
        hdrLen_adjustHdr, h.hdr, List.length_take]
      exact ⟨congrArg (List.take · _) (by omega), congrArg some ((int_eq (by omega) (by omega)).trans (by omega))⟩

theorem IsPacket.not_adjusts (h : IsPacket c) : ¬Adjusts c (BitVec.intMin 32) := by
  rintro ⟨-, hhdr⟩
  have hnonneg := chainLen_nonneg h.nonneg
  have hfits := h.fits
  have hlast : -2147483648 ≤ lastLen c := by
    unfold lastLen
    cases hc : c.getLast? with
    | none => decide
    | some m => exact le_trans (by decide) (h.nonneg m (List.mem_of_getLast? hc))
  rw [mAdj, if_neg (by decide)] at hhdr
  dsimp only at hhdr
  rw [show int (-(BitVec.intMin 32).toInt) = -2147483648 by decide, if_pos hlast, hdrLen_adjustHdr, hdrLen_shorten, h.hdr] at hhdr
  have hlen : int (chainLen c - -2147483648) = _ := Option.some.inj hhdr
  unfold int at hlen
  rw [Int.bmod_def] at hlen
  omega

/-- **`m_adj` takes bytes off a packet** exactly when the request is not the least `int`. -/
theorem mAdj_adjusts_iff (mp : List Mbuf) (hpacket : IsPacket mp) (reqLen : BitVec 32) :
    Adjusts mp reqLen ↔ reqLen ≠ BitVec.intMin 32 :=
  ⟨fun h hmin => hpacket.not_adjusts (hmin ▸ h), hpacket.adjusts⟩

def twoBytes : List Mbuf :=
  [{ mLen := 2, mData := 8, mPkthdr := some ⟨2, 0⟩, storage := fun _ => 7 }]

theorem twoBytes_isPacket : IsPacket twoBytes where
  nonneg := List.forall_mem_singleton.2 (by decide)
  hdr := rfl
  fits := by decide

theorem mAdj_adjusts_iff_twoBytes : Adjusts twoBytes 1 ↔ (1 : BitVec 32) ≠ BitVec.intMin 32 :=
  mAdj_adjusts_iff twoBytes twoBytes_isPacket 1

theorem twoBytes_not_adjusted : IsPacket twoBytes ∧ ¬Adjusts twoBytes (BitVec.intMin 32) :=
  ⟨twoBytes_isPacket, twoBytes_isPacket.not_adjusts⟩

end NetBSD.Mbufs

/-!
## `m_pullup`

The first bytes of a chain are made contiguous, in its first mbuf where that has room for them, or in a new one. A loop that
has not ended when it runs out of turns has no result.
-/

namespace NetBSD.Mbufs

open NetBSD.Lib

/-- `bcopy` of the first `count` bytes of `n` to the end of the data of `m`, which then has them too. -/
def Mbuf.append (m n : Mbuf) (count : Int) : Mbuf :=
  { m with
    mLen := m.mLen + count
    storage := fun i =>
      if m.mData + m.mLen.toNat ≤ i ∧ i < m.mData + m.mLen.toNat + count.toNat then
        n.storage (n.mData + (i - (m.mData + m.mLen.toNat)))
      else m.storage i }

/-- What is behind `m` when the first `count` bytes of `n` are gone: an mbuf that is empty then is freed. -/
def advance (n : Mbuf) (count : Int) (next : List Mbuf) : List Mbuf :=
  if n.mLen - count ≠ 0 then { n with mLen := n.mLen - count, mData := n.mData + count.toNat } :: next else next

/-- The bytes that a turn copies; no argument of `min` and `max` is negative here, whose numbers are unsigned. -/
def turnCount (maxProtohdr : Nat) (len space : Int) (n : Mbuf) : Int := min (min (max len maxProtohdr) space) n.mLen

def pullupLoop (maxProtohdr : Nat) : Nat → Mbuf → Mbuf → List Mbuf → Int → Int → Option (Mbuf × List Mbuf × Int)
  | 0, _, _, _, _, _ => none
  | fuel + 1, m, n, next, len, space =>
    let count := turnCount maxProtohdr len space n
    if 0 < len - count then
      match advance n count next with
      | [] => some (m.append n count, [], len - count)
      | n' :: next' => pullupLoop maxProtohdr fuel (m.append n count) n' next' (len - count) (space - count)
    else some (m.append n count, advance n count next, len - count)

def HasRoom (n : Mbuf) (next : List Mbuf) (len : Nat) : Prop := n.mExt = none ∧ n.mData + len < mlen ∧ next ≠ []

instance (n : Mbuf) (next : List Mbuf) (len : Nat) : Decidable (HasRoom n next len) := inferInstanceAs (Decidable (_ ∧ _ ∧ _))

def headFor (n : Mbuf) (storage : Nat → Byte) : Mbuf :=
  match n.mPkthdr with
  | none => { mLen := 0, mData := 0, mType := n.mType, storage }
  | some h => { mLen := 0, mData := mlen - mhlen, mType := n.mType, mPkthdr := some h, storage }

/-- What `m_pullup` returns after the loop: a null pointer when there were not `len` bytes. -/
def finish (r : Mbuf × List Mbuf × Int) : Option (List Mbuf) := if 0 < r.2.2 then none else some (r.1 :: r.2.1)

/-- `m_pullup` of the chain of `n` and `next`: a chain, or a null pointer when the chain was freed. -/
def mPullup (maxProtohdr fuel : Nat) (mget : Option (Nat → Byte)) (n : Mbuf) (next : List Mbuf) (len : Nat) :
    Option (Option (List Mbuf)) :=
  if HasRoom n next len then
    if len ≤ n.mLen then some (some (n :: next))
    else
      match next with
      | [] => none
      | n' :: next' =>
        (pullupLoop maxProtohdr fuel n n' next' (len - n.mLen) (mlen - (n.mData + n.mLen))).map finish
  else if mhlen < len then some none
  else
    match mget with
    | none => some none
    | some storage =>
      let m := headFor n storage
      (pullupLoop maxProtohdr fuel m { n with mPkthdr := none } next len (mlen - (m.mData + m.mLen))).map finish

/-- The first mbuf of the chain `c` has `len` bytes at least, and `c` has the bytes and the packet header that the chain had. -/
def IsPulledUp (n : Mbuf) (next : List Mbuf) (len : Nat) (c : List Mbuf) : Prop :=
  ∃ m rest, c = m :: rest ∧ len ≤ m.bytes.length ∧ chainBytes c = chainBytes (n :: next) ∧ m.mPkthdr = n.mPkthdr

/-- `m_pullup` comes back with the chain, whose first `len` bytes are contiguous now, or fails for a reason. -/
def PullsUp (maxProtohdr : Nat) (mget : Option (Nat → Byte)) (n : Mbuf) (next : List Mbuf) (len : Nat) : Prop :=
  ∃ fuel r, mPullup maxProtohdr fuel mget n next len = some r ∧
    (∀ c, r = some c → IsPulledUp n next len c) ∧
    (r = none → chainLen (n :: next) < len ∨ (¬HasRoom n next len ∧ mhlen < len) ∨ (¬HasRoom n next len ∧ mget = none))

variable {maxProtohdr fuel : Nat} {m n : Mbuf} {next : List Mbuf} {len space count : Int} {mget : Option (Nat → Byte)}

theorem bytes_append (hm : 0 ≤ m.mLen) (hlo : 0 ≤ count) (hle : count ≤ n.mLen) :
    (m.append n count).bytes = m.bytes ++ n.bytes.take count.toNat := by
  rw [take_bytes hlo hle]
  unfold Mbuf.bytes Mbuf.append
  dsimp only
  rw [Int.toNat_add hm hlo, ← slice_append]
  congr 1 <;> apply List.map_congr_left <;> intro i hi <;> have hi := List.mem_range.1 hi
  · exact if_neg (by omega)
  · refine (if_pos ⟨by omega, by omega⟩).trans ?_
    rw [Nat.add_sub_cancel_left]

theorem chainBytes_advance (hlo : 0 ≤ count) (hle : count ≤ n.mLen) (next : List Mbuf) :
    chainBytes (advance n count next) = n.bytes.drop count.toNat ++ chainBytes next := by
  unfold advance
  split
  · rw [chainBytes_cons, drop_bytes hlo hle]
  · rw [List.drop_eq_nil_of_le (by rw [length_bytes]; omega), List.nil_append]

theorem turn_bytes (hm : 0 ≤ m.mLen) (hlo : 0 ≤ count) (hle : count ≤ n.mLen) (next : List Mbuf) :
    (m.append n count).bytes ++ chainBytes (advance n count next) = m.bytes ++ chainBytes (n :: next) := by
  rw [bytes_append hm hlo hle, chainBytes_advance hlo hle, chainBytes_cons, List.append_assoc, ← List.append_assoc (n.bytes.take _),
    List.take_append_drop]

theorem pullupLoop_spec (maxProtohdr : Nat) (hfuel : next.length < fuel) (hm : 0 ≤ m.mLen) (hn : 0 ≤ n.mLen)
    (hnext : ∀ x ∈ next, 0 ≤ x.mLen) (hspace : 0 ≤ space) (hlen : len ≤ space) :
    ∃ m' rest len', pullupLoop maxProtohdr fuel m n next len space = some (m', rest, len') ∧
      m'.bytes ++ chainBytes rest = m.bytes ++ chainBytes (n :: next) ∧ m'.mPkthdr = m.mPkthdr ∧ 0 ≤ m'.mLen ∧
      m'.mLen + len' = m.mLen + len ∧ (0 < len' → rest = []) := by
  induction fuel generalizing m n next len space with
  | zero => omega
  | succ fuel ih =>
    have hcount : turnCount maxProtohdr len space n = min (min (max len maxProtohdr) space) n.mLen := rfl
    rw [pullupLoop]
    generalize turnCount maxProtohdr len space n = count at hcount ⊢
    have hlo : 0 ≤ count := by omega
    have hle : count ≤ n.mLen := by omega
    have hbytes := turn_bytes hm hlo hle next
    split
    · rename_i hmore
      -- the room is not what has stopped the turn
      have hall : n.mLen - count = 0 := by omega
      have hadvance : advance n count next = next := if_neg (not_not.2 hall)
      rw [hadvance] at hbytes ⊢
      cases next with
      | nil => exact ⟨_, _, _, rfl, hbytes, rfl, by dsimp only [Mbuf.append]; omega, by dsimp only [Mbuf.append]; omega, fun _ => rfl⟩
      | cons n' next' =>
        obtain ⟨hn', hnext'⟩ := List.forall_mem_cons.1 hnext
        rw [List.length_cons] at hfuel
        have happend : 0 ≤ (m.append n count).mLen := by dsimp only [Mbuf.append]; omega
        obtain ⟨m', rest, len', hloop, hbytes', hhdr, hpos, hsum, hrest⟩ := ih (by omega) happend hn' hnext'
          (show 0 ≤ space - count by omega) (show len - count ≤ space - count by omega)
        refine ⟨m', rest, len', hloop, hbytes'.trans hbytes, hhdr, hpos, ?_, hrest⟩
        dsimp only [Mbuf.append] at hsum
        omega
    · rename_i hdone
      exact ⟨_, _, _, rfl, hbytes, rfl, by dsimp only [Mbuf.append]; omega, by dsimp only [Mbuf.append]; omega,
        fun h => absurd h hdone⟩

theorem headFor_spec (n : Mbuf) (storage : Nat → Byte) : (headFor n storage).mLen = 0 ∧
    (headFor n storage).mData ≤ mlen - mhlen ∧ (headFor n storage).mPkthdr = n.mPkthdr ∧ (headFor n storage).bytes = [] := by
  unfold headFor
  cases hhdr : n.mPkthdr with
  | none => exact ⟨rfl, Nat.zero_le _, rfl, rfl⟩
  | some h => exact ⟨rfl, le_refl _, rfl, rfl⟩

theorem finish_spec {len : Nat} {m' : Mbuf} {rest : List Mbuf} {len' : Int} (hchain : ∀ x ∈ n :: next, 0 ≤ x.mLen)
    (hbytes : m'.bytes ++ chainBytes rest = chainBytes (n :: next)) (hhdr : m'.mPkthdr = n.mPkthdr) (hpos : 0 ≤ m'.mLen)
    (hsum : m'.mLen + len' = len) (hrest : 0 < len' → rest = []) :
    (∀ c, finish (m', rest, len') = some c → IsPulledUp n next len c) ∧
      (finish (m', rest, len') = none → chainLen (n :: next) < len) := by
  unfold finish
  by_cases hmore : 0 < len'
  · rw [if_pos hmore]
    rw [hrest hmore, chainBytes_nil, List.append_nil] at hbytes
    have hlength := length_chainBytes hchain
    rw [← hbytes, length_bytes] at hlength
    exact ⟨fun c h => (Option.some_ne_none c h.symm).elim, fun _ => by omega⟩
  · rw [if_neg hmore]
    refine ⟨fun c h => ?_, fun h => (Option.some_ne_none _ h).elim⟩
    obtain rfl := Option.some.inj h
    exact ⟨m', rest, rfl, by rw [length_bytes]; omega, hbytes, hhdr⟩

/-- **`m_pullup` makes the bytes contiguous**, or fails for one of the reasons that it may fail for. -/
theorem mPullup_pullsUp (maxProtohdr : Nat) (mget : Option (Nat → Byte)) (n : Mbuf) (next : List Mbuf)
    (hchain : ∀ x ∈ n :: next, 0 ≤ x.mLen) (len : Nat) : PullsUp maxProtohdr mget n next len := by
  obtain ⟨hn, hnext⟩ := List.forall_mem_cons.1 hchain
  refine ⟨next.length + 1, ?_⟩
  unfold mPullup
  by_cases hroom : HasRoom n next len
  · rw [if_pos hroom]
    by_cases hle : (len : Int) ≤ n.mLen
    · rw [if_pos hle]
      refine ⟨_, rfl, fun c h => ?_, fun h => (Option.some_ne_none _ h).elim⟩
      obtain rfl := Option.some.inj h
      exact ⟨n, next, rfl, by rw [length_bytes]; omega, rfl, rfl⟩
    · rw [if_neg hle]
      obtain ⟨-, hdata, hne⟩ := hroom
      cases next with
      | nil => exact absurd rfl hne
      | cons n' next' =>
        obtain ⟨hn', hnext'⟩ := List.forall_mem_cons.1 hnext
        obtain ⟨m', rest, len', hloop, hbytes, hhdr, hpos, hsum, hrest⟩ :=
          pullupLoop_spec maxProtohdr (show next'.length < next'.length + 1 + 1 by omega) hn hn' hnext'
            (show 0 ≤ mlen - (n.mData + n.mLen) by omega) (show len - n.mLen ≤ mlen - (n.mData + n.mLen) by omega)
        obtain ⟨hsome, hnone⟩ := finish_spec hchain hbytes hhdr hpos (show m'.mLen + len' = len by omega) hrest
        rw [List.length_cons]
        dsimp only
        rw [hloop]
        exact ⟨_, rfl, hsome, fun h => .inl (hnone h)⟩
  · rw [if_neg hroom]
    by_cases hlarge : mhlen < len
    · rw [if_pos hlarge]
      exact ⟨none, rfl, fun c h => (Option.some_ne_none c h.symm).elim, fun _ => .inr (.inl ⟨hroom, hlarge⟩)⟩
    · rw [if_neg hlarge]
      cases mget with
      | none => exact ⟨none, rfl, fun c h => (Option.some_ne_none c h.symm).elim, fun _ => .inr (.inr ⟨hroom, rfl⟩)⟩
      | some storage =>
        have hsizes : mlen = 108 ∧ mhlen = 100 := ⟨rfl, rfl⟩
        obtain ⟨hzero, hdata, hkept, hnil⟩ := headFor_spec n storage
        dsimp only
        generalize headFor n storage = m at hzero hdata hkept hnil ⊢
        obtain ⟨m', rest, len', hloop, hbytes, hhdr, hpos, hsum, hrest⟩ :=
          pullupLoop_spec (n := { n with mPkthdr := none }) maxProtohdr (show next.length < next.length + 1 by omega) hzero.ge hn hnext
            (show 0 ≤ mlen - (m.mData + m.mLen) by omega) (show (len : Int) ≤ mlen - (m.mData + m.mLen) by omega)
        rw [hnil, List.nil_append] at hbytes
        obtain ⟨hsome, hnone⟩ := finish_spec hchain hbytes (hhdr.trans hkept) hpos (show m'.mLen + len' = len by omega) hrest
        rw [hloop]
        exact ⟨_, rfl, hsome, fun h => .inl (hnone h)⟩

theorem mPullup_pullsUp_two : PullsUp 40 none { mLen := 1, mData := 8, storage := fun _ => 1 }
    [{ mLen := 3, mData := 0, storage := fun _ => 2 }] 2 :=
  mPullup_pullsUp 40 none _ _ (by decide) 2

end NetBSD.Mbufs
