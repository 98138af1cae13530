import NetBSD.Ip.Cksum

/-!
# What an ICMP error quotes

`icmp_error`, called with the header as `ipintr` and the callers have left it. Memory is that of the first mbuf, from the header
on, on a host of either byte order.
-/

namespace NetBSD.Ip

open NetBSD.Lib

open Function (update)

def ipprotoIcmp : Byte := 1

def ipMfDf : Word16 := 0x6000

def icmpMinlen : Nat := 8
def ipttldec : Byte := 1

def lenOffset : Nat := 2
def idOffset : Nat := 4
def offOffset : Nat := 6
def ttlOffset : Nat := 8
def pOffset : Nat := 9
def sumOffset : Nat := 10

def icmpInfotype (type : Byte) : Bool := type ∈ ([0, 8, 9, 10, 13, 14, 15, 16, 17, 18] : List Byte)

def ByteOrder.put (o : ByteOrder) (mem : Nat → Byte) (a : Nat) (v : Word16) : Nat → Byte :=
  match o with
  | .big => update (update mem a ((v >>> 8).setWidth 8)) (a + 1) (v.setWidth 8)
  | .little => update (update mem a (v.setWidth 8)) (a + 1) ((v >>> 8).setWidth 8)

def ByteOrder.short (o : ByteOrder) (mem : Nat → Byte) (a : Nat) : Word16 := o.word (mem a) (mem (a + 1))

def ByteOrder.convert (o : ByteOrder) (a : Nat) (mem : Nat → Byte) : Nat → Byte := o.put mem a (o.ntohs (o.short mem a))

def hlenAt (mem : Nat → Byte) : Nat := (mem 0 &&& 0x0f).toNat * 4

structure Arrival where
  /-- The bytes of the datagram, and the memory of its first mbuf, with what is behind the mbuf's data. -/
  wire : Nat → Byte
  mem : Nat → Byte
  mLen : Nat
  /-- `M_BCAST` or `M_MCAST`. -/
  bcast : Bool
  /-- `m_gethdr` returns an mbuf. -/
  mget : Bool
  held : ∀ i < mLen, mem i = wire i
  hlen_lo : 20 ≤ hlenAt wire
  hlen_hi : hlenAt wire ≤ mLen
  hlen_le : hlenAt wire ≤ (wire lenOffset ++ wire (lenOffset + 1) : Word16).toNat
  total_lt : (wire lenOffset ++ wire (lenOffset + 1) : Word16).toNat < 32768

def Arrival.total (d : Arrival) : Nat := (d.wire lenOffset ++ d.wire (lenOffset + 1) : Word16).toNat

def Arrival.quotation (d : Arrival) : List Byte :=
  (List.range (hlenAt d.wire + min 8 (d.total - hlenAt d.wire))).map d.wire

section

variable (o : ByteOrder)

def ipintrHeader (mem : Nat → Byte) : Nat → Byte :=
  o.convert offOffset (o.convert idOffset (o.convert lenOffset (o.put mem sumOffset 0)))

def ipStripoptions (mem : Nat → Byte) (i : Nat) : Byte :=
  if i = 0 then mem 0 &&& 0xf0 ||| 5 else if i < 20 then mem i else mem (i + (hlenAt mem - 20))

/-- A call of `icmp_error`. `left` is the header when `ip_dooptions` is through with it, or has given it up, and for `udp_input`
that of the datagram which `ip_reass` has put together, if this was a fragment. -/
inductive Caller where
  | ipDooptions (left : Nat → Byte)
  | ipForwardTtl (left : Nat → Byte)
  | ipForwardRoute (left : Nat → Byte)
  /-- With the memory of the copy's first mbuf, and how much of it that holds. -/
  | ipForwardCopy (copy : Nat → Byte) (mLen : Nat) (redirect : Bool)
  /-- With the length of the data. -/
  | udpInput (left : Nat → Byte) (len : Nat)

def forwardHeader (left : Nat → Byte) : Nat → Byte := update (o.convert idOffset left) ttlOffset (left ttlOffset - ipttldec)

/-- What `ip_dooptions` changes is behind `ip_src`, `ipintr` and `ip_reass` change `ip_tos` and `ip_off`. The copy of a cluster
is the cluster, with what `ip_output` writes there: it leaves `ip_hl` and `ip_ttl`. -/
def Caller.Possible (d : Arrival) : Caller → Prop
  | ipDooptions left | ipForwardTtl left | ipForwardRoute left => ∀ i < 16, left i = ipintrHeader o d.mem i
  | ipForwardCopy copy _ _ => ∀ i ∈ [0, ttlOffset], copy i = forwardHeader o (ipintrHeader o d.mem) i
  | udpInput left len => left 0 = ipintrHeader o d.mem 0 ∧ d.total - hlenAt d.wire ≤ len ∧ len < 32768

def Caller.memory : Caller → Nat → Byte
  | ipDooptions left => o.put left lenOffset (o.short left lenOffset - BitVec.ofNat 16 (hlenAt left))
  | ipForwardTtl left => o.convert idOffset left
  | ipForwardRoute left => forwardHeader o left
  | ipForwardCopy copy _ _ => copy
  | udpInput left len =>
    let mem := ipStripoptions (o.put left lenOffset (BitVec.ofNat 16 len))
    o.put mem lenOffset (o.short mem lenOffset + 20)

def Caller.firstLen (d : Arrival) : Caller → Nat
  | ipForwardCopy _ mLen _ => mLen
  | udpInput _ _ => d.mLen - (hlenAt d.wire - 20)
  | _ => d.mLen

def Caller.redirect : Caller → Bool
  | ipForwardCopy _ _ redirect => redirect
  | _ => false

/-- `icmp_error` sends an error: this is the first fragment, no ICMP error, not a broadcast, and there is an mbuf. -/
def answered (mem : Nat → Byte) (mLen : Nat) (redirect bcast mget : Bool) : Bool :=
  !(o.short mem offOffset &&& ~~~ipMfDf ≠ 0 ||
    (mem pOffset = ipprotoIcmp && !redirect && hlenAt mem + icmpMinlen ≤ mLen && !icmpInfotype (mem (hlenAt mem))) ||
    bcast || !mget)

def icmplen (mem : Nat → Byte) : Nat := hlenAt mem + min 8 ((o.short mem lenOffset).signExtend 32).toNat

def quotedByte (mem : Nat → Byte) (i : Nat) : Byte :=
  let len := o.short mem lenOffset + BitVec.ofNat 16 (hlenAt mem)
  if i = lenOffset then (len >>> 8).setWidth 8 else if i = lenOffset + 1 then len.setWidth 8 else mem i

def icmpError (mem : Nat → Byte) (mLen : Nat) (redirect bcast mget : Bool) : Option (List Byte) :=
  if answered o mem mLen redirect bcast mget then some ((List.range (icmplen o mem)).map (quotedByte o mem)) else none

def Caller.quoted (d : Arrival) (c : Caller) : Option (List Byte) :=
  icmpError o (c.memory o) (c.firstLen d) c.redirect d.bcast d.mget

def Caller.QuotesAsArrived (d : Arrival) (c : Caller) : Prop := ∀ q, c.quoted o d = some q → q = d.quotation

def Caller.Unanswered (d : Arrival) (c : Caller) : Prop :=
  answered o (c.memory o) (c.firstLen d) c.redirect d.bcast d.mget = false

/-- `ip_dooptions` has given up a datagram that is still as it arrived, and whose header reads the same when its checksum is
cleared and `ip_id` and `ip_off` are in the order of the host. -/
def Caller.Untouched (d : Arrival) : Caller → Prop
  | ipDooptions left => (d.wire sumOffset = 0 ∧ d.wire (sumOffset + 1) = 0) ∧
      (o = .little → d.wire idOffset = d.wire (idOffset + 1) ∧ d.wire offOffset = d.wire (offOffset + 1)) ∧
      ∀ i, 16 ≤ i → i < hlenAt d.wire + min 8 (d.total - hlenAt d.wire) → left i = d.wire i
  | _ => False

end

section Storage

variable {o : ByteOrder} {mem : Nat → Byte} {a i : Nat} {v : Word16}

theorem high_byte (x y : Byte) : ((x ++ y : Word16) >>> 8).setWidth 8 = x := by
  have hx := x.isLt
  have hy := y.isLt
  apply BitVec.eq_of_toNat_eq
  rw [BitVec.toNat_setWidth, BitVec.toNat_ushiftRight, toNat_append_bytes, Nat.shiftRight_eq_div_pow]
  omega

theorem low_byte (x y : Byte) : (x ++ y : Word16).setWidth 8 = y := by
  have hy := y.isLt
  apply BitVec.eq_of_toNat_eq
  rw [BitVec.toNat_setWidth, toNat_append_bytes]
  omega

theorem ByteOrder.put_of_ne (h₀ : i ≠ a) (h₁ : i ≠ a + 1) : o.put mem a v i = mem i := by
  cases o <;> simp [ByteOrder.put, Function.update_of_ne h₀, Function.update_of_ne h₁]

theorem ByteOrder.short_put : o.short (o.put mem a v) a = v := by
  cases o <;> simp [ByteOrder.short, ByteOrder.put, ByteOrder.word, append_bytes]

theorem ByteOrder.ntohs_short : o.ntohs (o.short mem a) = (mem a ++ mem (a + 1) : Word16) := by
  cases o with
  | big => rfl
  | little => simp [ByteOrder.ntohs, ByteOrder.short, ByteOrder.word, swapBytes, high_byte, low_byte]

theorem ByteOrder.convert_of_ne (h₀ : i ≠ a) (h₁ : i ≠ a + 1) : o.convert a mem i = mem i := put_of_ne h₀ h₁

theorem ByteOrder.short_convert : o.short (o.convert a mem) a = (mem a ++ mem (a + 1) : Word16) := by
  rw [convert, short_put, ntohs_short]

end Storage

section Quoting

variable {o : ByteOrder} {d : Arrival} {c : Caller} {mem : Nat → Byte} {i : Nat}

theorem hlenAt_le (mem : Nat → Byte) : hlenAt mem ≤ 60 := by
  have hand : (mem 0 &&& 0x0f).toNat ≤ 15 := by
    rw [BitVec.toNat_and]
    exact Nat.and_le_right
  rw [hlenAt]
  omega

theorem hlenAt_congr {mem' : Nat → Byte} (h : mem 0 = mem' 0) : hlenAt mem = hlenAt mem' := by rw [hlenAt, hlenAt, h]

theorem ipintrHeader_of_ne (hlen : i ≠ lenOffset ∧ i ≠ lenOffset + 1) (hid : i ≠ idOffset ∧ i ≠ idOffset + 1)
    (hoff : i ≠ offOffset ∧ i ≠ offOffset + 1) (hsum : i ≠ sumOffset ∧ i ≠ sumOffset + 1) : ipintrHeader o mem i = mem i := by
  rw [ipintrHeader, ByteOrder.convert_of_ne hoff.1 hoff.2, ByteOrder.convert_of_ne hid.1 hid.2,
    ByteOrder.convert_of_ne hlen.1 hlen.2, ByteOrder.put_of_ne hsum.1 hsum.2]

theorem Arrival.mem_header (d : Arrival) (hi : i < 20) : d.mem i = d.wire i :=
  d.held i (Nat.lt_of_lt_of_le hi (Nat.le_trans d.hlen_lo d.hlen_hi))

theorem short_ipintrHeader (d : Arrival) :
    o.short (ipintrHeader o d.mem) lenOffset = (d.wire lenOffset ++ d.wire (lenOffset + 1) : Word16) := by
  have hbyte : ∀ i, i = lenOffset ∨ i = lenOffset + 1 →
      ipintrHeader o d.mem i = o.convert lenOffset (o.put d.mem sumOffset 0) i := by
    rintro i (rfl | rfl) <;>
      rw [ipintrHeader, ByteOrder.convert_of_ne (by decide) (by decide), ByteOrder.convert_of_ne (by decide) (by decide)]
  have hconvert : o.short (ipintrHeader o d.mem) lenOffset = o.short (o.convert lenOffset (o.put d.mem sumOffset 0)) lenOffset := by
    rw [ByteOrder.short, hbyte lenOffset (.inl rfl), hbyte (lenOffset + 1) (.inr rfl), ByteOrder.short]
  rw [hconvert, ByteOrder.short_convert, ByteOrder.put_of_ne (by decide) (by decide),
    ByteOrder.put_of_ne (by decide) (by decide), d.mem_header (by decide), d.mem_header (by decide)]

theorem toNat_total (d : Arrival) : (d.wire lenOffset ++ d.wire (lenOffset + 1) : Word16).toNat = d.total := rfl

theorem map_range_inj {α : Type*} {f g : Nat → α} {m n : Nat} :
    (List.range m).map f = (List.range n).map g ↔ m = n ∧ ∀ i < n, f i = g i := by
  constructor
  · intro h
    have hlen : m = n := by simpa using congrArg List.length h
    subst hlen
    exact ⟨rfl, fun i hi => List.map_inj_left.mp h i (List.mem_range.mpr hi)⟩
  · rintro ⟨rfl, h⟩
    exact List.map_inj_left.mpr fun i hi => h i (List.mem_range.mp hi)

theorem quotesAsArrived_iff_bytes (hans : ¬ c.Unanswered o d) :
    c.QuotesAsArrived o d ↔ icmplen o (c.memory o) = hlenAt d.wire + min 8 (d.total - hlenAt d.wire) ∧
      ∀ i < hlenAt d.wire + min 8 (d.total - hlenAt d.wire), quotedByte o (c.memory o) i = d.wire i := by
  have hquoted : c.quoted o d = some ((List.range (icmplen o (c.memory o))).map (quotedByte o (c.memory o))) :=
    if_pos (by simpa [Caller.Unanswered] using hans)
  rw [Caller.QuotesAsArrived, hquoted, ← map_range_inj]
  simp only [Option.some.injEq, forall_eq']
  rfl

theorem not_quotesAsArrived (hans : ¬ c.Unanswered o d) (hi : i < 20) (hne : quotedByte o (c.memory o) i ≠ d.wire i) :
    ¬ c.QuotesAsArrived o d := by
  intro h
  have hlo := d.hlen_lo
  exact hne (((quotesAsArrived_iff_bytes hans).mp h).2 i (by omega))

theorem quoted_total (mem : Nat → Byte) (h : ∀ i, i = lenOffset ∨ i = lenOffset + 1 → quotedByte o mem i = d.wire i) :
    o.short mem lenOffset + BitVec.ofNat 16 (hlenAt mem) = (d.wire lenOffset ++ d.wire (lenOffset + 1) : Word16) := by
  rw [← h lenOffset (.inl rfl), ← h (lenOffset + 1) (.inr rfl)]
  exact (append_bytes _).symm

theorem hlenAt_left {left : Nat → Byte} (h : left 0 = ipintrHeader o d.mem 0) : hlenAt left = hlenAt d.wire := by
  apply hlenAt_congr
  rw [h, ipintrHeader_of_ne (by decide) (by decide) (by decide) (by decide), d.mem_header (by decide)]

theorem short_len_left {left : Nat → Byte} (h : ∀ i < 16, left i = ipintrHeader o d.mem i) :
    o.short left lenOffset = (d.wire lenOffset ++ d.wire (lenOffset + 1) : Word16) := by
  rw [← short_ipintrHeader (o := o) d, ByteOrder.short, ByteOrder.short, h lenOffset (by decide), h (lenOffset + 1) (by decide)]

theorem ofNat_hlen_ne_zero (d : Arrival) : BitVec.ofNat 16 (hlenAt d.wire) ≠ 0 := by
  have hlo := d.hlen_lo
  have hhi := hlenAt_le d.wire
  intro h
  have hnat := congrArg BitVec.toNat h
  rw [BitVec.toNat_ofNat] at hnat
  change hlenAt d.wire % 65536 = 0 at hnat
  omega

theorem ipForwardTtl_not_quotesAsArrived {left : Nat → Byte} (h : ∀ i < 16, left i = ipintrHeader o d.mem i)
    (hans : ¬ (Caller.ipForwardTtl left).Unanswered o d) : ¬ (Caller.ipForwardTtl left).QuotesAsArrived o d := by
  intro hq
  have hlo := d.hlen_lo
  have hbytes := ((quotesAsArrived_iff_bytes hans).mp hq).2
  have htotal := quoted_total (o := o) (d := d) (o.convert idOffset left) (by
    rintro i (rfl | rfl)
    · exact hbytes lenOffset (by simp only [lenOffset]; omega)
    · exact hbytes (lenOffset + 1) (by simp only [lenOffset]; omega))
  have hlen : hlenAt (o.convert idOffset left) = hlenAt d.wire := by
    rw [← hlenAt_left (h 0 (by decide))]
    exact hlenAt_congr (ByteOrder.convert_of_ne (by decide) (by decide))
  have hshort : o.short (o.convert idOffset left) lenOffset = o.short left lenOffset := by
    rw [ByteOrder.short, ByteOrder.convert_of_ne (by decide) (by decide), ByteOrder.convert_of_ne (by decide) (by decide),
      ByteOrder.short]
  rw [hshort, short_len_left h, hlen] at htotal
  exact ofNat_hlen_ne_zero d (by simpa using htotal)

theorem sub_ttldec_ne (b : Byte) : b - ipttldec ≠ b := by
  rw [ipttldec]
  bv_omega

theorem not_quotesAsArrived_of_ttl (hans : ¬ c.Unanswered o d)
    (httl : c.memory o ttlOffset = forwardHeader o (ipintrHeader o d.mem) ttlOffset) : ¬ c.QuotesAsArrived o d := by
  apply not_quotesAsArrived (i := ttlOffset) hans (by decide)
  have hquoted : quotedByte o (c.memory o) ttlOffset = d.wire ttlOffset - ipttldec := by
    rw [quotedByte, if_neg (by decide), if_neg (by decide), httl, forwardHeader, Function.update_self,
      ipintrHeader_of_ne (by decide) (by decide) (by decide) (by decide), d.mem_header (by decide)]
  rw [hquoted]
  exact sub_ttldec_ne _

theorem udpInput_not_quotesAsArrived {left : Nat → Byte} {len : Nat} (h : (Caller.udpInput left len).Possible o d)
    (hans : ¬ (Caller.udpInput left len).Unanswered o d) : ¬ (Caller.udpInput left len).QuotesAsArrived o d := by
  intro hq
  obtain ⟨hzero, hle, hlt⟩ := h
  have hlo := d.hlen_lo
  have hbytes := ((quotesAsArrived_iff_bytes hans).mp hq).2
  let stripped := ipStripoptions (o.put left lenOffset (BitVec.ofNat 16 len))
  let mem := o.put stripped lenOffset (o.short stripped lenOffset + 20)
  have hhl : hlenAt mem = 20 := by
    have hbyte : mem 0 &&& 0x0f = 5 := by
      have hput : mem 0 = stripped 0 := ByteOrder.put_of_ne (by decide) (by decide)
      rw [hput]
      change ((o.put left lenOffset (BitVec.ofNat 16 len) 0 &&& 0xf0) ||| 5) &&& 0x0f = 5
      generalize o.put left lenOffset (BitVec.ofNat 16 len) 0 = b
      revert b
      decide
    rw [hlenAt, hbyte]
    rfl
  have hwire : hlenAt d.wire = 20 := by
    rw [← hhl]
    apply hlenAt_congr
    rw [← hbytes 0 (by omega)]
    rfl
  have hshort : o.short stripped lenOffset = BitVec.ofNat 16 len := by
    have hsame : o.short stripped lenOffset = o.short (o.put left lenOffset (BitVec.ofNat 16 len)) lenOffset := by
      cases o <;> rfl
    rw [hsame, ByteOrder.short_put]
  have htotal := quoted_total (o := o) (d := d) mem (by
    rintro i (rfl | rfl)
    · exact hbytes lenOffset (by simp only [lenOffset]; omega)
    · exact hbytes (lenOffset + 1) (by simp only [lenOffset]; omega))
  rw [ByteOrder.short_put, hshort, hhl] at htotal
  have hnat := congrArg BitVec.toNat htotal
  have htotal_lt := d.total_lt
  have hhlen_le := d.hlen_le
  rw [toNat_total] at hnat htotal_lt hhlen_le
  rw [BitVec.toNat_add, BitVec.toNat_add, BitVec.toNat_ofNat] at hnat
  change ((len % 65536 + 20) % 65536 + 20) % 65536 = d.total at hnat
  omega

theorem convert_eq_iff (a : Nat) (mem : Nat → Byte) :
    (o.convert a mem a = mem a ∧ o.convert a mem (a + 1) = mem (a + 1)) ↔ (o = .little → mem a = mem (a + 1)) := by
  rw [ByteOrder.convert, ByteOrder.ntohs_short]
  cases o with
  | big => simp [ByteOrder.put, high_byte, low_byte]
  | little =>
    simp only [ByteOrder.put, Function.update_self, high_byte, low_byte,
      Function.update_of_ne (show a ≠ a + 1 by omega), forall_const]
    exact ⟨fun h => h.2, fun h => ⟨h.symm, h⟩⟩

theorem ipintrHeader_id (d : Arrival) (hi : i = idOffset ∨ i = idOffset + 1) :
    ipintrHeader o d.mem i = o.convert idOffset (o.convert lenOffset (o.put d.mem sumOffset 0)) i := by
  rcases hi with rfl | rfl <;> rw [ipintrHeader, ByteOrder.convert_of_ne (by decide) (by decide)]

theorem ipintrHeader_sum (d : Arrival) (hi : i = sumOffset ∨ i = sumOffset + 1) : ipintrHeader o d.mem i = 0 := by
  have hput : o.put d.mem sumOffset 0 i = 0 := by
    cases o <;> rcases hi with rfl | rfl <;> rfl
  rcases hi with rfl | rfl <;>
    rw [ipintrHeader, ByteOrder.convert_of_ne (by decide) (by decide), ByteOrder.convert_of_ne (by decide) (by decide),
      ByteOrder.convert_of_ne (by decide) (by decide), hput]

theorem ipintrHeader_eq_iff (d : Arrival) :
    (∀ i < 16, i ≠ lenOffset → i ≠ lenOffset + 1 → ipintrHeader o d.mem i = d.wire i) ↔
      (d.wire sumOffset = 0 ∧ d.wire (sumOffset + 1) = 0) ∧
      (o = .little → d.wire idOffset = d.wire (idOffset + 1) ∧ d.wire offOffset = d.wire (offOffset + 1)) := by
  let cleared := o.convert lenOffset (o.put d.mem sumOffset 0)
  have hcleared : ∀ i, i = idOffset ∨ i = idOffset + 1 ∨ i = offOffset ∨ i = offOffset + 1 → cleared i = d.wire i := by
    rintro i (rfl | rfl | rfl | rfl) <;>
      exact (ByteOrder.convert_of_ne (by decide) (by decide)).trans
        ((ByteOrder.put_of_ne (by decide) (by decide)).trans (d.mem_header (by decide)))
  have hid : (ipintrHeader o d.mem idOffset = d.wire idOffset ∧ ipintrHeader o d.mem (idOffset + 1) = d.wire (idOffset + 1)) ↔
      (o = .little → d.wire idOffset = d.wire (idOffset + 1)) := by
    have h := convert_eq_iff (o := o) idOffset cleared
    rw [hcleared idOffset (by decide), hcleared (idOffset + 1) (by decide)] at h
    rw [ipintrHeader_id d (.inl rfl), ipintrHeader_id d (.inr rfl)]
    exact h
  have hoff : (ipintrHeader o d.mem offOffset = d.wire offOffset ∧ ipintrHeader o d.mem (offOffset + 1) = d.wire (offOffset + 1)) ↔
      (o = .little → d.wire offOffset = d.wire (offOffset + 1)) := by
    have hkept : ∀ i, i = offOffset ∨ i = offOffset + 1 → o.convert idOffset cleared i = d.wire i := by
      rintro i (rfl | rfl) <;>
        exact (ByteOrder.convert_of_ne (by decide) (by decide)).trans (hcleared _ (by decide))
    have h := convert_eq_iff (o := o) offOffset (o.convert idOffset cleared)
    rw [hkept offOffset (.inl rfl), hkept (offOffset + 1) (.inr rfl)] at h
    exact h
  constructor
  · intro h
    refine ⟨⟨?_, ?_⟩, fun ho => ⟨hid.mp ⟨h _ (by decide) (by decide) (by decide), h _ (by decide) (by decide) (by decide)⟩ ho,
      hoff.mp ⟨h _ (by decide) (by decide) (by decide), h _ (by decide) (by decide) (by decide)⟩ ho⟩⟩
    · rw [← h sumOffset (by decide) (by decide) (by decide), ipintrHeader_sum d (.inl rfl)]
    · rw [← h (sumOffset + 1) (by decide) (by decide) (by decide), ipintrHeader_sum d (.inr rfl)]
  · rintro ⟨hsum, hlittle⟩ i hi hlen₀ hlen₁
    have hid' := hid.mpr fun ho => (hlittle ho).1
    have hoff' := hoff.mpr fun ho => (hlittle ho).2
    by_cases hi4 : i = idOffset
    · exact hi4 ▸ hid'.1
    by_cases hi5 : i = idOffset + 1
    · exact hi5 ▸ hid'.2
    by_cases hi6 : i = offOffset
    · exact hi6 ▸ hoff'.1
    by_cases hi7 : i = offOffset + 1
    · exact hi7 ▸ hoff'.2
    by_cases hi10 : i = sumOffset
    · rw [hi10, hsum.1, ipintrHeader_sum d (.inl rfl)]
    by_cases hi11 : i = sumOffset + 1
    · rw [hi11, hsum.2, ipintrHeader_sum d (.inr rfl)]
    rw [ipintrHeader_of_ne ⟨hlen₀, hlen₁⟩ ⟨hi4, hi5⟩ ⟨hi6, hi7⟩ ⟨hi10, hi11⟩, d.mem_header (by omega)]

theorem ipDooptions_memory {left : Nat → Byte} (h : ∀ i < 16, left i = ipintrHeader o d.mem i) :
    icmplen o ((Caller.ipDooptions left).memory o) = hlenAt d.wire + min 8 (d.total - hlenAt d.wire) ∧
      ∀ i, quotedByte o ((Caller.ipDooptions left).memory o) i = if i = lenOffset ∨ i = lenOffset + 1 then d.wire i else left i := by
  have hlen : hlenAt ((Caller.ipDooptions left).memory o) = hlenAt d.wire := by
    rw [← hlenAt_left (h 0 (by decide))]
    exact hlenAt_congr (ByteOrder.put_of_ne (by decide) (by decide))
  have hshort : o.short ((Caller.ipDooptions left).memory o) lenOffset =
      (d.wire lenOffset ++ d.wire (lenOffset + 1) : Word16) - BitVec.ofNat 16 (hlenAt d.wire) := by
    rw [Caller.memory, ByteOrder.short_put, short_len_left h, hlenAt_left (h 0 (by decide))]
  have htotal_lt := d.total_lt
  have hhlen_le := d.hlen_le
  have hhi := hlenAt_le d.wire
  rw [toNat_total] at htotal_lt hhlen_le
  have hnat : ((d.wire lenOffset ++ d.wire (lenOffset + 1) : Word16) - BitVec.ofNat 16 (hlenAt d.wire)).toNat =
      d.total - hlenAt d.wire := by
    rw [BitVec.toNat_sub, BitVec.toNat_ofNat, toNat_total]
    change (65536 - hlenAt d.wire % 65536 + d.total) % 65536 = d.total - hlenAt d.wire
    omega
  constructor
  · have hmsb : ((d.wire lenOffset ++ d.wire (lenOffset + 1) : Word16) - BitVec.ofNat 16 (hlenAt d.wire)).msb = false := by
      rw [BitVec.msb_eq_false_iff_two_mul_lt, hnat]
      change 2 * (d.total - hlenAt d.wire) < 65536
      omega
    rw [icmplen, hlen, hshort, BitVec.signExtend_eq_setWidth_of_msb_false hmsb, BitVec.toNat_setWidth, hnat,
      Nat.mod_eq_of_lt (Nat.lt_of_le_of_lt (Nat.sub_le _ _) (Nat.lt_trans htotal_lt (by decide)))]
  · intro i
    rw [quotedByte, hshort, hlen, BitVec.sub_add_cancel, high_byte, low_byte]
    by_cases hi2 : i = lenOffset
    · rw [if_pos hi2, if_pos (.inl hi2), hi2]
    by_cases hi3 : i = lenOffset + 1
    · rw [if_neg hi2, if_pos hi3, if_pos (.inr hi3), hi3]
    rw [if_neg hi2, if_neg hi3, if_neg (not_or.mpr ⟨hi2, hi3⟩), Caller.memory, ByteOrder.put_of_ne hi2 hi3]

theorem ipDooptions_quotesAsArrived_iff {left : Nat → Byte} (h : ∀ i < 16, left i = ipintrHeader o d.mem i)
    (hans : ¬ (Caller.ipDooptions left).Unanswered o d) :
    (Caller.ipDooptions left).QuotesAsArrived o d ↔ (Caller.ipDooptions left).Untouched o d := by
  have hlo := d.hlen_lo
  obtain ⟨hlen, hbytes⟩ := ipDooptions_memory h
  rw [quotesAsArrived_iff_bytes hans, Caller.Untouched, ← and_assoc, ← ipintrHeader_eq_iff d]
  constructor
  · rintro ⟨-, hquoted⟩
    refine ⟨fun i hi hlen₀ hlen₁ => ?_, fun i hlow hi => ?_⟩
    · rw [← h i hi, ← hquoted i (by omega), hbytes, if_neg (not_or.mpr ⟨hlen₀, hlen₁⟩)]
    · have hne : ¬ (i = lenOffset ∨ i = lenOffset + 1) := by
        simp only [lenOffset]
        omega
      rw [← hquoted i hi, hbytes, if_neg hne]
  · rintro ⟨hheader, hrest⟩
    refine ⟨hlen, fun i hi => ?_⟩
    rw [hbytes]
    split
    · rfl
    · next hne =>
      rcases Nat.lt_or_ge i 16 with hlow | hhigh
      · rw [h i hlow, hheader i hlow (fun he => hne (.inl he)) fun he => hne (.inr he)]
      · exact hrest i hhigh hi

/-- `icmp_error` quotes a datagram as it arrived where it quotes none, and for `ip_dooptions` where nothing has been changed but
`ip_len`: that is the one caller that takes the length of the header off, as the comment there asks for. -/
theorem quotesAsArrived_iff (o : ByteOrder) (d : Arrival) (c : Caller) (hc : c.Possible o d) :
    c.QuotesAsArrived o d ↔ c.Unanswered o d ∨ c.Untouched o d := by
  by_cases hans : c.Unanswered o d
  · have hquoted : c.quoted o d = none := if_neg (by simpa [Caller.Unanswered] using hans)
    simp [Caller.QuotesAsArrived, hquoted, hans]
  rw [or_iff_right hans]
  cases c with
  | ipDooptions left => exact ipDooptions_quotesAsArrived_iff hc hans
  | ipForwardTtl left => exact iff_of_false (ipForwardTtl_not_quotesAsArrived hc hans) id
  | ipForwardRoute left =>
    have httl : left ttlOffset = ipintrHeader o d.mem ttlOffset := hc ttlOffset (by decide)
    refine iff_of_false (not_quotesAsArrived_of_ttl hans ?_) id
    change forwardHeader o left ttlOffset = _
    rw [forwardHeader, forwardHeader, Function.update_self, Function.update_self, httl]
  | ipForwardCopy copy mLen redirect =>
    exact iff_of_false (not_quotesAsArrived_of_ttl hans (hc ttlOffset (by decide))) id
  | udpInput left len => exact iff_of_false (udpInput_not_quotesAsArrived hc hans) id

def expiringWire : Nat → Byte := fun i =>
  [0x45, 0, 0, 28, 0x12, 0x34, 0, 0, 1, 17, 0x92, 0x9c, 10, 0, 0, 1, 10, 0, 1, 1, 0x04, 0x00, 0x82, 0x9b, 0, 8, 0, 0].getD i 0

def expiring : Arrival where
  wire := expiringWire
  mem := expiringWire
  mLen := 28
  bcast := false
  mget := true
  held _ _ := rfl
  hlen_lo := by decide
  hlen_hi := by decide
  hlen_le := by decide
  total_lt := by decide

/-- On a big endian host the quoted length is 48, where 28 arrived. -/
theorem expiring_not_quoted :
    (Caller.ipForwardTtl (ipintrHeader .big expiringWire)).Possible .big expiring ∧
      ¬ (Caller.ipForwardTtl (ipintrHeader .big expiringWire)).QuotesAsArrived .big expiring := by
  refine ⟨fun _ _ => rfl, fun h => ?_⟩
  have hquoted := h _ rfl
  have hbyte := congrArg (fun q : List Byte => q.getD 3 0) hquoted
  revert hbyte
  decide

theorem quotesAsArrived_iff_expiring :
    (Caller.ipForwardTtl (ipintrHeader .big expiringWire)).QuotesAsArrived .big expiring ↔
      (Caller.ipForwardTtl (ipintrHeader .big expiringWire)).Unanswered .big expiring ∨
        (Caller.ipForwardTtl (ipintrHeader .big expiringWire)).Untouched .big expiring :=
  quotesAsArrived_iff .big expiring _ fun _ _ => rfl

end Quoting

end NetBSD.Ip
