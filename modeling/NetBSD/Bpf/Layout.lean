import NetBSD.Bpf.Safety

/-!
# Filtering an mbuf chain

The same program is run on the bytes of a packet held in one buffer and on an mbuf chain holding
them. The two runs take the same steps as long as every load executed agrees on both, and for an
offset that is not negative the loads agree exactly under the condition below: the walk over the
chain finds the same bytes, but the code that assembles a value across two mbufs uses the offset
twice, a failure of `m_xhalf` is overlooked by `BPF_ABS`, and `BPF_IND` sign-extends a byte.
-/

namespace NetBSD.Bpf

open NetBSD.Lib Machine

theorem bigEndian_append_singleton (bytes : List Byte) (b : Byte) :
    bigEndian (bytes ++ [b]) = (bigEndian bytes <<< 8) ||| b.setWidth 32 := by
  simp [bigEndian]

theorem toNat_bigEndian_append_singleton {bytes : List Byte} {b : Byte}
    (hlt : (bigEndian bytes).toNat < 2 ^ 24) :
    (bigEndian (bytes ++ [b])).toNat = (bigEndian bytes).toNat * 256 + b.toNat := by
  have hb := b.isLt
  have hshift : (bigEndian bytes).toNat <<< 8 % 2 ^ 32 = (bigEndian bytes).toNat <<< 8 := by
    rw [Nat.shiftLeft_eq]
    omega
  rw [bigEndian_append_singleton, BitVec.toNat_or, BitVec.toNat_shiftLeft, BitVec.toNat_setWidth,
    hshift, Nat.mod_eq_of_lt (by omega), ← Nat.shiftLeft_add_eq_or_of_lt hb, Nat.shiftLeft_eq]

theorem toNat_bigEndian_lt (bytes : List Byte) (hlen : bytes.length ≤ 4) :
    (bigEndian bytes).toNat < 256 ^ bytes.length := by
  induction bytes using List.reverseRecOn with
  | nil => simp [bigEndian]
  | append_singleton bytes b ih =>
    simp only [List.length_append, List.length_singleton] at hlen ⊢
    have hlt := ih (by omega)
    have hb := b.isLt
    have h24 : 256 ^ bytes.length ≤ 2 ^ 24 := by
      calc 256 ^ bytes.length ≤ 256 ^ 3 := Nat.pow_le_pow_right (by omega) (by omega)
        _ = 2 ^ 24 := by rfl
    rw [toNat_bigEndian_append_singleton (by omega), Nat.pow_succ]
    omega

theorem bigEndian_inj {left right : List Byte} (hlen : left.length = right.length)
    (hfour : left.length ≤ 4) : bigEndian left = bigEndian right ↔ left = right := by
  refine ⟨fun h => ?_, fun h => h ▸ rfl⟩
  induction left using List.reverseRecOn generalizing right with
  | nil => exact (List.length_eq_zero_iff.mp hlen.symm).symm
  | append_singleton left b ih =>
    rcases List.eq_nil_or_concat right with rfl | ⟨right, c, rfl⟩
    · simp at hlen
    · simp only [List.concat_eq_append, List.length_append, List.length_singleton] at hlen hfour h ⊢
      have hlt : ∀ bytes : List Byte, bytes.length ≤ 3 → (bigEndian bytes).toNat < 2 ^ 24 := by
        intro bytes hbytes
        calc (bigEndian bytes).toNat < 256 ^ bytes.length := toNat_bigEndian_lt bytes (by omega)
          _ ≤ 256 ^ 3 := Nat.pow_le_pow_right (by omega) hbytes
          _ = 2 ^ 24 := by rfl
      have hb := b.isLt
      have hc := c.isLt
      have hval := congrArg BitVec.toNat h
      rw [toNat_bigEndian_append_singleton (hlt left (by omega)),
        toNat_bigEndian_append_singleton (hlt right (by omega))] at hval
      have hfront : bigEndian left = bigEndian right := BitVec.eq_of_toNat_eq (by omega)
      have hback : b = c := BitVec.eq_of_toNat_eq (by omega)
      rw [ih (by omega) (by omega) hfront, hback]
def contents (m : Mbuf) (next : List Mbuf) : List Byte := (m :: next).flatten

theorem mindex_eq_none {m : Mbuf} {next : List Mbuf} {k : Int}
    (h : mindex m next k = none) : (contents m next).length ≤ k := by
  induction next generalizing m k with
  | nil =>
    unfold mindex at h
    split at h
    · simp at h
    · simp only [contents, List.flatten_cons, List.flatten_nil, List.append_nil]
      omega
  | cons m' next ih =>
    unfold mindex at h
    split at h
    · simp at h
    · have := ih h
      simp only [contents, List.flatten_cons, List.length_append] at this ⊢
      omega

theorem mindex_eq_some {m m' : Mbuf} {next next' : List Mbuf} {k r : Int} (hk : 0 ≤ k)
    (h : mindex m next k = some (m', next', r)) :
    0 ≤ r ∧ r < m'.length
      ∧ ∃ front, contents m next = front ++ contents m' next' ∧ k = front.length + r := by
  induction next generalizing m k with
  | nil =>
    unfold mindex at h
    split at h
    · next hlt =>
      simp only [Option.some.injEq, Prod.mk.injEq] at h
      obtain ⟨rfl, rfl, rfl⟩ := h
      exact ⟨hk, hlt, [], rfl, by simp⟩
    · simp at h
  | cons n next ih =>
    unfold mindex at h
    split at h
    · next hlt =>
      simp only [Option.some.injEq, Prod.mk.injEq] at h
      obtain ⟨rfl, rfl, rfl⟩ := h
      exact ⟨hk, hlt, [], rfl, by simp⟩
    · next hge =>
      obtain ⟨hr, hlt, front, hfront, hkr⟩ := ih (by omega) h
      refine ⟨hr, hlt, m ++ front, ?_, ?_⟩
      · rw [contents, List.flatten_cons, List.append_assoc, ← hfront]
        rfl
      · rw [List.length_append]
        push_cast
        omega

/-- The value that `m_xword` and `m_xhalf` put together at offset `r` of an mbuf: the bytes of the
mbuf if there are enough, else those at twice the offset and the first ones of the next mbuf. -/
def straddle (size : Nat) (m : Mbuf) (next : List Mbuf) (r : Nat) : Load :=
  if r + size ≤ m.length then .ofBytes (bytesAt m r size)
  else
    match next with
    | [] => .reject
    | m0 :: _ => .ofBytes₂ (bytesAt m (r + r : Nat) (m.length - r)) (bytesAt m0 0 (size - (m.length - r)))

theorem straddle_of_le {size : Nat} {m : Mbuf} {next : List Mbuf} {r : Nat} (h : r + size ≤ m.length) :
    straddle size m next r = .ofBytes (bytesAt m r size) := if_pos h

theorem straddle_cons {size : Nat} {m m0 : Mbuf} {rest : List Mbuf} {r : Nat}
    (h : ¬ r + size ≤ m.length) :
    straddle size m (m0 :: rest) r
      = .ofBytes₂ (bytesAt m (r + r : Nat) (m.length - r)) (bytesAt m0 0 (size - (m.length - r))) :=
  if_neg h

/-- The `size` bytes at offset `r` lie in this mbuf, or reach into the next one only and equal the
ones at twice the offset. -/
def StraddleOk (size : Nat) (m : Mbuf) (next : List Mbuf) (r : Nat) : Prop :=
  r + size ≤ m.length
    ∨ ∃ m0 rest, next = m0 :: rest ∧ r + size ≤ m.length + m0.length
        ∧ bytesAt m (r + r : Nat) (m.length - r) = some (m.drop r)

theorem mXword_eq_straddle {m m' : Mbuf} {next next' : List Mbuf} {k : Int} {r : Nat}
    (hr : r < m'.length) (h : mindex m next k = some (m', next', (r : Int)))
    (henough : r + 4 ≤ m'.length ∨ ∃ m0 rest, next' = m0 :: rest ∧ r + 4 ≤ m'.length + m0.length) :
    mXword m next k = straddle 4 m' next' r := by
  simp only [mXword, h]
  by_cases hin : r + 4 ≤ m'.length
  · rw [if_pos (by omega), straddle_of_le hin]
  · obtain ⟨m0, rest, rfl, hback⟩ := henough.resolve_left hin
    rw [if_neg (by omega), straddle_cons hin]
    simp only
    rw [if_neg (by omega)]
    have hcases : m'.length - r = 1 ∨ m'.length - r = 2 ∨ m'.length - r = 3 := by omega
    rcases hcases with hd | hd | hd
    · have hint : (m'.length : Int) - r = 1 := by omega
      rw [hint, hd]
      rfl
    · have hint : (m'.length : Int) - r = 2 := by omega
      rw [hint, hd]
      rfl
    · have hint : (m'.length : Int) - r = 3 := by omega
      rw [hint, hd]
      rfl

theorem mXword_eq_reject {m m' : Mbuf} {next next' : List Mbuf} {k : Int} {r : Nat}
    (h : mindex m next k = some (m', next', (r : Int))) (hin : m'.length < r + 4)
    (hback : ∀ m0 rest, next' = m0 :: rest → m'.length + m0.length < r + 4) :
    mXword m next k = .reject := by
  simp only [mXword, h]
  rw [if_neg (by omega)]
  cases next' with
  | nil => rfl
  | cons m0 rest =>
    have := hback m0 rest rfl
    simp only
    rw [if_pos (by omega)]

theorem mXhalf_eq {m m' : Mbuf} {next next' : List Mbuf} {k : Int} {r : Nat} (hr : r < m'.length)
    (h : mindex m next k = some (m', next', (r : Int))) : mXhalf m next k = straddle 2 m' next' r := by
  simp only [mXhalf, h, straddle]
  by_cases hin : r + 2 ≤ m'.length
  · rw [if_pos (by omega), if_pos hin]
  · have hd : m'.length - r = 1 := by omega
    rw [if_neg (by omega), if_neg hin, hd]
    cases next' <;> rfl

theorem straddle_eq_value_iff {size : Nat} {m : Mbuf} {next : List Mbuf} {r : Nat} (hr : r < m.length)
    (hsize : size ≤ 4) (hlen : r + size ≤ (contents m next).length) :
    straddle size m next r = .value (bigEndian (((contents m next).drop r).take size))
      ↔ StraddleOk size m next r := by
  unfold StraddleOk
  have hcontents : contents m next = m ++ next.flatten := rfl
  rw [hcontents, List.drop_append_of_le_length (by omega)]
  by_cases hin : r + size ≤ m.length
  · rw [straddle_of_le hin, bytesAt_natCast hin, List.take_append_of_le_length (by rw [List.length_drop]; omega)]
    simp [Load.ofBytes, hin]
  · cases next with
    | nil =>
      rw [hcontents] at hlen
      simp at hlen
      omega
    | cons m0 rest =>
      rw [straddle_cons hin]
      have hfront : (m.drop r).length = m.length - r := List.length_drop
      have htake : ((m.drop r) ++ (m0 :: rest).flatten).take size
          = m.drop r ++ (m0 ++ rest.flatten).take (size - (m.length - r)) := by
        rw [List.take_append, List.take_of_length_le (by omega), hfront]
        rfl
      rw [htake]
      by_cases hback : r + size ≤ m.length + m0.length
      · have hbytes : bytesAt m0 0 (size - (m.length - r))
            = some (m0.take (size - (m.length - r))) := by
          have hfits : 0 + (size - (m.length - r)) ≤ m0.length := by omega
          simpa using bytesAt_natCast hfits
        rw [hbytes, List.take_append_of_le_length (by omega)]
        cases hdouble : bytesAt m (r + r : Nat) (m.length - r) with
        | none => simp [Load.ofBytes₂, hin]
        | some front =>
          have hfrontLen : front.length = m.length - r := by
            unfold bytesAt at hdouble
            split at hdouble
            · simp only [Option.some.injEq] at hdouble
              rw [← hdouble, List.length_take, List.length_drop]
              omega
            · simp at hdouble
          have hsame : bigEndian (front ++ m0.take (size - (m.length - r)))
              = bigEndian (m.drop r ++ m0.take (size - (m.length - r))) ↔ front = m.drop r := by
            rw [bigEndian_inj (by simp [hfrontLen]) (by simp [hfrontLen]; omega),
              List.append_left_inj]
          simp only [Load.ofBytes₂, Load.value.injEq, hsame, hin, false_or, Option.some.injEq]
          constructor
          · rintro rfl
            exact ⟨m0, rest, rfl, hback, rfl⟩
          · rintro ⟨_, _, _, _, h⟩
            exact h
      · have hbytes : bytesAt m0 0 (size - (m.length - r)) = none := by
          rw [bytesAt_eq_none_iff]
          omega
        rw [hbytes]
        constructor
        · cases bytesAt m (r + r : Nat) (m.length - r) <;> simp [Load.ofBytes₂]
        · rintro (h | ⟨_, _, hcons, h, _⟩)
          · exact absurd h hin
          · simp only [List.cons.injEq] at hcons
            obtain ⟨rfl, rfl⟩ := hcons
            exact absurd h hback

section Load

variable {mode : Mode} {width : Width} {m : Mbuf} {next : List Mbuf} {p : List Byte} {k : Word32}

theorem toInt_eq_toNat_of_nonneg (hk : 0 ≤ k.toInt) : k.toInt = k.toNat ∧ k.toNat < 2 ^ 31 := by
  have hint := BitVec.toInt_eq_toNat_cond k
  have hlt := k.isLt
  split at hint <;> omega

theorem toNat_add_width (hk : 0 ≤ k.toInt) :
    (k + 4).toNat = k.toNat + 4 ∧ (k + 2).toNat = k.toNat + 2 := by
  have hfour : (4 : Word32).toNat = 4 := rfl
  have htwo : (2 : Word32).toNat = 2 := rfl
  have hlt := (toInt_eq_toNat_of_nonneg hk).2
  rw [BitVec.toNat_add, BitVec.toNat_add, hfour, htwo]
  omega

theorem loadBuf_of_nonneg (hk : 0 ≤ k.toInt) (hne : p ≠ []) :
    loadBuf width p k
      = if k.toNat + width.bytes ≤ p.length then
          .value (bigEndian ((p.drop k.toNat).take width.bytes))
        else .reject := by
  have hlen : p.length ≠ 0 := fun h => hne (List.length_eq_zero_iff.mp h)
  obtain ⟨hfour, htwo⟩ := toNat_add_width hk
  have hread : ∀ size, k.toNat + size ≤ p.length →
      Load.ofBytes (bytesAt p k.toInt size) = .value (bigEndian ((p.drop k.toNat).take size)) := by
    intro size hle
    rw [(toInt_eq_toNat_of_nonneg hk).1, bytesAt_natCast hle]
    rfl
  by_cases hle : k.toNat + width.bytes ≤ p.length
  · rw [if_pos hle, ← hread _ hle]
    cases width <;> simp only [Width.bytes] at hle <;>
      simp only [loadBuf, decide_eq_true_eq, hfour, htwo] <;> rw [if_neg (by omega)]
  · rw [if_neg hle]
    cases width <;> simp only [Width.bytes] at hle <;>
      simp only [loadBuf, decide_eq_true_eq, hfour, htwo] <;> rw [if_pos (by omega), if_pos hlen]

def Located (m : Mbuf) (next : List Mbuf) (n : Nat) (P : Mbuf → List Mbuf → Nat → Prop) : Prop :=
  ∃ m' next', ∃ r : Nat, mindex m next n = some (m', next', (r : Int)) ∧ P m' next' r

def ChainLoadOk (mode : Mode) (width : Width) (m : Mbuf) (next : List Mbuf) (n : Nat) : Prop :=
  match width, mode with
  | .word, _ => (contents m next).length < n + 4 ∨ Located m next n (StraddleOk 4)
  | .half, .abs => Located m next n (StraddleOk 2)
  | .half, .ind =>
    (contents m next).length ≤ n
      ∨ Located m next n fun m' next' r => next' = [] ∨ StraddleOk 2 m' next' r
  | .byte, .abs => True
  | .byte, .ind => ∀ b, (contents m next)[n]? = some b → b.msb = false

theorem mindex_cases (m : Mbuf) (next : List Mbuf) (n : Nat) :
    (mindex m next n = none ∧ (contents m next).length ≤ n)
      ∨ ∃ m' next', ∃ r : Nat, mindex m next n = some (m', next', (r : Int)) ∧ r < m'.length
          ∧ (contents m next).drop n = (contents m' next').drop r
          ∧ (contents m next).length + r = n + (contents m' next').length := by
  cases hm : mindex m next n with
  | none => exact Or.inl ⟨rfl, by exact_mod_cast mindex_eq_none hm⟩
  | some out =>
    obtain ⟨m', next', r⟩ := out
    obtain ⟨hr, hlt, front, hfront, hn⟩ := mindex_eq_some (Int.natCast_nonneg n) hm
    obtain ⟨r, rfl⟩ := Int.eq_ofNat_of_zero_le hr
    have hn' : n = front.length + r := by exact_mod_cast hn
    refine Or.inr ⟨m', next', r, rfl, by exact_mod_cast hlt, ?_, ?_⟩
    · rw [hfront, hn', List.drop_append, List.drop_eq_nil_of_le (by omega), List.nil_append]
      congr 1
      omega
    · rw [hfront, List.length_append]
      omega

theorem located_iff {n r : Nat} {m' : Mbuf} {next' : List Mbuf} {P : Mbuf → List Mbuf → Nat → Prop}
    (h : mindex m next n = some (m', next', (r : Int))) : Located m next n P ↔ P m' next' r := by
  constructor
  · rintro ⟨m₁, next₁, r₁, h₁, hP⟩
    rw [h, Option.some.injEq, Prod.mk.injEq, Prod.mk.injEq] at h₁
    obtain ⟨rfl, rfl, hr⟩ := h₁
    rwa [Int.ofNat_inj.mp hr]
  · exact fun hP => ⟨m', next', r, h, hP⟩

theorem not_located {n : Nat} {P : Mbuf → List Mbuf → Nat → Prop} (h : mindex m next n = none) :
    ¬ Located m next n P := by
  rintro ⟨m', next', r, h', _⟩
  rw [h] at h'
  simp at h'

theorem StraddleOk.enough {size r : Nat} {m : Mbuf} {next : List Mbuf} (h : StraddleOk size m next r) :
    r + size ≤ m.length ∨ ∃ m0 rest, next = m0 :: rest ∧ r + size ≤ m.length + m0.length := by
  rcases h with h | ⟨m0, rest, hnext, hle, _⟩
  · exact Or.inl h
  · exact Or.inr ⟨m0, rest, hnext, hle⟩

theorem length_le_contents (m m0 : Mbuf) (rest : List Mbuf) :
    m.length + m0.length ≤ (contents m (m0 :: rest)).length := by
  simp only [contents, List.flatten_cons, List.length_append]
  omega

theorem length_le_contents_self (m : Mbuf) (next : List Mbuf) :
    m.length ≤ (contents m next).length := by
  simp only [contents, List.flatten_cons, List.length_append]
  omega

theorem StraddleOk.le_contents {size r : Nat} {m : Mbuf} {next : List Mbuf}
    (h : StraddleOk size m next r) : r + size ≤ (contents m next).length := by
  rcases h.enough with h | ⟨m0, rest, rfl, hle⟩
  · exact h.trans (length_le_contents_self m next)
  · exact hle.trans (length_le_contents m m0 rest)

theorem mXword_eq_iff (n : Nat) :
    mXword m next n = (if n + 4 ≤ (contents m next).length then
        .value (bigEndian (((contents m next).drop n).take 4)) else .reject)
      ↔ (contents m next).length < n + 4 ∨ Located m next n (StraddleOk 4) := by
  rcases mindex_cases m next n with ⟨hnone, hlen⟩ | ⟨m', next', r, hsome, hr, hdrop, htotal⟩
  · rw [if_neg (by omega)]
    simp only [mXword, hnone, true_iff]
    omega
  · rw [located_iff hsome, hdrop]
    by_cases hlen : n + 4 ≤ (contents m next).length
    · rw [if_pos hlen, or_iff_right (by omega)]
      by_cases henough : r + 4 ≤ m'.length
          ∨ ∃ m0 rest, next' = m0 :: rest ∧ r + 4 ≤ m'.length + m0.length
      · rw [mXword_eq_straddle hr hsome henough]
        exact straddle_eq_value_iff hr (by omega) (by omega)
      · have hreject : mXword m next n = .reject := by
          refine mXword_eq_reject hsome (by omega) fun m0 rest hnext => ?_
          by_contra hle
          exact henough (Or.inr ⟨m0, rest, hnext, by omega⟩)
        rw [hreject]
        simp only [reduceCtorEq, false_iff]
        exact fun h => henough h.enough
    · have hreject : mXword m next n = .reject := by
        have hself := length_le_contents_self m' next'
        refine mXword_eq_reject hsome (by omega) ?_
        rintro m0 rest rfl
        have := length_le_contents m' m0 rest
        omega
      rw [if_neg hlen, hreject]
      simp only [true_iff]
      exact Or.inl (by omega)

theorem straddle_half (next : List Mbuf) {r : Nat} (hr : r < m.length) :
    (r + 2 ≤ (contents m next).length → straddle 2 m next r ≠ .reject)
      ∧ ((contents m next).length < r + 2 → (straddle 2 m next r = .reject ↔ next = [])
          ∧ (straddle 2 m next r = .reject ∨ straddle 2 m next r = .stray)) := by
  by_cases hin : r + 2 ≤ m.length
  · have hself := length_le_contents_self m next
    rw [straddle_of_le hin, bytesAt_natCast hin]
    exact ⟨fun _ => by simp [Load.ofBytes], fun h => by omega⟩
  · cases next with
    | nil =>
      have hreject : straddle 2 m [] r = .reject := if_neg hin
      simp only [contents, List.flatten_cons, List.flatten_nil, List.append_nil, hreject]
      exact ⟨fun h => by omega, fun _ => by simp⟩
    | cons m0 rest =>
      have hle := length_le_contents m m0 rest
      rw [straddle_cons hin]
      refine ⟨fun _ => ?_, fun hshort => ?_⟩
      · cases bytesAt m (r + r : Nat) (m.length - r) <;>
          cases bytesAt m0 0 (2 - (m.length - r)) <;> simp [Load.ofBytes₂]
      · have hbytes : bytesAt m0 0 (2 - (m.length - r)) = none := by
          rw [bytesAt_eq_none_iff]
          omega
        rw [hbytes]
        cases bytesAt m (r + r : Nat) (m.length - r) <;> simp [Load.ofBytes₂]

theorem mXhalf_eq_iff (n : Nat) :
    mXhalf m next n = (if n + 2 ≤ (contents m next).length then
        .value (bigEndian (((contents m next).drop n).take 2)) else .reject)
      ↔ (contents m next).length ≤ n
          ∨ Located m next n fun m' next' r => next' = [] ∨ StraddleOk 2 m' next' r := by
  rcases mindex_cases m next n with ⟨hnone, hlen⟩ | ⟨m', next', r, hsome, hr, hdrop, htotal⟩
  · rw [if_neg (by omega)]
    simp only [mXhalf, hnone, true_iff]
    exact Or.inl hlen
  · have hself := length_le_contents_self m' next'
    rw [located_iff hsome, hdrop, mXhalf_eq hr hsome, or_iff_right (by omega)]
    by_cases hlen : n + 2 ≤ (contents m next).length
    · rw [if_pos hlen, straddle_eq_value_iff hr (by omega) (by omega)]
      refine ⟨Or.inr, fun h => h.elim (fun hnil => Or.inl ?_) id⟩
      subst hnil
      simp only [contents, List.flatten_cons, List.flatten_nil, List.append_nil] at htotal hlen
      omega
    · rw [if_neg hlen, ((straddle_half next' hr).2 (by omega)).1]
      refine ⟨Or.inl, fun h => h.elim id fun hok => ?_⟩
      have := hok.le_contents
      omega

theorem mXhalf_abs_eq_iff (n : Nat) :
    (match mXhalf m next n with | .reject => .value 0 | out => out)
        = (if n + 2 ≤ (contents m next).length then
            Load.value (bigEndian (((contents m next).drop n).take 2)) else .reject)
      ↔ Located m next n (StraddleOk 2) := by
  rcases mindex_cases m next n with ⟨hnone, hlen⟩ | ⟨m', next', r, hsome, hr, hdrop, htotal⟩
  · rw [if_neg (by omega)]
    simp only [mXhalf, hnone, reduceCtorEq, false_iff]
    exact not_located hnone
  · rw [located_iff hsome, hdrop, mXhalf_eq hr hsome]
    by_cases hlen : n + 2 ≤ (contents m next).length
    · rw [if_pos hlen, ← straddle_eq_value_iff hr (by omega) (by omega)]
      have hne := (straddle_half next' hr).1 (by omega)
      cases hout : straddle 2 m' next' r <;> simp_all
    · rw [if_neg hlen]
      obtain ⟨_, hout | hout⟩ := (straddle_half next' hr).2 (by omega) <;>
        · simp only [hout, reduceCtorEq, false_iff]
          intro hok
          have := hok.le_contents
          omega

theorem signExtend_eq_setWidth_iff (b : Byte) : b.signExtend 32 = b.setWidth 32 ↔ b.msb = false := by
  constructor
  · intro h
    have hint := congrArg BitVec.toInt h
    have hlt := b.isLt
    rw [BitVec.toInt_signExtend_of_le (by omega), BitVec.toInt_setWidth,
      Int.bmod_eq_of_le (by omega) (by omega), BitVec.toInt_eq_toNat_cond] at hint
    rw [BitVec.msb_eq_false_iff_two_mul_lt]
    split at hint <;> omega
  · exact BitVec.signExtend_eq_setWidth_of_msb_false

theorem mXbyte_eq_iff (mode : Mode) (n : Nat) :
    mXbyte mode m next n = (if n + 1 ≤ (contents m next).length then
        .value (bigEndian (((contents m next).drop n).take 1)) else .reject)
      ↔ (mode = .ind → ∀ b, (contents m next)[n]? = some b → b.msb = false) := by
  rcases mindex_cases m next n with ⟨hnone, hlen⟩ | ⟨m', next', r, hsome, hr, hdrop, htotal⟩
  · rw [if_neg (by omega), List.getElem?_eq_none_iff.mpr hlen]
    simp [mXbyte, hnone]
  · have hself := length_le_contents_self m' next'
    have hfront : (contents m' next').drop r = m'[r] :: (contents m' next').drop (r + 1) := by
      rw [List.drop_eq_getElem_cons (by omega)]
      congr 1
      exact List.getElem_append_left hr
    have hget : (contents m next)[n]? = some m'[r] := by
      rw [← List.head?_drop, hdrop, hfront]
      rfl
    have hbytes : bytesAt m' r 1 = some [m'[r]] := by
      rw [bytesAt_natCast hr, List.drop_eq_getElem_cons hr]
      rfl
    have hvalue : bigEndian [m'[r]] = m'[r].setWidth 32 := by simp [bigEndian]
    rw [if_pos (by omega), hdrop, hfront, List.take_succ_cons, List.take_zero, hvalue, hget]
    simp only [mXbyte, hsome, hbytes, Load.value.injEq]
    cases mode with
    | abs => simp
    | ind => simp [signExtend_eq_setWidth_iff]

theorem loadChain_eq_loadBuf_iff (hk : 0 ≤ k.toInt) (hne : contents m next ≠ []) :
    loadChain mode width m next k = loadBuf width (contents m next) k
      ↔ ChainLoadOk mode width m next k.toNat := by
  obtain ⟨hfour, htwo⟩ := toNat_add_width hk
  rw [loadBuf_of_nonneg hk hne]
  cases width with
  | word =>
    simp only [loadChain, ChainLoadOk]
    rw [if_pos (by omega), (toInt_eq_toNat_of_nonneg hk).1]
    exact mXword_eq_iff _
  | half =>
    cases mode with
    | abs =>
      simp only [loadChain, ChainLoadOk]
      rw [if_pos (by omega), (toInt_eq_toNat_of_nonneg hk).1]
      exact mXhalf_abs_eq_iff _
    | ind =>
      simp only [loadChain, ChainLoadOk]
      rw [if_pos (by omega), (toInt_eq_toNat_of_nonneg hk).1]
      exact mXhalf_eq_iff _
  | byte =>
    simp only [loadChain]
    rw [(toInt_eq_toNat_of_nonneg hk).1]
    refine (mXbyte_eq_iff mode _).trans ?_
    cases mode <;> simp [ChainLoadOk]

theorem loadBuf_nil : loadBuf width [] k = .stray := by
  by_contra hne
  exact (loadBuf_ne_stray_iff.mp hne).1 rfl

theorem mindex_of_neg {i : Int} (hi : i < 0) : mindex m next i = some (m, next, i) := by
  cases next <;> exact if_pos (by omega)

theorem loadChain_eq_loadBuf_of_neg (hk : k.toInt < 0) (hne : contents m next ≠ []) :
    (loadChain mode width m next k = loadBuf width (contents m next) k
        ∧ loadBuf width (contents m next) k ≠ .stray)
      ↔ width = .word ∧ (contents m next).length < k.toInt + 4 := by
  have hread : ∀ size, bytesAt m k.toInt size = none := fun size => bytesAt_of_neg hk
  have hlen : (contents m next).length ≠ 0 := fun h => hne (List.length_eq_zero_iff.mp h)
  have hself := length_le_contents_self m next
  have hint := BitVec.toInt_eq_toNat_cond k
  rw [if_neg (by omega)] at hint
  have hlt := k.isLt
  have hfour : (k + 4).toNat = (k.toNat + 4) % 2 ^ 32 := BitVec.toNat_add _ _
  have htwo : (k + 2).toNat = (k.toNat + 2) % 2 ^ 32 := BitVec.toNat_add _ _
  cases width with
  | word =>
    by_cases hshort : (contents m next).length < k.toInt + 4
    · have hbuf : loadBuf .word (contents m next) k = .reject := by
        simp only [loadBuf, decide_eq_true_eq]
        rw [if_pos (by omega), if_pos hlen]
      have hchain : mXword m next k.toInt = .reject := by
        simp only [mXword, mindex_of_neg hk]
        rw [if_neg (by omega)]
        cases next with
        | nil => rfl
        | cons m0 rest =>
          have := length_le_contents m m0 rest
          simp only
          rw [if_pos (by omega)]
      simp only [loadChain, hchain, hbuf]
      rw [if_pos (by omega)]
      simpa using hshort
    · have hstray : loadBuf .word (contents m next) k ≠ .stray →
          loadChain mode .word m next k = .stray := by
        intro hdefined
        have hbound := (loadBuf_ne_stray_iff.mp hdefined).2 hk
        simp only at hbound
        simp only [loadChain, mXword, mindex_of_neg hk, hread, Load.ofBytes]
        rw [if_pos (by omega), if_pos (by omega)]
      simp only [true_and, hshort, iff_false, not_and, not_not]
      intro heq
      by_contra hdefined
      exact hdefined (heq ▸ hstray hdefined)
  | half =>
    have hstray : loadBuf .half (contents m next) k ≠ .stray →
        loadChain mode .half m next k = .stray := by
      intro hdefined
      have hbound := (loadBuf_ne_stray_iff.mp hdefined).2 hk
      simp only at hbound
      have hhalf : mXhalf m next k.toInt = .stray := by
        simp only [mXhalf, mindex_of_neg hk, hread, Load.ofBytes]
        rw [if_pos (by omega)]
      cases mode <;> simp [loadChain, hhalf]
    simp only [reduceCtorEq, false_and, iff_false, not_and, not_not]
    intro heq
    by_contra hdefined
    exact hdefined (heq ▸ hstray hdefined)
  | byte =>
    have hstray : loadChain mode .byte m next k = .stray := by
      simp only [loadChain, mXbyte, mindex_of_neg hk, hread]
    simp only [hstray, reduceCtorEq, false_and, iff_false, not_and, not_not]
    exact fun heq => heq.symm

def LoadAgrees (mode : Mode) (width : Width) (m : Mbuf) (next : List Mbuf) (k : Word32) : Prop :=
  contents m next ≠ []
    ∧ if 0 ≤ k.toInt then ChainLoadOk mode width m next k.toNat
      else width = .word ∧ (contents m next).length < k.toInt + 4

theorem loadAgrees_iff :
    LoadAgrees mode width m next k ↔
      loadChain mode width m next k = loadBuf width (contents m next) k
        ∧ loadBuf width (contents m next) k ≠ .stray := by
  unfold LoadAgrees
  by_cases hne : contents m next = []
  · simp [hne, loadBuf_nil]
  · by_cases hk : 0 ≤ k.toInt
    · rw [if_pos hk, ← loadChain_eq_loadBuf_iff hk hne]
      have hdefined : loadBuf width (contents m next) k ≠ .stray := by
        rw [loadBuf_of_nonneg hk hne]
        split <;> simp
      simp [hne, hdefined]
    · have hneg := @loadChain_eq_loadBuf_of_neg mode width m next k (by omega) hne
      rw [if_neg hk, ← hneg]
      simp [hne]

end Load

section Run

variable (m : Mbuf) (next : List Mbuf) (wirelen : Word32) {s : BpfState}

/-- What the loads of one instruction must meet for the segmentation not to show. The header length
of `LDX|MSH` loses the sign of its byte in the mask. -/
def AccessAgrees (s : BpfState) (p : BpfInsn) : Option Opcode → Prop
  | some (.ld mode width) => LoadAgrees mode width m next (s.offset mode p.k)
  | some .ldxMsh => LoadAgrees .abs .byte m next p.k
  | _ => True

def StepAgrees (prog : List BpfInsn) (s : BpfState) : Prop :=
  ∀ p, fetch prog s.pc = some p → AccessAgrees m next s p (decode p.code)

theorem signExtend_and_mask (b : Byte) :
    b.signExtend 32 &&& (0xf : Word32) = b.setWidth 32 &&& (0xf : Word32) := by
  have hmask : (0xf : Word32) = (0xf : Byte).setWidth 32 := by rfl
  rw [hmask]
  apply BitVec.eq_of_getLsbD_eq
  intro i hi
  simp only [BitVec.getLsbD_and, BitVec.getLsbD_signExtend, BitVec.getLsbD_setWidth, hi,
    decide_true, Bool.true_and]
  by_cases hlow : i < 8
  · simp [hlow]
  · have hhigh : (15#8).getLsbD i = false := BitVec.getLsbD_of_ge _ _ (by omega)
    simp [hhigh]

theorem mXbyte_ind (k : Int) :
    (mXbyte .ind m next k = mXbyte .abs m next k)
      ∨ ∃ b : Byte, mXbyte .abs m next k = .value (b.setWidth 32)
          ∧ mXbyte .ind m next k = .value (b.signExtend 32) := by
  unfold mXbyte
  split
  · exact Or.inl rfl
  · split
    · next b _ => exact Or.inr ⟨b, rfl, rfl⟩
    · exact Or.inl rfl

theorem exec_ldxMsh_chain_eq {p : BpfInsn} (h : LoadAgrees .abs .byte m next p.k) :
    exec (.chain m next) wirelen s p (some .ldxMsh)
      = exec (.buf (contents m next)) wirelen s p (some .ldxMsh) := by
  have hload : mXbyte .abs m next p.k.toInt = loadBuf .byte (contents m next) p.k :=
    (loadAgrees_iff.mp h).1
  simp only [exec, load, loadChain, ← hload]
  rcases mXbyte_ind m next p.k.toInt with hsame | ⟨b, habs, hind⟩
  · rw [hsame]
  · simp only [habs, hind, signExtend_and_mask]

theorem exec_chain_eq {p : BpfInsn} (h : AccessAgrees m next s p (decode p.code)) :
    exec (.chain m next) wirelen s p (decode p.code)
      = exec (.buf (contents m next)) wirelen s p (decode p.code) := by
  cases hop : decode p.code with
  | none => rfl
  | some op =>
    rw [hop] at h
    cases op with
    | ld mode width =>
      have hload : load mode width (.chain m next) (s.offset mode p.k)
          = load mode width (.buf (contents m next)) (s.offset mode p.k) :=
        (loadAgrees_iff.mp h).1
      simp only [exec, hload]
    | ldxMsh => exact exec_ldxMsh_chain_eq m next wirelen h
    | alu op src => cases op <;> cases src <;> rfl
    | _ => rfl

theorem bpfStep_chain_eq {prog : List BpfInsn} (h : StepAgrees m next prog s) :
    bpfStep prog (.chain m next) wirelen s = bpfStep prog (.buf (contents m next)) wirelen s := by
  unfold bpfStep
  cases hfetch : fetch prog s.pc with
  | none => rfl
  | some p => exact exec_chain_eq m next wirelen (h p hfetch)

def LayoutBlind (prog : List BpfInsn) (s : BpfState) : Prop :=
  ∀ fuel, bpfFilter (some prog) (.chain m next) wirelen s fuel
    = bpfFilter (some prog) (.buf (contents m next)) wirelen s fuel

/-- **When the filter does not see the segmentation.** A load gives on the chain what it is defined to
give on the packet's bytes exactly under `LoadAgrees`, and a program all of whose executed loads are
such returns the same on both. -/
theorem bpfFilter_layoutBlind (prog : AcceptedProgram) (a x : Word32) (mem : Fin bpfMemwords → Word32) :
    (∀ mode width k, LoadAgrees mode width m next k ↔
        load mode width (.chain m next) k = load mode width (.buf (contents m next)) k
          ∧ load mode width (.buf (contents m next)) k ≠ .stray)
      ∧ ((∀ s, Reaches (bpfStep prog.insns (.buf (contents m next)) wirelen) (.start a x mem) s →
            StepAgrees m next prog.insns s) →
          LayoutBlind m next wirelen prog.insns (.start a x mem)) :=
  ⟨fun _ _ _ => loadAgrees_iff, fun hall fuel =>
    runFor_congr (fun s hs => bpfStep_chain_eq m next wirelen (hall s hs)) fuel⟩

end Run

def loadHalf : AcceptedProgram where
  insns := [⟨bpfLd ||| bpfH ||| bpfAbs, 0, 0, 6⟩, ⟨bpfRet ||| bpfK, 0, 0, 1⟩]
  length_lt := by decide
  accepted := by decide

/-- A half word past the end of six bytes: the packet is rejected in one buffer, and accepted in two
mbufs of three. -/
theorem not_layoutBlind_loadHalf :
    ¬ LayoutBlind [0x45, 0x00, 0x01] [[0x02, 0x03, 0x04]] 6 loadHalf.insns (.start 0 0 fun _ => 0) := by
  intro h
  exact absurd (h 2) (by decide)

end NetBSD.Bpf
