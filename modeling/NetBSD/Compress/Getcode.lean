import NetBSD.Compress.Zopen

/-!
# One code

`getcode` stays inside the code buffer, but for the eighth code of sixteen bits of a full buffer. What it leaves alone are the tables and
the stack.
-/

namespace NetBSD.Compress

variable {z z' : Zstate} {code : Nat}

structure Zstate.Widths (z : Zstate) : Prop where
  least : initBits ≤ z.nBits
  most : z.nBits ≤ bits
  maxbits_le : z.maxbits ≤ bits
  maxmaxcode_eq : z.maxmaxcode = 1 <<< z.maxbits
  free : z.freeEnt ≤ first ∨ z.freeEnt ≤ z.maxmaxcode
  room : z.maxcode = maxcodeOf z.nBits ∧ (z.nBits = initBits ∨ z.nBits ≠ z.maxbits) ∨ z.maxcode = z.maxmaxcode ∧ z.nBits = z.maxbits

structure Zstate.Sized (z : Zstate) : Prop extends z.Widths where
  whole : z.nBits ∣ z.roffset
  filled : z.size ≤ 7 * z.nBits + 1

structure Fetched (z z' : Zstate) : Prop where
  state : z'.state = z.state
  prefixof : z'.prefixof = z.prefixof
  suffixof : z'.suffixof = z.suffixof
  freeEnt : z'.freeEnt = z.freeEnt
  maxmaxcode : z'.maxmaxcode = z.maxmaxcode
  blockCompress : z'.blockCompress = z.blockCompress
  stack : z'.stack = z.stack
  finchar : z'.finchar = z.finchar
  oldcode : z'.oldcode = z.oldcode
  incode : z'.incode = z.incode

theorem Fetched.refl (z : Zstate) : Fetched z z := ⟨rfl, rfl, rfl, rfl, rfl, rfl, rfl, rfl, rfl, rfl⟩

def Zstate.eighth (z : Zstate) : Prop := ¬z.due ∧ z.nBits = 16 ∧ z.roffset = 112

theorem one_shl_le {a b : Nat} (h : a ≤ b) : 1 <<< a ≤ 1 <<< b := by
  rw [Nat.one_shiftLeft, Nat.one_shiftLeft]
  exact Nat.pow_le_pow_right (by decide) h

theorem le_of_one_shl_le {a b : Nat} (h : 1 <<< a ≤ 1 <<< b) : a ≤ b := by
  rw [Nat.one_shiftLeft, Nat.one_shiftLeft] at h
  exact (Nat.pow_le_pow_iff_right (by decide)).1 h

theorem Zstate.Widths.widen (hz : z.Widths) : z.widen.Widths ∧ Fetched z z.widen := by
  unfold Zstate.widen
  split
  · next hfull =>
    have hmin := one_shl_le hz.least
    have h512 : 1 <<< initBits = 512 := rfl
    have hcodes : maxcodeOf z.nBits = (1 <<< z.nBits) - 1 := rfl
    have hfirst : first = 257 := rfl
    have heq := hz.maxmaxcode_eq
    have hfree := hz.free
    -- the table is full at the largest size, and only the first size can be the largest with entries to come
    have hgrows : z.maxcode = maxcodeOf z.nBits ∧ (z.nBits = initBits ∨ z.nBits ≠ z.maxbits) := by
      refine hz.room.resolve_right fun h => ?_
      rw [← h.2] at heq
      omega
    have hlt : z.nBits + 1 ≤ bits := by
      rcases hgrows.2 with hinit | hne
      · rw [hinit]
        decide
      · have hle := le_of_one_shl_le (a := z.nBits) (b := z.maxbits) (by omega)
        have := hz.maxbits_le
        omega
    refine ⟨⟨Nat.le_succ_of_le hz.least, hlt, hz.maxbits_le, heq, hfree, ?_⟩, ⟨rfl, rfl, rfl, rfl, rfl, rfl, rfl, rfl, rfl, rfl⟩⟩
    by_cases hlast : z.nBits + 1 = z.maxbits
    · exact .inr ⟨if_pos hlast, hlast⟩
    · exact .inl ⟨if_neg hlast, .inr hlast⟩
  · exact ⟨hz, .refl z⟩

theorem Zstate.Widths.restart (hz : z.Widths) : z.restart.Widths ∧ Fetched z z.restart := by
  unfold Zstate.restart
  split
  · exact ⟨⟨Nat.le_refl initBits, (show initBits ≤ bits by decide), hz.maxbits_le, hz.maxmaxcode_eq, hz.free, .inl ⟨rfl, .inl rfl⟩⟩,
      ⟨rfl, rfl, rfl, rfl, rfl, rfl, rfl, rfl, rfl, rfl⟩⟩
  · exact ⟨hz, .refl z⟩

theorem Fetched.trans {z'' : Zstate} (h : Fetched z z') (h' : Fetched z' z'') : Fetched z z'' where
  state := h'.state.trans h.state
  prefixof := h'.prefixof.trans h.prefixof
  suffixof := h'.suffixof.trans h.suffixof
  freeEnt := h'.freeEnt.trans h.freeEnt
  maxmaxcode := h'.maxmaxcode.trans h.maxmaxcode
  blockCompress := h'.blockCompress.trans h.blockCompress
  stack := h'.stack.trans h.stack
  finchar := h'.finchar.trans h.finchar
  oldcode := h'.oldcode.trans h.oldcode
  incode := h'.incode.trans h.incode

theorem Zstate.Widths.fill (hz : z.Widths) :
    ∃ more z', z.fill = .ok (more, z') ∧ Fetched z z' ∧ (more = true → z'.Sized ∧ z'.roffset = 0) := by
  have hgot : ¬bits < min z.nBits z.file.length := Nat.not_lt.2 (Nat.le_trans (Nat.min_le_left ..) hz.most)
  by_cases hnone : min z.nBits z.file.length = 0
  · exact ⟨false, { z with size := 0 }, by rw [Zstate.fill, if_neg hgot, if_pos hnone], ⟨rfl, rfl, rfl, rfl, rfl, rfl, rfl, rfl, rfl, rfl⟩,
      fun h => absurd h Bool.false_ne_true⟩
  · refine ⟨true, z.refilled (min z.nBits z.file.length), by rw [Zstate.fill, if_neg hgot, if_neg hnone], ⟨rfl, rfl, rfl, rfl, rfl, rfl, rfl, rfl, rfl, rfl⟩,
      fun _ => ⟨⟨⟨hz.least, hz.most, hz.maxbits_le, hz.maxmaxcode_eq, hz.free, hz.room⟩, ⟨0, rfl⟩, ?_⟩, rfl⟩⟩
    have hle : min z.nBits z.file.length ≤ z.nBits := Nat.min_le_left ..
    show ((min z.nBits z.file.length : Nat) : Int) * 8 - (z.nBits - 1) ≤ 7 * z.nBits + 1
    omega

theorem shl_lt {x k s : Nat} (hx : x < 1 <<< k) (hs : k + s ≤ bits) : x <<< s < 1 <<< bits := by
  refine Nat.lt_of_lt_of_le ?_ (one_shl_le hs)
  rw [Nat.one_shiftLeft] at hx ⊢
  rw [Nat.shiftLeft_eq, Nat.pow_add]
  exact Nat.mul_lt_mul_of_pos_right hx (Nat.two_pow_pos s)

theorem or_lt {x y : Nat} (hx : x < 1 <<< bits) (hy : y < 1 <<< bits) : x ||| y < 1 <<< bits :=
  Nat.or_lt_two_pow (n := 16) hx hy

theorem and_rmask_lt (x b : Nat) : x &&& rmask b < 1 <<< b := by
  have hpos : 0 < 1 <<< b := by
    rw [Nat.one_shiftLeft]
    exact Nat.two_pow_pos b
  have hle : x &&& rmask b ≤ rmask b := Nat.and_le_right
  have heq : rmask b = (1 <<< b) - 1 := rfl
  omega

theorem Zstate.Sized.extract (hz : z.Sized) (hin : z.roffset ≤ 7 * z.nBits) (hlast : ¬(z.nBits = 16 ∧ z.roffset = 112)) :
    ∃ code, z.extract = .ok (code, { z with roffset := z.roffset + z.nBits }) ∧ code < 1 <<< bits := by
  have h9 : initBits = 9 := rfl
  have h16 : bits = 16 := rfl
  have hleast := hz.least
  have hmost := hz.most
  have hdiv : z.roffset >>> 3 = z.roffset / 8 := Nat.shiftRight_eq_div_pow z.roffset 3
  have hmod : z.roffset &&& 7 = z.roffset % 8 := Nat.and_two_pow_sub_one_eq_mod z.roffset 3
  have hbyte : ∀ i, (z.gbuf i).toNat < 1 <<< 8 := fun i => (z.gbuf i).isLt
  have hlow : ∀ i s, (z.gbuf i).toNat >>> s < 1 <<< bits := fun i s =>
    Nat.lt_of_le_of_lt (Nat.shiftRight_le ..) (Nat.lt_trans (hbyte i) (by decide))
  unfold Zstate.extract
  dsimp only
  by_cases hmid : 8 ≤ z.nBits - (8 - (z.roffset &&& 7))
  · have hfits : ¬bits ≤ z.roffset >>> 3 + 2 := by
      by_cases hn : z.nBits = 16
      · obtain ⟨k, hk⟩ := hz.whole
        rw [hn] at hk
        omega
      · omega
    rw [if_pos hmid, if_pos hmid, if_neg hfits]
    refine ⟨_, rfl, or_lt (or_lt (hlow ..) (shl_lt (hbyte _) (by omega))) (shl_lt (and_rmask_lt ..) (by omega))⟩
  · have hfits : ¬bits ≤ z.roffset >>> 3 + 1 := by omega
    rw [if_neg hmid, if_neg hmid, if_neg hfits]
    exact ⟨_, rfl, or_lt (hlow ..) (shl_lt (and_rmask_lt ..) (by omega))⟩

theorem Zstate.extract_eighth (hn : z.nBits = 16) (hoff : z.roffset = 112) : z.extract = .error .gbuf := by
  rw [Zstate.extract, hn, hoff]
  rfl

theorem Zstate.Sized.getcode (hz : z.Sized) (hnot : ¬z.eighth) :
    ∃ code z', getcode z = .ok (code, z') ∧ Fetched z z' ∧ (∀ c, code = some c → c < 1 <<< bits ∧ z'.Sized) := by
  have hstep : ∀ z : Zstate, z.Sized → z.roffset ≤ 7 * z.nBits → ¬(z.nBits = 16 ∧ z.roffset = 112) →
      ∃ code z', z.extract = .ok (code, z') ∧ Fetched z z' ∧ code < 1 <<< bits ∧ z'.Sized := by
    intro z hz hin hlast
    obtain ⟨code, hcode, hlt⟩ := hz.extract hin hlast
    exact ⟨code, _, hcode, ⟨rfl, rfl, rfl, rfl, rfl, rfl, rfl, rfl, rfl, rfl⟩, hlt,
      ⟨⟨hz.least, hz.most, hz.maxbits_le, hz.maxmaxcode_eq, hz.free, hz.room⟩, Nat.dvd_add hz.whole (Nat.dvd_refl _), hz.filled⟩⟩
  unfold NetBSD.Compress.getcode
  split
  · obtain ⟨hwiden, hsame⟩ := hz.toWidths.widen
    obtain ⟨hrestart, hsame'⟩ := hwiden.restart
    obtain ⟨more, z₁, hfill, hsame₁, hmore⟩ := hrestart.fill
    have hall := (hsame.trans hsame').trans hsame₁
    rw [hfill]
    cases more with
    | false => exact ⟨none, z₁, rfl, hall, fun _ h => absurd h.symm (Option.some_ne_none _)⟩
    | true =>
      obtain ⟨hz₁, hoff⟩ := hmore rfl
      obtain ⟨code, z₂, hcode, hsame₂, hlt, hz₂⟩ := hstep z₁ hz₁ (by omega) (by omega)
      dsimp only
      rw [hcode]
      refine ⟨some code, z₂, rfl, hall.trans hsame₂, fun c h => ?_⟩
      obtain rfl := Option.some.inj h
      exact ⟨hlt, hz₂⟩
  · next hdue =>
    have hin : z.roffset ≤ 7 * z.nBits := by
      have hfilled := hz.filled
      have hlt : ¬z.size ≤ z.roffset := fun h => hdue (.inr (.inl h))
      omega
    obtain ⟨code, z₂, hcode, hsame₂, hlt, hz₂⟩ := hstep z hz hin fun h => hnot ⟨hdue, h⟩
    rw [hcode]
    refine ⟨some code, z₂, rfl, hsame₂, fun c h => ?_⟩
    obtain rfl := Option.some.inj h
    exact ⟨hlt, hz₂⟩

theorem getcode_eighth (h : z.eighth) : getcode z = .error .gbuf := by
  rw [getcode, if_neg h.1, Zstate.extract_eighth h.2.1 h.2.2]

end NetBSD.Compress
