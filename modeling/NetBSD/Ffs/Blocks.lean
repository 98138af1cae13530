import NetBSD.Ffs.Sound

/-!
# Allocation of blocks

`ffs_alloccgblk` finds a free block when the summary says that there is one, and takes it.
-/

namespace NetBSD.Ffs

open Lib (Bitmap IsSpan)

structure Took (fs : Fs) (g g' : Group) (i n : Nat) : Prop where
  sound : Sound fs g'
  follows : Follows g g'
  free : ∀ j, i ≤ j → j < i + n → g.cg.blksfree.isset j = true
  map : ∀ j, g'.cg.blksfree.isset j = (g.cg.blksfree.isset j && !decide (i ≤ j ∧ j < i + n))

section

variable {fs : Fs} {g g' g'' : Group} {b i j n bno bpref : Nat}

theorem Sound.rotors (h : Sound fs g) (hi : i < fs.fpg) (hj : j < fs.fpg) :
    Sound fs { g with cg := { g.cg with rotor := i, frotor := j } } := by
  obtain ⟨⟨hndblk, hbits, -, -, ⟨hnb, hnf, hfr, hbt, hbl⟩, hclustered⟩, hcsnb, hcsnf⟩ := h
  refine ⟨⟨hndblk, hbits, hi, hj, ⟨hnb, hnf, hfr, hbt, hbl⟩, fun hc => ?_⟩, hcsnb, hcsnf⟩
  obtain ⟨hncl, hfree, hsum⟩ := hclustered hc
  exact ⟨hncl, hfree, hsum⟩

theorem Took.rotors {i j : Nat} (h : Took fs { g with cg := { g.cg with rotor := i, frotor := j } } g' bno n) :
    Took fs g g' bno n := by
  obtain ⟨hsound, ⟨hcgx, hndblk, hnb, hnf⟩, hfree, hmap⟩ := h
  exact ⟨hsound, ⟨hcgx, hndblk, hnb, hnf⟩, hfree, hmap⟩

theorem gotit_spec (h : Sound fs g) (hb : b < fs.fpg / fs.frag) (hwhole : fs.Wholly g.cg.blksfree.isset b) :
    ∃ g', gotit fs g (b * fs.frag) = (g.cg.cgx * fs.fpg + b * fs.frag, g') ∧ Took fs g g' (b * fs.frag) fs.frag := by
  obtain ⟨m, hm⟩ : ∃ m, m = fs.clrblock g.cg.blksfree b := ⟨_, rfl⟩
  have hbit : ∀ j, m.isset j = (g.cg.blksfree.isset j && !decide (j / fs.frag = b)) := by
    intro j
    rw [hm, fs.isset_clrblock]
  have hclear : ∀ i < fs.frag, m.isset (b * fs.frag + i) = false := by
    intro i hi
    rw [hbit, fs.div_frag hi, decide_eq_true rfl, Bool.not_true, Bool.and_false]
  have hnot := fs.not_wholly_of_clear fs.frag_pos (hclear 0 fs.frag_pos)
  have hedit : Edit fs g b m g.cg.frsum 0 := by
    refine ⟨hb, fun j hj => ?_, fun j hj => ?_, ?_, fun k hk _ => ?_⟩
    · rw [hbit, decide_eq_false hj, Bool.not_false, Bool.and_true]
    · rw [hbit, Bool.and_eq_true] at hj
      exact h.good.bits j hj.1
    · rw [fs.loose_of_clear hclear, fs.loose_of_wholly hwhole]
      rfl
    · rw [fs.pieces_of_clear hclear hk, fs.pieces_of_wholly hwhole]
      omega
  obtain ⟨hsound, hfollows, hblks⟩ := hedit.account h (Or.inr ⟨rfl, hwhole, hnot⟩)
  refine ⟨_, ?_, hsound, hfollows, fun j hlow hhigh => ?_, fun j => ?_⟩
  · simp only [gotit, Fs.fragstoblks, Nat.mul_div_cancel b fs.frag_pos, Group.account, Group.edit, Group.addFrags,
      Int.add_zero, ← hm]
    congr 1
    obtain ⟨clustersfree, clustersum, hacct⟩ := clusteracct_eq fs { g.cg with blksfree := m } b (-1)
    rw [hacct]
    rfl
  · obtain ⟨i, rfl⟩ := Nat.exists_eq_add_of_le hlow
    exact hwhole i (by omega)
  · rw [hblks, hbit]
    congr 2
    rw [decide_eq_decide]
    exact fs.mem_block_iff.symm

theorem Sound.exists_wholly (h : Sound fs g) (hpos : g.cg.nbfree ≠ 0) :
    ∃ b < fs.fpg / fs.frag, fs.Wholly g.cg.blksfree.isset b := by
  have htotal : 0 < fs.total (fs.whole g.cg.blksfree.isset) := by
    have hnb := h.good.counted.nbfree
    omega
  obtain ⟨b, hb, hwhole⟩ := fs.total_pos htotal
  refine ⟨b, hb, ?_⟩
  by_contra hnot
  rw [Fs.whole, if_neg hnot] at hwhole
  exact absurd hwhole (Nat.lt_irrefl 0)

theorem wholly_isSpan {p : Nat → Bool} (h : fs.Wholly p b) :
    IsSpan p (b * fs.frag) (b * fs.frag + fs.frag) (b * fs.frag) fs.frag :=
  ⟨Nat.le_refl _, Nat.le_refl _, h, Or.inl rfl, Or.inl rfl⟩

theorem norot_spec (h : Sound fs g) (hpos : g.cg.nbfree ≠ 0) (bpref : Nat) :
    ∃ b g', norot fs g bpref = some (g.cg.cgx * fs.fpg + b * fs.frag, g') ∧ b < fs.fpg / fs.frag ∧
      Took fs g g' (b * fs.frag) fs.frag := by
  obtain ⟨b, hb, hwhole⟩ := h.exists_wholly hpos
  have hbits : ∀ i, g.cg.blksfree.isset i = true → i < fs.fpg := fun i hi =>
    (h.good.bits i hi).trans_le h.good.ndblk
  obtain ⟨bno, frotor, b', hsearch, hfrotor, hb', hspan⟩ :=
    mapsearch_spec fs bpref fs.frag_pos (Nat.le_refl _) hbits h.good.frotor (wholly_isSpan hwhole)
  have hlow := hspan.1
  have hend := hspan.2.1
  obtain rfl : bno = b' * fs.frag := by omega
  have hlt := fs.mul_lt_fpg hb'
  have hfrag := fs.frag_pos
  have hwhole' : fs.Wholly g.cg.blksfree.isset b' := hspan.2.2.1
  obtain ⟨g', hgotit, htook⟩ :=
    gotit_spec (h.rotors (i := b' * fs.frag) (j := frotor) (by omega) hfrotor) hb' hwhole'
  refine ⟨b', g', ?_, hb', htook.rotors⟩
  rw [norot, hsearch, Option.map_some]
  exact congrArg some hgotit

theorem rotLoop_spec (map : Bitmap) {n i j : Nat} (fuel : Nat) (hn : n = fs.fragstoblks fs.fpg) (hchain : Chain fs.rotbl n i j)
    (hfree : fs.isblock map (bno + j) = true) (hpos : 0 < fuel) (hfuel : n < fuel + i) :
    ∃ k, rotLoop fs map bno fuel i = some ((bno + k) * fs.frag) ∧ fs.isblock map (bno + k) = true := by
  induction hchain generalizing fuel with
  | here i =>
    obtain ⟨fuel, rfl⟩ := Nat.exists_eq_succ_of_ne_zero hpos.ne'
    exact ⟨i, by rw [rotLoop, if_pos hfree]; rfl, hfree⟩
  | @next i j hdelta hle _ ih =>
    obtain ⟨fuel, rfl⟩ := Nat.exists_eq_succ_of_ne_zero hpos.ne'
    rw [rotLoop]
    by_cases hhere : fs.isblock map (bno + i) = true
    · exact ⟨i, by rw [if_pos hhere]; rfl, hhere⟩
    · rw [if_neg hhere]
      dsimp only
      rw [if_neg (by rw [← hn]; omega)]
      exact ih fuel hfree (by omega) (by omega)

theorem alloccgblk_request (hb : b < fs.fpg / fs.frag) (hwhole : fs.Wholly g.cg.blksfree.isset b)
    (hne : g.cg.cgx * fs.fpg + b * fs.frag ≠ 0) :
    alloccgblk fs g (g.cg.cgx * fs.fpg + b * fs.frag) = some (gotit fs g (b * fs.frag)) := by
  have hlt := fs.mul_lt_fpg hb
  have hfrag := fs.frag_pos
  have hdtog : fs.dtog (g.cg.cgx * fs.fpg + b * fs.frag) = g.cg.cgx := by
    rw [Fs.dtog, Nat.add_comm, Nat.add_mul_div_right _ _ fs.fpg_pos, Nat.div_eq_of_lt (by omega), Nat.zero_add]
  have hblknum : fs.blknum (g.cg.cgx * fs.fpg + b * fs.frag) = g.cg.cgx * fs.fpg + b * fs.frag := by
    have hdvd : fs.frag ∣ g.cg.cgx * fs.fpg + b * fs.frag :=
      Nat.dvd_add (Nat.dvd_mul_left_of_dvd fs.frag_dvd _) (Nat.dvd_mul_left ..)
    rw [Fs.blknum, Nat.mod_eq_zero_of_dvd hdvd, Nat.sub_zero]
  have hdtogd : fs.dtogd (g.cg.cgx * fs.fpg + b * fs.frag) = b * fs.frag := by
    rw [Fs.dtogd, Nat.mul_add_mod_self_right, Nat.mod_eq_of_lt (by omega)]
  rw [alloccgblk, hdtog, if_neg (by omega)]
  dsimp only
  rw [hblknum, hdtogd, Fs.fragstoblks, Nat.mul_div_cancel _ hfrag, if_pos (fs.isblock_iff.mpr hwhole)]

theorem alloccgblk_spec (h : Sound fs g) (hpos : g.cg.nbfree ≠ 0) (bpref : Nat) :
    ∃ b g', alloccgblk fs g bpref = some (g.cg.cgx * fs.fpg + b * fs.frag, g') ∧ b < fs.fpg / fs.frag ∧
      Took fs g g' (b * fs.frag) fs.frag := by
  have hgotit : ∀ b, fs.isblock g.cg.blksfree b = true →
      ∃ b' g', some (gotit fs g (b * fs.frag)) = some (g.cg.cgx * fs.fpg + b' * fs.frag, g') ∧
        b' < fs.fpg / fs.frag ∧ Took fs g g' (b' * fs.frag) fs.frag := by
    intro b hblock
    have hwhole := fs.isblock_iff.mp hblock
    have hlast := h.good.bits _ (hwhole (fs.frag - 1) (by have := fs.frag_pos; omega))
    have hb : b < fs.fpg / fs.frag := by
      have hfrag := fs.frag_pos
      have hndblk := h.good.ndblk
      rw [Nat.lt_iff_add_one_le, Nat.le_div_iff_mul_le hfrag, Nat.add_mul]
      omega
    obtain ⟨g', heq, htook⟩ := gotit_spec h hb hwhole
    exact ⟨b, g', by rw [heq], hb, htook⟩
  unfold alloccgblk
  split
  case isTrue => exact norot_spec h hpos _
  case isFalse hpref =>
    dsimp only
    have hdvd : fs.frag ∣ fs.dtogd (fs.blknum bpref) := by
      rw [Fs.dtogd, Nat.dvd_mod_iff fs.frag_dvd]
      exact Nat.dvd_sub_mod bpref
    obtain ⟨c, hc⟩ := hdvd
    rw [Nat.mul_comm] at hc
    rw [hc, Fs.fragstoblks, Nat.mul_div_cancel _ fs.frag_pos]
    split
    case isTrue hblock => exact hgotit c hblock
    case isFalse =>
      split
      case isTrue => exact norot_spec h hpos _
      case isFalse hcyl =>
        split
        case h_1 => exact norot_spec h hpos _
        case h_2 i hfind =>
          -- The summary has a block at that position, and the tables lead to it.
          have hcount : 0 < g.cg.blks (fs.cbtocylno (c * fs.frag)) i := by
            have hsome := List.find?_some hfind
            exact of_decide_eq_true hsome
          rw [h.good.counted.blks] at hcount
          obtain ⟨b, hb, hone⟩ := fs.total_pos (Int.natCast_pos.mp hcount)
          have hplace : fs.cyl b = fs.cbtocylno (c * fs.frag) ∧ fs.rpos b = i := by
            by_contra hnot
            rw [if_neg hnot] at hone
            exact absurd hone (Nat.lt_irrefl 0)
          rw [if_pos hplace] at hone
          have hwhole : fs.Wholly g.cg.blksfree.isset b := by
            by_contra hnot
            rw [Fs.whole, if_neg hnot] at hone
            exact absurd hone (Nat.lt_irrefl 0)
          have hrotated : ∃ f j : Nat, fs.postbl (fs.cyl b % fs.cpc) (fs.rpos b) = f ∧
              Chain fs.rotbl (fs.fpg / fs.frag) f j ∧ (fs.cyl b - fs.cyl b % fs.cpc) * fs.spc / fs.nspb + j = b :=
            fs.rotated b hb fun hz => hcyl (Or.inr hz)
          obtain ⟨f, j, hfirst, hchain, hblk⟩ := hrotated
          rw [hplace.1, hplace.2] at hfirst
          rw [hplace.1] at hblk
          have hne : ¬((f : Int) = -1) := by omega
          rw [hfirst, if_neg hne, Int.toNat_natCast]
          obtain ⟨k, hloop, hfree⟩ := rotLoop_spec g.cg.blksfree (fs.fragstoblks fs.fpg + 1) rfl hchain
            (by rw [hblk]; exact fs.isblock_iff.mpr hwhole) (Nat.succ_pos _)
            (show fs.fragstoblks fs.fpg < _ by omega)
          rw [hloop, Option.map_some]
          exact hgotit _ hfree

end

end NetBSD.Ffs
