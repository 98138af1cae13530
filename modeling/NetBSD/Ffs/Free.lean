import NetBSD.Ffs.Frags

/-!
# Freeing, and clusters

`ffs_blkfree` frees a block, or fragments, which may make a block of them; `ffs_clusteralloc` takes a run of blocks.
-/

namespace NetBSD.Ffs

open Lib (Bitmap)

structure Freed (fs : Fs) (g g' : Group) (i n : Nat) : Prop where
  sound : Sound fs g'
  follows : Follows g g'
  map : ∀ j, g'.cg.blksfree.isset j = (g.cg.blksfree.isset j || decide (i ≤ j ∧ j < i + n))

section

variable {fs : Fs} {g g' : Group} {m : Bitmap} {b i j n : Nat}

theorem blkfree_block (h : Sound fs g) (hb : b < fs.fpg / fs.frag)
    (halloc : ∀ j, b * fs.frag ≤ j → j < b * fs.frag + fs.frag → g.cg.blksfree.isset j = false)
    (hend : b * fs.frag + fs.frag ≤ g.cg.ndblk) :
    Freed fs g ((Group.edit g (fs.setblock g.cg.blksfree b) g.cg.frsum 0).account fs b 1) (b * fs.frag) fs.frag := by
  have hclear : ∀ i < fs.frag, g.cg.blksfree.isset (b * fs.frag + i) = false := fun i hi => halloc _ (by omega) (by omega)
  have hnot := fs.not_wholly_of_clear fs.frag_pos (hclear 0 fs.frag_pos)
  have hbit : ∀ j, (fs.setblock g.cg.blksfree b).isset j = (g.cg.blksfree.isset j || decide (j / fs.frag = b)) :=
    fun j => fs.isset_setblock
  have hwhole : fs.Wholly (fs.setblock g.cg.blksfree b).isset b := by
    intro i hi
    rw [hbit, fs.div_frag hi, decide_eq_true rfl, Bool.or_true]
  have hedit : Edit fs g b (fs.setblock g.cg.blksfree b) g.cg.frsum 0 := by
    refine ⟨hb, fun j hj => ?_, fun j hj => ?_, ?_, fun k hk _ => ?_⟩
    · rw [hbit, decide_eq_false hj, Bool.or_false]
    · rw [hbit, Bool.or_eq_true, decide_eq_true_eq] at hj
      rcases hj with hj | hj
      · exact h.good.bits j hj
      · have hmem := fs.mem_block_iff.mpr hj
        omega
    · rw [fs.loose_of_clear hclear, fs.loose_of_wholly hwhole]
      rfl
    · rw [fs.pieces_of_clear hclear hk, fs.pieces_of_wholly hwhole]
      omega
  obtain ⟨hsound, hfollows, hblks⟩ := hedit.account h (Or.inl ⟨rfl, hnot, hwhole⟩)
  refine ⟨hsound, hfollows, fun j => ?_⟩
  rw [hblks, hbit]
  congr 1
  rw [decide_eq_decide]
  exact fs.mem_block_iff.symm

theorem blkfree_frags (h : Sound fs g) (hb : b < fs.fpg / fs.frag) (hn : 0 < n) (hlow : b * fs.frag ≤ i)
    (hhigh : i + n ≤ b * fs.frag + fs.frag) (halloc : ∀ j, i ≤ j → j < i + n → g.cg.blksfree.isset j = false)
    (hend : i + n ≤ g.cg.ndblk) {frsum : Nat → Int}
    (hm : ∀ j, m.isset j = (g.cg.blksfree.isset j || decide (i ≤ j ∧ j < i + n)))
    (hfrsum : ∀ k, frsum k = fs.fragacct (fs.blkmap m (b * fs.frag))
      (fs.fragacct (fs.blkmap g.cg.blksfree (b * fs.frag)) g.cg.frsum (-1)) 1 k) :
    (¬fs.Wholly m.isset b → Freed fs g (Group.edit g m frsum n) i n) ∧
      (fs.Wholly m.isset b → Freed fs g ((Group.edit g m frsum (n + -fs.frag)).account fs b 1) i n) := by
  have hnot := fs.not_wholly_of_mem hlow (by omega) (halloc i (Nat.le_refl _) (by omega))
  have hmap : ∀ j, j / fs.frag ≠ b → m.isset j = g.cg.blksfree.isset j := by
    intro j hj
    have hout : ¬(b * fs.frag ≤ j ∧ j < b * fs.frag + fs.frag) := fun hmem => hj (fs.mem_block_iff.mp hmem)
    rw [hm, decide_eq_false (by omega), Bool.or_false]
  have hbits : ∀ j, m.isset j = true → j < g.cg.ndblk := by
    intro j hj
    rw [hm, Bool.or_eq_true, decide_eq_true_eq] at hj
    rcases hj with hj | hj
    · exact h.good.bits j hj
    · omega
  have hfree : fs.freeIn m.isset b = fs.freeIn g.cg.blksfree.isset b + n := by
    refine fs.freeIn_add hlow hhigh (fun j hj hjn => ?_) fun j => ?_
    · rw [hm, decide_eq_true ⟨hj, hjn⟩, Bool.or_true]
    · rw [hm, Bool.and_or_distrib_right, Bool.and_not_self, Bool.or_false]
      by_cases hj : i ≤ j ∧ j < i + n
      · rw [halloc j hj.1 hj.2, Bool.false_and]
      · rw [decide_eq_false hj, Bool.not_false, Bool.and_true]
  have hpieces : ∀ k, 0 < k → k < fs.frag →
      frsum k = g.cg.frsum k + (fs.pieces m.isset k b - fs.pieces g.cg.blksfree.isset k b) := by
    intro k hk hkf
    rw [hfrsum, fs.fragacct_eq, if_pos ⟨hk, hkf⟩, fs.fragacct_eq, if_pos ⟨hk, hkf⟩]
    by_cases hwhole : fs.Wholly m.isset b
    · rw [fs.pieces_of_wholly hwhole, fs.spans_of_wholly hwhole hk hkf, Fs.pieces, if_neg hnot]
      omega
    · rw [Fs.pieces, Fs.pieces, if_neg hwhole, if_neg hnot]
      omega
  have hloose : fs.loose g.cg.blksfree.isset b = fs.freeIn g.cg.blksfree.isset b := if_neg hnot
  constructor
  · intro hwhole
    have hedit : Edit fs g b m frsum n := by
      refine ⟨hb, hmap, hbits, ?_, hpieces⟩
      rw [hloose, Fs.loose, if_neg hwhole]
      omega
    obtain ⟨hsound, hfollows⟩ := hedit.sound h hnot hwhole
    exact ⟨hsound, hfollows, hm⟩
  · intro hwhole
    have hedit : Edit fs g b m frsum (n + -fs.frag) := by
      refine ⟨hb, hmap, hbits, ?_, hpieces⟩
      rw [hloose, fs.loose_of_wholly hwhole]
      have hall := fs.freeIn_of_wholly hwhole
      omega
    obtain ⟨hsound, hfollows, hblks⟩ := hedit.account h (Or.inl ⟨rfl, hnot, hwhole⟩)
    exact ⟨hsound, hfollows, fun j => by rw [hblks, hm]⟩

theorem blkfree_spec (h : Sound fs g) (hi : i < fs.fpg) (hn : 0 < n) (hin : i % fs.frag + n ≤ fs.frag)
    (halloc : ∀ j, i ≤ j → j < i + n → g.cg.blksfree.isset j = false) (hend : i + n ≤ g.cg.ndblk)
    (hsize : g.cg.cgx * fs.fpg + i < fs.size) :
    ∃ g', blkfree fs g (g.cg.cgx * fs.fpg + i) (n * fs.fsize) = some g' ∧ Freed fs g g' i n := by
  have hfrag := fs.frag_pos
  have hdtogd : fs.dtogd (g.cg.cgx * fs.fpg + i) = i := by
    rw [Fs.dtogd, Nat.mul_add_mod_self_right, Nat.mod_eq_of_lt hi]
  have hfull : n * fs.fsize = fs.bsize ↔ n = fs.frag := Nat.mul_left_inj fs.fsize_pos.ne'
  have hfrags : fs.numfrags (n * fs.fsize) = n := Nat.mul_div_cancel n fs.fsize_pos
  have hok : ¬(n * fs.fsize > fs.bsize ∨ n * fs.fsize % fs.fsize ≠ 0) := by
    rintro (hbig | hoff)
    · exact absurd (Nat.mul_le_mul_right fs.fsize (show n ≤ fs.frag by omega)) (Nat.not_le.mpr hbig)
    · exact hoff (Nat.mul_mod_left ..)
  obtain ⟨b, hb⟩ : ∃ b, b = i / fs.frag := ⟨_, rfl⟩
  have hblock : i = b * fs.frag + i % fs.frag := by
    rw [hb]
    exact (Nat.div_add_mod' i fs.frag).symm
  have hblt : b < fs.fpg / fs.frag := by
    rw [hb]
    exact Nat.div_lt_div_of_lt_of_dvd fs.frag_dvd hi
  have hnot := fs.not_wholly_of_mem (b := b) (by omega) (by omega) (halloc i (Nat.le_refl _) (by omega))
  unfold blkfree
  rw [if_neg hok, if_neg (by omega)]
  dsimp only
  rw [hdtogd]
  split
  case isTrue heq =>
    obtain rfl := hfull.mp heq
    have hstart : i = b * fs.frag := by omega
    have hblkno : fs.fragstoblks i = b := hb.symm
    rw [hblkno, if_neg (fun hblk => hnot (fs.isblock_iff.mp hblk))]
    refine ⟨_, rfl, ?_⟩
    rw [hstart] at halloc hend ⊢
    have hfreed := blkfree_block h hblt halloc hend
    rw [Group.edit, Group.addFrags] at hfreed
    simp only [Int.add_zero] at hfreed
    exact hfreed
  case isFalse =>
    have hbbase : i - fs.fragnum i = b * fs.frag := by
      rw [Fs.fragnum]
      omega
    have hany : ((List.range (fs.numfrags (n * fs.fsize))).any fun d => g.cg.blksfree.isset (i + d)) = false := by
      rw [List.any_eq_false, hfrags]
      intro d hd
      rw [halloc (i + d) (by omega) (by have := List.mem_range.mp hd; omega)]
      exact Bool.false_ne_true
    rw [hany, if_neg Bool.false_ne_true, hbbase, hfrags]
    obtain ⟨m, hm⟩ : ∃ m, m = (List.range n).foldl (fun map d => map.setbit (i + d)) g.cg.blksfree := ⟨_, rfl⟩
    have hbit : ∀ j, m.isset j = (g.cg.blksfree.isset j || decide (i ≤ j ∧ j < i + n)) := by
      intro j
      rw [hm, List.range_eq_range', isset_setbits]
      rfl
    rw [← hm]
    have hblkno : fs.fragstoblks (b * fs.frag) = b := Nat.mul_div_cancel b hfrag
    obtain ⟨hpart, hwhole⟩ := blkfree_frags h hblt hn (by omega) (by omega) halloc hend hbit fun k => rfl
    rw [hblkno]
    split
    case isTrue hblk =>
      refine ⟨_, rfl, ?_⟩
      have hfreed := hwhole (fs.isblock_iff.mp hblk)
      rw [Group.edit, Group.addFrags] at hfreed
      simp only [← Int.add_assoc] at hfreed
      exact hfreed
    case isFalse hblk => exact ⟨_, rfl, hpart fun hw => hblk (fs.isblock_iff.mpr hw)⟩

theorem clusterLoop_spec (map : Bitmap) (len n i run : Nat) (hrun : run ≤ i)
    (hset : ∀ j, i - run ≤ j → j < i → map.isset j = true) :
    (clusterLoop map len n i run).1 = i + n ∨
      (clusterLoop map len n i run).1 < i + n ∧ (clusterLoop map len n i run).2 = len ∧ 0 < len ∧
        len ≤ (clusterLoop map len n i run).1 + 1 ∧
        ∀ j, (clusterLoop map len n i run).1 + 1 - len ≤ j → j < (clusterLoop map len n i run).1 + 1 →
          map.isset j = true := by
  induction n generalizing i run with
  | zero => exact Or.inl rfl
  | succ n ih =>
    rw [clusterLoop]
    split
    case isTrue hfree =>
      have hset' : ∀ j, i + 1 - (run + 1) ≤ j → j < i + 1 → map.isset j = true := by
        intro j hlow hhigh
        by_cases hj : j = i
        · rwa [hj]
        · exact hset j (by omega) (by omega)
      split
      case isTrue hlen =>
        dsimp only
        exact Or.inr ⟨by omega, hlen, by omega, by omega, by rwa [hlen] at hset'⟩
      case isFalse =>
        have hrest := ih (i + 1) (run + 1) (by omega) hset'
        rwa [show i + 1 + n = i + (n + 1) by omega] at hrest
    case isFalse =>
      have hrest := ih (i + 1) 0 (Nat.zero_le _) fun j hlow hhigh => absurd hhigh (Nat.not_lt.mpr hlow)
      rwa [show i + 1 + n = i + (n + 1) by omega] at hrest

theorem Took.refl (h : Sound fs g) (i : Nat) : Took fs g g i 0 := by
  refine ⟨h, .refl g, fun j hlow hhigh => absurd hhigh (Nat.not_lt.mpr hlow), fun j => ?_⟩
  rw [decide_eq_false (by omega), Bool.not_false, Bool.and_true]

theorem Took.trans {g'' : Group} {k : Nat} (h : Took fs g g' i n) (h' : Took fs g' g'' (i + n) k) :
    Took fs g g'' i (n + k) := by
  refine ⟨h'.sound, h.follows.trans h'.follows, fun j hlow hhigh => ?_, fun j => ?_⟩
  · by_cases hj : j < i + n
    · exact h.free j hlow hj
    · have hfree := h'.free j (by omega) (by omega)
      rw [h.map, Bool.and_eq_true] at hfree
      exact hfree.1
  · rw [h'.map, h.map, Bool.and_assoc, ← Bool.not_or, ← Bool.decide_or]
    congr 3
    apply propext
    omega

theorem takeCluster_spec {bno i b n : Nat} (h : Sound fs g) (hbno : bno + i = g.cg.cgx * fs.fpg + b * fs.frag)
    (hb : b + n ≤ fs.fpg / fs.frag) (hne : bno + i ≠ 0)
    (hwhole : ∀ c, b ≤ c → c < b + n → fs.Wholly g.cg.blksfree.isset c) :
    ∃ g', takeCluster fs bno n i g = some g' ∧ Took fs g g' (b * fs.frag) (n * fs.frag) := by
  induction n generalizing g i b with
  | zero => exact ⟨g, rfl, by rw [Nat.zero_mul]; exact .refl h _⟩
  | succ n ih =>
    have hlt : b < fs.fpg / fs.frag := by omega
    have hfree := hwhole b (Nat.le_refl b) (by omega)
    obtain ⟨g', hgotit, htook⟩ := gotit_spec h hlt hfree
    have hfrag := fs.frag_pos
    have hrest : ∀ c, b + 1 ≤ c → c < b + 1 + n → fs.Wholly g'.cg.blksfree.isset c := by
      intro c hlow hhigh d hd
      have hone := hwhole c (by omega) (by omega) d hd
      have hout : ¬(b * fs.frag ≤ c * fs.frag + d ∧ c * fs.frag + d < b * fs.frag + fs.frag) := by
        rw [fs.mem_block_iff, fs.div_frag hd]
        omega
      rw [htook.map, hone, decide_eq_false hout]
      rfl
    obtain ⟨g'', htake, htook'⟩ := ih (i := i + fs.frag) (b := b + 1) htook.sound
      (by rw [htook.follows.cgx, Nat.succ_mul]; omega) (by omega) (by omega) hrest
    refine ⟨g'', ?_, ?_⟩
    · rw [takeCluster, hbno, alloccgblk_request hlt hfree (by omega), hgotit]
      dsimp only
      rw [if_neg (by simp), htake]
    · rw [Nat.succ_mul] at htook'
      rw [Nat.succ_mul, Nat.add_comm (n * fs.frag)]
      exact htook.trans htook'

/-- `ffs_clusteralloc` searches from a block that is not behind the group, if it searches at all. -/
def Searchable (fs : Fs) (g : Group) (bpref len : Nat) : Prop :=
  len ≤ g.cs.nbfree → (∃ i, len ≤ i ∧ i ≤ fs.contigsumsize ∧ 0 < g.cg.clustersum i) → fs.dtog bpref = g.cg.cgx →
    fs.fragstoblks (fs.dtogd (fs.blknum bpref)) ≤ g.cg.nclusterblks

theorem clusteralloc_spec (h : Sound fs g) (hzero : g.cg.cgx = 0 → g.cg.blksfree.isset 0 = false) (bpref len : Nat)
    (hpref : Searchable fs g bpref len) :
    ∃ bno g', clusteralloc fs g bpref len = some (bno, g') ∧ (bno = 0 ∧ g' = g ∨
      ∃ i, bno = g.cg.cgx * fs.fpg + i ∧ i + len * fs.frag ≤ fs.fpg ∧ 0 < len ∧ Took fs g g' i (len * fs.frag)) := by
  unfold clusteralloc
  split
  case isTrue => exact ⟨0, g, rfl, Or.inl ⟨rfl, rfl⟩⟩
  case isFalse hnbfree =>
    split
    case isTrue => exact ⟨0, g, rfl, Or.inl ⟨rfl, rfl⟩⟩
    case isFalse hsum =>
      dsimp only
      have hsome : ∃ i, len ≤ i ∧ i ≤ fs.contigsumsize ∧ 0 < g.cg.clustersum i := by
        by_contra hnone
        apply hsum
        rw [List.all_eq_true]
        intro i hi
        have hmem := List.mem_range'_1.mp hi
        rw [decide_eq_true_eq]
        by_contra hpos
        exact hnone ⟨i, hmem.1, by omega, by omega⟩
      obtain ⟨start, hstart⟩ : ∃ start, start = if fs.dtog bpref ≠ g.cg.cgx then 0
          else fs.fragstoblks (fs.dtogd (fs.blknum bpref)) := ⟨_, rfl⟩
      have hle : start ≤ g.cg.nclusterblks := by
        rw [hstart]
        split
        case isTrue => exact Nat.zero_le _
        case isFalse heq => exact hpref (by omega) hsome (not_not.mp heq)
      rw [← hstart]
      have hloop := clusterLoop_spec g.cg.clustersfree len (g.cg.nclusterblks - start) start 0 (Nat.zero_le _)
        fun j hlow hhigh => absurd hhigh (Nat.not_lt.mpr hlow)
      rw [Nat.add_sub_cancel' hle] at hloop
      generalize clusterLoop g.cg.clustersfree len (g.cg.nclusterblks - start) start 0 = r at hloop
      obtain ⟨i, run⟩ := r
      dsimp only at hloop ⊢
      rcases hloop with hend | ⟨hlt, rfl, hpos, hlen, hset⟩
      · rw [if_pos hend]
        exact ⟨0, g, rfl, Or.inl ⟨rfl, rfl⟩⟩
      · have hc : fs.contigsumsize ≠ 0 := by
          intro hz
          apply hsum
          rw [hz, show 0 + 1 - run = 0 by omega]
          rfl
        obtain ⟨hncl, hfree, -⟩ := h.good.clustered hc
        have hblks : g.cg.nclusterblks ≤ fs.fpg / fs.frag := by
          rw [hncl]
          exact Nat.div_le_div_right h.good.ndblk
        obtain ⟨b, hb⟩ : ∃ b, b = i + 1 - run := ⟨_, rfl⟩
        rw [← hb, if_neg (by omega)]
        have hwhole : ∀ c, b ≤ c → c < b + run → fs.Wholly g.cg.blksfree.isset c := by
          intro c hlow hhigh
          have hone := hset c (by omega) (by omega)
          rw [hfree] at hone
          exact of_decide_eq_true hone
        have hne : g.cg.cgx * fs.fpg + b * fs.frag ≠ 0 := by
          intro hz
          have hcgx : g.cg.cgx = 0 := by
            rcases Nat.mul_eq_zero.mp (show g.cg.cgx * fs.fpg = 0 by omega) with hc | hc
            · exact hc
            · exact absurd hc fs.fpg_pos.ne'
          have hfirst := hwhole b (Nat.le_refl b) (by omega) 0 fs.frag_pos
          rw [show b * fs.frag + 0 = 0 by omega, hzero hcgx] at hfirst
          cases hfirst
        obtain ⟨g', htake, htook⟩ := takeCluster_spec (i := 0) h
          (show g.cg.cgx * fs.fpg + b * fs.frag + 0 = _ from rfl) (by omega) hne hwhole
        have hend := fs.mul_lt_fpg (show b + run - 1 < fs.fpg / fs.frag by omega)
        rw [← Nat.succ_mul, show (b + run - 1).succ = b + run by omega, Nat.add_mul] at hend
        refine ⟨_, g', ?_, Or.inr ⟨b * fs.frag, rfl, hend, hpos, htook⟩⟩
        exact congrArg (Option.map _) htake

end

end NetBSD.Ffs
