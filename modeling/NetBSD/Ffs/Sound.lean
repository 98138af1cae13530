import NetBSD.Ffs.Clusters

/-!
# Consistent groups

A group is sound when its summaries agree with its map, also the one in `fs_cs`. One block changes in each operation,
and the summaries follow.
-/

namespace NetBSD.Ffs

open Lib (Bitmap IsSpan spans)

structure Sound (fs : Fs) (g : Group) : Prop where
  good : Good fs g.cg
  nbfree : g.cs.nbfree = g.cg.nbfree
  nffree : g.cs.nffree = g.cg.nffree

structure Follows (g g' : Group) : Prop where
  cgx : g'.cg.cgx = g.cg.cgx
  ndblk : g'.cg.ndblk = g.cg.ndblk
  nbfree : g'.cstotal.nbfree = g.cstotal.nbfree + (g'.cs.nbfree - g.cs.nbfree)
  nffree : g'.cstotal.nffree = g.cstotal.nffree + (g'.cs.nffree - g.cs.nffree)

theorem Follows.refl (g : Group) : Follows g g := ⟨rfl, rfl, by omega, by omega⟩

theorem Follows.trans {g g' g'' : Group} (h : Follows g g') (h' : Follows g' g'') : Follows g g'' := by
  obtain ⟨hcgx, hndblk, hnb, hnf⟩ := h
  obtain ⟨hcgx', hndblk', hnb', hnf'⟩ := h'
  exact ⟨hcgx'.trans hcgx, hndblk'.trans hndblk, by omega, by omega⟩

section

variable {fs : Fs} {g : Group} {m : Bitmap} {frsum : Nat → Int} {b : Nat} {d n : Int}

def Group.edit (g : Group) (m : Bitmap) (frsum : Nat → Int) (d : Int) : Group :=
  Group.addFrags { g with cg := { g.cg with blksfree := m, frsum } } d

def Group.account (fs : Fs) (g : Group) (b : Nat) (n : Int) : Group :=
  (Group.addBlocks { g with cg := clusteracct fs g.cg b n } n).addPos fs (b * fs.frag) n

structure Edit (fs : Fs) (g : Group) (b : Nat) (m : Bitmap) (frsum : Nat → Int) (d : Int) : Prop where
  lt : b < fs.fpg / fs.frag
  map : ∀ j, j / fs.frag ≠ b → m.isset j = g.cg.blksfree.isset j
  bits : ∀ j, m.isset j = true → j < g.cg.ndblk
  nffree : d = fs.loose m.isset b - fs.loose g.cg.blksfree.isset b
  frsum : ∀ k, 0 < k → k < fs.frag →
    frsum k = g.cg.frsum k + (fs.pieces m.isset k b - fs.pieces g.cg.blksfree.isset k b)

theorem Edit.sound (h : Sound fs g) (he : Edit fs g b m frsum d) (hold : ¬fs.Wholly g.cg.blksfree.isset b)
    (hnew : ¬fs.Wholly m.isset b) : Sound fs (g.edit m frsum d) ∧ Follows g (g.edit m frsum d) := by
  have hwhole : fs.whole g.cg.blksfree.isset b = 0 := if_neg hold
  have hwhole' : fs.whole m.isset b = 0 := if_neg hnew
  have hother : ∀ c, (fs.Wholly m.isset c ↔ fs.Wholly g.cg.blksfree.isset c) := by
    intro c
    by_cases hc : c = b
    · rw [hc]
      exact iff_of_false hnew hold
    · apply fs.wholly_congr
      rintro j rfl
      exact he.map j hc
  refine ⟨⟨⟨h.good.ndblk, he.bits, h.good.rotor, h.good.frotor, ?_, ?_⟩, h.nbfree, ?_⟩, rfl, rfl, ?_, ?_⟩
  · apply h.good.counted.change he.lt he.map
    · show g.cg.nbfree = g.cg.nbfree + _
      rw [show (g.edit m frsum d).cg.blksfree = m from rfl, hwhole, hwhole']
      omega
    · show g.cg.nffree + d = _
      rw [he.nffree]
      rfl
    · exact he.frsum
    · intro c
      rw [show (g.edit m frsum d).cg.blksfree = m from rfl, hwhole, hwhole', Int.sub_self, ite_self, Int.add_zero]
      rfl
    · intro c r
      rw [show (g.edit m frsum d).cg.blksfree = m from rfl, hwhole, hwhole', Int.sub_self, ite_self, Int.add_zero]
      rfl
  · intro hc
    obtain ⟨hncl, hfree, hsum⟩ := h.good.clustered hc
    refine ⟨hncl, fun c => ?_, hsum⟩
    rw [show (g.edit m frsum d).cg.clustersfree = g.cg.clustersfree from rfl, hfree c, decide_eq_decide]
    exact (hother c).symm
  · show g.cs.nffree + d = g.cg.nffree + d
    rw [h.nffree]
  · show g.cstotal.nbfree = g.cstotal.nbfree + (g.cs.nbfree - g.cs.nbfree)
    omega
  · show g.cstotal.nffree + d = g.cstotal.nffree + (g.cs.nffree + d - g.cs.nffree)
    omega

theorem Edit.account (h : Sound fs g) (he : Edit fs g b m frsum d)
    (hn : n = 1 ∧ ¬fs.Wholly g.cg.blksfree.isset b ∧ fs.Wholly m.isset b ∨
      n = -1 ∧ fs.Wholly g.cg.blksfree.isset b ∧ ¬fs.Wholly m.isset b) :
    Sound fs ((g.edit m frsum d).account fs b n) ∧ Follows g ((g.edit m frsum d).account fs b n) ∧
      ((g.edit m frsum d).account fs b n).cg.blksfree = m := by
  have hdiff : n = fs.whole m.isset b - fs.whole g.cg.blksfree.isset b := by
    rcases hn with ⟨rfl, hold, hnew⟩ | ⟨rfl, hold, hnew⟩
    · rw [Fs.whole, Fs.whole, if_neg hold, if_pos hnew]
      rfl
    · rw [Fs.whole, Fs.whole, if_pos hold, if_neg hnew]
      rfl
  obtain ⟨clustersfree, clustersum, hacct⟩ := clusteracct_eq fs (g.edit m frsum d).cg b n
  have hcg : ((g.edit m frsum d).account fs b n).cg = { (clusteracct fs (g.edit m frsum d).cg b n) with
      nbfree := g.cg.nbfree + n
      blks := Function.update g.cg.blks (fs.cyl b)
        (Function.update (g.cg.blks (fs.cyl b)) (fs.rpos b) (g.cg.blks (fs.cyl b) (fs.rpos b) + n))
      blktot := Function.update g.cg.blktot (fs.cyl b) (g.cg.blktot (fs.cyl b) + n) } := by
    unfold Group.account
    rw [hacct]
    rfl
  have hblks : ((g.edit m frsum d).account fs b n).cg.blksfree = m := by
    rw [hcg, hacct]
    rfl
  have hclustered : fs.contigsumsize ≠ 0 → Clustered fs (clusteracct fs (g.edit m frsum d).cg b n) := by
    intro hc
    -- A wholly free block ends inside the group.
    have hlt : b < g.cg.ndblk / fs.frag := by
      have hlast : b * fs.frag + (fs.frag - 1) < g.cg.ndblk := by
        have hpos := fs.frag_pos
        rcases hn with ⟨-, -, hnew⟩ | ⟨-, hold, -⟩
        · exact he.bits _ (hnew _ (by omega))
        · exact h.good.bits _ (hold _ (by omega))
      rw [Nat.lt_iff_add_one_le, Nat.le_div_iff_mul_le fs.frag_pos, Nat.add_mul]
      omega
    exact (h.good.clustered hc).acct fs hc rfl rfl rfl rfl hlt he.map hn
  refine ⟨⟨⟨?_, ?_, ?_, ?_, ?_, ?_⟩, ?_, ?_⟩, ⟨?_, ?_, ?_, ?_⟩, hblks⟩
  · rw [hcg, hacct]
    exact h.good.ndblk
  · rw [hblks, hcg, hacct]
    exact he.bits
  · rw [hcg, hacct]
    exact h.good.rotor
  · rw [hcg, hacct]
    exact h.good.frotor
  · apply h.good.counted.change he.lt
    · rw [hblks]
      exact he.map
    · rw [hblks, ← hdiff, hcg]
    · rw [hblks, ← he.nffree, hcg, hacct]
      rfl
    · intro k hk hkf
      rw [hblks, hcg, hacct]
      exact he.frsum k hk hkf
    · intro c
      rw [hblks, ← hdiff, hcg]
      show Function.update g.cg.blktot (fs.cyl b) (g.cg.blktot (fs.cyl b) + n) c = _
      rw [update_add]
      simp only [eq_comm]
    · intro c r
      rw [hblks, ← hdiff, hcg]
      show Function.update g.cg.blks (fs.cyl b) (Function.update (g.cg.blks (fs.cyl b)) (fs.rpos b)
        (g.cg.blks (fs.cyl b) (fs.rpos b) + n)) c r = _
      by_cases hc : c = fs.cyl b
      · subst hc
        rw [Function.update_self, update_add]
        simp only [true_and, eq_comm]
      · rw [Function.update_of_ne hc, if_neg (fun h => hc h.1.symm), Int.add_zero]
  · intro hc
    obtain ⟨hncl, hfree, hsum⟩ := hclustered hc
    rw [hcg]
    exact ⟨hncl, hfree, hsum⟩
  · rw [hcg]
    show g.cs.nbfree + n = g.cg.nbfree + n
    rw [h.nbfree]
  · rw [hcg, hacct]
    show g.cs.nffree + d = g.cg.nffree + d
    rw [h.nffree]
  · rw [hcg, hacct]
    rfl
  · rw [hcg, hacct]
    rfl
  · show g.cstotal.nbfree + n = g.cstotal.nbfree + (g.cs.nbfree + n - g.cs.nbfree)
    omega
  · show g.cstotal.nffree + d = g.cstotal.nffree + (g.cs.nffree + d - g.cs.nffree)
    omega

end

end NetBSD.Ffs
