import NetBSD.Ffs.Volume
import NetBSD.Lib.Runs

/-!
# The bookkeeping of a file system

Each call keeps all cylinder groups consistent, unless a buffer is taken with changes that nobody has marked.
-/

namespace NetBSD.Ffs

open Lib (Runs)

section

variable {fs : Fs} {u : Use} {v : Volume} {g : Group} {b bno cg d i j n size : Nat}

theorem dtog_add (hi : i < fs.fpg) : fs.dtog (cg * fs.fpg + i) = cg := by
  rw [Fs.dtog, Nat.add_comm, Nat.add_mul_div_right _ _ fs.fpg_pos, Nat.div_eq_of_lt hi, Nat.zero_add]

theorem dtog_dtogd (fs : Fs) (bno : Nat) : fs.dtog bno * fs.fpg + fs.dtogd bno = bno := Nat.div_add_mod' bno fs.fpg

theorem dtogd_block (h : fs.fragnum bno + n ≤ fs.frag) (hn : 0 < n) :
    fs.dtogd bno < fs.fpg ∧ fs.dtogd bno % fs.frag + n ≤ fs.frag ∧ fs.dtogd bno + n ≤ fs.fpg := by
  have hlt : fs.dtogd bno < fs.fpg := Nat.mod_lt _ fs.fpg_pos
  have hmod : fs.dtogd bno % fs.frag = fs.fragnum bno := Nat.mod_mod_of_dvd bno fs.frag_dvd
  have hblk := fs.mul_lt_fpg (Nat.div_lt_div_of_lt_of_dvd fs.frag_dvd hlt)
  have hdiv := Nat.div_add_mod' (fs.dtogd bno) fs.frag
  exact ⟨hlt, by omega, by omega⟩

theorem other_group {c : Nat} (hc : c ≠ cg) (hi : i + n ≤ fs.fpg) (hj : j < fs.fpg) :
    ¬(cg * fs.fpg + i ≤ c * fs.fpg + j ∧ c * fs.fpg + j < cg * fs.fpg + i + n) := by
  rintro ⟨hlow, hhigh⟩
  apply hc
  have hplace : c * fs.fpg + j = cg * fs.fpg + (c * fs.fpg + j - cg * fs.fpg) := by omega
  calc
    c = fs.dtog (c * fs.fpg + j) := (dtog_add hj).symm
    _ = fs.dtog (cg * fs.fpg + (c * fs.fpg + j - cg * fs.fpg)) := by rw [← hplace]
    _ = cg := dtog_add (by omega)

theorem group_release_self (cg : Nat) (delwri : Bool) : (v.release cg g delwri).group cg = g := by
  simp only [Volume.group, Volume.bread, Volume.release, Function.update_self, Option.getD_some]

theorem group_release_of_ne {c : Nat} (hc : c ≠ cg) (delwri : Bool) :
    (v.release cg g delwri).group c = { v.group c with cstotal := g.cstotal } := by
  simp only [Volume.group, Volume.bread, Volume.release, Function.update_of_ne hc]

theorem bread_write (cg c : Nat) : ((v.write cg).bread c).data = (v.bread c).data := by
  unfold Volume.write
  split
  case isTrue =>
    by_cases hc : c = cg
    · simp only [Volume.bread, hc, Function.update_self, Option.getD_some]
    · simp only [Volume.bread, Function.update_of_ne hc]
  case isFalse => rfl

theorem group_write (cg c : Nat) : (v.write cg).group c = v.group c := by
  have hcs : (v.write cg).cs = v.cs ∧ (v.write cg).cstotal = v.cstotal := by
    unfold Volume.write
    split <;> exact ⟨rfl, rfl⟩
  rw [Volume.group, bread_write, hcs.1, hcs.2]
  rfl

theorem group_reclaim (h : (v.bread cg).delwri = true ∨ (v.bread cg).data = v.disk cg) (c : Nat) :
    (v.reclaim cg).group c = v.group c := by
  have hdisk : (v.write cg).disk cg = (v.bread cg).data := by
    unfold Volume.write
    split
    case isTrue => exact Function.update_self ..
    case isFalse hclean => exact (h.resolve_left hclean).symm
  rw [← group_write (v := v) cg c]
  unfold Volume.reclaim
  by_cases hc : c = cg
  · have hdata := bread_write (v := v) cg cg
    simp only [Volume.group, Volume.bread, hc, Function.update_self, Option.getD_none] at hdata ⊢
    rw [hdata, hdisk]
    rfl
  · simp only [Volume.group, Volume.bread, Function.update_of_ne hc]

theorem Consistent.congr {v : Volume} {alloc : Nat → Bool} (h : Consistent fs u) (hgroup : ∀ cg, v.group cg = u.volume.group cg)
    (halloc : ∀ j, alloc j = u.alloc j) : Consistent fs ⟨v, alloc⟩ := by
  have hcs : ∀ cg, v.cs cg = u.volume.cs cg := fun cg => congrArg Group.cs (hgroup cg)
  have htotal : v.cstotal = u.volume.cstotal := congrArg Group.cstotal (hgroup 0)
  refine ⟨h.size, fun cg hcg => ?_, fun cg hcg => ?_, fun cg hcg => ?_, ?_, ?_, fun cg hcg i hi => ?_, fun j hj => ?_, ?_⟩
  · rw [hgroup]
    exact h.cgx cg hcg
  · rw [hgroup]
    exact h.ndblk cg hcg
  · rw [hgroup]
    exact h.sound cg hcg
  · simp only [htotal, hcs, h.nbfree]
  · simp only [htotal, hcs, h.nffree]
  · simp only [hgroup, halloc] at hi ⊢
    exact h.map cg hcg i hi
  · exact h.inside j (halloc j ▸ hj)
  · exact (halloc 0).trans h.first

theorem Consistent.release (h : Consistent fs u) (hcg : cg < fs.ncg) (hg : Sound fs g) (hfollows : Follows (u.volume.group cg) g)
    {alloc : Nat → Bool} (hmap : ∀ i < g.cg.ndblk, g.cg.blksfree.isset i = !alloc (cg * fs.fpg + i))
    (hother : ∀ c, c ≠ cg → ∀ i < fs.fpg, alloc (c * fs.fpg + i) = u.alloc (c * fs.fpg + i))
    (hinside : ∀ j, alloc j = true → j < fs.size) (hfirst : alloc 0 = true) (delwri : Bool) :
    Consistent fs ⟨u.volume.release cg g delwri, alloc⟩ := by
  have hsum : ∀ f : Csum → Int, f g.cstotal = f u.volume.cstotal + (f g.cs - f (u.volume.cs cg)) →
      f u.volume.cstotal = ∑ c ∈ Finset.range fs.ncg, f (u.volume.cs c) →
      f g.cstotal = ∑ c ∈ Finset.range fs.ncg, f (Function.update u.volume.cs cg g.cs c) := by
    intro f hchange hold
    have hmem := Finset.mem_range.mpr hcg
    have hrest : ∑ c ∈ (Finset.range fs.ncg).erase cg, f (Function.update u.volume.cs cg g.cs c) =
        ∑ c ∈ (Finset.range fs.ncg).erase cg, f (u.volume.cs c) :=
      Finset.sum_congr rfl fun c hc => by rw [Function.update_of_ne (Finset.ne_of_mem_erase hc)]
    have hbefore := Finset.sum_erase_add (Finset.range fs.ncg) (fun c => f (u.volume.cs c)) hmem
    have hafter := Finset.sum_erase_add (Finset.range fs.ncg) (fun c => f (Function.update u.volume.cs cg g.cs c)) hmem
    rw [Function.update_self] at hafter
    omega
  refine ⟨h.size, fun c hc => ?_, fun c hc => ?_, fun c hc => ?_, ?_, ?_, fun c hc => ?_, hinside, hfirst⟩
  · by_cases hcc : c = cg
    · rw [hcc, group_release_self, hfollows.cgx, h.cgx cg hcg]
    · rw [group_release_of_ne hcc]
      exact h.cgx c hc
  · by_cases hcc : c = cg
    · rw [hcc, group_release_self, hfollows.ndblk, h.ndblk cg hcg]
    · rw [group_release_of_ne hcc]
      exact h.ndblk c hc
  · by_cases hcc : c = cg
    · rw [hcc, group_release_self]
      exact hg
    · rw [group_release_of_ne hcc]
      obtain ⟨hgood, hnb, hnf⟩ := h.sound c hc
      exact ⟨hgood, hnb, hnf⟩
  · exact hsum Csum.nbfree hfollows.nbfree h.nbfree
  · exact hsum Csum.nffree hfollows.nffree h.nffree
  · by_cases hcc : c = cg
    · rw [hcc, group_release_self]
      exact hmap
    · rw [group_release_of_ne hcc]
      intro i hi
      have hndblk := h.ndblk c hc
      have hlt : i < (u.volume.group c).cg.ndblk := hi
      show (u.volume.group c).cg.blksfree.isset i = _
      have hsame := hother c hcc i (by omega)
      rw [h.map c hc i hlt, ← hsame]

theorem Consistent.not_alloc (h : Consistent fs u) (hcg : cg < fs.ncg)
    (hfree : (u.volume.group cg).cg.blksfree.isset i = true) : u.alloc (cg * fs.fpg + i) = false := by
  have hbit := h.map cg hcg i ((h.sound cg hcg).good.bits i hfree)
  rw [hfree] at hbit
  exact Bool.not_eq_true' _ ▸ hbit.symm

theorem Consistent.took (h : Consistent fs u) (hcg : cg < fs.ncg) (htook : Took fs (u.volume.group cg) g i n)
    (hend : i + n ≤ fs.fpg) (delwri : Bool) {alloc : Nat → Bool}
    (halloc : ∀ j, alloc j = (u.alloc j || decide (cg * fs.fpg + i ≤ j ∧ j < cg * fs.fpg + i + n))) :
    Consistent fs ⟨u.volume.release cg g delwri, alloc⟩ := by
  have hndblk := h.ndblk cg hcg
  refine h.release hcg htook.sound htook.follows (fun j hj => ?_) (fun c hc j hj => ?_) (fun j hj => ?_) ?_ delwri
  · rw [htook.follows.ndblk] at hj
    rw [htook.map, h.map cg hcg j hj, halloc, Bool.not_or]
    congr 2
    rw [decide_eq_decide]
    omega
  · rw [halloc, decide_eq_false (other_group hc hend hj), Bool.or_false]
  · rw [halloc, Bool.or_eq_true, decide_eq_true_eq] at hj
    rcases hj with hj | hj
    · exact h.inside j hj
    · have hbit := (h.sound cg hcg).good.bits _ (htook.free (j - cg * fs.fpg) (by omega) (by omega))
      omega
  · rw [halloc, h.first, Bool.true_or]

theorem Consistent.fresh (h : Consistent fs u) (hcg : cg < fs.ncg) (htook : Took fs (u.volume.group cg) g i n)
    (hlow : cg * fs.fpg + i ≤ j) (hhigh : j < cg * fs.fpg + i + n) : u.alloc j = false := by
  have hfree := h.not_alloc hcg (htook.free (j - cg * fs.fpg) (by omega) (by omega))
  rwa [show cg * fs.fpg + (j - cg * fs.fpg) = j by omega] at hfree

theorem Consistent.ne_zero (h : Consistent fs u) (hcg : cg < fs.ncg) (htook : Took fs (u.volume.group cg) g i n)
    (hn : 0 < n) : cg * fs.fpg + i ≠ 0 := by
  intro hz
  have hfree := h.fresh hcg htook (Nat.le_refl _) (by omega)
  rw [hz, h.first] at hfree
  cases hfree

theorem Consistent.freed (h : Consistent fs u) (hcg : cg < fs.ncg) (hfreed : Freed fs (u.volume.group cg) g i n)
    (hend : i + n ≤ fs.fpg) (hne : cg * fs.fpg + i ≠ 0) (delwri : Bool) {alloc : Nat → Bool}
    (halloc : ∀ j, alloc j = (u.alloc j && !decide (cg * fs.fpg + i ≤ j ∧ j < cg * fs.fpg + i + n))) :
    Consistent fs ⟨u.volume.release cg g delwri, alloc⟩ := by
  refine h.release hcg hfreed.sound hfreed.follows (fun j hj => ?_) (fun c hc j hj => ?_) (fun j hj => ?_) ?_ delwri
  · rw [hfreed.follows.ndblk] at hj
    rw [hfreed.map, h.map cg hcg j hj, halloc, Bool.not_and, Bool.not_not]
    congr 1
    rw [decide_eq_decide]
    omega
  · rw [halloc, decide_eq_false (other_group hc hend hj), Bool.not_false, Bool.and_true]
  · rw [halloc, Bool.and_eq_true] at hj
    exact h.inside j hj.1
  · rw [halloc, h.first, decide_eq_false (by omega)]
    rfl

theorem Consistent.brelse (h : Consistent fs u) (cg : Nat) (delwri : Bool) {alloc : Nat → Bool}
    (halloc : ∀ j, alloc j = u.alloc j) :
    Consistent fs ⟨u.volume.release cg (u.volume.group cg) delwri, alloc⟩ := by
  refine h.congr (fun c => ?_) halloc
  by_cases hc : c = cg
  · rw [hc, group_release_self]
  · rw [group_release_of_ne hc]
    rfl

theorem Consistent.holds (h : Consistent fs u) (hn : 0 < fs.numfrags size) (hholds : u.Holds fs bno size) :
    fs.dtog bno < fs.ncg ∧ (∀ j, fs.dtogd bno ≤ j → j < fs.dtogd bno + fs.numfrags size →
      (u.volume.group (fs.dtog bno)).cg.blksfree.isset j = false) ∧
      fs.dtogd bno + fs.numfrags size ≤ (u.volume.group (fs.dtog bno)).cg.ndblk ∧ bno < fs.size := by
  obtain ⟨hfits, halloc⟩ := hholds
  obtain ⟨hlt, -, hend⟩ := dtogd_block hfits hn
  have hplace := dtog_dtogd fs bno
  have hsize := h.inside bno (halloc bno (Nat.le_refl _) (by omega))
  have hcg : fs.dtog bno < fs.ncg := by
    by_contra hge
    have hle := Nat.mul_le_mul_right fs.fpg (Nat.le_of_not_lt hge)
    have hall := h.size
    omega
  have hlast := h.inside (bno + fs.numfrags size - 1) (halloc _ (by omega) (by omega))
  have hndblk := h.ndblk _ hcg
  refine ⟨hcg, fun j hlow hhigh => ?_, by omega, hsize⟩
  rw [h.map _ hcg j (by omega), halloc _ (by omega) (by omega)]
  rfl

theorem size_eq (hdvd : fs.fsize ∣ size) : size = fs.numfrags size * fs.fsize := (Nat.div_mul_cancel hdvd).symm

theorem numfrags_le (hle : size ≤ fs.bsize) : fs.numfrags size ≤ fs.frag := by
  have hmono := Nat.div_le_div_right (c := fs.fsize) hle
  rwa [Fs.bsize, Nat.mul_div_cancel _ fs.fsize_pos] at hmono

theorem numfrags_pos (hdvd : fs.fsize ∣ size) (hpos : 0 < size) : 0 < fs.numfrags size :=
  Nat.div_pos (Nat.le_of_dvd hpos hdvd) fs.fsize_pos

theorem alloc_same (a : Bool) (i j : Nat) : ((a || decide (i ≤ j ∧ j < i + 0)) && !decide (0 ≤ j ∧ j < 0 + 0)) = a := by
  rw [decide_eq_false (by omega), decide_eq_false (by omega), Bool.or_false]
  exact Bool.and_true a

theorem alloc_more (a : Bool) (i j n : Nat) :
    ((a || decide (i ≤ j ∧ j < i + n)) && !decide (0 ≤ j ∧ j < 0 + 0)) = (a || decide (i ≤ j ∧ j < i + n)) := by
  rw [decide_eq_false (show ¬(0 ≤ j ∧ j < 0 + 0) by omega)]
  exact Bool.and_true _

theorem alloc_less (a b : Bool) (j : Nat) : ((a || decide (0 ≤ j ∧ j < 0 + 0)) && b) = (a && b) := by
  rw [decide_eq_false (show ¬(0 ≤ j ∧ j < 0 + 0) by omega), Bool.or_false]

theorem Consistent.alloccg (h : Consistent fs u) (hcg : cg < fs.ncg) (hdvd : fs.fsize ∣ size) (hpos : 0 < size)
    (hle : size ≤ fs.bsize) (bpref : Nat) : ∃ bno u', u.call fs (.alloccg cg bpref size) = some (bno, u') ∧
      u.Fresh fs (.alloccg cg bpref size) bno ∧ Consistent fs u' := by
  obtain ⟨bno, g', halloc, hresult⟩ := alloccg_spec (h.sound cg hcg) (numfrags_pos hdvd hpos) (numfrags_le hle) bpref
  rw [← size_eq hdvd, h.cgx cg hcg] at *
  refine ⟨bno, _, by rw [Use.call, Volume.call, halloc]; rfl, ?_, ?_⟩
  · rcases hresult with ⟨rfl, -⟩ | ⟨i, rfl, -, -, htook⟩
    · intro j hlow hhigh
      exact absurd hhigh (Nat.not_lt.mpr hlow)
    · intro j hlow hhigh
      rw [Call.allocated, if_neg (h.ne_zero hcg htook (numfrags_pos hdvd hpos))] at hlow hhigh
      exact h.fresh hcg htook hlow hhigh
  · rcases hresult with ⟨rfl, rfl⟩ | ⟨i, rfl, -, hend, htook⟩
    · exact h.brelse cg _ fun j => alloc_same ..
    · have hne := h.ne_zero hcg htook (numfrags_pos hdvd hpos)
      simp only [if_neg hne, Call.allocated, Call.freed]
      exact h.took hcg htook hend true fun j => alloc_more ..

theorem Consistent.fragextend (h : Consistent fs u) {bprev osize nsize : Nat} (hodvd : fs.fsize ∣ osize)
    (hndvd : fs.fsize ∣ nsize) (hpos : 0 < osize) (hon : osize ≤ nsize) (hle : nsize ≤ fs.bsize)
    (hz : bprev ≠ 0) (hholds : u.Holds fs bprev osize) : ∃ bno u', u.call fs (.fragextend bprev osize nsize) = some (bno, u') ∧
      u.Fresh fs (.fragextend bprev osize nsize) bno ∧ Consistent fs u' := by
  have ho := numfrags_pos hodvd hpos
  have hfrags : fs.numfrags osize ≤ fs.numfrags nsize := Nat.div_le_div_right hon
  obtain ⟨hcg, hclear, -, -⟩ := h.holds ho hholds
  obtain ⟨hlt, hin, -⟩ := dtogd_block hholds.1 ho
  have hextend := fragextend_spec (h.sound _ hcg) hlt ho hfrags (numfrags_le hle) hin hclear
  rw [← size_eq hodvd, ← size_eq hndvd, h.cgx _ hcg, dtog_dtogd] at hextend
  rcases hextend with hnone | ⟨g', hsome, hfits, htook⟩
  · refine ⟨0, _, by rw [Use.call, Volume.call, hnone]; rfl, fun j hlow hhigh => ?_, ?_⟩
    · exact absurd hhigh (Nat.not_lt.mpr hlow)
    · exact h.brelse _ _ fun j => alloc_same ..
  · have hplace := dtog_dtogd fs bprev
    have hend := fs.mul_lt_fpg (Nat.div_lt_div_of_lt_of_dvd fs.frag_dvd hlt)
    have hdiv := Nat.div_add_mod' (fs.dtogd bprev) fs.frag
    have hstart : fs.dtog bprev * fs.fpg + (fs.dtogd bprev + fs.numfrags osize) = bprev + fs.numfrags osize := by omega
    have halloc : ∀ alloc : Nat → Bool, (∀ j, alloc j = (u.alloc j || decide (bprev + fs.numfrags osize ≤ j ∧
        j < bprev + fs.numfrags osize + (fs.numfrags nsize - fs.numfrags osize)))) →
        Consistent fs ⟨u.volume.release (fs.dtog bprev) g' true, alloc⟩ := by
      intro alloc heq
      refine h.took hcg htook (by omega) true fun j => ?_
      rw [heq, hstart]
    refine ⟨bprev, _, by rw [Use.call, Volume.call, hsome]; rfl, fun j hlow hhigh => ?_, ?_⟩
    · rw [Call.allocated, if_neg hz] at hlow hhigh
      refine h.fresh hcg htook ?_ ?_
      · rw [hstart]
        exact hlow
      · rw [hstart]
        exact hhigh
    · simp only [if_neg hz, Call.allocated, Call.freed]
      exact halloc _ fun j => alloc_more ..

theorem Consistent.clusteralloc (h : Consistent fs u) (hcg : cg < fs.ncg) {bpref len : Nat}
    (hpref : Searchable fs (u.volume.group cg) bpref len) : ∃ bno u', u.call fs (.clusteralloc cg bpref len) = some (bno, u') ∧
      u.Fresh fs (.clusteralloc cg bpref len) bno ∧ Consistent fs u' := by
  have hzero : (u.volume.group cg).cg.cgx = 0 → (u.volume.group cg).cg.blksfree.isset 0 = false := by
    intro hcgx
    rw [h.cgx cg hcg] at hcgx
    by_contra hfree
    have hclear := h.not_alloc hcg ((Bool.not_eq_false _).mp hfree)
    rw [hcgx, Nat.zero_mul, h.first] at hclear
    cases hclear
  obtain ⟨bno, g', halloc, hresult⟩ := clusteralloc_spec (h.sound cg hcg) hzero bpref len hpref
  rw [h.cgx cg hcg] at hresult
  refine ⟨bno, _, by rw [Use.call, Volume.call, halloc]; rfl, ?_, ?_⟩
  · rcases hresult with ⟨rfl, -⟩ | ⟨i, rfl, -, hlen, htook⟩
    · intro j hlow hhigh
      exact absurd hhigh (Nat.not_lt.mpr hlow)
    · intro j hlow hhigh
      rw [Call.allocated, if_neg (h.ne_zero hcg htook (Nat.mul_pos hlen fs.frag_pos))] at hlow hhigh
      exact h.fresh hcg htook hlow hhigh
  · rcases hresult with ⟨rfl, rfl⟩ | ⟨i, rfl, hend, hlen, htook⟩
    · exact h.brelse cg _ fun j => alloc_same ..
    · have hne := h.ne_zero hcg htook (Nat.mul_pos hlen fs.frag_pos)
      simp only [if_neg hne, Call.allocated, Call.freed]
      exact h.took hcg htook hend _ fun j => alloc_more ..

theorem Consistent.blkfree (h : Consistent fs u) (hdvd : fs.fsize ∣ size) (hpos : 0 < size) (hne : bno ≠ 0)
    (hholds : u.Holds fs bno size) : ∃ r u', u.call fs (.blkfree bno size) = some (r, u') ∧
      u.Fresh fs (.blkfree bno size) r ∧ Consistent fs u' := by
  have hn := numfrags_pos hdvd hpos
  obtain ⟨hcg, hclear, hndblk, hsize⟩ := h.holds hn hholds
  obtain ⟨hlt, hin, hend⟩ := dtogd_block hholds.1 hn
  have hplace := dtog_dtogd fs bno
  obtain ⟨g', hfree, hfreed⟩ := blkfree_spec (h.sound _ hcg) hlt hn hin hclear hndblk (by rwa [h.cgx _ hcg, hplace])
  rw [← size_eq hdvd, h.cgx _ hcg, hplace] at hfree
  refine ⟨0, _, by rw [Use.call, Volume.call, hfree]; rfl, fun j hlow hhigh => ?_, ?_⟩
  · exact absurd hhigh (Nat.not_lt.mpr hlow)
  · simp only [if_neg (Nat.not_le.mpr hsize), Call.allocated, Call.freed]
    refine h.freed hcg hfreed hend (by rwa [hplace]) true fun j => ?_
    rw [hplace]
    exact alloc_less ..

theorem Consistent.call (h : Consistent fs u) (c : Call) (hallowed : u.Allowed fs c) (hcareful : u.Careful fs c) :
    ∃ bno u', u.call fs c = some (bno, u') ∧ u.Fresh fs c bno ∧ Consistent fs u' := by
  cases c with
  | alloccg cg bpref size =>
    obtain ⟨hcg, hdvd, hpos, hle⟩ := hallowed
    exact h.alloccg hcg hdvd hpos hle bpref
  | fragextend bprev osize nsize =>
    obtain ⟨hodvd, hndvd, hpos, hon, hle, hne, hholds⟩ := hallowed
    exact h.fragextend hodvd hndvd hpos hon hle hne hholds
  | clusteralloc cg bpref len => exact h.clusteralloc hallowed hcareful
  | blkfree bno size =>
    obtain ⟨hdvd, hpos, -, hne, hholds⟩ := hallowed
    exact h.blkfree hdvd hpos hne hholds
  | write cg =>
    refine ⟨0, _, rfl, fun j hlow hhigh => absurd hhigh (Nat.not_lt.mpr hlow), ?_⟩
    exact h.congr (group_write cg) fun j => alloc_same ..
  | reclaim cg =>
    refine ⟨0, _, rfl, fun j hlow hhigh => absurd hhigh (Nat.not_lt.mpr hlow), ?_⟩
    exact h.congr (group_reclaim hcareful) fun j => alloc_same ..

end

end NetBSD.Ffs
