import NetBSD.Ffs.Summary

/-!
# The account of clusters

`ffs_clusteracct` keeps the map of clusters and its summary when a block is taken or becomes free.
-/

namespace NetBSD.Ffs

open Lib (Bitmap Block Cleared capped)

section

variable (map : Bitmap)

theorem forwLoop_spec (n i : Nat) : forwLoop map n i ≤ n ∧ (∀ j < forwLoop map n i, map.isset (i + j) = true) ∧
    (forwLoop map n i = n ∨ map.isset (i + forwLoop map n i) = false) := by
  induction n generalizing i with
  | zero => exact ⟨Nat.le_refl _, fun j hj => absurd hj (Nat.not_lt_zero j), Or.inl rfl⟩
  | succ n ih =>
    rw [forwLoop]
    split
    case isTrue hset =>
      obtain ⟨hle, hall, hend⟩ := ih (i + 1)
      refine ⟨by omega, fun j hj => ?_, ?_⟩
      · rcases Nat.eq_zero_or_pos j with hz | hpos
        · rwa [hz]
        · have hone := hall (j - 1) (by omega)
          rwa [show i + 1 + (j - 1) = i + j by omega] at hone
      · rw [show i + (forwLoop map n (i + 1) + 1) = i + 1 + forwLoop map n (i + 1) by omega]
        exact hend.imp (congrArg (· + 1)) id
    case isFalse hclear => exact ⟨by omega, fun j hj => absurd hj (Nat.not_lt_zero j), Or.inr (by simpa using hclear)⟩

theorem forwLoop_min (n m i : Nat) : forwLoop map (min n m) i = min (forwLoop map n i) m := by
  induction n generalizing m i with
  | zero => simp [forwLoop]
  | succ n ih =>
    cases m with
    | zero => simp [forwLoop]
    | succ m =>
      rw [Nat.add_min_add_right, forwLoop, forwLoop, ih]
      split
      · rw [Nat.add_min_add_right]
      · simp

theorem backLoop_spec (n i : Nat) (h : n ≤ i) : backLoop map n i ≤ n ∧
    (∀ j, i - backLoop map n i ≤ j → j < i → map.isset j = true) ∧
    (backLoop map n i = n ∨ map.isset (i - backLoop map n i - 1) = false) := by
  induction n generalizing i with
  | zero => exact ⟨Nat.le_refl _, fun j hle hlt => absurd hlt (Nat.not_lt.mpr hle), Or.inl rfl⟩
  | succ n ih =>
    rw [backLoop]
    split
    case isTrue hset =>
      obtain ⟨hle, hall, hend⟩ := ih (i - 1) (by omega)
      refine ⟨by omega, fun j hj hji => ?_, ?_⟩
      · by_cases hlast : j = i - 1
        · rwa [hlast]
        · exact hall j (by omega) (by omega)
      · rw [show i - (backLoop map n (i - 1) + 1) = i - 1 - backLoop map n (i - 1) by omega]
        exact hend.imp (congrArg (· + 1)) id
    case isFalse hclear =>
      exact ⟨by omega, fun j hle hlt => absurd hlt (Nat.not_lt.mpr hle), Or.inr (by simpa using hclear)⟩

theorem backLoop_min (n m i : Nat) : backLoop map (min n m) i = min (backLoop map n i) m := by
  induction n generalizing m i with
  | zero => simp [backLoop]
  | succ n ih =>
    cases m with
    | zero => simp [backLoop]
    | succ m =>
      rw [Nat.add_min_add_right, backLoop, backLoop, ih]
      split
      · rw [Nat.add_min_add_right]
      · simp

end

section

variable (fs : Fs) {cgp : Cg} {b k : Nat} {cnt : Int}

theorem cleared_bit (map : Bitmap) {n b : Nat} (hb : b < n) : Cleared (map.setbit b).isset (map.clrbit b).isset 0 n
    (b - backLoop map b b) (b + 1 + forwLoop map (n - (b + 1)) (b + 1)) b 1 := by
  obtain ⟨hfle, hfall, hfend⟩ := forwLoop_spec map (n - (b + 1)) (b + 1)
  obtain ⟨hble, hball, hbend⟩ := backLoop_spec map b b (Nat.le_refl b)
  have hset : ∀ j, j ≠ b → (map.setbit b).isset j = map.isset j := by
    intro j hj
    rw [Bitmap.isset_setbit, decide_eq_false hj, Bool.or_false]
  have hclr : ∀ j, j ≠ b → (map.clrbit b).isset j = map.isset j := by
    intro j hj
    rw [Bitmap.isset_clrbit, decide_eq_false hj, Bool.not_false, Bool.and_true]
  refine ⟨⟨Nat.zero_le _, by omega, fun j hlow hhigh => ?_, ?_, ?_⟩, by omega, Nat.one_pos, by omega, ?_, ?_⟩
  · rcases Nat.lt_trichotomy j b with hlt | rfl | hgt
    · rw [hset j hlt.ne]
      exact hball j hlow hlt
    · rw [Bitmap.isset_setbit, decide_eq_true rfl, Bool.or_true]
    · rw [hset j hgt.ne']
      have hone := hfall (j - (b + 1)) (by omega)
      rwa [show b + 1 + (j - (b + 1)) = j by omega] at hone
  · by_cases hz : b - backLoop map b b = 0
    · exact Or.inl hz
    · rw [hset _ (by omega)]
      exact Or.inr (hbend.resolve_left (by omega))
  · by_cases hn : b + 1 + forwLoop map (n - (b + 1)) (b + 1) = n
    · exact Or.inl hn
    · rw [hset _ (by omega)]
      exact Or.inr (hfend.resolve_left (by omega))
  · intro j hlow hhigh
    have hj : j = b := by omega
    rw [hj, Bitmap.isset_clrbit, decide_eq_true rfl, Bool.not_true, Bool.and_false]
  · intro j hj
    rw [hset j (by omega), hclr j (by omega)]

theorem forwLoop_congr {map map' : Bitmap} (n i : Nat) (h : ∀ j, i ≤ j → map'.isset j = map.isset j) :
    forwLoop map' n i = forwLoop map n i := by
  induction n generalizing i with
  | zero => rfl
  | succ n ih => rw [forwLoop, forwLoop, h i (Nat.le_refl i), ih (i + 1) fun j hj => h j (by omega)]

theorem backLoop_congr {map map' : Bitmap} (n i : Nat) (hn : n ≤ i) (h : ∀ j < i, map'.isset j = map.isset j) :
    backLoop map' n i = backLoop map n i := by
  induction n generalizing i with
  | zero => rfl
  | succ n ih => rw [backLoop, backLoop, h (i - 1) (by omega), ih (i - 1) (by omega) fun j hj => h j (by omega)]

theorem update_add (f : Nat → Int) (i k : Nat) (d : Int) :
    Function.update f i (f i + d) k = f k + if k = i then d else 0 := by
  by_cases h : k = i
  · rw [h, Function.update_self, if_pos rfl]
  · rw [Function.update_of_ne h, if_neg h, Int.add_zero]

theorem clusteracct_sum (cnt : Int) (hc : fs.contigsumsize ≠ 0) (hb : b < cgp.nclusterblks) (k : Nat) :
    (clusteracct fs cgp b cnt).clustersum k = cgp.clustersum k +
      cnt * (capped (cgp.clustersfree.setbit b).isset 0 cgp.nclusterblks fs.contigsumsize k -
        capped (cgp.clustersfree.clrbit b).isset 0 cgp.nclusterblks fs.contigsumsize k) := by
  have hcapped := (cleared_bit cgp.clustersfree hb).capped_eq fs.contigsumsize k
  obtain ⟨F, hF⟩ : ∃ F, F = forwLoop cgp.clustersfree (cgp.nclusterblks - (b + 1)) (b + 1) := ⟨_, rfl⟩
  obtain ⟨B, hB⟩ : ∃ B, B = backLoop cgp.clustersfree b b := ⟨_, rfl⟩
  have hBle : B ≤ b := hB ▸ (backLoop_spec cgp.clustersfree b b (Nat.le_refl b)).1
  rw [← hF, ← hB, show b + 1 + F - (b - B) = B + F + 1 by omega, show b - (b - B) = B by omega,
    show b + 1 + F - (b + 1) = F by omega] at hcapped
  -- The loops run over a map that has the block as it will be, which they do not look at.
  have hforw : ∀ map : Bitmap, (∀ j, j ≠ b → map.isset j = cgp.clustersfree.isset j) →
      forwLoop map ((if b + 1 + fs.contigsumsize ≥ cgp.nclusterblks then cgp.nclusterblks
        else b + 1 + fs.contigsumsize) - (b + 1)) (b + 1) = min F fs.contigsumsize := by
    intro map hmap
    have hmin : (if b + 1 + fs.contigsumsize ≥ cgp.nclusterblks then cgp.nclusterblks
        else b + 1 + fs.contigsumsize) - (b + 1) = min (cgp.nclusterblks - (b + 1)) fs.contigsumsize := by
      split <;> omega
    rw [hmin, forwLoop_min, forwLoop_congr _ _ fun j hj => hmap j (by omega), hF]
  have hback : ∀ map : Bitmap, (∀ j, j ≠ b → map.isset j = cgp.clustersfree.isset j) →
      backLoop map (min b fs.contigsumsize) b = min B fs.contigsumsize := by
    intro map hmap
    rw [backLoop_min, backLoop_congr _ _ (Nat.le_refl b) fun j hj => hmap j (by omega), hB]
  have hnew : ∀ j, j ≠ b → (if cnt > 0 then cgp.clustersfree.setbit b else cgp.clustersfree.clrbit b).isset j =
      cgp.clustersfree.isset j := by
    intro j hj
    split
    · rw [Bitmap.isset_setbit, decide_eq_false hj, Bool.or_false]
    · rw [Bitmap.isset_clrbit, decide_eq_false hj, Bool.not_false, Bool.and_true]
  unfold clusteracct
  rw [if_neg hc]
  dsimp only
  rw [hforw _ hnew, hback _ hnew]
  have hi : (if min B fs.contigsumsize + min F fs.contigsumsize + 1 > fs.contigsumsize then fs.contigsumsize
      else min B fs.contigsumsize + min F fs.contigsumsize + 1) = min (B + F + 1) fs.contigsumsize := by
    split <;> omega
  rw [hi]
  obtain ⟨sump, hsump⟩ : ∃ sump, sump = Function.update cgp.clustersum (min (B + F + 1) fs.contigsumsize)
      (cgp.clustersum (min (B + F + 1) fs.contigsumsize) + cnt) := ⟨_, rfl⟩
  have hone : sump k = cgp.clustersum k + if min (B + F + 1) fs.contigsumsize = k then cnt else 0 := by
    rw [hsump, update_add]
    simp only [eq_comm]
  have hsub : ∀ (sump : Nat → Int) (n : Nat), (if min n fs.contigsumsize > 0 then
      Function.update sump (min n fs.contigsumsize) (sump (min n fs.contigsumsize) - cnt) else sump) k =
      sump k - if 0 < n ∧ min n fs.contigsumsize = k then cnt else 0 := by
    intro sump n
    by_cases hn : 0 < n
    · rw [if_pos (show min n fs.contigsumsize > 0 by omega), Int.sub_eq_add_neg, update_add]
      simp only [hn, true_and, eq_comm]
      split <;> omega
    · rw [if_neg (show ¬min n fs.contigsumsize > 0 by omega)]
      simp only [hn, false_and, if_false, Int.sub_zero]
  have hmul : ∀ (P : Prop) [Decidable P], (if P then cnt else 0) = cnt * ((if P then 1 else 0 : Nat) : Int) := by
    intro P _
    split <;> simp
  rw [← hsump, hsub, hsub, hone, hmul, hmul, hmul]
  have hdiff : (capped (cgp.clustersfree.setbit b).isset 0 cgp.nclusterblks fs.contigsumsize k -
      capped (cgp.clustersfree.clrbit b).isset 0 cgp.nclusterblks fs.contigsumsize k : Int) =
      (if min (B + F + 1) fs.contigsumsize = k then 1 else 0 : Nat) -
        (if 0 < B ∧ min B fs.contigsumsize = k then 1 else 0 : Nat) -
        (if 0 < F ∧ min F fs.contigsumsize = k then 1 else 0 : Nat) := by
    omega
  rw [hdiff, Int.mul_sub, Int.mul_sub]
  omega

theorem clusteracct_eq (cgp : Cg) (b : Nat) (cnt : Int) : ∃ clustersfree clustersum,
    clusteracct fs cgp b cnt = { cgp with clustersfree, clustersum } := by
  unfold clusteracct
  split
  · exact ⟨cgp.clustersfree, cgp.clustersum, rfl⟩
  · exact ⟨_, _, rfl⟩

theorem clusteracct_free (cgp : Cg) (b : Nat) (cnt : Int) (hc : fs.contigsumsize ≠ 0) : (clusteracct fs cgp b cnt).clustersfree =
    if cnt > 0 then cgp.clustersfree.setbit b else cgp.clustersfree.clrbit b := by
  unfold clusteracct
  rw [if_neg hc]

theorem Clustered.acct {cg : Cg} (h : Clustered fs cg) (hc : fs.contigsumsize ≠ 0) (hndblk : cgp.ndblk = cg.ndblk)
    (hncl : cgp.nclusterblks = cg.nclusterblks) (hfree : cgp.clustersfree = cg.clustersfree)
    (hsum : cgp.clustersum = cg.clustersum) (hb : b < cg.ndblk / fs.frag)
    (hmap : ∀ j, j / fs.frag ≠ b → cgp.blksfree.isset j = cg.blksfree.isset j)
    (hcnt : cnt = 1 ∧ ¬fs.Wholly cg.blksfree.isset b ∧ fs.Wholly cgp.blksfree.isset b ∨
      cnt = -1 ∧ fs.Wholly cg.blksfree.isset b ∧ ¬fs.Wholly cgp.blksfree.isset b) :
    Clustered fs (clusteracct fs cgp b cnt) := by
  have hblk : b < cgp.nclusterblks := by rw [hncl, h.nclusterblks]; exact hb
  have hsum' := clusteracct_sum fs cnt hc hblk
  have hfree' := clusteracct_free fs cgp b cnt hc
  have hstatic : (clusteracct fs cgp b cnt).ndblk = cg.ndblk ∧ (clusteracct fs cgp b cnt).nclusterblks = cg.nclusterblks ∧
      (clusteracct fs cgp b cnt).blksfree = cgp.blksfree := by
    obtain ⟨clustersfree, clustersum, heq⟩ := clusteracct_eq fs cgp b cnt
    rw [heq]
    exact ⟨hndblk, hncl, rfl⟩
  obtain ⟨hndblk', hncl', hblks⟩ := hstatic
  rw [hncl, hfree, hsum] at hsum'
  rw [hfree] at hfree'
  have hother : ∀ d, d ≠ b → (fs.Wholly cgp.blksfree.isset d ↔ fs.Wholly cg.blksfree.isset d) := by
    intro d hd
    apply fs.wholly_congr
    rintro j rfl
    exact hmap j hd
  have hsame : ∀ m : Bitmap, (∀ j, m.isset j = cg.clustersfree.isset j) → ∀ k,
      capped m.isset 0 cg.nclusterblks fs.contigsumsize k =
        capped cg.clustersfree.isset 0 cg.nclusterblks fs.contigsumsize k := by
    intro m hm k
    rw [show m.isset = cg.clustersfree.isset from funext hm]
  rcases hcnt with ⟨rfl, hold, hnew⟩ | ⟨rfl, hold, hnew⟩
  · rw [if_pos (by decide)] at hfree'
    refine ⟨by rw [hncl', hndblk', h.nclusterblks], fun d => ?_, fun k hk hkc => ?_⟩
    · rw [hfree', hblks, Bitmap.isset_setbit, h.clustersfree]
      by_cases hd : d = b
      · rw [hd, decide_eq_true hnew, decide_eq_true rfl, Bool.or_true]
      · rw [decide_eq_false hd, Bool.or_false, decide_eq_decide]
        exact (hother d hd).symm
    · rw [hsum', hncl', hfree', h.clustersum k hk hkc, hsame (cg.clustersfree.clrbit b), Int.one_mul]
      · omega
      · intro j
        rw [Bitmap.isset_clrbit]
        by_cases hj : j = b
        · rw [hj, h.clustersfree, decide_eq_false hold, Bool.false_and]
        · rw [decide_eq_false hj, Bool.not_false, Bool.and_true]
  · rw [if_neg (by decide)] at hfree'
    refine ⟨by rw [hncl', hndblk', h.nclusterblks], fun d => ?_, fun k hk hkc => ?_⟩
    · rw [hfree', hblks, Bitmap.isset_clrbit, h.clustersfree]
      by_cases hd : d = b
      · rw [hd, decide_eq_false hnew, decide_eq_true rfl, Bool.not_true, Bool.and_false]
      · rw [decide_eq_false hd, Bool.not_false, Bool.and_true, decide_eq_decide]
        exact (hother d hd).symm
    · rw [hsum', hncl', hfree', h.clustersum k hk hkc, hsame (cg.clustersfree.setbit b), Int.neg_mul, Int.one_mul]
      · omega
      · intro j
        rw [Bitmap.isset_setbit]
        by_cases hj : j = b
        · rw [hj, h.clustersfree, decide_eq_true hold, Bool.true_or]
        · rw [decide_eq_false hj, Bool.or_false]

end

end NetBSD.Ffs
