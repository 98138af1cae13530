import NetBSD.Ufs.Getlbns
import Mathlib.Tactic.IntervalCases

/-!
# When the paths are right

They are for a block whose level fits: the number of pointers in an indirect block is at least the level, and `blockcnt`
does not overflow there. From 2048 pointers on, no block with three levels is found.
-/

namespace NetBSD.Ufs

variable {n b l : Nat}

/-- What `ufs_getlbns` should return for a block, and for the indirect blocks above it. A direct block has no path. -/
structure Correct (n b : Nat) : Prop where
  efbig : ufsGetlbns n b = .error .efbig ↔ limit n ≤ b
  path : b < limit n → ufsGetlbns n b = .ok (path n b)
  distinct : ndaddr ≤ b → b < limit n → ∀ b' < limit n, Ufs.path n b = Ufs.path n b' → b = b'
  numbers : b < limit n → ∀ b' < limit n, ∀ i j, 0 < i → 0 < j → ∀ hi : i < (Ufs.path n b).length,
    ∀ hj : j < (Ufs.path n b').length, (Ufs.path n b)[i].inLbn = (Ufs.path n b')[j].inLbn →
      (Ufs.path n b).take i = (Ufs.path n b').take j
  indirect : b < limit n → ∀ i, 0 < i → ∀ hi : i < (Ufs.path n b).length,
    ufsGetlbns n (Ufs.path n b)[i].inLbn = .ok ((Ufs.path n b).take i)

structure Fits (n b : Nat) : Prop where
  levels : levelOf n b ≤ n
  blockcnt : n ^ levelOf n b < 2147483648

theorem levelOf_le (n b : Nat) : levelOf n b ≤ niaddr := by
  unfold levelOf niaddr
  split_ifs <;> omega

theorem path_eq (hlevel : levelOf n b = l + 1) :
    path n b = ⟨-(base n (l + 1) + l : Nat), l⟩ :: pathFrom n (l + 1) (base n (l + 1)) (b - base n (l + 1)) := by
  rw [path, hlevel]

theorem path_nil (hlevel : levelOf n b = 0) : path n b = [] := by
  rw [path, hlevel]

theorem sub_base_lt (hlevel : levelOf n b = l + 1) : b - base n (l + 1) < n ^ (l + 1) := by
  have hle := levelOf_le n b
  obtain ⟨hlow, hhigh⟩ := (levelOf_eq_iff (by omega)).1 hlevel
  rw [base_succ] at hhigh
  omega

theorem getElem_path (hlevel : levelOf n b = l + 1) {i : Nat} (hpos : 0 < i) (hi : i < (path n b).length) :
    i - 1 < l + 1 ∧ (path n b)[i].inLbn = -(base n (l + 1) + metaOff n (l + 1) (i - 1) (b - base n (l + 1)) : Nat) := by
  obtain ⟨i, rfl⟩ := Nat.exists_eq_succ_of_ne_zero hpos.ne'
  have hi' : i < l + 1 := by
    rw [path_eq hlevel, List.length_cons, length_pathFrom] at hi
    exact Nat.lt_of_succ_lt_succ hi
  refine ⟨hi', ?_⟩
  simp only [path_eq hlevel]
  exact getElem_pathFrom _

theorem take_path (hlevel : levelOf n b = l + 1) {i : Nat} (hpos : 0 < i) :
    (path n b).take i = ⟨-(base n (l + 1) + l : Nat), l⟩ ::
      (pathFrom n (l + 1) (base n (l + 1)) (b - base n (l + 1))).take (i - 1) := by
  obtain ⟨i, rfl⟩ := Nat.exists_eq_succ_of_ne_zero hpos.ne'
  rw [path_eq hlevel]
  rfl

theorem pathFrom_inj {k first r r' : Nat} (hr : r < n ^ k) (hr' : r' < n ^ k)
    (heq : pathFrom n k first r = pathFrom n k first r') : r = r' := by
  induction k generalizing first r r' with
  | zero => rw [Nat.lt_one_iff.1 hr, Nat.lt_one_iff.1 hr']
  | succ k ih =>
    rw [pathFrom_succ, pathFrom_succ] at heq
    obtain ⟨hhead, hrest⟩ := List.cons.inj heq
    have hdigit : r / n ^ k = r' / n ^ k := by
      have := congrArg Indir.inOff hhead
      dsimp only at this
      omega
    rw [hdigit] at hrest
    have hpos : 0 < n ^ k := by
      refine Nat.pos_of_ne_zero fun hzero => ?_
      rw [Nat.pow_succ, hzero, Nat.zero_mul] at hr
      exact Nat.not_lt_zero _ hr
    have hmod := ih (Nat.mod_lt r hpos) (Nat.mod_lt r' hpos) hrest
    rw [← Nat.div_add_mod r (n ^ k), ← Nat.div_add_mod r' (n ^ k), hdigit, hmod]

theorem path_inj {b' : Nat} (hdirect : ndaddr ≤ b) (hb : b < limit n) (heq : path n b = path n b') : b = b' := by
  cases hlevel : levelOf n b with
  | zero =>
    exfalso
    have hbase : base n 1 = ndaddr := rfl
    unfold levelOf at hlevel
    split_ifs at hlevel
    all_goals omega
  | succ l =>
    cases hlevel' : levelOf n b' with
    | zero =>
      rw [path_eq hlevel, path_nil hlevel'] at heq
      exact absurd heq (List.cons_ne_nil _ _)
    | succ l' =>
      rw [path_eq hlevel, path_eq hlevel'] at heq
      obtain ⟨hhead, hrest⟩ := List.cons.inj heq
      obtain rfl : l = l' := Int.ofNat.inj (congrArg Indir.inOff hhead)
      have hsub := pathFrom_inj (sub_base_lt hlevel) (sub_base_lt hlevel') hrest
      have hle := levelOf_le n b
      have hle' := levelOf_le n b'
      have hlow := ((levelOf_eq_iff (by omega)).1 hlevel).1
      have hlow' := ((levelOf_eq_iff (by omega)).1 hlevel').1
      omega

theorem pos_of_fits (hfits : Fits n b) (hlevel : levelOf n b = l + 1) : l + 1 ≤ n ∧ n ^ (l + 1) < 2147483648 :=
  ⟨hlevel ▸ hfits.levels, hlevel ▸ hfits.blockcnt⟩

theorem ufsGetlbns_data (hlevel : levelOf n b = l + 1) (hfits : Fits n b) : ufsGetlbns n b = .ok (path n b) := by
  have hle := levelOf_le n b
  obtain ⟨hn, hcnt⟩ := pos_of_fits hfits hlevel
  have hfirst : 0 < base n (l + 1) := Nat.lt_of_lt_of_le (by decide : 0 < ndaddr) (base_mono n (i := 1) (by omega) (by omega))
  rw [ufsGetlbns_eq (by omega) (by omega) hlevel hcnt (.inl rfl), pathLoop_data (by omega) hfirst,
    Nat.mod_eq_of_lt (sub_base_lt hlevel), path_eq hlevel]

theorem levelOf_meta {t r : Nat} (hl : l < niaddr) (hn : l + 1 ≤ n) (ht : t < l + 1) (hr : r < n ^ (l + 1)) :
    metaOff n (l + 1) t r < n ^ (l + 1) ∧ levelOf n (base n (l + 1) + metaOff n (l + 1) t r) = l + 1 := by
  have hlt : metaOff n (l + 1) t r < n ^ (l + 1) := by
    rcases Nat.lt_or_ge n 2 with hsmall | hn2
    · obtain rfl : l = 0 := by omega
      obtain rfl : t = 0 := by omega
      exact Nat.pow_pos (by omega)
    · exact metaOff_lt hn2 ht hr
  refine ⟨hlt, (levelOf_eq_iff hl).2 ⟨Nat.le_add_right _ _, ?_⟩⟩
  rw [base_succ]
  exact Nat.add_lt_add_left hlt _

theorem ufsGetlbns_meta (hlevel : levelOf n b = l + 1) (hfits : Fits n b) {i : Nat} (hpos : 0 < i)
    (hi : i < (path n b).length) : ufsGetlbns n (path n b)[i].inLbn = .ok ((path n b).take i) := by
  have hle := levelOf_le n b
  obtain ⟨hn, hcnt⟩ := pos_of_fits hfits hlevel
  obtain ⟨ht, hlbn⟩ := getElem_path hlevel hpos hi
  obtain ⟨hlt, hlevel'⟩ := levelOf_meta (by omega) hn ht (sub_base_lt hlevel)
  have hmod : (base n (l + 1) + metaOff n (l + 1) (i - 1) (b - base n (l + 1)) - base n (l + 1)) % n ^ (l + 1) =
      metaOff n (l + 1) (i - 1) (b - base n (l + 1)) := by
    rw [Nat.add_sub_cancel_left, Nat.mod_eq_of_lt hlt]
  rw [hlbn, ufsGetlbns_eq (by omega) (by omega) hlevel' hcnt (.inr rfl), pathLoop_meta _ hn ht (sub_base_lt hlevel) hmod,
    take_path hlevel hpos]

theorem level_of_number {l' t t' r r' : Nat} (hl : l < niaddr) (hn : l + 1 ≤ n) (ht : t < l + 1)
    (ht' : t' < l' + 1) (hr : r < n ^ (l + 1)) (hr' : r' < n ^ (l' + 1))
    (heq : base n (l + 1) + metaOff n (l + 1) t r = base n (l' + 1) + metaOff n (l' + 1) t' r') : l = l' := by
  obtain ⟨hlt, -⟩ := levelOf_meta hl hn ht hr
  rcases Nat.lt_trichotomy l l' with hlt' | heq' | hgt
  · have hmono := base_mono n (show l + 2 ≤ l' + 1 by omega) (by omega)
    rw [base_succ] at hmono
    omega
  · exact heq'
  · have hmono := base_mono n (show l' + 2 ≤ l + 1 by omega) (by omega)
    have hlt'' := metaOff_lt (show 2 ≤ n by omega) ht' hr'
    rw [base_succ] at hmono
    omega

theorem numbers_of_fits {b' : Nat} (hlevel : levelOf n b = l + 1) (hfits : Fits n b) {i j : Nat} (hi₀ : 0 < i) (hj₀ : 0 < j)
    (hi : i < (path n b).length) (hj : j < (path n b').length)
    (heq : (path n b)[i].inLbn = (path n b')[j].inLbn) : (path n b).take i = (path n b').take j := by
  have hle := levelOf_le n b
  have hle' := levelOf_le n b'
  obtain ⟨hn, hcnt⟩ := pos_of_fits hfits hlevel
  obtain ⟨ht, hlbn⟩ := getElem_path hlevel hi₀ hi
  cases hlevel' : levelOf n b' with
  | zero =>
    rw [path_nil hlevel'] at hj
    exact absurd hj (Nat.not_lt_zero _)
  | succ l' =>
    obtain ⟨ht', hlbn'⟩ := getElem_path hlevel' hj₀ hj
    rw [hlbn, hlbn'] at heq
    have hnum := Int.ofNat.inj (Int.neg_inj.1 heq)
    obtain rfl := level_of_number (by omega) hn ht ht' (sub_base_lt hlevel) (sub_base_lt hlevel') hnum
    have hoff := Nat.add_left_cancel hnum
    obtain ⟨hlt, -⟩ := levelOf_meta (by omega) hn ht (sub_base_lt hlevel)
    have hpath := pathLoop_meta (base n (l + 1)) hn ht (sub_base_lt hlevel) (Nat.mod_eq_of_lt hlt)
    have hpath' := pathLoop_meta (base n (l + 1)) hn ht' (sub_base_lt hlevel')
      (hoff ▸ Nat.mod_eq_of_lt hlt)
    rw [← hoff, hpath] at hpath'
    rw [take_path hlevel hi₀, take_path hlevel' hj₀, hpath']

theorem square_lt {e : Nat} (he : e ≤ 12) (hl : l ≤ 2) : (2 ^ e) ^ l < 2147483648 := by
  rw [← Nat.pow_mul]
  calc 2 ^ (e * l) ≤ 2 ^ 24 := Nat.pow_le_pow_right (by decide) (Nat.mul_le_mul he hl)
    _ < 2147483648 := by decide

theorem levelLoop_overflow {e : Nat} (he : e = 11 ∨ e = 12) {x : Int} (hx : 0 ≤ x) :
    levelLoop (2 ^ e : Nat) 1 (((2 ^ e) ^ 2 : Nat) : Int) x = none := by
  have hzero : int32 ((((2 ^ e) ^ 2 : Nat) : Int) * ((2 ^ e : Nat) : Int)) = 0 := by
    rcases he with rfl | rfl <;> decide
  rw [levelLoop, hzero]
  exact if_neg (Int.not_lt.2 hx)

theorem levelLoop_none {e : Nat} (he : e ≤ 12) (hb : base (2 ^ e) 3 ≤ b)
    (hnone : limit (2 ^ e) ≤ b ∨ e = 11 ∨ e = 12) :
    levelLoop (2 ^ e : Nat) niaddr 1 ((b : Int) - ndaddr) = none := by
  have h12 := base_mono (2 ^ e) (show 1 ≤ 2 by omega) (by omega)
  have h23 := base_mono (2 ^ e) (show 2 ≤ 3 by omega) (by omega)
  have hfirst : (b : Int) - ndaddr = (b : Int) - base (2 ^ e) 1 := rfl
  have hone : (1 : Int) = ((2 ^ e) ^ 0 : Nat) := rfl
  unfold niaddr
  rw [hfirst, hone, levelLoop_step (j := 0) (square_lt he (by omega)) (h12.trans (h23.trans hb)),
    if_neg (Nat.not_lt.2 (h23.trans hb)), levelLoop_step (j := 1) (square_lt he (by omega)) (h23.trans hb),
    if_neg (Nat.not_lt.2 hb)]
  by_cases hover : e = 11 ∨ e = 12
  · exact levelLoop_overflow hover (Int.sub_nonneg_of_le (Int.ofNat_le.2 hb))
  · have hfits : (2 ^ e) ^ 3 < 2147483648 := by
      rw [← Nat.pow_mul]
      calc 2 ^ (e * 3) ≤ 2 ^ 30 := Nat.pow_le_pow_right (by decide) (by omega)
        _ < 2147483648 := by decide
    have hge : base (2 ^ e) (2 + 2) ≤ b := hnone.resolve_right hover
    rw [levelLoop_step (j := 2) hfits hb, if_neg (Nat.not_lt.2 hge)]
    rfl

theorem ufsGetlbns_none {e : Nat} (he : e ≤ 12) (hb : base (2 ^ e) 3 ≤ b)
    (hnone : limit (2 ^ e) ≤ b ∨ e = 11 ∨ e = 12) : ufsGetlbns (2 ^ e : Nat) b = .error .efbig := by
  have hdirect : ndaddr ≤ base (2 ^ e) 3 := base_mono (2 ^ e) (i := 1) (by omega) (by omega)
  have hbn : (if (b : Int) < 0 then -(b : Int) else b) = b := if_neg (by omega)
  have hlarge : ¬ (b : Int) < ndaddr := by omega
  simp only [ufsGetlbns, hbn, if_neg hlarge, levelLoop_none he hb hnone]

theorem direct_of_level_zero (hlevel : levelOf n b = 0) (hb : b < limit n) : b < ndaddr := by
  have hbase : base n 1 = ndaddr := rfl
  unfold levelOf at hlevel
  split_ifs at hlevel
  omega

theorem limit_le_of_none (hlevel : levelOf n b = l + 1) : b < limit n := by
  have hle := levelOf_le n b
  have hmono := base_mono n (show l + 2 ≤ niaddr + 1 by omega) (by omega)
  exact Nat.lt_of_lt_of_le ((levelOf_eq_iff (by omega)).1 hlevel).2 hmono

theorem ufsGetlbns_direct (hb : b < ndaddr) : ufsGetlbns n b = .ok [] := by
  have hbn : (if (b : Int) < 0 then -(b : Int) else b) = b := if_neg (by omega)
  have hsmall : (b : Int) < ndaddr := Int.ofNat_lt.2 hb
  rw [ufsGetlbns, hbn, if_pos hsmall]

theorem not_correct_of_few {e : Nat} (hlevel : levelOf (2 ^ e) b = l + 1) (hfew : 2 ^ e < l + 1) :
    ¬ Correct (2 ^ e) b := by
  intro hc
  have hle := levelOf_le (2 ^ e) b
  unfold niaddr at hle
  obtain ⟨hlow, hhigh⟩ := (levelOf_eq_iff (by unfold niaddr; omega)).1 hlevel
  have he : e < 2 := by
    by_contra hge
    have := Nat.pow_le_pow_right (show 0 < 2 by omega) (Nat.le_of_not_lt hge)
    omega
  obtain rfl | rfl : e = 0 ∨ e = 1 := by omega
  · obtain rfl | rfl : l = 1 ∨ l = 2 := by omega
    · obtain rfl : b = 13 := by
        change 13 ≤ b at hlow
        change b < 14 at hhigh
        omega
      have := hc.numbers (by decide) 14 (by decide) 1 3 (by decide) (by decide) (by decide) (by decide) (by decide)
      exact absurd this (by decide)
    · obtain rfl : b = 14 := by
        change 14 ≤ b at hlow
        change b < 15 at hhigh
        omega
      have := hc.numbers (by decide) 13 (by decide) 3 1 (by decide) (by decide) (by decide) (by decide) (by decide)
      exact absurd this (by decide)
  · obtain rfl : l = 2 := by omega
    change 18 ≤ b at hlow
    change b < 26 at hhigh
    have hnum : ∀ b, 18 ≤ b → b < 26 → ∃ hi : 1 < (path (2 ^ 1) b).length, ∃ hj : 3 < (path (2 ^ 1) 20).length,
        (path (2 ^ 1) b)[1].inLbn = (path (2 ^ 1) 20)[3].inLbn ∧ (path (2 ^ 1) b).take 1 ≠ (path (2 ^ 1) 20).take 3 := by
      intro b hlow hhigh
      interval_cases b <;> exact ⟨by decide, by decide, by decide, by decide⟩
    obtain ⟨hi, hj, heq, hne⟩ := hnum b hlow hhigh
    exact hne (hc.numbers (limit_le_of_none hlevel) 20 (by decide) 1 3 (by decide) (by decide) hi hj heq)

/-- `ufs_getlbns` is right for the blocks whose level fits, and for no others. -/
theorem getlbns_correct (e b : Nat) (he : e ≤ 12) : Correct (2 ^ e) b ↔ Fits (2 ^ e) b := by
  constructor
  · intro hc
    cases hlevel : levelOf (2 ^ e) b with
    | zero => exact ⟨hlevel ▸ Nat.zero_le _, hlevel ▸ (by decide : 1 < 2147483648)⟩
    | succ l =>
      have hle := levelOf_le (2 ^ e) b
      unfold niaddr at hle
      refine ⟨hlevel ▸ Nat.le_of_not_lt fun hfew => not_correct_of_few hlevel hfew hc, hlevel ▸ ?_⟩
      by_cases hl : l + 1 ≤ 2
      · exact square_lt he hl
      · obtain rfl : l = 2 := by omega
        by_contra hbig
        have he' : e = 11 ∨ e = 12 := by
          by_contra hsmall
          refine hbig ?_
          rw [← Nat.pow_mul]
          calc 2 ^ (e * 3) ≤ 2 ^ 30 := Nat.pow_le_pow_right (by decide) (by omega)
            _ < 2147483648 := by decide
        have hlow := ((levelOf_eq_iff (by decide)).1 hlevel).1
        have hlimit := limit_le_of_none hlevel
        exact absurd (hc.efbig.1 (ufsGetlbns_none he hlow (.inr he'))) (Nat.not_le.2 hlimit)
  · intro hfits
    by_cases hb : b < limit (2 ^ e)
    · have hdata : ufsGetlbns (2 ^ e : Nat) b = .ok (path (2 ^ e) b) := by
        cases hlevel : levelOf (2 ^ e) b with
        | zero => rw [ufsGetlbns_direct (direct_of_level_zero hlevel hb), path_nil hlevel]
        | succ l => exact ufsGetlbns_data hlevel hfits
      have hlevel_of : ∀ i, i < (path (2 ^ e) b).length → ∃ l, levelOf (2 ^ e) b = l + 1 := by
        intro i hi
        refine Nat.exists_eq_succ_of_ne_zero fun hzero => ?_
        rw [path_nil hzero] at hi
        exact Nat.not_lt_zero _ hi
      refine ⟨?_, fun _ => hdata, fun hdirect _ b' _ heq => path_inj hdirect hb heq,
        fun _ b' _ i j hi₀ hj₀ hi hj heq => ?_, fun _ i hi₀ hi => ?_⟩
      · rw [hdata]
        exact iff_of_false nofun (Nat.not_le.2 hb)
      · obtain ⟨l, hlevel⟩ := hlevel_of i hi
        exact numbers_of_fits hlevel hfits hi₀ hj₀ hi hj heq
      · obtain ⟨l, hlevel⟩ := hlevel_of i hi
        exact ufsGetlbns_meta hlevel hfits hi₀ hi
    · have hle := Nat.le_of_not_lt hb
      have hmono : base (2 ^ e) 3 ≤ limit (2 ^ e) := base_mono _ (by decide) (by decide)
      refine ⟨iff_of_true (ufsGetlbns_none he (hmono.trans hle) (.inl hle)) hle, fun h => absurd h hb,
        fun _ h => absurd h hb, fun h => absurd h hb, fun h => absurd h hb⟩

/-- A block with three levels, 1024 pointers in each indirect block. -/
theorem getlbns_correct_thousand : Correct (2 ^ 10) 1050636 :=
  (getlbns_correct 10 1050636 (by decide)).2 ⟨by decide, by decide⟩

/-- The first block with three levels, where an indirect block of 8192 bytes has 2048 pointers. -/
theorem getlbns_efbig : 4196364 < limit (2 ^ 11) ∧ ufsGetlbns (2 ^ 11) 4196364 = .error .efbig ∧
    ¬ Correct (2 ^ 11) 4196364 := by
  have hbig : ufsGetlbns (2 ^ 11) 4196364 = .error .efbig := by rfl
  have hlt : 4196364 < limit (2 ^ 11) := by decide
  exact ⟨hlt, hbig, fun h => Nat.not_le.2 hlt (h.efbig.1 hbig)⟩

end NetBSD.Ufs
