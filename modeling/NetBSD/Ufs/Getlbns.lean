import Mathlib.Data.Nat.Init
import Mathlib.Data.Int.Order.Basic
import Mathlib.Algebra.Ring.Int.Defs
import Mathlib.Algebra.Ring.Nat
import Mathlib.Tactic.Ring

/-!
# Paths to the blocks of a file

`ufs_getlbns` of `ufs_bmap.c`. `blockcnt` is an `int`; all other numbers fit their types.
-/

namespace NetBSD.Ufs

def ndaddr : Nat := 12
def niaddr : Nat := 3

structure Indir where
  inLbn : Int
  inOff : Int
  deriving DecidableEq

inductive Errno where
  | efbig
  deriving DecidableEq

def int32 (x : Int) : Int := x.bmod 4294967296

def levelLoop (nindir : Int) : Nat → Int → Int → Option (Nat × Int × Int)
  | 0, _, _ => none
  | i + 1, blockcnt, bn =>
    let blockcnt := int32 (blockcnt * nindir)
    if bn < blockcnt then some (i + 1, blockcnt, bn) else levelLoop nindir i blockcnt (bn - blockcnt)

def pathLoop (nindir realbn bn : Int) : Nat → Int → Int → List Indir
  | 0, _, _ => []
  | levels + 1, metalbn, blockcnt =>
    if metalbn = realbn then []
    else
      let blockcnt := blockcnt / nindir
      let off := bn / blockcnt % nindir
      ⟨metalbn, off⟩ :: pathLoop nindir realbn bn levels (metalbn - (-1 + off * blockcnt)) blockcnt

def ufsGetlbns (nindir realbn : Int) : Except Errno (List Indir) :=
  let bn := if realbn < 0 then -realbn else realbn
  if bn < ndaddr then .ok []
  else
    match levelLoop nindir niaddr 1 (bn - ndaddr) with
    | none => .error .efbig
    | some (i, blockcnt, bn) =>
      let metalbn := if realbn ≥ 0 then -(realbn - bn + niaddr - i) else -(-realbn - bn + niaddr - i)
      .ok (⟨metalbn, niaddr - i⟩ :: pathLoop nindir realbn bn (niaddr + 1 - i) metalbn blockcnt)

/-- The first block that is reached through `level` levels of indirect blocks, with `n` pointers in each. -/
def base (n : Nat) : Nat → Nat
  | 0 => 0
  | 1 => ndaddr
  | level + 2 => base n (level + 1) + n ^ (level + 1)

def limit (n : Nat) : Nat := base n (niaddr + 1)

def levelOf (n b : Nat) : Nat :=
  if b < base n 1 then 0 else if b < base n 2 then 1 else if b < base n 3 then 2 else if b < limit n then 3 else 0

/-- The offsets are the digits of `r`, and an indirect block with `k` levels below it that begins with the block `first` has
the number `-(first + k)`. -/
def pathFrom (n : Nat) : Nat → Nat → Nat → List Indir
  | 0, _, _ => []
  | k + 1, first, r => ⟨-(first + k : Nat), (r / n ^ k : Nat)⟩ :: pathFrom n k (first + r / n ^ k * n ^ k) (r % n ^ k)

def path (n b : Nat) : List Indir :=
  match levelOf n b with
  | 0 => []
  | k + 1 => ⟨-(base n (k + 1) + k : Nat), k⟩ :: pathFrom n (k + 1) (base n (k + 1)) (b - base n (k + 1))

end NetBSD.Ufs

/-!
## The paths that ufs_getlbns returns

For every level, the path to a data block is its number in digits, and the number of an indirect block leads back to the
part of the path before it, as long as there are at least as many pointers in a block as levels and `blockcnt` is not too
large for an `int`.
-/

namespace NetBSD.Ufs

variable {n b k r first t : Nat}

theorem int32_of_lt {x : Nat} (hlt : x < 2147483648) : int32 x = x := by
  unfold int32
  rw [Int.bmod_eq_of_le] <;> omega

/-- How far the number of an indirect block on a path, below a block with `k` levels, is from the first block of that. -/
def metaOff (n : Nat) : Nat → Nat → Nat → Nat
  | 0, _, _ => 0
  | k + 1, 0, _ => k
  | k + 1, t + 1, r => r / n ^ k * n ^ k + metaOff n k t (r % n ^ k)

theorem length_pathFrom (n k first r : Nat) : (pathFrom n k first r).length = k := by
  induction k generalizing first r with
  | zero => rfl
  | succ k ih => rw [pathFrom, List.length_cons, ih]

theorem getElem_pathFrom (ht : t < (pathFrom n k first r).length) :
    (pathFrom n k first r)[t].inLbn = -(first + metaOff n k t r : Nat) := by
  induction k generalizing t first r with
  | zero => exact absurd ht (Nat.not_lt_zero _)
  | succ k ih =>
    cases t with
    | zero => rfl
    | succ t =>
      simp only [pathFrom, List.getElem_cons_succ]
      rw [ih, metaOff, Nat.add_assoc]

theorem metaOff_lt (hn : 2 ≤ n) (ht : t < k) (hr : r < n ^ k) : metaOff n k t r < n ^ k := by
  induction k generalizing t r with
  | zero => exact absurd ht (Nat.not_lt_zero _)
  | succ k ih =>
    cases t with
    | zero => exact Nat.lt_of_lt_of_le (Nat.lt_pow_self hn) (Nat.pow_le_pow_right (by omega) k.le_succ)
    | succ t =>
      have hpos : 0 < n ^ k := Nat.pow_pos (by omega)
      have hdigit : r / n ^ k < n := Nat.div_lt_of_lt_mul (by rw [← Nat.pow_succ]; exact hr)
      have hrest := ih (Nat.lt_of_succ_lt_succ ht) (Nat.mod_lt r hpos)
      calc metaOff n (k + 1) (t + 1) r < r / n ^ k * n ^ k + n ^ k := Nat.add_lt_add_left hrest _
        _ = (r / n ^ k + 1) * n ^ k := (Nat.succ_mul _ _).symm
        _ ≤ n * n ^ k := Nat.mul_le_mul_right _ hdigit
        _ = n ^ (k + 1) := (Nat.pow_succ' ..).symm

theorem metaOff_mod (hk : k ≤ n) (ht : t < k) : metaOff n k t r % n = k - 1 - t := by
  induction k generalizing t r with
  | zero => exact absurd ht (Nat.not_lt_zero _)
  | succ k ih =>
    cases t with
    | zero => exact Nat.mod_eq_of_lt hk
    | succ t =>
      have ht' := Nat.lt_of_succ_lt_succ ht
      obtain ⟨j, rfl⟩ := Nat.exists_eq_succ_of_ne_zero (Nat.ne_zero_of_lt ht')
      have hdvd : n ∣ r / n ^ (j + 1) * n ^ (j + 1) := Dvd.dvd.mul_left (Dvd.intro_left _ (Nat.pow_succ ..).symm) _
      obtain ⟨q, hq⟩ := hdvd
      rw [metaOff, hq, Nat.mul_add_mod, ih (by omega) ht']
      omega

theorem digit_eq (n k r : Nat) : r / n ^ k % n = r % n ^ (k + 1) / n ^ k := by
  rw [Nat.pow_succ, Nat.mod_mul_right_div_self]

theorem blockcnt_div (hn : 0 < n) (k : Nat) : ((n ^ (k + 1) : Nat) : Int) / (n : Int) = (n ^ k : Nat) := by
  rw [Nat.pow_succ, ← Int.natCast_ediv, Nat.mul_div_cancel _ hn]

theorem off_eq (n k r : Nat) :
    (r : Int) / ((n ^ k : Nat) : Int) % (n : Int) = (r % n ^ (k + 1) / n ^ k : Nat) := by
  rw [← Int.natCast_ediv, ← Int.natCast_emod, digit_eq]

theorem metalbn_next (first k off cnt : Nat) :
    -((first + (k + 1) : Nat) : Int) - (-1 + (off : Int) * (cnt : Int)) = -(first + off * cnt + k : Nat) := by
  push_cast
  omega

theorem pathLoop_step {realbn : Int} (hn : 0 < n) (r : Nat) (hne : -((first + k : Nat) : Int) ≠ realbn) :
    pathLoop n realbn r (k + 1) (-(first + k : Nat)) (n ^ (k + 1) : Nat) =
      ⟨-(first + k : Nat), (r % n ^ (k + 1) / n ^ k : Nat)⟩ ::
        pathLoop n realbn r k (-(first + k : Nat) - (-1 + (r % n ^ (k + 1) / n ^ k : Nat) * (n ^ k : Nat))) (n ^ k : Nat) := by
  rw [pathLoop, if_neg hne]
  dsimp only
  rw [blockcnt_div hn, off_eq]

theorem pathFrom_succ (n k first r : Nat) : pathFrom n (k + 1) first r = ⟨-(first + k : Nat), (r / n ^ k : Nat)⟩ ::
    pathFrom n k (first + r / n ^ k * n ^ k) (r % n ^ k) := rfl

theorem mod_pow_mod (n k r : Nat) : r % n ^ (k + 1) % n ^ k = r % n ^ k :=
  Nat.mod_mod_of_dvd r (Nat.pow_dvd_pow n k.le_succ)

theorem pathLoop_data (hn : 0 < n) (hfirst : 0 < first) (b r : Nat) :
    pathLoop n b r (k + 1) (-(first + k : Nat)) (n ^ (k + 1) : Nat) = pathFrom n (k + 1) first (r % n ^ (k + 1)) := by
  induction k generalizing first with
  | zero =>
    rw [pathLoop_step hn r (by omega)]
    rfl
  | succ k ih =>
    rw [pathLoop_step hn r (by omega), metalbn_next, ih (Nat.add_pos_left hfirst _), pathFrom_succ n (k + 1), mod_pow_mod]

theorem pathLoop_meta (first : Nat) (hk : k + 1 ≤ n) (ht : t < k + 1) {bn : Nat} (hr : r < n ^ (k + 1))
    (hbn : bn % n ^ (k + 1) = metaOff n (k + 1) t r) :
    pathLoop n (-(first + metaOff n (k + 1) t r : Nat)) bn (k + 1) (-(first + k : Nat)) (n ^ (k + 1) : Nat) =
      (pathFrom n (k + 1) first r).take t := by
  induction k generalizing first r t with
  | zero =>
    obtain rfl : t = 0 := by omega
    rw [pathLoop, metaOff, if_pos rfl, List.take_zero]
  | succ k ih =>
    cases t with
    | zero => rw [pathLoop, metaOff, if_pos rfl, List.take_zero]
    | succ t =>
      have hn : 2 ≤ n := by omega
      have ht' := Nat.lt_of_succ_lt_succ ht
      have hpos : 0 < n ^ (k + 1) := Nat.pow_pos (by omega)
      have hrest := metaOff_lt hn ht' (Nat.mod_lt r hpos)
      have hmod := metaOff_mod (r := r) hk ht
      have hne : -((first + (k + 1) : Nat) : Int) ≠ -(first + metaOff n (k + 2) (t + 1) r : Nat) := by
        intro heq
        have heq' : k + 1 = metaOff n (k + 2) (t + 1) r := by omega
        rw [← heq', Nat.mod_eq_of_lt hk] at hmod
        omega
      have hdigit : metaOff n (k + 2) (t + 1) r / n ^ (k + 1) = r / n ^ (k + 1) := by
        rw [metaOff, Nat.mul_comm, Nat.mul_add_div hpos, Nat.div_eq_of_lt hrest, Nat.add_zero]
      have hlow : metaOff n (k + 2) (t + 1) r % n ^ (k + 1) = metaOff n (k + 1) t (r % n ^ (k + 1)) := by
        rw [metaOff, Nat.mul_comm, Nat.mul_add_mod, Nat.mod_eq_of_lt hrest]
      have hbn' : bn % n ^ (k + 1) = metaOff n (k + 1) t (r % n ^ (k + 1)) := by
        rw [← mod_pow_mod, hbn, hlow]
      have htarget : first + metaOff n (k + 2) (t + 1) r =
          first + r / n ^ (k + 1) * n ^ (k + 1) + metaOff n (k + 1) t (r % n ^ (k + 1)) := by
        rw [metaOff, Nat.add_assoc]
      rw [pathLoop_step (by omega) bn hne, hbn, hdigit, metalbn_next, htarget,
        ih _ (by omega) ht' (Nat.mod_lt r hpos) hbn', pathFrom_succ n (k + 1) first, List.take_succ_cons]

theorem pow_le_of_fits {l j : Nat} (hn : 0 < n) (hj : j ≤ l) (hfits : n ^ l < 2147483648) : n ^ j < 2147483648 :=
  Nat.lt_of_le_of_lt (Nat.pow_le_pow_right hn hj) hfits

theorem int32_pow {j : Nat} (hfits : n ^ (j + 1) < 2147483648) :
    int32 (((n ^ j : Nat) : Int) * (n : Int)) = (n ^ (j + 1) : Nat) := by
  rw [← Int.natCast_mul, ← Nat.pow_succ]
  exact int32_of_lt hfits

theorem base_mono (n : Nat) {i j : Nat} (hij : i ≤ j) (hi : 0 < i) : base n i ≤ base n j := by
  induction hij with
  | refl => exact le_rfl
  | @step j hij ih =>
    obtain ⟨l, rfl⟩ := Nat.exists_eq_succ_of_ne_zero (Nat.ne_zero_of_lt (Nat.lt_of_lt_of_le hi hij))
    exact ih.trans (Nat.le_add_right _ _)

theorem base_succ (n l : Nat) : base n (l + 2) = base n (l + 1) + n ^ (l + 1) := rfl

theorem levelOf_eq_iff {l : Nat} (hl : l < niaddr) :
    levelOf n b = l + 1 ↔ base n (l + 1) ≤ b ∧ b < base n (l + 2) := by
  have h2 := base_mono n (show 1 ≤ 2 by omega) (by omega)
  have h3 := base_mono n (show 2 ≤ 3 by omega) (by omega)
  have h4 := base_mono n (show 3 ≤ 4 by omega) (by omega)
  unfold levelOf limit niaddr
  unfold niaddr at hl
  obtain rfl | rfl | rfl : l = 0 ∨ l = 1 ∨ l = 2 := by omega
  all_goals
    simp only [Nat.zero_add, Nat.reduceAdd]
    split_ifs <;> refine ⟨fun h => ?_, fun h => ?_⟩ <;> first | omega | exact absurd h (by decide)

theorem levelLoop_step {i j : Nat} (hfits : n ^ (j + 1) < 2147483648) (hb : base n (j + 1) ≤ b) :
    levelLoop n (i + 1) ((n ^ j : Nat) : Int) ((b : Int) - base n (j + 1)) =
      if b < base n (j + 2) then some (i + 1, ((n ^ (j + 1) : Nat) : Int), ((b - base n (j + 1) : Nat) : Int))
      else levelLoop n i ((n ^ (j + 1) : Nat) : Int) ((b : Int) - base n (j + 2)) := by
  have hcond : (b : Int) - base n (j + 1) < (n ^ (j + 1) : Nat) ↔ b < base n (j + 2) := by
    rw [base_succ]
    omega
  have hrest : (b : Int) - base n (j + 1) - (n ^ (j + 1) : Nat) = (b : Int) - base n (j + 2) := by
    rw [base_succ]
    omega
  rw [levelLoop, int32_pow hfits]
  simp only [hcond, hrest, Int.natCast_sub hb]

theorem levelLoop_spec {l : Nat} (hl : l < niaddr) (hn : 0 < n) (hlevel : levelOf n b = l + 1)
    (hfits : n ^ (l + 1) < 2147483648) :
    levelLoop n niaddr 1 ((b : Int) - ndaddr) = some (niaddr - l, ((n ^ (l + 1) : Nat) : Int), ((b - base n (l + 1) : Nat) : Int)) := by
  obtain ⟨hlow, hhigh⟩ := (levelOf_eq_iff hl).1 hlevel
  have hstep : ∀ {i j : Nat}, j ≤ l → base n (j + 1) ≤ b → _ := fun {i j} hj hb =>
    levelLoop_step (i := i) (pow_le_of_fits hn (Nat.succ_le_succ hj) hfits) hb
  have hfirst : ((b : Int) - ndaddr) = (b : Int) - base n 1 := rfl
  have hone : (1 : Int) = (n ^ 0 : Nat) := rfl
  have h12 := base_mono n (show 1 ≤ 2 by omega) (by omega)
  have h23 := base_mono n (show 2 ≤ 3 by omega) (by omega)
  unfold niaddr at hl ⊢
  rw [hfirst, hone]
  obtain rfl | rfl | rfl : l = 0 ∨ l = 1 ∨ l = 2 := by omega
  all_goals simp only [Nat.zero_add, Nat.reduceAdd] at hlow hhigh
  · rw [hstep (j := 0) (by omega) hlow, if_pos hhigh]
  · rw [hstep (j := 0) (by omega) (h12.trans hlow), if_neg (Nat.not_lt.2 hlow), hstep (j := 1) (by omega) hlow,
      if_pos hhigh]
  · rw [hstep (j := 0) (by omega) (h12.trans (h23.trans hlow)), if_neg (Nat.not_lt.2 (h23.trans hlow)),
      hstep (j := 1) (by omega) (h23.trans hlow), if_neg (Nat.not_lt.2 hlow), hstep (j := 2) (by omega) hlow, if_pos hhigh]

theorem ufsGetlbns_eq {l : Nat} {realbn : Int} (hl : l < niaddr) (hn : 0 < n) (hlevel : levelOf n b = l + 1)
    (hfits : n ^ (l + 1) < 2147483648) (hreal : realbn = b ∨ realbn = -(b : Int)) :
    ufsGetlbns n realbn = .ok (⟨-(base n (l + 1) + l : Nat), l⟩ ::
      pathLoop n realbn (b - base n (l + 1) : Nat) (l + 1) (-(base n (l + 1) + l : Nat)) (n ^ (l + 1) : Nat)) := by
  obtain ⟨hlow, hhigh⟩ := (levelOf_eq_iff hl).1 hlevel
  have hdirect : base n 1 ≤ base n (l + 1) := base_mono n (by omega) (by omega)
  have hbase : base n 1 = ndaddr := rfl
  have hpos : 0 < ndaddr := Nat.succ_pos _
  have hbn : (if realbn < 0 then -realbn else realbn) = b := by
    split_ifs <;> omega
  have hmeta : (if realbn ≥ 0 then -(realbn - ((b - base n (l + 1) : Nat) : Int) + niaddr - ((niaddr - l : Nat) : Int))
      else -(-realbn - ((b - base n (l + 1) : Nat) : Int) + niaddr - ((niaddr - l : Nat) : Int))) =
      -(base n (l + 1) + l : Nat) := by
    split_ifs <;> omega
  have hoff : (niaddr : Int) - ((niaddr - l : Nat) : Int) = l := by omega
  have hfuel : niaddr + 1 - (niaddr - l) = l + 1 := by omega
  have hlarge : ¬ (b : Int) < ndaddr := by omega
  simp only [ufsGetlbns, hbn, if_neg hlarge, levelLoop_spec hl hn hlevel hfits, hmeta, hoff, hfuel]

end NetBSD.Ufs
