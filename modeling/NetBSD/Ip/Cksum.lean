import NetBSD.Mbuf.Chain
import NetBSD.Lib.Checksum

/-!
# The Internet checksum of an mbuf chain

The portable `in_cksum`, on a host of either byte order. An mbuf is given by its bytes and by whether
they begin at an odd address; what is still to be read of it is the list behind the pointer `w`.
-/

namespace NetBSD.Ip

open NetBSD.Lib

inductive ByteOrder where
  | big
  | little
  deriving DecidableEq

def ByteOrder.word (o : ByteOrder) (c₀ c₁ : Byte) : Word16 :=
  match o with
  | .big => c₀ ++ c₁
  | .little => c₁ ++ c₀

def ByteOrder.ntohs (o : ByteOrder) (w : Word16) : Word16 :=
  match o with
  | .big => w
  | .little => swapBytes w

structure CkMbuf where
  odd : Bool
  data : List Byte
  deriving DecidableEq

def addcarry (x : Word32) : Word32 := if 65535 < x then x - 65535 else x

def reduce (sum : Word32) : Word32 := addcarry ((sum.setWidth 16).setWidth 32 + sum >>> 16)

structure Ck where
  sum : Word32
  mlen : Int
  len : Int
  c₀ : Byte
  deriving DecidableEq

def addWords (o : ByteOrder) : Nat → Word32 → List Byte → Word32 × List Byte
  | n + 1, sum, c₀ :: c₁ :: w => addWords o n (sum + (o.word c₀ c₁).setWidth 32) w
  | _, sum, w => (sum, w)

def wordLoop (o : ByteOrder) (n : Nat) : Nat → Word32 → List Byte → Int → Word32 × List Byte × Int
  | 0, sum, w, mlen => (sum, w, mlen - 2 * n)
  | fuel + 1, sum, w, mlen =>
    if 0 ≤ mlen - 2 * n then
      let (sum, w) := addWords o n sum w
      wordLoop o n fuel sum w (mlen - 2 * n)
    else (sum, w, mlen - 2 * n)

def cksumWords (o : ByteOrder) (sum : Word32) (w : List Byte) (mlen len : Int) (c₀ : Byte)
    (byteSwapped : Bool) : Ck :=
  let (sum, w, mlen) := wordLoop o 16 w.length sum w mlen
  let (sum, w, mlen) := wordLoop o 4 w.length sum w (mlen + 32)
  let mlen := mlen + 8
  if mlen = 0 ∧ byteSwapped = false then ⟨sum, mlen, len, c₀⟩
  else
    let (sum, w, mlen) := wordLoop o 1 w.length (reduce sum) w mlen
    if byteSwapped then
      let sum := reduce sum <<< 8
      if mlen = -1 then ⟨sum + (o.word c₀ (w.headD 0)).setWidth 32, 0, len, c₀⟩
      else ⟨sum, -1, len, c₀⟩
    else ⟨sum, mlen, len, if mlen = -1 then w.headD 0 else c₀⟩

def cksumData (o : ByteOrder) (sum : Word32) (w : List Byte) (odd : Bool) (mlen len : Int) (c₀ : Byte) :
    Ck :=
  let mlen := if len < mlen then len else mlen
  let len := len - mlen
  if odd ∧ 0 < mlen then cksumWords o (reduce sum <<< 8) w.tail (mlen - 1) len (w.headD 0) true
  else cksumWords o sum w mlen len c₀ false

def cksumMbuf (o : ByteOrder) (ck : Ck) (m : CkMbuf) : Ck :=
  if m.data.length = 0 then ck
  else if ck.mlen = -1 then
    cksumData o (ck.sum + (o.word ck.c₀ (m.data.headD 0)).setWidth 32) m.data.tail (!m.odd)
      (m.data.length - 1) (ck.len - 1) ck.c₀
  else cksumData o ck.sum m.data m.odd m.data.length ck.len ck.c₀

def cksumLoop (o : ByteOrder) : Ck → List CkMbuf → Ck
  | ck, [] => ck
  | ck, m :: ms => if ck.len = 0 then ck else cksumLoop o (cksumMbuf o ck m) ms

def inCksum (o : ByteOrder) (m : List CkMbuf) (len : Int) : Word16 :=
  let ck := cksumLoop o ⟨0, 0, len, 0⟩ m
  let sum := if ck.mlen = -1 then ck.sum + (o.word ck.c₀ 0).setWidth 32 else ck.sum
  (~~~reduce sum).setWidth 16

variable {o : ByteOrder} {second : Bool} {x y w consumed : List Byte} {sum s : Word32} {n k mlen len : Nat}
  {c₀ c₁ b : Byte} {ck : Ck} {swapped odd : Bool}

def ByteOrder.weight (o : ByteOrder) (second : Bool) : Nat :=
  match o, second with
  | .big, false => 256
  | .big, true => 1
  | .little, false => 1
  | .little, true => 256

def posSum (o : ByteOrder) : Bool → List Byte → Nat
  | _, [] => 0
  | second, b :: w => o.weight second * b.toNat + posSum o (!second) w

theorem toNat_word : (o.word c₀ c₁).toNat = o.weight false * c₀.toNat + o.weight true * c₁.toNat := by
  cases o with
  | big =>
    rw [ByteOrder.word, toNat_append_bytes]
    show c₀.toNat * 256 + c₁.toNat = 256 * c₀.toNat + 1 * c₁.toNat
    omega
  | little =>
    rw [ByteOrder.word, toNat_append_bytes]
    show c₁.toNat * 256 + c₀.toNat = 1 * c₀.toNat + 256 * c₁.toNat
    omega

theorem posSum_append : posSum o second (x ++ y)
    = posSum o second x + posSum o (second ^^ decide (x.length % 2 = 1)) y := by
  induction x generalizing second with
  | nil => simp [posSum]
  | cons b x ih =>
    have hparity : ((!second) ^^ decide (x.length % 2 = 1))
        = (second ^^ decide ((b :: x).length % 2 = 1)) := by
      rw [List.length_cons]
      rcases Nat.mod_two_eq_zero_or_one x.length with h | h
      · rw [show (x.length + 1) % 2 = 1 by omega, h]
        cases second <;> rfl
      · rw [show (x.length + 1) % 2 = 0 by omega, h]
        cases second <;> rfl
    rw [List.cons_append, posSum, posSum, ih, hparity, Nat.add_assoc]

theorem posSum_append_of_even (h : x.length % 2 = 0) :
    posSum o second (x ++ y) = posSum o second x + posSum o second y := by
  rw [posSum_append, h]
  simp

theorem posSum_append_of_odd (h : x.length % 2 = 1) :
    posSum o second (x ++ y) = posSum o second x + posSum o (!second) y := by
  rw [posSum_append, h]
  simp

theorem onesEq_posSum_not : OnesEq (256 * posSum o second w) (posSum o (!second) w) := by
  induction w generalizing second with
  | nil => exact OnesEq.refl 0
  | cons b w ih =>
    rw [posSum, posSum, Nat.mul_add, ← Nat.mul_assoc]
    refine OnesEq.add ?_ ih
    rw [Nat.mul_comm _ b.toNat, Nat.mul_comm _ b.toNat]
    have hweight : OnesEq (256 * o.weight second) (o.weight !second) := by
      cases o <;> cases second <;> exact ⟨by decide, by decide⟩
    exact hweight.mul_left b.toNat

theorem posSum_le (hw : w.length = 2 * n) : posSum o false w ≤ 65535 * n := by
  induction n generalizing w with
  | zero =>
    rw [List.length_eq_zero_iff.mp hw]
    exact Nat.zero_le _
  | succ n ih =>
    match w, hw with
    | c₀ :: c₁ :: w, hw =>
      have hword := (o.word c₀ c₁).isLt
      rw [toNat_word] at hword
      have hrest := ih (w := w) (by simpa [Nat.mul_add] using hw)
      show o.weight false * c₀.toNat + (o.weight true * c₁.toNat + posSum o false w) ≤ 65535 * (n + 1)
      omega

theorem toNat_reduce (sum : Word32) :
    (reduce sum).toNat = if 65535 < carry sum.toNat then carry sum.toNat - 65535 else carry sum.toNat := by
  have hs := sum.isLt
  have hlow : ((sum.setWidth 16).setWidth 32 : Word32).toNat = sum.toNat % 2 ^ 16 := by
    rw [BitVec.toNat_setWidth, BitVec.toNat_setWidth]
    omega
  have hhigh : (sum >>> 16 : Word32).toNat = sum.toNat / 2 ^ 16 := by
    rw [BitVec.toNat_ushiftRight, Nat.shiftRight_eq_div_pow]
  have hsum : ((sum.setWidth 16).setWidth 32 + sum >>> 16 : Word32).toNat = carry sum.toNat := by
    rw [BitVec.toNat_add, hlow, hhigh, carry]
    omega
  rw [reduce, addcarry]
  have hlt : (65535 : Word32) < (sum.setWidth 16).setWidth 32 + sum >>> 16 ↔ 65535 < carry sum.toNat := by
    rw [BitVec.lt_def, hsum]
    rfl
  by_cases h : 65535 < carry sum.toNat
  · rw [if_pos (hlt.mpr h), if_pos h, BitVec.toNat_sub_of_le (BitVec.le_of_lt (hlt.mpr h)), hsum]
    rfl
  · rw [if_neg (fun hc => h (hlt.mp hc)), if_neg h, hsum]

theorem reduce_le (sum : Word32) : (reduce sum).toNat ≤ 65535 := by
  have hs := sum.isLt
  rw [toNat_reduce]
  unfold carry
  split <;> omega

theorem reduce_le_self (sum : Word32) : (reduce sum).toNat ≤ sum.toNat := by
  rw [toNat_reduce]
  unfold carry
  split <;> omega

theorem onesEq_reduce (sum : Word32) : OnesEq (reduce sum).toNat sum.toNat := by
  have hs := sum.isLt
  rw [toNat_reduce]
  refine OnesEq.trans ?_ (onesEq_carry sum.toNat)
  constructor <;> split <;> omega

theorem toNat_reduce_shift (sum : Word32) : (reduce sum <<< 8).toNat = 256 * (reduce sum).toNat := by
  have hle := reduce_le sum
  rw [BitVec.toNat_shiftLeft, Nat.shiftLeft_eq]
  omega

theorem toNat_add_word (h : sum.toNat + 65535 < 2 ^ 32) :
    (sum + (o.word c₀ c₁).setWidth 32).toNat
      = sum.toNat + (o.weight false * c₀.toNat + o.weight true * c₁.toNat) := by
  have hword := (o.word c₀ c₁).isLt
  rw [BitVec.toNat_add, BitVec.toNat_setWidth, ← toNat_word]
  omega

theorem addWords_eq (hw : 2 * n ≤ w.length) (hroom : sum.toNat + 65535 * n < 2 ^ 32) :
    ∃ s, addWords o n sum w = (s, w.drop (2 * n)) ∧ s.toNat = sum.toNat + posSum o false (w.take (2 * n)) := by
  induction n generalizing sum w with
  | zero => exact ⟨sum, by simp [addWords], by simp [posSum]⟩
  | succ n ih =>
    rw [Nat.mul_succ] at hroom
    obtain ⟨c₀, c₁, w, rfl⟩ : ∃ c₀ c₁ w', w = c₀ :: c₁ :: w' := by
      match w with
      | [] => simp at hw
      | [_] =>
        rw [List.length_singleton] at hw
        omega
      | c₀ :: c₁ :: w => exact ⟨c₀, c₁, w, rfl⟩
    have hlt : sum.toNat + 65535 < 2 ^ 32 := lt_of_le_of_lt (by omega) hroom
    have hword := (o.word c₀ c₁).isLt
    rw [toNat_word] at hword
    have hadd : (sum + (o.word c₀ c₁).setWidth 32).toNat
        = sum.toNat + (o.weight false * c₀.toNat + o.weight true * c₁.toNat) :=
      toNat_add_word hlt
    obtain ⟨s, hrun, hs⟩ := ih (show 2 * n ≤ w.length by simp only [List.length_cons] at hw; omega)
      (show (sum + (o.word c₀ c₁).setWidth 32).toNat + 65535 * n < 2 ^ 32 by omega)
    refine ⟨s, ?_, ?_⟩
    · rw [addWords, hrun]
      rfl
    · have htake : (c₀ :: c₁ :: w).take (2 * (n + 1)) = c₀ :: c₁ :: w.take (2 * n) := rfl
      rw [hs, hadd, htake, posSum, posSum, Bool.not_false, Bool.not_true]
      omega

theorem wordLoop_eq {fuel : Nat} (hn : 0 < n) (hmlen : mlen ≤ w.length) (hfuel : mlen ≤ fuel)
    (hroom : sum.toNat + 65535 * (mlen / 2) < 2 ^ 32) :
    ∃ s c, wordLoop o n fuel sum w mlen = (s, w.drop c, (mlen : Int) - c - 2 * n)
      ∧ s.toNat = sum.toNat + posSum o false (w.take c) ∧ c ≤ mlen ∧ c % 2 = 0 ∧ mlen - c < 2 * n := by
  induction fuel generalizing sum w mlen with
  | zero =>
    obtain rfl : mlen = 0 := by omega
    exact ⟨sum, 0, by simp [wordLoop], by simp [posSum], by omega, rfl, by omega⟩
  | succ fuel ih =>
    rw [wordLoop]
    by_cases hturn : (0 : Int) ≤ mlen - 2 * n
    · obtain ⟨s₁, hadd, hs₁⟩ := addWords_eq (o := o)
        (show 2 * n ≤ w.length by omega) (show sum.toNat + 65535 * n < 2 ^ 32 by omega)
      have hle : posSum o false (w.take (2 * n)) ≤ 65535 * n :=
        posSum_le (by rw [List.length_take]; omega)
      have hcast : (mlen : Int) - 2 * n = ((mlen - 2 * n : Nat) : Int) := by omega
      obtain ⟨s, c, hrun, hs, hc, heven, hrest⟩ := ih
        (show mlen - 2 * n ≤ (w.drop (2 * n)).length by rw [List.length_drop]; omega) (by omega)
        (show s₁.toNat + 65535 * ((mlen - 2 * n) / 2) < 2 ^ 32 by omega)
      refine ⟨s, 2 * n + c, ?_, ?_, by omega, by omega, by omega⟩
      · rw [if_pos hturn, hadd, hcast]
        dsimp only
        rw [hrun, List.drop_drop]
        congr 2
        omega
      · have htake : (w.take (2 * n)).length % 2 = 0 := by
          rw [List.length_take]
          omega
        rw [hs, hs₁, List.take_add, posSum_append_of_even htake, Nat.add_assoc]
    · exact ⟨sum, 0, by rw [if_neg hturn]; simp, by simp [posSum], by omega, rfl, by omega⟩

def Ck.total (o : ByteOrder) (ck : Ck) : Nat :=
  ck.sum.toNat + if ck.mlen = -1 then o.weight false * ck.c₀.toNat else 0

structure Summed (o : ByteOrder) (consumed : List Byte) (ck : Ck) : Prop where
  total : OnesEq (ck.total o) (posSum o false consumed)
  waits : ck.mlen = -1 ↔ consumed.length % 2 = 1
  sum_le : ck.sum.toNat ≤ 16776960 + 65535 * (consumed.length / 2)

theorem cksumWords_eq (o : ByteOrder) (c₀ : Byte) (swapped : Bool) (rest : Int) (hmlen : mlen ≤ w.length)
    (hroom : sum.toNat + 65535 * (mlen / 2) < 2 ^ 32) :
    ∃ s c x, c ≤ mlen ∧ c % 2 = 0 ∧ mlen - c < 2
      ∧ OnesEq s.toNat (sum.toNat + posSum o false (w.take c))
      ∧ s.toNat ≤ sum.toNat + 65535 * (c / 2) ∧ (x = -1 ↔ mlen - c = 1)
      ∧ cksumWords o sum w mlen rest c₀ swapped =
        if swapped then
          if mlen - c = 1 then ⟨reduce s <<< 8 + (o.word c₀ ((w.drop c).headD 0)).setWidth 32, 0, rest, c₀⟩
          else ⟨reduce s <<< 8, -1, rest, c₀⟩
        else ⟨s, x, rest, if mlen - c = 1 then (w.drop c).headD 0 else c₀⟩ := by
  obtain ⟨s₁, c₁, hrun₁, hs₁, hc₁, heven₁, hrest₁⟩ :=
    wordLoop_eq (o := o) (n := 16) (by omega) hmlen hmlen hroom
  have hle₁ : posSum o false (w.take c₁) ≤ 65535 * (c₁ / 2) :=
    posSum_le (by rw [List.length_take]; omega)
  have hcast₁ : (mlen : Int) - c₁ - 2 * (16 : Nat) + 32 = ((mlen - c₁ : Nat) : Int) := by omega
  obtain ⟨s₂, c₂, hrun₂, hs₂, hc₂, heven₂, hrest₂⟩ :=
    wordLoop_eq (o := o) (n := 4) (by omega)
      (show mlen - c₁ ≤ (w.drop c₁).length by rw [List.length_drop]; omega)
      (show mlen - c₁ ≤ (w.drop c₁).length by rw [List.length_drop]; omega)
      (show s₁.toNat + 65535 * ((mlen - c₁) / 2) < 2 ^ 32 by omega)
  have hcast₂ : ((mlen - c₁ : Nat) : Int) - c₂ - 2 * (4 : Nat) + 8 = ((mlen - c₁ - c₂ : Nat) : Int) := by omega
  have htake₂ : posSum o false (w.take (c₁ + c₂))
      = posSum o false (w.take c₁) + posSum o false ((w.drop c₁).take c₂) := by
    rw [List.take_add, posSum_append_of_even (by rw [List.length_take]; omega)]
  have hle₂ : posSum o false ((w.drop c₁).take c₂) ≤ 65535 * (c₂ / 2) :=
    posSum_le (by rw [List.length_take, List.length_drop]; omega)
  by_cases hdone : mlen - c₁ - c₂ = 0 ∧ swapped = false
  · obtain ⟨hzero, rfl⟩ := hdone
    refine ⟨s₂, c₁ + c₂, 0, by omega, by omega, by omega, ?_, by omega, by omega, ?_⟩
    · rw [hs₂, hs₁, htake₂, Nat.add_assoc]
      exact OnesEq.refl _
    · have hnot : ¬ mlen - (c₁ + c₂) = 1 := by omega
      rw [cksumWords, hrun₁]
      dsimp only
      rw [hcast₁, hrun₂]
      dsimp only
      rw [hcast₂, hzero, if_pos ⟨rfl, rfl⟩]
      simp only [Bool.false_eq_true, if_false, if_neg hnot]
      rfl
  · have hred := reduce_le_self s₂
    obtain ⟨s₃, c₃, hrun₃, hs₃, hc₃, heven₃, hrest₃⟩ :=
      wordLoop_eq (o := o) (n := 1) (by omega)
        (show mlen - c₁ - c₂ ≤ ((w.drop c₁).drop c₂).length by rw [List.length_drop, List.length_drop]; omega)
        (show mlen - c₁ - c₂ ≤ ((w.drop c₁).drop c₂).length by rw [List.length_drop, List.length_drop]; omega)
        (show (reduce s₂).toNat + 65535 * ((mlen - c₁ - c₂) / 2) < 2 ^ 32 by omega)
    have htake₃ : posSum o false (w.take (c₁ + c₂ + c₃))
        = posSum o false (w.take (c₁ + c₂)) + posSum o false (((w.drop c₁).drop c₂).take c₃) := by
      rw [List.take_add, posSum_append_of_even (by rw [List.length_take]; omega), List.drop_drop]
    have hle₃ : posSum o false (((w.drop c₁).drop c₂).take c₃) ≤ 65535 * (c₃ / 2) :=
      posSum_le (by rw [List.length_take, List.length_drop, List.length_drop]; omega)
    refine ⟨s₃, c₁ + c₂ + c₃, ((mlen - c₁ - c₂ : Nat) : Int) - c₃ - 2 * (1 : Nat), by omega, by omega, by omega,
      ?_, by omega, by omega, ?_⟩
    · rw [hs₃, htake₃, htake₂, ← Nat.add_assoc, ← Nat.add_assoc, ← hs₁, ← hs₂]
      exact (onesEq_reduce s₂).add (OnesEq.refl _)
    · have hcond : ¬ (((mlen - c₁ - c₂ : Nat) : Int) = 0 ∧ swapped = false) := fun h => hdone ⟨by omega, h.2⟩
      have hlast : ((mlen - c₁ - c₂ : Nat) : Int) - c₃ - 2 * (1 : Nat) = -1 ↔ mlen - (c₁ + c₂ + c₃) = 1 := by
        omega
      have hdrop : ((w.drop c₁).drop c₂).drop c₃ = w.drop (c₁ + c₂ + c₃) := by
        rw [List.drop_drop, List.drop_drop, Nat.add_assoc]
      rw [cksumWords, hrun₁]
      dsimp only
      rw [hcast₁, hrun₂]
      dsimp only
      rw [hcast₂, if_neg hcond, hrun₃]
      dsimp only
      rw [hdrop]
      simp only [hlast]

theorem take_succ_eq (h : n < w.length) : w.take (n + 1) = w.take n ++ [(w.drop n).headD 0] := by
  have hone : (w.drop n).take 1 = [(w.drop n).headD 0] := by
    cases hdrop : w.drop n with
    | nil =>
      have := congrArg List.length hdrop
      rw [List.length_drop, List.length_nil] at this
      omega
    | cons b rest => rfl
  rw [List.take_add, hone]

theorem posSum_take_succ (h : n < w.length) (heven : n % 2 = 0) :
    posSum o second (w.take (n + 1)) = posSum o second (w.take n)
      + o.weight second * ((w.drop n).headD 0).toNat := by
  rw [take_succ_eq h, posSum_append_of_even (by rw [List.length_take]; omega)]
  rfl

theorem summed_words {rest : Int} (htotal : OnesEq sum.toNat (posSum o false consumed))
    (heven : consumed.length % 2 = 0) (hsum : sum.toNat ≤ 16776960 + 65535 * (consumed.length / 2))
    (hlen : consumed.length + mlen ≤ 65535) (hmlen : mlen ≤ w.length) :
    Summed o (consumed ++ w.take mlen) (cksumWords o sum w mlen rest c₀ false)
      ∧ (cksumWords o sum w mlen rest c₀ false).len = rest := by
  obtain ⟨s, c, x, hc, hceven, hlast, hs, hsle, hx, hrun⟩ := cksumWords_eq o c₀ false rest hmlen
    (show sum.toNat + 65535 * (mlen / 2) < 2 ^ 32 by omega)
  have hlength : (consumed ++ w.take mlen).length = consumed.length + mlen := by
    rw [List.length_append, List.length_take]
    omega
  rw [hrun, if_neg (by simp)]
  refine ⟨⟨?_, ?_, ?_⟩, rfl⟩
  · rw [posSum_append_of_even heven]
    by_cases hodd : mlen - c = 1
    · obtain rfl : mlen = c + 1 := by omega
      rw [Ck.total, if_pos (hx.mpr hodd), if_pos hodd, posSum_take_succ (by omega) hceven, ← Nat.add_assoc]
      exact (hs.trans (htotal.add (OnesEq.refl _))).add (OnesEq.refl _)
    · obtain rfl : mlen = c := by omega
      rw [Ck.total, if_neg fun h => hodd (hx.mp h), Nat.add_zero]
      exact hs.trans (htotal.add (OnesEq.refl _))
  · rw [hlength]
    show x = -1 ↔ _
    rw [hx]
    omega
  · rw [hlength]
    show s.toNat ≤ _
    omega

theorem summed_swapped {rest : Int} (htotal : OnesEq sum.toNat (posSum o false consumed))
    (heven : consumed.length % 2 = 0) (hlen : consumed.length + (mlen + 1) ≤ 65535) (hmlen : mlen ≤ w.length) :
    Summed o (consumed ++ b :: w.take mlen) (cksumWords o (reduce sum <<< 8) w mlen rest b true)
      ∧ (cksumWords o (reduce sum <<< 8) w mlen rest b true).len = rest := by
  have hreduce := reduce_le sum
  have hshift := toNat_reduce_shift sum
  obtain ⟨s, c, x, hc, hceven, hlast, hs, hsle, hx, hrun⟩ := cksumWords_eq o b true rest hmlen
    (show (reduce sum <<< 8).toNat + 65535 * (mlen / 2) < 2 ^ 32 by omega)
  have hlength : (consumed ++ b :: w.take mlen).length = consumed.length + 1 + mlen := by
    rw [List.length_append, List.length_cons, List.length_take]
    omega
  -- Two shifts cancel, and one moves the bytes to the other positions.
  have hback : OnesEq (reduce s <<< 8).toNat (posSum o false consumed + posSum o true (w.take c)) := by
    rw [toNat_reduce_shift]
    have hreduced : OnesEq (256 * (reduce s).toNat) (256 * (256 * (reduce sum).toNat + posSum o false (w.take c))) :=
      ((onesEq_reduce s).trans (hshift ▸ hs)).mul_left 256
    refine hreduced.trans ?_
    rw [Nat.mul_add, ← Nat.mul_assoc]
    exact ((onesEq_mul_two_pow _).trans ((onesEq_reduce sum).trans htotal)).add onesEq_posSum_not
  have hsplit : posSum o false (consumed ++ b :: w.take mlen)
      = posSum o false consumed + (o.weight false * b.toNat + posSum o true (w.take mlen)) := by
    rw [posSum_append_of_even heven]
    rfl
  have hreduce' := reduce_le s
  have hshift' := toNat_reduce_shift s
  rw [hrun, if_pos rfl]
  by_cases hodd : mlen - c = 1
  · obtain rfl : mlen = c + 1 := by omega
    have hadd : (reduce s <<< 8 + (o.word b ((w.drop c).headD 0)).setWidth 32).toNat
        = (reduce s <<< 8).toNat + (o.weight false * b.toNat + o.weight true * ((w.drop c).headD 0).toNat) :=
      toNat_add_word (by omega)
    rw [if_pos hodd]
    refine ⟨⟨?_, ?_, ?_⟩, rfl⟩
    · rw [hsplit, posSum_take_succ (by omega) hceven, Ck.total, if_neg (show (0 : Int) ≠ -1 by decide), Nat.add_zero]
      show OnesEq (reduce s <<< 8 + (o.word b ((w.drop c).headD 0)).setWidth 32).toNat _
      rw [hadd]
      have hsum := hback.add (OnesEq.refl (o.weight false * b.toNat + o.weight true * ((w.drop c).headD 0).toNat))
      have harrange : posSum o false consumed + posSum o true (w.take c)
            + (o.weight false * b.toNat + o.weight true * ((w.drop c).headD 0).toNat)
          = posSum o false consumed + (o.weight false * b.toNat + (posSum o true (w.take c)
            + o.weight true * ((w.drop c).headD 0).toNat)) := by omega
      exact harrange ▸ hsum
    · rw [hlength]
      show (0 : Int) = -1 ↔ _
      omega
    · have hword := (o.word b ((w.drop c).headD 0)).isLt
      rw [toNat_word] at hword
      rw [hlength]
      show (reduce s <<< 8 + (o.word b ((w.drop c).headD 0)).setWidth 32).toNat ≤ _
      omega
  · obtain rfl : mlen = c := by omega
    rw [if_neg hodd]
    refine ⟨⟨?_, ?_, ?_⟩, rfl⟩
    · rw [hsplit, Ck.total, if_pos rfl]
      have hsum := hback.add (OnesEq.refl (o.weight false * b.toNat))
      have harrange : posSum o false consumed + posSum o true (w.take mlen) + o.weight false * b.toNat
          = posSum o false consumed + (o.weight false * b.toNat + posSum o true (w.take mlen)) := by omega
      exact harrange ▸ hsum
    · rw [hlength]
      show (-1 : Int) = -1 ↔ _
      omega
    · rw [hlength]
      show (reduce s <<< 8).toNat ≤ _
      omega

theorem summed_data (htotal : OnesEq sum.toNat (posSum o false consumed))
    (heven : consumed.length % 2 = 0) (hsum : sum.toNat ≤ 16776960 + 65535 * (consumed.length / 2))
    (hlen : consumed.length + len ≤ 65535) :
    Summed o (consumed ++ w.take len) (cksumData o sum w odd w.length len c₀)
      ∧ (cksumData o sum w odd w.length len c₀).len = (len - w.length : Nat) := by
  have hmlen : (if (len : Int) < w.length then (len : Int) else w.length) = (min len w.length : Nat) := by
    split <;> omega
  have htake : w.take len = w.take (min len w.length) := by
    rw [List.take_eq_take_iff]
    omega
  have hrest : (len : Int) - (min len w.length : Nat) = (len - w.length : Nat) := by omega
  rw [cksumData, hmlen, hrest, htake]
  by_cases hodd : odd = true ∧ (0 : Int) < (min len w.length : Nat)
  · rw [if_pos hodd]
    obtain ⟨b, w, rfl⟩ : ∃ b w', w = b :: w' := by
      cases w with
      | nil => simp at hodd
      | cons b w => exact ⟨b, w, rfl⟩
    obtain ⟨n, hn⟩ : ∃ n, min len (b :: w).length = n + 1 := ⟨min len (b :: w).length - 1, by omega⟩
    have hlen' : (b :: w).length = w.length + 1 := List.length_cons
    have hcast : ((n + 1 : Nat) : Int) - 1 = n := by omega
    rw [hn, hcast]
    exact summed_swapped htotal heven (by omega) (by omega)
  · rw [if_neg hodd]
    exact summed_words htotal heven hsum (by omega) (by omega)

theorem Summed.cksumMbuf (h : Summed o consumed ck) (hck : ck.len = len) (hpos : 0 < len)
    (hlen : consumed.length + len ≤ 65535) (m : CkMbuf) :
    Summed o (consumed ++ m.data.take len) (cksumMbuf o ck m)
      ∧ (cksumMbuf o ck m).len = (len - m.data.length : Nat) := by
  have hsum := h.sum_le
  rw [Ip.cksumMbuf]
  cases hdata : m.data with
  | nil => exact ⟨by simpa using h, by simpa using hck⟩
  | cons b w =>
    rw [if_neg (by simp)]
    by_cases hwaits : ck.mlen = -1
    · have hodd := h.waits.mp hwaits
      have hadd : (ck.sum + (o.word ck.c₀ b).setWidth 32).toNat
          = ck.sum.toNat + (o.weight false * ck.c₀.toNat + o.weight true * b.toNat) :=
        toNat_add_word (by omega)
      have hword := (o.word ck.c₀ b).isLt
      rw [toNat_word] at hword
      have htotal : OnesEq (ck.sum + (o.word ck.c₀ b).setWidth 32).toNat (posSum o false (consumed ++ [b])) := by
        have htotal := h.total.add (OnesEq.refl (o.weight true * b.toNat))
        rw [Ck.total, if_pos hwaits, Nat.add_assoc] at htotal
        rw [hadd, posSum_append_of_odd hodd]
        exact htotal
      have hlength : (consumed ++ [b]).length = consumed.length + 1 := by simp
      have hrest : Summed o (consumed ++ [b] ++ w.take (len - 1)) (cksumData o _ w (!m.odd) w.length
            (len - 1 : Nat) ck.c₀) ∧ (cksumData o _ w (!m.odd) w.length (len - 1 : Nat) ck.c₀).len
          = (len - 1 - w.length : Nat) :=
        summed_data htotal (by omega) (by omega) (by omega)
      have hbytes : consumed ++ (b :: w).take len = consumed ++ [b] ++ w.take (len - 1) := by
        obtain ⟨k, rfl⟩ := Nat.exists_eq_add_of_lt hpos
        simp
      have hmlen : (((b :: w).length : Int) - 1) = w.length := by simp
      have hlen' : ck.len - 1 = (len - 1 : Nat) := by omega
      have hleft : len - (b :: w).length = len - 1 - w.length := by
        rw [List.length_cons]
        omega
      rw [if_pos hwaits, hbytes, hleft, hmlen, hlen']
      exact hrest
    · rw [if_neg hwaits, hck]
      have htotal := h.total
      rw [Ck.total, if_neg hwaits, Nat.add_zero] at htotal
      have heven := mt h.waits.mpr hwaits
      exact summed_data htotal (by omega) hsum hlen

theorem Summed.cksumLoop {m : List CkMbuf} (h : Summed o consumed ck) (hck : ck.len = len)
    (hlen : consumed.length + len ≤ 65535) :
    Summed o (consumed ++ (m.flatMap CkMbuf.data).take len) (cksumLoop o ck m) := by
  induction m generalizing consumed ck len with
  | nil => simpa [Ip.cksumLoop] using h
  | cons m ms ih =>
    rw [Ip.cksumLoop]
    rcases Nat.eq_zero_or_pos len with rfl | hpos
    · rw [if_pos (hck.trans Nat.cast_zero)]
      simpa using h
    · have hne : ck.len ≠ 0 := by omega
      obtain ⟨hsummed, hrest⟩ := h.cksumMbuf hck hpos hlen m
      have hlength : (consumed ++ m.data.take len).length + (len - m.data.length) ≤ 65535 := by
        rw [List.length_append, List.length_take]
        omega
      rw [if_neg hne, List.flatMap_cons, List.take_append, ← List.append_assoc]
      exact ih hsummed hrest hlength

def beWords : List Byte → List Word16
  | [] => []
  | [c₀] => [c₀ ++ (0 : Byte)]
  | c₀ :: c₁ :: w => (c₀ ++ c₁) :: beWords w

theorem posSum_big (w : List Byte) : posSum .big false w = wordSum (beWords w) := by
  match w with
  | [] => rfl
  | [c₀] =>
    rw [beWords, wordSum_cons, toNat_append_bytes]
    show 256 * c₀.toNat + 0 = c₀.toNat * 256 + 0 + 0
    omega
  | c₀ :: c₁ :: w =>
    rw [beWords, wordSum_cons, toNat_append_bytes, ← posSum_big w]
    show 256 * c₀.toNat + (1 * c₁.toNat + posSum .big false w) = _
    omega

theorem posSum_little (w : List Byte) (second : Bool) : posSum .little second w = posSum .big (!second) w := by
  induction w generalizing second with
  | nil => rfl
  | cons b w ih =>
    rw [posSum, posSum, ih]
    cases second <;> rfl

theorem ntohs_not_eq {v : Word16} (h : OnesEq v.toNat (posSum o false w)) :
    o.ntohs (~~~v) = ~~~onesSum (beWords w) := by
  have hsum := onesEq_onesSum (beWords w)
  have hlt := (onesSum (beWords w)).isLt
  rw [← posSum_big] at hsum
  cases o with
  | big =>
    have hv := v.isLt
    have heq : v = onesSum (beWords w) :=
      BitVec.eq_of_toNat_eq ((h.trans hsum.symm).unique (by omega) (by omega))
    rw [heq]
    rfl
  | little =>
    have hswap := (swapBytes v).isLt
    have hbytes : OnesEq (swapBytes v).toNat (posSum .big false w) := by
      have hmul := (onesEq_swapBytes v).trans (h.mul_left 256)
      have hother : OnesEq (256 * posSum .little false w) (posSum .little true w) := onesEq_posSum_not
      rw [posSum_little w true] at hother
      exact hmul.trans hother
    have heq : swapBytes v = onesSum (beWords w) :=
      BitVec.eq_of_toNat_eq ((hbytes.trans hsum.symm).unique (by omega) (by omega))
    show swapBytes (~~~v) = _
    rw [swapBytes_not, heq]

/-- **The checksum of a chain.** In network byte order it is the complement of the one's complement sum
of the words that the first `len` bytes make, however these are spread over mbufs and memory. -/
theorem inCksum_eq (o : ByteOrder) (m : List CkMbuf) {len : Nat} (hlen : len ≤ 65535) :
    o.ntohs (inCksum o m len) = ~~~onesSum (beWords ((m.flatMap CkMbuf.data).take len)) := by
  have hstart : Summed o [] ⟨0, 0, len, 0⟩ := ⟨OnesEq.refl 0, by simp, by simp⟩
  have hsummed : Summed o ((m.flatMap CkMbuf.data).take len) (cksumLoop o ⟨0, 0, len, 0⟩ m) :=
    hstart.cksumLoop rfl (by simpa using hlen)
  obtain ⟨ck, hck⟩ : ∃ ck, ck = cksumLoop o ⟨0, 0, len, 0⟩ m := ⟨_, rfl⟩
  rw [← hck] at hsummed
  have hlength : ((m.flatMap CkMbuf.data).take len).length ≤ 65535 := by
    rw [List.length_take]
    omega
  have hsum := hsummed.sum_le
  obtain ⟨sum, hsumdef⟩ : ∃ sum, sum = if ck.mlen = -1 then ck.sum + (o.word ck.c₀ 0).setWidth 32 else ck.sum :=
    ⟨_, rfl⟩
  have htotal : OnesEq sum.toNat (posSum o false ((m.flatMap CkMbuf.data).take len)) := by
    have hnat : sum.toNat = ck.total o := by
      rw [hsumdef, Ck.total]
      by_cases hwaits : ck.mlen = -1
      · rw [if_pos hwaits, if_pos hwaits, toNat_add_word (by omega)]
        show _ + (_ + o.weight true * 0) = _
        omega
      · rw [if_neg hwaits, if_neg hwaits, Nat.add_zero]
    rw [hnat]
    exact hsummed.total
  have hreduce := reduce_le sum
  have hresult : inCksum o m len = ~~~(reduce sum).setWidth 16 := by
    rw [inCksum, ← hck, hsumdef]
    exact BitVec.setWidth_not (by omega)
  rw [hresult]
  refine ntohs_not_eq ?_
  rw [BitVec.toNat_setWidth, Nat.mod_eq_of_lt (by omega)]
  exact (onesEq_reduce sum).trans htotal

/-- Five bytes of seven, in mbufs of one, none and six bytes at odd and even addresses. -/
theorem inCksum_sample :
    ByteOrder.ntohs .little (inCksum .little
      [⟨true, [0x45]⟩, ⟨false, []⟩, ⟨false, [0x01, 0xfe, 0x80, 0xff, 0x07, 0x07]⟩] 5)
        = ~~~onesSum (beWords [0x45, 0x01, 0xfe, 0x80, 0xff]) :=
  inCksum_eq .little _ (show 5 ≤ 65535 by decide)

theorem exists_sum_inCksum (o : ByteOrder) (m : List CkMbuf) (hlen : len ≤ 65535) :
    ∃ v, inCksum o m len = ~~~v ∧ OnesEq v.toNat (posSum o false ((m.flatMap CkMbuf.data).take len)) := by
  have hstart : Summed o [] ⟨0, 0, len, 0⟩ := ⟨OnesEq.refl 0, by simp, by simp⟩
  have hsummed := hstart.cksumLoop (m := m) rfl (by simpa using hlen)
  rw [List.nil_append] at hsummed
  have hlength := List.length_take_le len (m.flatMap CkMbuf.data)
  have hsum := hsummed.sum_le
  refine ⟨_, BitVec.setWidth_not (by omega), ?_⟩
  rw [BitVec.toNat_setWidth, Nat.mod_eq_of_lt (Nat.lt_succ_of_le (reduce_le _))]
  refine (onesEq_reduce _).trans (Eq.subst (motive := (OnesEq · _)) ?_ hsummed.total)
  rw [Ck.total]
  split
  · rw [toNat_add_word (by omega)]
    rfl
  · rfl

/-- A packet whose checksum field, zero when the sum was taken, now has the bytes `c₀` and `c₁`: the receiver's sum
is zero if the field is the sum, and for no other field but the all ones in place of a zero. -/
theorem inCksum_verifies (o : ByteOrder) {m m' : List CkMbuf} (front back : List Byte) (hlen : len ≤ 65535)
    (hfront : front.length % 2 = 0) (hsent : (m.flatMap CkMbuf.data).take len = front ++ 0 :: 0 :: back)
    (hreceived : (m'.flatMap CkMbuf.data).take len = front ++ c₀ :: c₁ :: back) :
    inCksum o m' len = 0 ↔ o.word c₀ c₁ = inCksum o m len ∨ inCksum o m len = 0 ∧ o.word c₀ c₁ = 0xffff := by
  obtain ⟨v, hv, hsum⟩ := exists_sum_inCksum o m hlen
  obtain ⟨v', hv', hsum'⟩ := exists_sum_inCksum o m' hlen
  have hfield : posSum o false (front ++ c₀ :: c₁ :: back) =
      posSum o false (front ++ 0 :: 0 :: back) + (o.word c₀ c₁).toNat := by
    rw [posSum_append_of_even hfront, posSum_append_of_even hfront, toNat_word]
    have hbyte : (0 : Byte).toNat = 0 := rfl
    simp only [posSum, Bool.not_false, Bool.not_true, hbyte]
    omega
  rw [hreceived, hfield, ← hsent] at hsum'
  obtain ⟨hmod, hzero⟩ := hsum'.trans (hsum.symm.add (OnesEq.refl _))
  have := v.isLt; have := v'.isLt; have := (o.word c₀ c₁).isLt
  simp only [hv, hv', ← BitVec.toNat_inj, BitVec.toNat_not]
  change 65536 - 1 - v'.toNat = 0 ↔ _ = 65536 - 1 - v.toNat ∨ 65536 - 1 - v.toNat = 0 ∧ _ = 65535
  omega

/-- A header of six bytes in two mbufs, with the sum in its second word, and in one when it is received. -/
theorem inCksum_verifies_header :
    inCksum .little [⟨false, [0x45, 0x00, 0xba, 0xec, 0x00, 0x13]⟩] 6 = 0 :=
  (inCksum_verifies .little (m := [⟨false, [0x45, 0x00, 0x00]⟩, ⟨true, [0x00, 0x00, 0x13]⟩]) [0x45, 0x00] [0x00, 0x13]
    (by decide) rfl rfl rfl).2 (Or.inl (by decide))

end NetBSD.Ip
