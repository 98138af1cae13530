import Mathlib.Logic.Function.Basic

/-!
# Addresses of a routing message

The front of `route_output` and `rt_xaddrs`, of `rtsock.c`. Memory is bytes with the low byte of a number first, and the copy of the
request is at `rtm`; what comes later is given the addresses, and goes by their own lengths.
-/

namespace NetBSD.Route

open Function (update)

abbrev Byte := BitVec 8

variable (mem : Nat → Byte)

def ushortAt (p : Nat) : Nat := (mem p).toNat + 256 * (mem (p + 1)).toNat

def intAt (p : Nat) : Nat := ushortAt mem p + 65536 * ushortAt mem (p + 2)

def hdrSize : Nat := 76

def rtmVersion : Nat := 3

def rtaxMax : Nat := 8

def rtaxDst : Nat := 0

def roundup (a : Nat) : Nat := if a > 0 then 1 + ((a - 1) ||| 3) else 4

def saLen (sa : Nat) : Nat := (mem sa).toNat

def xaddrsLoop (cplim addrs : Nat) : Nat → Nat → Nat → (Nat → Option Nat) → (Nat → Option Nat)
  | 0, _, _, info => info
  | left + 1, i, cp, info =>
    if cp < cplim then
      if addrs.testBit i = false then xaddrsLoop cplim addrs left (i + 1) cp info
      else xaddrsLoop cplim addrs left (i + 1) (cp + roundup (saLen mem cp)) (update info i (some cp))
    else info

def rtXaddrs (cp cplim addrs : Nat) : Nat → Option Nat := xaddrsLoop mem cplim addrs rtaxMax 0 cp fun _ => none

inductive Error where
  | einval
  | enobufs
  | eprotonosupport
  deriving DecidableEq

/-- `route_output`, up to where it has the addresses; `alloc` says that there is memory for the copy. -/
def routeOutput (rtm len : Nat) (alloc : Bool) : Except Error (Nat → Option Nat) :=
  if len < hdrSize ∨ len ≠ ushortAt mem rtm then .error .einval
  else if alloc = false then .error .enobufs
  else if (mem (rtm + 2)).toNat ≠ rtmVersion then .error .eprotonosupport
  else
    let info := rtXaddrs mem (rtm + hdrSize) (rtm + len) (intAt mem (rtm + 12))
    if info rtaxDst = none then .error .einval else .ok info

def given (info : Nat → Option Nat) (i : Nat) : Option (Nat × List Byte) :=
  (info i).map fun sa => (sa, (List.range (saLen mem sa)).map fun k => mem (sa + k))

def Confined (rtm len : Nat) (info : Nat → Option Nat) : Prop :=
  (∀ i sa, info i = some sa → rtm ≤ sa ∧ sa + saLen mem sa ≤ rtm + len) ∧
    ∀ mem', (∀ x, rtm ≤ x → x < rtm + len → mem' x = mem x) →
      ∃ info', routeOutput mem' rtm len true = .ok info' ∧ given mem' info' = given mem info

def LastFits (rtm len : Nat) (info : Nat → Option Nat) : Prop :=
  ∀ i sa, info i = some sa → (∀ j, i < j → info j = none) → sa + saLen mem sa ≤ rtm + len

variable {mem} {mem' : Nat → Byte} {cplim addrs left i cp rtm len : Nat} {info : Nat → Option Nat}

theorem le_roundup (a : Nat) : a ≤ roundup a := by
  unfold roundup
  split
  · have : a - 1 ≤ (a - 1) ||| 3 := Nat.left_le_or
    omega
  · omega

/-- The addresses of the kinds from `i` on come one behind the other, from `cp` on, and begin before the end. -/
structure Walked (mem : Nat → Byte) (cplim i cp : Nat) (info info' : Nat → Option Nat) : Prop where
  before : ∀ j, j < i → info' j = info j
  begins : ∀ j sa, i ≤ j → info' j = some sa → cp ≤ sa ∧ sa < cplim
  behind : ∀ j k sa sb, i ≤ j → j < k → info' j = some sa → info' k = some sb → sa + roundup (saLen mem sa) ≤ sb

theorem Walked.stop (hnone : ∀ j, i ≤ j → info j = none) : Walked mem cplim i cp info info :=
  ⟨fun _ _ => rfl, fun j sa hj hsa => absurd (hsa.symm.trans (hnone j hj)) (Option.some_ne_none sa),
    fun j _ sa _ hj _ hsa _ => absurd (hsa.symm.trans (hnone j hj)) (Option.some_ne_none sa)⟩

theorem xaddrsLoop_spec (hnone : ∀ j, i ≤ j → info j = none) : Walked mem cplim i cp info (xaddrsLoop mem cplim addrs left i cp info) := by
  induction left generalizing i cp info with
  | zero => exact .stop hnone
  | succ left ih =>
    unfold xaddrsLoop
    split
    · next hlt =>
      have hcases : ∀ j, i ≤ j → j = i ∨ i + 1 ≤ j := fun j hj => by omega
      split
      · -- kind `i` was not asked for, and stays without an address
        have hw : Walked mem cplim (i + 1) cp info _ := ih fun j hj => hnone j (by omega)
        have hskip := (hw.before i (Nat.lt_succ_self i)).trans (hnone i (Nat.le_refl i))
        refine ⟨fun j hj => hw.before j (by omega), fun j sa hj hsa => ?_, fun j k sa sb hj hjk hsa hsb => ?_⟩
        · rcases hcases j hj with rfl | hj
          · exact absurd (hsa.symm.trans hskip) (Option.some_ne_none sa)
          · exact hw.begins j sa hj hsa
        · rcases hcases j hj with rfl | hj
          · exact absurd (hsa.symm.trans hskip) (Option.some_ne_none sa)
          · exact hw.behind j k sa sb hj hjk hsa hsb
      · have hw : Walked mem cplim (i + 1) (cp + roundup (saLen mem cp)) (update info i (some cp)) _ := ih fun j hj =>
          (Function.update_of_ne (by omega) ..).trans (hnone j (by omega))
        have hself := (hw.before i (Nat.lt_succ_self i)).trans (Function.update_self ..)
        refine ⟨fun j hj => (hw.before j (by omega)).trans (Function.update_of_ne (by omega) ..), fun j sa hj hsa => ?_,
          fun j k sa sb hj hjk hsa hsb => ?_⟩
        · rcases hcases j hj with rfl | hj
          · obtain rfl : sa = cp := Option.some.inj (hsa.symm.trans hself)
            exact ⟨Nat.le_refl _, hlt⟩
          · have := hw.begins j sa hj hsa
            omega
        · rcases hcases j hj with rfl | hj
          · obtain rfl : sa = cp := Option.some.inj (hsa.symm.trans hself)
            exact (hw.begins k sb hjk hsb).1
          · exact hw.behind j k sa sb hj hjk hsa hsb
    · exact .stop hnone

theorem LastFits.all (h : LastFits mem rtm len (rtXaddrs mem cp (rtm + len) addrs)) {sa : Nat}
    (hsa : rtXaddrs mem cp (rtm + len) addrs i = some sa) : sa + saLen mem sa ≤ rtm + len := by
  have hw : Walked mem (rtm + len) 0 cp (fun _ => none) (rtXaddrs mem cp (rtm + len) addrs) := xaddrsLoop_spec fun _ _ => rfl
  by_cases hlast : ∀ j, i < j → rtXaddrs mem cp (rtm + len) addrs j = none
  · exact h i sa hsa hlast
  · obtain ⟨j, hj⟩ := not_forall.1 hlast
    obtain ⟨hij, hne⟩ := Classical.not_imp.1 hj
    obtain ⟨sb, hsb⟩ := Option.ne_none_iff_exists'.1 hne
    have hbehind := hw.behind i j sa sb (Nat.zero_le i) hij hsa hsb
    have hround := le_roundup (saLen mem sa)
    have hlt := (hw.begins j sb (Nat.zero_le j) hsb).2
    omega

/-- A request of 80 bytes at 0 with a destination; `n` is the length that the destination says it has. -/
def oneAddress (n : Byte) (x : Nat) : Byte := if x = 0 then 80 else if x = 2 then 3 else if x = 12 then 1 else if x = 76 then n else 0

end NetBSD.Route
