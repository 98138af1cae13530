import NetBSD.Lib.Runs
import Mathlib.Data.BitVec

/-!
# Masks

`rn_refines`, of `radix.c`.
-/

namespace NetBSD.Net

open Function (update)

abbrev Caddr := Nat → BitVec 8

def rnZeros : Caddr := fun _ => 0

def bcmpEq (v w : Caddr) (lo hi : Nat) : Bool := (List.range' lo (hi - lo)).all fun i => v i = w i

def rnRefines (m n : Caddr) : Bool :=
  let lim := min (m 0).toNat (n 0).toNat
  let i := max 1 lim
  let equal := bcmpEq m n 1 lim
  if (List.range' 1 (lim - 1)).any fun j => n j &&& ~~~m j ≠ 0 then false
  else if (List.range' i ((n 0).toNat - i)).any fun j => n j ≠ 0 then false
  else if equal ∧ (List.range' i ((m 0).toNat - (n 0).toNat)).any fun j => m j ≠ 0 then true
  else !equal

end NetBSD.Net

/-!
## The interface on a network

`ifa_ifwithnet`, of `if.c`. An interface address is named by a number; a socket address is what is in memory from it
on, so that its length is byte 0 and its family byte 1. A mask ends at its length: it may be trimmed, and what is
behind it counts as zero. `lead` is what the masks of a family have in the bytes before the address, which begins at
byte `off`.
-/

namespace NetBSD.Net

structure Ifaddr where
  ifaAddr : Caddr
  ifaNetmask : Option Caddr

/-- The list at `ifnet`, with the list at `if_addrlist` for each interface, and `ifnet_addrs`, with `if_index` places. -/
structure Interfaces where
  ifnet : List (List Nat)
  ifaddr : Nat → Ifaddr
  ifnetAddrs : List Nat

def saLen (sa : Caddr) : Nat := (sa 0).toNat

def saFamily (sa : Caddr) : BitVec 8 := sa 1

def afLink : BitVec 8 := 18

def sdlIndex (sdl : Caddr) : Nat := (sdl 2).toNat + 256 * (sdl 3).toNat

def onNet (addr ifaAddr netmask : Caddr) : Bool :=
  (List.range' 2 (saLen netmask - 2)).all fun i => (addr i ^^^ ifaAddr i) &&& netmask i = 0

def nextMaybe (s : Interfaces) (addr : Caddr) (maybe : Option Nat) (ifa : Nat) : Option Nat :=
  if saFamily (s.ifaddr ifa).ifaAddr ≠ saFamily addr then maybe
  else
    match (s.ifaddr ifa).ifaNetmask with
    | none => maybe
    | some netmask =>
      if onNet addr (s.ifaddr ifa).ifaAddr netmask then
        match maybe.bind fun best => (s.ifaddr best).ifaNetmask with
        | none => some ifa
        | some bestMask => if rnRefines netmask bestMask then some ifa else maybe
      else maybe

def Interfaces.Indexed (s : Interfaces) (addr : Caddr) : Prop :=
  saFamily addr = afLink ∧ sdlIndex addr ≠ 0 ∧ sdlIndex addr ≤ s.ifnetAddrs.length

instance (s : Interfaces) (addr : Caddr) : Decidable (s.Indexed addr) := inferInstanceAs (Decidable (_ ∧ _ ∧ _))

def ifaIfwithnet (s : Interfaces) (addr : Caddr) : Option Nat :=
  if s.Indexed addr then s.ifnetAddrs[sdlIndex addr - 1]?
  else s.ifnet.foldl (fun maybe addrlist => addrlist.foldl (nextMaybe s addr) maybe) none

def maskByte (netmask : Caddr) (i : Nat) : BitVec 8 := if i < saLen netmask then netmask i else 0

def Within (off : Nat) (n m : Caddr) : Prop := ∀ i, off ≤ i → maskByte n i &&& ~~~maskByte m i = 0

def onesByte (k : Nat) : BitVec 8 := ~~~((0xff : BitVec 8) >>> k)

def Contiguous (off : Nat) (lead netmask : Caddr) : Prop :=
  ∃ plen, ∀ i, 1 ≤ i → i < saLen netmask → netmask i = if i < off then lead i else onesByte (plen - 8 * (i - off))

def Interfaces.attached (s : Interfaces) : List Nat := s.ifnet.flatten

structure Interfaces.OnNetwork (s : Interfaces) (addr : Caddr) (ifa : Nat) (netmask : Caddr) : Prop where
  family : saFamily (s.ifaddr ifa).ifaAddr = saFamily addr
  masked : (s.ifaddr ifa).ifaNetmask = some netmask
  agrees : ∀ i, 2 ≤ i → addr i &&& maskByte netmask i = (s.ifaddr ifa).ifaAddr i &&& maskByte netmask i

/-- Of those in `l` whose network has the address, no other has a mask with more bits from byte `off` on. -/
structure Interfaces.MostSpecific (s : Interfaces) (l : List Nat) (off : Nat) (addr : Caddr) (ifa : Nat)
    (netmask : Caddr) : Prop where
  mem : ifa ∈ l
  onNetwork : s.OnNetwork addr ifa netmask
  best : ∀ ifa' ∈ l, ∀ netmask', s.OnNetwork addr ifa' netmask' → Within off netmask' netmask

variable {s : Interfaces} {addr lead k m n : Caddr} {off ifa : Nat} {maybe : Option Nat} {l done : List Nat}

theorem Within.refl (off : Nat) (m : Caddr) : Within off m m := fun i _ => by simp

theorem Within.trans (hlm : Within off k m) (hmn : Within off m n) : Within off k n := fun i hi => by
  have hl := hlm i hi
  have hm := hmn i hi
  ext j hj
  have hlj := congrArg (·[j]) hl
  have hmj := congrArg (·[j]) hm
  simp only [BitVec.getElem_and, BitVec.getElem_not] at hlj hmj ⊢
  grind

theorem Within.mono {off' : Nat} (h : Within off n m) (hoff : off ≤ off') : Within off' n m :=
  fun i hi => h i (Nat.le_trans hoff hi)

theorem within_of_rnRefines (h : rnRefines m n = true) : Within 1 n m := by
  unfold rnRefines at h
  dsimp only at h
  split at h
  · cases h
  · next hfront =>
    split at h
    · cases h
    · next hback =>
      simp only [List.any_eq_true, List.mem_range'_1, decide_eq_true_eq, not_exists, not_and, not_not] at hfront hback
      intro i hi
      unfold maskByte saLen
      split_ifs with hn hm
      · exact hfront i ⟨hi, by omega⟩
      · rw [hback i ⟨by omega, by omega⟩]
        rfl
      · exact BitVec.zero_and
      · exact BitVec.zero_and

theorem rnRefines_of_within (hwithin : Within 1 n m) (hnot : ¬ Within 1 m n) : rnRefines m n = true := by
  obtain ⟨i, hi, hbit⟩ : ∃ i, 1 ≤ i ∧ maskByte m i &&& ~~~maskByte n i ≠ 0 := by
    simpa [Within] using hnot
  have him : i < (m 0).toNat := by
    by_contra hge
    rw [maskByte, if_neg (show ¬ i < saLen m from hge)] at hbit
    exact hbit BitVec.zero_and
  have hmi : maskByte m i = m i := if_pos him
  unfold rnRefines
  dsimp only
  rw [if_neg, if_neg]
  · by_cases hin : i < (n 0).toNat
    · -- the masks differ at `i`
      have hequal : bcmpEq m n 1 (min (m 0).toNat (n 0).toNat) = false := by
        refine Bool.eq_false_iff.mpr fun hall => hbit ?_
        have heq : m i = n i := by
          simpa using List.all_eq_true.mp hall i (by simp only [List.mem_range'_1]; omega)
        have hni : maskByte n i = n i := if_pos hin
        rw [hmi, hni, heq, BitVec.and_not_self]
      rw [hequal]
      simp
    · have hni : maskByte n i = 0 := if_neg hin
      have hne : m i ≠ 0 := fun hzero => hbit (by rw [hmi, hzero]; exact BitVec.zero_and)
      have hmore : ((List.range' (max 1 (min (m 0).toNat (n 0).toNat)) ((m 0).toNat - (n 0).toNat)).any
          fun j => m j ≠ 0) = true :=
        List.any_eq_true.mpr ⟨i, by simp only [List.mem_range'_1]; omega, by simpa using hne⟩
      split_ifs with hequal
      · rfl
      · simpa using fun heq => hequal ⟨heq, hmore⟩
  · simp only [List.any_eq_true, List.mem_range'_1, decide_eq_true_eq, not_exists, not_and, not_not]
    intro j hj
    have hjn := hwithin j (by omega)
    rw [maskByte, if_pos (show j < saLen n by unfold saLen; omega), maskByte,
      if_neg (show ¬ j < saLen m by unfold saLen; omega)] at hjn
    have hid : n j &&& ~~~(0 : BitVec 8) = n j := BitVec.and_allOnes
    rwa [hid] at hjn
  · simp only [List.any_eq_true, List.mem_range'_1, decide_eq_true_eq, not_exists, not_and, not_not]
    intro j hj
    have hjn := hwithin j (by omega)
    rwa [maskByte, if_pos (show j < saLen n by unfold saLen; omega), maskByte,
      if_pos (show j < saLen m by unfold saLen; omega)] at hjn

theorem onesByte_within {p q : Nat} (h : p ≤ q) : onesByte p &&& ~~~onesByte q = 0 := by
  ext j hj
  have hbit : ∀ k, (onesByte k)[j] = ! decide (k + j < 8) := fun k => by
    rw [onesByte, BitVec.getElem_not, BitVec.getElem_ushiftRight]
    exact congrArg (! ·) BitVec.getLsbD_allOnes
  rw [BitVec.getElem_and, BitVec.getElem_not, hbit, hbit]
  simp
  omega

theorem Contiguous.bytes (h : Contiguous off lead m) : ∃ plen, (saLen m ≤ off → plen = 0) ∧ ∀ i, 1 ≤ i →
    maskByte m i = if off ≤ i then onesByte (plen - 8 * (i - off)) else if i < saLen m then lead i else 0 := by
  obtain ⟨plen, hbytes⟩ := h
  refine ⟨min plen (8 * (saLen m - off)), fun hlen => by omega, fun i hi => ?_⟩
  unfold maskByte
  by_cases hlen : i < saLen m
  · rw [if_pos hlen, hbytes i hi hlen]
    by_cases hoff : i < off
    · rw [if_pos hoff, if_neg (by omega), if_pos hlen]
    · rw [if_neg hoff, if_pos (by omega)]
      by_cases hshort : plen ≤ 8 * (saLen m - off)
      · rw [Nat.min_eq_left hshort]
      · have hones : ∀ k, 8 ≤ k → onesByte k = 0xff := fun k hk => by
          rw [onesByte, BitVec.ushiftRight_eq_zero hk]
          rfl
        rw [hones _ (by omega), hones _ (by omega)]
  · rw [if_neg hlen, if_neg hlen]
    split_ifs with hoff
    · have hnone : min plen (8 * (saLen m - off)) - 8 * (i - off) = 0 := by omega
      rw [hnone]
      rfl
    · rfl

theorem Contiguous.total (hm : Contiguous off lead m) (hn : Contiguous off lead n) : Within 1 m n ∨ Within 1 n m := by
  obtain ⟨p, hp, hmbytes⟩ := hm.bytes
  obtain ⟨q, hq, hnbytes⟩ := hn.bytes
  have hwithin : ∀ {m n : Caddr} {p q : Nat},
      (∀ i, 1 ≤ i → maskByte m i =
        if off ≤ i then onesByte (p - 8 * (i - off)) else if i < saLen m then lead i else 0) →
      (∀ i, 1 ≤ i → maskByte n i =
        if off ≤ i then onesByte (q - 8 * (i - off)) else if i < saLen n then lead i else 0) →
      p ≤ q → (∀ i < off, i < saLen m → i < saLen n) → Within 1 m n := by
    intro m n p q hm hn hpq hlens i hi
    rw [hm i hi, hn i hi]
    by_cases hoff : off ≤ i
    · rw [if_pos hoff, if_pos hoff]
      exact onesByte_within (by omega)
    · rw [if_neg hoff, if_neg hoff]
      by_cases hlen : i < saLen m
      · rw [if_pos hlen, if_pos (hlens i (by omega) hlen), BitVec.and_not_self]
      · rw [if_neg hlen]
        exact BitVec.zero_and
  by_cases hmoff : saLen m ≤ off
  · by_cases hnoff : saLen n ≤ off
    · rcases Nat.le_total (saLen m) (saLen n) with hle | hle
      · exact .inl (hwithin hmbytes hnbytes (by rw [hp hmoff]; exact Nat.zero_le _) fun i _ _ => by omega)
      · exact .inr (hwithin hnbytes hmbytes (by rw [hq hnoff]; exact Nat.zero_le _) fun i _ _ => by omega)
    · exact .inl (hwithin hmbytes hnbytes (by rw [hp hmoff]; exact Nat.zero_le _) fun i _ _ => by omega)
  · by_cases hnoff : saLen n ≤ off
    · exact .inr (hwithin hnbytes hmbytes (by rw [hq hnoff]; exact Nat.zero_le _) fun i _ _ => by omega)
    · rcases Nat.le_total p q with hle | hle
      · exact .inl (hwithin hmbytes hnbytes hle fun i _ _ => by omega)
      · exact .inr (hwithin hnbytes hmbytes hle fun i _ _ => by omega)

theorem masked_eq_iff (x y m : BitVec 8) : (x ^^^ y) &&& m = 0 ↔ x &&& m = y &&& m := by
  constructor
  · intro h
    ext j hj
    have hbit := congrArg (·[j]) h
    simp only [BitVec.getElem_and, BitVec.getElem_xor] at hbit ⊢
    grind
  · intro h
    ext j hj
    have hbit := congrArg (·[j]) h
    simp only [BitVec.getElem_and, BitVec.getElem_xor] at hbit ⊢
    grind

theorem onNet_iff {ifaAddr : Caddr} : onNet addr ifaAddr m = true ↔
    ∀ i, 2 ≤ i → addr i &&& maskByte m i = ifaAddr i &&& maskByte m i := by
  unfold onNet
  simp only [List.all_eq_true, List.mem_range'_1, decide_eq_true_eq, masked_eq_iff]
  constructor
  · intro h i hi
    unfold maskByte
    split_ifs with hlen
    · exact h i ⟨hi, by omega⟩
    · exact BitVec.and_zero.trans BitVec.and_zero.symm
  · intro h i hi
    have hbyte := h i hi.1
    rwa [maskByte, if_pos (by omega)] at hbyte

theorem nextMaybe_none (h : s.OnNetwork addr ifa m) : nextMaybe s addr none ifa = some ifa := by
  rw [nextMaybe, if_neg (not_not.mpr h.family), h.masked]
  exact if_pos (onNet_iff.mpr h.agrees)

theorem nextMaybe_some {best : Nat} (h : s.OnNetwork addr ifa m) (hbest : s.OnNetwork addr best n) :
    nextMaybe s addr (some best) ifa = if rnRefines m n then some ifa else some best := by
  rw [nextMaybe, if_neg (not_not.mpr h.family), h.masked]
  dsimp only
  rw [if_pos (onNet_iff.mpr h.agrees), Option.bind_some, hbest.masked]

theorem nextMaybe_of_not (h : ∀ m, ¬ s.OnNetwork addr ifa m) : nextMaybe s addr maybe ifa = maybe := by
  unfold nextMaybe
  split_ifs with hfamily
  · rfl
  · cases hmask : (s.ifaddr ifa).ifaNetmask with
    | none => rfl
    | some m =>
      exact if_neg fun hon => h m ⟨not_not.mp hfamily, hmask, onNet_iff.mp hon⟩

def Best (s : Interfaces) (addr : Caddr) (done : List Nat) : Option Nat → Prop
  | none => ∀ ifa ∈ done, ∀ netmask, ¬ s.OnNetwork addr ifa netmask
  | some ifa => ∃ netmask, s.MostSpecific done 1 addr ifa netmask

theorem Best.next (hbest : Best s addr done maybe)
    (htotal : ∀ best ∈ done, ∀ m n, s.OnNetwork addr ifa m → s.OnNetwork addr best n → Within 1 m n ∨ Within 1 n m) :
    Best s addr (done ++ [ifa]) (nextMaybe s addr maybe ifa) := by
  by_cases hon : ∃ m, s.OnNetwork addr ifa m
  · obtain ⟨m, hm⟩ := hon
    have hunique : ∀ {m'}, s.OnNetwork addr ifa m' → m' = m := fun hm' =>
      Option.some.inj (hm'.masked.symm.trans hm.masked)
    cases maybe with
    | none =>
      rw [nextMaybe_none hm]
      refine ⟨m, by simp, hm, fun ifa' hmem m' hm' => ?_⟩
      rcases List.mem_append.mp hmem with hmem | hmem
      · exact absurd hm' (hbest ifa' hmem m')
      · obtain rfl := List.mem_singleton.mp hmem
        exact hunique hm' ▸ .refl 1 m'
    | some best =>
      obtain ⟨n, hbest⟩ := hbest
      rw [nextMaybe_some hm hbest.onNetwork]
      split_ifs with hrefines
      · refine ⟨m, by simp, hm, fun ifa' hmem m' hm' => ?_⟩
        rcases List.mem_append.mp hmem with hmem | hmem
        · exact (hbest.best ifa' hmem m' hm').trans (within_of_rnRefines hrefines)
        · obtain rfl := List.mem_singleton.mp hmem
          exact hunique hm' ▸ .refl 1 m'
      · -- the mask is comparable with that of `best`, and has no more bits
        have hless : Within 1 m n := by
          rcases htotal best hbest.mem m n hm hbest.onNetwork with hmn | hnm
          · exact hmn
          · by_contra hnot
            exact hrefines (rnRefines_of_within hnm hnot)
        refine ⟨n, by simp [hbest.mem], hbest.onNetwork, fun ifa' hmem m' hm' => ?_⟩
        rcases List.mem_append.mp hmem with hmem | hmem
        · exact hbest.best ifa' hmem m' hm'
        · obtain rfl := List.mem_singleton.mp hmem
          exact hunique hm' ▸ hless
  · have hnot : ∀ m, ¬ s.OnNetwork addr ifa m := not_exists.mp hon
    rw [nextMaybe_of_not hnot]
    cases maybe with
    | none =>
      intro ifa' hmem
      rcases List.mem_append.mp hmem with hmem | hmem
      · exact hbest ifa' hmem
      · obtain rfl := List.mem_singleton.mp hmem
        exact hnot
    | some best =>
      obtain ⟨n, hbest⟩ := hbest
      refine ⟨n, by simp [hbest.mem], hbest.onNetwork, fun ifa' hmem m' hm' => ?_⟩
      rcases List.mem_append.mp hmem with hmem | hmem
      · exact hbest.best ifa' hmem m' hm'
      · obtain rfl := List.mem_singleton.mp hmem
        exact absurd hm' (hnot m')

theorem Best.foldl (hbest : Best s addr done maybe)
    (htotal : ∀ a ∈ done ++ l, ∀ b ∈ done ++ l, ∀ m n, s.OnNetwork addr a m → s.OnNetwork addr b n →
      Within 1 m n ∨ Within 1 n m) : Best s addr (done ++ l) (l.foldl (nextMaybe s addr) maybe) := by
  induction l generalizing done maybe with
  | nil => simpa using hbest
  | cons a l ih =>
    have hnext := hbest.next fun best hb m n => htotal a (by simp) best (by simp [hb]) m n
    simpa using ih hnext (by simpa using htotal)

/-- **`ifa_ifwithnet`**, with contiguous masks that agree ahead of the address: for an `AF_LINK` address with the index
of an interface, that interface's; for any other one whose network has the address and whose mask is the most specific,
and none only where there is none. -/
theorem ifaIfwithnet_mostSpecific
    (hmasks : ∀ ifa ∈ s.attached, saFamily (s.ifaddr ifa).ifaAddr = saFamily addr →
      ∀ netmask, (s.ifaddr ifa).ifaNetmask = some netmask → Contiguous off lead netmask) :
    (s.Indexed addr → ifaIfwithnet s addr = s.ifnetAddrs[sdlIndex addr - 1]?) ∧
      (¬ s.Indexed addr →
        (∃ ifa netmask, ifaIfwithnet s addr = some ifa ∧ s.MostSpecific s.attached 2 addr ifa netmask) ∨
          ifaIfwithnet s addr = none ∧ ∀ ifa ∈ s.attached, ∀ netmask, ¬ s.OnNetwork addr ifa netmask) := by
  refine ⟨fun hindexed => if_pos hindexed, fun hnot => ?_⟩
  have hfold : ifaIfwithnet s addr = s.attached.foldl (nextMaybe s addr) none := by
    rw [ifaIfwithnet, if_neg hnot, Interfaces.attached, List.foldl_flatten]
  have hbest : Best s addr s.attached (ifaIfwithnet s addr) := by
    rw [hfold]
    have hempty : Best s addr [] none := fun _ h => absurd h (by simp)
    refine hempty.foldl fun a ha b hb m n hm hn => ?_
    exact (hmasks a ha hm.family m hm.masked).total (hmasks b hb hn.family n hn.masked)
  cases hresult : ifaIfwithnet s addr with
  | none =>
    rw [hresult] at hbest
    exact .inr ⟨rfl, hbest⟩
  | some ifa =>
    rw [hresult] at hbest
    obtain ⟨netmask, hifa⟩ := hbest
    exact .inl ⟨ifa, netmask, rfl, hifa.mem, hifa.onNetwork, fun ifa' hmem m hm =>
      (hifa.best ifa' hmem m hm).mono (by decide)⟩

def bytes (l : List (BitVec 8)) : Caddr := (l.getD · 0)

def twoNets : Interfaces where
  ifnet := [[0], [1]]
  ifaddr ifa :=
    if ifa = 0 then ⟨bytes [16, 2, 0, 0, 10, 0, 0, 1], some (bytes [5, 0, 0, 0, 255])⟩
    else ⟨bytes [16, 2, 0, 0, 10, 1, 0, 1], some (bytes [6, 0, 0, 0, 255, 255])⟩
  ifnetAddrs := []

theorem contiguous_twoNets : ∀ ifa ∈ twoNets.attached, ∀ netmask,
    (twoNets.ifaddr ifa).ifaNetmask = some netmask → Contiguous 4 rnZeros netmask := by
  intro ifa hifa netmask hmask
  obtain rfl | rfl : ifa = 0 ∨ ifa = 1 := by simpa [Interfaces.attached, twoNets] using hifa
  · obtain rfl := Option.some.inj hmask
    refine ⟨8, fun i hi hlen => ?_⟩
    have hlen : i < 5 := hlen
    obtain rfl | rfl | rfl | rfl : i = 1 ∨ i = 2 ∨ i = 3 ∨ i = 4 := by omega
    all_goals decide
  · obtain rfl := Option.some.inj hmask
    refine ⟨16, fun i hi hlen => ?_⟩
    have hlen : i < 6 := hlen
    obtain rfl | rfl | rfl | rfl | rfl : i = 1 ∨ i = 2 ∨ i = 3 ∨ i = 4 ∨ i = 5 := by omega
    all_goals decide

theorem ifaIfwithnet_mostSpecific_twoNets :
    ifaIfwithnet twoNets (bytes [16, 2, 0, 0, 10, 1, 2, 3]) = some 1 ∧
      ∃ netmask, twoNets.MostSpecific twoNets.attached 2 (bytes [16, 2, 0, 0, 10, 1, 2, 3]) 1 netmask := by
  have hresult : ifaIfwithnet twoNets (bytes [16, 2, 0, 0, 10, 1, 2, 3]) = some 1 := rfl
  have hnot : ¬ twoNets.Indexed (bytes [16, 2, 0, 0, 10, 1, 2, 3]) := by decide
  refine ⟨hresult, ?_⟩
  obtain ⟨ifa, netmask, hsome, hbest⟩ | ⟨hnone, -⟩ :=
    (ifaIfwithnet_mostSpecific fun ifa hifa _ => contiguous_twoNets ifa hifa).2 hnot
  · obtain rfl := Option.some.inj (hresult.symm.trans hsome)
    exact ⟨netmask, hbest⟩
  · cases hresult.symm.trans hnone

def linkOnly : Interfaces where
  ifnet := [[0]]
  ifaddr _ := ⟨bytes [20, 18, 1, 0, 6, 3, 0, 0, 108, 101, 48], some (bytes [11, 0, 0, 0, 0, 0, 0, 0, 255, 255, 255])⟩
  ifnetAddrs := [0]

/-- For `de0` with the index of `le0`, the address of `le0` is found. -/
theorem ifaIfwithnet_linkIndex : ¬ ∀ s addr off lead,
    (∀ ifa ∈ s.attached, saFamily (s.ifaddr ifa).ifaAddr = saFamily addr →
      ∀ netmask, (s.ifaddr ifa).ifaNetmask = some netmask → Contiguous off lead netmask) →
    (∃ ifa netmask, ifaIfwithnet s addr = some ifa ∧ s.MostSpecific s.attached 2 addr ifa netmask) ∨
      ifaIfwithnet s addr = none ∧ ∀ ifa ∈ s.attached, ∀ netmask, ¬ s.OnNetwork addr ifa netmask := by
  intro hall
  have hresult : ifaIfwithnet linkOnly (bytes [20, 18, 1, 0, 6, 3, 0, 0, 100, 101, 48]) = some 0 := rfl
  have hcontiguous : Contiguous 8 rnZeros (bytes [11, 0, 0, 0, 0, 0, 0, 0, 255, 255, 255]) := by
    refine ⟨24, fun i hi hlen => ?_⟩
    have hlen : i < 11 := hlen
    obtain rfl | rfl | rfl | rfl | rfl | rfl | rfl | rfl | rfl | rfl : i = 1 ∨ i = 2 ∨ i = 3 ∨ i = 4 ∨ i = 5 ∨ i = 6 ∨
        i = 7 ∨ i = 8 ∨ i = 9 ∨ i = 10 := by omega
    all_goals decide
  obtain ⟨ifa, netmask, hsome, hbest⟩ | ⟨hnone, -⟩ :=
    hall linkOnly (bytes [20, 18, 1, 0, 6, 3, 0, 0, 100, 101, 48]) 8 rnZeros fun ifa _ _ netmask hmask =>
      Option.some.inj hmask ▸ hcontiguous
  · obtain rfl := Option.some.inj (hresult.symm.trans hsome)
    obtain rfl := Option.some.inj hbest.onNetwork.masked
    exact absurd (hbest.onNetwork.agrees 8 (by decide)) (by decide)
  · cases hresult.symm.trans hnone

end NetBSD.Net
