import NetBSD.Resolv.Name
import Mathlib.Logic.Relation

/-!
# Finding a name

`dn_find` finds a name only where its labels are.
-/

namespace NetBSD.Resolv

variable {msg : Message} {s o n : Nat} {l m : Label} {ls ms : List Label} {text rest : List Byte}

inductive Spells : List Byte → List Label → Prop where
  | nil : Spells [] []
  | last {l : Label} : Clean l → Spells (escape l) [l]
  | cons {l : Label} {text : List Byte} {ls : List Label} : Clean l → Spells text ls →
      Spells (escape l ++ dot :: text) (l :: ls)

theorem findLabel_spec (hplain : ∀ c ∈ l, c ≠ 0 ∧ c ≠ backslash) (hstored : Stored msg o l)
    (hm : ∀ c ∈ m, c ≠ 0 ∧ c ≠ backslash) (hrest : rest = [] ∨ ∃ t, rest = dot :: t) :
    ∃ r, findLabel msg l.length o (escape m ++ rest) = some r ∧
      ∀ dn, r = some dn → ∃ m', m = l ++ m' ∧ dn = escape m' ++ rest := by
  induction l generalizing o m with
  | nil => exact ⟨_, rfl, fun dn heq => ⟨m, rfl, (Option.some.inj heq).symm⟩⟩
  | cons a l ih =>
    have hfirst : msg o = a := hstored 0 (Nat.succ_pos _)
    have hnext : Stored msg (o + 1) l := by
      intro i hi
      have hsucc := hstored (i + 1) (Nat.succ_lt_succ hi)
      rw [List.getElem_cons_succ] at hsucc
      rwa [Nat.add_assoc, Nat.add_comm 1 i]
    have hnone : ∀ dn : List Byte, (none : Option (List Byte)) = some dn → ∃ m', m = a :: l ++ m' ∧ dn = escape m' ++ rest :=
      fun dn heq => absurd heq (Option.some_ne_none dn).symm
    cases m with
    | nil =>
      have hempty : escape [] = [] := rfl
      rw [hempty, List.nil_append]
      rcases hrest with rfl | ⟨t, rfl⟩
      · refine ⟨none, ?_, hnone⟩
        rw [List.length_cons, findLabel, if_neg (by rw [hfirst]; exact (hplain a List.mem_cons_self).1)]
      · refine ⟨none, ?_, hnone⟩
        rw [List.length_cons, findLabel.eq_def]
        dsimp only
        rw [if_pos rfl]
    | cons b m =>
      -- Whether the byte is escaped or not, it is compared with the first one of the label.
      have hstep : findLabel msg (a :: l).length o (escape (b :: m) ++ rest) =
          if b = msg o then findLabel msg l.length (o + 1) (escape m ++ rest) else some none := by
        rw [escape_cons, List.length_cons]
        by_cases hdot : b = dot
        · rw [if_pos hdot, hdot, List.append_assoc, List.cons_append, List.singleton_append, findLabel.eq_def]
          dsimp only
          rw [if_neg (by decide), if_pos rfl]
        · rw [if_neg hdot, List.append_assoc, List.singleton_append, findLabel.eq_def]
          dsimp only
          rw [if_neg hdot, if_neg (hm b List.mem_cons_self).2]
      rw [hstep]
      by_cases heq : b = msg o
      · obtain ⟨r, hr, hdn⟩ := ih (fun c hc => hplain c (List.mem_cons_of_mem a hc)) hnext
          fun c hc => hm c (List.mem_cons_of_mem b hc)
        refine ⟨r, by rw [if_pos heq, hr], fun dn hdn' => ?_⟩
        obtain ⟨m', rfl, rfl⟩ := hdn dn hdn'
        exact ⟨m', by rw [heq, hfirst, List.cons_append], rfl⟩
      · exact ⟨none, if_neg heq, fun dn hdn => absurd hdn (Option.some_ne_none dn).symm⟩

theorem Spells.split (h : Spells text ms) : ∃ m rest, text = escape m ++ rest ∧ (∀ c ∈ m, c ≠ 0 ∧ c ≠ backslash) ∧
    (rest = [] ∧ (m ≠ [] → ms = [m]) ∨ ∃ t ms', rest = dot :: t ∧ ms = m :: ms' ∧ Spells t ms') := by
  cases h with
  | nil => exact ⟨[], [], rfl, (fun c hc => absurd hc List.not_mem_nil), Or.inl ⟨rfl, fun hne => absurd rfl hne⟩⟩
  | @last l hl => exact ⟨l, [], (List.append_nil _).symm, hl.plain, Or.inl ⟨rfl, fun _ => rfl⟩⟩
  | @cons l t ls hl ht => exact ⟨l, dot :: t, rfl, hl.plain, Or.inr ⟨t, ls, rfl, rfl, ht⟩⟩

theorem NameAt.eq_nil (h : NameAt msg s o ls n) (hzero : msg o = 0) : ls = [] := by
  cases h with
  | root => rfl
  | label hclean hlen => exact absurd (hlen.symm.trans hzero) (length_byte hclean.pos hclean.lt_64).2.1
  | pointer hmask => exact absurd hzero (indirMask_ne hmask).1

theorem findName_spec {fuel : Nat} (h : NameAt msg s o ls n) (htext : Spells text ms) (hfuel : s + n ≤ fuel) :
    ∃ r, findName msg fuel o text = some r ∧ r ≠ .illegal ∧ (r = .found → ms = ls) := by
  induction h generalizing fuel text ms with
  | @root s o hzero =>
    obtain ⟨fuel, rfl⟩ := Nat.exists_eq_succ_of_ne_zero (show fuel ≠ 0 by omega)
    refine ⟨_, by rw [findName, if_pos hzero], ?_, ?_⟩
    · split <;> exact Found.noConfusion
    · intro hfound
      have hnil : text = [] := by
        by_contra hne
        rw [if_neg hne] at hfound
        cases hfound
      cases htext with
      | nil => rfl
      | last hl => exact absurd hnil (escape_ne_nil hl.ne)
      | cons => simp at hnil
  | @label s o l ls n hclean hlen hstored hname ih =>
    obtain ⟨fuel, rfl⟩ := Nat.exists_eq_succ_of_ne_zero (show fuel ≠ 0 by omega)
    have hpos := hname.pos
    obtain ⟨hnat, hne, hmask⟩ := length_byte hclean.pos hclean.lt_64
    obtain ⟨m, rest, rfl, hm, hms⟩ := htext.split
    have hrest : rest = [] ∨ ∃ t, rest = dot :: t := by
      rcases hms with ⟨hnil, -⟩ | ⟨t, -, ht, -⟩
      · exact Or.inl hnil
      · exact Or.inr ⟨t, ht⟩
    obtain ⟨r, hr, hdn⟩ := findLabel_spec hclean.plain hstored hm hrest
    rw [findName, hlen, if_neg hne, if_pos hmask, hnat, hr]
    cases r with
    | none => exact ⟨.next, rfl, Found.noConfusion, fun h => Found.noConfusion h⟩
    | some dn =>
      obtain ⟨m', rfl, rfl⟩ := hdn dn rfl
      have hwhole : l ++ m' ≠ [] := fun hnil => hclean.ne (List.append_eq_nil_iff.mp hnil).1
      cases hdn : escape m' ++ rest with
      | nil =>
        obtain ⟨hescape, rfl⟩ := List.append_eq_nil_iff.mp hdn
        have hm' : m' = [] := by
          by_contra hne'
          exact escape_ne_nil hne' hescape
        dsimp only
        refine ⟨_, rfl, by split <;> exact Found.noConfusion, fun hfound => ?_⟩
        have hzero : msg (o + 1 + l.length) = 0 := by
          by_contra hne'
          rw [if_neg hne'] at hfound
          cases hfound
        rcases hms with ⟨-, hlast⟩ | ⟨t, -, ht, -⟩
        · rw [hlast hwhole, hm', List.append_nil, hname.eq_nil hzero]
        · cases ht
      | cons c dn =>
        dsimp only
        by_cases hdot : c = dot
        · rw [if_pos hdot]
          have hm' : m' = [] := by
            by_contra hne'
            exact escape_head hne' hdn hdot
          subst hm'
          have hempty : escape [] = [] := rfl
          rw [hempty, List.nil_append] at hdn
          rcases hms with ⟨hnil, -⟩ | ⟨t, ms', ht, rfl, hspells⟩
          · rw [hnil] at hdn
            cases hdn
          · rw [ht] at hdn
            obtain ⟨-, rfl⟩ := List.cons.inj hdn
            have hfuel' : s + n ≤ fuel := by omega
            obtain ⟨r, hr, hlegal, hfound⟩ := ih hspells hfuel'
            exact ⟨r, hr, hlegal, fun h => by rw [hfound h, List.append_nil]⟩
        · rw [if_neg hdot]
          exact ⟨.next, rfl, Found.noConfusion, fun h => Found.noConfusion h⟩
  | @pointer s o t ls n hmask htarget hname hle ih =>
    obtain ⟨fuel, rfl⟩ := Nat.exists_eq_succ_of_ne_zero (show fuel ≠ 0 by omega)
    have hpos := hname.pos
    obtain ⟨hne, hne'⟩ := indirMask_ne hmask
    rw [findName, if_neg hne, if_neg hne', if_pos hmask, htarget]
    exact ih htext (by omega)

theorem dnFind_spec {fuel : Nat} {ptrs : List Nat} (htext : Spells text ms)
    (hptrs : ∀ p ∈ ptrs, ∃ ls n, NameAt msg p p ls n ∧ p + n ≤ fuel) :
    ∃ l, dnFind msg fuel text ptrs = some l ∧ (0 ≤ l → ∃ p n : Nat, l = (p : Int) ∧ NameAt msg p p ms n ∧ p + n ≤ fuel) := by
  induction ptrs with
  | nil => exact ⟨-1, rfl, fun h => absurd h (by decide)⟩
  | cons p ptrs ih =>
    obtain ⟨ls, n, hname, hle⟩ := hptrs p List.mem_cons_self
    obtain ⟨r, hr, hlegal, hfound⟩ := findName_spec hname htext hle
    rw [dnFind, hr]
    cases r with
    | found =>
      refine ⟨p, rfl, fun _ => ⟨p, n, rfl, ?_, hle⟩⟩
      rw [hfound rfl]
      exact hname
    | next => exact ih fun q hq => hptrs q (List.mem_cons_of_mem p hq)
    | illegal => exact absurd rfl hlegal

end NetBSD.Resolv

/-!
## The bounds of `dn_expand`

`dn_expand` with each access checked. It ends, and writes inside its buffer only; it reads a byte behind the message where a label or
a pointer begins with the last byte.
-/

namespace NetBSD.Resolv

inductive Fault where
  | read (cp : Nat)
  | write (i : Nat)

section

variable (msg : Message) (eomorig length : Nat)

def readByte (cp : Nat) : Except Fault Byte := if cp < eomorig then .ok (msg cp) else .error (.read cp)

def writeByte (dn : List Byte) (c : Byte) : Except Fault (List Byte) :=
  if dn.length < length then .ok (dn ++ [c]) else .error (.write dn.length)

def boundedLabel : Nat → Nat → List Byte → Except Fault (Option (Nat × List Byte))
  | 0, cp, dn => .ok (some (cp, dn))
  | n + 1, cp, dn =>
    (readByte msg eomorig cp).bind fun c =>
      if c = dot ∧ dn.length + n + 2 ≥ length then .ok none
      else
        (if c = dot then writeByte length dn backslash else .ok dn).bind fun dn =>
          (writeByte length dn c).bind fun dn =>
            if cp + 1 ≥ eomorig then .ok none else boundedLabel n (cp + 1) dn

def boundedLoop (compDn : Nat) : Nat → Nat → List Byte → Option Nat → Nat → Option (Except Fault (Int × List Byte))
  | 0, _, _, _, _ => none
  | fuel + 1, cp, dn, len, checked =>
    match readByte msg eomorig cp with
    | .error e => some (.error e)
    | .ok n =>
      if n = 0 then some ((writeByte length dn 0).map fun dn => ((len.getD (cp + 1 - compDn) : Nat), dn))
      else if n &&& indirMask = 0 then
        if dn ≠ [] ∧ dn.length ≥ length then some (.ok (-1, dn))
        else
          match if dn = [] then .ok dn else writeByte length dn dot with
          | .error e => some (.error e)
          | .ok dn =>
            if dn.length + n.toNat ≥ length then some (.ok (-1, dn))
            else
              match boundedLabel msg eomorig length n.toNat (cp + 1) dn with
              | .error e => some (.error e)
              | .ok none => some (.ok (-1, dn))
              | .ok (some (cp, dn)) => boundedLoop compDn fuel cp dn len (checked + (n.toNat + 1))
      else if n &&& indirMask = indirMask then
        match readByte msg eomorig (cp + 1) with
        | .error e => some (.error e)
        | .ok low =>
          let len := some (len.getD (cp + 1 - compDn + 1))
          let cp := indirection n low
          if cp ≥ eomorig then some (.ok (-1, dn))
          else if checked + 2 ≥ eomorig then some (.ok (-1, dn))
          else boundedLoop compDn fuel cp dn len (checked + 2)
      else some (.ok (-1, dn))

def dnExpandBounded (compDn : Nat) : Option (Except Fault (Int × List Byte)) :=
  boundedLoop msg eomorig length compDn (eomorig + 1) compDn [] none 0

end

def bytesAt (msg : Message) (o n : Nat) : List Byte := (List.range n).map fun i => msg (o + i)

structure Place where
  cp : Nat
  size : Nat
  checked : Nat

def Place.joined (p : Place) : Nat := if p.size = 0 then 0 else p.size + 1

inductive Next (msg : Message) (eomorig length : Nat) (p : Place) : Place → Prop where
  | label : msg p.cp ≠ 0 → msg p.cp &&& indirMask = 0 → p.cp + 1 + (msg p.cp).toNat < eomorig →
      p.joined + (escape (bytesAt msg (p.cp + 1) (msg p.cp).toNat)).length < length →
      Next msg eomorig length p ⟨p.cp + 1 + (msg p.cp).toNat,
        p.joined + (escape (bytesAt msg (p.cp + 1) (msg p.cp).toNat)).length, p.checked + ((msg p.cp).toNat + 1)⟩
  | pointer : msg p.cp &&& indirMask = indirMask → indirection (msg p.cp) (msg (p.cp + 1)) < eomorig → p.checked + 2 < eomorig →
      Next msg eomorig length p ⟨indirection (msg p.cp) (msg (p.cp + 1)), p.size, p.checked + 2⟩

def Arrives (msg : Message) (eomorig length compDn : Nat) : Place → Prop :=
  Relation.ReflTransGen (Next msg eomorig length) ⟨compDn, 0, 0⟩

def Cut (msg : Message) (eomorig length : Nat) (p : Place) : Prop :=
  p.cp + 1 = eomorig ∧
    (msg p.cp ≠ 0 ∧ msg p.cp &&& indirMask = 0 ∧ p.joined + (msg p.cp).toNat < length ∨ msg p.cp &&& indirMask = indirMask)

variable {msg : Message} {eomorig length compDn n cp fuel checked : Nat} {dn : List Byte} {len : Option Nat} {p q : Place}

theorem bytesAt_succ (o n : Nat) : bytesAt msg o (n + 1) = msg o :: bytesAt msg (o + 1) n := by
  rw [bytesAt, List.range_succ_eq_map, List.map_cons, List.map_map, bytesAt]
  refine congrArg _ (List.map_congr_left fun i _ => ?_)
  exact congrArg msg (Nat.succ_add_eq_add_succ o i).symm

theorem length_bytesAt (o n : Nat) : (bytesAt msg o n).length = n := by rw [bytesAt, List.length_map, List.length_range]

theorem stored_bytesAt (o n : Nat) : Stored msg o (bytesAt msg o n) := by
  intro i hi
  simp only [bytesAt, List.getElem_map, List.getElem_range]

theorem readByte_of_lt (h : cp < eomorig) : readByte msg eomorig cp = .ok (msg cp) := if_pos h

theorem readByte_of_le (h : eomorig ≤ cp) : readByte msg eomorig cp = .error (.read cp) := if_neg (Nat.not_lt.2 h)

theorem writeByte_of_lt (h : dn.length < length) (c : Byte) : writeByte length dn c = .ok (dn ++ [c]) := if_pos h

theorem expandLabel_some {r : Nat × List Byte} (hroom : dn.length + n < length)
    (h : expandLabel msg eomorig length n cp dn = some r) :
    r = (cp + n, dn ++ escape (bytesAt msg cp n)) ∧ (0 < n → cp + n < eomorig) ∧
      dn.length + (escape (bytesAt msg cp n)).length < length := by
  induction n generalizing cp dn with
  | zero => exact ⟨(Option.some.inj h).symm.trans (by rw [bytesAt]; simp [escape]), fun h => absurd h (Nat.lt_irrefl 0), hroom⟩
  | succ n ih =>
    rw [expandLabel] at h
    dsimp only at h
    split at h
    · cases h
    · next hdots =>
      split at h
      · cases h
      · next hend =>
        have hlen : ((if msg cp = dot then dn ++ [backslash] else dn) ++ [msg cp]).length + n < length := by
          split
          · next hdot =>
            have := mt (And.intro hdot) hdots
            simp only [List.length_append, List.length_cons, List.length_nil]
            omega
          · rw [List.length_append, List.length_singleton]
            omega
        have hcat : (if msg cp = dot then dn ++ [backslash] else dn) ++ [msg cp] =
            dn ++ if msg cp = dot then [backslash, dot] else [msg cp] := by
          split <;> rename_i hdot
          · rw [hdot, List.append_assoc]
            rfl
          · rfl
        obtain ⟨hr, hin, hfit⟩ := ih hlen h
        rw [bytesAt_succ, escape_cons]
        rw [hcat] at hr hfit
        refine ⟨hr.trans ?_, fun _ => ?_, ?_⟩
        · rw [List.append_assoc, Nat.add_assoc, Nat.add_comm 1 n]
        · rcases Nat.eq_zero_or_pos n with rfl | hpos
          · omega
          · have := hin hpos
            omega
        · rwa [List.length_append, ← Nat.add_assoc, ← List.length_append]

theorem boundedLabel_eq (hin : n = 0 ∨ cp < eomorig) (hroom : dn.length + n < length) :
    boundedLabel msg eomorig length n cp dn = .ok (expandLabel msg eomorig length n cp dn) := by
  induction n generalizing cp dn with
  | zero => rfl
  | succ n ih =>
    rw [boundedLabel, expandLabel, readByte_of_lt (hin.resolve_left (Nat.succ_ne_zero n))]
    dsimp only [Except.bind]
    by_cases hdots : msg cp = dot ∧ dn.length + n + 2 ≥ length
    · rw [if_pos hdots, if_pos hdots]
    · rw [if_neg hdots, if_neg hdots]
      have hnext : ∀ dn' : List Byte, dn'.length + n < length →
          (if cp + 1 ≥ eomorig then Except.ok none else boundedLabel msg eomorig length n (cp + 1) dn') =
            (Except.ok (if cp + 1 ≥ eomorig then none else expandLabel msg eomorig length n (cp + 1) dn') : Except Fault _) := by
        intro dn' hroom'
        split
        · rfl
        · next hend => exact ih (.inr (Nat.lt_of_not_le hend)) hroom'
      by_cases hdot : msg cp = dot
      · have hlt : dn.length + n + 2 < length := Nat.lt_of_not_le fun hge => hdots ⟨hdot, hge⟩
        rw [if_pos hdot, if_pos hdot, writeByte_of_lt (by omega)]
        dsimp only
        rw [writeByte_of_lt (by rw [List.length_append, List.length_singleton]; omega)]
        refine hnext _ ?_
        simp only [List.length_append, List.length_cons, List.length_nil]
        omega
      · rw [if_neg hdot, if_neg hdot]
        dsimp only
        rw [writeByte_of_lt (by omega)]
        refine hnext _ ?_
        rw [List.length_append, List.length_singleton]
        omega

structure Within (eomorig length fuel : Nat) (p : Place) : Prop where
  cp : p.cp < eomorig
  size : p.size < length
  checked : p.checked < eomorig + p.cp
  fuel : 2 * (eomorig + 1) ≤ 2 * fuel + p.checked

theorem Within.fuel_pos (h : Within eomorig length fuel p) : 1 < fuel := by
  have := h.cp
  have := h.checked
  have := h.fuel
  omega

theorem toNat_pos {b : Byte} (h : b ≠ 0) : 0 < b.toNat := Nat.pos_of_ne_zero fun hzero => h (BitVec.eq_of_toNat_eq hzero)

theorem Within.next (h : Within eomorig length (fuel + 1) p) (hnext : Next msg eomorig length p q) : Within eomorig length fuel q := by
  obtain ⟨hcp, hsize, hchecked, hfuel⟩ := h
  cases hnext with
  | label hne hmask hin hroom =>
    have := toNat_pos hne
    exact ⟨hin, hroom, by dsimp only; omega, by dsimp only; omega⟩
  | pointer hmask htarget hless => exact ⟨htarget, hsize, by dsimp only; omega, by dsimp only; omega⟩

def joinText (dn : List Byte) : List Byte := if dn = [] then dn else dn ++ [dot]

theorem length_joinText (h : dn.length = p.size) : (joinText dn).length = p.joined := by
  rw [joinText, Place.joined, ← h]
  cases dn with
  | nil => rfl
  | cons c dn =>
    have hne : (c :: dn).length ≠ 0 := Nat.succ_ne_zero dn.length
    rw [if_neg (List.cons_ne_nil c dn), if_neg hne, List.length_append]
    rfl

theorem writeByte_joinText (h : (joinText dn).length ≤ length) : (if dn = [] then .ok dn else writeByte length dn dot) = Except.ok (joinText dn) := by
  rw [joinText] at h ⊢
  split at h
  · next hnil => rw [if_pos hnil, if_pos hnil]
  · next hne =>
    rw [List.length_append, List.length_singleton] at h
    rw [if_neg hne, if_neg hne, writeByte_of_lt (by omega)]

theorem Next.unique {q' : Place} (h : Next msg eomorig length p q) (h' : Next msg eomorig length p q') : q = q' := by
  cases h with
  | label _ hmask =>
    cases h' with
    | label => rfl
    | pointer hmask' => exact absurd hmask (indirMask_ne hmask').2
  | pointer hmask =>
    cases h' with
    | label _ hmask' => exact absurd hmask' (indirMask_ne hmask).2
    | pointer => rfl

/-- What a turn leads to: `expandLoop` and `boundedLoop` go on alike or return alike, where no access is outside. -/
inductive Turn (msg : Message) (eomorig length compDn fuel : Nat) (p : Place) (e : Option (Int × List Byte))
    (b : Option (Except Fault (Int × List Byte))) : Prop where
  | next (q : Place) (dn : List Byte) (len : Option Nat) : Next msg eomorig length p q → dn.length = q.size →
      e = expandLoop msg eomorig compDn length fuel q.cp dn len q.checked →
      (¬Cut msg eomorig length p → b = boundedLoop msg eomorig length compDn fuel q.cp dn len q.checked) →
      (Cut msg eomorig length p → ∃ f, b = some (.error f)) → Turn msg eomorig length compDn fuel p e b
  | done (r : Int) (text : List Byte) : (∀ q, ¬Next msg eomorig length p q) → e = some (r, text) →
      (¬Cut msg eomorig length p → ∃ out, b = some (.ok (r, out)) ∧ out.length ≤ length ∧ (0 ≤ r → out = text ++ [0])) →
      (Cut msg eomorig length p → ∃ f, b = some (.error f)) → Turn msg eomorig length compDn fuel p e b

theorem neg_not_nonneg {text out : List Byte} : (0 : Int) ≤ -1 → out = text := fun h => absurd h (by decide)

theorem turn_root (h : Within eomorig length (fuel + 1) p) (hdn : dn.length = p.size) (hzero : msg p.cp = 0) :
    Turn msg eomorig length compDn fuel p (expandLoop msg eomorig compDn length (fuel + 1) p.cp dn len p.checked)
      (boundedLoop msg eomorig length compDn (fuel + 1) p.cp dn len p.checked) := by
  have hlt : dn.length < length := hdn ▸ h.size
  have hcut : ¬Cut msg eomorig length p := fun hcut => hcut.2.elim (fun hlabel => hlabel.1 hzero) fun hmask =>
    (indirMask_ne hmask).1 hzero
  rw [expandLoop, boundedLoop, readByte_of_lt h.cp]
  dsimp only
  rw [if_pos hzero, if_pos hzero, writeByte_of_lt hlt]
  refine .done _ dn (fun q hnext => ?_) rfl (fun _ => ⟨_, rfl, ?_, fun _ => rfl⟩) fun hc => absurd hc hcut
  · cases hnext with
    | label hne => exact hne hzero
    | pointer hmask => exact (indirMask_ne hmask).1 hzero
  · rw [List.length_append]
    exact hlt

theorem turn_label (h : Within eomorig length (fuel + 1) p) (hdn : dn.length = p.size) (hne : msg p.cp ≠ 0)
    (hmask : msg p.cp &&& indirMask = 0) :
    Turn msg eomorig length compDn fuel p (expandLoop msg eomorig compDn length (fuel + 1) p.cp dn len p.checked)
      (boundedLoop msg eomorig length compDn (fuel + 1) p.cp dn len p.checked) := by
  have hlt : dn.length < length := hdn ▸ h.size
  have hjoin := length_joinText hdn
  have hjoined : p.joined ≤ length := by
    have := h.size
    rw [Place.joined]
    split <;> omega
  have hpos := toNat_pos hne
  have hescape := length_escape (bytesAt msg (p.cp + 1) (msg p.cp).toNat)
  rw [length_bytesAt] at hescape
  have hdot : ¬(dn ≠ [] ∧ dn.length ≥ length) := fun hge => absurd hge.2 (Nat.not_le_of_lt hlt)
  rw [expandLoop, boundedLoop, readByte_of_lt h.cp]
  dsimp only
  rw [if_neg hne, if_neg hne, if_pos hmask, if_pos hmask, if_neg hdot, if_neg hdot, writeByte_joinText (hjoin.trans_le hjoined)]
  have htext : (if dn = [] then dn else dn ++ [dot]) = joinText dn := rfl
  dsimp only
  rw [htext, hjoin]
  by_cases hroom : p.joined + (msg p.cp).toNat ≥ length
  · have hcut : ¬Cut msg eomorig length p := fun hcut => hcut.2.elim (fun hlabel => absurd hlabel.2.2 (Nat.not_lt_of_le hroom))
      fun hmask' => (indirMask_ne hmask').2 hmask
    rw [if_pos hroom, if_pos hroom]
    refine .done (-1) _ (fun q hnext => ?_) rfl (fun _ => ⟨_, rfl, hjoin.trans_le hjoined, neg_not_nonneg⟩) fun hc => absurd hc hcut
    cases hnext with
    | label _ _ _ hfits => omega
    | pointer hmask' => exact (indirMask_ne hmask').2 hmask
  rw [if_neg hroom, if_neg hroom]
  have hroom' : (joinText dn).length + (msg p.cp).toNat < length := by omega
  have hbounded : ¬Cut msg eomorig length p → boundedLabel msg eomorig length (msg p.cp).toNat (p.cp + 1) (joinText dn) =
      .ok (expandLabel msg eomorig length (msg p.cp).toNat (p.cp + 1) (joinText dn)) := by
    intro hcut
    refine boundedLabel_eq (.inr ?_) hroom'
    have hne : p.cp + 1 ≠ eomorig := fun hlast => hcut ⟨hlast, .inl ⟨hne, hmask, by omega⟩⟩
    have := h.cp
    omega
  have hfault : Cut msg eomorig length p →
      boundedLabel msg eomorig length (msg p.cp).toNat (p.cp + 1) (joinText dn) = .error (.read (p.cp + 1)) := by
    intro hcut
    obtain ⟨n, hn⟩ := Nat.exists_eq_add_of_le' hpos
    rw [hn, boundedLabel, readByte_of_le hcut.1.ge]
    rfl
  cases hlabel : expandLabel msg eomorig length (msg p.cp).toNat (p.cp + 1) (joinText dn) with
  | none =>
    refine .done (-1) (joinText dn) (fun q hnext => ?_) rfl (fun hcut => ?_) fun hcut => ?_
    · cases hnext with
      | label _ _ hin hfits =>
        have hspec := expandLabel_spec (stored_bytesAt (p.cp + 1) (msg p.cp).toNat) (by rwa [length_bytesAt]) (hjoin ▸ hfits)
        rw [length_bytesAt, hlabel] at hspec
        cases hspec
      | pointer hmask' => exact (indirMask_ne hmask').2 hmask
    · rw [hbounded hcut, hlabel]
      exact ⟨_, rfl, hjoin.trans_le hjoined, neg_not_nonneg⟩
    · rw [hfault hcut]
      exact ⟨_, rfl⟩
  | some r =>
    obtain ⟨rfl, hin, hfits⟩ := expandLabel_some hroom' hlabel
    have hin' := hin hpos
    refine .next ⟨_, _, _⟩ (joinText dn ++ escape (bytesAt msg (p.cp + 1) (msg p.cp).toNat)) len
      (.label hne hmask hin' (hjoin ▸ hfits)) ?_ rfl (fun hcut => ?_) fun hcut => ?_
    · rw [List.length_append, hjoin]
    · rw [hbounded hcut, hlabel]
    · have := hcut.1
      omega

theorem turn_pointer (h : Within eomorig length (fuel + 1) p) (hdn : dn.length = p.size)
    (hmask : msg p.cp &&& indirMask = indirMask) :
    Turn msg eomorig length compDn fuel p (expandLoop msg eomorig compDn length (fuel + 1) p.cp dn len p.checked)
      (boundedLoop msg eomorig length compDn (fuel + 1) p.cp dn len p.checked) := by
  obtain ⟨hne, hne'⟩ := indirMask_ne hmask
  rw [expandLoop, boundedLoop, readByte_of_lt h.cp]
  dsimp only
  rw [if_neg hne, if_neg hne, if_neg hne', if_neg hne', if_pos hmask, if_pos hmask]
  have hfetch : ¬Cut msg eomorig length p → readByte msg eomorig (p.cp + 1) = .ok (msg (p.cp + 1)) := by
    intro hcut
    have hne : p.cp + 1 ≠ eomorig := fun hlast => hcut ⟨hlast, .inr hmask⟩
    have := h.cp
    exact readByte_of_lt (by omega)
  have hfault : Cut msg eomorig length p → readByte msg eomorig (p.cp + 1) = .error (.read (p.cp + 1)) := fun hcut =>
    readByte_of_le hcut.1.ge
  by_cases hgo : indirection (msg p.cp) (msg (p.cp + 1)) < eomorig ∧ p.checked + 2 < eomorig
  · rw [if_neg (Nat.not_le_of_lt hgo.1), if_neg (Nat.not_le_of_lt hgo.2)]
    refine .next ⟨_, _, _⟩ dn _ (.pointer hmask hgo.1 hgo.2) hdn rfl (fun hcut => ?_) fun hcut => ?_
    · rw [hfetch hcut]
      dsimp only
      rw [if_neg (Nat.not_le_of_lt hgo.1), if_neg (Nat.not_le_of_lt hgo.2)]
    · rw [hfault hcut]
      exact ⟨_, rfl⟩
  · have hstop : ∀ {α : Type} (x y : α), (if indirection (msg p.cp) (msg (p.cp + 1)) ≥ eomorig then x
        else if p.checked + 2 ≥ eomorig then x else y) = x := by
      intro α x y
      by_cases htarget : indirection (msg p.cp) (msg (p.cp + 1)) ≥ eomorig
      · exact if_pos htarget
      · rw [if_neg htarget]
        exact if_pos (Nat.le_of_not_lt fun hless => hgo ⟨Nat.lt_of_not_le htarget, hless⟩)
    rw [hstop]
    refine .done (-1) dn (fun q hnext => ?_) rfl (fun hcut => ?_) fun hcut => ?_
    · cases hnext with
      | label _ hmask' => exact hne' hmask'
      | pointer _ htarget hless => exact hgo ⟨htarget, hless⟩
    · rw [hfetch hcut]
      dsimp only
      rw [hstop]
      exact ⟨dn, rfl, hdn.trans_le h.size.le, neg_not_nonneg⟩
    · rw [hfault hcut]
      exact ⟨_, rfl⟩

theorem turn_flag (h : Within eomorig length (fuel + 1) p) (hdn : dn.length = p.size) (hne : msg p.cp ≠ 0)
    (hne' : msg p.cp &&& indirMask ≠ 0) (hmask : msg p.cp &&& indirMask ≠ indirMask) :
    Turn msg eomorig length compDn fuel p (expandLoop msg eomorig compDn length (fuel + 1) p.cp dn len p.checked)
      (boundedLoop msg eomorig length compDn (fuel + 1) p.cp dn len p.checked) := by
  have hcut : ¬Cut msg eomorig length p := fun hcut => hcut.2.elim (fun hlabel => hne' hlabel.2.1) hmask
  rw [expandLoop, boundedLoop, readByte_of_lt h.cp]
  dsimp only
  rw [if_neg hne, if_neg hne, if_neg hne', if_neg hne', if_neg hmask, if_neg hmask]
  refine .done (-1) dn (fun q hnext => ?_) rfl (fun _ => ⟨dn, rfl, hdn.trans_le h.size.le, neg_not_nonneg⟩) fun hc => absurd hc hcut
  cases hnext with
  | label _ hmask' => exact hne' hmask'
  | pointer hmask' => exact hmask hmask'

theorem turn (h : Within eomorig length (fuel + 1) p) (hdn : dn.length = p.size) :
    Turn msg eomorig length compDn fuel p (expandLoop msg eomorig compDn length (fuel + 1) p.cp dn len p.checked)
      (boundedLoop msg eomorig length compDn (fuel + 1) p.cp dn len p.checked) := by
  by_cases hzero : msg p.cp = 0
  · exact turn_root h hdn hzero
  by_cases hne' : msg p.cp &&& indirMask = 0
  · exact turn_label h hdn hzero hne'
  by_cases hmask : msg p.cp &&& indirMask = indirMask
  · exact turn_pointer h hdn hmask
  · exact turn_flag h hdn hzero hne' hmask

/-- What `dn_expand` returns with all accesses inside; `text` is what `expandLoop` gives. -/
def Confined (length : Nat) (e : Option (Int × List Byte)) (b : Option (Except Fault (Int × List Byte))) : Prop :=
  ∃ r text out, e = some (r, text) ∧ b = some (.ok (r, out)) ∧ out.length ≤ length ∧ (0 ≤ r → out = text ++ [0])

theorem loop_spec (h : Within eomorig length fuel p) (hdn : dn.length = p.size) :
    (expandLoop msg eomorig compDn length fuel p.cp dn len p.checked).isSome = true ∧
      (Confined length (expandLoop msg eomorig compDn length fuel p.cp dn len p.checked)
        (boundedLoop msg eomorig length compDn fuel p.cp dn len p.checked) ↔
          ∀ q, Relation.ReflTransGen (Next msg eomorig length) p q → ¬Cut msg eomorig length q) := by
  induction fuel generalizing p dn len with
  | zero => exact absurd h.fuel_pos (Nat.not_lt_zero 1)
  | succ fuel ih =>
    have hfaulty : ∀ {e b}, (Cut msg eomorig length p → ∃ f, b = some (.error f)) → Confined length e b →
        ¬Cut msg eomorig length p := by
      rintro e b hfault ⟨r, text, out, -, hok, -⟩ hcut
      obtain ⟨f, hf⟩ := hfault hcut
      cases hok.symm.trans hf
    have hturn : Turn msg eomorig length compDn fuel p (expandLoop msg eomorig compDn length (fuel + 1) p.cp dn len p.checked)
      (boundedLoop msg eomorig length compDn (fuel + 1) p.cp dn len p.checked) := turn h hdn
    generalize expandLoop msg eomorig compDn length (fuel + 1) p.cp dn len p.checked = e at hturn ⊢
    generalize boundedLoop msg eomorig length compDn (fuel + 1) p.cp dn len p.checked = b at hturn ⊢
    cases hturn with
    | next q dn' len' hnext hdn' he hb hfault =>
      have hrest : (expandLoop msg eomorig compDn length fuel q.cp dn' len' q.checked).isSome = true ∧ _ := ih (h.next hnext) hdn'
      obtain ⟨hends, hiff⟩ := hrest
      subst he
      refine ⟨hends, fun hconf x hx => ?_, fun hall => ?_⟩
      · have hcut := hfaulty hfault hconf
        rw [hb hcut] at hconf
        rcases Relation.ReflTransGen.cases_head hx with rfl | ⟨y, hy, hyx⟩
        · exact hcut
        · exact hiff.1 hconf x (hy.unique hnext ▸ hyx)
      · rw [hb (hall p .refl)]
        exact hiff.2 fun x hx => hall x (.head hnext hx)
    | done r text hno he hb hfault =>
      subst he
      refine ⟨rfl, fun hconf x hx => ?_, fun hall => ?_⟩
      · rcases Relation.ReflTransGen.cases_head hx with rfl | ⟨y, hy, -⟩
        · exact hfaulty hfault hconf
        · exact absurd hy (hno y)
      · obtain ⟨out, hok, hlen, hout⟩ := hb (hall p .refl)
        exact ⟨r, text, out, rfl, hok, hlen, hout⟩

/-- `dn_expand` ends. Its accesses are inside the message and the buffer, and a text that it returns ends with a NUL there, exactly if
the way through the name does not come to a label or a pointer that the end of the message cuts off behind its first byte. -/
theorem dnExpand_confined_iff (hstart : compDn < eomorig) (hlength : 0 < length) :
    (dnExpand msg eomorig compDn length).isSome = true ∧
      (Confined length (dnExpand msg eomorig compDn length) (dnExpandBounded msg eomorig length compDn) ↔
        ∀ p, Arrives msg eomorig length compDn p → ¬Cut msg eomorig length p) :=
  loop_spec (p := ⟨compDn, 0, 0⟩) ⟨hstart, hlength, Nat.add_pos_left (Nat.zero_lt_of_lt hstart) _, Nat.le_refl _⟩ rfl

/-- A name without labels. -/
theorem dnExpand_confined_root : Confined 1 (dnExpand (fun _ => 0) 1 0 1) (dnExpandBounded (fun _ => 0) 1 1 0) := by
  refine (dnExpand_confined_iff (by decide) (by decide)).2.2 fun p hp hcut => ?_
  rcases hcut.2 with ⟨hne, -⟩ | hmask
  · exact hne rfl
  · have hzero : (0 : Byte) &&& indirMask ≠ indirMask := by decide
    exact hzero hmask

/-- A message that is the first byte of a pointer. -/
theorem dnExpand_reads_behind : ¬∀ (msg : Message) (eomorig compDn length : Nat), compDn < eomorig → 0 < length →
    Confined length (dnExpand msg eomorig compDn length) (dnExpandBounded msg eomorig length compDn) := by
  intro hall
  obtain ⟨r, text, out, -, hok, -⟩ := hall (fun _ => 0xc0) 1 0 1 (by decide) (by decide)
  have hfault : dnExpandBounded (fun _ => 0xc0) 1 1 0 = some (.error (.read 1)) := rfl
  cases hok.symm.trans hfault

variable {text : List Byte} {fuel' k : Nat} {r : Int}

theorem expandLoop_turn (h : expandLoop msg eomorig compDn length (fuel + 1) cp dn len checked = some (r, text)) (hr : 0 ≤ r) :
    (msg cp = 0 ∧ r = (len.getD (cp + 1 - compDn) : Nat)) ∨
    (msg cp ≠ 0 ∧ msg cp &&& indirMask = 0 ∧ cp + 1 + (msg cp).toNat < eomorig ∧ ∃ dn' checked',
      expandLoop msg eomorig compDn length fuel (cp + 1 + (msg cp).toNat) dn' len checked' = some (r, text)) ∨
    (msg cp ≠ 0 ∧ msg cp &&& indirMask ≠ 0 ∧ msg cp &&& indirMask = indirMask ∧ ∃ cp' checked',
      expandLoop msg eomorig compDn length fuel cp' dn (some (len.getD (cp + 1 - compDn + 1))) checked' = some (r, text)) := by
  have hno : ∀ {out : List Byte}, some ((-1 : Int), out) ≠ some (r, text) := fun heq => by
    obtain ⟨rfl, -⟩ := Prod.mk.inj (Option.some.inj heq)
    exact absurd hr (by decide)
  rw [expandLoop] at h
  dsimp only at h
  by_cases hzero : msg cp = 0
  · rw [if_pos hzero] at h
    exact .inl ⟨hzero, (Prod.mk.inj (Option.some.inj h)).1.symm⟩
  rw [if_neg hzero] at h
  by_cases hmask : msg cp &&& indirMask = 0
  · rw [if_pos hmask] at h
    split at h
    · exact absurd h hno
    generalize (if dn = [] then dn else dn ++ [dot]) = joined at h
    split at h
    · exact absurd h hno
    next hfit =>
      split at h
      · exact absurd h hno
      next cp' dn' hlabel =>
        obtain ⟨heq, hin, -⟩ := expandLabel_some (Nat.not_le.1 hfit) hlabel
        obtain ⟨rfl, -⟩ := Prod.mk.inj heq
        exact .inr (.inl ⟨hzero, hmask, hin (toNat_pos hzero), _, _, h⟩)
  · rw [if_neg hmask] at h
    split_ifs at h with hpointer
    · exact absurd h hno
    · exact absurd h hno
    · exact .inr (.inr ⟨hzero, hmask, hpointer, _, _, h⟩)
    · exact absurd h hno

theorem expandLoop_len (h : expandLoop msg eomorig compDn length fuel cp dn (some k) checked = some (r, text)) (hr : 0 ≤ r) :
    r = k := by
  induction fuel generalizing cp dn checked with
  | zero => cases h
  | succ fuel ih =>
    obtain ⟨-, hk⟩ | ⟨-, -, -, _, _, hrest⟩ | ⟨-, -, -, _, _, hrest⟩ := expandLoop_turn h hr
    · exact hk
    · exact ih hrest
    · exact ih hrest

theorem skipLoop_of_expandLoop (h : expandLoop msg eomorig compDn length fuel cp dn none checked = some (r, text)) (hr : 0 ≤ r)
    (hcp : cp < eomorig) (hle : compDn ≤ cp) (hfuel : eomorig ≤ cp + fuel') :
    ∃ c, skipLoop msg eomorig fuel' cp = some (some c) ∧ compDn ≤ c ∧ r = (c - compDn : Nat) := by
  induction fuel generalizing cp dn checked fuel' with
  | zero => cases h
  | succ fuel ih =>
    obtain ⟨fuel', rfl⟩ := Nat.exists_eq_succ_of_ne_zero (show fuel' ≠ 0 by omega)
    rw [skipLoop, if_pos hcp]
    dsimp only
    obtain ⟨hzero, hlen⟩ | ⟨hne, hlabel, hin, _, _, hrest⟩ | ⟨hne, hne', hpointer, _, _, hrest⟩ := expandLoop_turn h hr
    · exact ⟨_, if_pos hzero, by omega, hlen⟩
    · rw [if_neg hne, if_pos hlabel]
      exact ih hrest hin (by omega) (by omega)
    · rw [if_neg hne, if_neg hne', if_pos hpointer, expandLoop_len hrest hr, Option.getD_none]
      exact ⟨_, rfl, by omega, by omega⟩

/-- `__dn_skipname` passes over each name that `dn_expand` expands, whatever the message has in it, but for one that ends with a
pointer whose second byte is behind the end. -/
theorem dnSkipname_dnExpand (hstart : compDn < eomorig) (h : dnExpand msg eomorig compDn length = some (r, text)) (hr : 0 ≤ r) :
    dnSkipname msg compDn eomorig = some (if compDn + r ≤ eomorig then r else -1) := by
  obtain ⟨c, hc, hle, rfl⟩ := skipLoop_of_expandLoop h hr hstart (Nat.le_refl _) (Nat.le_add_left_of_le (Nat.le_succ _))
  rw [dnSkipname, hc, Option.map_some]
  dsimp only
  congr 1
  split <;> split <;> omega

/-- A name of one label, in a message of four bytes. -/
theorem dnSkipname_dnExpand_label : dnSkipname (fun i => [1, 0x61].getD i 0) 0 4 = some 3 :=
  dnSkipname_dnExpand (show 0 < 4 by decide) (show dnExpand _ 4 0 8 = some (3, [0x61]) by decide) (by decide)

end NetBSD.Resolv
