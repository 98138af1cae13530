import NetBSD.Resolv.Comp
import Mathlib.Data.List.Basic

/-!
# Names in a message

What a compressed name in a message is, and what `dn_expand`, `__dn_skipname` and `dn_find` do with one.
-/

namespace NetBSD.Resolv

abbrev Label := List Byte

structure Clean (l : Label) : Prop where
  ne : l ≠ []
  le : l.length ≤ maxLabel
  plain : ∀ c ∈ l, c ≠ 0 ∧ c ≠ backslash

def Stored (msg : Message) (o : Nat) (l : List Byte) : Prop := ∀ i (h : i < l.length), msg (o + i) = l[i]

/-- A name is at `o` and takes `n` bytes there; if it ends in a pointer, the name that this points to lies before `s`. -/
inductive NameAt (msg : Message) : Nat → Nat → List Label → Nat → Prop where
  | root {s o : Nat} : msg o = 0 → NameAt msg s o [] 1
  | label {s o : Nat} {l : Label} {ls : List Label} {n : Nat} : Clean l → msg o = BitVec.ofNat 8 l.length →
      Stored msg (o + 1) l → NameAt msg s (o + 1 + l.length) ls n → NameAt msg s o (l :: ls) (1 + l.length + n)
  | pointer {s o t : Nat} {ls : List Label} {n : Nat} : msg o &&& indirMask = indirMask →
      indirection (msg o) (msg (o + 1)) = t → NameAt msg t t ls n → t + n ≤ s → NameAt msg s o ls 2

variable {msg msg' : Message} {s s' o n : Nat} {ls : List Label}

theorem NameAt.pos (h : NameAt msg s o ls n) : 0 < n := by
  cases h with
  | root => exact Nat.one_pos
  | label => omega
  | pointer => exact Nat.two_pos

theorem NameAt.mono (h : NameAt msg s o ls n) (hs : s ≤ s') : NameAt msg s' o ls n := by
  induction h with
  | root hzero => exact .root hzero
  | label hclean hlen hstored _ ih => exact .label hclean hlen hstored (ih hs)
  | pointer hmask htarget hname hle _ => exact .pointer hmask htarget hname (hle.trans hs)

theorem NameAt.congr (h : NameAt msg s o ls n) (hsame : ∀ i, i < s ∨ o ≤ i ∧ i < o + n → msg' i = msg i) :
    NameAt msg' s o ls n := by
  induction h with
  | @root s o hzero =>
    refine .root ?_
    rw [hsame o (by omega), hzero]
  | @label s o l ls n hclean hlen hstored hname ih =>
    have hpos := hname.pos
    refine .label hclean ?_ (fun i hi => ?_) (ih fun i hi => hsame i (by omega))
    · rw [hsame o (by omega), hlen]
    · rw [hsame _ (by omega), hstored i hi]
  | @pointer s o t ls n hmask htarget hname hle ih =>
    refine .pointer ?_ ?_ (ih fun i hi => hsame i (by omega)) hle
    · rw [hsame o (by omega), hmask]
    · rw [hsame o (by omega), hsame (o + 1) (by omega), htarget]

theorem Clean.lt_64 {l : Label} (h : Clean l) : l.length < 64 := by
  have hle := h.le
  rw [maxLabel] at hle
  omega

theorem Clean.pos {l : Label} (h : Clean l) : 0 < l.length := List.length_pos_iff.mpr h.ne

theorem length_byte {k : Nat} (hpos : 0 < k) (hlt : k < 64) :
    (BitVec.ofNat 8 k).toNat = k ∧ BitVec.ofNat 8 k ≠ 0 ∧ BitVec.ofNat 8 k &&& indirMask = 0 := by
  have hall : ∀ k < 64, 0 < k →
      (BitVec.ofNat 8 k).toNat = k ∧ BitVec.ofNat 8 k ≠ 0 ∧ BitVec.ofNat 8 k &&& indirMask = 0 := by decide
  exact hall k hlt hpos

theorem indirMask_ne {b : Byte} (h : b &&& indirMask = indirMask) : b ≠ 0 ∧ b &&& indirMask ≠ 0 := by
  have hne : indirMask ≠ 0 := by decide
  have hand : (0 : Byte) &&& indirMask = 0 := by decide
  refine ⟨fun hzero => ?_, fun hzero => hne (h.symm.trans hzero)⟩
  rw [hzero, hand] at h
  exact hne h.symm

theorem indirection_write {t : Nat} (ht : t < 16384) :
    (BitVec.ofNat 8 (t >>> 8) ||| indirMask) &&& indirMask = indirMask ∧
      indirection (BitVec.ofNat 8 (t >>> 8) ||| indirMask) (BitVec.ofNat 8 (t % 256)) = t := by
  have hhigh : t >>> 8 < 64 := by
    rw [Nat.shiftRight_eq_div_pow]
    omega
  have hbyte : ∀ k < 64, (BitVec.ofNat 8 k ||| indirMask) &&& indirMask = indirMask ∧
      ((BitVec.ofNat 8 k ||| indirMask) &&& 0x3f).toNat = k := by decide
  obtain ⟨hmask, hvalue⟩ := hbyte _ hhigh
  have hlow : (BitVec.ofNat 8 (t % 256) &&& 0xff).toNat = t % 256 := by
    have hones : (0xff : Byte) = BitVec.allOnes 8 := by decide
    rw [hones, BitVec.and_allOnes, BitVec.toNat_ofNat]
    omega
  refine ⟨hmask, ?_⟩
  rw [indirection, hvalue, hlow, ← Nat.shiftLeft_add_eq_or_of_lt (by omega), Nat.shiftLeft_eq, Nat.shiftRight_eq_div_pow]
  omega

theorem skipLoop_spec {eom fuel : Nat} (h : NameAt msg s o ls n) (heom : o + n ≤ eom) (hfuel : n ≤ fuel) :
    skipLoop msg eom fuel o = some (some (o + n)) := by
  induction h generalizing fuel with
  | @root s o hzero =>
    obtain ⟨fuel, rfl⟩ := Nat.exists_eq_succ_of_ne_zero (show fuel ≠ 0 by omega)
    rw [skipLoop, if_pos (by omega), if_pos hzero]
  | @label s o l ls n hclean hlen hstored hname ih =>
    obtain ⟨fuel, rfl⟩ := Nat.exists_eq_succ_of_ne_zero (show fuel ≠ 0 by omega)
    have hpos := hname.pos
    obtain ⟨hnat, hne, hmask⟩ := length_byte hclean.pos hclean.lt_64
    rw [skipLoop, if_pos (by omega), hlen]
    dsimp only
    rw [if_neg hne, if_pos hmask, hnat, ih (by omega) (by omega)]
    congr 2
    omega
  | @pointer s o t ls n hmask htarget hname hle ih =>
    obtain ⟨fuel, rfl⟩ := Nat.exists_eq_succ_of_ne_zero (show fuel ≠ 0 by omega)
    obtain ⟨hne, hne'⟩ := indirMask_ne hmask
    rw [skipLoop, if_pos (by omega)]
    dsimp only
    rw [if_neg hne, if_neg hne', if_pos hmask]

theorem dnSkipname_spec {eom : Nat} (h : NameAt msg s o ls n) (heom : o + n ≤ eom) :
    dnSkipname msg o eom = some (n : Int) := by
  rw [dnSkipname, skipLoop_spec h heom (by omega), Option.map_some]
  dsimp only
  rw [if_neg (by omega), Nat.add_sub_cancel_left]

end NetBSD.Resolv

/-!
## Texts of names

How a text spells the labels of a name, and that `dn_expand` gives such a text.
-/

namespace NetBSD.Resolv

variable {msg : Message} {s o n : Nat} {l : Label} {ls ms : List Label} {text out : List Byte}

def escape (l : Label) : List Byte := l.flatMap fun c => if c = dot then [backslash, dot] else [c]

def extend : List Byte → List Label → List Byte
  | out, [] => out
  | out, l :: ls => extend ((if out = [] then out else out ++ [dot]) ++ escape l) ls

def spell (ls : List Label) : List Byte := extend [] ls

def labelsFrom : Label → List Byte → List Label
  | l, [] => [l]
  | l, c :: text =>
    if c = dot then
      match text with
      | [] => [l]
      | c :: text => l :: labelsFrom [] (c :: text)
    else if c = backslash then
      match text with
      | [] => [l]
      | c :: text => labelsFrom (l ++ [c]) text
    else labelsFrom (l ++ [c]) text

def labelsOf (text : List Byte) : List Label := if text = [] ∨ text = [dot] then [] else labelsFrom [] text

theorem escape_cons (c : Byte) (l : Label) :
    escape (c :: l) = (if c = dot then [backslash, dot] else [c]) ++ escape l := List.flatMap_cons

theorem escape_ne_nil (h : l ≠ []) : escape l ≠ [] := by
  cases l with
  | nil => exact absurd rfl h
  | cons c l =>
    rw [escape_cons]
    split <;> exact List.cons_ne_nil _ _

theorem escape_head {c : Byte} {text' : List Byte} (hl : l ≠ []) (h : escape l ++ text = c :: text') : c ≠ dot := by
  cases l with
  | nil => exact absurd rfl hl
  | cons d l =>
    rw [escape_cons] at h
    split at h <;> rename_i hdot
    · rw [← (List.cons.inj h).1]
      decide
    · rw [← (List.cons.inj h).1]
      exact hdot

theorem length_escape (l : Label) : l.length ≤ (escape l).length := by
  induction l with
  | nil => exact Nat.le_refl 0
  | cons c l ih =>
    rw [escape_cons, List.length_append, List.length_cons]
    split <;> simp <;> omega

theorem length_extend (out : List Byte) (ls : List Label) : out.length ≤ (extend out ls).length := by
  induction ls generalizing out with
  | nil => exact le_rfl
  | cons l ls ih =>
    refine le_trans ?_ (ih _)
    rw [List.length_append]
    split
    · omega
    · rw [List.length_append]
      omega

theorem expandLabel_spec {eom length : Nat} (hstored : Stored msg o l) (heom : o + l.length < eom)
    (hroom : out.length + (escape l).length < length) :
    expandLabel msg eom length l.length o out = some (o + l.length, out ++ escape l) := by
  induction l generalizing o out with
  | nil => rw [List.length_nil, expandLabel, Nat.add_zero, escape, List.flatMap_nil, List.append_nil]
  | cons c l ih =>
    have hfirst : msg o = c := hstored 0 (Nat.succ_pos _)
    have hrest : Stored msg (o + 1) l := by
      intro i hi
      have hnext := hstored (i + 1) (Nat.succ_lt_succ hi)
      rw [List.getElem_cons_succ] at hnext
      rwa [Nat.add_assoc, Nat.add_comm 1 i]
    have hlen := length_escape l
    rw [List.length_cons] at heom ⊢
    rw [escape_cons, List.length_append] at hroom
    rw [expandLabel, hfirst]
    dsimp only
    have hcond : ¬(c = dot ∧ out.length + l.length + 2 ≥ length) := by
      rintro ⟨hdot, hge⟩
      rw [if_pos hdot] at hroom
      simp only [List.length_cons, List.length_nil] at hroom
      omega
    have hout : (if c = dot then out ++ [backslash] else out) ++ [c] =
        out ++ if c = dot then [backslash, dot] else [c] := by
      split <;> rename_i hdot
      · rw [hdot, List.append_assoc]
        rfl
      · rfl
    rw [if_neg hcond, if_neg (by omega), hout, ih hrest (by omega) (by rw [List.length_append]; omega), escape_cons,
      List.append_assoc]
    congr 2
    omega

theorem expandLoop_spec {eom compDn length fuel checked : Nat} {len : Option Nat} (h : NameAt msg s o ls n)
    (hs : s ≤ o) (heom : o + n ≤ eom) (hchecked : checked + s + n ≤ eom) (hcomp : len = none → compDn ≤ o)
    (hroom : (extend out ls).length < length) (hfuel : s + n ≤ fuel) :
    expandLoop msg eom compDn length fuel o out len checked =
      some (((len.getD (o + n - compDn) : Nat) : Int), extend out ls) := by
  induction h generalizing fuel checked len out with
  | @root s o hzero =>
    obtain ⟨fuel, rfl⟩ := Nat.exists_eq_succ_of_ne_zero (show fuel ≠ 0 by omega)
    rw [expandLoop, if_pos hzero, extend]
  | @label s o l ls n hclean hlen hstored hname ih =>
    obtain ⟨fuel, rfl⟩ := Nat.exists_eq_succ_of_ne_zero (show fuel ≠ 0 by omega)
    have hpos := hname.pos
    obtain ⟨hnat, hne, hmask⟩ := length_byte hclean.pos hclean.lt_64
    rw [extend] at hroom
    have hlabel := (length_extend _ ls).trans_lt hroom
    rw [List.length_append] at hlabel
    have hescape := length_escape l
    have hout : out.length ≤ (if out = [] then out else out ++ [dot]).length := by
      split
      · exact le_rfl
      · rw [List.length_append]
        exact Nat.le_add_right ..
    rw [expandLoop, hlen]
    dsimp only
    rw [if_neg hne, if_pos hmask, hnat, if_neg (by omega), if_neg (by omega),
      expandLabel_spec hstored (by omega) (by omega)]
    dsimp only
    have hend : o + 1 + l.length + n - compDn = o + (1 + l.length + n) - compDn := by omega
    rw [ih (hs.trans (by omega)) (by omega) (by omega) (fun h => (hcomp h).trans (by omega)) hroom (by omega), hend, extend]
  | @pointer s o t ls n hmask htarget hname hle ih =>
    obtain ⟨fuel, rfl⟩ := Nat.exists_eq_succ_of_ne_zero (show fuel ≠ 0 by omega)
    have hpos := hname.pos
    obtain ⟨hne, hne'⟩ := indirMask_ne hmask
    rw [expandLoop]
    dsimp only
    rw [if_neg hne, if_neg hne', if_pos hmask, htarget, if_neg (by omega), if_neg (by omega)]
    have hlast : len.getD (o + 1 - compDn + 1) = len.getD (o + 2 - compDn) := by
      cases len with
      | none =>
        have hle := hcomp rfl
        rw [Option.getD_none, Option.getD_none]
        omega
      | some len => rfl
    rw [ih le_rfl (by omega) (by omega) (fun h => absurd h (Option.some_ne_none _)) hroom (by omega), Option.getD_some, hlast]

theorem dnExpand_spec {eom length : Nat} (h : NameAt msg o o ls n) (heom : o + n ≤ eom)
    (hroom : (spell ls).length < length) : dnExpand msg eom o length = some ((n : Int), spell ls) := by
  rw [dnExpand, expandLoop_spec h le_rfl heom (by omega) (fun _ => le_rfl) hroom (by omega), Option.getD_none,
    Nat.add_sub_cancel_left, spell]

theorem labelsFrom_plain {c : Byte} (hdot : c ≠ dot) (hbackslash : c ≠ backslash) (m : Label) (text : List Byte) :
    labelsFrom m (c :: text) = labelsFrom (m ++ [c]) text := by
  rw [labelsFrom.eq_def]
  dsimp only
  rw [if_neg hdot, if_neg hbackslash]

theorem labelsFrom_backslash (m : Label) (c : Byte) (text : List Byte) :
    labelsFrom m (backslash :: c :: text) = labelsFrom (m ++ [c]) text := by
  rw [labelsFrom.eq_def]
  dsimp only
  rw [if_neg (by decide), if_pos rfl]

theorem labelsFrom_dot (hne : text ≠ []) (m : Label) : labelsFrom m (dot :: text) = m :: labelsFrom [] text := by
  cases text with
  | nil => exact absurd rfl hne
  | cons c text =>
    rw [labelsFrom.eq_def]
    dsimp only
    rw [if_pos rfl]

theorem labelsFrom_escape {l : Label} (h : ∀ c ∈ l, c ≠ 0 ∧ c ≠ backslash) (m : Label) (text : List Byte) :
    labelsFrom m (escape l ++ text) = labelsFrom (m ++ l) text := by
  induction l generalizing m with
  | nil => rw [escape, List.flatMap_nil, List.nil_append, List.append_nil]
  | cons c l ih =>
    have hrest := ih (fun d hd => h d (List.mem_cons_of_mem c hd)) (m ++ [c])
    rw [List.append_assoc, List.singleton_append] at hrest
    rw [escape_cons]
    by_cases hdot : c = dot
    · rw [if_pos hdot, List.append_assoc, List.cons_append, List.singleton_append, labelsFrom_backslash, ← hdot]
      exact hrest
    · rw [if_neg hdot, List.append_assoc, List.singleton_append,
        labelsFrom_plain hdot (h c List.mem_cons_self).2]
      exact hrest

def dotted (ls : List Label) : List Byte := ls.flatMap fun l => dot :: escape l

theorem extend_eq (h : ∀ l ∈ ls, Clean l) (hout : out ≠ []) : extend out ls = out ++ dotted ls := by
  induction ls generalizing out with
  | nil => rw [extend, dotted, List.flatMap_nil, List.append_nil]
  | cons l ls ih =>
    have hne : out ++ [dot] ++ escape l ≠ [] := by simp
    rw [extend, if_neg hout, ih (fun m hm => h m (List.mem_cons_of_mem l hm)) hne, dotted, dotted, List.flatMap_cons]
    simp

theorem spell_cons (h : ∀ m ∈ l :: ls, Clean m) : spell (l :: ls) = escape l ++ dotted ls := by
  have hne := escape_ne_nil (h l List.mem_cons_self).ne
  rw [spell, extend, if_pos rfl, List.nil_append, extend_eq (fun m hm => h m (List.mem_cons_of_mem l hm)) hne]

theorem labelsFrom_dotted (h : ∀ m ∈ ls, Clean m) (l : Label) : labelsFrom l (dotted ls) = l :: ls := by
  induction ls generalizing l with
  | nil => rfl
  | cons m ls ih =>
    have hm := h m List.mem_cons_self
    have hne : escape m ++ dotted ls ≠ [] := by simp [escape_ne_nil hm.ne]
    have htext : dotted (m :: ls) = dot :: (escape m ++ dotted ls) := List.flatMap_cons
    rw [htext, labelsFrom_dot hne, labelsFrom_escape hm.plain, List.nil_append,
      ih (fun k hk => h k (List.mem_cons_of_mem m hk))]

theorem labelsOf_spell (h : ∀ l ∈ ls, Clean l) : labelsOf (spell ls) = ls := by
  cases ls with
  | nil => rfl
  | cons l ls =>
    have hl := h l List.mem_cons_self
    have hne := escape_ne_nil hl.ne
    have hfirst : ¬(escape l ++ dotted ls = [] ∨ escape l ++ dotted ls = [dot]) := by
      rintro (hnil | hdot)
      · exact hne (List.append_eq_nil_iff.mp hnil).1
      · exact escape_head hl.ne hdot rfl
    rw [spell_cons h, labelsOf, if_neg hfirst, labelsFrom_escape hl.plain, List.nil_append,
      labelsFrom_dotted fun m hm => h m (List.mem_cons_of_mem l hm)]

end NetBSD.Resolv
