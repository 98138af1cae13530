import NetBSD.Resolv.Find

/-!
# Compressing a name

`dn_comp` writes a name with the labels of the text, and the pointers that it saves are to names too.
-/

namespace NetBSD.Resolv

variable {msg msg' : Message} {s o n cp compDn eob : Nat} {l : Label} {ls ms : List Label} {text rest tail : List Byte}
  {d old : Dnptrs}

def store : Message → Nat → List Byte → Message
  | msg, _, [] => msg
  | msg, o, c :: l => store (Function.update msg o c) (o + 1) l

theorem store_of_lt {i : Nat} (hi : i < o) (msg : Message) (l : List Byte) : store msg o l i = msg i := by
  induction l generalizing msg o with
  | nil => rfl
  | cons c l ih =>
    rw [store, ih (by omega)]
    exact Function.update_of_ne (Nat.ne_of_lt hi) c msg

theorem store_stored (msg : Message) (o : Nat) (l : List Byte) : Stored (store msg o l) o l := by
  induction l generalizing msg o with
  | nil => exact fun i hi => absurd hi (Nat.not_lt_zero i)
  | cons c l ih =>
    intro i hi
    cases i with
    | zero =>
      have hfirst := store_of_lt (Nat.lt_add_one o) (Function.update msg o c) l
      rw [Function.update_self] at hfirst
      exact hfirst
    | succ i =>
      have hnext := ih (Function.update msg o c) (o + 1) i (Nat.lt_of_succ_lt_succ hi)
      rw [store, List.getElem_cons_succ, ← hnext, Nat.add_assoc, Nat.add_comm 1 i]

theorem compLabel_spec (hplain : ∀ c ∈ l, c ≠ 0 ∧ c ≠ backslash) (hroom : cp + l.length ≤ eob)
    (hrest : rest = [] ∧ tail = [] ∨ rest = dot :: tail) (msg : Message) :
    compLabel eob (escape l ++ rest) cp msg = .ok (tail, cp + l.length, store msg cp l) := by
  induction l generalizing cp msg with
  | nil =>
    have hempty : escape [] = [] := rfl
    rw [hempty, List.nil_append]
    rcases hrest with ⟨rfl, rfl⟩ | rfl
    · rfl
    · rw [compLabel.eq_def]
      rfl
  | cons c l ih =>
    rw [List.length_cons] at hroom
    have hstep : compLabel eob (escape (c :: l) ++ rest) cp msg =
        compLabel eob (escape l ++ rest) (cp + 1) (Function.update msg cp c) := by
      rw [escape_cons]
      by_cases hdot : c = dot
      · rw [if_pos hdot, hdot, List.append_assoc, List.cons_append, List.singleton_append, compLabel.eq_def]
        dsimp only
        rw [if_neg (by decide), if_pos rfl, if_neg (by omega)]
      · rw [if_neg hdot, List.append_assoc, List.singleton_append, compLabel.eq_def]
        dsimp only
        rw [if_neg hdot, if_neg (hplain c List.mem_cons_self).2, if_neg (by omega)]
    rw [hstep, ih (fun d hd => hplain d (List.mem_cons_of_mem c hd)) (by omega), store, List.length_cons]
    congr 3
    omega

def Known (msg : Message) (size : Nat) (d : Dnptrs) : Prop :=
  ∀ ptrs, d.ptrs = some ptrs → ∀ p ∈ ptrs, ∃ ls n, NameAt msg p p ls n ∧ p + n ≤ size

theorem Known.mono {size size' : Nat} (h : Known msg size d) (hsize : size ≤ size')
    (hsame : ∀ i < size, msg' i = msg i) : Known msg' size' d := by
  intro ptrs hptrs p hp
  obtain ⟨ls, n, hname, hle⟩ := h ptrs hptrs p hp
  exact ⟨ls, n, hname.congr fun i hi => hsame i (by omega), hle.trans hsize⟩

theorem mem_save {ptrs : List Nat} (h : (d.save cp).ptrs = some ptrs) {p : Nat} (hp : p ∈ ptrs) :
    (∃ ptrs', d.ptrs = some ptrs' ∧ p ∈ ptrs') ∨ p = cp := by
  unfold Dnptrs.save at h
  split at h
  · rename_i ptrs' last hptrs' hlast
    split at h
    · obtain rfl := Option.some.inj h
      rcases List.mem_append.mp hp with hold | hnew
      · exact Or.inl ⟨ptrs', hptrs', hold⟩
      · exact Or.inr (List.mem_singleton.mp hnew)
    · exact Or.inl ⟨ptrs, h, hp⟩
  · exact Or.inl ⟨ptrs, h, hp⟩

theorem save_keeps (d : Dnptrs) (cp : Nat) :
    (d.save cp).lastdnptr = d.lastdnptr ∧ (d.ptrs.isSome → (d.save cp).ptrs.isSome) := by
  unfold Dnptrs.save
  split
  · split
    · exact ⟨rfl, fun _ => rfl⟩
    · exact ⟨rfl, id⟩
  · exact ⟨rfl, id⟩

def wireLength (ls : List Label) : Nat := (ls.map fun l => l.length + 1).sum + 1

def Writes (compDn eob : Nat) (old : Dnptrs) (text : List Byte) (ls : List Label) : Prop :=
  ∀ fuel cp d msg, text.length < fuel → compDn ≤ cp → cp + wireLength ls ≤ eob → Known msg compDn old →
    ∃ n d' msg', compLoop compDn eob compDn old fuel text cp d msg = some ⟨((cp + n - compDn : Nat) : Int), d', msg'⟩ ∧
      (∀ i < cp, msg' i = msg i) ∧ NameAt msg' compDn cp ls n ∧ d'.lastdnptr = d.lastdnptr ∧
      (d.ptrs.isSome → d'.ptrs.isSome) ∧
      ∀ ptrs', d'.ptrs = some ptrs' → ∀ p ∈ ptrs', (∃ ptrs, d.ptrs = some ptrs ∧ p ∈ ptrs) ∨
        cp ≤ p ∧ ∃ ms k, NameAt msg' p p ms k ∧ p + k ≤ cp + n

theorem writes_nil (compDn eob : Nat) (old : Dnptrs) : Writes compDn eob old [] [] := by
  intro fuel cp d msg hfuel hcp hroom hknown
  obtain ⟨fuel, rfl⟩ := Nat.exists_eq_succ_of_ne_zero (show fuel ≠ 0 by omega)
  have hwire : wireLength [] = 1 := rfl
  refine ⟨1, d, Function.update msg cp 0, ?_, fun i hi => Function.update_of_ne (Nat.ne_of_lt hi) _ _,
    .root (Function.update_self ..), rfl, id, fun ptrs hptrs p hp => Or.inl ⟨ptrs, hptrs, hp⟩⟩
  rw [compLoop, compEnd, if_neg (by omega)]

theorem wireLength_cons (l : Label) (ls : List Label) : wireLength (l :: ls) = l.length + 1 + wireLength ls := by
  rw [wireLength, wireLength, List.map_cons, List.sum_cons, Nat.add_assoc]

theorem wireLength_pos (ls : List Label) : 0 < wireLength ls := Nat.succ_pos _

theorem find_spec (hknown : Known msg compDn old) (htext : Spells text ms) :
    ∃ lv, old.find msg compDn text = some lv ∧
      (0 ≤ lv → ∃ p n : Nat, lv = (p : Int) ∧ NameAt msg p p ms n ∧ p + n ≤ compDn) := by
  unfold Dnptrs.find
  cases hptrs : old.ptrs with
  | none => exact ⟨-1, rfl, fun h => absurd h (by decide)⟩
  | some ptrs => exact dnFind_spec htext (hknown ptrs hptrs)

theorem writes_label (hl : Clean l) (hrest : rest = [] ∧ tail = [] ∨ rest = dot :: tail)
    (hspells : Spells (escape l ++ rest) (l :: ls)) (hsize : compDn ≤ 16384) (ih : Writes compDn eob old tail ls) :
    Writes compDn eob old (escape l ++ rest) (l :: ls) := by
  intro fuel cp d msg hfuel hcp hroom hknown
  obtain ⟨fuel, rfl⟩ := Nat.exists_eq_succ_of_ne_zero (show fuel ≠ 0 by omega)
  obtain ⟨c, text, htext⟩ : ∃ c text, escape l ++ rest = c :: text := by
    refine List.exists_cons_of_ne_nil fun hnil => ?_
    exact escape_ne_nil hl.ne (List.append_eq_nil_iff.mp hnil).1
  obtain ⟨lv, hfind, hfound⟩ := find_spec hknown hspells
  have hpos := hl.pos
  have hwire := wireLength_pos ls
  rw [wireLength_cons] at hroom
  rw [htext] at hfind
  by_cases hlv : lv ≥ 0
  · obtain ⟨p, k, rfl, hname, hle⟩ := hfound hlv
    have hk := hname.pos
    obtain ⟨hmask, hvalue⟩ := indirection_write (show p < 16384 by omega)
    refine ⟨2, d, Function.update (Function.update msg cp (BitVec.ofNat 8 (p >>> 8) ||| indirMask)) (cp + 1)
      (BitVec.ofNat 8 (p % 256)), ?_, fun i hi => ?_, ?_, rfl, id, fun ptrs hptrs q hq => Or.inl ⟨ptrs, hptrs, hq⟩⟩
    · rw [htext, compLoop, hfind]
      dsimp only
      rw [if_pos hlv, if_neg (by omega), Int.toNat_natCast]
    · rw [Function.update_of_ne (by omega), Function.update_of_ne (by omega)]
    · have hfirst : Function.update (Function.update msg cp (BitVec.ofNat 8 (p >>> 8) ||| indirMask)) (cp + 1)
          (BitVec.ofNat 8 (p % 256)) cp = BitVec.ofNat 8 (p >>> 8) ||| indirMask := by
        rw [Function.update_of_ne (by omega), Function.update_self]
      refine .pointer ?_ ?_ (hname.congr fun i hi => ?_) hle
      · rw [hfirst, hmask]
      · rw [hfirst, Function.update_self, hvalue]
      · rw [Function.update_of_ne (by omega), Function.update_of_ne (by omega)]
  · have hlabel : compLabel eob (escape l ++ rest) (cp + 1) msg = .ok (tail, cp + 1 + l.length, store msg (cp + 1) l) :=
      compLabel_spec hl.plain (by omega) hrest msg
    have hlen : cp + 1 + l.length - cp - 1 = l.length := by omega
    have hmax := hl.le
    have htail : tail.length < fuel := by
      have hescape := length_escape l
      rw [List.length_append] at hfuel
      rcases hrest with ⟨-, rfl⟩ | rfl
      · rw [List.length_nil]
        omega
      · rw [List.length_cons] at hfuel
        omega
    have hbefore : ∀ i < cp, Function.update (store msg (cp + 1) l) cp (BitVec.ofNat 8 l.length) i = msg i := by
      intro i hi
      rw [Function.update_of_ne (Nat.ne_of_lt hi), store_of_lt (by omega)]
    obtain ⟨n, d', msg', hrun, hsame, hname, hlast, hsome, hptrs⟩ := ih fuel (cp + 1 + l.length) (d.save cp)
      (Function.update (store msg (cp + 1) l) cp (BitVec.ofNat 8 l.length)) htail (by omega) (by omega)
      (hknown.mono le_rfl fun i hi => hbefore i (by omega))
    have hnew : NameAt msg' compDn cp (l :: ls) (1 + l.length + n) := by
      refine .label hl ?_ (fun i hi => ?_) hname
      · rw [hsame cp (by omega), Function.update_self]
      · rw [hsame _ (by omega), Function.update_of_ne (by omega)]
        exact store_stored msg (cp + 1) l i hi
    obtain ⟨hsaveLast, hsaveSome⟩ := save_keeps d cp
    refine ⟨1 + l.length + n, d', msg', ?_, fun i hi => ?_, hnew, hlast.trans hsaveLast, fun h => hsome (hsaveSome h),
      fun ptrs' hptrs' p hp => ?_⟩
    · rw [htext] at hlabel
      rw [htext, compLoop, hfind]
      dsimp only
      rw [if_neg hlv, hlabel]
      dsimp only
      have hend : cp + 1 + l.length + n - compDn = cp + (1 + l.length + n) - compDn := by omega
      rw [if_neg (by omega), if_neg (by omega), hlen, hrun, hend]
    · rw [hsame i (by omega), hbefore i hi]
    · rcases hptrs ptrs' hptrs' p hp with ⟨ptrs, hsaved, hmem⟩ | ⟨hle, ms, k, hp, hk⟩
      · rcases mem_save hsaved hmem with hold | rfl
        · exact Or.inl hold
        · exact Or.inr ⟨le_rfl, _, _, hnew.mono hcp, le_rfl⟩
      · exact Or.inr ⟨by omega, ms, k, hp, by omega⟩

theorem writes_spells (h : Spells text ls) (hsize : compDn ≤ 16384) : Writes compDn eob old text ls := by
  induction h with
  | nil => exact writes_nil compDn eob old
  | @last l hl =>
    have hspells : Spells (escape l ++ []) [l] := by
      rw [List.append_nil]
      exact .last hl
    have hwrites := writes_label hl (Or.inl ⟨rfl, rfl⟩) hspells hsize (writes_nil compDn eob old)
    rwa [List.append_nil] at hwrites
  | @cons l text ls hl ht ih => exact writes_label hl (Or.inr rfl) (.cons hl ht) hsize ih

theorem findName_dot {fuel : Nat} (h : NameAt msg s o ls n) (hfuel : s + n ≤ fuel) :
    findName msg fuel o [dot] = some .next := by
  induction h generalizing fuel with
  | @root s o hzero =>
    obtain ⟨fuel, rfl⟩ := Nat.exists_eq_succ_of_ne_zero (show fuel ≠ 0 by omega)
    rw [findName, if_pos hzero, if_neg (List.cons_ne_nil _ _)]
  | @label s o l ls n hclean hlen hstored hname ih =>
    obtain ⟨fuel, rfl⟩ := Nat.exists_eq_succ_of_ne_zero (show fuel ≠ 0 by omega)
    obtain ⟨hnat, hne, hmask⟩ := length_byte hclean.pos hclean.lt_64
    obtain ⟨k, hk⟩ := Nat.exists_eq_succ_of_ne_zero (Nat.ne_of_gt hclean.pos)
    rw [findName, hlen, if_neg hne, if_pos hmask, hnat, hk, findLabel.eq_def]
    rfl
  | @pointer s o t ls n hmask htarget hname hle ih =>
    obtain ⟨fuel, rfl⟩ := Nat.exists_eq_succ_of_ne_zero (show fuel ≠ 0 by omega)
    have hpos := hname.pos
    obtain ⟨hne, hne'⟩ := indirMask_ne hmask
    rw [findName, if_neg hne, if_neg hne', if_pos hmask, htarget]
    exact ih (by omega)

theorem find_dot (hknown : Known msg compDn old) : old.find msg compDn [dot] = some (-1) := by
  unfold Dnptrs.find
  cases hptrs : old.ptrs with
  | none => rfl
  | some ptrs =>
    have hall := hknown ptrs hptrs
    clear hptrs
    dsimp only
    induction ptrs with
    | nil => rfl
    | cons p ptrs ih =>
      obtain ⟨ls, n, hname, hle⟩ := hall p List.mem_cons_self
      rw [dnFind, findName_dot hname hle]
      exact ih fun q hq => hall q (List.mem_cons_of_mem p hq)

theorem writes_dot (compDn eob : Nat) (old : Dnptrs) : Writes compDn eob old [dot] [] := by
  intro fuel cp d msg hfuel hcp hroom hknown
  obtain ⟨fuel, rfl⟩ := Nat.exists_eq_succ_of_ne_zero (show fuel ≠ 0 by omega)
  have hwire : wireLength [] = 1 := rfl
  obtain ⟨hlast, hsome⟩ := save_keeps d cp
  have hname : NameAt (Function.update msg cp 0) compDn cp [] 1 := .root (Function.update_self ..)
  refine ⟨1, d.save cp, Function.update msg cp 0, ?_, fun i hi => Function.update_of_ne (Nat.ne_of_lt hi) _ _, hname,
    hlast, hsome, fun ptrs hptrs p hp => ?_⟩
  · rw [compLoop, find_dot hknown]
    dsimp only
    rw [if_neg (by decide)]
    have hlabel : compLabel eob [dot] (cp + 1) msg = .ok ([], cp + 1, msg) := by
      rw [compLabel.eq_def]
      rfl
    rw [hlabel]
    dsimp only
    rw [if_pos ⟨rfl, rfl⟩, compEnd, if_neg (by omega)]
  · rcases mem_save hptrs hp with hold | rfl
    · exact Or.inl hold
    · exact Or.inr ⟨le_rfl, _, _, hname.mono hcp, le_rfl⟩

end NetBSD.Resolv
