import NetBSD.Tty.Clist
import NetBSD.Lib.Ring

/-!
# Bits of a map and characters with a quote bit
-/

namespace NetBSD.Tty

variable {a b : Memory} {i j k off len : Nat} {c : BitVec 32}

theorem and_bit_ne_zero (x : BitVec 8) {t : Nat} (ht : t < 8) :
    decide (x &&& 1#8 <<< t ≠ 0) = x.getLsbD t := by
  have htwo : (1#8 <<< t : BitVec 8) = BitVec.twoPow 8 t := rfl
  rw [htwo, BitVec.and_twoPow]
  cases hx : x.getLsbD t with
  | false => simp
  | true =>
    have hne : BitVec.twoPow 8 t ≠ 0#8 := by
      intro hzero
      have hbit := congrArg (fun y : BitVec 8 => y.getLsbD t) hzero
      simp [ht] at hbit
    simpa using hne

theorem isset_eq (a : Memory) (i : Nat) : isset a i = (a (i / 8)).getLsbD (i % 8) :=
  and_bit_ne_zero _ (Nat.mod_lt i (by decide))

theorem getLsbD_one_shift (t s : Nat) : (1#8 <<< t : BitVec 8).getLsbD s = (decide (s < 8) && decide (t = s)) := by
  have htwo : (1#8 <<< t : BitVec 8) = BitVec.twoPow 8 t := rfl
  rw [htwo, BitVec.getLsbD_twoPow]
  by_cases ht : t = s
  · rw [ht]
  · rw [decide_eq_false ht, Bool.and_false, Bool.and_false]

@[simp] theorem isset_setbit : isset (setbit a i) j = (isset a j || decide (i = j)) := by
  have hj : j % 8 < 8 := Nat.mod_lt j (by decide)
  rw [isset_eq, isset_eq, setbit]
  by_cases hbyte : j / 8 = i / 8
  · rw [hbyte, Function.update_self, BitVec.getLsbD_or, getLsbD_one_shift]
    have : i % 8 = j % 8 ↔ i = j := by omega
    simp [hj, this]
  · have hne : i ≠ j := fun h => hbyte (by rw [h])
    rw [Function.update_of_ne hbyte, decide_eq_false hne, Bool.or_false]

@[simp] theorem isset_clrbit : isset (clrbit a i) j = (isset a j && !decide (i = j)) := by
  have hj : j % 8 < 8 := Nat.mod_lt j (by decide)
  rw [isset_eq, isset_eq, clrbit]
  by_cases hbyte : j / 8 = i / 8
  · rw [hbyte, Function.update_self, BitVec.getLsbD_and, BitVec.getLsbD_not, getLsbD_one_shift]
    have : i % 8 = j % 8 ↔ i = j := by omega
    simp [hj, this]
  · have hne : i ≠ j := fun h => hbyte (by rw [h])
    rw [Function.update_of_ne hbyte, decide_eq_false hne, Bool.not_false, Bool.and_true]

theorem getLsbD_mask (k s t : Nat) :
    (BitVec.ofNat 8 ((2 ^ k - 1) <<< s)).getLsbD t = (decide (t < 8) && decide (s ≤ t ∧ t < s + k)) := by
  rw [BitVec.getLsbD_ofNat, Nat.testBit_shiftLeft, Nat.testBit_two_pow_sub_one]
  congr 1
  rw [← Bool.decide_and, decide_eq_decide]
  omega

theorem getLsbD_low (k t : Nat) :
    (BitVec.ofNat 8 (2 ^ k - 1)).getLsbD t = (decide (t < 8) && decide (t < k)) := by
  rw [BitVec.getLsbD_ofNat, Nat.testBit_two_pow_sub_one]

@[simp] theorem isset_clrbits :
    isset (clrbits a off len) j = (isset a j && !decide (off ≤ j ∧ j < off + len)) := by
  have hj : j % 8 < 8 := Nat.mod_lt j (by decide)
  unfold clrbits
  by_cases hone : len = 1
  · have : off = j ↔ off ≤ j ∧ j < off + 1 := by omega
    rw [if_pos hone, hone, isset_clrbit, decide_eq_decide.mpr this]
  rw [if_neg hone]
  dsimp only
  by_cases hbyte : off / 8 = (off + len) / 8
  · rw [if_pos hbyte, isset_eq, isset_eq]
    by_cases hin : j / 8 = off / 8
    · rw [hin, Function.update_self, BitVec.getLsbD_and, BitVec.getLsbD_not, getLsbD_mask, decide_eq_true hj,
        Bool.true_and, Bool.true_and]
      congr 2
      rw [decide_eq_decide]
      omega
    · have hout : ¬(off ≤ j ∧ j < off + len) := by omega
      rw [Function.update_of_ne hin, decide_eq_false hout, Bool.not_false, Bool.and_true]
  · rw [if_neg hbyte, isset_eq, isset_eq]
    by_cases hmid : off / 8 < j / 8 ∧ j / 8 < (off + len) / 8
    · have hin : off ≤ j ∧ j < off + len := by omega
      rw [if_pos hmid, decide_eq_true hin, Bool.not_true, Bool.and_false]
      exact BitVec.getLsbD_zero
    rw [if_neg hmid]
    by_cases hlast : j / 8 = (off + len) / 8
    · have hne : (off + len) / 8 ≠ off / 8 := Ne.symm hbyte
      rw [hlast, Function.update_self, Function.update_of_ne hne, BitVec.getLsbD_and, BitVec.getLsbD_not,
        getLsbD_low, decide_eq_true hj, Bool.true_and, Bool.true_and]
      congr 2
      rw [decide_eq_decide]
      omega
    rw [Function.update_of_ne hlast]
    by_cases hfirst : j / 8 = off / 8
    · rw [hfirst, Function.update_self, BitVec.getLsbD_and, getLsbD_low, decide_eq_true hj, Bool.true_and,
        ← decide_not]
      congr 1
      rw [decide_eq_decide]
      omega
    · have hout : ¬(off ≤ j ∧ j < off + len) := by omega
      rw [Function.update_of_ne hfirst, decide_eq_false hout, Bool.not_false, Bool.and_true]

def encode (x : BitVec 8 × Bool) : BitVec 32 := x.1.setWidth 32 ||| if x.2 then ttyQuote else 0

def decode (c : BitVec 32) : BitVec 8 × Bool := (c.setWidth 8, c &&& ttyQuote ≠ 0)

theorem getLsbD_ttyQuote (t : Nat) : ttyQuote.getLsbD t = decide (t = 8) := by
  have htwo : ttyQuote = BitVec.twoPow 32 8 := by decide
  rw [htwo, BitVec.getLsbD_twoPow]
  by_cases ht : t = 8
  · subst ht
    rfl
  · rw [decide_eq_false (Ne.symm ht), decide_eq_false ht, Bool.and_false]

theorem getLsbD_encode (x : BitVec 8 × Bool) {t : Nat} (ht : t < 32) :
    (encode x).getLsbD t = (x.1.getLsbD t || (x.2 && decide (t = 8))) := by
  rw [encode, BitVec.getLsbD_or, BitVec.getLsbD_setWidth, decide_eq_true ht, Bool.true_and]
  cases x.2 with
  | false => simp
  | true => rw [if_pos rfl, getLsbD_ttyQuote, Bool.true_and]

theorem encode_ne_minus_one (x : BitVec 8 × Bool) : encode x ≠ -1 := by
  intro h
  have hbit := congrArg (fun y : BitVec 32 => y.getLsbD 9) h
  rw [getLsbD_encode x (by decide), BitVec.getLsbD_of_ge _ _ (by decide)] at hbit
  simp at hbit

theorem decode_encode (x : BitVec 8 × Bool) : decode (encode x) = x := by
  obtain ⟨c, q⟩ := x
  refine Prod.ext ?_ ?_
  · apply BitVec.eq_of_getLsbD_eq
    intro t ht
    have hne : t ≠ 8 := by omega
    rw [decode, BitVec.getLsbD_setWidth, decide_eq_true ht, getLsbD_encode _ (by omega), decide_eq_false hne]
    simp
  · have htwo : ttyQuote = BitVec.twoPow 32 8 := by decide
    have hbit : (encode (c, q)).getLsbD 8 = q := by
      rw [getLsbD_encode _ (by decide), BitVec.getLsbD_of_ge _ _ (by decide)]
      simp
    show decide (encode (c, q) &&& ttyQuote ≠ 0) = q
    rw [htwo, BitVec.and_twoPow, hbit]
    cases q <;> decide

def Clist.cell (clp : Clist) (i : Nat) : BitVec 8 × Bool := (clp.cCs i, clp.cCq.any fun cq => isset cq i)

theorem Clist.charAt_eq (clp : Clist) (i : Nat) : clp.charAt i = encode (clp.cell i) := by
  have hmask : (clp.cCs i).setWidth 32 &&& 0xff = (clp.cCs i).setWidth 32 := by
    apply BitVec.eq_of_getLsbD_eq
    intro t ht
    have hff : (0xff : BitVec 32) = BitVec.ofNat 32 (2 ^ 8 - 1) := by decide
    rw [BitVec.getLsbD_and, hff, BitVec.getLsbD_ofNat, Nat.testBit_two_pow_sub_one, decide_eq_true ht,
      BitVec.getLsbD_setWidth, decide_eq_true ht]
    rcases lt_or_ge t 8 with hlt | hge
    · simp [hlt]
    · simp [BitVec.getLsbD_of_ge _ _ hge]
  unfold Clist.charAt encode Clist.cell
  dsimp only
  rw [hmask]
  cases clp.cCq with
  | none => simp
  | some cq => cases h : isset cq i <;> simp [h]

end NetBSD.Tty

/-!
## The queue that a clist stands for

A bounded queue of characters with a quote bit, the same calls on any number of such queues, and what a clist
that holds a queue looks like.
-/

namespace NetBSD.Tty

open Lib.Ring (slot Holds)

abbrev Item := BitVec 8 × Bool

structure Queue where
  cap : Nat
  items : List Item

def Queue.push (q : Queue) (l : List Item) : Queue :=
  { q with items := q.items ++ l.take (q.cap - q.items.length) }

abbrev Queues := Nat → Queue

def plain (cp : Memory) (count : Nat) : List Item := (List.range count).map fun i => (cp i, false)

def Queues.step (q : Queues) : Call → Option (Reply × Queues)
  | .putc c i =>
    some (.count (if (q i).items.length = (q i).cap then -1 else 0),
      Function.update q i ((q i).push [decode c]))
  | .getc i =>
    match (q i).items with
    | [] => some (.char (-1), q)
    | x :: xs => some (.char (encode x), Function.update q i { q i with items := xs })
  | .unputc i =>
    match (q i).items.getLast? with
    | none => some (.char (-1), q)
    | some x => some (.char (encode x), Function.update q i { q i with items := (q i).items.dropLast })
  | .bToQ cp count i =>
    some (.count (count.toNat - ((q i).cap - (q i).items.length) : Nat),
      Function.update q i ((q i).push (plain cp count.toNat)))
  | .qToB i count =>
    some (.bytes (((q i).items.take count.toNat).map Prod.fst),
      Function.update q i { q i with items := (q i).items.drop count.toNat })
  | .ndflush i count =>
    some (.done, Function.update q i { q i with items := (q i).items.drop count.toNat })
  | .clrbits i k n =>
    if 0 < n ∧ k + n ≤ (q i).items.length then
      some (.done, Function.update q i
        { q i with items := (q i).items.mapIdx fun j x => (x.1, x.2 && !decide (k ≤ j ∧ j < k + n)) })
    else none
  | .catq src dst =>
    if src = dst ∧ (q src).items ≠ [] then none
    else
      let emptied := Function.update q src { q src with items := [] }
      some (.done, Function.update emptied dst ((emptied dst).push (q src).items))

variable {out : Nat → Item} {clp clp' : Clist} {q : Queue} {items : List Item} {cap : Nat}

structure Clist.Stores (out : Nat → Item) (clp : Clist) (q : Queue) : Prop where
  cn : clp.cCn = q.cap
  cc : clp.cCc = q.items.length
  quoted : clp.cCq.isSome
  outside : ∀ i, q.cap ≤ i → clp.cell i = out i
  fits : q.items.length ≤ q.cap
  place : q.items ≠ [] →
    ∃ f, clp.cCf = some f ∧ clp.cCl = some (slot q.cap f q.items.length) ∧ Holds clp.cell q.cap f q.items

theorem Clist.Stores.settle (h : clp.Stores out q) : clp.settle.Stores out q := by
  unfold Clist.settle
  split
  · rename_i hzero
    have hnil : q.items = [] := List.length_eq_zero_iff.mp (h.cc.symm.trans hzero)
    exact ⟨h.cn, h.cc, h.quoted, h.outside, h.fits, fun hne => absurd hnil hne⟩
  · exact h

def Clist.opened (clp : Clist) : Clist :=
  if clp.cCc = 0 then { clp with cCf := some 0, cCl := some 0 } else clp

structure Clist.Open (out : Nat → Item) (clp : Clist) (q : Queue) (f : Nat) : Prop where
  cn : clp.cCn = q.cap
  cc : clp.cCc = q.items.length
  quoted : clp.cCq.isSome
  outside : ∀ i, q.cap ≤ i → clp.cell i = out i
  cf : clp.cCf = some f
  cl : clp.cCl = some (slot q.cap f q.items.length)
  holds : Holds clp.cell q.cap f q.items

theorem Clist.Open.stores {f : Nat} (h : clp.Open out q f) : clp.Stores out q :=
  ⟨h.cn, h.cc, h.quoted, h.outside, h.holds.fits, fun _ => ⟨f, h.cf, h.cl, h.holds⟩⟩

theorem Clist.Stores.opened (h : clp.Stores out q) (hroom : q.items.length < q.cap) :
    ∃ f, clp.opened.Open out q f := by
  unfold Clist.opened
  split
  · rename_i hzero
    have hnil : q.items = [] := List.length_eq_zero_iff.mp (h.cc.symm.trans hzero)
    refine ⟨0, h.cn, h.cc, h.quoted, h.outside, rfl, ?_, ?_⟩
    · rw [hnil, List.length_nil, Lib.Ring.slot_zero (by omega)]
    · rw [hnil]
      exact Holds.nil (by omega)
  · rename_i hpos
    have hne : q.items ≠ [] := fun hnil => hpos (by rw [h.cc, hnil]; rfl)
    obtain ⟨f, hcf, hcl, hholds⟩ := h.place hne
    exact ⟨f, h.cn, h.cc, h.quoted, h.outside, hcf, hcl, hholds⟩

theorem Clist.Stores.here (h : clp.Stores out q) (hne : q.items ≠ []) : ∃ f, clp.Open out q f := by
  obtain ⟨f, hcf, hcl, hholds⟩ := h.place hne
  exact ⟨f, h.cn, h.cc, h.quoted, h.outside, hcf, hcl, hholds⟩

theorem Clist.Open.write {f : Nat} {block : List Item} (h : clp.Open out q f)
    (hfit : q.items.length + block.length ≤ q.cap)
    (hrow : slot q.cap f q.items.length + block.length ≤ q.cap) (hcn : clp'.cCn = clp.cCn)
    (hcc : clp'.cCc = clp.cCc + block.length) (hquoted : clp'.cCq.isSome) (hcf : clp'.cCf = clp.cCf)
    (hcl : clp'.cCl = some (if slot q.cap f q.items.length + block.length = clp.cCn then 0
      else slot q.cap f q.items.length + block.length))
    (hin : ∀ i x, block[i]? = some x → clp'.cell (slot q.cap f q.items.length + i) = x)
    (hout : ∀ j, j < slot q.cap f q.items.length ∨ slot q.cap f q.items.length + block.length ≤ j →
      clp'.cell j = clp.cell j) :
    clp'.Open out { q with items := q.items ++ block } f := by
  have hf := h.holds.start
  refine ⟨hcn.trans h.cn, ?_, hquoted, ?_, hcf.trans h.cf, ?_, h.holds.append hfit hrow hin hout⟩
  · rw [hcc, h.cc, List.length_append]
  · intro i hi
    have hi : q.cap ≤ i := hi
    rw [hout i (Or.inr (hrow.trans hi)), h.outside i hi]
  · rw [hcl, h.cn, Lib.Ring.slot_wrap hf hfit hrow, List.length_append]

theorem Clist.Open.dropFront {f c : Nat} (h : clp.Open out q f) (hc : c ≤ q.items.length)
    (hrow : f + c ≤ q.cap) :
    (clp.advance f c).Stores out { q with items := q.items.drop c } ∧
      (List.range c).map (fun i => clp.cCs (f + i)) = (q.items.take c).map Prod.fst := by
  have hf := h.holds.start
  have hfits := h.holds.fits
  have hnext : (if f + c = clp.cCn then 0 else f + c) = slot q.cap f c := by
    have hwrap := Lib.Ring.slot_wrap (c := 0) (k := c) hf (by omega)
    rw [Lib.Ring.slot_zero hf, Nat.zero_add] at hwrap
    rw [h.cn, hwrap hrow]
  refine ⟨⟨h.cn, ?_, h.quoted, h.outside, ?_, ?_⟩, ?_⟩
  · rw [Clist.advance, List.length_drop, h.cc]
  · rw [List.length_drop]
    dsimp only
    omega
  · intro _
    refine ⟨slot q.cap f c, congrArg some hnext, ?_, h.holds.drop hc⟩
    rw [Clist.advance, h.cl, List.length_drop, Lib.Ring.slot_slot hf (by omega), Nat.add_sub_cancel' hc]
  · have hread := congrArg (List.map Prod.fst) (h.holds.read hc hrow)
    rw [← hread, List.map_map]
    rfl

end NetBSD.Tty
