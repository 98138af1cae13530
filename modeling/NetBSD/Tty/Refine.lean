import NetBSD.Tty.Queue

/-!
# Clists are queues

Each function does to a clist what the queue's call does to the queue that the clist holds.
-/

namespace NetBSD.Tty

open Lib (Matches replies replies_matches)
open Lib.Ring (slot Holds)

variable {out : Nat → Item} {clp : Clist} {q : Queue} {items : List Item} {x : Item} {f : Nat}

theorem Clist.Stores.pos (h : clp.Stores out q) (hne : q.items ≠ []) : clp.cCc ≠ 0 := by
  rw [h.cc]
  exact List.length_eq_zero_iff.not.mpr hne

theorem Clist.Stores.empty (h : clp.Stores out q) (hnil : q.items = []) : clp.cCc = 0 := by
  rw [h.cc, hnil]
  rfl

theorem getc_nil (h : clp.Stores out q) (hnil : q.items = []) : getc clp = some (-1, clp) := by
  rw [getc, if_pos (h.empty hnil)]

theorem getc_cons (h : clp.Stores out q) (hcons : q.items = x :: items) :
    ∃ clp', getc clp = some (encode x, clp') ∧ clp'.Stores out { q with items } := by
  have hne : q.items ≠ [] := by
    rw [hcons]
    exact List.cons_ne_nil _ _
  obtain ⟨f, ho⟩ := h.here hne
  have hlen : 1 ≤ q.items.length := by
    rw [hcons]
    exact Nat.succ_pos _
  obtain ⟨hst, -⟩ := ho.dropFront hlen ho.holds.start
  have hget := ho.holds.get 0 x (by rw [hcons]; rfl)
  rw [Lib.Ring.slot_zero ho.holds.start] at hget
  rw [hcons, List.drop_succ_cons, List.drop_zero] at hst
  refine ⟨(clp.advance f 1).settle, ?_, hst.settle⟩
  rw [getc, if_neg (h.pos hne), ho.cf, Option.map_some, Clist.charAt_eq, hget]
  rfl

theorem unputc_nil (h : clp.Stores out q) (hnil : q.items = []) : unputc clp = some (-1, clp) := by
  rw [unputc, if_pos (h.empty hnil)]

theorem unputc_concat (h : clp.Stores out q) (hlast : q.items = items ++ [x]) :
    ∃ clp', unputc clp = some (encode x, clp') ∧ clp'.Stores out { q with items } := by
  have hne : q.items ≠ [] := by
    rw [hlast]
    simp
  obtain ⟨f, ho⟩ := h.here hne
  have hf := ho.holds.start
  have hlen : q.items.length = items.length + 1 := by
    rw [hlast, List.length_append]
    rfl
  have hfits := h.fits
  -- The cell in front of the first free one, round the ring.
  have hcell : (if slot q.cap f q.items.length = 0 then q.cap - 1 else slot q.cap f q.items.length - 1) =
      slot q.cap f items.length := by
    rw [hlen, Lib.Ring.slot_succ hf (by omega)]
    have := Lib.Ring.slot_lt (k := items.length) hf (by omega)
    split <;> split <;> omega
  have hget := ho.holds.get items.length x (by rw [hlast]; simp)
  have htake := ho.holds.take items.length
  rw [hlast, List.take_left] at htake
  refine ⟨Clist.settle { clp with cCl := some (slot q.cap f items.length), cCc := clp.cCc - 1 }, ?_, ?_⟩
  · rw [unputc, if_neg (h.pos hne), ho.cl, Option.map_some, h.cn]
    dsimp only
    rw [hcell, Clist.charAt_eq, hget]
  · apply Clist.Stores.settle
    refine ⟨h.cn, ?_, h.quoted, h.outside, by dsimp only; omega, fun _ => ⟨f, ho.cf, rfl, htake⟩⟩
    dsimp only
    rw [h.cc, hlen, Nat.add_sub_cancel]

theorem putc_full (h : clp.Stores out q) (hfull : q.items.length = q.cap) (c : BitVec 32) :
    putc c clp = some (-1, clp) := by
  rw [putc, if_pos (h.cc.trans (hfull.trans h.cn.symm))]

theorem cell_putc (cs cq : Memory) (c : BitVec 32) (l j : Nat) :
    (Function.update cs l (c.setWidth 8) j,
        isset (if c &&& ttyQuote ≠ 0 then setbit cq l else clrbit cq l) j) =
      if j = l then decode c else (cs j, isset cq j) := by
  by_cases hj : j = l
  · subst hj
    rw [if_pos rfl, Function.update_self, decode]
    congr 1
    split
    · rename_i hq
      rw [isset_setbit, decide_eq_true rfl, Bool.or_true, decide_eq_true hq]
    · rename_i hq
      rw [isset_clrbit, decide_eq_true rfl, Bool.not_true, Bool.and_false, decide_eq_false hq]
  · have hne : l ≠ j := Ne.symm hj
    rw [if_neg hj, Function.update_of_ne hj]
    congr 1
    split
    · rw [isset_setbit, decide_eq_false hne, Bool.or_false]
    · rw [isset_clrbit, decide_eq_false hne, Bool.not_false, Bool.and_true]

theorem putc_room (h : clp.Stores out q) (hroom : q.items.length < q.cap) (c : BitVec 32) :
    ∃ clp', putc c clp = some (0, clp') ∧ clp'.Stores out { q with items := q.items ++ [decode c] } := by
  obtain ⟨f, ho⟩ := h.opened hroom
  have hf := ho.holds.start
  have hne : clp.cCc ≠ clp.cCn := by
    rw [h.cc, h.cn]
    exact hroom.ne
  have hlt := Lib.Ring.slot_lt (k := q.items.length) hf hroom.le
  obtain ⟨cq, hcq⟩ := Option.isSome_iff_exists.mp ho.quoted
  rw [putc, if_neg hne]
  change ∃ clp', clp.opened.cCl.map _ = _ ∧ _
  rw [ho.cl, Option.map_some]
  refine ⟨_, rfl, Clist.Open.stores (f := f) ?_⟩
  refine ho.write hroom hlt rfl rfl ?_ rfl rfl ?_ ?_
  · change (clp.opened.cCq.map _).isSome
    rw [hcq]
    rfl
  · intro i x hx
    cases i with
    | zero =>
      obtain rfl := Option.some.inj hx
      have hcell := cell_putc clp.opened.cCs cq c (slot q.cap f q.items.length) (slot q.cap f q.items.length)
      rw [if_pos rfl] at hcell
      rw [← hcell, Clist.cell]
      change (_, (clp.opened.cCq.map _).any _) = _
      rw [hcq]
      rfl
    | succ i => simp at hx
  · intro j hj
    have hjne : j ≠ slot q.cap f q.items.length := by
      rintro rfl
      rw [List.length_singleton] at hj
      omega
    have hcell := cell_putc clp.opened.cCs cq c (slot q.cap f q.items.length) j
    rw [if_neg hjne] at hcell
    rw [Clist.cell, Clist.cell]
    change (_, (clp.opened.cCq.map _).any _) = (_, clp.opened.cCq.any _)
    rw [hcq]
    exact hcell

theorem front_spec (ho : clp.Open out q f) {count : Nat} (hcount : 0 < count) (hne : q.items ≠ []) :
    ∃ c, clp.front count = some (f, c) ∧ 0 < c ∧ c ≤ count ∧ c ≤ q.items.length ∧ f + c ≤ q.cap := by
  have hf := ho.holds.start
  have hfits := ho.holds.fits
  have hpos := List.length_pos_iff.mpr hne
  rw [Clist.front, ho.cf, ho.cl, ho.cn]
  dsimp only
  generalize hdef : (if f ≥ slot q.cap f q.items.length then q.cap - f else slot q.cap f q.items.length - f) = row
  have hrow : 0 < row ∧ row ≤ q.items.length ∧ f + row ≤ q.cap := by
    rw [← hdef]
    unfold slot
    by_cases hin : f + q.items.length < q.cap
    · rw [if_pos hin, if_neg (by omega)]
      omega
    · rw [if_neg hin, if_pos (by omega)]
      omega
  refine ⟨_, rfl, ?_⟩
  split <;> omega

theorem qToBLoop_spec (h : clp.Stores out q) {fuel count : Nat} (hfuel : count < fuel) :
    ∃ clp', qToBLoop fuel clp count = some ((q.items.take count).map Prod.fst, clp') ∧
      ndflushLoop fuel clp count = some clp' ∧ clp'.Stores out { q with items := q.items.drop count } := by
  induction fuel generalizing clp q count with
  | zero => omega
  | succ fuel ih =>
    rw [qToBLoop, ndflushLoop]
    by_cases hgo : count > 0 ∧ clp.cCc > 0
    · obtain ⟨hcount, hcc⟩ := hgo
      have hne : q.items ≠ [] := fun hnil => hcc.ne' (h.empty hnil)
      obtain ⟨f, ho⟩ := h.here hne
      obtain ⟨c, hfront, hc, hle, hlen, hrow⟩ := front_spec ho hcount hne
      obtain ⟨hst, hread⟩ := ho.dropFront hlen hrow
      obtain ⟨clp', hq, hn, hst'⟩ := ih hst (show count - c < fuel by omega)
      rw [if_pos ⟨hcount, hcc⟩, if_pos ⟨hcount, hcc⟩, hfront]
      refine ⟨clp', ?_, hn, ?_⟩
      · dsimp only
        rw [hq, Option.map_some, hread, ← List.map_append]
        have htake : q.items.take c ++ (q.items.drop c).take (count - c) = q.items.take count := by
          rw [← List.take_add, Nat.add_sub_cancel' hle]
        rw [htake]
      · have hdrop : (q.items.drop c).drop (count - c) = q.items.drop count := by
          rw [List.drop_drop, Nat.add_sub_cancel' hle]
        rwa [hdrop] at hst'
    · rw [if_neg hgo, if_neg hgo]
      have hdone : q.items.take count = [] ∧ q.items.drop count = q.items := by
        rcases Nat.eq_zero_or_pos count with rfl | hpos
        · exact ⟨rfl, rfl⟩
        · have hnil : q.items = [] := by
            rw [← List.length_eq_zero_iff, ← h.cc]
            omega
          rw [hnil]
          exact ⟨List.take_nil, List.drop_nil⟩
      rw [hdone.1, hdone.2]
      exact ⟨clp, rfl, rfl, h⟩

theorem qToB_spec (h : clp.Stores out q) (count : Int) :
    ∃ clp', qToB clp count = some ((q.items.take count.toNat).map Prod.fst, clp') ∧
      clp'.Stores out { q with items := q.items.drop count.toNat } := by
  obtain ⟨clp', hq, -, hst⟩ := qToBLoop_spec h (Nat.lt_succ_self count.toNat)
  exact ⟨clp'.settle, by rw [qToB, hq]; rfl, hst.settle⟩

theorem ndflush_spec (h : clp.Stores out q) (count : Int) :
    ∃ clp', ndflush clp count = some clp' ∧ clp'.Stores out { q with items := q.items.drop count.toNat } := by
  unfold ndflush
  split
  · rename_i hall
    have hdrop : q.items.drop count.toNat = [] := by
      rw [List.drop_eq_nil_iff, ← h.cc]
      omega
    rw [hdrop]
    exact ⟨_, rfl, h.cn, rfl, h.quoted, h.outside, Nat.zero_le _, fun hne => absurd rfl hne⟩
  · obtain ⟨clp', -, hn, hst⟩ := qToBLoop_spec h (Nat.lt_succ_self count.toNat)
    exact ⟨clp'.settle, by rw [hn]; rfl, hst.settle⟩

theorem plain_length (cp : Memory) (n : Nat) : (plain cp n).length = n := by
  rw [plain, List.length_map, List.length_range]

theorem plain_take (cp : Memory) (n k : Nat) : (plain cp n).take k = plain cp (min k n) := by
  rw [plain, plain, ← List.map_take, List.take_range]

theorem plain_append (cp : Memory) (n k : Nat) :
    plain cp n ++ plain (fun i => cp (n + i)) k = plain cp (n + k) := by
  rw [plain, plain, plain, List.range_add, List.map_append, List.map_map]
  rfl

theorem write_block (ho : clp.Open out q f) {c : Nat} (cp : Memory)
    (hfit : q.items.length + c ≤ q.cap) (hrow : slot q.cap f q.items.length + c ≤ q.cap) :
    Clist.Open out
      { clp with
        cCs := fun i =>
          if slot q.cap f q.items.length ≤ i ∧ i < slot q.cap f q.items.length + c
          then cp (i - slot q.cap f q.items.length) else clp.cCs i
        cCq := clp.cCq.map fun cq => clrbits cq (slot q.cap f q.items.length) c
        cCc := clp.cCc + c
        cCl := some (if slot q.cap f q.items.length + c = clp.cCn then 0 else slot q.cap f q.items.length + c) }
      { q with items := q.items ++ plain cp c } f := by
  obtain ⟨cq, hcq⟩ := Option.isSome_iff_exists.mp ho.quoted
  have hlen := plain_length cp c
  generalize hl : slot q.cap f q.items.length = l at hrow ⊢
  apply ho.write
  · rwa [hlen]
  · rwa [hlen, hl]
  · rfl
  · rw [hlen]
  · dsimp only
    rw [hcq]
    rfl
  · rfl
  · dsimp only
    rw [hlen, hl]
  · intro i x hx
    have hi : i < c := by
      rw [← hlen]
      exact (List.getElem?_eq_some_iff.mp hx).1
    have hin : l ≤ l + i ∧ l + i < l + c := by omega
    have hx' : (cp i, false) = x := by
      rw [plain, List.getElem?_map, List.getElem?_range hi] at hx
      exact Option.some.inj hx
    rw [hl, Clist.cell]
    dsimp only
    rw [if_pos hin, hcq, Option.map_some, Option.any_some, isset_clrbits, decide_eq_true hin, Bool.not_true,
      Bool.and_false, Nat.add_sub_cancel_left, hx']
  · intro j hj
    rw [hlen, hl] at hj
    have hout : ¬(l ≤ j ∧ j < l + c) := by omega
    rw [Clist.cell, Clist.cell]
    dsimp only
    rw [if_neg hout, hcq, Option.map_some, Option.any_some, Option.any_some, isset_clrbits, decide_eq_false hout,
      Bool.not_false, Bool.and_true]

theorem bToQLoop_spec (ho : clp.Open out q f) {fuel count : Nat} (hfuel : count < fuel) (cp : Memory) :
    ∃ clp', bToQLoop fuel cp count clp = some (count - (q.cap - q.items.length), clp') ∧
      clp'.Stores out (q.push (plain cp count)) := by
  induction fuel generalizing clp q count cp with
  | zero => omega
  | succ fuel ih =>
    have hf := ho.holds.start
    have hfits := ho.holds.fits
    rw [bToQLoop]
    by_cases hgo : count > 0 ∧ clp.cCc < clp.cCn
    · obtain ⟨hcount, hroom⟩ := hgo
      have hlen : q.items.length < q.cap := by rwa [ho.cc, ho.cn] at hroom
      have hlt := Lib.Ring.slot_lt (k := q.items.length) hf hfits
      rw [if_pos ⟨hcount, hroom⟩, ho.cf, ho.cl, ho.cn]
      dsimp only
      obtain ⟨c, hc⟩ : ∃ c, c = if (if f > slot q.cap f q.items.length then f - slot q.cap f q.items.length
          else q.cap - slot q.cap f q.items.length) > count then count
          else if f > slot q.cap f q.items.length then f - slot q.cap f q.items.length
          else q.cap - slot q.cap f q.items.length := ⟨_, rfl⟩
      rw [← hc]
      have hbounds : 0 < c ∧ c ≤ count ∧ q.items.length + c ≤ q.cap ∧ slot q.cap f q.items.length + c ≤ q.cap := by
        rw [hc]
        clear hc ih
        unfold slot at hlt ⊢
        split at hlt <;> split <;> split <;> split <;> omega
      obtain ⟨hpos, hle, hfit, hrow⟩ := hbounds
      have hone := write_block ho cp hfit hrow
      rw [ho.cn, ho.cf] at hone
      obtain ⟨clp', hloop, hst⟩ := ih hone (show count - c < fuel by omega) fun i => cp (c + i)
      refine ⟨clp', ?_, ?_⟩
      · rw [hloop, List.length_append, plain_length]
        congr 2
        dsimp only
        omega
      · have hpush : Queue.push { q with items := q.items ++ plain cp c } (plain (fun i => cp (c + i)) (count - c)) =
            q.push (plain cp count) := by
          unfold Queue.push
          congr 1
          dsimp only
          rw [plain_take, plain_take, List.append_assoc, plain_append, List.length_append, plain_length]
          congr 2
          omega
        rwa [hpush] at hst
    · rw [if_neg hgo, ho.cc, ho.cn] at *
      refine ⟨clp, ?_, ?_⟩
      · congr 2
        omega
      · have hpush : q.push (plain cp count) = q := by
          unfold Queue.push
          have hnil : (plain cp count).take (q.cap - q.items.length) = [] := by
            rw [plain_take]
            have : min (q.cap - q.items.length) count = 0 := by omega
            rw [this]
            rfl
          rw [hnil, List.append_nil]
        rw [hpush]
        exact ho.stores

theorem bToQ_spec (h : clp.Stores out q) (cp : Memory) (count : Int) :
    ∃ clp', bToQ cp count clp = some (((count.toNat - (q.cap - q.items.length) : Nat) : Int), clp') ∧
      clp'.Stores out (q.push (plain cp count.toNat)) := by
  have hfits := h.fits
  unfold bToQ
  by_cases hneg : count ≤ 0
  · have hzero : count.toNat = 0 := by omega
    have hpush : q.push (plain cp 0) = q := by
      unfold Queue.push plain
      simp
    rw [if_pos hneg, hzero, hpush]
    exact ⟨clp, by simp, h⟩
  rw [if_neg hneg]
  by_cases hfull : q.items.length = q.cap
  · have hpush : q.push (plain cp count.toNat) = q := by
      unfold Queue.push
      rw [hfull, Nat.sub_self, List.take_zero, List.append_nil]
    rw [if_pos (h.cc.trans (hfull.trans h.cn.symm)), hpush, hfull]
    refine ⟨clp, ?_, h⟩
    congr 2
    omega
  · have hne : clp.cCc ≠ clp.cCn := by rwa [h.cc, h.cn]
    obtain ⟨f, ho⟩ := h.opened (by omega)
    obtain ⟨clp', hloop, hst⟩ := bToQLoop_spec ho (Nat.lt_succ_self count.toNat) cp
    rw [if_neg hne]
    change ∃ clp', (bToQLoop _ _ _ clp.opened).map _ = _ ∧ _
    rw [hloop]
    exact ⟨clp', rfl, hst⟩

theorem nextcs_spec (ho : clp.Open out q f) {k fuel : Nat} (hk : k < q.items.length)
    (hfuel : q.items.length - k ≤ fuel) :
    nextcs fuel (q.items.length - k) clp (slot q.cap f k) = some ((q.items.drop (k + 1)).map encode) := by
  have hf := ho.holds.start
  have hfits := ho.holds.fits
  induction fuel generalizing k with
  | zero => omega
  | succ fuel ih =>
    -- Only at the first character the count is set again, to what it is.
    have hcc : (if clp.cCf = some (slot q.cap f k) then clp.cCc else q.items.length - k) = q.items.length - k := by
      split
      · rename_i hsame
        rw [ho.cf] at hsame
        have hslot : slot q.cap f 0 = slot q.cap f k := by
          rw [Lib.Ring.slot_zero hf]
          exact Option.some.inj hsame
        have hzero := Lib.Ring.slot_inj hf (by omega) (by omega) hslot
        rw [ho.cc, ← hzero, Nat.sub_zero]
      · rfl
    rw [nextcs, nextc, hcc]
    dsimp only
    rw [if_neg (by omega)]
    by_cases hlast : q.items.length - k - 1 = 0
    · rw [if_pos hlast, List.drop_eq_nil_of_le (by omega)]
      rfl
    · have hk' : k + 1 < q.items.length := by omega
      have hnext : (if slot q.cap f k + 1 = clp.cCn then 0 else slot q.cap f k + 1) = slot q.cap f (k + 1) := by
        rw [Lib.Ring.slot_succ hf (by omega), ho.cn]
      have hsub : q.items.length - k - 1 = q.items.length - (k + 1) := by omega
      rw [if_neg hlast, hnext, hsub]
      dsimp only
      have hget := ho.holds.get (k + 1) q.items[k + 1] (List.getElem?_eq_getElem hk')
      rw [ih hk' (by omega), Option.map_some, Clist.charAt_eq, hget, List.drop_eq_getElem_cons hk', List.map_cons]

theorem scan_spec (h : clp.Stores out q) : clp.scan = some (q.items.map encode) := by
  unfold Clist.scan firstc
  cases hitems : q.items with
  | nil =>
    rw [if_pos (h.empty hitems)]
    rfl
  | cons x items =>
    have hne : q.items ≠ [] := by
      rw [hitems]
      exact List.cons_ne_nil _ _
    obtain ⟨f, ho⟩ := h.here hne
    have hpos := List.length_pos_iff.mpr hne
    have hrest := nextcs_spec ho hpos (Nat.sub_le q.items.length 0)
    have hget := ho.holds.get 0 x (by rw [hitems]; rfl)
    rw [Lib.Ring.slot_zero ho.holds.start] at hget hrest
    rw [hitems, Nat.sub_zero, List.drop_succ_cons, List.drop_zero] at hrest
    rw [if_neg (h.pos hne), ho.cf, Option.map_some]
    dsimp only
    rw [h.cc, hitems, hrest, Clist.charAt_eq, hget]
    rfl

theorem offset_eq (ho : clp.Open out q f) {k : Nat} (hk : k ≤ q.cap) : clp.offset k = slot q.cap f k := by
  have hf := ho.holds.start
  rw [Clist.offset, ho.cf, ho.cn, Option.getD_some]
  unfold slot
  split
  · exact Nat.mod_eq_of_lt ‹_›
  · rw [Nat.mod_eq_sub_mod (by omega), Nat.mod_eq_of_lt (by omega)]

theorem clear_spec (ho : clp.Open out q f) {k n : Nat} (hn : 0 < n) (hkn : k + n ≤ q.items.length) :
    Clist.Stores out
      { clp with
        cCq := clp.cCq.map fun cq =>
          if clp.offset k + n ≤ clp.cCn then clrbits cq (clp.offset k) n
          else clrbits (clrbits cq (clp.offset k) (clp.cCn - clp.offset k)) 0 (clp.offset k + n - clp.cCn) }
      { q with items := q.items.mapIdx fun j x => (x.1, x.2 && !decide (k ≤ j ∧ j < k + n)) } := by
  have hf := ho.holds.start
  have hfits := ho.holds.fits
  obtain ⟨cq, hcq⟩ := Option.isSome_iff_exists.mp ho.quoted
  have hoff := offset_eq ho (k := k) (by omega)
  have hlt : slot q.cap f k < q.cap := Lib.Ring.slot_lt hf (by omega)
  rw [hoff, ho.cn]
  generalize hclear : (fun cq => if slot q.cap f k + n ≤ q.cap then clrbits cq (slot q.cap f k) n
    else clrbits (clrbits cq (slot q.cap f k) (q.cap - slot q.cap f k)) 0 (slot q.cap f k + n - q.cap)) = clear
  -- The bits that are cleared, round the ring.
  have hbit : ∀ i, isset (clear cq) i = (isset cq i && !decide (if slot q.cap f k + n ≤ q.cap
      then slot q.cap f k ≤ i ∧ i < slot q.cap f k + n
      else (slot q.cap f k ≤ i ∧ i < q.cap) ∨ i < slot q.cap f k + n - q.cap)) := by
    intro i
    rw [← hclear]
    dsimp only
    split
    · exact isset_clrbits
    · rw [isset_clrbits, isset_clrbits, Bool.and_assoc, ← decide_not, ← decide_not, ← decide_not, ← Bool.decide_and]
      congr 1
      rw [decide_eq_decide]
      omega
  refine ⟨rfl, ?_, ?_, ?_, ?_, ?_⟩
  · rw [List.length_mapIdx]
    exact ho.cc
  · rw [hcq]
    rfl
  · intro i hi
    have hi : q.cap ≤ i := hi
    rw [← ho.outside i hi, Clist.cell, Clist.cell]
    dsimp only
    rw [hcq, Option.map_some, Option.any_some, Option.any_some, hbit, decide_eq_false, Bool.not_false, Bool.and_true]
    split <;> omega
  · rw [List.length_mapIdx]
    exact hfits
  · intro _
    refine ⟨f, ho.cf, ?_, hf, ?_, ?_⟩
    · rw [List.length_mapIdx]
      exact ho.cl
    · rw [List.length_mapIdx]
      exact hfits
    · intro j x hx
      rw [List.getElem?_mapIdx] at hx
      obtain ⟨y, hy, hyx⟩ := Option.map_eq_some_iff.mp hx
      have hj : j < q.items.length := (List.getElem?_eq_some_iff.mp hy).1
      have hget := ho.holds.get j y hy
      rw [Clist.cell, hcq, Option.any_some] at hget
      rw [Clist.cell, ← hyx, ← hget]
      dsimp only
      rw [hcq, Option.map_some, Option.any_some, hbit]
      rw [decide_eq_decide.mpr (Lib.Ring.slot_mem_block hf (by omega) (by omega) hn)]

end NetBSD.Tty
