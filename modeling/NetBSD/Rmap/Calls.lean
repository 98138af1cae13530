import NetBSD.Rmap.Ranges

/-!
# The calls

What `rmalloc` and `rmfree` do to the used slots and to the units they cover.
-/

namespace NetBSD.Rmap

variable {mp : Map} {l s t x : List Mapent} {e : Mapent} {size addr lost : Int}

theorem markLast_unused {slots : List Mapent} (he : e ∈ markLast slots) : e.mAddr = 0 := by
  unfold markLast at he
  split at he
  · simp at he
  · rw [List.mem_singleton.mp he]

theorem markLast_length {slots : List Mapent} (h : slots ≠ []) : (markLast slots).length = 1 := by
  unfold markLast
  split
  · exact absurd (List.getLast?_eq_none_iff.mp ‹_›) h
  · rfl

theorem insertIdx_length (s t : List Mapent) (n : Mapent) : (s ++ t).insertIdx s.length n = s ++ n :: t := by
  induction s with
  | nil => simp
  | cons d s ih => simp [ih]

theorem Map.remove_slots (h : mp.slots = s ++ e :: t) :
    (mp.remove s.length).slots = s ++ t ++ markLast mp.slots := by
  rw [Map.remove, h, List.eraseIdx_append_of_length_le le_rfl]
  simp

theorem Map.remove_length (h : mp.slots = s ++ e :: t) :
    (mp.remove s.length).slots.length = mp.slots.length := by
  have hne : mp.slots ≠ [] := by
    rw [h]
    simp
  rw [Map.remove_slots h, List.length_append, markLast_length hne, h]
  simp only [List.length_append, List.length_cons]
  omega

namespace Map.Holds

theorem used (h : mp.Holds l x) (he : e ∈ l) : e.mAddr ≠ 0 := (h.laid.addr e he).ne'

theorem slots_split (h : mp.Holds (s ++ e :: t) x) : mp.slots = s ++ e :: (t ++ x) := by
  rw [h.slots, List.append_assoc, List.cons_append]

theorem remove (h : mp.Holds (s ++ e :: t) x) :
    (mp.remove s.length).Holds (s ++ t) (x ++ markLast mp.slots) where
  slots := by rw [Map.remove_slots h.slots_split, List.append_assoc, List.append_assoc, List.append_assoc]
  laid := h.laid.remove
  unused := by
    intro f hf
    rcases List.mem_append.mp hf with hf | hf
    · exact h.unused f hf
    · exact markLast_unused hf

theorem modify (h : mp.Holds (s ++ e :: t) x) {f : Mapent → Mapent} (hl : Laid (s ++ f e :: t)) :
    ({ slots := mp.slots.modify s.length f } : Map).Holds (s ++ f e :: t) x := by
  refine ⟨?_, hl, h.unused⟩
  show mp.slots.modify s.length f = _
  rw [h.slots_split]
  clear h hl
  induction s with
  | nil => simp
  | cons d s ih => simpa using ih

theorem set (h : mp.Holds (s ++ e :: t) x) {f : Mapent} (hl : Laid (s ++ f :: t)) :
    ({ slots := mp.slots.set s.length f } : Map).Holds (s ++ f :: t) x := by
  refine ⟨?_, hl, h.unused⟩
  show mp.slots.set s.length f = _
  rw [h.slots_split, List.set_append_right _ _ le_rfl]
  simp

theorem merge {n : Mapent} (h : mp.Holds (s ++ e :: n :: t) x) {f : Mapent} (hl : Laid (s ++ f :: t)) :
    (({ slots := mp.slots.set s.length f } : Map).remove (s.length + 1)).Holds (s ++ f :: t)
        (x ++ markLast (mp.slots.set s.length f)) ∧
      (({ slots := mp.slots.set s.length f } : Map).remove (s.length + 1)).slots.length =
        mp.slots.length := by
  have hset : ({ slots := mp.slots.set s.length f } : Map).slots = (s ++ [f]) ++ n :: (t ++ x) := by
    show mp.slots.set s.length f = _
    rw [h.slots_split, List.set_append_right _ _ le_rfl]
    simp
  have hlen : s.length + 1 = (s ++ [f]).length := by simp
  rw [hlen]
  refine ⟨⟨?_, hl, ?_⟩, ?_⟩
  · rw [Map.remove_slots hset]
    simp
  · intro d hd
    rcases List.mem_append.mp hd with hd | hd
    · exact h.unused d hd
    · exact markLast_unused hd
  · rw [Map.remove_length hset]
    exact List.length_set ..

theorem get (h : mp.Holds (s ++ e :: t) x) : mp.slots[s.length]? = some e := by
  rw [h.slots, List.append_assoc, List.getElem?_append_right le_rfl]
  simp

theorem get_next (h : mp.Holds (s ++ e :: t) x) : mp.slots[s.length + 1]? = (t ++ x)[0]? := by
  rw [h.slots, List.append_assoc, List.getElem?_append_right (by omega)]
  have hsub : s.length + 1 - s.length = 1 := by omega
  rw [hsub, List.cons_append, List.getElem?_cons_succ]

theorem full_iff (h : mp.Holds l x) (hne : mp.slots ≠ []) : mp.full = true ↔ x = [] := by
  rw [Map.full, List.getLast?_eq_some_getLast hne, Option.any_some, decide_eq_true_eq]
  constructor
  · intro hlast
    by_contra hx
    have hmem : mp.slots.getLast hne ∈ x := by
      simp only [h.slots, List.getLast_append_of_ne_nil _ hx]
      exact List.getLast_mem hx
    exact hlast (h.unused _ hmem)
  · intro hx
    apply h.used
    have hslots : l = mp.slots := by rw [h.slots, hx, List.append_nil]
    rw [hslots]
    exact List.getLast_mem hne

end Map.Holds

/-- `rmalloc` gives nothing and changes nothing, or it takes what it gives from the free units. -/
def Allocates (l l' : List Mapent) (size addr : Int) : Prop :=
  addr = 0 ∧ l' = l ∨
    0 < addr ∧ span addr (addr + size) ⊆ units l ∧ units l' = units l \ span addr (addr + size)

theorem rmalloc_spec (h : mp.Holds l x) (hsize : 0 ≤ size) :
    ∃ addr mp' l' x', rmalloc mp size = .ok (addr, mp') ∧ mp'.Holds l' x' ∧
      mp'.slots.length = mp.slots.length ∧ Allocates l l' size addr := by
  rcases hsize.eq_or_lt with rfl | hpos
  · exact ⟨0, mp, l, x, by simp [rmalloc], h, rfl, Or.inl ⟨rfl, rfl⟩⟩
  have hfind := findFit_spec (p := []) size h.unused none (fun e he => h.used he) (by simp)
  rw [List.nil_append, List.length_nil, ← h.slots] at hfind
  unfold rmalloc
  rw [if_neg hsize.not_gt, if_neg hpos.ne']
  cases hres : findFit size mp.slots 0 none with
  | exact i =>
    rw [hres] at hfind
    obtain ⟨s, e, t, rfl, rfl, he⟩ := hfind
    have hget : mp.slots.getD s.length ⟨0, 0⟩ = e := by rw [List.getD_eq_getElem?_getD, h.get]; rfl
    refine ⟨_, _, s ++ t, _, rfl, h.remove, Map.remove_length h.slots_split, Or.inr ?_⟩
    rw [hget]
    have hunits : span e.mAddr (e.mAddr + size) = e.units := by rw [← he]; rfl
    rw [hunits, units_append, units_cons]
    refine ⟨h.laid.addr e (by simp), ?_, ?_⟩
    · exact Finset.subset_union_left.trans Finset.subset_union_right
    · have hdisj := h.laid.disjoint
      rw [Finset.union_left_comm, Finset.union_sdiff_left, ← units_append,
        Finset.sdiff_eq_self_of_disjoint hdisj.symm]
  | larger i =>
    rw [hres] at hfind
    obtain ⟨s, e, t, rfl, rfl, he⟩ := hfind
    have hget : mp.slots.getD s.length ⟨0, 0⟩ = e := by rw [List.getD_eq_getElem?_getD, h.get]; rfl
    obtain ⟨hlaid, hunits⟩ := h.laid.shrink hpos he
    refine ⟨_, _, _, x, rfl, h.modify hlaid, List.length_modify .., Or.inr ?_⟩
    rw [hget]
    refine ⟨h.laid.addr e (by simp), ?_, hunits⟩
    intro z hz
    rw [Finset.mem_Ico] at hz
    rw [mem_units]
    refine ⟨e, by simp, Mapent.mem_units.mpr ⟨hz.1, ?_⟩⟩
    have : e.stop = e.mAddr + e.mSize := rfl
    omega
  | none => exact ⟨0, mp, l, x, rfl, h, rfl, Or.inl ⟨rfl, rfl⟩⟩

theorem Map.extend_spec (h : mp.Holds (s ++ e :: t) x) (hf : Free (s ++ e :: t) size addr)
    (hstop : e.stop = addr) (hroom : t = [] → x ≠ []) :
    ∃ mp' l' x', mp.extend size addr s.length = .ok mp' ∧ mp'.Holds l' x' ∧
      mp'.slots.length = mp.slots.length ∧ Adds (s ++ e :: t) l' size addr := by
  have hsize := hf.pos
  unfold Map.extend
  rw [h.get, h.get_next]
  cases t with
  | nil =>
    cases x with
    | nil => exact absurd rfl (hroom rfl)
    | cons n x =>
      have hadd := h.laid.extend hsize hstop (by simp)
      have hn : n.mAddr = 0 := h.unused n (by simp)
      refine ⟨_, _, _, ?_, h.set hadd.laid, List.length_set .., hadd⟩
      simp [hn]
  | cons n t =>
    have hnpos : n.mAddr ≠ 0 := h.used (by simp)
    have hen : e.stop < n.mAddr := (laid_iff.mp h.laid).2.2.2.2.2.1 n (by simp)
    have hnsize : 0 < n.mSize := h.laid.size n (by simp)
    have hnstop : n.stop = n.mAddr + n.mSize := rfl
    have hbeside : addr + size ≤ n.mAddr := by
      rcases hf.beside h.laid (e := n) (by simp) with hle | hle
      · exact hle
      · omega
    have hget : (n :: t ++ x)[0]? = some n := rfl
    rw [hget]
    dsimp only
    by_cases hmeet : addr + size = n.mAddr
    · rw [if_pos ⟨hnpos, hmeet.ge⟩, if_neg hmeet.le.not_gt]
      have hadd := h.laid.join hsize hstop hmeet
      obtain ⟨hholds, hlen⟩ := h.merge hadd.laid
      exact ⟨_, _, _, rfl, hholds, hlen, hadd⟩
    · rw [if_neg]
      · have hadd := h.laid.extend hsize hstop (by
          intro f hf'
          rcases List.mem_cons.mp hf' with rfl | hf'
          · exact lt_of_le_of_ne hbeside hmeet
          · have hnt := (laid_iff (s := []).mp (laid_iff.mp h.laid).2.1).2.2.2.2.2.1 f hf'
            omega)
        exact ⟨_, _, _, rfl, h.set hadd.laid, List.length_set .., hadd⟩
      · rintro ⟨-, hge⟩
        exact hmeet (le_antisymm hbeside hge)

def Clear (l x : List Mapent) (addr : Int) : Prop := ∀ s e, l = s ++ [e] → x = [] → e.stop ≠ addr

theorem rmfreeLoop_pass (h : mp.Holds l x) (hne : mp.slots ≠ []) (hf : Free l size addr) (hc : Clear l x addr)
    (fuel : Nat) (lost : Int) :
    (∃ mp' l' x', rmfreeLoop size addr (fuel + 1) lost mp = .ok (lost, mp') ∧ mp'.Holds l' x' ∧
      mp'.slots.length = mp.slots.length ∧ Adds l l' size addr) ∨
    (x = [] ∧ ∃ s e t, l = s ++ e :: t ∧ rmfreeLoop size addr (fuel + 1) lost mp =
      if e.mSize > size then .ok (lost + size, mp)
      else rmfreeLoop size addr fuel (lost + e.mSize) (mp.remove s.length)) := by
  have hfull := h.full_iff hne
  have hfind := findSpot_spec (p := []) mp.full size addr h.unused none
    (fun e he => h.used he) (by simp) (fun _ => rfl) (by simp)
  rw [List.nil_append, List.length_nil, ← h.slots] at hfind
  rw [rmfreeLoop]
  cases hres : findSpot mp.full size addr mp.slots 0 none with
  | after i =>
    rw [hres] at hfind
    obtain ⟨s, e, t, rfl, rfl, hstop⟩ := hfind
    have hroom : t = [] → x ≠ [] := by
      rintro rfl hx
      exact hc s e rfl hx hstop
    obtain ⟨mp', l', x', hext, hholds, hlen, hadd⟩ := Map.extend_spec h hf hstop hroom
    refine Or.inl ⟨mp', l', x', ?_, hholds, hlen, hadd⟩
    dsimp only
    rw [hext]
    rfl
  | before i =>
    rw [hres] at hfind
    obtain ⟨s, e, t, rfl, rfl, hpass, hstart⟩ := hfind
    have hadd := h.laid.extendDown hf hstart fun d hd => (hpass d hd).stop
    exact Or.inl ⟨_, _, x, rfl, h.modify hadd.laid, List.length_modify .., hadd⟩
  | insert i =>
    rw [hres] at hfind
    obtain ⟨s, e, t, rfl, rfl, hpass, -, hstart, hlt, hroom⟩ := hfind
    have hadd := h.laid.insert hf (fun d hd => ⟨(hpass d hd).order hroom, (hpass d hd).stop⟩) (by
      intro f hf'
      rcases List.mem_cons.mp hf' with rfl | hf'
      · exact ⟨hlt, hstart⟩
      · have hef := (laid_iff.mp h.laid).2.2.2.2.2.1 f hf'
        have hstop : e.stop = e.mAddr + e.mSize := rfl
        have hsize := h.laid.size e (by simp)
        rcases hf.beside h.laid (e := e) (by simp) with hle | hle <;> omega)
    have hx : x ≠ [] := fun hx => by simp [hfull.mpr hx] at hroom
    obtain ⟨x, n, rfl⟩ : ∃ x' n, x = x' ++ [n] := ⟨_, _, (List.dropLast_append_getLast hx).symm⟩
    have hslots : (mp.slots.insertIdx s.length { mSize := size, mAddr := addr }).dropLast =
        s ++ { mSize := size, mAddr := addr } :: e :: t ++ x := by
      rw [h.slots_split, insertIdx_length]
      simp only [← List.cons_append, ← List.append_assoc, List.dropLast_concat]
    refine Or.inl ⟨_, _, x, rfl, ⟨hslots, hadd.laid, fun d hd => h.unused d (by simp [hd])⟩, ?_, hadd⟩
    rw [hslots, h.slots]
    simp only [List.length_append, List.length_cons, List.length_nil]
    omega
  | none i fp =>
    rw [hres] at hfind
    obtain ⟨rfl, hpass, hnone, hsome⟩ := hfind
    dsimp only
    rw [if_neg]
    swap
    · -- The last slot that the loop has passed does not end there either.
      rintro ⟨hpos, hany⟩
      obtain ⟨s, e, rfl⟩ : ∃ s e, l = s ++ [e] := by
        have hl : l ≠ [] := fun hl => hpos (by rw [hl]; rfl)
        exact ⟨_, _, (List.dropLast_append_getLast hl).symm⟩
      have hidx : (s ++ [e]).length - 1 = s.length := by simp
      rw [hidx, h.get] at hany
      exact (hpass e (by simp)).stop (by simpa [Mapent.stop] using hany)
    cases x with
    | cons n x =>
      have hroom : mp.full = false := by
        rw [← Bool.not_eq_true, hfull]
        simp
      have hins := h.laid
      rw [← List.append_nil l] at hins hf
      have hadd := hins.insert hf (fun d hd => ⟨(hpass d hd).order hroom, (hpass d hd).stop⟩) (by simp)
      rw [List.append_nil] at hadd
      have hslots : mp.slots.set l.length { mSize := size, mAddr := addr } =
          l ++ [{ mSize := size, mAddr := addr }] ++ x := by
        rw [h.slots, List.set_append_right _ _ le_rfl]
        simp
      rw [if_pos (by rw [h.slots]; simp)]
      exact Or.inl ⟨_, _, x, rfl, ⟨hslots, hadd.laid, fun d hd => h.unused d (by simp [hd])⟩,
        List.length_set .., hadd⟩
    | nil =>
      rw [if_neg (by rw [h.slots]; simp)]
      cases fp with
      | none =>
        exfalso
        apply hne
        rw [h.slots, hnone rfl, List.append_nil]
      | some f =>
        obtain ⟨s, e, t, rfl, hi, hz⟩ := hsome f rfl
        refine Or.inr ⟨rfl, s, e, t, rfl, ?_⟩
        rw [← hi, ← hz]

/-- What `rmfree` does with the range: the slots cover no more than it and what they did, and what they do not
cover is counted. -/
structure Releases (l l' : List Mapent) (size addr lost : Int) : Prop where
  sub : units l' ⊆ units l ∪ span addr (addr + size)
  count : ((units l').card : Int) + lost = (units l).card + size
  lost : 0 ≤ lost

theorem Free.disjoint_units (hf : Free l size addr) : Disjoint (units l) (span addr (addr + size)) := by
  rw [Finset.disjoint_left]
  intro z hz hz'
  obtain ⟨e, he, hz⟩ := mem_units.mp hz
  exact Finset.disjoint_left.mp (hf.disjoint e he) hz' hz

theorem Adds.releases {l' : List Mapent} (h : Adds l l' size addr) (hf : Free l size addr) :
    Releases l l' size addr 0 := by
  have hsize := hf.pos
  refine ⟨h.units.le, ?_, le_rfl⟩
  rw [h.units, Finset.card_union_of_disjoint hf.disjoint_units, Int.card_Ico]
  push_cast
  omega

theorem rmfree_spec (h : mp.Holds l x) (hne : mp.slots ≠ []) (hf : Free l size addr) (hc : Clear l x addr) :
    ∃ lost mp' l' x', rmfree mp size addr = .ok (lost, mp') ∧ mp'.Holds l' x' ∧
      mp'.slots.length = mp.slots.length ∧ Releases l l' size addr lost := by
  have hsize := hf.pos
  have hstart := hf.start
  unfold rmfree
  rw [if_neg (by omega)]
  rcases rmfreeLoop_pass h hne hf hc mp.slots.length 0 with ⟨mp', l', x', hloop, hholds, hlen, hadd⟩ | hdrop
  · exact ⟨0, mp', l', x', hloop, hholds, hlen, hadd.releases hf⟩
  obtain ⟨rfl, s, e, t, rfl, hloop⟩ := hdrop
  rw [hloop]
  split
  · refine ⟨0 + size, mp, _, _, rfl, h, rfl, Finset.subset_union_left, ?_, ?_⟩
    · omega
    · omega
  · -- The slot that is dropped leaves one unused, and the second pass finds room.
    have hnlt := ‹¬e.mSize > size›
    have hcard := h.laid.card
    have hrem := h.remove
    have hlen := Map.remove_length h.slots_split
    have hne' : (mp.remove s.length).slots ≠ [] := by
      rw [← List.length_pos_iff, hlen]
      exact List.length_pos_iff.mpr hne
    have hf' : Free (s ++ t) size addr := ⟨hf.pos, hf.start, fun d hd => hf.disjoint d (by
      rcases List.mem_append.mp hd with hd | hd <;> simp [hd])⟩
    have hmark : [] ++ markLast mp.slots ≠ [] := by
      rw [List.nil_append, ← List.length_pos_iff, markLast_length hne]
      exact Nat.one_pos
    have hc' : Clear (s ++ t) ([] ++ markLast mp.slots) addr := fun _ _ _ hx => absurd hx hmark
    obtain ⟨k, hk⟩ : ∃ k, mp.slots.length = k + 1 :=
      ⟨mp.slots.length - 1, by have := List.length_pos_iff.mpr hne; omega⟩
    rw [hk]
    rcases rmfreeLoop_pass hrem hne' hf' hc' k (0 + e.mSize) with ⟨mp', l', x', hloop', hholds, hlen', hadd⟩ | hdrop
    · have hrel := hadd.releases hf'
      have hsub : units (s ++ t) ⊆ units (s ++ e :: t) := by
        intro z hz
        simp only [units_append, units_cons, Finset.mem_union] at hz ⊢
        tauto
      refine ⟨_, mp', l', x', hloop', hholds, by rw [hlen', hlen, hk], ?_, ?_, ?_⟩
      · exact hrel.sub.trans (Finset.union_subset_union_left hsub)
      · have := hrel.count
        omega
      · have := h.laid.size e (by simp)
        omega
    · exact absurd hdrop.1 hmark

end NetBSD.Rmap
