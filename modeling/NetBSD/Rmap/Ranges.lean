import NetBSD.Rmap.Map

/-!
# The ranges of a resource map

The used slots as a sorted list of ranges, the units they cover, and what the changes that `rmalloc` and
`rmfree` make to one slot mean for these.
-/

namespace NetBSD.Rmap

variable {l s t : List Mapent} {e n : Mapent} {size addr z : Int}

namespace Mapent

def stop (e : Mapent) : Int := e.mAddr + e.mSize

def units (e : Mapent) : Finset Int := span e.mAddr e.stop

end Mapent

def units (l : List Mapent) : Finset Int := l.foldr (fun e u => e.units ∪ u) ∅

@[simp] theorem units_nil : units [] = ∅ := rfl

@[simp] theorem units_cons : units (e :: l) = e.units ∪ units l := rfl

@[simp] theorem units_append : units (s ++ t) = units s ∪ units t := by
  induction s with
  | nil => simp
  | cons e s ih => rw [List.cons_append, units_cons, units_cons, ih, Finset.union_assoc]

theorem Mapent.mem_units : z ∈ e.units ↔ e.mAddr ≤ z ∧ z < e.stop := by
  rw [Mapent.units, Finset.mem_Ico]

theorem mem_units : z ∈ units l ↔ ∃ e ∈ l, z ∈ e.units := by
  induction l with
  | nil => simp
  | cons e l ih => simp [ih]

structure Laid (l : List Mapent) : Prop where
  addr : ∀ e ∈ l, 0 < e.mAddr
  size : ∀ e ∈ l, 0 < e.mSize
  apart : l.Pairwise fun s t => s.stop < t.mAddr

theorem laid_iff : Laid (s ++ e :: t) ↔
    Laid s ∧ Laid t ∧ 0 < e.mAddr ∧ 0 < e.mSize ∧ (∀ d ∈ s, d.stop < e.mAddr) ∧
      (∀ f ∈ t, e.stop < f.mAddr) ∧ ∀ d ∈ s, ∀ f ∈ t, d.stop < f.mAddr := by
  constructor
  · rintro ⟨haddr, hsize, hapart⟩
    rw [List.pairwise_append, List.pairwise_cons] at hapart
    obtain ⟨hs, ⟨het, ht⟩, hst⟩ := hapart
    refine ⟨⟨?_, ?_, hs⟩, ⟨?_, ?_, ht⟩, haddr e (by simp), hsize e (by simp), ?_, het, ?_⟩
    · exact fun d hd => haddr d (by simp [hd])
    · exact fun d hd => hsize d (by simp [hd])
    · exact fun d hd => haddr d (by simp [hd])
    · exact fun d hd => hsize d (by simp [hd])
    · exact fun d hd => hst d hd e (by simp)
    · exact fun d hd f hf => hst d hd f (by simp [hf])
  · rintro ⟨hs, ht, haddr, hsize, hse, het, hst⟩
    refine ⟨?_, ?_, ?_⟩
    · intro d hd
      rcases List.mem_append.mp hd with hd | hd
      · exact hs.addr d hd
      · rcases List.mem_cons.mp hd with rfl | hd
        · exact haddr
        · exact ht.addr d hd
    · intro d hd
      rcases List.mem_append.mp hd with hd | hd
      · exact hs.size d hd
      · rcases List.mem_cons.mp hd with rfl | hd
        · exact hsize
        · exact ht.size d hd
    · rw [List.pairwise_append, List.pairwise_cons]
      refine ⟨hs.apart, ⟨het, ht.apart⟩, ?_⟩
      intro d hd f hf
      rcases List.mem_cons.mp hf with rfl | hf
      · exact hse d hd
      · exact hst d hd f hf

theorem laid_nil : Laid [] := ⟨by simp, by simp, List.Pairwise.nil⟩

theorem Laid.remove (h : Laid (s ++ e :: t)) : Laid (s ++ t) := by
  obtain ⟨hs, ht, -, -, -, -, hst⟩ := laid_iff.mp h
  refine ⟨?_, ?_, List.pairwise_append.mpr ⟨hs.apart, ht.apart, hst⟩⟩
  · exact fun d hd => (List.mem_append.mp hd).elim (hs.addr d) (ht.addr d)
  · exact fun d hd => (List.mem_append.mp hd).elim (hs.size d) (ht.size d)

theorem Laid.disjoint (h : Laid (s ++ e :: t)) : Disjoint e.units (units (s ++ t)) := by
  obtain ⟨hs, ht, -, he, hse, het, -⟩ := laid_iff.mp h
  rw [Finset.disjoint_left]
  intro z hz hz'
  obtain ⟨d, hd, hz'⟩ := mem_units.mp hz'
  rw [Mapent.mem_units] at hz hz'
  rcases List.mem_append.mp hd with hd | hd
  · have := hse d hd
    omega
  · have := het d hd
    omega

theorem Laid.card (h : Laid (s ++ e :: t)) :
    ((units (s ++ e :: t)).card : Int) = e.mSize + (units (s ++ t)).card := by
  have hsize : 0 < e.mSize := (laid_iff.mp h).2.2.2.1
  have hcard : (e.units.card : Int) = e.mSize := by
    rw [Mapent.units, Int.card_Ico, Mapent.stop]
    omega
  have hunits : units (s ++ e :: t) = e.units ∪ units (s ++ t) := by
    rw [units_append, units_append, units_cons, Finset.union_left_comm]
  rw [hunits, Finset.card_union_of_disjoint h.disjoint]
  push_cast
  rw [hcard]

section Range

structure Free (l : List Mapent) (size addr : Int) : Prop where
  pos : 0 < size
  start : 0 < addr
  disjoint : ∀ e ∈ l, Disjoint (span addr (addr + size)) e.units

theorem Free.beside (h : Free l size addr) (hl : Laid l) (he : e ∈ l) :
    addr + size ≤ e.mAddr ∨ e.stop ≤ addr := by
  by_contra hcross
  simp only [not_or, not_le] at hcross
  have hsize := h.pos
  have hsize' := hl.size e he
  have hstop : e.stop = e.mAddr + e.mSize := rfl
  have hd := Finset.disjoint_left.mp (h.disjoint e he)
  -- The larger of the two addresses is in both ranges.
  have hmem : max addr e.mAddr ∈ e.units := by
    rw [Mapent.mem_units]
    omega
  refine hd ?_ hmem
  rw [Finset.mem_Ico]
  omega

structure Adds (l l' : List Mapent) (size addr : Int) : Prop where
  laid : Laid l'
  units : units l' = units l ∪ span addr (addr + size)

theorem Laid.extend (h : Laid (s ++ e :: t)) (hsize : 0 < size) (hstop : e.stop = addr)
    (hnext : ∀ f ∈ t, addr + size < f.mAddr) :
    Adds (s ++ e :: t) (s ++ { e with mSize := e.mSize + size } :: t) size addr := by
  obtain ⟨hs, ht, haddr, he, hse, -, hst⟩ := laid_iff.mp h
  have hdef : e.stop = e.mAddr + e.mSize := rfl
  refine ⟨laid_iff.mpr ⟨hs, ht, haddr, ?_, hse, ?_, hst⟩, ?_⟩
  · show 0 < e.mSize + size
    omega
  · intro f hf
    have := hnext f hf
    show e.mAddr + (e.mSize + size) < f.mAddr
    omega
  · ext z
    simp only [units_append, units_cons, Finset.mem_union, Mapent.mem_units, Finset.mem_Ico, Mapent.stop]
    have : e.mAddr ≤ z ∧ z < e.mAddr + (e.mSize + size) ↔
        (e.mAddr ≤ z ∧ z < e.mAddr + e.mSize) ∨ (addr ≤ z ∧ z < addr + size) := by omega
    rw [this]
    simp only [or_assoc, or_comm, or_left_comm]

theorem Laid.join (h : Laid (s ++ e :: n :: t)) (hsize : 0 < size) (hstop : e.stop = addr)
    (hnext : addr + size = n.mAddr) :
    Adds (s ++ e :: n :: t) (s ++ { e with mSize := e.mSize + size + n.mSize } :: t) size addr := by
  obtain ⟨hs, hnt, haddr, he, hse, -, hst⟩ := laid_iff.mp h
  obtain ⟨-, ht, -, hn, -, hnf, -⟩ := laid_iff (s := []).mp hnt
  have hdef : e.stop = e.mAddr + e.mSize := rfl
  have hdef' : n.stop = n.mAddr + n.mSize := rfl
  refine ⟨laid_iff.mpr ⟨hs, ht, haddr, ?_, hse, ?_, ?_⟩, ?_⟩
  · show 0 < e.mSize + size + n.mSize
    omega
  · intro f hf
    have := hnf f hf
    show e.mAddr + (e.mSize + size + n.mSize) < f.mAddr
    omega
  · exact fun d hd f hf => hst d hd f (by simp [hf])
  · ext z
    simp only [units_append, units_cons, Finset.mem_union, Mapent.mem_units, Finset.mem_Ico, Mapent.stop]
    have : e.mAddr ≤ z ∧ z < e.mAddr + (e.mSize + size + n.mSize) ↔
        (e.mAddr ≤ z ∧ z < e.mAddr + e.mSize) ∨ (n.mAddr ≤ z ∧ z < n.mAddr + n.mSize) ∨
          (addr ≤ z ∧ z < addr + size) := by omega
    rw [this]
    simp only [or_assoc, or_comm, or_left_comm]

theorem Laid.extendDown (h : Laid (s ++ e :: t)) (hf : Free (s ++ e :: t) size addr)
    (hnext : addr + size = e.mAddr) (hs : ∀ d ∈ s, d.stop ≠ addr) :
    Adds (s ++ e :: t) (s ++ { mAddr := addr, mSize := e.mSize + size } :: t) size addr := by
  obtain ⟨hls, ht, haddr, he, hse, het, hst⟩ := laid_iff.mp h
  have hdef : e.stop = e.mAddr + e.mSize := rfl
  have hsize := hf.pos
  refine ⟨laid_iff.mpr ⟨hls, ht, hf.start, ?_, ?_, ?_, hst⟩, ?_⟩
  · show 0 < e.mSize + size
    omega
  · intro d hd
    have hlt := hse d hd
    have hne := hs d hd
    have hd' : d ∈ s ++ e :: t := by simp [hd]
    have := h.size d hd'
    have hstop : d.stop = d.mAddr + d.mSize := rfl
    rcases hf.beside h hd' with hle | hle
    · omega
    · exact lt_of_le_of_ne hle hne
  · intro f hf'
    have := het f hf'
    show addr + (e.mSize + size) < f.mAddr
    omega
  · ext z
    simp only [units_append, units_cons, Finset.mem_union, Mapent.mem_units, Finset.mem_Ico, Mapent.stop]
    have : addr ≤ z ∧ z < addr + (e.mSize + size) ↔
        (e.mAddr ≤ z ∧ z < e.mAddr + e.mSize) ∨ (addr ≤ z ∧ z < addr + size) := by omega
    rw [this]
    simp only [or_assoc, or_comm, or_left_comm]

theorem Laid.insert (hs : Laid (s ++ t)) (hf : Free (s ++ t) size addr)
    (hbefore : ∀ d ∈ s, d.mAddr ≤ addr ∧ d.stop ≠ addr)
    (hbehind : ∀ f ∈ t, addr < f.mAddr ∧ addr + size ≠ f.mAddr) :
    Adds (s ++ t) (s ++ { mSize := size, mAddr := addr } :: t) size addr := by
  have hsize := hf.pos
  have hapart := List.pairwise_append.mp hs.apart
  refine ⟨laid_iff.mpr ⟨⟨?_, ?_, hapart.1⟩, ⟨?_, ?_, hapart.2.1⟩, hf.start, hsize, ?_, ?_, hapart.2.2⟩, ?_⟩
  · exact fun d hd => hs.addr d (by simp [hd])
  · exact fun d hd => hs.size d (by simp [hd])
  · exact fun d hd => hs.addr d (by simp [hd])
  · exact fun d hd => hs.size d (by simp [hd])
  · intro d hd
    have := hbefore d hd
    have hd' : d ∈ s ++ t := by simp [hd]
    have := hs.size d hd'
    rcases hf.beside hs hd' with hle | hle
    · omega
    · exact lt_of_le_of_ne hle (hbefore d hd).2
  · intro f hf'
    have := hbehind f hf'
    have hf'' : f ∈ s ++ t := by simp [hf']
    have := hs.size f hf''
    have hstop : f.stop = f.mAddr + f.mSize := rfl
    show addr + size < f.mAddr
    rcases hf.beside hs hf'' with hle | hle
    · exact lt_of_le_of_ne hle (hbehind f hf').2
    · omega
  · rw [units_append, units_append, units_cons, Finset.union_left_comm, Finset.union_comm]
    rfl

end Range

theorem Laid.shrink (h : Laid (s ++ e :: t)) (hsize : 0 < size) (hlt : size < e.mSize) :
    Laid (s ++ { mAddr := e.mAddr + size, mSize := e.mSize - size } :: t) ∧
      units (s ++ { mAddr := e.mAddr + size, mSize := e.mSize - size } :: t) =
        units (s ++ e :: t) \ span e.mAddr (e.mAddr + size) := by
  obtain ⟨hs, ht, haddr, he, hse, het, hst⟩ := laid_iff.mp h
  have hdef : e.stop = e.mAddr + e.mSize := rfl
  have hdisj := Finset.disjoint_left.mp h.disjoint
  refine ⟨laid_iff.mpr ⟨hs, ht, ?_, ?_, ?_, ?_, hst⟩, ?_⟩
  · show 0 < e.mAddr + size
    omega
  · show 0 < e.mSize - size
    omega
  · intro d hd
    have := hse d hd
    show d.stop < e.mAddr + size
    omega
  · intro f hf
    have := het f hf
    show e.mAddr + size + (e.mSize - size) < f.mAddr
    omega
  · ext z
    have hz := @hdisj z
    rw [Mapent.mem_units, units_append, Finset.mem_union] at hz
    simp only [units_append, units_cons, Finset.mem_union, Finset.mem_sdiff, Mapent.mem_units, Finset.mem_Ico,
      Mapent.stop] at hz ⊢
    by_cases hin : e.mAddr ≤ z ∧ z < e.mAddr + e.mSize
    · have hout := hz hin
      simp only [not_or] at hout
      simp only [hout.1, hout.2, false_or, or_false]
      omega
    · have hin' : ¬(e.mAddr + size ≤ z ∧ z < e.mAddr + size + (e.mSize - size)) := by omega
      have hlow : ¬(e.mAddr ≤ z ∧ z < e.mAddr + size) := by omega
      simp only [hin, hin', hlow, false_or, not_false_iff, and_true]

end NetBSD.Rmap

/-!
## The loops over the slots

What `findFit` and `findSpot` find in a map whose slots are `l`, used, and `x`, unused.
-/

namespace NetBSD.Rmap

variable {l x p : List Mapent} {size addr : Int}

structure Map.Holds (mp : Map) (l x : List Mapent) : Prop where
  slots : mp.slots = l ++ x
  laid : Laid l
  unused : ∀ e ∈ x, e.mAddr = 0

def Fit.Finds (size : Int) (l : List Mapent) : Fit → Prop
  | .exact i => ∃ s e t, l = s ++ e :: t ∧ i = s.length ∧ e.mSize = size
  | .larger i => ∃ s e t, l = s ++ e :: t ∧ i = s.length ∧ size < e.mSize
  | .none => True

theorem findFit_spec (size : Int) (hx : ∀ e ∈ x, e.mAddr = 0) (fp : Option (Nat × Int))
    (hl : ∀ e ∈ l, e.mAddr ≠ 0)
    (hfp : ∀ f, fp = some f → ∃ s e t, p = s ++ e :: t ∧ f.1 = s.length ∧ size < e.mSize) :
    (findFit size (l ++ x) p.length fp).Finds size (p ++ l) := by
  induction l generalizing p fp with
  | nil =>
    have hend : (fp.elim Fit.none fun f => Fit.larger f.1).Finds size (p ++ []) := by
      cases fp with
      | none => trivial
      | some f =>
        rw [List.append_nil]
        exact hfp f rfl
    cases x with
    | nil => exact hend
    | cons e x =>
      rw [List.nil_append, findFit, if_pos (hx e (by simp))]
      exact hend
  | cons ep l ih =>
    rw [List.cons_append, findFit, if_neg (hl ep (by simp))]
    by_cases hsize : ep.mSize = size
    · rw [if_pos hsize]
      exact ⟨p, ep, l, rfl, rfl, hsize⟩
    · rw [if_neg hsize]
      have hstep : p ++ ep :: l = (p ++ [ep]) ++ l := by simp
      have hlen : p.length + 1 = (p ++ [ep]).length := by simp
      rw [hstep, hlen]
      apply ih
      · exact fun e he => hl e (by simp [he])
      · intro f hf
        split at hf
        · rename_i hlarger
          obtain rfl := Option.some.inj hf
          exact ⟨p, ep, [], rfl, rfl, hlarger.1⟩
        · obtain ⟨s, e, t, rfl, hs, he⟩ := hfp f hf
          exact ⟨s, e, t ++ [ep], by simp, hs, he⟩

structure Passed (full : Bool) (size addr : Int) (e : Mapent) : Prop where
  stop : e.stop ≠ addr
  start : addr + size ≠ e.mAddr
  order : full = false → e.mAddr ≤ addr

def Spot.Finds (full : Bool) (size addr : Int) (l : List Mapent) : Spot → Prop
  | .after i => ∃ s e t, l = s ++ e :: t ∧ i = s.length ∧ e.stop = addr
  | .before i =>
    ∃ s e t, l = s ++ e :: t ∧ i = s.length ∧ (∀ d ∈ s, Passed full size addr d) ∧ addr + size = e.mAddr
  | .insert i =>
    ∃ s e t, l = s ++ e :: t ∧ i = s.length ∧ (∀ d ∈ s, Passed full size addr d) ∧ e.stop ≠ addr ∧
      addr + size ≠ e.mAddr ∧ addr < e.mAddr ∧ full = false
  | .none i fp =>
    i = l.length ∧ (∀ d ∈ l, Passed full size addr d) ∧ (fp = Option.none → l = []) ∧
      ∀ f, fp = some f → ∃ s e t, l = s ++ e :: t ∧ f.1 = s.length ∧ f.2 = e.mSize

theorem findSpot_spec (full : Bool) (size addr : Int) (hx : ∀ e ∈ x, e.mAddr = 0) (fp : Option (Nat × Int))
    (hl : ∀ e ∈ l, e.mAddr ≠ 0) (hp : ∀ d ∈ p, Passed full size addr d) (hnone : fp = none → p = [])
    (hfp : ∀ f, fp = some f → ∃ s e t, p = s ++ e :: t ∧ f.1 = s.length ∧ f.2 = e.mSize) :
    (findSpot full size addr (l ++ x) p.length fp).Finds full size addr (p ++ l) := by
  induction l generalizing p fp with
  | nil =>
    have hend : (Spot.none p.length fp).Finds full size addr (p ++ []) := by
      rw [List.append_nil]
      exact ⟨rfl, hp, hnone, hfp⟩
    cases x with
    | nil => exact hend
    | cons e x =>
      rw [List.nil_append, findSpot, if_pos (hx e (by simp))]
      exact hend
  | cons ep l ih =>
    rw [List.cons_append, findSpot, if_neg (hl ep (by simp))]
    by_cases hstop : ep.mAddr + ep.mSize = addr
    · rw [if_pos hstop]
      exact ⟨p, ep, l, rfl, rfl, hstop⟩
    rw [if_neg hstop]
    by_cases hstart : addr + size = ep.mAddr
    · rw [if_pos hstart]
      exact ⟨p, ep, l, rfl, rfl, hp, hstart⟩
    rw [if_neg hstart]
    by_cases hlt : addr < ep.mAddr ∧ full = false
    · rw [if_pos hlt]
      exact ⟨p, ep, l, rfl, rfl, hp, hstop, hstart, hlt⟩
    rw [if_neg hlt]
    have hpass : Passed full size addr ep :=
      ⟨hstop, hstart, fun hfull => not_lt.mp fun h => hlt ⟨h, hfull⟩⟩
    have hstep : p ++ ep :: l = (p ++ [ep]) ++ l := by simp
    have hlen : p.length + 1 = (p ++ [ep]).length := by simp
    rw [hstep, hlen]
    apply ih
    · exact fun e he => hl e (by simp [he])
    · intro d hd
      rcases List.mem_append.mp hd with hd | hd
      · exact hp d hd
      · rwa [List.mem_singleton.mp hd]
    · intro h
      -- The slot is remembered when no other is, so one is.
      exfalso
      cases fp with
      | none => simp at h
      | some f =>
        split at h
        · exact absurd h (by simp)
        · exact absurd h (by simp)
    · intro f hf
      split at hf
      · obtain rfl := Option.some.inj hf
        exact ⟨p, ep, [], rfl, rfl, rfl⟩
      · obtain ⟨s, e, t, rfl, hs, he⟩ := hfp f hf
        exact ⟨s, e, t ++ [ep], by simp, hs, he⟩

end NetBSD.Rmap
