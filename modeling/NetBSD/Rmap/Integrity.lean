import NetBSD.Rmap.Calls

/-!
# Resource maps over whole runs

A map and the units that are allocated from it, through any calls that give back only what is allocated. The
one call that goes wrong frees a range that begins where the last slot of a full map ends: `rmfree` then looks
for the next slot at `m_limit`.
-/

namespace NetBSD.Rmap

open Lib (Runs)

variable {a : Arena} {mp : Map} {l x : List Mapent} {size addr n m : Int} {nelem : Nat}

def Starts (size addr : Int) (nelem : Nat) (a : Arena) : Prop :=
  rminit size addr nelem = .ok a.map ∧ a.allocated = ∅ ∧ a.lost = 0

def Map.used (mp : Map) : List Mapent := mp.slots.takeWhile fun e => e.mAddr ≠ 0

theorem Map.Holds.used_eq (h : mp.Holds l x) : mp.used = l := by
  rw [Map.used, h.slots, List.takeWhile_append_of_pos fun e he => decide_eq_true (h.used he)]
  cases x with
  | nil => simp
  | cons e x => simp [h.unused e (by simp)]

structure Arena.Intact (size addr : Int) (nelem : Nat) (a : Arena) : Prop where
  slots : a.map.slots.length = nelem - 1
  contiguous : ∀ e ∈ a.map.slots.drop a.map.used.length, e.mAddr = 0
  apart : a.map.used.Pairwise fun s t => s.mAddr + s.mSize < t.mAddr
  inside : units a.map.used ∪ a.allocated ⊆ span addr (addr + size)
  disjoint : Disjoint (units a.map.used) a.allocated
  count : ((units a.map.used).card : Int) + a.allocated.card + a.lost = size
  restored : a.allocated = ∅ → a.lost = 0 → a.map.used = [{ mSize := size, mAddr := addr }]

structure Arena.Shared (size addr : Int) (a : Arena) (l x : List Mapent) : Prop where
  holds : a.map.Holds l x
  inside : units l ∪ a.allocated ⊆ span addr (addr + size)
  disjoint : Disjoint (units l) a.allocated
  count : ((units l).card : Int) + a.allocated.card + a.lost = size
  lost : 0 ≤ a.lost

structure Arena.Kept (size addr : Int) (nelem : Nat) (a : Arena) : Prop where
  slots : a.map.slots.length = nelem - 1
  some : a.map.slots ≠ []
  start : 0 < addr
  state : (size = 0 ∧ Starts 0 addr nelem a) ∨ 0 < size ∧ ∃ l x, a.Shared size addr l x

theorem rminit_ok (h : rminit size addr nelem = .ok mp) :
    0 < addr ∧ 0 ≤ size ∧ 2 ≤ nelem ∧
      mp.slots = { mSize := size, mAddr := addr } :: List.replicate (nelem - 2) { mSize := 0, mAddr := 0 } := by
  unfold rminit at h
  split at h
  · cases h
  · cases h
    exact ⟨by omega, by omega, by omega, rfl⟩

theorem Starts.kept (h : Starts size addr nelem a) : a.Kept size addr nelem := by
  obtain ⟨hinit, hall, hlost⟩ := h
  obtain ⟨haddr, hsize, hnelem, hslots⟩ := rminit_ok hinit
  refine ⟨?_, ?_, haddr, ?_⟩
  · rw [hslots, List.length_cons, List.length_replicate]
    omega
  · rw [hslots]
    exact List.cons_ne_nil _ _
  · rcases hsize.eq_or_lt with rfl | hpos
    · exact Or.inl ⟨rfl, hinit, hall, hlost⟩
    refine Or.inr ⟨hpos, [{ mSize := size, mAddr := addr }], _, ⟨hslots, ?_, ?_⟩, ?_, ?_, ?_, hlost.ge⟩
    · exact laid_iff (s := []).mpr ⟨laid_nil, laid_nil, haddr, hpos, by simp, by simp, by simp⟩
    · intro e he
      rw [List.eq_of_mem_replicate he]
    · rw [hall, Finset.union_empty]
      exact (Finset.union_empty _).le
    · rw [hall]
      exact Finset.disjoint_empty_right _
    · rw [hall, hlost, units_cons, units_nil, Finset.union_empty, Mapent.units, Int.card_Ico, Mapent.stop,
        Finset.card_empty]
      dsimp only
      omega

theorem Starts.rmalloc (h : Starts 0 addr nelem a) (hn : 0 ≤ n) : Rmap.rmalloc a.map n = .ok (0, a.map) := by
  obtain ⟨haddr, -, -, hslots⟩ := rminit_ok h.1
  unfold Rmap.rmalloc
  rw [if_neg hn.not_gt]
  by_cases hzero : n = 0
  · rw [if_pos hzero]
  · have hrest : findFit n (List.replicate (nelem - 2) { mSize := 0, mAddr := 0 }) 1 none = .none := by
      cases nelem - 2 with
      | zero => rfl
      | succ k => rfl
    have hfind : findFit n a.map.slots 0 none = .none := by
      rw [hslots, findFit, if_neg haddr.ne', if_neg (Ne.symm hzero), if_neg fun h => h.1.not_ge hn]
      exact hrest
    rw [if_neg hzero, hfind]

theorem Arena.Shared.rmalloc {l' x' : List Mapent} {mp' : Map} (h : a.Shared size addr l x)
    (hholds : mp'.Holds l' x') (hal : Allocates l l' n m) :
    ({ a with map := mp', allocated := if m = 0 then a.allocated else a.allocated ∪ span m (m + n) } :
      Arena).Shared size addr l' x' := by
  rcases hal with ⟨rfl, rfl⟩ | ⟨hm, hsub, hunits⟩
  · exact ⟨hholds, h.inside, h.disjoint, h.count, h.lost⟩
  · have hdisj : Disjoint a.allocated (span m (m + n)) := h.disjoint.symm.mono_right hsub
    have hcard : (units l').card + (span m (m + n)).card = (units l).card := by
      rw [hunits]
      exact Finset.card_sdiff_add_card_eq_card hsub
    refine ⟨hholds, ?_, ?_, ?_, h.lost⟩
    · dsimp only
      rw [if_neg hm.ne', hunits]
      refine Finset.union_subset ?_ (Finset.union_subset ?_ ?_)
      · exact Finset.sdiff_subset.trans (Finset.subset_union_left.trans h.inside)
      · exact Finset.subset_union_right.trans h.inside
      · exact hsub.trans (Finset.subset_union_left.trans h.inside)
    · dsimp only
      rw [if_neg hm.ne', hunits, Finset.disjoint_union_right]
      exact ⟨h.disjoint.mono_left Finset.sdiff_subset, Finset.sdiff_disjoint⟩
    · dsimp only
      rw [if_neg hm.ne', Finset.card_union_of_disjoint hdisj]
      have := h.count
      push_cast
      omega

theorem Arena.Shared.rmfree {l' x' : List Mapent} {mp' : Map} {lost : Int} (h : a.Shared size addr l x)
    (hn : 0 < n) (hsub : span m (m + n) ⊆ a.allocated) (hholds : mp'.Holds l' x')
    (hrel : Releases l l' n m lost) :
    ({ map := mp', allocated := a.allocated \ span m (m + n), lost := a.lost + lost } : Arena).Shared
      size addr l' x' := by
  refine ⟨hholds, ?_, ?_, ?_, ?_⟩
  · refine (Finset.union_subset ?_ ?_).trans h.inside
    · exact hrel.sub.trans (Finset.union_subset_union_right hsub)
    · exact Finset.sdiff_subset.trans Finset.subset_union_right
  · refine Disjoint.mono_left hrel.sub ?_
    rw [Finset.disjoint_union_left]
    exact ⟨h.disjoint.mono_right Finset.sdiff_subset, Finset.disjoint_sdiff⟩
  · have hcard : (a.allocated \ span m (m + n)).card + (span m (m + n)).card = a.allocated.card :=
      Finset.card_sdiff_add_card_eq_card hsub
    rw [Int.card_Ico] at hcard
    have := hrel.count
    have := h.count
    dsimp only
    omega
  · exact add_nonneg h.lost hrel.lost

theorem Arena.Shared.free (h : a.Shared size addr l x) (haddr : 0 < addr) (hn : 0 < n)
    (hsub : span m (m + n) ⊆ a.allocated) : Free l n m := by
  refine ⟨hn, ?_, ?_⟩
  · have hmem : m ∈ span addr (addr + size) :=
      h.inside (Finset.mem_union_right _ (hsub (Finset.mem_Ico.mpr ⟨le_rfl, by omega⟩)))
    rw [Finset.mem_Ico] at hmem
    omega
  · intro e he
    rw [Finset.disjoint_left]
    intro z hz hz'
    exact Finset.disjoint_left.mp h.disjoint (mem_units.mpr ⟨e, he, hz'⟩) (hsub hz)

theorem Arena.Shared.clear (h : a.Shared size addr l x) (hc : a.Careful (.rmfree n m)) : Clear l x m := by
  rintro s e rfl rfl
  refine hc.2 e ?_ (h.holds.used (by simp))
  rw [h.holds.slots, List.append_nil, List.getLast?_concat]

theorem Arena.Kept.step {call : MapCall} (h : a.Kept size addr nelem) (hc : a.Careful call) :
    ∃ a', a.step call = Option.some a' ∧ a'.Kept size addr nelem := by
  obtain ⟨hslots, hne, haddr, hstate⟩ := h
  cases call with
  | rmalloc n =>
    have hn : 0 ≤ n := hc.1
    rcases hstate with ⟨rfl, hstart⟩ | ⟨hsize, l, x, hsh⟩
    · rw [Arena.step, hstart.rmalloc hn]
      exact ⟨_, rfl, hslots, hne, haddr, Or.inl ⟨rfl, hstart⟩⟩
    · obtain ⟨m, mp', l', x', hcall, hholds, hlen, hal⟩ := rmalloc_spec hsh.holds hn
      rw [Arena.step, hcall]
      refine ⟨_, rfl, hlen.trans hslots, ?_, haddr, Or.inr ⟨hsize, l', x', hsh.rmalloc hholds hal⟩⟩
      rw [← List.length_pos_iff, hlen]
      exact List.length_pos_iff.mpr hne
  | rmfree n m =>
    obtain ⟨hn, hsub⟩ := hc.1
    rcases hstate with ⟨rfl, hstart⟩ | ⟨hsize, l, x, hsh⟩
    · rw [hstart.2.1] at hsub
      exact absurd (hsub (Finset.mem_Ico.mpr ⟨le_rfl, by omega⟩)) (Finset.notMem_empty m)
    · obtain ⟨lost, mp', l', x', hcall, hholds, hlen, hrel⟩ :=
        rmfree_spec hsh.holds hne (hsh.free haddr hn hsub) (hsh.clear hc)
      rw [Arena.step, hcall]
      refine ⟨_, rfl, hlen.trans hslots, ?_, haddr, Or.inr ⟨hsize, l', x', hsh.rmfree hn hsub hholds hrel⟩⟩
      rw [← List.length_pos_iff, hlen]
      exact List.length_pos_iff.mpr hne

theorem Arena.kept_of_careful (h : Runs (Starts size addr nelem) Arena.step Arena.Careful a) :
    a.Kept size addr nelem := by
  apply h.invariant
  · exact fun a h => h.kept
  · intro a call a' hkept hc hstep
    obtain ⟨a'', hstep', hkept'⟩ := hkept.step hc
    rw [hstep'] at hstep
    exact Option.some.inj hstep ▸ hkept'

theorem Laid.eq_singleton (h : Laid l) {b c : Int} (hbc : b < c) (hunits : units l = span b c) :
    l = [{ mSize := c - b, mAddr := b }] := by
  cases l with
  | nil => exact absurd hunits.symm (Finset.nonempty_Ico.mpr hbc).ne_empty
  | cons e t =>
    obtain ⟨-, -, -, hsize, -, het, -⟩ := laid_iff (s := []).mp h
    have hstop : e.stop = e.mAddr + e.mSize := rfl
    have hin : ∀ d ∈ e :: t, b ≤ d.mAddr ∧ d.stop ≤ c := by
      intro d hd
      have hdpos := h.size d hd
      have hdstop : d.stop = d.mAddr + d.mSize := rfl
      have hfirst : d.mAddr ∈ units (e :: t) := mem_units.mpr ⟨d, hd, Mapent.mem_units.mpr (by omega)⟩
      have hlast : d.stop - 1 ∈ units (e :: t) := mem_units.mpr ⟨d, hd, Mapent.mem_units.mpr (by omega)⟩
      rw [hunits, Finset.mem_Ico] at hfirst hlast
      omega
    have hcover : ∀ z, b ≤ z → z < c → ∃ d ∈ e :: t, d.mAddr ≤ z ∧ z < d.stop := by
      intro z hb hc
      have hmem : z ∈ units (e :: t) := by
        rw [hunits, Finset.mem_Ico]
        exact ⟨hb, hc⟩
      obtain ⟨d, hd, hz⟩ := mem_units.mp hmem
      exact ⟨d, hd, Mapent.mem_units.mp hz⟩
    have he := hin e (by simp)
    -- Only the first slot can cover the first unit, and no slot the one behind it.
    have hfirst : e.mAddr = b := by
      obtain ⟨d, hd, hle, hlt⟩ := hcover b le_rfl hbc
      rcases List.mem_cons.mp hd with rfl | hd
      · omega
      · have := het d hd
        omega
    have hlast : e.stop = c := by
      by_contra hne
      obtain ⟨d, hd, hle, hlt⟩ := hcover e.stop (by omega) (by omega)
      rcases List.mem_cons.mp hd with rfl | hd
      · omega
      · have := het d hd
        omega
    cases t with
    | nil =>
      have hwidth : e.mSize = c - b := by omega
      rw [← hwidth, ← hfirst]
    | cons f t =>
      have hef := het f (by simp)
      have hf := hin f (by simp)
      have hfsize := h.size f (by simp)
      have hfstop : f.stop = f.mAddr + f.mSize := rfl
      omega

theorem Arena.Kept.intact (h : a.Kept size addr nelem) : a.Intact size addr nelem := by
  obtain ⟨hslots, hne, haddr, hstate⟩ := h
  rcases hstate with ⟨rfl, hinit, hall, hlost⟩ | ⟨hsize, l, x, hsh⟩
  · obtain ⟨-, -, -, hmap⟩ := rminit_ok hinit
    have hused : a.map.used = [{ mSize := 0, mAddr := addr }] := by
      rw [Map.used, hmap]
      cases nelem - 2 <;> simp [haddr.ne', List.replicate_succ]
    have hunits : units a.map.used = ∅ := by
      rw [hused, units_cons, units_nil, Finset.union_empty, Mapent.units, Mapent.stop, add_zero]
      exact Finset.Ico_self _
    refine ⟨hslots, ?_, ?_, ?_, ?_, ?_, fun _ _ => hused⟩
    · intro e he
      rw [hused, hmap, List.length_singleton, List.drop_one, List.tail_cons] at he
      rw [List.eq_of_mem_replicate he]
    · rw [hused]
      exact List.pairwise_singleton _ _
    · rw [hunits, hall, Finset.union_empty]
      exact Finset.empty_subset _
    · rw [hunits]
      exact Finset.disjoint_empty_left _
    · rw [hunits, hall, hlost, Finset.card_empty]
      rfl
  · have hused := hsh.holds.used_eq
    refine ⟨hslots, ?_, ?_, ?_, ?_, ?_, ?_⟩
    · rw [hused, hsh.holds.slots, List.drop_left]
      exact hsh.holds.unused
    · rw [hused]
      exact hsh.holds.laid.apart
    · rw [hused]
      exact hsh.inside
    · rw [hused]
      exact hsh.disjoint
    · rw [hused]
      exact hsh.count
    · intro hall hlost
      have hsub := hsh.inside
      have hcount := hsh.count
      rw [hall, Finset.union_empty] at hsub
      rw [hall, hlost, Finset.card_empty] at hcount
      have hunits : units l = span addr (addr + size) := by
        apply Finset.eq_of_subset_of_card_le hsub
        rw [Int.card_Ico]
        omega
      have := hsh.holds.laid.eq_singleton (by omega) hunits
      rw [hused, this, add_sub_cancel_left]

theorem rmfree_beyond {e : Mapent} (h : mp.Holds l x) (hf : Free l n m) (hlast : mp.slots.getLast? = some e)
    (hused : e.mAddr ≠ 0) (hstop : e.mAddr + e.mSize = m) : rmfree mp n m = .error .beyond := by
  have hne : mp.slots ≠ [] := fun hnil => by simp [hnil] at hlast
  have hfull : mp.full = true := by
    rw [Map.full, hlast]
    simpa using hused
  obtain rfl := (h.full_iff hne).mp hfull
  have hslots : mp.slots = l := by rw [h.slots, List.append_nil]
  obtain ⟨s, rfl⟩ : ∃ s, l = s ++ [e] := by
    rw [hslots] at hlast
    exact ⟨_, (List.dropLast_append_getLast? e hlast).symm⟩
  have hbefore : ∀ d ∈ s, d.stop < e.mAddr := (laid_iff.mp h.laid).2.2.2.2.1
  have hesize := h.laid.size e (by simp)
  have hn := hf.pos
  have hm := hf.start
  have hfind := findSpot_spec (p := []) mp.full n m h.unused none
    (fun e he => h.used he) (by simp) (fun _ => rfl) (by simp)
  rw [List.nil_append, List.length_nil, ← h.slots] at hfind
  -- The slots end in order, so only the last one can end where the range begins.
  have hmem : ∀ d ∈ s ++ [e], d.mAddr ≤ e.mAddr ∧ (d.stop = m → d = e) := by
    intro d hd
    have hdstop : d.stop = d.mAddr + d.mSize := rfl
    have hdsize := h.laid.size d hd
    rcases List.mem_append.mp hd with hd | hd
    · have := hbefore d hd
      exact ⟨by omega, fun heq => by omega⟩
    · rw [List.mem_singleton.mp hd]
      exact ⟨le_rfl, fun _ => rfl⟩
  unfold rmfree
  rw [if_neg (by omega), rmfreeLoop]
  cases hres : findSpot mp.full n m mp.slots 0 none with
  | after i =>
    rw [hres] at hfind
    obtain ⟨s', e', t, hl, rfl, hend⟩ := hfind
    have ht : t = [] := by
      by_contra ht
      obtain ⟨t, f, rfl⟩ : ∃ t' f, t = t' ++ [f] := ⟨_, _, (List.dropLast_append_getLast ht).symm⟩
      have hlaid := h.laid
      rw [hl] at hlaid
      have hlt := (laid_iff.mp hlaid).2.2.2.2.2.1 f (by simp)
      have hfe := (hmem f (by rw [hl]; simp)).1
      have hstop' : e'.stop = m := hend
      omega
    have hlen : mp.slots.length = s'.length + 1 := by
      rw [hslots, hl, ht]
      simp
    dsimp only
    rw [Map.extend, List.getElem?_eq_none hlen.le]
    cases mp.slots[s'.length]? <;> rfl
  | before i =>
    rw [hres] at hfind
    obtain ⟨s', e', t, hl, rfl, -, hstart⟩ := hfind
    have := (hmem e' (by rw [hl]; simp)).1
    omega
  | insert i =>
    rw [hres] at hfind
    obtain ⟨s', e', t, -, -, -, -, -, -, hroom⟩ := hfind
    rw [hfull] at hroom
    cases hroom
  | none i fp =>
    rw [hres] at hfind
    exact absurd hstop (hfind.2.1 e (by simp)).stop

/-- In a run without a range behind the last slot of a full map, the map is intact, what `rmalloc` gives was
free, and a call returns unless it frees such a range. -/
theorem intact_of_careful (h : Runs (Starts size addr nelem) Arena.step Arena.Careful a) :
    a.Intact size addr nelem ∧
      (∀ call, a.Allowed call → ((a.step call).isSome ↔ a.Careful call)) ∧
      ∀ n m mp, rmalloc a.map n = .ok (m, mp) → m ≠ 0 →
        span m (m + n) ⊆ units a.map.used ∧ Disjoint (span m (m + n)) a.allocated := by
  have hkept := Arena.kept_of_careful h
  refine ⟨hkept.intact, ?_, ?_⟩
  · intro call hal
    constructor
    · intro hsome
      refine ⟨hal, ?_⟩
      cases call with
      | rmalloc n => trivial
      | rmfree n m =>
        intro e hlast hused hstop
        obtain ⟨hn, hsub⟩ := hal
        rcases hkept.state with ⟨rfl, hstart⟩ | ⟨hsize, l, x, hsh⟩
        · rw [hstart.2.1] at hsub
          exact absurd (hsub (Finset.mem_Ico.mpr ⟨le_rfl, by omega⟩)) (Finset.notMem_empty m)
        · have hbeyond := rmfree_beyond hsh.holds (hsh.free hkept.start hn hsub) hlast hused hstop
          rw [Arena.step, hbeyond] at hsome
          cases hsome
    · intro hc
      obtain ⟨a', hstep, -⟩ := hkept.step hc
      rw [hstep]
      rfl
  · intro n m mp hcall hm
    have hn : 0 ≤ n := by
      by_contra hneg
      rw [rmalloc, if_pos (not_le.mp hneg)] at hcall
      cases hcall
    rcases hkept.state with ⟨rfl, hstart⟩ | ⟨hsize, l, x, hsh⟩
    · rw [hstart.rmalloc hn] at hcall
      cases hcall
      exact absurd rfl hm
    · obtain ⟨m', mp', l', x', hcall', -, -, hal⟩ := rmalloc_spec hsh.holds hn
      rw [hcall'] at hcall
      cases hcall
      rw [hsh.holds.used_eq]
      rcases hal with ⟨rfl, -⟩ | ⟨-, hsub, -⟩
      · exact absurd rfl hm
      · exact ⟨hsub, hsh.disjoint.mono_left hsub⟩

theorem lowerHalf_free {ok : Arena → MapCall → Prop} (hok : ∀ a call, a.Careful call → ok a call) :
    ∃ a, Runs (Starts 10 10 2) Arena.step ok a ∧ a.map = { slots := [{ mSize := 5, mAddr := 10 }] } ∧
      span 15 20 ⊆ a.allocated := by
  have hstart : Runs (Starts 10 10 2) Arena.step ok
      { map := { slots := [{ mSize := 10, mAddr := 10 }] }, allocated := ∅, lost := 0 } :=
    .start ⟨rfl, rfl, rfl⟩
  have hlower := Runs.call (MapCall.rmalloc 5) hstart (hok _ _ ⟨show (0 : Int) ≤ 5 by decide, trivial⟩)
    (show _ = some { map := { slots := [{ mSize := 5, mAddr := 15 }] }, allocated := ∅ ∪ span 10 15,
                     lost := 0 } from rfl)
  have hupper := Runs.call (MapCall.rmalloc 5) hlower (hok _ _ ⟨show (0 : Int) ≤ 5 by decide, trivial⟩)
    (show _ = some { map := { slots := [{ mSize := 5, mAddr := 0 }] },
                     allocated := ∅ ∪ span 10 15 ∪ span 15 20, lost := 0 } from rfl)
  have hback := Runs.call (MapCall.rmfree 5 10) hupper (hok _ _ ⟨⟨by decide, by decide⟩, by decide⟩)
    (show _ = some { map := { slots := [{ mSize := 5, mAddr := 10 }] },
                     allocated := (∅ ∪ span 10 15 ∪ span 15 20) \ span 10 15, lost := 0 } from rfl)
  exact ⟨_, hback, rfl, by decide⟩

/-- The map of these calls is intact, and no unit of it is lost. -/
theorem lowerHalf_intact : ∃ a : Arena, a.map.used = [{ mSize := 5, mAddr := 10 }] ∧ a.Intact 10 10 2 := by
  obtain ⟨a, hrun, hmap, -⟩ := @lowerHalf_free Arena.Careful fun _ _ h => h
  exact ⟨a, by rw [hmap]; rfl, (intact_of_careful hrun).1⟩

/-- When the upper half is given back next, `rmfree` looks at the slot at `m_limit`. -/
theorem upperHalf_beyond :
    ∃ a, Runs (Starts 10 10 2) Arena.step Arena.Allowed a ∧ a.Allowed (.rmfree 5 15) ∧
      rmfree a.map 5 15 = .error .beyond := by
  obtain ⟨a, hrun, hmap, hsub⟩ := @lowerHalf_free Arena.Allowed fun _ _ h => h.1
  refine ⟨a, hrun, ⟨by decide, hsub⟩, ?_⟩
  rw [hmap]
  rfl

variable {p : List Mapent} {b : Int}

def Fit.Best (size : Int) (l : List Mapent) : Fit → Prop
  | .exact i => ∃ e, l[i]? = some e ∧ e.mSize = size
  | .larger i => ∃ e, l[i]? = some e ∧ size < e.mSize ∧ ∀ d ∈ l, size ≤ d.mSize → e.mSize ≤ d.mSize
  | .none => ∀ d ∈ l, d.mSize < size

def Remembers (size : Int) (p : List Mapent) : Option (Nat × Int) → Prop
  | none => ∀ d ∈ p, d.mSize < size
  | some f => ∃ e, p[f.1]? = some e ∧ e.mSize = f.2 ∧ size < f.2 ∧ ∀ d ∈ p, size ≤ d.mSize → f.2 ≤ d.mSize

theorem Remembers.next {fp : Option (Nat × Int)} {ep : Mapent} (h : Remembers size p fp) (hne : ep.mSize ≠ size) :
    Remembers size (p ++ [ep]) (if ep.mSize > size ∧ fp.all fun f => f.2 > ep.mSize then some (p.length, ep.mSize) else fp) := by
  cases fp with
  | none =>
    split_ifs with hlarger
    · refine ⟨ep, by simp, rfl, hlarger.1, fun d hd hle => ?_⟩
      rcases List.mem_append.1 hd with hd | hd
      · exact absurd (h d hd) (Int.not_lt.2 hle)
      · rw [List.mem_singleton.1 hd]
    · intro d hd
      rcases List.mem_append.1 hd with hd | hd
      · exact h d hd
      · rw [List.mem_singleton.1 hd]
        exact (lt_or_gt_of_ne hne).resolve_right fun hgt => hlarger ⟨hgt, rfl⟩
  | some f =>
    obtain ⟨e, hget, hsize, hlt, hleast⟩ := h
    split_ifs with hlarger
    · have hless : ep.mSize < f.2 := of_decide_eq_true hlarger.2
      refine ⟨ep, by simp, rfl, hlarger.1, fun d hd hle => ?_⟩
      rcases List.mem_append.1 hd with hd | hd
      · exact hless.le.trans (hleast d hd hle)
      · rw [List.mem_singleton.1 hd]
    · refine ⟨e, ?_, hsize, hlt, fun d hd hle => ?_⟩
      · rw [List.getElem?_append_left (List.getElem?_eq_some_iff.1 hget).1, hget]
      · rcases List.mem_append.1 hd with hd | hd
        · exact hleast d hd hle
        · obtain rfl := List.mem_singleton.1 hd
          exact Int.not_lt.1 fun hgt => hlarger ⟨lt_of_le_of_ne hle hne.symm, decide_eq_true hgt⟩

theorem Remembers.best {fp : Option (Nat × Int)} (h : Remembers size p fp) :
    (fp.elim Fit.none fun f => Fit.larger f.1).Best size p := by
  cases fp with
  | none => exact h
  | some f =>
    obtain ⟨e, hget, hsize, hlt, hleast⟩ := h
    exact ⟨e, hget, hsize ▸ hlt, fun d hd hle => hsize ▸ hleast d hd hle⟩

theorem findFit_best (hx : ∀ e ∈ x, e.mAddr = 0) (hl : ∀ e ∈ l, e.mAddr ≠ 0) {fp : Option (Nat × Int)}
    (h : Remembers size p fp) : (findFit size (l ++ x) p.length fp).Best size (p ++ l) := by
  induction l generalizing p fp with
  | nil =>
    rw [List.append_nil, List.nil_append]
    cases x with
    | nil => exact h.best
    | cons e x =>
      rw [findFit, if_pos (hx e List.mem_cons_self)]
      exact h.best
  | cons ep l ih =>
    rw [List.cons_append, findFit, if_neg (hl ep List.mem_cons_self)]
    by_cases hsize : ep.mSize = size
    · rw [if_pos hsize]
      exact ⟨ep, by simp, hsize⟩
    · rw [if_neg hsize, List.append_cons, show p.length + 1 = (p ++ [ep]).length by simp]
      exact ih (fun e he => hl e (List.mem_cons_of_mem _ he)) (h.next hsize)

theorem Laid.within (h : Laid l) (hn : 0 < n) (hsub : span b (b + n) ⊆ units l) : ∃ e ∈ l, n ≤ e.mSize := by
  obtain ⟨e, he, hmem⟩ := mem_units.1 (hsub (Finset.mem_Ico.2 ⟨le_rfl, by omega⟩))
  rw [Mapent.mem_units] at hmem
  have hstop : e.stop = e.mAddr + e.mSize := rfl
  refine ⟨e, he, Int.not_lt.1 fun hlt => ?_⟩
  obtain ⟨d, hd, hbehind⟩ := mem_units.1 (hsub (Finset.mem_Ico.2 (show b ≤ e.stop ∧ e.stop < b + n by omega)))
  rw [Mapent.mem_units] at hbehind
  obtain ⟨s, t, rfl⟩ := List.append_of_mem he
  obtain ⟨-, -, -, -, hse, het, -⟩ := laid_iff.1 h
  rcases List.mem_append.1 hd with hd | hd
  · have := hse d hd
    omega
  · rcases List.mem_cons.1 hd with rfl | hd
    · omega
    · have := het d hd
      omega

theorem Map.Holds.rmalloc_best (h : mp.Holds l x) (hn : 0 < n) :
    ∃ m mp', rmalloc mp n = .ok (m, mp') ∧ (m = 0 ∧ (∀ d ∈ l, d.mSize < n) ∨
      ∃ e ∈ l, m = e.mAddr ∧ n ≤ e.mSize ∧ ∀ d ∈ l, n ≤ d.mSize → e.mSize ≤ d.mSize) := by
  have hbest : (findFit n (l ++ x) ([] : List Mapent).length none).Best n ([] ++ l) :=
    findFit_best h.unused (fun e he => h.used he) fun d hd => absurd hd List.not_mem_nil
  rw [List.nil_append, List.length_nil, ← h.slots] at hbest
  have hget : ∀ {i : Nat} {e : Mapent}, l[i]? = some e → e ∈ l ∧ (mp.slots.getD i ⟨0, 0⟩).mAddr = e.mAddr := fun {i e} hi => by
    rw [List.getD_eq_getElem?_getD, h.slots, List.getElem?_append_left (List.getElem?_eq_some_iff.1 hi).1, hi]
    exact ⟨List.mem_of_getElem? hi, rfl⟩
  unfold rmalloc
  rw [if_neg hn.le.not_gt, if_neg hn.ne']
  cases hres : findFit n mp.slots 0 none with
  | exact i =>
    rw [hres] at hbest
    obtain ⟨e, hi, hsize⟩ := hbest
    exact ⟨_, _, rfl, .inr ⟨e, (hget hi).1, (hget hi).2, hsize.ge, fun d _ hle => hsize.trans_le hle⟩⟩
  | larger i =>
    rw [hres] at hbest
    obtain ⟨e, hi, hlt, hleast⟩ := hbest
    exact ⟨_, _, rfl, .inr ⟨e, (hget hi).1, (hget hi).2, hlt.le, hleast⟩⟩
  | none =>
    rw [hres] at hbest
    exact ⟨_, _, rfl, .inl ⟨rfl, hbest⟩⟩

/-- In every run of careful calls `rmalloc` fails just when there are not that many free units in a row, and takes what it gives from
the front of the smallest free range that is large enough. -/
theorem rmalloc_bestFit (h : Runs (Starts size addr nelem) Arena.step Arena.Careful a) (hn : 0 < n) :
    ∃ m mp, rmalloc a.map n = .ok (m, mp) ∧ (m = 0 ↔ ∀ b, ¬span b (b + n) ⊆ units a.map.used) ∧
      (m ≠ 0 → ∃ e ∈ a.map.used, m = e.mAddr ∧ n ≤ e.mSize ∧ ∀ d ∈ a.map.used, n ≤ d.mSize → e.mSize ≤ d.mSize) := by
  have hkept := Arena.kept_of_careful h
  rcases hkept.state with ⟨rfl, hstart⟩ | ⟨-, l, x, hsh⟩
  · rw [hkept.intact.restored hstart.2.1 hstart.2.2]
    refine ⟨0, a.map, hstart.rmalloc hn.le, iff_of_true rfl fun b hsub => ?_, fun hne => absurd rfl hne⟩
    have hmem := hsub (Finset.mem_Ico.2 (show b ≤ b ∧ b < b + n by omega))
    rw [units_cons, units_nil, Finset.union_empty, Mapent.mem_units, Mapent.stop] at hmem
    dsimp only at hmem
    omega
  · rw [hsh.holds.used_eq]
    obtain ⟨m, mp, hcall, ⟨rfl, hsmall⟩ | ⟨e, he, rfl, hle, hleast⟩⟩ := hsh.holds.rmalloc_best hn
    · refine ⟨0, mp, hcall, iff_of_true rfl fun b hsub => ?_, fun hne => absurd rfl hne⟩
      obtain ⟨e, he, hle⟩ := hsh.holds.laid.within hn hsub
      exact absurd (hsmall e he) (Int.not_lt.2 hle)
    · refine ⟨e.mAddr, mp, hcall, iff_of_false (hsh.holds.used he) fun hno => hno e.mAddr fun z hz => ?_, fun _ => ⟨e, he, rfl, hle, hleast⟩⟩
      rw [Finset.mem_Ico] at hz
      have hstop : e.stop = e.mAddr + e.mSize := rfl
      exact mem_units.2 ⟨e, he, Mapent.mem_units.2 (by omega)⟩

/-- Three units of the lower half. -/
theorem rmalloc_bestFit_lowerHalf : ∃ a : Arena, a.map.used = [{ mSize := 5, mAddr := 10 }] ∧
    ∃ m mp, rmalloc a.map 3 = .ok (m, mp) ∧ (m = 0 ↔ ∀ b, ¬span b (b + 3) ⊆ units a.map.used) ∧
      (m ≠ 0 → ∃ e ∈ a.map.used, m = e.mAddr ∧ 3 ≤ e.mSize ∧ ∀ d ∈ a.map.used, 3 ≤ d.mSize → e.mSize ≤ d.mSize) := by
  obtain ⟨a, hrun, hmap, -⟩ := @lowerHalf_free Arena.Careful fun _ _ h => h
  exact ⟨a, by rw [hmap]; rfl, rmalloc_bestFit hrun (by decide)⟩

end NetBSD.Rmap
