import NetBSD.Malloc.Calls
import NetBSD.Lib.Runs

/-!
# The blocks of a program

What a program may rely on between its calls. A `realloc` that finds no memory has already freed the old block, and when the break
cannot be aligned in the first call, later ones take a wrong bucket.
-/

namespace NetBSD.Malloc

open Function (update)
open Lib (Runs Passes)

variable {pg pb : Nat} {w w' : World} {c : Call}

namespace World

/-- The blocks in use do not meet each other, their headers or the links of the free lists, and are in memory from `sbrk`. -/
structure Layout (w : World) : Prop where
  apart : w.live.Pairwise fun x y => x.1 + x.2 + overhead ≤ y.1 ∨ y.1 + y.2 + overhead ≤ x.1
  links : ∀ x ∈ w.live, ∀ b op, Passes (next w.heap.mem) (w.heap.nextf b) op → x.1 + x.2 ≤ op ∨ op + overhead ≤ x.1 - overhead
  inside : ∀ x ∈ w.live, overhead ≤ x.1 ∧ ∃ a ∈ w.heap.areas, a.1 ≤ x.1 - overhead ∧ x.1 + x.2 ≤ a.1 + a.2

def Preserves (pg : Nat) (w : World) : Call → Prop
  | .realloc (some cp) nbytes e => ∀ size, (cp, size) ∈ w.live →
      (∀ p, (w.call pg (.realloc (some cp) nbytes e)).1 = some p →
        ∀ i < min size nbytes, (w.call pg (.realloc (some cp) nbytes e)).2.heap.mem (p + i) = w.heap.mem (cp + i)) ∧
      ((w.call pg (.realloc (some cp) nbytes e)).1 = none → (cp, size) ∈ (w.call pg (.realloc (some cp) nbytes e)).2.live ∧
        ∀ i < size, (w.call pg (.realloc (some cp) nbytes e)).2.heap.mem (cp + i) = w.heap.mem (cp + i))
  | _ => True

def Held (w : World) (cp : Option Nat) : Prop := ∀ p, cp = some p → ∃ size, (p, size) ∈ w.live

/-- What is freed or resized is in use, what is written to is in a block in use, and what `sbrk` returns is fresh. -/
def Allowed (pg : Nat) (w : World) (c : Call) : Prop :=
  (∀ a, (w.call pg c).2.heap.areas = a :: w.heap.areas → Fresh w.heap a) ∧
    match c with
    | .malloc _ _ => True
    | .free cp => w.Held cp
    | .realloc cp _ _ => w.Held cp
    | .write cp i _ => ∃ size, (cp, size) ∈ w.live ∧ i < size

/-- The break can be aligned in the first call, and a `realloc` that moves a block finds another. -/
def Careful (pg : Nat) (w : World) : Call → Prop
  | .malloc _ e => Aligned pg e w.heap
  | .realloc none _ e => Aligned pg e w.heap
  | .realloc (some cp) nbytes e => Movable e cp nbytes w.heap
  | _ => True

def Start (w : World) : Prop := w.live = [] ∧ w.heap.areas = [] ∧ w.heap.pagesz = 0 ∧ ∀ b, w.heap.nextf b = none

def step (pg : Nat) (w : World) (c : Call) : Option World := some (w.call pg c).2

def Correct (pg : Nat) (ok : World → Call → Prop) (w : World) : Prop := w.Layout ∧ ∀ c, ok w c → w.Preserves pg c

structure Good (pg pb : Nat) (w : World) : Prop where
  sound : ∃ chunks frees, Sound pg chunks frees w.heap w.live
  booted : (w.heap.pagesz = 0 ∧ w.live = []) ∨ Booted pg pb w.heap

theorem Start.good (h : Start w) : Good pg pb w := by
  obtain ⟨hlive, hareas, hzero, hnextf⟩ := h
  refine ⟨⟨fun _ _ => False, fun _ => [], ?_⟩, .inl ⟨hzero, hlive⟩⟩
  rw [hlive]
  refine ⟨fun _ _ _ _ hc => hc.elim, fun _ _ hc => hc.elim, fun a ha => ?_, hnextf, fun _ => .nil, fun _ _ hop => ?_, fun _ hx => ?_, .nil⟩
  · rw [hareas] at ha
    exact absurd ha List.not_mem_nil
  · exact absurd hop List.not_mem_nil
  · exact absurd hx List.not_mem_nil

theorem Good.layout (h : Good pg pb w) : w.Layout := by
  obtain ⟨chunks, frees, hs⟩ := h.sound
  have hover := overhead_eq
  refine ⟨(List.pairwise_map.1 hs.names).imp_of_mem fun {x y} hx hy hne => ?_, fun x hx b op hop => ?_, fun x hx => ?_⟩
  · obtain ⟨hle, b, hc, -, hfits, -⟩ := hs.used x hx
    obtain ⟨hle', b', hc', -, hfits', -⟩ := hs.used y hy
    rcases hs.apart _ b _ b' hc hc' with heq | hsep | hsep <;> omega
  · obtain ⟨hle, b', hc, hnot, hfits, -⟩ := hs.used x hx
    have hmem := (hs.linked b).passes_iff.1 hop
    have := len_ge pg b
    rcases hs.apart _ b' _ b hc (hs.free b op hmem) with ⟨heq, rfl⟩ | hsep | hsep
    · exact absurd (heq ▸ hmem) hnot
    · exact .inl (by omega)
    · exact .inr (by omega)
  · obtain ⟨hle, b', hc, hnot, hfits, -⟩ := hs.used x hx
    obtain ⟨-, -, a, ha, hle', hend⟩ := hs.inside _ b' hc
    exact ⟨hle, a, ha, hle', by omega⟩

theorem Good.booted_or (h : Good pg pb w) : w.heap.pagesz = 0 ∨ Booted pg pb w.heap := h.booted.imp_left And.left

theorem Good.booted_of_mem {x : Nat × Nat} (h : Good pg pb w) (hx : x ∈ w.live) : Booted pg pb w.heap := by
  refine h.booted.resolve_left fun hzero => ?_
  rw [hzero.2] at hx
  exact List.not_mem_nil hx

theorem Good.malloc {nbytes : Nat} {e : Sbrk} (h : Good pg pb w) (hpb : pb + 3 < 31) (hpg : pg = 1 <<< (pb + 3))
    (haligned : Aligned pg e w.heap) (hfresh : ∀ a, (w.call pg (.malloc nbytes e)).2.heap.areas = a :: w.heap.areas → Fresh w.heap a) :
    Good pg pb (w.call pg (.malloc nbytes e)).2 := by
  obtain ⟨chunks, frees, hs⟩ := h.sound
  have hheap : (w.call pg (.malloc nbytes e)).2.heap = (Malloc.malloc pg e nbytes w.heap).2 := by
    unfold call
    dsimp only
    split <;> next heq => rw [heq]
  have hlive : (w.call pg (.malloc nbytes e)).2.live = (Malloc.malloc pg e nbytes w.heap).1.elim w.live fun p => (p, nbytes) :: w.live := by
    unfold call
    dsimp only
    split <;> next heq => rw [heq]; rfl
  rw [hheap] at hfresh
  obtain ⟨chunks', frees', hs', -, -, hboot⟩ := hs.malloc hpb hpg h.booted_or haligned hfresh
  exact ⟨⟨chunks', frees', by rw [hheap, hlive]; exact hs'⟩, .inr (hheap ▸ hboot)⟩

theorem without_none (w : World) : w.without none = w.live := List.filter_eq_self.2 fun x _ => decide_eq_true (Option.some_ne_none x.1)

theorem call_realloc_none (w : World) (pg nbytes : Nat) (e : Sbrk) : w.call pg (.realloc none nbytes e) = w.call pg (.malloc nbytes e) := by
  unfold call Malloc.realloc
  dsimp only
  rw [without_none]

theorem Good.realloc {cp size nbytes : Nat} {e : Sbrk} (h : Good pg pb w) (hpb : pb + 3 < 31) (hpg : pg = 1 <<< (pb + 3))
    (hx : (cp, size) ∈ w.live) (hmovable : Movable e cp nbytes w.heap)
    (hfresh : ∀ a, (w.call pg (.realloc (some cp) nbytes e)).2.heap.areas = a :: w.heap.areas → Fresh w.heap a) :
    ∃ p w', w.call pg (.realloc (some cp) nbytes e) = (some p, w') ∧ Good pg pb w' ∧
      ∀ i < min size nbytes, w'.heap.mem (p + i) = w.heap.mem (cp + i) := by
  obtain ⟨chunks, frees, hs⟩ := h.sound
  have hareas : (w.call pg (.realloc (some cp) nbytes e)).2.heap = (Malloc.realloc pg e (some cp) nbytes w.heap).2 := by
    unfold call
    dsimp only
    split <;> next heq => rw [heq]
  rw [hareas] at hfresh
  obtain ⟨p, h', chunks', frees', heq, hs', hbytes, hboot⟩ := hs.realloc hpb hpg (h.booted_of_mem hx) hx hmovable hfresh
  refine ⟨p, ⟨h', (p, nbytes) :: w.without (some cp)⟩, ?_, ⟨⟨chunks', frees', hs'⟩, .inr hboot⟩, hbytes⟩
  unfold call
  dsimp only
  rw [heq]

theorem Good.free {cp : Option Nat} (h : Good pg pb w) (hheld : w.Held cp) : Good pg pb (w.call pg (.free cp)).2 := by
  obtain ⟨chunks, frees, hs⟩ := h.sound
  cases cp with
  | none =>
    have hself : (w.call pg (.free none)).2 = w := by
      unfold call
      dsimp only
      rw [without_none]
      rfl
    rw [hself]
    exact h
  | some cp =>
    obtain ⟨size, hx⟩ := hheld cp rfl
    obtain ⟨b, frees', -, -, -, hmagic, hindex, hs', -⟩ := hs.freed hx
    refine ⟨⟨chunks, frees', hs'⟩, .inr ?_⟩
    change Booted pg pb (Malloc.free (some cp) w.heap)
    rw [free_eq hmagic hindex]
    exact h.booted_of_mem hx

theorem Good.write {cp i size : Nat} {b : Byte} (h : Good pg pb w) (hx : (cp, size) ∈ w.live) (hi : i < size) :
    Good pg pb (w.call pg (.write cp i b)).2 := by
  obtain ⟨chunks, frees, hs⟩ := h.sound
  exact ⟨⟨chunks, frees, hs.written hx fun j hj => Function.update_of_ne (by dsimp only at hj; omega) ..⟩, .inr (h.booted_of_mem hx)⟩

theorem Good.call (h : Good pg pb w) (hpb : pb + 3 < 31) (hpg : pg = 1 <<< (pb + 3)) (hallowed : w.Allowed pg c) (hcareful : w.Careful pg c) :
    Good pg pb (w.call pg c).2 := by
  obtain ⟨hfresh, hallowed⟩ := hallowed
  cases c with
  | malloc nbytes e => exact h.malloc hpb hpg hcareful hfresh
  | free cp => exact h.free hallowed
  | realloc cp nbytes e =>
    cases cp with
    | none =>
      rw [call_realloc_none] at hfresh ⊢
      exact h.malloc hpb hpg hcareful hfresh
    | some cp =>
      obtain ⟨size, hx⟩ := hallowed cp rfl
      obtain ⟨p, w', heq, hgood, -⟩ := h.realloc hpb hpg hx hcareful hfresh
      rw [heq]
      exact hgood
  | write cp i b =>
    obtain ⟨size, hx, hi⟩ := hallowed
    exact h.write hx hi

theorem Good.preserves (h : Good pg pb w) (hpb : pb + 3 < 31) (hpg : pg = 1 <<< (pb + 3)) (hallowed : w.Allowed pg c)
    (hcareful : w.Careful pg c) : w.Preserves pg c := by
  cases c with
  | malloc nbytes e => exact trivial
  | free cp => exact trivial
  | write cp i b => exact trivial
  | realloc cp nbytes e =>
    cases cp with
    | none => exact trivial
    | some cp =>
      intro size hx
      obtain ⟨p, w', heq, -, hbytes⟩ := h.realloc hpb hpg hx hcareful hallowed.1
      rw [heq]
      refine ⟨fun p' hp => ?_, fun hnone => absurd hnone (Option.some_ne_none p)⟩
      obtain rfl : p = p' := Option.some.inj hp
      exact hbytes

/-- In every run with an aligned break, where `realloc` finds memory, the program may rely on its blocks. The page size is a power of
two. -/
theorem allocator_correct (hpb : pb + 3 < 31) (hpg : pg = 1 <<< (pb + 3))
    (h : Runs Start (step pg) (fun w c => w.Allowed pg c ∧ w.Careful pg c) w) :
    Correct pg (fun w c => w.Allowed pg c ∧ w.Careful pg c) w := by
  have hgood : Good pg pb w := h.invariant (fun _ hs => hs.good) fun w c w' hw hok hstep => by
    obtain rfl : (w.call pg c).2 = w' := Option.some.inj hstep
    exact hw.call hpb hpg hok.1 hok.2
  exact ⟨hgood.layout, fun c hok => hgood.preserves hpb hpg hok.1 hok.2⟩

def started : World := ⟨⟨fun _ => 0, fun _ => none, 0, 0, []⟩, []⟩

def oneBlock : World := (started.call 4096 (.malloc 3000 ⟨4096, true, some 8192⟩)).2

theorem oneBlock_allowed : started.Allowed 4096 (.malloc 3000 ⟨4096, true, some 8192⟩) := by
  refine ⟨fun a ha => ?_, trivial⟩
  obtain rfl : (8192, 8192) = a := (List.cons.inj ha).1
  exact ⟨by decide, by decide, fun a' ha' => absurd ha' List.not_mem_nil⟩

theorem started_start : Start started := ⟨rfl, rfl, rfl, fun _ => rfl⟩

theorem allocator_correct_oneBlock : Correct 4096 (fun w c => w.Allowed 4096 c ∧ w.Careful 4096 c) oneBlock :=
  allocator_correct (show 9 + 3 < 31 by decide) rfl (.call _ (.start started_start) ⟨oneBlock_allowed, fun _ _ => rfl⟩ rfl)

/-- The block is to have 10000 bytes, and `sbrk` fails. -/
theorem realloc_frees : ¬∀ w, Runs Start (step 4096) (Allowed 4096) w → Correct 4096 (Allowed 4096) w := by
  intro hall
  have hone : Runs Start (step 4096) (Allowed 4096) oneBlock := .call _ (.start started_start) oneBlock_allowed rfl
  have hheld : oneBlock.Held (some 8196) := fun p hp => by
    obtain rfl : 8196 = p := Option.some.inj hp
    exact ⟨3000, List.mem_cons_self⟩
  have hnone : (oneBlock.call 4096 (.realloc (some 8196) 10000 ⟨0, true, none⟩)).2.heap.areas = oneBlock.heap.areas := rfl
  have hfailed : Runs Start (step 4096) (Allowed 4096) (oneBlock.call 4096 (.realloc (some 8196) 10000 ⟨0, true, none⟩)).2 := by
    refine .call _ hone ⟨fun a ha => ?_, hheld⟩ rfl
    rw [hnone] at ha
    exact absurd (congrArg List.length ha) (Nat.ne_of_lt (Nat.lt_succ_self _))
  have hlinks := (hall _ hfailed).1.links (8196, 3000) List.mem_cons_self 9 8192 (.here 8192)
  exact absurd hlinks (by decide)

end World

end NetBSD.Malloc
