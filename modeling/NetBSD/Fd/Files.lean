import NetBSD.Fd.Table

/-!
# Reference counts of files

`closef` with any number of references outside the messages: the last one of a socket lets go of the files in its
buffers, which may be sockets again.
-/

namespace NetBSD.Fd.Sys

variable {s s' : Sys} {refs refs' : Nat → Nat} {fp fd pid : Nat}

def inflight (s : Sys) (fp : Nat) : Nat := (s.rights.map Right.file).count fp

def one (fp : Nat) : Nat → Nat := Pi.single fp 1

/-- `f_count` counts the references in `refs` and those in messages, and is not too large for a `short`. -/
structure Counts (refs : Nat → Nat) (s : Sys) : Prop where
  count : ∀ fp, (s.fCount fp).getD 0 = (refs fp + s.inflight fp : Nat)
  small : ∀ fp, refs fp + s.inflight fp < 32768

theorem short_eq {n : Nat} (hlt : n < 32768) : short n = n := by
  unfold short
  rw [Int.bmod_eq_of_le] <;> omega

theorem inflight_release (s : Sys) (fp g : Nat) : (s.release fp).inflight g + (s.held fp).count g = s.inflight g := by
  have hperm := (List.filter_append_perm (fun r : Right => decide (r.holder = some fp)) s.rights).map Right.file
  have hcount := hperm.count_eq g
  rw [List.map_append, List.count_append] at hcount
  simp only [inflight, held, release, ne_eq, decide_not]
  exact (Nat.add_comm _ _).trans hcount

structure Frame (s s' : Sys) : Prop where
  procs : s'.procs = s.procs
  maxfiles : s'.maxfiles = s.maxfiles
  rights : s'.rights.Sublist s.rights

theorem Frame.refl (s : Sys) : Frame s s := ⟨rfl, rfl, .refl _⟩

theorem Frame.trans {s'' : Sys} (h : Frame s s') (h' : Frame s' s'') : Frame s s'' :=
  ⟨h'.procs.trans h.procs, h'.maxfiles.trans h.maxfiles, h'.rights.trans h.rights⟩

theorem Frame.inflight_le (h : Frame s s') (fp : Nat) : s'.inflight fp ≤ s.inflight fp :=
  (h.rights.map Right.file).count_le fp

theorem Counts.move (hc : Counts refs s) (hfiles : s'.fCount = s.fCount)
    (hsum : ∀ g, refs' g + s'.inflight g = refs g + s.inflight g) : Counts refs' s' :=
  ⟨fun g => hfiles ▸ hsum g ▸ hc.count g, fun g => hsum g ▸ hc.small g⟩

theorem Counts.of_eq (hc : Counts refs s) (heq : ∀ fp, refs' fp = refs fp) : Counts refs' s :=
  (funext heq : refs' = refs) ▸ hc

theorem foldlM_close {close : Sys → Nat → Option Sys} {bound : Nat} {fps : List Nat}
    (hclose : ∀ refs s fp, Counts (refs + one fp) s → s.rights.length < bound → ∃ s', close s fp = some s' ∧ Counts refs s' ∧
      Frame s s')
    (hc : Counts (fun g => refs g + fps.count g) s) (hbound : s.rights.length < bound) :
    ∃ s', fps.foldlM close s = some s' ∧ Counts refs s' ∧ Frame s s' := by
  induction fps generalizing s with
  | nil => exact ⟨s, rfl, hc.of_eq fun g => rfl, .refl s⟩
  | cons fp fps ih =>
    obtain ⟨s', hs', hc', hf⟩ := hclose (fun g => refs g + fps.count g) s fp (hc.of_eq fun g => by
      simp only [Pi.add_apply, one, Pi.single_apply, List.count_cons, beq_iff_eq, eq_comm (a := g), Nat.add_assoc]) hbound
    obtain ⟨s'', hs'', hc'', hf'⟩ := ih hc' (Nat.lt_of_le_of_lt hf.rights.length_le hbound)
    refine ⟨s'', ?_, hc'', hf.trans hf'⟩
    rw [List.foldlM_cons, hs']
    exact hs''

theorem Counts.ffree (hc : Counts refs s) (hnone : refs fp + s.inflight fp = 0) : Counts refs (s.ffree fp) := by
  refine ⟨fun g => ?_, hc.small⟩
  change (Function.update s.fCount fp none g).getD 0 = (refs g + s.inflight g : Nat)
  rcases eq_or_ne g fp with rfl | hne
  · rw [Function.update_self, hnone, Option.getD_none, Int.natCast_zero]
  · rw [Function.update_of_ne hne]
    exact hc.count g

theorem Counts.release (hc : Counts refs s) (fp : Nat) :
    Counts (fun g => refs g + (s.held fp).count g) (s.release fp) :=
  hc.move rfl fun g => by
    rw [← inflight_release s fp g]
    omega

theorem frame_release (s : Sys) (fp : Nat) : Frame s (s.release fp) := ⟨rfl, rfl, List.filter_sublist⟩

theorem release_lt (hheld : s.held fp ≠ []) : (s.release fp).rights.length < s.rights.length := by
  obtain ⟨g, hg⟩ := List.exists_mem_of_ne_nil _ hheld
  have hone := List.one_le_count_iff.2 hg
  have hsum := inflight_release s fp g
  refine Nat.lt_of_le_of_ne (frame_release s fp).rights.length_le fun heq => ?_
  have hrights := (frame_release s fp).rights.eq_of_length heq
  have hsame : (s.release fp).inflight g = s.inflight g := by rw [inflight, hrights, inflight]
  omega

theorem closef_spec {fuel : Nat} (hc : Counts (refs + one fp) s) (hfuel : s.rights.length < fuel) :
    ∃ s', closef fuel fp s = some s' ∧ Counts refs s' ∧ Frame s s' := by
  induction fuel generalizing s refs fp with
  | zero => exact absurd hfuel (Nat.not_lt_zero _)
  | succ fuel ih =>
    have hcount := hc.count fp
    have hsmall := hc.small fp
    rw [Pi.add_apply, one, Pi.single_eq_same] at hcount hsmall
    obtain ⟨count, hsome⟩ : ∃ count, s.fCount fp = some count := by
      cases hnone : s.fCount fp with
      | none =>
        rw [hnone, Option.getD_none] at hcount
        omega
      | some count => exact ⟨count, rfl⟩
    rw [hsome, Option.getD_some] at hcount
    have hshort : Fd.short (count - 1) = (refs fp + s.inflight fp : Nat) := by
      rw [← short_eq (show refs fp + s.inflight fp < 32768 by omega), hcount]
      congr 1
      omega
    unfold closef
    dsimp only
    rw [hsome]
    dsimp only
    rw [hshort]
    have hcounts : ∀ g, ((Function.update s.fCount fp (some ((refs fp + s.inflight fp : Nat) : Int))) g).getD 0 =
        (refs g + s.inflight g : Nat) := by
      intro g
      rcases eq_or_ne g fp with rfl | hne
      · rw [Function.update_self, Option.getD_some]
      · rw [Function.update_of_ne hne, hc.count g, Pi.add_apply, one, Pi.single_eq_of_ne hne, Nat.add_zero]
    have hsmalls : ∀ g, refs g + s.inflight g < 32768 := fun g =>
      Nat.lt_of_le_of_lt (Nat.add_le_add_right (Nat.le_add_right _ _) _) (hc.small g)
    split
    · exact ⟨_, rfl, ⟨hcounts, hsmalls⟩, rfl, rfl, .refl _⟩
    · next hle =>
      rw [if_neg (by omega)]
      generalize hs₁ : ({ s with fCount := Function.update s.fCount fp (some ((refs fp + s.inflight fp : Nat) : Int)) } : Sys) = s₁
      have hc₁ : Counts refs s₁ := hs₁ ▸ ⟨hcounts, hsmalls⟩
      have hf₁ : Frame s s₁ := hs₁ ▸ ⟨rfl, rfl, .refl _⟩
      have hzero : refs fp + s₁.inflight fp = 0 := by
        have := hf₁.inflight_le fp
        omega
      obtain ⟨s₂, hs₂, hc₂, hf₂⟩ : ∃ s₂, (s₁.held fp).foldlM (fun s fp => closef fuel fp s) (s₁.release fp) = some s₂ ∧
          Counts refs s₂ ∧ Frame (s₁.release fp) s₂ := by
        by_cases hheld : s₁.held fp = []
        · have hc₂ := hc₁.release fp
          rw [hheld] at hc₂ ⊢
          exact ⟨s₁.release fp, rfl, hc₂.of_eq fun g => rfl, .refl _⟩
        · refine foldlM_close (fun refs s fp hc hlt => ih hc hlt) (hc₁.release fp) ?_
          have := release_lt hheld
          have := hf₁.rights.length_le
          omega
      refine ⟨s₂.ffree fp, ?_, hc₂.ffree ?_, hf₁.trans ((frame_release s₁ fp).trans ⟨hf₂.procs, hf₂.maxfiles, hf₂.rights⟩)⟩
      · rw [hs₂]
        rfl
      · have := hf₂.inflight_le fp
        have := (frame_release s₁ fp).inflight_le fp
        omega

theorem close_spec (hc : Counts (refs + one fp) s) : ∃ s', s.close fp = some s' ∧ Counts refs s' ∧ Frame s s' :=
  closef_spec hc (Nat.lt_succ_self _)

theorem closeAll_spec {fps : List Nat} (hc : Counts (fun g => refs g + fps.count g) s) :
    ∃ s', fps.foldlM Sys.close s = some s' ∧ Counts refs s' ∧ Frame s s' :=
  foldlM_close (fun _ _ _ hc _ => close_spec hc) hc (Nat.lt_succ_self _)

theorem Counts.create (hc : Counts refs s) (hfresh : s.fCount fp = none)
    (hfiles : s'.fCount = Function.update s.fCount fp (some 1)) (hrights : s'.rights = s.rights) :
    Counts (refs + one fp) s' := by
  have hinflight : ∀ g, s'.inflight g = s.inflight g := fun g => by rw [inflight, hrights, inflight]
  have hzero : refs fp + s.inflight fp = 0 := by
    have hcount := hc.count fp
    rw [hfresh, Option.getD_none] at hcount
    omega
  have hone : ∀ g, (refs + one fp) g + s'.inflight g = if g = fp then 1 else refs g + s.inflight g := by
    intro g
    rw [Pi.add_apply, one, Pi.single_apply, hinflight g]
    split
    · next heq =>
      subst heq
      omega
    · rfl
  refine ⟨fun g => ?_, fun g => ?_⟩
  · rw [hfiles, hone g, Function.update_apply]
    split
    · rfl
    · exact hc.count g
  · rw [hone g]
    split
    · decide
    · exact hc.small g

theorem hold_spec (hc : Counts refs s) (hpos : 1 ≤ refs fp + s.inflight fp)
    (hroom : refs fp + s.inflight fp + 1 < 32768) :
    ∃ s', s.hold fp = some s' ∧ Counts (refs + one fp) s' ∧ Frame s s' ∧ s'.rights = s.rights := by
  have hcount := hc.count fp
  have hsmall := hc.small fp
  cases hsome : s.fCount fp with
  | none =>
    rw [hsome, Option.getD_none] at hcount
    omega
  | some count =>
    rw [hsome, Option.getD_some] at hcount
    have hshort : Fd.short (count + 1) = (refs fp + s.inflight fp + 1 : Nat) := by
      rw [← short_eq hroom, hcount]
      rfl
    refine ⟨{ s with fCount := Function.update s.fCount fp (some (Fd.short (count + 1))) }, ?_,
      ⟨fun g => ?_, fun g => ?_⟩, ⟨rfl, rfl, .refl _⟩, rfl⟩
    · rw [hold, hsome]
      rfl
    · change (Function.update s.fCount fp _ g).getD 0 = ((refs + one fp) g + s.inflight g : Nat)
      rw [hshort, Pi.add_apply, one]
      rcases eq_or_ne g fp with rfl | hne
      · rw [Function.update_self, Option.getD_some, Pi.single_eq_same, Nat.add_right_comm]
      · rw [Function.update_of_ne hne, Pi.single_eq_of_ne hne, Nat.add_zero]
        exact hc.count g
    · change (refs + one fp) g + s.inflight g < 32768
      rw [Pi.add_apply, one]
      rcases eq_or_ne g fp with rfl | hne
      · rw [Pi.single_eq_same]
        omega
      · rw [Pi.single_eq_of_ne hne, Nat.add_zero]
        exact hc.small g

end NetBSD.Fd.Sys
