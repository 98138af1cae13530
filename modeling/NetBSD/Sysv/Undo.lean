import NetBSD.Sysv.Sem
import Mathlib.Data.List.Nodup
import Mathlib.Tactic.SplitIfs
import Mathlib.Tactic.Push
import Mathlib.Tactic.Ring

/-!
# Undo structures

What `semundo_adjust` does to the adjustment recorded for a process and a semaphore, and why the adjustments
of a vector can be taken back one after the other.
-/

namespace NetBSD.Sysv

variable {ents : List Undo} {list list' : List SemUndo} {semmnu p semid semnum : Nat} {adjval : Int}

def entryAt (ents : List Undo) (semid semnum : Nat) : Word16 :=
  match ents.find? fun u => u.unId = semid ∧ u.unNum = semnum with
  | some u => u.unAdjval
  | none => 0

structure KeptEntries (ents : List Undo) : Prop where
  nodup : (ents.map fun u => (u.unId, u.unNum)).Nodup
  active : ∀ u ∈ ents, u.unAdjval ≠ 0
  room : ents.length ≤ semume

theorem entryAt_of_mem (h : KeptEntries ents) {u : Undo} (hu : u ∈ ents) :
    entryAt ents u.unId u.unNum = u.unAdjval := by
  unfold entryAt
  cases hfind : ents.find? fun v => v.unId = u.unId ∧ v.unNum = u.unNum with
  | none =>
    have hnot := List.find?_eq_none.mp hfind u hu
    simp at hnot
  | some v =>
    have hv : v.unId = u.unId ∧ v.unNum = u.unNum := by simpa using List.find?_some hfind
    have heq : v = u := List.inj_on_of_nodup_map h.nodup (List.mem_of_find?_eq_some hfind) hu
      (by rw [hv.1, hv.2])
    rw [heq]

theorem entryAt_of_not_mem (h : ∀ u ∈ ents, ¬ (u.unId = semid ∧ u.unNum = semnum)) :
    entryAt ents semid semnum = 0 := by
  unfold entryAt
  rw [List.find?_eq_none.mpr fun u hu => by simpa using h u hu]

theorem entryAt_perm {ents' : List Undo} (h : KeptEntries ents) (hperm : ents'.Perm ents) (semid semnum : Nat) :
    entryAt ents' semid semnum = entryAt ents semid semnum := by
  have h' : KeptEntries ents' := ⟨(hperm.map _).nodup_iff.mpr h.nodup,
    fun u hu => h.active u (hperm.mem_iff.mp hu), hperm.length_eq ▸ h.room⟩
  by_cases hmem : ∃ u ∈ ents, u.unId = semid ∧ u.unNum = semnum
  · obtain ⟨u, hu, rfl, rfl⟩ := hmem
    rw [entryAt_of_mem h hu, entryAt_of_mem h' (hperm.mem_iff.mpr hu)]
  · push Not at hmem
    rw [entryAt_of_not_mem fun u hu => not_and.mpr (hmem u hu),
      entryAt_of_not_mem fun u hu => not_and.mpr (hmem u (hperm.mem_iff.mp hu))]

theorem swapLast_perm (pre post : List Undo) (u : Undo) :
    (((pre ++ u :: post).set pre.length ((pre ++ u :: post).getLastD u)).dropLast).Perm (pre ++ post) := by
  rw [List.set_append_right _ _ (Nat.le_refl _), Nat.sub_self, List.set_cons_zero]
  obtain rfl | ⟨post, z, rfl⟩ := List.eq_nil_or_concat post
  · simp
  · have hlast : (pre ++ u :: (post ++ [z])).getLastD u = z := by
      rw [← List.cons_append, ← List.append_assoc, List.getLastD_concat]
    have hdrop : (pre ++ z :: (post ++ [z])).dropLast = pre ++ z :: post := by
      rw [← List.cons_append, ← List.append_assoc, List.dropLast_concat]
    rw [List.concat_eq_append, hlast, hdrop]
    exact (List.perm_append_singleton z post).symm.append_left pre

theorem KeptEntries.perm {ents' : List Undo} (h : KeptEntries ents) (hperm : ents'.Perm ents) :
    KeptEntries ents' :=
  ⟨(hperm.map _).nodup_iff.mpr h.nodup, fun u hu => h.active u (hperm.mem_iff.mp hu), hperm.length_eq ▸ h.room⟩

theorem KeptEntries.sublist {ents' : List Undo} (h : KeptEntries ents) (hsub : ents'.Sublist ents) :
    KeptEntries ents' :=
  ⟨h.nodup.sublist (hsub.map _), fun u hu => h.active u (hsub.subset hu), hsub.length_le.trans h.room⟩

theorem entryAt_middle {pre post : List Undo} {u : Undo} (h : KeptEntries (pre ++ u :: post))
    (id num : Nat) : entryAt (pre ++ u :: post) id num =
      if id = u.unId ∧ num = u.unNum then u.unAdjval else entryAt (pre ++ post) id num := by
  split_ifs with hkey
  · obtain ⟨rfl, rfl⟩ := hkey
    exact entryAt_of_mem h (by simp)
  · have h' : KeptEntries (pre ++ post) := h.sublist (by simp)
    by_cases hmem : ∃ v ∈ pre ++ post, v.unId = id ∧ v.unNum = num
    · obtain ⟨v, hv, rfl, rfl⟩ := hmem
      rw [entryAt_of_mem h' hv, entryAt_of_mem h]
      obtain hv | hv := List.mem_append.mp hv <;> simp [hv]
    · push Not at hmem
      rw [entryAt_of_not_mem fun v hv => not_and.mpr (hmem v hv), entryAt_of_not_mem]
      intro v hv hvkey
      obtain hv | rfl | hv : v ∈ pre ∨ v = u ∨ v ∈ post := by simpa using hv
      · exact hmem v (List.mem_append_left _ hv) hvkey.1 hvkey.2
      · exact hkey ⟨hvkey.1.symm, hvkey.2.symm⟩
      · exact hmem v (List.mem_append_right _ hv) hvkey.1 hvkey.2

def weight (v : Word16) : Nat := if v = 0 then 0 else 1

structure Adjusted (semid semnum : Nat) (v : Word16) (ents ents' : List Undo) : Prop where
  kept : KeptEntries ents'
  entryAt_eq : ∀ id num, entryAt ents' id num =
    if id = semid ∧ num = semnum then entryAt ents semid semnum + v else entryAt ents id num
  length_eq : ents'.length + weight (entryAt ents semid semnum) =
    ents.length + weight (entryAt ents semid semnum + v)

theorem adjustEntry_spec (h : KeptEntries ents) (hadj : BitVec.ofInt 16 adjval ≠ 0) :
    (∃ ents', adjustEntry semid semnum adjval ents = .ok ents' ∧
      Adjusted semid semnum (BitVec.ofInt 16 adjval) ents ents') ∨
    (∃ e, adjustEntry semid semnum adjval ents = .error e) ∧ entryAt ents semid semnum = 0 ∧
      ents.length = semume := by
  have hne : adjval ≠ 0 := fun h => hadj (by rw [h]; rfl)
  unfold adjustEntry
  cases hfind : ents.findIdx? fun u => u.unId = semid ∧ u.unNum = semnum with
  | none =>
    have hnot : ∀ u ∈ ents, ¬ (u.unId = semid ∧ u.unNum = semnum) := by
      simpa using List.findIdx?_eq_none_iff.mp hfind
    have hzero := entryAt_of_not_mem hnot
    simp only [if_neg hne]
    by_cases hroom : ents.length = semume
    · rw [if_neg (not_not.mpr hroom)]
      exact .inr ⟨⟨.einval, rfl⟩, hzero, hroom⟩
    rw [if_pos hroom]
    have hkept : KeptEntries (ents ++ [⟨BitVec.ofInt 16 adjval, semnum, semid⟩]) := by
      refine ⟨?_, fun u hu => ?_, ?_⟩
      · rw [List.map_append, List.nodup_append]
        refine ⟨h.nodup, by simp, fun key hkey key' hkey' heq => ?_⟩
        obtain ⟨u, hu, rfl⟩ := List.mem_map.mp hkey
        obtain rfl := List.mem_singleton.mp hkey'
        exact hnot u hu (Prod.mk.inj heq)
      · obtain hu | hu := List.mem_append.mp hu
        · exact h.active u hu
        · obtain rfl := List.mem_singleton.mp hu
          exact hadj
      · have hle := h.room
        rw [List.length_append, List.length_singleton]
        omega
    refine .inl ⟨_, rfl, hkept, fun id num => ?_, ?_⟩
    · rw [entryAt_middle hkept, List.append_nil, hzero, zero_add]
    · rw [hzero, zero_add, weight, weight, if_pos rfl, if_neg hadj, List.length_append]
      rfl
  | some i =>
    obtain ⟨hi, hkey, hbefore⟩ := List.findIdx?_eq_some_iff_getElem.mp hfind
    obtain ⟨pre, u, post, rfl, hpre⟩ : ∃ pre u post, ents = pre ++ u :: post ∧ pre.length = i :=
      ⟨ents.take i, ents[i], ents.drop (i + 1), by simp, by simp; omega⟩
    subst hpre
    have hkey' : u.unId = semid ∧ u.unNum = semnum := by simpa using hkey
    obtain ⟨rfl, rfl⟩ := hkey'
    have hold : entryAt (pre ++ u :: post) u.unId u.unNum = u.unAdjval := entryAt_of_mem h (by simp)
    have hweight : weight u.unAdjval = 1 := if_neg (h.active u (by simp))
    have hget : (pre ++ u :: post).getD pre.length ⟨0, 0, 0⟩ = u := by simp
    have hrest : KeptEntries (pre ++ post) := h.sublist (by simp)
    have hgone : entryAt (pre ++ post) u.unId u.unNum = 0 := by
      apply entryAt_of_not_mem
      intro v hv hvkey
      have hnodup := h.nodup
      rw [List.map_append, List.map_cons, List.nodup_middle, List.nodup_cons, ← List.map_append] at hnodup
      exact hnodup.1 (List.mem_map.mpr ⟨v, hv, by rw [hvkey.1, hvkey.2]⟩)
    simp only [hget, if_neg hne]
    by_cases hnew : u.unAdjval + BitVec.ofInt 16 adjval = 0
    · rw [if_pos hnew]
      have hperm := swapLast_perm pre post u
      refine .inl ⟨_, rfl, hrest.perm hperm, fun id num => ?_, ?_⟩
      · rw [entryAt_perm hrest hperm, hold, hnew]
        split_ifs with hid
        · rw [hid.1, hid.2, hgone]
        · rw [entryAt_middle h, if_neg hid]
      · rw [hold, hnew, hweight, hperm.length_eq]
        simp [weight]
        omega
    · rw [if_neg hnew, List.set_append_right _ _ (Nat.le_refl _), Nat.sub_self, List.set_cons_zero]
      have hkept : KeptEntries (pre ++ { u with unAdjval := u.unAdjval + BitVec.ofInt 16 adjval } :: post) := by
        refine ⟨by simpa using h.nodup, fun v hv => ?_, by simpa using h.room⟩
        obtain hv | rfl | hv : v ∈ pre ∨ v = _ ∨ v ∈ post := by simpa using hv
        · exact h.active v (by simp [hv])
        · exact hnew
        · exact h.active v (by simp [hv])
      refine .inl ⟨_, rfl, hkept, fun id num => ?_, ?_⟩
      · rw [entryAt_middle hkept, hold]
        split_ifs with hid
        · rfl
        · rw [entryAt_middle h, if_neg hid]
      · rw [hold, hweight, weight, if_neg hnew]
        simp

def entriesOf (list : List SemUndo) (p : Nat) : List Undo :=
  match list.find? (·.unProc = p) with
  | some suptr => suptr.unEnt
  | none => []

def undoAt (list : List SemUndo) (p semid semnum : Nat) : Word16 := entryAt (entriesOf list p) semid semnum

def HasUndo (list : List SemUndo) (p : Nat) : Prop := ∃ suptr ∈ list, suptr.unProc = p

structure KeptUndos (list : List SemUndo) : Prop where
  procs : (list.map SemUndo.unProc).Nodup
  entries : ∀ suptr ∈ list, KeptEntries suptr.unEnt

theorem keptEntries_nil : KeptEntries [] := ⟨by simp, by simp, by simp⟩

theorem KeptUndos.keptEntries (h : KeptUndos list) (p : Nat) : KeptEntries (entriesOf list p) := by
  unfold entriesOf
  cases hfind : list.find? (·.unProc = p) with
  | none => exact keptEntries_nil
  | some suptr => exact h.entries suptr (List.mem_of_find?_eq_some hfind)

theorem entriesOf_cons (suptr : SemUndo) (list : List SemUndo) (p : Nat) :
    entriesOf (suptr :: list) p = if suptr.unProc = p then suptr.unEnt else entriesOf list p := by
  unfold entriesOf
  rw [List.find?_cons]
  by_cases hp : suptr.unProc = p <;> simp [hp]

theorem entriesOf_of_not_hasUndo (h : ¬ HasUndo list p) : entriesOf list p = [] := by
  unfold entriesOf
  rw [List.find?_eq_none.mpr fun suptr hs => by simpa using fun hp => h ⟨suptr, hs, hp⟩]

theorem entriesOf_of_mem (h : (list.map SemUndo.unProc).Nodup) {suptr : SemUndo} (hmem : suptr ∈ list) :
    entriesOf list suptr.unProc = suptr.unEnt := by
  unfold entriesOf
  cases hfind : list.find? (·.unProc = suptr.unProc) with
  | none => exact absurd (List.find?_eq_none.mp hfind suptr hmem) (by simp)
  | some s =>
    have hs : s.unProc = suptr.unProc := by simpa using List.find?_some hfind
    rw [List.inj_on_of_nodup_map h (List.mem_of_find?_eq_some hfind) hmem hs]

structure Replaced (p : Nat) (ents : List Undo) (list list' : List SemUndo) : Prop where
  procs : list'.map SemUndo.unProc = list.map SemUndo.unProc
  own : entriesOf list' p = ents
  others : ∀ q, q ≠ p → entriesOf list' q = entriesOf list q

theorem Replaced.hasUndo {ents : List Undo} (h : Replaced p ents list list') (hp : HasUndo list p) :
    HasUndo list' p := by
  obtain ⟨suptr, hs, rfl⟩ := hp
  have hmem : suptr.unProc ∈ list'.map SemUndo.unProc := h.procs ▸ List.mem_map_of_mem hs
  obtain ⟨suptr', hs', heq⟩ := List.mem_map.mp hmem
  exact ⟨suptr', hs', heq⟩

theorem Replaced.kept {ents : List Undo} (h : Replaced p ents list list') (hkept : KeptUndos list)
    (hents : KeptEntries ents) : KeptUndos list' := by
  have hprocs : (list'.map SemUndo.unProc).Nodup := h.procs ▸ hkept.procs
  refine ⟨hprocs, fun suptr hs => ?_⟩
  have hmem : suptr.unProc ∈ list.map SemUndo.unProc := h.procs ▸ List.mem_map_of_mem hs
  rw [← entriesOf_of_mem hprocs hs]
  by_cases hp : suptr.unProc = p
  · rw [hp, h.own]
    exact hents
  · rw [h.others _ hp]
    exact hkept.keptEntries _

theorem adjustProc_spec (semid semnum : Nat) (adjval : Int) (hp : HasUndo list p) :
    (∃ ents list', adjustEntry semid semnum adjval (entriesOf list p) = .ok ents ∧
      adjustProc p semid semnum adjval list = .ok list' ∧ Replaced p ents list list') ∨
    ∃ e, adjustEntry semid semnum adjval (entriesOf list p) = .error e ∧
      adjustProc p semid semnum adjval list = .error e := by
  induction list with
  | nil =>
    obtain ⟨suptr, hs, -⟩ := hp
    exact absurd hs List.not_mem_nil
  | cons suptr rest ih =>
    rw [entriesOf_cons]
    unfold adjustProc
    by_cases hproc : suptr.unProc = p
    · rw [if_pos hproc, if_pos hproc]
      cases hadj : adjustEntry semid semnum adjval suptr.unEnt with
      | error e => exact .inr ⟨e, rfl, rfl⟩
      | ok ents =>
        refine .inl ⟨ents, _, rfl, rfl, rfl, ?_, fun q hq => ?_⟩
        · rw [entriesOf_cons, if_pos hproc]
        · rw [entriesOf_cons, entriesOf_cons, if_neg fun h => hq (h.symm.trans hproc),
            if_neg fun h => hq (h.symm.trans hproc)]
    · rw [if_neg hproc, if_neg hproc]
      have hrest : HasUndo rest p := by
        obtain ⟨s, hs, hsp⟩ := hp
        obtain rfl | hs := List.mem_cons.mp hs
        · exact absurd hsp hproc
        · exact ⟨s, hs, hsp⟩
      obtain ⟨ents, list', hents, hlist, hreplaced⟩ | ⟨e, hents, hlist⟩ := ih hrest
      · refine .inl ⟨ents, suptr :: list', hents, by rw [hlist]; rfl, ?_, ?_, fun q hq => ?_⟩
        · rw [List.map_cons, List.map_cons, hreplaced.procs]
        · rw [entriesOf_cons, if_neg hproc, hreplaced.own]
        · rw [entriesOf_cons, entriesOf_cons, hreplaced.others q hq]
      · exact .inr ⟨e, hents, by rw [hlist]; rfl⟩

theorem entriesOf_filter (h : KeptUndos list) (q : Nat) :
    entriesOf (list.filter (·.unEnt ≠ [])) q = entriesOf list q := by
  induction list with
  | nil => rfl
  | cons suptr rest ih =>
    have hrest : KeptUndos rest :=
      ⟨(List.nodup_cons.mp h.procs).2, fun s hs => h.entries s (List.mem_cons_of_mem _ hs)⟩
    by_cases hempty : suptr.unEnt = []
    · rw [List.filter_cons_of_neg (by simpa using hempty), ih hrest, entriesOf_cons]
      split_ifs with hq
      · -- No other structure belongs to the process.
        rw [hempty]
        apply entriesOf_of_not_hasUndo
        rintro ⟨s, hs, hsq⟩
        exact (List.nodup_cons.mp h.procs).1 (hq.trans hsq.symm ▸ List.mem_map_of_mem hs)
      · rfl
    · rw [List.filter_cons_of_pos (by simpa using hempty), entriesOf_cons, entriesOf_cons, ih hrest]

theorem KeptUndos.push (h : KeptUndos list) (hp : ¬ HasUndo list p) :
    KeptUndos (⟨p, []⟩ :: list) ∧ HasUndo (⟨p, []⟩ :: list) p ∧
      ∀ q, entriesOf (⟨p, []⟩ :: list) q = entriesOf list q := by
  refine ⟨⟨List.nodup_cons.mpr ⟨fun hmem => ?_, h.procs⟩, fun s hs => ?_⟩, ⟨_, List.mem_cons_self, rfl⟩,
    fun q => ?_⟩
  · obtain ⟨s, hs, hsp⟩ := List.mem_map.mp hmem
    exact hp ⟨s, hs, hsp⟩
  · obtain rfl | hs := List.mem_cons.mp hs
    · exact keptEntries_nil
    · exact h.entries s hs
  · rw [entriesOf_cons]
    split_ifs with hq
    · rw [← hq, entriesOf_of_not_hasUndo hp]
    · rfl

theorem semuAlloc_spec (h : KeptUndos list) (hp : ¬ HasUndo list p) (halloc : semuAlloc semmnu p list = .ok list') :
    KeptUndos list' ∧ HasUndo list' p ∧ ∀ q, entriesOf list' q = entriesOf list q := by
  unfold semuAlloc at halloc
  split_ifs at halloc with hfree
  · obtain rfl := Except.ok.inj halloc
    exact h.push hp
  · simp only at halloc
    split_ifs at halloc
    obtain rfl := Except.ok.inj halloc
    have hactive : KeptUndos (list.filter (·.unEnt ≠ [])) :=
      ⟨h.procs.sublist (List.filter_sublist.map _), fun s hs => h.entries s (List.mem_filter.mp hs).1⟩
    obtain ⟨hkept, hhas, hsame⟩ := hactive.push (p := p) fun ⟨s, hs, hsp⟩ =>
      hp ⟨s, (List.mem_filter.mp hs).1, hsp⟩
    exact ⟨hkept, hhas, fun q => (hsame q).trans (entriesOf_filter h q)⟩

structure Recorded (p semid semnum : Nat) (v : Word16) (list list' : List SemUndo) : Prop where
  kept : KeptUndos list'
  hasUndo : HasUndo list' p
  undoAt_eq : ∀ q id num, undoAt list' q id num =
    if q = p ∧ id = semid ∧ num = semnum then undoAt list p semid semnum + v else undoAt list q id num
  length_eq : (entriesOf list' p).length + weight (undoAt list p semid semnum) =
    (entriesOf list p).length + weight (undoAt list p semid semnum + v)

theorem adjustProc_recorded (h : KeptUndos list) (hp : HasUndo list p) (hadj : BitVec.ofInt 16 adjval ≠ 0) :
    (∃ list', adjustProc p semid semnum adjval list = .ok list' ∧
      Recorded p semid semnum (BitVec.ofInt 16 adjval) list list') ∨
    (∃ e, adjustProc p semid semnum adjval list = .error e) ∧ undoAt list p semid semnum = 0 ∧
      (entriesOf list p).length = semume := by
  obtain ⟨ents, list', hents, hlist, hreplaced⟩ | ⟨e, hents, hlist⟩ :=
    adjustProc_spec semid semnum adjval hp
  · obtain ⟨ents', hents', hadjusted⟩ | ⟨⟨e, herror⟩, -⟩ := adjustEntry_spec (h.keptEntries p) hadj
    · obtain rfl := Except.ok.inj (hents.symm.trans hents')
      refine .inl ⟨list', hlist, hreplaced.kept h hadjusted.kept, hreplaced.hasUndo hp, fun q id num => ?_, ?_⟩
      · unfold undoAt
        by_cases hq : q = p
        · rw [hq, hreplaced.own, hadjusted.entryAt_eq]
          simp
        · rw [hreplaced.others q hq, if_neg fun hc => hq hc.1]
      · rw [hreplaced.own]
        exact hadjusted.length_eq
    · rw [hents] at herror
      cases herror
  · obtain ⟨ents', hents', -⟩ | ⟨-, hfull⟩ := adjustEntry_spec (h.keptEntries p) hadj
    · rw [hents] at hents'
      cases hents'
    · exact .inr ⟨⟨e, hlist⟩, hfull⟩

theorem semundoAdjust_spec (semmnu p semid semnum : Nat) (h : KeptUndos list) (hadj : BitVec.ofInt 16 adjval ≠ 0) :
    (∃ list', semundoAdjust semmnu p semid semnum adjval list = .ok list' ∧
      Recorded p semid semnum (BitVec.ofInt 16 adjval) list list') ∨
    (∃ e, semundoAdjust semmnu p semid semnum adjval list = .error e) ∧
      (HasUndo list p → undoAt list p semid semnum = 0 ∧ (entriesOf list p).length = semume) := by
  have hne : adjval ≠ 0 := fun h => hadj (by rw [h]; rfl)
  unfold semundoAdjust
  by_cases hp : HasUndo list p
  · rw [if_pos (by simpa [HasUndo] using hp)]
    obtain hok | ⟨herror, hfull⟩ := adjustProc_recorded h hp hadj
    · exact .inl hok
    · exact .inr ⟨herror, fun _ => hfull⟩
  · rw [if_neg (by simpa [HasUndo] using hp), if_neg hne]
    cases halloc : semuAlloc semmnu p list with
    | error e => exact .inr ⟨⟨e, rfl⟩, fun hc => absurd hc hp⟩
    | ok list' =>
      obtain ⟨hkept, hhas, hsame⟩ := semuAlloc_spec h hp halloc
      obtain ⟨list'', hlist, hrecorded⟩ | ⟨-, -, hfull⟩ := adjustProc_recorded hkept hhas hadj
      · refine .inl ⟨list'', hlist, hrecorded.kept, hrecorded.hasUndo, fun q id num => ?_, ?_⟩
        · rw [hrecorded.undoAt_eq]
          simp only [undoAt, hsame]
        · simpa only [undoAt, hsame] using hrecorded.length_eq
      · rw [hsame, entriesOf_of_not_hasUndo hp] at hfull
        cases hfull

structure Stands (p : Nat) (list list' : List SemUndo) : Prop where
  kept : KeptUndos list'
  hasUndo : HasUndo list p → HasUndo list' p
  undoAt_eq : ∀ q id num, undoAt list' q id num = undoAt list q id num
  length_eq : (entriesOf list' p).length = (entriesOf list p).length

theorem Recorded.back {v : Word16} {r r' : List SemUndo} (hrec : Recorded p semid semnum v list list')
    (hr : Stands p list' r) (hback : Recorded p semid semnum (-v) r r') : Stands p list r' := by
  have hown : undoAt r p semid semnum = undoAt list p semid semnum + v := by
    rw [hr.undoAt_eq, hrec.undoAt_eq, if_pos ⟨rfl, rfl, rfl⟩]
  refine ⟨hback.kept, fun _ => hback.hasUndo, fun q id num => ?_, ?_⟩
  · rw [hback.undoAt_eq, hown, hr.undoAt_eq, hrec.undoAt_eq]
    split_ifs with hc
    · rw [hc.1, hc.2.1, hc.2.2, add_neg_cancel_right]
    · rfl
  · have hlength := hback.length_eq
    have hlength' := hrec.length_eq
    rw [hown, add_neg_cancel_right, hr.length_eq] at hlength
    omega

/-- The adjustments of `done` can be taken back from `list`, which leaves what is recorded in `list₀`. -/
def Restorable (semmnu p semid : Nat) (list₀ : List SemUndo) (done : List Sembuf) (list : List SemUndo) : Prop :=
  ∀ r, Stands p list r → ∃ r', rollbackUndos semmnu p semid done r = some r' ∧ KeptUndos r' ∧
    ∀ q id num, undoAt r' q id num = undoAt list₀ q id num

theorem restorable_nil (list : List SemUndo) : Restorable semmnu p semid list [] list :=
  fun r hr => ⟨r, rfl, hr.kept, hr.undoAt_eq⟩

theorem ofInt_neg_toInt (v : Word16) : BitVec.ofInt 16 (-v.toInt) = -v := by
  rw [BitVec.ofInt_neg, BitVec.ofInt_toInt]

variable {list₀ : List SemUndo} {done rest : List Sembuf} {op : Sembuf}

theorem toInt_ne_zero {v : Word16} (h : v ≠ 0) : BitVec.ofInt 16 v.toInt ≠ 0 := by
  rw [BitVec.ofInt_toInt]
  exact h

theorem Restorable.cons (h : Restorable semmnu p semid list₀ done list) (hlist : KeptUndos list) (hundo : op.semUndo = true)
    (hop : op.semOp ≠ 0) (hrec : Recorded p semid op.semNum (-op.semOp) list list') :
    Restorable semmnu p semid list₀ (op :: done) list' := by
  intro r hr
  rw [rollbackUndos, if_neg (by rintro (h | h) <;> simp_all)]
  obtain ⟨r', hok, hback⟩ | ⟨-, hfull⟩ :=
    semundoAdjust_spec semmnu p semid op.semNum hr.kept (toInt_ne_zero hop)
  · rw [hok]
    rw [BitVec.ofInt_toInt] at hback
    exact h r' (hrec.back hr (by rwa [neg_neg]))
  · -- The entry is still there, or it left room when it went.
    obtain ⟨hzero, hlength⟩ := hfull (hr.hasUndo hrec.hasUndo)
    rw [hr.undoAt_eq, hrec.undoAt_eq, if_pos ⟨rfl, rfl, rfl⟩] at hzero
    have hlength' := hrec.length_eq
    have hold : undoAt list p semid op.semNum = op.semOp := by
      rwa [← sub_eq_add_neg, sub_eq_zero] at hzero
    rw [hold, add_neg_cancel, weight, weight, if_neg hop, if_pos rfl, ← hr.length_eq, hlength] at hlength'
    have hroom := (hlist.keptEntries p).room
    omega

theorem Restorable.skip (h : Restorable semmnu p semid list₀ done list)
    (hskip : !op.semUndo ∨ op.semOp = 0) : Restorable semmnu p semid list₀ (op :: done) list := by
  intro r hr
  rw [rollbackUndos, if_pos hskip]
  exact h r hr

def undoNet (ops : List Sembuf) (num : Nat) : Word16 :=
  (ops.map fun op => if op.semUndo = true ∧ op.semNum = num then op.semOp else 0).sum

theorem undoNet_cons (hundo : op.semUndo = true) (num : Nat) :
    undoNet (op :: rest) num = (if op.semNum = num then op.semOp else 0) + undoNet rest num := by
  simp [undoNet, hundo]

theorem recordUndos_spec (semmnu p semid : Nat) (rest : List Sembuf) (hkept : KeptUndos list) (hdone : Restorable semmnu p semid list₀ done list) :
    (∃ list', recordUndos semmnu p semid done rest list = some (none, list') ∧ KeptUndos list' ∧
      ∀ q id num, undoAt list' q id num =
        if q = p ∧ id = semid then undoAt list q id num - undoNet rest num else undoAt list q id num) ∨
    ∃ e list', recordUndos semmnu p semid done rest list = some (some e, list') ∧ KeptUndos list' ∧
      ∀ q id num, undoAt list' q id num = undoAt list₀ q id num := by
  induction rest generalizing done list with
  | nil => exact .inl ⟨list, rfl, hkept, by simp [undoNet]⟩
  | cons op rest ih =>
    rw [recordUndos]
    by_cases hskip : !op.semUndo ∨ op.semOp = 0
    · rw [if_pos hskip]
      have hnet (num) : undoNet (op :: rest) num = undoNet rest num := by
        obtain h | h := hskip <;> simp_all [undoNet]
      simp only [hnet]
      exact ih hkept (hdone.skip hskip)
    · rw [if_neg hskip]
      push Not at hskip
      have hundo : op.semUndo = true := by simpa using hskip.1
      have hadj : BitVec.ofInt 16 (-op.semOp.toInt) ≠ 0 := by
        rw [ofInt_neg_toInt]
        exact neg_ne_zero.mpr hskip.2
      obtain ⟨list', hok, hrec⟩ | ⟨⟨e, herror⟩, -⟩ := semundoAdjust_spec semmnu p semid op.semNum hkept hadj
      · rw [ofInt_neg_toInt] at hrec
        rw [hok]
        obtain ⟨list'', hall, hkept'', hnet⟩ | hfail := ih hrec.kept (hdone.cons hkept hundo hskip.2 hrec)
        · refine .inl ⟨list'', hall, hkept'', fun q id num => ?_⟩
          rw [hnet, hrec.undoAt_eq, undoNet_cons hundo]
          by_cases hown : q = p ∧ id = semid
          · obtain ⟨rfl, rfl⟩ := hown
            by_cases hnum : num = op.semNum
            · simp only [hnum, and_self, if_true]
              ring
            · simp [hnum, Ne.symm hnum]
          · rw [if_neg hown, if_neg hown, if_neg fun h => hown ⟨h.1, h.2.1⟩]
        · exact .inr hfail
      · rw [herror]
        obtain ⟨r, hr, hkeptr, hsame⟩ := hdone list ⟨hkept, id, fun _ _ _ => rfl, rfl⟩
        exact .inr ⟨e, r, by simp [hr], hkeptr, hsame⟩

end NetBSD.Sysv
