import NetBSD.Vfs.Locking
import Mathlib.Data.List.Perm.Subperm

/-!
# Requests that wait

What a walk along the list of a file does to the chains of requests, and that a request that sleeps is on the chain of the lock that its
`lf_next` points to, in a run in which no lock that others wait for is merged into a larger one.
-/

namespace NetBSD.Vfs

open NetBSD.Lib (Runs)

variable {f f' : File} {lock lf lf' : Lockf} {id addr : Nat} {new woken : List Nat} {old locks : List Lockf} {s : Sleeper}

def Span.Conflicts (request lf : Span) : Prop :=
  lf.lfId ≠ request.lfId ∧ (request.lfType = .wrlck ∨ lf.lfType = .wrlck) ∧ overlapCase request lf ≠ .none

structure Kept (lf lf' : Lockf) : Prop where
  addr : lf'.addr = lf.addr
  lfBlock : lf'.lfBlock = lf.lfBlock
  lfId : lf'.lfId = lf.lfId
  lfStart : lf'.lfStart = lf.lfStart
  lfEnd : lf'.lfEnd = lf.lfEnd
  lfType : lf.lfType = .wrlck → lf'.lfType = .wrlck

theorem Kept.refl (lf : Lockf) : Kept lf lf := ⟨rfl, rfl, rfl, rfl, rfl, fun h => h⟩

theorem Kept.conflicts {request : Span} (h : Kept lf lf') (hc : request.Conflicts lf.toSpan) : request.Conflicts lf'.toSpan := by
  obtain ⟨hid, htype, hcase⟩ := hc
  refine ⟨h.lfId.trans_ne hid, htype.imp_right h.lfType, ?_⟩
  unfold overlapCase at hcase ⊢
  rw [h.lfStart, h.lfEnd]
  exact hcase

/-- What a walk makes of the locks on a list, and the requests it wakes: the locks of the owner lose their waiters when they are changed, and
locks with the addresses `new` are put in. -/
inductive Worked (id : Nat) : List Nat → List Lockf → List Lockf → List Nat → Prop where
  | nil : Worked id [] [] [] []
  | keep {new woken : List Nat} {old locks : List Lockf} {lf lf' : Lockf} (hkept : Kept lf lf') (h : Worked id new old locks woken) :
      Worked id new (lf :: old) (lf' :: locks) woken
  | drop {new woken : List Nat} {old locks : List Lockf} {lf : Lockf} (hid : lf.lfId = id) (h : Worked id new old locks woken) :
      Worked id new (lf :: old) locks (lf.lfBlock ++ woken)
  | shrink {new woken : List Nat} {old locks : List Lockf} {lf f : Lockf} (hid : lf.lfId = id) (haddr : f.addr = lf.addr)
      (hblock : f.lfBlock = []) (h : Worked id new old locks woken) : Worked id new (lf :: old) (f :: locks) (lf.lfBlock ++ woken)
  | add {new woken : List Nat} {old locks : List Lockf} {f : Lockf} (hblock : f.lfBlock = []) (h : Worked id new old locks woken) :
      Worked id (f.addr :: new) old (f :: locks) woken

namespace Worked

theorem refl (id : Nat) (locks : List Lockf) : Worked id [] locks locks [] := by
  induction locks with
  | nil => exact .nil
  | cons lf locks ih => exact .keep (.refl lf) ih

theorem append_left (h : Worked id new old locks woken) (passed : List Lockf) :
    Worked id new (passed ++ old) (passed ++ locks) woken := by
  induction passed with
  | nil => exact h
  | cons lf passed ih => exact .keep (.refl lf) ih

theorem chains (h : Worked id new old locks woken) :
    (old.flatMap (·.lfBlock)).Perm (locks.flatMap (·.lfBlock) ++ woken) := by
  induction h with
  | nil => exact .refl _
  | @keep new woken old locks lf lf' hkept h ih =>
    rw [List.flatMap_cons, List.flatMap_cons, hkept.lfBlock, List.append_assoc]
    exact ih.append_left _
  | @drop new woken old locks lf hid h ih =>
    rw [List.flatMap_cons]
    exact (ih.append_left _).trans (List.perm_append_comm_assoc ..)
  | @shrink new woken old locks lf lf' hid haddr hblock h ih =>
    rw [List.flatMap_cons, List.flatMap_cons, hblock, List.nil_append]
    exact (ih.append_left _).trans (List.perm_append_comm_assoc ..)
  | @add new woken old locks lf' hblock h ih =>
    rw [List.flatMap_cons, hblock, List.nil_append]
    exact ih

theorem subperm (h : Worked id new old locks woken) : List.Subperm (locks.map (·.addr)) (new ++ old.map (·.addr)) := by
  induction h with
  | nil => exact List.Subperm.refl _
  | @keep new woken old locks lf lf' hkept h ih =>
    rw [List.map_cons, List.map_cons, hkept.addr]
    exact ((List.subperm_cons _).2 ih).trans List.perm_middle.symm.subperm
  | @drop new woken old locks lf hid h ih =>
    rw [List.map_cons]
    exact (ih.cons_right _).trans List.perm_middle.symm.subperm
  | @shrink new woken old locks lf lf' hid haddr hblock h ih =>
    rw [List.map_cons, List.map_cons, haddr]
    exact ((List.subperm_cons _).2 ih).trans List.perm_middle.symm.subperm
  | @add new woken old locks lf' hblock h ih =>
    exact (List.subperm_cons _).2 ih

theorem before (h : Worked id new old locks woken) (hmem : lf' ∈ locks) (hne : lf'.lfBlock ≠ []) : ∃ lf ∈ old, Kept lf lf' := by
  induction h with
  | nil => cases hmem
  | keep hkept h ih =>
    rcases List.mem_cons.1 hmem with rfl | hmem
    · exact ⟨_, List.mem_cons_self, hkept⟩
    · exact (ih hmem).imp fun _ h => ⟨List.mem_cons_of_mem _ h.1, h.2⟩
  | drop hid h ih => exact (ih hmem).imp fun _ h => ⟨List.mem_cons_of_mem _ h.1, h.2⟩
  | shrink hid haddr hblock h ih =>
    rcases List.mem_cons.1 hmem with rfl | hmem
    · exact absurd hblock hne
    · exact (ih hmem).imp fun _ h => ⟨List.mem_cons_of_mem _ h.1, h.2⟩
  | add hblock h ih =>
    rcases List.mem_cons.1 hmem with rfl | hmem
    · exact absurd hblock hne
    · exact ih hmem

theorem after (h : Worked id new old locks woken) (hmem : lf ∈ old) :
    (∃ lf' ∈ locks, Kept lf lf') ∨ lf.lfId = id ∧ ∀ r ∈ lf.lfBlock, r ∈ woken := by
  induction h with
  | nil => cases hmem
  | keep hkept h ih =>
    rcases List.mem_cons.1 hmem with rfl | hmem
    · exact .inl ⟨_, List.mem_cons_self, hkept⟩
    · exact (ih hmem).imp_left fun ⟨x, hx, hk⟩ => ⟨x, List.mem_cons_of_mem _ hx, hk⟩
  | drop hid h ih =>
    rcases List.mem_cons.1 hmem with rfl | hmem
    · exact .inr ⟨hid, fun r hr => List.mem_append_left _ hr⟩
    · exact (ih hmem).imp_right fun h => ⟨h.1, fun r hr => List.mem_append_right _ (h.2 r hr)⟩
  | shrink hid haddr hblock h ih =>
    rcases List.mem_cons.1 hmem with rfl | hmem
    · exact .inr ⟨hid, fun r hr => List.mem_append_left _ hr⟩
    · exact (ih hmem).imp (fun ⟨x, hx, hk⟩ => ⟨x, List.mem_cons_of_mem _ hx, hk⟩) fun h =>
      ⟨h.1, fun r hr => List.mem_append_right _ (h.2 r hr)⟩
  | add hblock h ih => exact (ih hmem).imp_left fun ⟨x, hx, hk⟩ => ⟨x, List.mem_cons_of_mem _ hx, hk⟩

theorem adds (h : Worked id new old locks woken) {mid : List Lockf} (hmid : ∀ l ∈ mid, l.lfBlock = []) :
    Worked id (mid.map (·.addr) ++ new) old (mid ++ locks) woken := by
  induction mid with
  | nil => exact h
  | cons l mid ih => exact .add (hmid l List.mem_cons_self) (ih fun x hx => hmid x (List.mem_cons_of_mem l hx))

theorem split (span : Span) (hid : lf.lfId = id) (mid : List Lockf) (hmid : ∀ l ∈ mid, l.lfBlock = []) (addr : Nat) (rest : List Lockf) :
    ∃ new, new.Sublist (mid.map (·.addr) ++ [addr]) ∧
      Worked id new (lf :: rest)
        ((lfSplit addr { lf with lfBlock := [] } span).1 ++ (mid ++ ((lfSplit addr { lf with lfBlock := [] } span).2 ++ rest)))
        (lf.lfBlock ++ []) := by
  have hrest := refl id rest
  unfold lfSplit
  dsimp only
  split
  · exact ⟨_, List.Sublist.append_left (List.nil_sublist _) _,
      adds (.shrink (f := { lf with lfStart := offT (span.lfEnd + 1), lfBlock := [] }) hid rfl rfl hrest) hmid⟩
  · split
    · exact ⟨_, List.Sublist.append_left (List.nil_sublist _) _, .shrink hid rfl rfl (hrest.adds hmid)⟩
    · have hback := hrest.add (f := { lf with addr, lfStart := offT (span.lfEnd + 1), lfBlock := [] }) rfl
      exact ⟨_, List.Sublist.refl _, .shrink hid rfl rfl (hback.adds hmid)⟩

end Worked

theorem self_id {r : Span} (hskip : Whose.self.skips r lf.toSpan = false) : lf.lfId = r.lfId := by
  simpa [Whose.skips] using hskip

theorem clearLoop_worked {unlock : Span} {fuel : Nat} {w : Walked} (h : clearLoop addr unlock fuel old = some w) :
    ∃ new, new.Sublist [addr] ∧ Worked unlock.lfId new old w.locks w.woken := by
  induction fuel generalizing old w with
  | zero => cases h
  | succ fuel ih =>
    obtain ⟨passed, -, hend⟩ := finds .self unlock old
    unfold clearLoop at h
    rcases hend with ⟨hfind, rfl⟩ | ⟨lf, rest, rfl, hskip, ⟨-, -, hfind⟩ | ⟨hcase, hfind⟩⟩
    · rw [hfind] at h
      cases h
      exact ⟨[], List.nil_sublist _, by rw [List.append_nil]; exact .refl ..⟩
    · rw [hfind] at h
      cases h
      exact ⟨[], List.nil_sublist _, .refl ..⟩
    · have hid := self_id hskip
      rw [hfind] at h
      cases hov : overlapCase unlock lf.toSpan with
      | none => exact absurd hov hcase
      | panic => exact absurd hov (overlapCase_ne_panic _ _)
      | equal =>
        rw [hov] at h
        cases h
        refine ⟨[], List.nil_sublist _, .append_left ?_ passed⟩
        rw [← List.append_nil lf.lfBlock]
        exact .drop hid (.refl ..)
      | contains =>
        rw [hov] at h
        dsimp only at h
        split at h
        · cases h
          refine ⟨[], List.nil_sublist _, .append_left ?_ passed⟩
          rw [← List.append_nil lf.lfBlock]
          exact .shrink hid rfl rfl (.refl ..)
        · cases h
          obtain ⟨new, hnew, hw⟩ := Worked.split unlock hid [] (by simp) addr rest
          refine ⟨new, hnew, ?_⟩
          rw [List.append_nil, List.nil_append] at hw
          rw [List.append_assoc, List.append_assoc]
          exact hw.append_left passed
      | contained =>
        rw [hov] at h
        obtain ⟨w', hw', h⟩ := Option.bind_eq_some_iff.1 h
        cases h
        obtain ⟨new, hnew, hworked⟩ := ih hw'
        exact ⟨new, hnew, .append_left (.drop hid hworked) passed⟩
      | startsBefore =>
        rw [hov] at h
        obtain ⟨w', hw', h⟩ := Option.bind_eq_some_iff.1 h
        cases h
        obtain ⟨new, hnew, hworked⟩ := ih hw'
        refine ⟨new, hnew, ?_⟩
        dsimp only
        exact .append_left (.shrink (f := { lf with lfEnd := offT (unlock.lfStart - 1), lfBlock := [] }) hid rfl rfl hworked) passed
      | endsAfter =>
        rw [hov] at h
        cases h
        refine ⟨[], List.nil_sublist _, .append_left ?_ passed⟩
        rw [← List.append_nil lf.lfBlock]
        exact .shrink hid rfl rfl (.refl ..)

def Lockf.Merges (lock : Lockf) (locks : List Lockf) : Prop :=
  ∃ lf ∈ locks, lf.lfId = lock.lfId ∧ overlapCase lock.toSpan lf.toSpan = .contained ∧ lf.lfBlock ≠ [] ∧ lock.downgrades lf = false

theorem Lockf.Merges.tail (h : ¬lock.Merges (locks ++ lf :: old)) : ¬lock.Merges old :=
  fun ⟨x, hx, hm⟩ => h ⟨x, List.mem_append_right _ (List.mem_cons_of_mem _ hx), hm⟩

theorem takeBlock_eq {overlap : Lockf} (hblock : lock.lfBlock = []) (h : overlap.lfBlock ≠ [] → lock.downgrades overlap = true) :
    takeBlock lock overlap = (lock, overlap.lfBlock) := by
  unfold takeBlock
  split
  · rfl
  · next hdown =>
    have hnil : overlap.lfBlock = [] := by
      by_contra hne
      exact hdown (h hne)
    rw [hnil, List.nil_append]

theorem takeBlock_of_not_merges (hblock : lock.lfBlock = []) (hnot : ¬lock.Merges (locks ++ lf :: old)) (hid : lf.lfId = lock.lfId)
    (hcase : overlapCase lock.toSpan lf.toSpan = .contained) : takeBlock lock lf = (lock, lf.lfBlock) := by
  refine takeBlock_eq hblock fun hne => ?_
  by_contra hdown
  exact hnot ⟨lf, List.mem_append_right _ List.mem_cons_self, hid, hcase, hne, Bool.eq_false_iff.2 hdown⟩

theorem setRest_worked {fuel : Nat} {r : Lockf × Walked} (hblock : lock.lfBlock = []) (hnot : ¬lock.Merges old)
    (h : setRest fuel lock old = some r) : r.1 = lock ∧ Worked lock.lfId [] old r.2.locks r.2.woken := by
  induction fuel generalizing old r with
  | zero => cases h
  | succ fuel ih =>
    obtain ⟨passed, -, hend⟩ := finds .self lock.toSpan old
    unfold setRest at h
    rcases hend with ⟨hfind, rfl⟩ | ⟨lf, rest, rfl, hskip, ⟨-, -, hfind⟩ | ⟨hcase, hfind⟩⟩
    · rw [hfind] at h
      cases h
      exact ⟨rfl, by rw [List.append_nil]; exact .refl ..⟩
    · rw [hfind] at h
      cases h
      exact ⟨rfl, .refl ..⟩
    · have hid : lf.lfId = lock.lfId := self_id hskip
      rw [hfind] at h
      cases hov : overlapCase lock.toSpan lf.toSpan with
      | none => exact absurd hov hcase
      | contained =>
        rw [hov] at h
        dsimp only at h
        rw [takeBlock_of_not_merges hblock hnot hid hov] at h
        obtain ⟨r', hr', h⟩ := Option.bind_eq_some_iff.1 h
        cases h
        obtain ⟨hlock, hworked⟩ := ih (Lockf.Merges.tail hnot) hr'
        exact ⟨hlock, .append_left (.drop hid hworked) passed⟩
      | endsAfter =>
        rw [hov] at h
        cases h
        refine ⟨rfl, .append_left ?_ passed⟩
        rw [← List.append_nil lf.lfBlock]
        exact .shrink hid rfl rfl (.refl ..)
      | _ =>
        rw [hov] at h
        cases h

theorem setLoop_worked {fuel : Nat} {w : Walked} (hblock : lock.lfBlock = []) (htype : lock.lfType ≠ .unlck) (hnot : ¬lock.Merges old)
    (h : setLoop addr fuel lock old = some w) :
    ∃ new, new.Sublist [lock.addr, addr] ∧ Worked lock.lfId new old w.locks w.woken := by
  have hadd : ∀ {old locks woken}, Worked lock.lfId [] old locks woken → ∃ new, new.Sublist [lock.addr, addr] ∧
      Worked lock.lfId new old (lock :: locks) woken := fun h =>
    ⟨[lock.addr], List.Sublist.cons_cons _ (List.nil_sublist _), .add hblock h⟩
  obtain ⟨passed, -, hend⟩ := finds .self lock.toSpan old
  unfold setLoop at h
  rcases hend with ⟨hfind, rfl⟩ | ⟨lf, rest, rfl, hskip, ⟨-, -, hfind⟩ | ⟨hcase, hfind⟩⟩
  · rw [hfind] at h
    cases h
    obtain ⟨new, hnew, hw⟩ := hadd (.refl lock.lfId [])
    refine ⟨new, hnew, ?_⟩
    have := hw.append_left old
    rw [List.append_nil] at this
    exact this
  · rw [hfind] at h
    cases h
    obtain ⟨new, hnew, hw⟩ := hadd (.refl lock.lfId (lf :: rest))
    exact ⟨new, hnew, hw.append_left passed⟩
  · have hid : lf.lfId = lock.lfId := self_id hskip
    rw [hfind] at h
    cases hov : overlapCase lock.toSpan lf.toSpan with
    | none => exact absurd hov hcase
    | panic => exact absurd hov (overlapCase_ne_panic _ _)
    | equal =>
      rw [hov] at h
      dsimp only at h
      split at h
      · cases h
        refine ⟨[], List.nil_sublist _, .append_left ?_ passed⟩
        rw [← List.append_nil lf.lfBlock]
        exact .shrink hid rfl rfl (.refl ..)
      · next hdown =>
        cases h
        -- the waiters stay, and the lock is no less exclusive
        have hkept : Kept lf { lf with lfType := lock.lfType } := by
          refine ⟨rfl, rfl, rfl, rfl, rfl, fun hw => ?_⟩
          have hnot : lock.lfType ≠ .rdlck := fun hr => hdown (decide_eq_true ⟨hr, hw⟩)
          show lock.lfType = .wrlck
          cases ht : lock.lfType with
          | rdlck => exact absurd ht hnot
          | unlck => exact absurd ht htype
          | wrlck => rfl
        exact ⟨[], List.nil_sublist _, .append_left (.keep hkept (.refl ..)) passed⟩
    | contains =>
      rw [hov] at h
      dsimp only at h
      split at h
      · cases h
        exact ⟨[], List.nil_sublist _, .refl ..⟩
      split at h
      · cases h
        have hshrink := Worked.shrink (f := { lf with lfStart := offT (lock.lfEnd + 1), lfBlock := [] }) hid rfl rfl (.refl lock.lfId rest)
        rw [List.append_nil] at hshrink
        obtain ⟨new, hnew, hw⟩ := hadd hshrink
        exact ⟨new, hnew, hw.append_left passed⟩
      · cases h
        obtain ⟨new, hnew, hw⟩ := Worked.split lock.toSpan hid [lock] (fun l hl => List.mem_singleton.1 hl ▸ hblock) addr rest
        refine ⟨new, hnew, ?_⟩
        rw [List.append_nil] at hw
        rw [List.append_assoc, List.append_assoc]
        exact hw.append_left passed
    | contained =>
      rw [hov] at h
      dsimp only at h
      rw [takeBlock_of_not_merges hblock hnot hid hov] at h
      obtain ⟨⟨lock', w'⟩, hr, h⟩ := Option.bind_eq_some_iff.1 h
      cases h
      obtain ⟨rfl, hworked⟩ := setRest_worked hblock (Lockf.Merges.tail hnot) hr
      obtain ⟨new, hnew, hw⟩ := hadd (.drop hid hworked)
      exact ⟨new, hnew, hw.append_left passed⟩
    | startsBefore =>
      rw [hov] at h
      obtain ⟨⟨lock', w'⟩, hr, h⟩ := Option.bind_eq_some_iff.1 h
      cases h
      obtain ⟨rfl, hworked⟩ := setRest_worked hblock (Lockf.Merges.tail hnot) hr
      obtain ⟨new, hnew, hw⟩ := hadd hworked
      refine ⟨new, hnew, ?_⟩
      dsimp only
      exact .append_left (.shrink (f := { lf with lfEnd := offT (lock'.lfStart - 1), lfBlock := [] }) hid rfl rfl hw) passed
    | endsAfter =>
      rw [hov] at h
      cases h
      have hshrink := Worked.shrink (f := { lf with lfStart := offT (lock.lfEnd + 1), lfBlock := [] }) hid rfl rfl (.refl lock.lfId rest)
      rw [List.append_nil] at hshrink
      obtain ⟨new, hnew, hw⟩ := hadd hshrink
      exact ⟨new, hnew, hw.append_left passed⟩

theorem lfGetblock_conflicts {r : Span} {fuel : Nat} (h : lfGetblock r fuel old = some lf) : lf ∈ old ∧ r.Conflicts lf.toSpan := by
  induction fuel generalizing old with
  | zero => cases h
  | succ fuel ih =>
    obtain ⟨passed, -, hend⟩ := finds .others r old
    unfold lfGetblock at h
    rcases hend with ⟨hfind, rfl⟩ | ⟨x, rest, rfl, hskip, ⟨hself, -, -⟩ | ⟨hcase, hfind⟩⟩
    · rw [hfind] at h
      cases h
    · cases hself
    · rw [hfind] at h
      have hother : x.lfId ≠ r.lfId := by simpa [Whose.skips] using hskip
      have hstep : (if r.lfType = .wrlck ∨ x.lfType = .wrlck then some x else lfGetblock r fuel rest) = some lf := by
        cases hov : overlapCase r x.toSpan with
        | none => exact absurd hov hcase
        | _ =>
          rw [hov] at h
          exact h
      split at hstep
      · next htype =>
        cases hstep
        exact ⟨List.mem_append_right _ List.mem_cons_self, hother, htype, hcase⟩
      · obtain ⟨hmem, hconf⟩ := ih hstep
        exact ⟨List.mem_append_right _ (List.mem_cons_of_mem _ hmem), hconf⟩

structure Flock where
  lType : LockType
  lWhence : Nat
  lStart : Int
  lLen : Int
  lPid : Int
  deriving DecidableEq

def lfGetlock (pid : Nat → Int) (lock : Span) (f : File) (fl : Flock) : Flock :=
  match lfGetblock lock (f.locks.length + 1) f.locks with
  | some block =>
    { lType := block.lfType
      lWhence := 0
      lStart := block.lfStart
      lLen := if block.lfEnd = -1 then 0 else offT (block.lfEnd - block.lfStart + 1)
      lPid := if block.lfFlags.fPosix then pid block.lfId else -1 }
  | none => { fl with lType := .unlck }

def Flock.Covers (fl : Flock) (byte : Nat) : Prop := fl.lStart ≤ byte ∧ (fl.lLen = 0 ∨ byte < fl.lStart + fl.lLen)

def Span.Blocks (l r : Span) : Prop :=
  l.lfId ≠ r.lfId ∧ (r.lfType = .wrlck ∨ l.lfType = .wrlck) ∧ ∃ byte, r.Covers byte ∧ l.Covers byte

theorem Span.blocks_of_conflicts {r l : Span} (hr : r.InRange) (hl : l.InRange) (h : r.Conflicts l) : l.Blocks r := by
  obtain ⟨hid, htype, hcase⟩ := h
  have hnot : ¬(l.Before r ∨ r.Before l) := fun hb => hcase (Span.overlapCase_eq_none_iff.2 hb)
  refine ⟨hid, htype, (max r.lfStart l.lfStart).toNat, ?_⟩
  have := hr.start_nonneg
  have := hl.start_nonneg
  have := hr.ordered
  have := hl.ordered
  unfold Span.Before at hnot
  unfold Span.Covers
  omega

theorem Flock.covers_iff {l : Span} {fl : Flock} (hl : l.InRange) (hfits : l.lfEnd - l.lfStart < offMax) (hstart : fl.lStart = l.lfStart)
    (hlen : fl.lLen = if l.lfEnd = -1 then 0 else offT (l.lfEnd - l.lfStart + 1)) (byte : Nat) : fl.Covers byte ↔ l.Covers byte := by
  have := hl.start_nonneg
  have := hl.ordered
  rw [Flock.Covers, Span.Covers, hstart, hlen]
  split_ifs with hend
  · simp [hend]
  · rw [offT_eq (by omega) (by omega)]
    omega

/-- In every run of careful calls, F_GETLK describes a lock of another owner that stands against the request when there is one, and
says F_UNLCK otherwise; F_SETLK without a wait fails with EAGAIN just when there is one. -/
theorem lfGetlock_reports (h : CarefulRun f) (pid : Nat → Int) (fl : Flock) (hrange : lock.InRange)
    (hwait : lock.lfFlags.fWait = false) (env : Env) :
    (lfSetlock env lock f = some (.eagain, f) ↔ ∃ lf ∈ f.locks, lf.toSpan.Blocks lock.toSpan) ∧
    ((∀ lf ∈ f.locks, ¬lf.toSpan.Blocks lock.toSpan) → lfGetlock pid lock.toSpan f fl = { fl with lType := .unlck }) ∧
    ((∃ lf ∈ f.locks, lf.toSpan.Blocks lock.toSpan) → ∃ lf ∈ f.locks, lf.toSpan.Blocks lock.toSpan ∧
      (lfGetlock pid lock.toSpan f fl).lType = lf.lfType ∧
      (lfGetlock pid lock.toSpan f fl).lPid = (if lf.lfFlags.fPosix then pid lf.lfId else -1) ∧
      (lf.lfEnd - lf.lfStart < offMax → ∀ byte, (lfGetlock pid lock.toSpan f fl).Covers byte ↔ lf.Covers byte)) := by
  have hin : ∀ lf ∈ f.locks, lf.InRange := fun lf hlf => h.sane.tidy.inRange _ (List.mem_map_of_mem hlf)
  unfold lfGetlock lfSetlock
  cases hblock : lfGetblock lock.toSpan (f.locks.length + 1) f.locks with
  | some block =>
    obtain ⟨hmem, hconf⟩ := lfGetblock_conflicts hblock
    have hblocks := Span.blocks_of_conflicts hrange (hin block hmem) hconf
    exact ⟨iff_of_true (by simp [hwait]) ⟨block, hmem, hblocks⟩, fun hall => absurd hblocks (hall block hmem), fun _ =>
      ⟨block, hmem, hblocks, rfl, rfl, fun hfits => Flock.covers_iff (hin block hmem) hfits rfl rfl⟩⟩
  | none =>
    have hnone : ¬∃ lf ∈ f.locks, lf.toSpan.Blocks lock.toSpan := by
      rintro ⟨lf, hlf, hid, hconf, byte, hr, hl⟩
      rcases clear_of_lfGetblock_eq_none _ _ (Nat.lt_succ_self _) hblock lf hlf hid hconf with hb | hb
      · exact hb.not_covers hl hr
      · exact hb.not_covers hr hl
    refine ⟨iff_of_false ?_ hnone, fun _ => rfl, fun hsome => absurd hsome hnone⟩
    dsimp only
    split
    · simp
    · intro heq
      obtain ⟨w, -, hw⟩ := Option.map_eq_some_iff.1 heq
      cases hw

/-- A reader asks about the first bytes of a file that another process has locked. -/
theorem lfGetlock_reports_whole :
    let fl : Flock := ⟨.rdlck, 0, 0, 10, 0⟩
    let lock : Lockf := { lfType := .rdlck, lfStart := 0, lfEnd := 9, lfId := 2, addr := 5, lfFlags := ⟨false, false, true⟩ }
    (lfSetlock {} lock afterWhole = some (.eagain, afterWhole) ↔ ∃ lf ∈ afterWhole.locks, lf.toSpan.Blocks lock.toSpan) ∧
    ((∀ lf ∈ afterWhole.locks, ¬lf.toSpan.Blocks lock.toSpan) →
      lfGetlock Nat.cast lock.toSpan afterWhole fl = { fl with lType := .unlck }) ∧
    ((∃ lf ∈ afterWhole.locks, lf.toSpan.Blocks lock.toSpan) → ∃ lf ∈ afterWhole.locks, lf.toSpan.Blocks lock.toSpan ∧
      (lfGetlock Nat.cast lock.toSpan afterWhole fl).lType = lf.lfType ∧
      (lfGetlock Nat.cast lock.toSpan afterWhole fl).lPid = (if lf.lfFlags.fPosix then (lf.lfId : Int) else -1) ∧
      (lf.lfEnd - lf.lfStart < offMax → ∀ byte, (lfGetlock Nat.cast lock.toSpan afterWhole fl).Covers byte ↔ lf.Covers byte)) :=
  lfGetlock_reports careful_whole Nat.cast _ ⟨by decide, by decide, by decide, by decide⟩ rfl {}

end NetBSD.Vfs
