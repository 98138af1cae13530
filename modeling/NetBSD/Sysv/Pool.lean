import NetBSD.Sysv.Facility
import Mathlib.Data.List.Perm.Basic

/-!
# The pool of semaphores

The sets lie one behind the other from the start of the pool. `semget` puts a new one at the end, and `IPC_RMID`
closes the gap.
-/

namespace NetBSD.Sysv

open Function (update)

def Tiles (sema : Nat → SemidDs) : Nat → List Nat → Nat → Prop
  | b, [], e => b = e
  | b, i :: l, e => (sema i).semBase = b ∧ 0 < (sema i).semNsems ∧ Tiles sema (b + (sema i).semNsems) l e

variable {sema sema' : Nat → SemidDs} {l l₁ l₂ : List Nat} {b e i n : Nat}

theorem tiles_append : Tiles sema b (l₁ ++ l₂) e ↔ ∃ m, Tiles sema b l₁ m ∧ Tiles sema m l₂ e := by
  induction l₁ generalizing b with
  | nil => simp [Tiles]
  | cons i l₁ ih =>
    simp only [List.cons_append, Tiles, ih]
    constructor
    · rintro ⟨hbase, hpos, m, h₁, h₂⟩
      exact ⟨m, ⟨hbase, hpos, h₁⟩, h₂⟩
    · rintro ⟨m, ⟨hbase, hpos, h₁⟩, h₂⟩
      exact ⟨hbase, hpos, m, h₁, h₂⟩

theorem Tiles.le (h : Tiles sema b l e) : b ≤ e := by
  induction l generalizing b with
  | nil => exact Nat.le_of_eq h
  | cons i l ih =>
    have hle := ih h.2.2
    omega

theorem Tiles.bounds (h : Tiles sema b l e) (hi : i ∈ l) :
    b ≤ (sema i).semBase ∧ 0 < (sema i).semNsems ∧ (sema i).semBase + (sema i).semNsems ≤ e := by
  induction l generalizing b with
  | nil => cases hi
  | cons j l ih =>
    obtain ⟨hbase, hpos, hrest⟩ := h
    rcases List.mem_cons.mp hi with rfl | hi
    · have hle := hrest.le
      omega
    · obtain ⟨hle, hpos', hfits⟩ := ih hrest hi
      omega

theorem Tiles.congr (h : Tiles sema b l e) (hsame : ∀ i ∈ l, sema' i = sema i) : Tiles sema' b l e := by
  induction l generalizing b with
  | nil => exact h
  | cons i l ih =>
    obtain ⟨hbase, hpos, hrest⟩ := h
    have hi := hsame i List.mem_cons_self
    refine ⟨hi ▸ hbase, hi ▸ hpos, ?_⟩
    rw [hi]
    exact ih hrest fun j hj => hsame j (List.mem_cons_of_mem i hj)

theorem Tiles.down (h : Tiles sema b l e) (hn : n ≤ b)
    (hmoved : ∀ i ∈ l, sema' i = { sema i with semBase := (sema i).semBase - n }) :
    Tiles sema' (b - n) l (e - n) := by
  induction l generalizing b with
  | nil => exact congrArg (· - n) h
  | cons i l ih =>
    obtain ⟨hbase, hpos, hrest⟩ := h
    have hi := hmoved i List.mem_cons_self
    refine ⟨by rw [hi, ← hbase], by rw [hi]; exact hpos, ?_⟩
    have hnext := ih hrest (by omega) fun j hj => hmoved j (List.mem_cons_of_mem i hj)
    rw [hi]
    simp only
    rwa [show b - n + (sema i).semNsems = b + (sema i).semNsems - n by omega]

def Partitioned (info : Seminfo) (s : Facility) : Prop :=
  ∃ l : List Nat, l.Nodup ∧ (∀ i, i ∈ l ↔ i < info.semmni ∧ (s.sema i).semAlloc = true) ∧
    Tiles s.sema 0 l s.semtot ∧ s.semtot ≤ info.semmns

variable {info : Seminfo} {s s' : Facility} {ix : Nat}

theorem rmid_sema (info : Seminfo) (s : Facility) {j : Nat} (hne : j ≠ ix) :
    (s.rmid info ix).sema j =
      if j < info.semmni ∧ (s.sema j).semAlloc = true ∧ (s.sema ix).semBase < (s.sema j).semBase then
        { s.sema j with semBase := (s.sema j).semBase - (s.sema ix).semNsems }
      else s.sema j := by
  simp [Facility.rmid, hne]

theorem rmid_self (info : Seminfo) (s : Facility) :
    (s.rmid info ix).sema ix = { s.sema ix with semAlloc := false } := by
  simp [Facility.rmid]

theorem rmid_semAlloc (info : Seminfo) (s : Facility) {j : Nat} (hne : j ≠ ix) :
    ((s.rmid info ix).sema j).semAlloc = (s.sema j).semAlloc := by
  rw [rmid_sema info s hne]
  split_ifs <;> rfl

theorem Partitioned.rmid (h : Partitioned info s) (hix : ix < info.semmni) (halloc : (s.sema ix).semAlloc = true) :
    Partitioned info (s.rmid info ix) ∧ ∀ j < info.semmni, j ≠ ix → (s.sema j).semAlloc = true →
      ((s.rmid info ix).sema j = s.sema j ∧
        (s.sema j).semBase + (s.sema j).semNsems ≤ (s.sema ix).semBase) ∨
      ((s.rmid info ix).sema j = { s.sema j with semBase := (s.sema j).semBase - (s.sema ix).semNsems } ∧
        (s.sema ix).semBase + (s.sema ix).semNsems ≤ (s.sema j).semBase ∧
        (s.sema j).semBase + (s.sema j).semNsems ≤ s.semtot) := by
  obtain ⟨l, hnodup, hmem, htiles, hfits⟩ := h
  obtain ⟨l₁, l₂, rfl⟩ := List.append_of_mem ((hmem ix).mpr ⟨hix, halloc⟩)
  obtain ⟨m, h₁, hbase, hpos, h₂⟩ := tiles_append.mp htiles
  obtain ⟨hnot, hnodup'⟩ := List.nodup_cons.mp (List.nodup_middle.mp hnodup)
  rw [List.mem_append, not_or] at hnot
  have hfront : ∀ j ∈ l₁, (s.rmid info ix).sema j = s.sema j := fun j hj => by
    have hbounds := h₁.bounds hj
    rw [rmid_sema info s (ne_of_mem_of_not_mem hj hnot.1), if_neg (fun h => by omega)]
  have hbehind : ∀ j ∈ l₂, (s.rmid info ix).sema j =
      { s.sema j with semBase := (s.sema j).semBase - (s.sema ix).semNsems } := fun j hj => by
    have hbounds := h₂.bounds hj
    have hj' := (hmem j).mp (List.mem_append_right _ (List.mem_cons_of_mem ix hj))
    rw [rmid_sema info s (ne_of_mem_of_not_mem hj hnot.2), if_pos ⟨hj'.1, hj'.2, by omega⟩]
  refine ⟨⟨l₁ ++ l₂, hnodup', fun j => ?_, ?_, ?_⟩, fun j hj hne hjalloc => ?_⟩
  · by_cases hj : j = ix
    · subst hj
      rw [rmid_self]
      simp [hnot]
    · rw [rmid_semAlloc info s hj, ← hmem j]
      simp [hj]
  · have hdown := h₂.down (Nat.le_add_left _ m) hbehind
    rw [Nat.add_sub_cancel] at hdown
    exact tiles_append.mpr ⟨m, h₁.congr hfront, hdown⟩
  · exact (Nat.sub_le _ _).trans hfits
  · have hj' : j ∈ l₁ ∨ j ∈ l₂ := by
      have hjmem := (hmem j).mpr ⟨hj, hjalloc⟩
      simpa [hne] using hjmem
    rcases hj' with hj' | hj'
    · have hbounds := h₁.bounds hj'
      exact .inl ⟨hfront j hj', by omega⟩
    · have hbounds := h₂.bounds hj'
      exact .inr ⟨hbehind j hj', by omega, by omega⟩

def Facility.semAt (s : Facility) (j num : Nat) : Sem := s.sem ((s.sema j).semBase + num)

theorem Partitioned.semAt_rmid (h : Partitioned info s) (hix : ix < info.semmni)
    (halloc : (s.sema ix).semAlloc = true) {j num : Nat} (hj : j < info.semmni) (hne : j ≠ ix)
    (hjalloc : (s.sema j).semAlloc = true) (hnum : num < (s.sema j).semNsems) :
    (s.rmid info ix).semAt j num = s.semAt j num := by
  unfold Facility.semAt
  rcases (h.rmid hix halloc).2 j hj hne hjalloc with ⟨hsame, hfront⟩ | ⟨hmoved, hbehind, hfits⟩
  · rw [hsame]
    exact if_neg fun hc => by omega
  · rw [hmoved]
    have hk : (s.sema j).semBase - (s.sema ix).semNsems + num + (s.sema ix).semNsems =
        (s.sema j).semBase + num := by omega
    refine (if_pos ⟨?_, ?_⟩).trans (congrArg s.sem hk)
    · simp only
      omega
    · simp only
      omega

theorem clearEntries_perm (pre : List Undo) {ents : List Undo} {fuel : Nat} (hfuel : ents.length ≤ fuel) :
    (clearEntries ix (-1) fuel pre.length (pre ++ ents)).Perm (pre ++ ents.filter (·.unId ≠ ix)) := by
  induction fuel generalizing pre ents with
  | zero =>
    obtain rfl := List.eq_nil_of_length_eq_zero (Nat.le_zero.mp hfuel)
    exact .refl _
  | succ fuel ih =>
    cases ents with
    | nil => simp [clearEntries]
    | cons u ents =>
      rw [List.length_cons] at hfuel
      have hnext : (clearEntries ix (-1) fuel (pre.length + 1) (pre ++ u :: ents)).Perm
          (pre ++ u :: ents.filter (·.unId ≠ ix)) := by
        simpa using @ih (pre ++ [u]) ents (by omega)
      rw [clearEntries, List.getElem?_append_right (Nat.le_refl _), Nat.sub_self, List.getElem?_cons_zero]
      dsimp only
      by_cases hu : u.unId = ix
      · rw [if_pos hu, if_pos (.inl rfl), List.filter_cons_of_neg (by simpa using hu)]
        obtain rfl | ⟨rest, z, rfl⟩ := List.eq_nil_or_concat ents
        · -- the entry that goes is the last one
          rw [if_neg (by simp), if_neg (by simp)]
          cases fuel <;> simp [clearEntries]
        · have hset : ((pre ++ u :: (rest ++ [z])).set pre.length
              ((pre ++ u :: (rest ++ [z])).getLastD u)).dropLast = pre ++ z :: rest := by
            have hlast : (pre ++ u :: (rest ++ [z])).getLastD u = z := by
              rw [← List.cons_append, ← List.append_assoc, List.getLastD_concat]
            rw [hlast, List.set_append_right _ _ (Nat.le_refl _), Nat.sub_self, List.set_cons_zero,
              ← List.cons_append, ← List.append_assoc, List.dropLast_concat]
          rw [List.concat_eq_append] at hfuel ⊢
          rw [hset, if_pos (by simp)]
          refine (@ih pre (z :: rest) ?_).trans ?_
          · simp only [List.length_append, List.length_cons, List.length_nil] at hfuel ⊢
            omega
          · exact ((List.perm_append_singleton z rest).symm.filter _).append_left pre
      · rw [if_neg hu, List.filter_cons_of_pos (by simpa using hu)]
        exact hnext

theorem semundoClear_forall₂ (ix : Nat) (list : List SemUndo) :
    List.Forall₂ (fun suptr suptr' => suptr'.unProc = suptr.unProc ∧
      suptr'.unEnt.Perm (suptr.unEnt.filter (·.unId ≠ ix))) list (semundoClear ix (-1) list) := by
  rw [semundoClear, List.forall₂_map_right_iff, List.forall₂_same]
  exact fun suptr _ => ⟨rfl, clearEntries_perm [] (Nat.le_refl _)⟩

theorem semopRound_sema {a : SemopArgs} {doUndos : Bool} {s : Semaphores} {r : Progress × Semaphores}
    (h : semopRound a doUndos s = some r) : r.2.sema = s.sema := by
  unfold semopRound at h
  dsimp only at h
  split at h
  · obtain ⟨⟨e, list⟩, -, rfl⟩ := Option.map_eq_some_iff.mp h
    cases e <;> rfl
  · obtain rfl := Option.some.inj h
    rfl
  · split at h
    · obtain rfl := Option.some.inj h
      rfl
    · obtain rfl := Option.some.inj h
      rfl

theorem semopStart_cases {a : SemopArgs} {s : Semaphores} {r : Progress × Semaphores}
    (h : semopStart a s = some r) : (∃ e, r = (.returned (some e), s)) ∨
      ((s.sema a.ix).semAlloc = true ∧ (s.sema a.ix).seq = a.seq) ∧ semopRound a false s = some r := by
  unfold semopStart at h
  split at h
  · exact .inl ⟨_, (Option.some.inj h).symm⟩
  · next hfound =>
    push Not at hfound
    cases hperm : a.ipcperm with
    | some e =>
      rw [hperm] at h
      exact .inl ⟨e, (Option.some.inj h).symm⟩
    | none =>
      rw [hperm] at h
      dsimp only at h
      split at h
      · exact .inl ⟨_, (Option.some.inj h).symm⟩
      · cases hcopy : a.copyin with
        | some e =>
          rw [hcopy] at h
          exact .inl ⟨e, (Option.some.inj h).symm⟩
        | none =>
          rw [hcopy] at h
          exact .inr ⟨⟨by simpa using hfound.2.1, hfound.2.2⟩, h⟩

theorem semopStart_sema {a : SemopArgs} {s : Semaphores} {r : Progress × Semaphores}
    (h : semopStart a s = some r) : r.2.sema = s.sema := by
  obtain ⟨e, rfl⟩ | ⟨-, hround⟩ := semopStart_cases h
  · rfl
  · exact semopRound_sema hround

theorem semopWake_sema {a : SemopArgs} {w : Waiting} {wake : Wakeup} {r : Progress × Semaphores}
    (h : semopWake a w wake = some r) : r.2.sema = wake.sys.sema := by
  unfold semopWake at h
  dsimp only at h
  split at h
  · obtain rfl := Option.some.inj h
    rfl
  · split at h
    · obtain rfl := Option.some.inj h
      rfl
    · have hsame := semopRound_sema h
      exact hsame

theorem Partitioned.congr (h : Partitioned info s) (hsema : s'.sema = s.sema) (hsemtot : s'.semtot = s.semtot) :
    Partitioned info s' := by
  obtain ⟨l, hnodup, hmem, htiles, hfits⟩ := h
  exact ⟨l, hnodup, by rwa [hsema], by rwa [hsema, hsemtot], by rwa [hsemtot]⟩

def Facility.created (s : Facility) (i : Nat) (key : Int) (n : Nat) : Facility :=
  { s with
    key := update s.key i key
    sema := update s.sema i
      { semAlloc := true, seq := ((s.sema i).seq + 1) % 2 ^ 15, semBase := s.semtot, semNsems := n }
    semtot := s.semtot + n
    sem := fun k => if s.semtot ≤ k ∧ k < s.semtot + n then {} else s.sem k }

theorem semget_cases (info : Seminfo) (key nsems : Int) (creat excl : Bool) (ipcperm : Option Errno)
    (s : Facility) : (semget info key nsems creat excl ipcperm s).2 = s ∨
      ∃ i n, i < info.semmni ∧ (s.sema i).semAlloc = false ∧ 0 < n ∧ s.semtot + n ≤ info.semmns ∧
        (semget info key nsems creat excl ipcperm s).2 = s.created i key n := by
  unfold semget
  dsimp only
  split
  · split
    · exact .inl rfl
    · split_ifs <;> exact .inl rfl
  · split_ifs
    · exact .inl rfl
    · exact .inl rfl
    · split
      · exact .inl rfl
      · next i hfind =>
        refine .inr ⟨i, nsems.toNat, List.mem_range.mp (List.mem_of_find?_eq_some hfind),
          by simpa using List.find?_some hfind, by omega, by omega, rfl⟩
    · exact .inl rfl

theorem Partitioned.created (h : Partitioned info s) {i n : Nat} (key : Int) (hi : i < info.semmni)
    (hfree : (s.sema i).semAlloc = false) (hn : 0 < n) (hroom : s.semtot + n ≤ info.semmns) :
    Partitioned info (s.created i key n) := by
  obtain ⟨l, hnodup, hmem, htiles, -⟩ := h
  have hil : i ∉ l := fun hl => by
    rw [(hmem i).mp hl |>.2] at hfree
    cases hfree
  unfold Facility.created
  refine ⟨l ++ [i], List.nodup_append.mpr ⟨hnodup, by simp, fun a ha b hb heq => ?_⟩, fun j => ?_,
    tiles_append.mpr ⟨s.semtot, htiles.congr fun j hj => ?_, ?_⟩, hroom⟩
  · obtain rfl := List.mem_singleton.mp hb
    exact hil (heq ▸ ha)
  · by_cases hj : j = i
    · subst hj
      simp [hi]
    · simp [hj, hmem]
  · simp [ne_of_mem_of_not_mem hj hil]
  · simp only [Tiles, Function.update_self, true_and, and_true]
    exact hn

theorem semexit_sema {p : Nat} (h : semexit p s = some s') : s'.sema = s.sema ∧ s'.semtot = s.semtot := by
  unfold semexit at h
  split at h
  · obtain rfl := Option.some.inj h
    exact ⟨rfl, rfl⟩
  · obtain ⟨sem, -, rfl⟩ := Option.map_eq_some_iff.mp h
    exact ⟨rfl, rfl⟩

structure Pooled (info : Seminfo) (s : Facility) : Prop where
  partitioned : Partitioned info s
  inArray : ∀ i, (s.sema i).semAlloc = true → i < info.semmni

theorem Pooled.congr (h : Pooled info s) (hsema : s'.sema = s.sema) (hsemtot : s'.semtot = s.semtot) :
    Pooled info s' :=
  ⟨h.partitioned.congr hsema hsemtot, by rw [hsema]; exact h.inArray⟩

theorem Pooled.goes (h : Pooled info s) {a : SemopArgs} {r : Progress × Semaphores} (hsema : r.2.sema = s.sema) :
    Pooled info (s.goes a r) := by
  unfold Facility.goes
  split
  · exact h.congr hsema rfl
  · exact h.congr hsema rfl

theorem Pooled.rmid (h : Pooled info s) (halloc : (s.sema ix).semAlloc = true) : Pooled info (s.rmid info ix) := by
  refine ⟨(h.partitioned.rmid (h.inArray ix halloc) halloc).1, fun j hj => ?_⟩
  by_cases hne : j = ix
  · exact hne ▸ h.inArray ix halloc
  · rw [rmid_semAlloc info s hne] at hj
    exact h.inArray j hj

theorem Pooled.semget (h : Pooled info s) (key nsems : Int) (creat excl : Bool) (ipcperm : Option Errno) :
    Pooled info (semget info key nsems creat excl ipcperm s).2 := by
  obtain heq | ⟨i, n, hi, hfree, hn, hroom, heq⟩ := semget_cases info key nsems creat excl ipcperm s
  · rw [heq]
    exact h
  · rw [heq]
    refine ⟨h.partitioned.created key hi hfree hn hroom, fun j hj => ?_⟩
    by_cases hji : j = i
    · exact hji ▸ hi
    · exact h.inArray j (by simpa [Facility.created, hji] using hj)

theorem semctl_cases (info : Seminfo) (semid : Word32) (semnum : Int) (cmd : Semcmd) (ipcperm : Option Errno)
    (s : Facility) :
    (∃ e, semctl info semid semnum cmd ipcperm s = (.error e, s)) ∨
      (s.sema (ipcidToIx semid)).semAlloc = true ∧ (s.sema (ipcidToIx semid)).seq = ipcidToSeq semid ∧
      ((cmd = .ipcRmid ∧ semctl info semid semnum cmd ipcperm s = (.ok 0, s.rmid info (ipcidToIx semid))) ∨
        ∃ r s', semctl info semid semnum cmd ipcperm s = (r, s') ∧ cmd ≠ .ipcRmid ∧ s'.sema = s.sema ∧
          s'.semtot = s.semtot) := by
  unfold semctl
  dsimp only
  split
  · exact .inl ⟨_, rfl⟩
  · next hfound =>
    push Not at hfound
    cases ipcperm with
    | some e => exact .inl ⟨e, rfl⟩
    | none =>
      dsimp only
      have halloc : (s.sema (ipcidToIx semid)).semAlloc = true := by simpa using hfound.2.1
      cases cmd with
      | ipcRmid => exact .inr ⟨halloc, hfound.2.2, .inl ⟨rfl, rfl⟩⟩
      | setval val =>
        dsimp only
        split
        · exact .inl ⟨_, rfl⟩
        · cases val with
          | none => exact .inl ⟨_, rfl⟩
          | some val => exact .inr ⟨halloc, hfound.2.2, .inr ⟨_, _, rfl, by simp, rfl, rfl⟩⟩
      | setall array => exact .inr ⟨halloc, hfound.2.2, .inr ⟨_, _, rfl, by simp, rfl, rfl⟩⟩

theorem Pooled.step {call : SemCall} (h : Pooled info s) (hstep : s.step info call = some s') :
    Pooled info s' := by
  cases call with
  | semget key nsems creat excl ipcperm =>
    obtain rfl := Option.some.inj hstep
    exact h.semget key nsems creat excl ipcperm
  | semctl semid semnum cmd ipcperm =>
    obtain rfl := Option.some.inj hstep
    rcases semctl_cases info semid semnum cmd ipcperm s with
      ⟨e, hr⟩ | ⟨halloc, -, ⟨-, hr⟩ | ⟨r, s₁, hr, -, hsema, hsemtot⟩⟩
    · rw [hr]
      exact h
    · rw [hr]
      exact h.rmid halloc
    · rw [hr]
      exact h.congr hsema hsemtot
  | semop a =>
    obtain ⟨r, hr, rfl⟩ := Option.map_eq_some_iff.mp hstep
    exact h.goes (semopStart_sema hr)
  | wake i interrupted =>
    simp only [Facility.step] at hstep
    split at hstep
    · obtain rfl := Option.some.inj hstep
      exact h
    · obtain ⟨r, hr, rfl⟩ := Option.map_eq_some_iff.mp hstep
      have h' : Pooled info { s with asleep := s.asleep.eraseIdx i } := h.congr rfl rfl
      exact h'.goes (semopWake_sema hr)
  | semexit p =>
    obtain ⟨hsema, hsemtot⟩ := semexit_sema hstep
    exact h.congr hsema hsemtot

theorem pooled (hrun : Facility.Reached info s) : Pooled info s := by
  refine hrun.invariant ?_ fun s call s' h _ hstep => h.step hstep
  intro s h
  refine ⟨⟨[], List.nodup_nil, fun i => by simp [h.sema], h.semtot.symm, ?_⟩, fun i hi => ?_⟩
  · rw [h.semtot]
    exact Nat.zero_le _
  · rw [h.sema] at hi
    cases hi

theorem Pooled.place_inj (h : Pooled info s) {i j num num' : Nat} (hi : (s.sema i).semAlloc = true)
    (hj : (s.sema j).semAlloc = true) (hnum' : num' < (s.sema i).semNsems) (hnum : num < (s.sema j).semNsems)
    (heq : (s.sema j).semBase + num = (s.sema i).semBase + num') : j = i ∧ num = num' := by
  by_cases hji : j = i
  · subst hji
    exact ⟨rfl, Nat.add_left_cancel heq⟩
  · rcases (h.partitioned.rmid (h.inArray i hi) hi).2 j (h.inArray j hj) hji hj with
      ⟨-, hfront⟩ | ⟨-, hbehind, -⟩ <;> omega

/-- What the removal of the set `ix` does to the rest: nothing to the semaphores of other sets, nor to undo entries
for them; and the sets left lie one behind the other from the start of the pool. -/
structure Removed (info : Seminfo) (ix : Nat) (s s' : Facility) : Prop where
  gone : (s'.sema ix).semAlloc = false
  others : ∀ j, j ≠ ix → (s.sema j).semAlloc = true → (s'.sema j).semAlloc = true ∧
    (s'.sema j).seq = (s.sema j).seq ∧ (s'.sema j).semNsems = (s.sema j).semNsems ∧
    ∀ num < (s.sema j).semNsems, s'.semAt j num = s.semAt j num
  partitioned : Partitioned info s'
  undos : List.Forall₂ (fun suptr suptr' => suptr'.unProc = suptr.unProc ∧
    suptr'.unEnt.Perm (suptr.unEnt.filter (·.unId ≠ ix))) s.semuList s'.semuList

theorem Pooled.removed (h : Pooled info s) (halloc : (s.sema ix).semAlloc = true) :
    Removed info ix s (s.rmid info ix) where
  gone := by rw [rmid_self]
  others j hne hj := by
    have hsame := h.partitioned.rmid (h.inArray ix halloc) halloc
    have hval : ∀ num < (s.sema j).semNsems, (s.rmid info ix).semAt j num = s.semAt j num := fun num hnum =>
      h.partitioned.semAt_rmid (h.inArray ix halloc) halloc (h.inArray j hj) hne hj hnum
    rcases hsame.2 j (h.inArray j hj) hne hj with ⟨heq, -⟩ | ⟨heq, -⟩
    · rw [heq]
      exact ⟨hj, rfl, rfl, hval⟩
    · rw [heq]
      exact ⟨hj, rfl, rfl, hval⟩
  partitioned := (h.rmid halloc).partitioned
  undos := semundoClear_forall₂ ix s.semuList

def Facility.Finds (s : Facility) (semid : Word32) : Prop :=
  ipcidToIx semid < semmsl ∧ (s.sema (ipcidToIx semid)).semAlloc = true ∧
    (s.sema (ipcidToIx semid)).seq = ipcidToSeq semid

theorem semctl_fails (info : Seminfo) {semid : Word32} {ipcperm : Option Errno} (hnot : ¬ (s.Finds semid ∧ ipcperm = none))
    (semnum : Int) (cmd : Semcmd) : ∃ e, semctl info semid semnum cmd ipcperm s = (.error e, s) := by
  unfold semctl
  dsimp only
  split
  · exact ⟨_, rfl⟩
  · next hfound =>
    push Not at hfound
    cases ipcperm with
    | some e => exact ⟨e, rfl⟩
    | none =>
      have halloc : (s.sema (ipcidToIx semid)).semAlloc = true := by simpa using hfound.2.1
      exact absurd ⟨⟨hfound.1, halloc, hfound.2.2⟩, rfl⟩ hnot

theorem Facility.Finds.not_absent {semid : Word32} (h : s.Finds semid) : ¬ (ipcidToIx semid ≥ semmsl ∨
    (s.sema (ipcidToIx semid)).semAlloc = false ∨ (s.sema (ipcidToIx semid)).seq ≠ ipcidToSeq semid) := by
  obtain ⟨hix, halloc, hseq⟩ := h
  simp [halloc, hseq, hix]

/-- **`IPC_RMID` keeps the other sets**: in every state that the facility gets to, it removes the set and no more, or
fails for want of a set or of permission and changes nothing. -/
theorem semctl_rmid (hrun : Facility.Reached info s) (semid : Word32) (semnum : Int) (ipcperm : Option Errno) :
    (s.Finds semid ∧ ipcperm = none → ∃ s', semctl info semid semnum .ipcRmid ipcperm s = (.ok 0, s') ∧
      Removed info (ipcidToIx semid) s s') ∧
    (¬ (s.Finds semid ∧ ipcperm = none) → ∃ e, semctl info semid semnum .ipcRmid ipcperm s = (.error e, s)) := by
  constructor
  · rintro ⟨hfinds, rfl⟩
    refine ⟨s.rmid info (ipcidToIx semid), ?_, (pooled hrun).removed hfinds.2.1⟩
    unfold semctl
    dsimp only
    rw [if_neg hfinds.not_absent]
  · exact fun hnot => semctl_fails _ hnot semnum .ipcRmid

def generic : Seminfo := ⟨10, 60⟩

def booted : Facility where
  sema _ := {}
  sem _ := {}
  semuList := []
  semmnu := 30

def twoSets : Facility := (semget generic 0 2 true false none (semget generic 0 1 true false none booted).2).2

theorem reached_booted : Facility.Reached generic booted := .start ⟨fun _ => rfl, rfl, rfl, rfl⟩

theorem reached_twoSets : Facility.Reached generic twoSets :=
  .call (.semget 0 2 true false none) (.call (.semget 0 1 true false none) reached_booted trivial rfl) trivial rfl

theorem semctl_rmid_twoSets : ∃ s', semctl generic 0x10000 0 .ipcRmid none twoSets = (.ok 0, s') ∧
    Removed generic 0 twoSets s' :=
  (semctl_rmid reached_twoSets 0x10000 0 none).1 ⟨⟨by decide, rfl, rfl⟩, rfl⟩

end NetBSD.Sysv
