import NetBSD.Shm.Accounts

/-!
# The calls on segments

Each event keeps the accounts: the creation of a segment finds a free one, `shmat` finds the segment that it looked up
before it slept still live, and no count of entries leaves a `short`.
-/

namespace NetBSD.Shm

def Sys.Counted (c : Shminfo) (s : Sys) : Prop := s.Sound c fun _ => False

def Returns (c : Shminfo) (o : Option (Reply × Sys)) : Prop := ∃ r s', o = some (r, s') ∧ s'.Counted c

namespace Sys

variable {c : Shminfo} {s s' : Sys} {p : Proc} {pid i : Nat} {ipcperm : Option Errno}

theorem short_eq {n : Nat} (hlt : n < 32768) : short n = n := by
  unfold short
  rw [Int.bmod_eq_of_le] <;> omega

theorem Counted.ret (hs : s.Counted c) (value : Except Errno Nat) : Returns c (s.ret value) := ⟨_, _, rfl, hs⟩

theorem split_table {shmmap : List ShmmapState} {slot : Nat} {e : ShmmapState} (he : shmmap[slot]? = some e) :
    ∃ l₁ l₂, shmmap = l₁ ++ e :: l₂ ∧ (∀ f, shmmap.modify slot f = l₁ ++ f e :: l₂) ∧
      ∀ e', shmmap.set slot e' = l₁ ++ e' :: l₂ := by
  obtain ⟨hlt, rfl⟩ := List.getElem?_eq_some_iff.1 he
  refine ⟨shmmap.take slot, shmmap.drop (slot + 1), ?_, fun f => List.modify_eq_take_cons_drop hlt,
    fun e' => List.set_eq_take_append_cons_drop.trans (if_pos hlt)⟩
  rw [← List.drop_eq_getElem_cons hlt, List.take_append_drop]

theorem attached_entry {shmmap : List ShmmapState} {slot : Nat} {e e' : ShmmapState} (ht : p.vmShm = some shmmap)
    (he : shmmap[slot]? = some e) {q : Proc} (hq : q.vmShm = some (shmmap.set slot e')) (i : Nat) :
    q.attached i + (if e.names i then 1 else 0) = p.attached i + if e'.names i then 1 else 0 := by
  obtain ⟨l₁, l₂, rfl, -, hset⟩ := split_table he
  simp only [Proc.attached, Proc.entries, ht, hq, Option.getD_some, hset, List.countP_append, List.countP_cons]
  omega

theorem modify_eq_set {shmmap : List ShmmapState} {slot : Nat} {e : ShmmapState} (he : shmmap[slot]? = some e)
    (f : ShmmapState → ShmmapState) : shmmap.modify slot f = shmmap.set slot (f e) := by
  obtain ⟨l₁, l₂, -, hmodify, hset⟩ := split_table he
  rw [hmodify, hset]

theorem names_none {e : ShmmapState} (he : e.shmid = none) : e.names i = false := by
  rw [ShmmapState.names, he]
  rfl

theorem names_some {e : ShmmapState} {id : Nat} (he : e.shmid = some id) : e.names i = (ipcidToIx id == i) := by
  rw [ShmmapState.names, he]
  rfl

theorem unmap_eq {shmmap : List ShmmapState} {slot : Nat} {e : ShmmapState} (ht : p.vmShm = some shmmap)
    (he : shmmap[slot]? = some e) :
    p.unmap slot = { p with vmShm := some (shmmap.set slot { e with shmid := none }) } := by
  rw [Proc.unmap, ht, Option.map_some, modify_eq_set he]

theorem setSeg_nattch (s : Sys) (segnum : Nat) (g : Int → Int) (i : Nat) :
    (s.setSeg segnum fun d => { d with shmNattch := g d.shmNattch }).shmsegs i =
      { s.shmsegs i with shmNattch := if i = segnum then g (s.shmsegs i).shmNattch else (s.shmsegs i).shmNattch } := by
  rcases eq_or_ne i segnum with rfl | hi
  · rw [if_pos rfl]
    exact Function.update_self ..
  · rw [if_neg hi]
    exact Function.update_of_ne hi ..

theorem Counted.deleteMapping {shmmap : List ShmmapState} {slot id : Nat} {e : ShmmapState} (hs : s.Counted c)
    (hp : s.procs[pid]? = some p) (ht : p.vmShm = some shmmap) (he : shmmap[slot]? = some e) (hid : e.shmid = some id)
    (hsleep : p.sleep = none) : (s.shmDeleteMapping pid slot id).Counted c := by
  have hok := hs.ok hp
  have hentries : p.entries = shmmap := by rw [Proc.entries, ht, Option.getD_some]
  obtain ⟨hin, -⟩ := hok.entries e (hentries ▸ List.mem_of_getElem? he) id hid
  have hunmap := unmap_eq ht he
  have hattached : ∀ i, (s.setProc pid (Proc.unmap slot)).attached i + (if ipcidToIx id = i then 1 else 0) = s.attached i := by
    intro i
    have hentry := attached_entry ht he (congrArg Proc.vmShm hunmap) i
    rw [names_none (show ({ e with shmid := none } : ShmmapState).shmid = none from rfl), names_some hid] at hentry
    simp only [beq_iff_eq, Bool.false_eq_true, ↓reduceIte, Nat.add_zero] at hentry
    have := attached_setProc hp (Proc.unmap slot) i
    omega
  have hcreating : (s.setProc pid (Proc.unmap slot)).creating.Perm s.creating := by
    obtain ⟨l, hold, hnew⟩ := creating_setProc hp (Proc.unmap slot)
    exact hnew.trans hold.symm
  have hnattch : ∀ i < c.shmmni, (if i = ipcidToIx id then short ((s.shmsegs i).shmNattch - 1) else (s.shmsegs i).shmNattch) =
      (s.setProc pid (Proc.unmap slot)).attached i := by
    intro i hi
    have hsum := hattached i
    have hsmall := hs.small i hi
    rw [hs.nattch i hi]
    split
    · next heq =>
      rw [if_pos heq.symm] at hsum
      rw [← short_eq (show (s.setProc pid (Proc.unmap slot)).attached i < 32768 by omega)]
      congr 1
      omega
    · next hne =>
      rw [if_neg (Ne.symm hne)] at hsum
      omega
  have hs₁ : ((s.setProc pid (Proc.unmap slot)).setSeg (ipcidToIx id) fun d =>
      { d with shmNattch := short (d.shmNattch - 1) }).Sound c (· = ipcidToIx id) := by
    refine hs.recount (fun i => setSeg_nattch _ _ (fun n => short (n - 1)) i) hnattch (fun i hi => ?_) rfl rfl rfl hcreating
      (fun i hne => ?_) fun q hq => ?_
    · have := hattached i
      have := hs.small i hi
      change (s.setProc pid (Proc.unmap slot)).attached i < 32768
      omega
    · refine ⟨fun h => h, fun hpos => ?_⟩
      have hsum := hattached i
      rw [if_neg (Ne.symm hne)] at hsum
      change 0 < (s.setProc pid (Proc.unmap slot)).attached i
      omega
    · rcases mem_setProc hp hq with rfl | hq
      · rw [hunmap]
        refine ⟨fun x hx y hy => ?_, fun t h => ?_, fun uap slot segnum h => ?_, fun uap h => ?_⟩
        · rcases List.mem_or_eq_of_mem_set hx with hx | rfl
          · exact hok.entries x (hentries ▸ hx) y hy
          · cases hy
        · rw [← Option.some.inj h, List.length_set]
          exact hok.table _ ht
        · rw [hsleep] at h
          cases h
        · rw [hsleep] at h
          cases h
      · exact hs.procs q hq
  refine hs₁.settle (mem_live.2 ?_)
  obtain ⟨hlt, hall, hnot⟩ := mem_live.1 hin
  refine ⟨hlt, ?_, fun h => hnot (hcreating.mem_iff.1 h)⟩
  rw [setSeg_nattch _ _ (fun n => short (n - 1))]
  exact hall

theorem proc_deleteMapping (hp : s.procs[pid]? = some p) (slot id : Nat) :
    (s.shmDeleteMapping pid slot id).procs[pid]? = some (p.unmap slot) := by
  rw [shmDeleteMapping]
  split <;> exact getElem?_setProc hp (Proc.unmap slot)

structure Exiting (pid k : Nat) (shmmap : List ShmmapState) (s : Sys) : Prop where
  proc : ∃ q shmmap', s.procs[pid]? = some q ∧ q.sleep = none ∧ q.vmShm = some shmmap' ∧
    (∀ j < k, ∀ e, shmmap'[j]? = some e → e.shmid = none) ∧ ∀ j, k ≤ j → shmmap'[j]? = shmmap[j]?

theorem Counted.exitLoop {shmmap : List ShmmapState} (hs : s.Counted c) (hp : s.procs[pid]? = some p)
    (ht : p.vmShm = some shmmap) (hsleep : p.sleep = none) (k : Nat) :
    ((List.range k).foldl (fun s i => s.exitLoop pid p i) s).Counted c ∧
      Exiting pid k shmmap ((List.range k).foldl (fun s i => s.exitLoop pid p i) s) := by
  induction k with
  | zero => exact ⟨hs, p, shmmap, hp, hsleep, ht, fun j hj => absurd hj (Nat.not_lt_zero j), fun j _ => rfl⟩
  | succ k ih =>
    rw [List.range_succ, List.foldl_append, List.foldl_cons, List.foldl_nil]
    generalize (List.range k).foldl (fun s i => s.exitLoop pid p i) s = s₁ at ih ⊢
    obtain ⟨hs₁, q, shmmap', hq, hqsleep, hqt, hdone, hrest⟩ := ih
    have hk : shmmap'[k]? = shmmap[k]? := hrest k (Nat.le_refl k)
    unfold Sys.exitLoop
    rw [ht, Option.getD_some, ← hk]
    cases hid : (shmmap'[k]?).bind ShmmapState.shmid with
    | none =>
      refine ⟨hs₁, q, shmmap', hq, hqsleep, hqt, fun j hj e he => ?_, fun j hj => hrest j (Nat.le_of_succ_le hj)⟩
      rcases Nat.lt_succ_iff_lt_or_eq.1 hj with hlt | rfl
      · exact hdone j hlt e he
      · rw [he] at hid
        exact hid
    | some id =>
      obtain ⟨e, he, hshmid⟩ := Option.bind_eq_some_iff.1 hid
      refine ⟨hs₁.deleteMapping hq hqt he hshmid hqsleep, q.unmap k, _, proc_deleteMapping hq k id, hqsleep,
        congrArg Proc.vmShm (unmap_eq hqt he), fun j hj x hx => ?_, fun j hj => ?_⟩
      · rcases Nat.lt_succ_iff_lt_or_eq.1 hj with hlt | rfl
        · rw [List.getElem?_set_ne (Nat.ne_of_gt hlt)] at hx
          exact hdone j hlt x hx
        · rw [List.getElem?_set_self (List.getElem?_eq_some_iff.1 he).1] at hx
          exact Option.some.inj hx ▸ rfl
      · rw [List.getElem?_set_ne (Nat.ne_of_lt hj)]
        exact hrest j (Nat.le_of_succ_le hj)

theorem Counted.shmexit (hs : s.Counted c) (hp : s.procs[pid]? = some p) (hshm : p.vmShm.isSome) (hsleep : p.sleep = none) :
    (s.shmexit c pid p).Counted c ∧ ∃ q, (s.shmexit c pid p).procs[pid]? = some q ∧ q.sleep = none ∧ q.vmShm = none := by
  obtain ⟨shmmap, ht⟩ := Option.isSome_iff_exists.1 hshm
  obtain ⟨hs₁, q, shmmap', hq, hqsleep, hqt, hdone, -⟩ := hs.exitLoop hp ht hsleep c.shmseg
  rw [Sys.shmexit]
  generalize (List.range c.shmseg).foldl (fun s i => s.exitLoop pid p i) s = s₁ at *
  refine ⟨hs₁.setProc hq rfl (fun i => ?_) ⟨fun e he => ?_, fun t h => ?_, fun uap slot segnum h => ?_,
    fun _ _ => rfl⟩, _, getElem?_setProc hq _, hqsleep, rfl⟩
  · have hlen := (hs₁.ok hq).table shmmap' hqt
    have hzero : q.attached i = 0 := by
      rw [Proc.attached, Proc.entries, hqt, Option.getD_some]
      refine List.countP_eq_zero.2 fun e he hnames => ?_
      obtain ⟨j, hj, rfl⟩ := List.getElem_of_mem he
      rw [names_none (hdone j (hlen ▸ hj) _ (List.getElem?_eq_getElem hj))] at hnames
      cases hnames
    rw [hzero]
    rfl
  · cases he
  · cases h
  · rw [hqsleep] at h
    cases h

theorem forkLoop_spec (l : List ShmmapState) (s : Sys) : ∃ m : Nat → Int,
    l.foldl forkLoop s = { s with shmsegs := fun i => { s.shmsegs i with shmNattch := m i } } ∧
      ∀ i (n : Nat), (s.shmsegs i).shmNattch = n → n + l.countP (ShmmapState.names i) < 32768 →
        m i = (n + l.countP (ShmmapState.names i) : Nat) := by
  induction l generalizing s with
  | nil => exact ⟨fun i => (s.shmsegs i).shmNattch, rfl, fun i n hn _ => hn⟩
  | cons e l ih =>
    obtain ⟨m, hm, hcount⟩ := ih (forkLoop s e)
    rw [List.foldl_cons, hm]
    unfold forkLoop at hcount ⊢
    cases hid : e.shmid with
    | none =>
      rw [hid] at hcount
      refine ⟨m, rfl, fun i n hn hlt => ?_⟩
      rw [List.countP_cons_of_neg (by rw [names_none hid]; exact Bool.false_ne_true)] at hlt ⊢
      exact hcount i n hn hlt
    | some id =>
      rw [hid] at hcount
      dsimp only at hcount ⊢
      refine ⟨m, ?_, fun i n hn hlt => ?_⟩
      · have hsegs : ∀ i, { ((s.setSeg (ipcidToIx id) fun d => { d with shmNattch := short (d.shmNattch + 1) }).shmsegs i) with
            shmNattch := m i } = { s.shmsegs i with shmNattch := m i } := by
          intro i
          rw [setSeg_nattch _ _ (fun n => short (n + 1))]
        simp only [hsegs]
        rfl
      · simp only [List.countP_cons, names_some hid, beq_iff_eq] at hlt ⊢
        have hstep : ((s.setSeg (ipcidToIx id) fun d => { d with shmNattch := short (d.shmNattch + 1) }).shmsegs i).shmNattch =
            ((n + if ipcidToIx id = i then 1 else 0 : Nat) : Int) := by
          rw [setSeg_nattch _ _ (fun n => short (n + 1)), hn]
          rcases eq_or_ne i (ipcidToIx id) with rfl | hi
          · rw [if_pos rfl, if_pos rfl]
            rw [if_pos rfl] at hlt
            dsimp only
            exact short_eq (show n + 1 < 32768 by omega)
          · rw [if_neg hi, if_neg hi.symm]
            rfl
        rw [hcount i _ hstep (by omega)]
        omega

theorem Counted.shmfork (hs : s.Counted c) (hp : s.procs[pid]? = some p)
    (hroom : ∀ i < c.shmmni, s.attached i + p.attached i < 32768) : (s.shmfork p).Counted c := by
  obtain ⟨m, hm, hcount⟩ := forkLoop_spec p.entries s
  have hfork : s.shmfork p = { s with
      shmsegs := fun i => { s.shmsegs i with shmNattch := m i }
      procs := s.procs ++ [{ alive := true, vmShm := p.vmShm, sleep := none }] } := by
    rw [Proc.entries] at hm
    rw [Sys.shmfork, hm]
  have hattached : ∀ i, (s.shmfork p).attached i = s.attached i + p.attached i := by
    intro i
    rw [hfork]
    simp only [attached, List.map_append, List.map_cons, List.map_nil, List.sum_append, List.sum_cons, List.sum_nil,
      Nat.add_zero]
    rfl
  have hok := hs.ok hp
  refine hs.recount (m := m) (fun i => by rw [hfork]) (fun i hi => ?_) (fun i hi => ?_) (by rw [hfork]) (by rw [hfork])
    (by rw [hfork]) ?_ (fun i hne => ⟨hne, fun hpos => ?_⟩) fun q hq => ?_
  · rw [hattached]
    exact hcount i _ (hs.nattch i hi) (hroom i hi)
  · rw [hattached]
    exact hroom i hi
  · rw [hfork, creating, creating, List.filterMap_append, List.filterMap_cons_none rfl, List.filterMap_nil, List.append_nil]
  · rw [hattached]
    omega
  · rw [hfork] at hq
    rcases List.mem_append.1 hq with hq | hq
    · exact hs.procs q hq
    · obtain rfl := List.mem_singleton.1 hq
      exact ⟨hok.entries, hok.table, fun _ _ _ h => (by cases h), fun _ h => by cases h⟩

end Sys

end NetBSD.Shm
