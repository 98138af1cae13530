import NetBSD.Shm.Calls

/-!
# Events

What the processes can do in a state, the conditions under which the accounts are kept, and that every event keeps them.
-/

namespace NetBSD.Shm

namespace Sys

variable {c : Shminfo} {s s' : Sys} {p : Proc} {pid i : Nat} {ipcperm : Option Errno}

def Runnable (s : Sys) (pid : Nat) : Prop := ∃ p, s.procs[pid]? = some p ∧ p.alive = true ∧ p.sleep = none

/-- What a sleeping process can go on with. The map of the segments has room for `shmall` pages, in which `vm_mmap` finds
place for a segment only if there is some. -/
def Wakes (c : Shminfo) (s : Sys) : Sleep → Wake → Prop
  | .getWait _ _ woken, .tsleep => woken = true
  | .getWait _ _ _, .signal => True
  | .getMalloc _ _, .malloc => True
  | .getMmap uap _ _, .mmap va => va.isSome → s.shmCommitted + btoc (clround uap.size) ≤ c.shmall
  | .atMalloc _, .malloc => True
  | .atMmap _ _ _, .mmap _ => True
  | .forkMalloc, .malloc => True
  | _, _ => False

def Allowed (c : Shminfo) (s : Sys) : Event → Prop
  | .shmget pid _ _ | .shmat pid _ _ | .shmdt pid _ | .shmctlRmid pid _ _ | .fork pid | .exec pid | .exit pid => s.Runnable pid
  | .resume pid wake _ => ∃ p w, s.procs[pid]? = some p ∧ p.sleep = some w ∧ s.Wakes c w wake

def Creates (c : Shminfo) (s : Sys) (uap : ShmgetArgs) : Prop :=
  (uap.key ≠ 0 → s.shmFindSegmentByKey c uap.key = none ∧ uap.shmflg.testBit 9 = true) ∧
    c.shmmin ≤ uap.size ∧ uap.size ≤ c.shmmax ∧ s.shmNused < c.shmmni ∧
      s.shmCommitted + btoc (clround uap.size) ≤ c.shmall

def CanCreate (c : Shminfo) (s : Sys) (uap : ShmgetArgs) : Prop :=
  s.Creates c uap → ∃ i < c.shmmni, (s.shmsegs i).free = true

/-- The segment that `shmat` has looked up is still there, and another entry for it fits into a `short`. -/
def CanAttach (c : Shminfo) (s : Sys) (uap : ShmatArgs) (segnum : Nat) : Prop :=
  segnum ∈ s.live c ∧ (s.shmsegs segnum).seq = ipcidToSeq uap.shmid ∧ (s.shmsegs segnum).shmNattch < 32767

def CanFork (c : Shminfo) (s : Sys) (p : Proc) : Prop :=
  ∀ i < c.shmmni, (s.shmsegs i).shmNattch + p.attached i ≤ 32767

/-- `shmget` finds a free segment when it comes to create one; the segment that `shmat` has looked up is still live when
`vm_mmap` returns; no segment has more than 32767 entries; and `shmdt` is called after `shmat`. -/
def Careful (c : Shminfo) (s : Sys) : Event → Prop
  | .shmget _ uap _ => s.CanCreate c uap
  | .shmdt pid _ => ∀ p, s.procs[pid]? = some p → p.vmShm.isSome
  | .fork pid => ∀ p, s.procs[pid]? = some p → s.CanFork c p
  | .resume pid wake _ => ∀ p, s.procs[pid]? = some p →
      match p.sleep, wake with
      | some (.getWait uap _ _), .tsleep => s.CanCreate c uap
      | some (.atMmap uap _ segnum), .mmap va => va.isSome → s.CanAttach c uap segnum
      | some .forkMalloc, .malloc => s.CanFork c p
      | _, _ => True
  | _ => True

theorem wakeup_cases (segnum : Nat) (p : Proc) : p.wakeup segnum = p ∨ ∃ uap i woken woken',
    p.sleep = some (.getWait uap i woken) ∧ p.wakeup segnum = { p with sleep := some (.getWait uap i woken') } := by
  unfold Proc.wakeup
  split
  · next uap i woken hsleep => exact .inr ⟨uap, i, woken, _, hsleep, rfl⟩
  · exact .inl rfl

theorem Counted.wakeup (hs : s.Counted c) (segnum : Nat) : (s.wakeup segnum).Counted c := by
  have hcreates : ∀ p : Proc, (p.wakeup segnum).creates = p.creates := by
    intro p
    rcases wakeup_cases segnum p with h | ⟨uap, i, woken, woken', hsleep, h⟩
    · rw [h]
    · rw [h, Proc.creates, Proc.creates, hsleep]
      rfl
  have hshm : ∀ p : Proc, (p.wakeup segnum).vmShm = p.vmShm := by
    intro p
    rcases wakeup_cases segnum p with h | ⟨uap, i, woken, woken', hsleep, h⟩ <;> rw [h]
  refine hs.alike ⟨fun i => .refl _, rfl, rfl, rfl, ?_, fun i => ?_⟩ fun q hq => ?_
  · rw [creating, creating, Sys.wakeup, List.filterMap_map]
    exact .of_eq (congrArg (fun f => s.procs.filterMap f) (funext hcreates))
  · rw [attached, attached, Sys.wakeup, List.map_map]
    refine congrArg List.sum (List.map_congr_left fun p _ => ?_)
    simp only [Function.comp_apply, Proc.attached, Proc.entries, hshm]
  · obtain ⟨p, hp, rfl⟩ := List.mem_map.1 hq
    have hok := hs.procs p hp
    refine ⟨?_, ?_, fun uap slot segnum' h => ?_, fun uap h => ?_⟩
    · rw [Proc.entries, hshm]
      exact hok.entries
    · rw [hshm]
      exact hok.table
    · rw [hshm]
      rcases wakeup_cases segnum p with heq | ⟨uap', i, woken, woken', -, heq⟩
      · exact hok.sleeping uap slot segnum' (heq ▸ h)
      · rw [heq] at h
        cases h
    · rw [hshm]
      rcases wakeup_cases segnum p with heq | ⟨uap', i, woken, woken', -, heq⟩
      · exact hok.opening uap (heq ▸ h)
      · rw [heq] at h
        cases h

theorem creates_none (hsleep : p.sleep = none) : p.creates = none := by
  rw [Proc.creates, hsleep]
  rfl

theorem Counted.sleeps (hs : s.Counted c) (hp : s.procs[pid]? = some p) {w : Sleep} (hcreates : w.creates = p.creates)
    (hsleeping : ∀ uap slot segnum, w = .atMmap uap slot segnum → segnum = ipcidToIx uap.shmid ∧
      ∃ shmmap e, p.vmShm = some shmmap ∧ shmmap[slot]? = some e ∧ e.shmid = none)
    (hopening : ∀ uap, w = .atMalloc uap → p.vmShm = none) : Returns c (s.sleeps pid w) :=
  ⟨_, _, rfl, hs.setSleep hp hcreates (fun uap slot segnum h => hsleeping uap slot segnum (Option.some.inj h))
    fun uap h => hopening uap (Option.some.inj h)⟩

theorem Counted.setWanted (hs : s.Counted c) (segnum : Nat) :
    (s.setSeg segnum fun d => { d with wanted := true }).Counted c := by
  refine hs.alike ⟨fun i => ?_, rfl, rfl, rfl, .refl _, fun _ => rfl⟩ hs.procs
  rcases eq_or_ne i segnum with rfl | hi
  · have hseg : (s.setSeg i fun d => { d with wanted := true }).shmsegs i = { s.shmsegs i with wanted := true } :=
      Function.update_self ..
    rw [hseg]
    exact ⟨rfl, rfl, rfl, rfl, rfl, rfl, rfl⟩
  · have hseg : (s.setSeg segnum fun d => { d with wanted := true }).shmsegs i = s.shmsegs i := Function.update_of_ne hi ..
    rw [hseg]
    exact .refl _

theorem find_free (hs : s.Counted c) (hfree : ∃ i < c.shmmni, (s.shmsegs i).free = true) :
    ∃ segnum, s.freeSegment c = some segnum ∧ segnum < c.shmmni ∧ (s.shmsegs segnum).free = true := by
  obtain ⟨i, hi, hfree⟩ := hfree
  unfold freeSegment
  cases hlast : s.shmLastFree with
  | some j => exact ⟨j, rfl, hs.lastFree j hlast (Nat.zero_lt_of_lt hi)⟩
  | none =>
    cases hfind : (List.range c.shmmni).find? fun i => (s.shmsegs i).free with
    | none => exact absurd hfree (List.find?_eq_none.1 hfind i (List.mem_range.2 hi))
    | some segnum =>
      have hsegfree := List.find?_some hfind
      exact ⟨segnum, rfl, List.mem_range.1 (List.mem_of_find?_eq_some hfind), hsegfree⟩

theorem Counted.allocate (hs : s.Counted c) (hp : s.procs[pid]? = some p) (hsleep : p.sleep = none) {uap : ShmgetArgs}
    (hkey : uap.key ≠ 0 → ∀ j < c.shmmni, (s.shmsegs j).allocated = true → (s.shmsegs j).key ≠ uap.key)
    (hfree : c.shmmin ≤ uap.size → uap.size ≤ c.shmmax → s.shmNused < c.shmmni →
      s.shmCommitted + btoc (clround uap.size) ≤ c.shmall → ∃ i < c.shmmni, (s.shmsegs i).free = true) :
    Returns c (s.shmgetAllocateSegment c pid uap) := by
  unfold shmgetAllocateSegment
  split
  · exact hs.ret _
  · next hsize =>
    split
    · exact hs.ret _
    · next hnused =>
      split
      · exact hs.ret _
      · next hroom =>
        obtain ⟨segnum, hsegnum, hlt, hsegfree⟩ := find_free hs (hfree (by omega) (by omega) (by omega) (by omega))
        rw [hsegnum]
        refine ⟨_, _, rfl, ?_⟩
        obtain ⟨l, hold, hnew⟩ := creating_setProc (s := ({ s with shmLastFree := none }.setSeg segnum fun d =>
          { d with
            free := false, removed := true, allocated := true, wanted := false
            key := uap.key
            seq := (d.seq + 1) % 32768 })) hp fun p => { p with sleep := some (.getMalloc uap segnum) }
        rw [creates_none hsleep] at hold
        refine hs.reserve hlt hsegfree rfl ⟨rfl, rfl, rfl, rfl⟩ hkey rfl rfl rfl (hnew.trans (hold.symm.cons segnum))
          (fun i => ?_) fun q hq => ?_
        · exact Nat.add_right_cancel (attached_setProc (s := { s with shmLastFree := none }) hp _ i)
        · rcases mem_setProc (s := { s with shmLastFree := none }) hp hq with rfl | hq
          · have hok := hs.ok hp
            exact ⟨hok.entries, hok.table, fun _ _ _ h => (by cases h), fun _ h => by cases h⟩
          · exact hs.procs q hq

theorem find_key_none {key : Int} (hfind : s.shmFindSegmentByKey c key = none) :
    ∀ j < c.shmmni, (s.shmsegs j).allocated = true → (s.shmsegs j).key ≠ key := by
  intro j hj hall heq
  have hnone := List.find?_eq_none.1 hfind j (List.mem_range.2 hj)
  rw [hall, heq, beq_self_eq_true] at hnone
  exact hnone rfl

theorem Counted.existing (hs : s.Counted c) (hp : s.procs[pid]? = some p) (hsleep : p.sleep = none) (uap : ShmgetArgs)
    (ipcperm : Option Errno) (segnum : Nat) : Returns c (s.shmgetExisting pid uap ipcperm segnum) := by
  unfold shmgetExisting
  split
  · exact (hs.setWanted segnum).sleeps hp (creates_none hsleep).symm (fun _ _ _ h => by cases h) fun _ h => by cases h
  · split
    · exact hs.ret _
    · split
      · exact hs.ret _
      · split
        · exact hs.ret _
        · exact hs.ret _

theorem Counted.shmget (hs : s.Counted c) (hp : s.procs[pid]? = some p) (hsleep : p.sleep = none) {uap : ShmgetArgs}
    (hcan : s.CanCreate c uap) (ipcperm : Option Errno) : Returns c (s.shmget c pid uap ipcperm) := by
  unfold Sys.shmget
  split
  · next hkey =>
    split
    · exact hs.existing hp hsleep uap ipcperm _
    · next hfind =>
      split
      · exact hs.ret _
      · next hcreat =>
        refine hs.allocate hp hsleep (fun _ => find_key_none hfind) fun hmin hmax hnused hroom => hcan ⟨fun _ => ⟨hfind, ?_⟩, hmin, hmax,
          hnused, hroom⟩
        simpa using hcreat
  · next hkey =>
    refine hs.allocate hp hsleep (fun h => absurd h hkey) fun hmin hmax hnused hroom => hcan ⟨fun h => absurd h hkey, hmin, hmax, hnused,
      hroom⟩

theorem Counted.find (hs : s.Counted c) {shmid segnum : Nat} (hfind : s.shmFindSegmentByShmid c shmid = some segnum) :
    segnum = ipcidToIx shmid ∧ segnum ∈ s.live c ∧ (s.shmsegs segnum).seq = ipcidToSeq shmid := by
  unfold shmFindSegmentByShmid at hfind
  dsimp only at hfind
  split at hfind
  · cases hfind
  · next hlt =>
    split at hfind
    · next h =>
      obtain rfl := Option.some.inj hfind
      refine ⟨rfl, mem_live.2 ⟨by omega, h.1, fun hmem => h.2.1 (hs.creating _ hmem).2.2⟩, h.2.2⟩
    · cases hfind

theorem Counted.shmatFind (hs : s.Counted c) (hp : s.procs[pid]? = some p) (hsleep : p.sleep = none)
    {shmmap : List ShmmapState} (ht : p.vmShm = some shmmap) (uap : ShmatArgs) (ipcperm : Option Errno) :
    Returns c (s.shmatFind c pid uap ipcperm shmmap) := by
  unfold Sys.shmatFind
  split
  · exact hs.ret _
  · next segnum hfind =>
    split
    · exact hs.ret _
    · split
      · exact hs.ret _
      · next i hslot =>
        split
        · exact hs.ret _
        · refine hs.sleeps hp (creates_none hsleep).symm (fun uap' slot segnum' h => ?_) fun _ h => by cases h
          cases h
          obtain ⟨hlt, hnone, -⟩ := List.findIdx?_eq_some_iff_getElem.1 hslot
          exact ⟨(hs.find hfind).1, shmmap, shmmap[i], ht, List.getElem?_eq_getElem hlt, by simpa using hnone⟩

theorem Counted.shmat (hs : s.Counted c) (hp : s.procs[pid]? = some p) (hsleep : p.sleep = none) (uap : ShmatArgs)
    (ipcperm : Option Errno) : Returns c (s.shmat c pid uap ipcperm p) := by
  unfold Sys.shmat
  split
  · next hnone => exact hs.sleeps hp (creates_none hsleep).symm (fun _ _ _ h => by cases h) fun _ _ => hnone
  · next shmmap ht => exact hs.shmatFind hp hsleep ht uap ipcperm

theorem Counted.shmatInit (hs : s.Counted c) (hp : s.procs[pid]? = some p) (hsleep : p.sleep = none) (hnone : p.vmShm = none)
    (uap : ShmatArgs) (ipcperm : Option Errno) : Returns c (s.shmatInit c pid uap ipcperm) := by
  have hnoid : ∀ e ∈ List.replicate c.shmseg (⟨0, none⟩ : ShmmapState), e.shmid = none := fun e he => by
    rw [List.eq_of_mem_replicate he]
  refine Counted.shmatFind (hs.setProc hp rfl (fun i => ?_) ⟨fun e he id hid => ?_, fun t h => ?_, fun _ _ _ h => ?_,
      fun _ h => ?_⟩) (getElem?_setProc hp _) hsleep rfl uap ipcperm
  · rw [Proc.attached, Proc.attached, Proc.entries, Proc.entries, hnone]
    refine (List.countP_eq_zero.2 fun e he hnames => ?_).trans rfl
    rw [names_none (hnoid e he)] at hnames
    cases hnames
  · rw [hnoid e he] at hid
    cases hid
  · rw [← Option.some.inj h, List.length_replicate]
  · rw [hsleep] at h
    cases h
  · rw [hsleep] at h
    cases h

theorem Counted.shmctlRmid (hs : s.Counted c) (shmid : Nat) (ipcperm : Option Errno) :
    Returns c (s.shmctlRmid c shmid ipcperm) := by
  unfold Sys.shmctlRmid
  split
  · exact hs.ret _
  · next segnum hfind =>
    obtain ⟨rfl, hin, -⟩ := hs.find hfind
    split
    · exact hs.ret _
    · have hmark : Sound c (· = ipcidToIx shmid) (s.setSeg (ipcidToIx shmid) fun d => { d with key := 0, removed := true }) :=
        Sound.mark hs
      have hremoved : ((s.setSeg (ipcidToIx shmid) fun d => { d with key := 0, removed := true }).shmsegs
          (ipcidToIx shmid)).removed = true := by
        rw [setSeg]
        dsimp only
        rw [Function.update_self]
      have hlive : ipcidToIx shmid ∈ (s.setSeg (ipcidToIx shmid) fun d => { d with key := 0, removed := true }).live c := by
        obtain ⟨hlt, hall, hnot⟩ := mem_live.1 hin
        refine mem_live.2 ⟨hlt, ?_, hnot⟩
        rw [setSeg]
        dsimp only
        rw [Function.update_self]
        exact hall
      have hsettle := hmark.settle hlive
      dsimp only
      split
      · next hle =>
        rw [if_pos ⟨hle, hremoved⟩] at hsettle
        exact Counted.ret hsettle _
      · next hgt =>
        rw [if_neg fun h => hgt h.1] at hsettle
        exact Counted.ret hsettle _

theorem Counted.shmgetMapped {uap : ShmgetArgs} {segnum shmid : Nat} {va : Option Nat} (hs : s.Counted c)
    (hp : s.procs[pid]? = some p) (hsleep : p.sleep = some (.getMmap uap segnum shmid))
    (hroom : va.isSome → s.shmCommitted + btoc (clround uap.size) ≤ c.shmall) :
    Returns c ((s.setProc pid fun p => { p with sleep := none }).shmgetMapped uap segnum shmid va) := by
  obtain ⟨l, hold, hnew⟩ := creating_setProc hp fun p => { p with sleep := none }
  have hcreates : p.creates = some segnum := by
    rw [Proc.creates, hsleep]
    rfl
  rw [hcreates] at hold
  have hcreating : s.creating.Perm (segnum :: (s.setProc pid fun p => { p with sleep := none }).creating) :=
    hold.trans (hnew.symm.cons segnum)
  have hattached : ∀ i, (s.setProc pid fun p => { p with sleep := none }).attached i = s.attached i := fun i =>
    Nat.add_right_cancel (attached_setProc hp _ i)
  have hok := hs.ok hp
  have hprocs : ∀ q ∈ (s.setProc pid fun p => { p with sleep := none }).procs, q.Ok c (s.Named c) := by
    intro q hq
    rcases mem_setProc hp hq with rfl | hq
    · exact ⟨hok.entries, hok.table, fun _ _ _ h => (by cases h), fun _ h => by cases h⟩
    · exact hs.procs q hq
  unfold Sys.shmgetMapped
  cases va with
  | none =>
    refine Counted.ret (Counted.wakeup ?_ segnum) _
    exact hs.abort rfl rfl rfl rfl hcreating hattached hprocs
  | some va =>
    dsimp only
    have hfinish : Counted c { (s.setProc pid fun p => { p with sleep := none }).setSeg segnum fun d =>
        { d with free := false, removed := false, allocated := true, wanted := false, shmSegsz := uap.size, shmNattch := 0 } with
        shmCommitted := s.shmCommitted + btoc (clround uap.size), shmNused := s.shmNused + 1 } :=
      hs.finish rfl ⟨rfl, rfl, rfl, rfl, rfl⟩ rfl rfl rfl (hroom rfl) hcreating hattached hprocs
    split
    · exact Counted.ret (Counted.wakeup hfinish segnum) _
    · exact Counted.ret hfinish _

theorem Counted.attach {uap : ShmatArgs} {slot segnum va : Nat} {shmmap : List ShmmapState} {e : ShmmapState}
    (hs : s.Counted c) (hp : s.procs[pid]? = some p) (hsleep : p.sleep = none) (ht : p.vmShm = some shmmap)
    (he : shmmap[slot]? = some e) (hfree : e.shmid = none) (hix : segnum = ipcidToIx uap.shmid)
    (hcan : s.CanAttach c uap segnum) :
    ((s.setProc pid (Proc.map slot ⟨va, some uap.shmid⟩)).setSeg segnum fun d =>
      { d with shmNattch := short (d.shmNattch + 1) }).Counted c := by
  obtain ⟨hin, hseq, hroom⟩ := hcan
  have hok := hs.ok hp
  have hmap : p.map slot ⟨va, some uap.shmid⟩ = { p with vmShm := some (shmmap.set slot ⟨va, some uap.shmid⟩) } := by
    rw [Proc.map, ht, Option.map_some]
  have hattached : ∀ i, (s.setProc pid (Proc.map slot ⟨va, some uap.shmid⟩)).attached i =
      s.attached i + if segnum = i then 1 else 0 := by
    intro i
    have hentry := attached_entry ht he (congrArg Proc.vmShm hmap) i
    rw [names_none hfree, names_some (show (⟨va, some uap.shmid⟩ : ShmmapState).shmid = some uap.shmid from rfl), ← hix] at hentry
    simp only [beq_iff_eq, Bool.false_eq_true, ↓reduceIte, Nat.add_zero] at hentry
    have := attached_setProc hp (Proc.map slot ⟨va, some uap.shmid⟩) i
    omega
  have hlt := (mem_live.1 hin).1
  have hone := hs.nattch segnum hlt
  refine hs.recount (fun i => setSeg_nattch _ _ (fun n => short (n + 1)) i) (fun i hi => ?_) (fun i hi => ?_) rfl rfl rfl ?_
    (fun i hne => ⟨hne, fun hpos => ?_⟩) fun q hq => ?_
  · change _ = ((s.setProc pid (Proc.map slot ⟨va, some uap.shmid⟩)).attached i : Int)
    rw [hattached]
    rcases eq_or_ne i segnum with rfl | hne
    · rw [if_pos rfl, if_pos rfl]
      change short ((s.shmsegs i).shmNattch + 1) = _
      rw [hone]
      exact short_eq (show s.attached i + 1 < 32768 by omega)
    · rw [if_neg hne, if_neg hne.symm]
      exact hs.nattch i hi
  · change (s.setProc pid (Proc.map slot ⟨va, some uap.shmid⟩)).attached i < 32768
    have := hs.small i hi
    rw [hattached]
    split
    · next heq =>
      subst heq
      omega
    · omega
  · obtain ⟨l, hold, hnew⟩ := creating_setProc hp (Proc.map slot ⟨va, some uap.shmid⟩)
    exact hnew.trans hold.symm
  · change 0 < (s.setProc pid (Proc.map slot ⟨va, some uap.shmid⟩)).attached i
    rw [hattached]
    omega
  · rcases mem_setProc hp hq with rfl | hq
    · rw [hmap]
      refine ⟨fun x hx y hy => ?_, fun t h => ?_, fun _ _ _ h => ?_, fun _ h => ?_⟩
      · rcases List.mem_or_eq_of_mem_set hx with hx | rfl
        · refine hok.entries x ?_ y hy
          rw [Proc.entries, ht]
          exact hx
        · obtain rfl := Option.some.inj hy
          exact ⟨hix ▸ hin, hix ▸ hseq.symm⟩
      · rw [← Option.some.inj h, List.length_set]
        exact hok.table _ ht
      · rw [hsleep] at h
        cases h
      · rw [hsleep] at h
        cases h
    · exact hs.procs q hq

theorem Counted.awake (hs : s.Counted c) (hp : s.procs[pid]? = some p) (hcreates : p.creates = none) :
    (s.setProc pid fun p => { p with sleep := none }).Counted c := by
  exact hs.setSleep hp hcreates.symm (fun _ _ _ h => by cases h) fun _ h => by cases h

theorem Counted.shmatMapped {uap : ShmatArgs} {slot segnum : Nat} {va : Option Nat} (hs : s.Counted c)
    (hp : s.procs[pid]? = some p) (hsleep : p.sleep = some (.atMmap uap slot segnum))
    (hcan : va.isSome → s.CanAttach c uap segnum) :
    Returns c ((s.setProc pid fun p => { p with sleep := none }).shmatMapped pid uap slot segnum va) := by
  have hcreates : p.creates = none := by
    rw [Proc.creates, hsleep]
    rfl
  have hawake := hs.awake hp hcreates
  unfold Sys.shmatMapped
  cases va with
  | none => exact hawake.ret _
  | some va =>
    obtain ⟨hix, shmmap, e, ht, he, hfree⟩ := (hs.ok hp).sleeping uap slot segnum hsleep
    obtain ⟨hin, hseq, hroom⟩ := hcan rfl
    refine Counted.ret (hawake.attach (getElem?_setProc hp _) rfl ht he hfree hix ⟨?_, hseq, hroom⟩) _
    obtain ⟨hlt, hall, hnot⟩ := mem_live.1 hin
    obtain ⟨l, hold, hnew⟩ := creating_setProc hp fun p => { p with sleep := none }
    rw [hcreates] at hold
    exact mem_live.2 ⟨hlt, hall, fun h => hnot (hold.mem_iff.2 (hnew.mem_iff.1 h))⟩

theorem Counted.resume {wake : Wake} {w : Sleep} (hs : s.Counted c) (hp : s.procs[pid]? = some p) (hsleep : p.sleep = some w)
    (hwakes : s.Wakes c w wake) (hcareful : s.Careful c (.resume pid wake ipcperm)) :
    Returns c (s.resume c pid wake ipcperm p) := by
  have hcan := hcareful p hp
  rw [hsleep] at hcan
  have hcreates : p.creates = w.creates := by
    rw [Proc.creates, hsleep]
    rfl
  unfold Sys.resume
  rw [hsleep]
  cases w with
  | getWait uap segnum woken =>
    have hawake := hs.awake hp hcreates
    cases wake with
    | tsleep =>
      obtain rfl : woken = true := hwakes
      exact hawake.shmget (getElem?_setProc hp _) rfl hcan ipcperm
    | signal => cases woken <;> exact hawake.ret _
    | malloc => exact hwakes.elim
    | mmap va => exact hwakes.elim
  | getMalloc uap segnum =>
    cases wake with
    | malloc =>
      have htwice : (s.setProc pid fun p => { p with sleep := none }).setProc pid (fun p =>
          { p with sleep := some (.getMmap uap segnum (ixseqToIpcid segnum (s.shmsegs segnum))) }) =
          s.setProc pid fun p => { p with sleep := some (.getMmap uap segnum (ixseqToIpcid segnum (s.shmsegs segnum))) } := by
        rw [setProc, setProc, setProc, List.modify_modify_eq]
        rfl
      refine ⟨_, _, rfl, ?_⟩
      rw [htwice]
      exact hs.setSleep hp hcreates.symm (fun _ _ _ h => by cases h) fun _ h => by cases h
    | tsleep => exact hwakes.elim
    | signal => exact hwakes.elim
    | mmap va => exact hwakes.elim
  | getMmap uap segnum shmid =>
    cases wake with
    | mmap va => exact hs.shmgetMapped hp hsleep hwakes
    | malloc => exact hwakes.elim
    | tsleep => exact hwakes.elim
    | signal => exact hwakes.elim
  | atMalloc uap =>
    cases wake with
    | malloc =>
      exact (hs.awake hp hcreates).shmatInit (getElem?_setProc hp _) rfl ((hs.ok hp).opening uap hsleep) uap ipcperm
    | tsleep => exact hwakes.elim
    | signal => exact hwakes.elim
    | mmap va => exact hwakes.elim
  | atMmap uap slot segnum =>
    cases wake with
    | mmap va => exact hs.shmatMapped hp hsleep hcan
    | malloc => exact hwakes.elim
    | tsleep => exact hwakes.elim
    | signal => exact hwakes.elim
  | forkMalloc =>
    cases wake with
    | malloc =>
      refine Counted.ret ((hs.awake hp hcreates).shmfork (getElem?_setProc hp _) fun i hi => ?_) _
      have hsame : (s.setProc pid fun p => { p with sleep := none }).attached i = s.attached i :=
        Nat.add_right_cancel (attached_setProc hp _ i)
      have hle : (s.shmsegs i).shmNattch + p.attached i ≤ 32767 := hcan i hi
      have hnattch := hs.nattch i hi
      change (s.setProc pid fun p => { p with sleep := none }).attached i + p.attached i < 32768
      omega
    | tsleep => exact hwakes.elim
    | signal => exact hwakes.elim
    | mmap va => exact hwakes.elim

theorem Counted.shmdt (hs : s.Counted c) (hp : s.procs[pid]? = some p) (hsleep : p.sleep = none) (hshm : p.vmShm.isSome)
    (shmaddr : Nat) : Returns c (s.shmdt pid shmaddr p) := by
  obtain ⟨shmmap, ht⟩ := Option.isSome_iff_exists.1 hshm
  unfold Sys.shmdt
  rw [ht]
  dsimp only
  split
  · exact hs.ret _
  · next i hfind =>
    obtain ⟨hlt, hin, -⟩ := List.findIdx?_eq_some_iff_getElem.1 hfind
    have he := List.getElem?_eq_getElem hlt
    rw [Bool.and_eq_true] at hin
    obtain ⟨id, hid⟩ := Option.isSome_iff_exists.1 hin.1
    rw [he, Option.bind_some, hid]
    exact Counted.ret (hs.deleteMapping hp ht he hid hsleep) _

theorem Counted.kill (hs : s.Counted c) (hp : s.procs[pid]? = some p) :
    (s.setProc pid fun p => { p with alive := false }).Counted c := by
  have hok := hs.ok hp
  exact hs.setProc hp rfl (fun _ => rfl) ⟨hok.entries, hok.table, hok.sleeping, hok.opening⟩

theorem Counted.event (hs : s.Counted c) {e : Event} (hallowed : s.Allowed c e) (hcareful : s.Careful c e) :
    Returns c (s.event c e) := by
  cases e with
  | shmget pid uap ipcperm =>
    obtain ⟨p, hp, -, hsleep⟩ := hallowed
    rw [Sys.event, hp]
    exact hs.shmget hp hsleep hcareful ipcperm
  | shmat pid uap ipcperm =>
    obtain ⟨p, hp, -, hsleep⟩ := hallowed
    rw [Sys.event, hp]
    exact hs.shmat hp hsleep uap ipcperm
  | shmdt pid shmaddr =>
    obtain ⟨p, hp, -, hsleep⟩ := hallowed
    rw [Sys.event, hp]
    exact hs.shmdt hp hsleep (hcareful p hp) shmaddr
  | shmctlRmid pid shmid ipcperm => exact hs.shmctlRmid shmid ipcperm
  | fork pid =>
    obtain ⟨p, hp, -, hsleep⟩ := hallowed
    rw [Sys.event, hp, Option.bind_some]
    split
    · exact hs.sleeps hp (creates_none hsleep).symm (fun _ _ _ h => by cases h) fun _ h => by cases h
    · refine Counted.ret (hs.shmfork hp fun i hi => ?_) _
      have hle := hcareful p hp i hi
      have hnattch := hs.nattch i hi
      omega
  | exec pid =>
    obtain ⟨p, hp, -, hsleep⟩ := hallowed
    rw [Sys.event, hp, Option.bind_some]
    split
    · next hshm => exact Counted.ret (hs.shmexit hp hshm hsleep).1 _
    · exact hs.ret _
  | exit pid =>
    obtain ⟨p, hp, -, hsleep⟩ := hallowed
    rw [Sys.event, hp, Option.bind_some]
    split
    · next hshm =>
      obtain ⟨hs₁, q, hq, -⟩ := hs.shmexit hp hshm hsleep
      exact Counted.ret (hs₁.kill hq) _
    · exact Counted.ret (hs.kill hp) _
  | resume pid wake ipcperm =>
    obtain ⟨p, w, hp, hsleep, hwakes⟩ := hallowed
    rw [Sys.event, hp]
    exact hs.resume hp hsleep hwakes hcareful

end Sys

end NetBSD.Shm

/-!
## Accounts over whole runs

Any processes make calls, and while one sleeps in `malloc`, `vm_mmap` or `tsleep` the others go on.
-/

namespace NetBSD.Shm

open Lib

namespace Sys

variable {c : Shminfo} {s : Sys}

def Boot (c : Shminfo) (s : Sys) : Prop :=
  (∀ i < c.shmmni, s.shmsegs i = ⟨0, 0, true, false, false, false, 0, 0⟩) ∧ s.shmLastFree = some 0 ∧ s.shmNused = 0 ∧
    s.shmCommitted = 0 ∧ s.procs = [⟨true, none, none⟩]

def step (c : Shminfo) (s : Sys) (e : Event) : Option Sys := (s.event c e).map Prod.snd

theorem Boot.counted (hboot : s.Boot c) : s.Counted c := by
  obtain ⟨hsegs, hlast, hnused, hcommitted, hprocs⟩ := hboot
  have hcreating : s.creating = [] := by
    rw [creating, hprocs]
    rfl
  have hattached : ∀ i, s.attached i = 0 := fun i => by
    rw [attached, hprocs]
    rfl
  have hlive : s.live c = ∅ := by
    ext i
    rw [mem_live]
    refine ⟨fun h => ?_, fun h => absurd h (Finset.notMem_empty i)⟩
    have hall := h.2.1
    rw [hsegs i h.1] at hall
    cases hall
  refine ⟨fun i hi => ?_, fun i hi hpos => ?_, ?_, fun i hi => ?_, ?_, ?_, ?_, fun i hi => ?_, fun i hi => ?_, fun i hi => ?_,
    fun i hi j hj hall => ?_, fun p hp => ?_⟩
  · rw [hsegs i hi]
    rfl
  · rw [hlast] at hi
    obtain rfl := Option.some.inj hi
    rw [hsegs 0 hpos]
    exact ⟨hpos, rfl⟩
  · rw [hcreating]
    exact List.nodup_nil
  · rw [hcreating] at hi
    cases hi
  · rw [hnused, hlive]
    rfl
  · rw [hcommitted, hlive]
    rfl
  · rw [hcommitted]
    exact Int.natCast_nonneg _
  · rw [hsegs i hi, hattached]
    rfl
  · rw [hattached]
    decide
  · rw [hlive] at hi
    exact absurd hi (Finset.notMem_empty i)
  · rw [hsegs i hi] at hall
    cases hall
  · rw [hprocs, List.mem_singleton] at hp
    subst hp
    exact ⟨fun e he => (by cases he), fun t h => (by cases h), fun _ _ _ h => (by cases h), fun _ h => by cases h⟩

theorem counted_of_runs (hruns : Runs (Boot c) (step c) (fun s e => s.Allowed c e ∧ s.Careful c e) s) : s.Counted c := by
  refine hruns.invariant (fun s hboot => hboot.counted) fun s e s' hs hok hstep => ?_
  obtain ⟨r, s₁, hevent, hs₁⟩ := hs.event hok.1 hok.2
  rw [step, hevent] at hstep
  exact Option.some.inj hstep ▸ hs₁

def inUse (c : Shminfo) (s : Sys) : Finset Nat := (Finset.range c.shmmni).filter fun i => (s.shmsegs i).free = false

structure Accounted (c : Shminfo) (s : Sys) : Prop where
  nused : s.shmNused = (s.inUse c).card
  nused_le : s.shmNused ≤ c.shmmni
  committed : s.shmCommitted = (∑ i ∈ s.inUse c, s.pages i : Nat)
  committed_le : s.shmCommitted ≤ c.shmall
  nattch : ∀ i < c.shmmni, (s.shmsegs i).shmNattch = s.attached i
  named : ∀ p ∈ s.procs, ∀ e ∈ p.entries, ∀ id, e.shmid = some id →
    ipcidToIx id ∈ s.inUse c ∧ ipcidToSeq id = (s.shmsegs (ipcidToIx id)).seq
  free : ∀ i < c.shmmni, ((s.shmsegs i).free = true ↔ (s.shmsegs i).allocated = false) ∧
    ((s.shmsegs i).free = true → s.attached i = 0) ∧
    ((s.shmsegs i).allocated = true → (s.shmsegs i).removed = true → 0 < s.attached i)
  keys : ∀ i < c.shmmni, ∀ j < c.shmmni, (s.shmsegs i).allocated = true → (s.shmsegs j).allocated = true →
    (s.shmsegs i).key = (s.shmsegs j).key → (s.shmsegs i).key ≠ 0 → i = j

theorem Counted.accounted (hs : s.Counted c) (hquiet : ∀ p ∈ s.procs, p.sleep = none) : s.Accounted c := by
  have hcreating : s.creating = [] :=
    List.filterMap_eq_nil_iff.2 fun p hp => creates_none (hquiet p hp)
  have hfree : ∀ i < c.shmmni, ((s.shmsegs i).free = true ↔ (s.shmsegs i).allocated = false) := by
    intro i hi
    rw [hs.flags i hi, Bool.not_eq_true']
  have hlive : s.live c = s.inUse c := by
    ext i
    rw [mem_live, inUse, Finset.mem_filter, Finset.mem_range, hcreating]
    refine and_congr_right fun hi => ?_
    rw [hs.flags i hi]
    simp only [List.not_mem_nil, not_false_eq_true, and_true, Bool.not_eq_false']
  refine ⟨hlive ▸ hs.nused, ?_, hlive ▸ hs.committed, hs.limit, hs.nattch, fun p hp e he id hid => ?_, fun i hi => ⟨hfree i hi, fun h => ?_,
    fun hall hrem => ?_⟩, hs.keys⟩
  · rw [hs.nused]
    have hle := Finset.card_filter_le (Finset.range c.shmmni) fun i => (s.shmsegs i).allocated = true ∧ i ∉ s.creating
    rw [Finset.card_range] at hle
    exact Int.ofNat_le.2 hle
  · exact hlive ▸ (hs.procs p hp).entries e he id hid
  · refine hs.attached_eq_zero fun hin => ?_
    have hall := (mem_live.1 hin).2.1
    rw [(hfree i hi).1 h] at hall
    cases hall
  · refine hs.removed i (mem_live.2 ⟨hi, hall, ?_⟩) hrem fun h => h
    rw [hcreating]
    exact List.not_mem_nil

/-- In every state of a run of careful events in which no process sleeps in a call, the accounts are right; and a careful
event returns. -/
theorem segments_accounted (hruns : Runs (Boot c) (step c) (fun s e => s.Allowed c e ∧ s.Careful c e) s) :
    ((∀ p ∈ s.procs, p.sleep = none) → s.Accounted c) ∧
      ∀ e, s.Allowed c e → s.Careful c e → ∃ r s', s.event c e = some (r, s') := by
  have hs := counted_of_runs hruns
  refine ⟨hs.accounted, fun e hallowed hcareful => ?_⟩
  obtain ⟨r, s', hevent, -⟩ := hs.event hallowed hcareful
  exact ⟨r, s', hevent⟩

def oneSegment : Shminfo where
  shmmax := 4096
  shmmin := 1
  shmmni := 1
  shmseg := 1
  shmall := 1

def booted : Sys where
  shmsegs := fun _ => ⟨0, 0, true, false, false, false, 0, 0⟩
  shmLastFree := some 0
  shmNused := 0
  shmCommitted := 0
  procs := [⟨true, none, none⟩]

theorem booted_boot : booted.Boot oneSegment := ⟨fun _ _ => rfl, rfl, rfl, rfl, rfl⟩

def after (c : Shminfo) (s : Sys) (e : Event) : Sys := (s.step c e).getD s

theorem runs_after {ok : Sys → Event → Prop} (hruns : Runs (Boot c) (step c) ok s) (e : Event) (hok : ok s e)
    (hreturns : (s.event c e).isSome = true) : Runs (Boot c) (step c) ok (s.after c e) := by
  obtain ⟨⟨r, s'⟩, hevent⟩ := Option.isSome_iff_exists.1 hreturns
  have hstep : s.step c e = some s' := by rw [step, hevent, Option.map_some]
  rw [after, hstep]
  exact hruns.call e hok hstep

def created (s : Sys) : Sys :=
  ((s.after oneSegment (.shmget 0 ⟨0, 1, 0⟩ none)).after oneSegment (.resume 0 .malloc none)).after oneSegment
    (.resume 0 (.mmap (some 0)) none)

theorem segments_accounted_one : booted.created.Accounted oneSegment := by
  have hboot : Runs (Boot oneSegment) (step oneSegment) (fun s e => s.Allowed oneSegment e ∧ s.Careful oneSegment e) booted :=
    .start booted_boot
  have hfirst := runs_after hboot (.shmget 0 ⟨0, 1, 0⟩ none) ⟨⟨_, rfl, rfl, rfl⟩, fun _ => ⟨0, by decide, rfl⟩⟩ rfl
  have hsecond := runs_after hfirst (.resume 0 .malloc none) ⟨⟨_, _, rfl, rfl, trivial⟩, fun p hp => by
    obtain rfl : _ = p := Option.some.inj hp
    exact trivial⟩ rfl
  have hthird := runs_after hsecond (.resume 0 (.mmap (some 0)) none) ⟨⟨_, _, rfl, rfl, fun _ => by decide⟩, fun p hp => by
    obtain rfl : _ = p := Option.some.inj hp
    exact trivial⟩ rfl
  exact (segments_accounted hthird).1 (by decide)

def crossed : Sys :=
  ((((booted.after oneSegment (.fork 0)).created.after oneSegment (.shmat 0 ⟨65536, 0, 0⟩ none)).after oneSegment
    (.resume 0 .malloc none)).after oneSegment (.shmctlRmid 1 65536 none)).after oneSegment (.resume 0 (.mmap (some 4096)) none)

def detached : Sys := crossed.created.after oneSegment (.shmdt 0 4096)

def creating2 : Sys := (booted.after oneSegment (.fork 0)).after oneSegment (.shmget 0 ⟨0, 1, 0⟩ none)

/-- The entry of the first process outlives its segment, and `shmdt` takes it off the count of the next one; and the second
of two processes that create segments finds none free. -/
theorem segments_miscounted :
    (Runs (Boot oneSegment) (step oneSegment) (fun s e => s.Allowed oneSegment e) detached ∧
      (∀ p ∈ detached.procs, p.sleep = none) ∧ (detached.shmsegs 0).shmNattch = -1 ∧ detached.attached 0 = 0) ∧
    Runs (Boot oneSegment) (step oneSegment) (fun s e => s.Allowed oneSegment e) creating2 ∧
      creating2.Allowed oneSegment (.shmget 1 ⟨0, 1, 0⟩ none) ∧ creating2.event oneSegment (.shmget 1 ⟨0, 1, 0⟩ none) = none := by
  have hboot : Runs (Boot oneSegment) (step oneSegment) (fun s e => s.Allowed oneSegment e) booted := .start booted_boot
  have hfork := runs_after hboot (.fork 0) ⟨_, rfl, rfl, rfl⟩ rfl
  have hget := runs_after hfork (.shmget 0 ⟨0, 1, 0⟩ none) ⟨_, rfl, rfl, rfl⟩ rfl
  have hmalloc := runs_after hget (.resume 0 .malloc none) ⟨_, _, rfl, rfl, trivial⟩ rfl
  have hcreated := runs_after hmalloc (.resume 0 (.mmap (some 0)) none) ⟨_, _, rfl, rfl, fun _ => by decide⟩ rfl
  have hat := runs_after hcreated (.shmat 0 ⟨65536, 0, 0⟩ none) ⟨_, rfl, rfl, rfl⟩ rfl
  have hfound := runs_after hat (.resume 0 .malloc none) ⟨_, _, rfl, rfl, trivial⟩ rfl
  have hrmid := runs_after hfound (.shmctlRmid 1 65536 none) ⟨_, rfl, rfl, rfl⟩ rfl
  have hcrossed := runs_after hrmid (.resume 0 (.mmap (some 4096)) none) ⟨_, _, rfl, rfl, trivial⟩ rfl
  have hget' := runs_after hcrossed (.shmget 0 ⟨0, 1, 0⟩ none) ⟨_, rfl, rfl, rfl⟩ rfl
  have hmalloc' := runs_after hget' (.resume 0 .malloc none) ⟨_, _, rfl, rfl, trivial⟩ rfl
  have hcreated' := runs_after hmalloc' (.resume 0 (.mmap (some 0)) none) ⟨_, _, rfl, rfl, fun _ => by decide⟩ rfl
  have hdetached := runs_after hcreated' (.shmdt 0 4096) ⟨_, rfl, rfl, rfl⟩ rfl
  exact ⟨⟨hdetached, by decide, by decide, by decide⟩, hget, ⟨_, rfl, rfl, rfl⟩, rfl⟩

end Sys

end NetBSD.Shm
