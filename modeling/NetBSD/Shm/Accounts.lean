import NetBSD.Shm.Segment
import Mathlib.Algebra.BigOperators.Group.Finset.Basic
import Mathlib.Algebra.Order.BigOperators.Group.Finset
import Mathlib.Data.Finset.Basic
import Mathlib.Algebra.GroupWithZero.Nat

/-!
# Accounts of the segments

A segment is live from the end of its creation to the moment it is freed. The counters are sums over the live segments,
and `shm_nattch` counts the entries of the processes that name a segment.
-/

namespace NetBSD.Shm

def Sleep.creates : Sleep → Option Nat
  | .getMalloc _ segnum => some segnum
  | .getMmap _ segnum _ => some segnum
  | _ => none

def ShmmapState.names (i : Nat) (e : ShmmapState) : Bool := e.shmid.map ipcidToIx == some i

namespace Proc

def entries (p : Proc) : List ShmmapState := p.vmShm.getD []

def creates (p : Proc) : Option Nat := p.sleep.bind Sleep.creates

def attached (p : Proc) (i : Nat) : Nat := p.entries.countP (ShmmapState.names i)

/-- The entries of a process name segments that are `good`, and an entry that `shmat` has chosen is not in use. -/
structure Ok (c : Shminfo) (good : Nat → Prop) (p : Proc) : Prop where
  entries : ∀ e ∈ p.entries, ∀ id, e.shmid = some id → good id
  table : ∀ shmmap, p.vmShm = some shmmap → shmmap.length = c.shmseg
  sleeping : ∀ uap slot segnum, p.sleep = some (.atMmap uap slot segnum) → segnum = ipcidToIx uap.shmid ∧
    ∃ shmmap e, p.vmShm = some shmmap ∧ shmmap[slot]? = some e ∧ e.shmid = none
  opening : ∀ uap, p.sleep = some (.atMalloc uap) → p.vmShm = none

theorem Ok.mono {c : Shminfo} {good good' : Nat → Prop} {p : Proc} (h : p.Ok c good) (hgood : ∀ id, good id → good' id) :
    p.Ok c good' :=
  ⟨fun e he id hid => hgood id (h.entries e he id hid), h.table, h.sleeping, h.opening⟩

end Proc

namespace Sys

variable {c : Shminfo} {s s' : Sys} {p : Proc} {pid i : Nat} {hole : Nat → Prop}

def creating (s : Sys) : List Nat := s.procs.filterMap Proc.creates

def attached (s : Sys) (i : Nat) : Nat := (s.procs.map fun p => p.attached i).sum

def live (c : Shminfo) (s : Sys) : Finset Nat :=
  (Finset.range c.shmmni).filter fun i => (s.shmsegs i).allocated = true ∧ i ∉ s.creating

def pages (s : Sys) (i : Nat) : Nat := btoc (clround (s.shmsegs i).shmSegsz)

def Named (c : Shminfo) (s : Sys) (id : Nat) : Prop :=
  ipcidToIx id ∈ s.live c ∧ ipcidToSeq id = (s.shmsegs (ipcidToIx id)).seq

/-- What holds between any two events; in a `hole`, a segment may be removed with no entry left. -/
structure Sound (c : Shminfo) (hole : Nat → Prop) (s : Sys) : Prop where
  flags : ∀ i < c.shmmni, (s.shmsegs i).free = !(s.shmsegs i).allocated
  lastFree : ∀ i, s.shmLastFree = some i → 0 < c.shmmni → i < c.shmmni ∧ (s.shmsegs i).free = true
  nodup : s.creating.Nodup
  creating : ∀ i ∈ s.creating, i < c.shmmni ∧ (s.shmsegs i).allocated = true ∧ (s.shmsegs i).removed = true
  nused : s.shmNused = (s.live c).card
  committed : s.shmCommitted = (∑ i ∈ s.live c, s.pages i : Nat)
  limit : s.shmCommitted ≤ c.shmall
  nattch : ∀ i < c.shmmni, (s.shmsegs i).shmNattch = s.attached i
  small : ∀ i < c.shmmni, s.attached i < 32768
  removed : ∀ i ∈ s.live c, (s.shmsegs i).removed = true → ¬ hole i → 0 < s.attached i
  keys : ∀ i < c.shmmni, ∀ j < c.shmmni, (s.shmsegs i).allocated = true → (s.shmsegs j).allocated = true →
    (s.shmsegs i).key = (s.shmsegs j).key → (s.shmsegs i).key ≠ 0 → i = j
  procs : ∀ p ∈ s.procs, p.Ok c (s.Named c)

theorem mem_live : i ∈ s.live c ↔ i < c.shmmni ∧ (s.shmsegs i).allocated = true ∧ i ∉ s.creating := by
  simp only [live, Finset.mem_filter, Finset.mem_range]

structure SameSeg (d d' : ShmidDs) : Prop where
  free : d'.free = d.free
  removed : d'.removed = d.removed
  allocated : d'.allocated = d.allocated
  key : d'.key = d.key
  seq : d'.seq = d.seq
  segsz : d'.shmSegsz = d.shmSegsz
  nattch : d'.shmNattch = d.shmNattch

theorem SameSeg.refl (d : ShmidDs) : SameSeg d d := ⟨rfl, rfl, rfl, rfl, rfl, rfl, rfl⟩

structure Alike (s s' : Sys) : Prop where
  segs : ∀ i, SameSeg (s.shmsegs i) (s'.shmsegs i)
  lastFree : s'.shmLastFree = s.shmLastFree
  nused : s'.shmNused = s.shmNused
  committed : s'.shmCommitted = s.shmCommitted
  creating : s'.creating.Perm s.creating
  attached : ∀ i, s'.attached i = s.attached i

theorem Alike.live (h : Alike s s') : s'.live c = s.live c := by
  ext i
  rw [mem_live, mem_live, (h.segs i).allocated, h.creating.mem_iff]

theorem Alike.named (h : Alike s s') (id : Nat) : s'.Named c id ↔ s.Named c id := by
  rw [Named, Named, h.live, (h.segs _).seq]

theorem Sound.alike (hs : Sound c hole s) (h : Alike s s') (hprocs : ∀ p ∈ s'.procs, p.Ok c (s.Named c)) :
    Sound c hole s' where
  flags i hi := by rw [(h.segs i).free, (h.segs i).allocated]; exact hs.flags i hi
  lastFree i hi := by rw [(h.segs i).free]; exact hs.lastFree i (h.lastFree ▸ hi)
  nodup := h.creating.nodup_iff.2 hs.nodup
  creating i hi := by
    rw [(h.segs i).allocated, (h.segs i).removed]
    exact hs.creating i (h.creating.mem_iff.1 hi)
  nused := by rw [h.nused, h.live]; exact hs.nused
  committed := by
    have hpages : ∀ i, s'.pages i = s.pages i := fun i => by rw [pages, pages, (h.segs i).segsz]
    rw [h.committed, h.live, hs.committed]
    simp only [hpages]
  limit := h.committed ▸ hs.limit
  nattch i hi := by rw [(h.segs i).nattch, h.attached]; exact hs.nattch i hi
  small i hi := by rw [h.attached]; exact hs.small i hi
  removed i hi := by
    rw [(h.segs i).removed, h.attached]
    exact hs.removed i (h.live ▸ hi)
  keys i hi j hj := by
    rw [(h.segs i).allocated, (h.segs j).allocated, (h.segs i).key, (h.segs j).key]
    exact hs.keys i hi j hj
  procs p hp := (hprocs p hp).mono fun id => (h.named id).2

theorem split (hp : s.procs[pid]? = some p) :
    ∃ l₁ l₂, s.procs = l₁ ++ p :: l₂ ∧ ∀ f, s.procs.modify pid f = l₁ ++ f p :: l₂ := by
  obtain ⟨hlt, rfl⟩ := List.getElem?_eq_some_iff.1 hp
  refine ⟨s.procs.take pid, s.procs.drop (pid + 1), ?_, fun f => List.modify_eq_take_cons_drop hlt⟩
  rw [← List.drop_eq_getElem_cons hlt, List.take_append_drop]

theorem attached_setProc (hp : s.procs[pid]? = some p) (f : Proc → Proc) (i : Nat) :
    (s.setProc pid f).attached i + p.attached i = s.attached i + (f p).attached i := by
  obtain ⟨l₁, l₂, hprocs, hmodify⟩ := split hp
  have hafter : (s.setProc pid f).procs = l₁ ++ f p :: l₂ := hmodify f
  simp only [attached, hafter, hprocs, List.map_append, List.map_cons, List.sum_append, List.sum_cons]
  omega

theorem creating_setProc (hp : s.procs[pid]? = some p) (f : Proc → Proc) :
    ∃ l, s.creating.Perm (p.creates.toList ++ l) ∧ (s.setProc pid f).creating.Perm ((f p).creates.toList ++ l) := by
  obtain ⟨l₁, l₂, hprocs, hmodify⟩ := split hp
  have hperm : ∀ q : Proc, ((l₁ ++ q :: l₂).filterMap Proc.creates).Perm
      (q.creates.toList ++ (l₁.filterMap Proc.creates ++ l₂.filterMap Proc.creates)) := by
    intro q
    rw [List.filterMap_append, List.filterMap_cons]
    cases q.creates with
    | none => exact .refl _
    | some i => exact List.perm_middle
  refine ⟨l₁.filterMap Proc.creates ++ l₂.filterMap Proc.creates, ?_, ?_⟩
  · rw [creating, hprocs]
    exact hperm p
  · rw [creating, setProc, hmodify]
    exact hperm (f p)

theorem mem_setProc (hp : s.procs[pid]? = some p) {f : Proc → Proc} {q : Proc} (hq : q ∈ (s.setProc pid f).procs) :
    q = f p ∨ q ∈ s.procs := by
  obtain ⟨l₁, l₂, hprocs, hmodify⟩ := split hp
  rw [setProc, hmodify, List.mem_append, List.mem_cons] at hq
  rw [hprocs, List.mem_append, List.mem_cons]
  tauto

theorem getElem?_setProc (hp : s.procs[pid]? = some p) (f : Proc → Proc) : (s.setProc pid f).procs[pid]? = some (f p) := by
  simp only [setProc, List.getElem?_modify_eq, hp, Option.map_eq_map, Option.map_some]

theorem Sound.setProc (hs : Sound c hole s) (hp : s.procs[pid]? = some p) {f : Proc → Proc}
    (hcreates : (f p).creates = p.creates) (hattached : ∀ i, (f p).attached i = p.attached i)
    (hok : (f p).Ok c (s.Named c)) : Sound c hole (s.setProc pid f) := by
  obtain ⟨l, hold, hnew⟩ := creating_setProc hp f
  refine hs.alike ⟨fun i => .refl _, rfl, rfl, rfl, ?_, fun i => ?_⟩ fun q hq => ?_
  · rw [hcreates] at hnew
    exact hnew.trans hold.symm
  · have := attached_setProc hp f i
    rw [hattached] at this
    omega
  · rcases mem_setProc hp hq with rfl | hq
    · exact hok
    · exact hs.procs q hq

theorem Sound.ok (hs : Sound c hole s) (hp : s.procs[pid]? = some p) : p.Ok c (s.Named c) :=
  hs.procs p (List.mem_of_getElem? hp)

theorem Sound.setSleep (hs : Sound c hole s) (hp : s.procs[pid]? = some p) {w : Option Sleep}
    (hcreates : w.bind Sleep.creates = p.creates)
    (hsleeping : ∀ uap slot segnum, w = some (.atMmap uap slot segnum) → segnum = ipcidToIx uap.shmid ∧
      ∃ shmmap e, p.vmShm = some shmmap ∧ shmmap[slot]? = some e ∧ e.shmid = none)
    (hopening : ∀ uap, w = some (.atMalloc uap) → p.vmShm = none) :
    Sound c hole (s.setProc pid fun p => { p with sleep := w }) :=
  hs.setProc hp hcreates (fun _ => rfl) ⟨(hs.ok hp).entries, (hs.ok hp).table, hsleeping, hopening⟩

theorem Sound.reserve {segnum : Nat} {d : ShmidDs} (hs : Sound c hole s) (hlt : segnum < c.shmmni)
    (hfree : (s.shmsegs segnum).free = true) (hsegs : s'.shmsegs = Function.update s.shmsegs segnum d)
    (hd : d.free = false ∧ d.removed = true ∧ d.allocated = true ∧ d.shmNattch = (s.shmsegs segnum).shmNattch)
    (hkey : d.key ≠ 0 → ∀ j < c.shmmni, (s.shmsegs j).allocated = true → (s.shmsegs j).key ≠ d.key)
    (hlast : s'.shmLastFree = none) (hnused : s'.shmNused = s.shmNused) (hcommitted : s'.shmCommitted = s.shmCommitted)
    (hcreating : s'.creating.Perm (segnum :: s.creating)) (hattached : ∀ i, s'.attached i = s.attached i)
    (hprocs : ∀ p ∈ s'.procs, p.Ok c (s.Named c)) : Sound c hole s' := by
  have hnot : (s.shmsegs segnum).allocated = false := by
    have hflags := hs.flags segnum hlt
    rw [hfree] at hflags
    simpa using hflags.symm
  have hseg : s'.shmsegs segnum = d := by rw [hsegs, Function.update_self]
  have hother : ∀ i, i ≠ segnum → s'.shmsegs i = s.shmsegs i := fun i hi => by rw [hsegs, Function.update_of_ne hi]
  have hlive : s'.live c = s.live c := by
    ext i
    rw [mem_live, mem_live, hcreating.mem_iff, List.mem_cons, not_or]
    rcases eq_or_ne i segnum with rfl | hi
    · simp only [hnot, not_true_eq_false, false_and, and_false, Bool.false_eq_true]
    · simp only [hother i hi, hi, not_false_eq_true, true_and]
  have hin : ∀ i ∈ s.live c, i ≠ segnum := by
    rintro i hi rfl
    rw [mem_live, hnot] at hi
    exact absurd hi.2.1 Bool.false_ne_true
  refine ⟨fun i hi => ?_, fun i hi => ?_, ?_, fun i hi => ?_, ?_, ?_, ?_, fun i hi => ?_, fun i hi => ?_, fun i hi => ?_,
    fun i hi j hj => ?_, fun p hp => ?_⟩
  · rcases eq_or_ne i segnum with rfl | hne
    · rw [hseg, hd.1, hd.2.2.1]; rfl
    · rw [hother i hne]; exact hs.flags i hi
  · rw [hlast] at hi
    cases hi
  · rw [hcreating.nodup_iff, List.nodup_cons]
    refine ⟨fun hmem => ?_, hs.nodup⟩
    rw [(hs.creating segnum hmem).2.1] at hnot
    cases hnot
  · rcases eq_or_ne i segnum with rfl | hne
    · rw [hseg]; exact ⟨hlt, hd.2.2.1, hd.2.1⟩
    · rw [hother i hne]
      exact hs.creating i ((List.mem_cons.1 (hcreating.mem_iff.1 hi)).resolve_left hne)
  · rw [hnused, hlive]; exact hs.nused
  · rw [hcommitted, hs.committed, hlive]
    refine congrArg Nat.cast (Finset.sum_congr rfl fun i hi => ?_)
    rw [pages, pages, hother i (hin i hi)]
  · exact hcommitted ▸ hs.limit
  · rw [hattached]
    rcases eq_or_ne i segnum with rfl | hne
    · rw [hseg, hd.2.2.2]; exact hs.nattch i hi
    · rw [hother i hne]; exact hs.nattch i hi
  · rw [hattached]; exact hs.small i hi
  · rw [hlive] at hi
    rw [hother i (hin i hi), hattached]
    exact hs.removed i hi
  · rcases eq_or_ne i segnum with rfl | hi'
    · rcases eq_or_ne j i with rfl | hj'
      · exact fun _ _ _ _ => rfl
      · rw [hseg, hother j hj']
        exact fun _ hall heq hne => absurd heq.symm (hkey hne j hj hall)
    · rcases eq_or_ne j segnum with rfl | hj'
      · rw [hseg, hother i hi']
        exact fun hall _ heq hne => absurd heq (hkey (heq ▸ hne) i hi hall)
      · rw [hother i hi', hother j hj']
        exact hs.keys i hi j hj
  · refine (hprocs p hp).mono fun id hid => ?_
    rw [Named, hlive, hother _ (hin _ hid.1)]
    exact hid

theorem names_iff {e : ShmmapState} : e.names i = true ↔ ∃ id, e.shmid = some id ∧ ipcidToIx id = i := by
  rw [ShmmapState.names, beq_iff_eq, Option.map_eq_some_iff]

theorem Sound.attached_eq_zero (hs : Sound c hole s) (hi : i ∉ s.live c) : s.attached i = 0 := by
  refine List.sum_eq_zero fun n hn => ?_
  obtain ⟨p, hp, rfl⟩ := List.mem_map.1 hn
  refine List.countP_eq_zero.2 fun e he hnames => ?_
  obtain ⟨id, hid, rfl⟩ := names_iff.1 hnames
  exact hi ((hs.procs p hp).entries e he id hid).1

theorem Sound.finish {segnum : Nat} {d : ShmidDs} (hs : Sound c hole s)
    (hsegs : s'.shmsegs = Function.update s.shmsegs segnum d)
    (hd : d.free = false ∧ d.removed = false ∧ d.allocated = true ∧ d.shmNattch = 0 ∧ d.key = (s.shmsegs segnum).key)
    (hlast : s'.shmLastFree = s.shmLastFree) (hnused : s'.shmNused = s.shmNused + 1)
    (hcommitted : s'.shmCommitted = s.shmCommitted + btoc (clround d.shmSegsz)) (hlimit : s'.shmCommitted ≤ c.shmall)
    (hcreating : s.creating.Perm (segnum :: s'.creating)) (hattached : ∀ i, s'.attached i = s.attached i)
    (hprocs : ∀ p ∈ s'.procs, p.Ok c (s.Named c)) : Sound c hole s' := by
  have hmem : segnum ∈ s.creating := hcreating.mem_iff.2 List.mem_cons_self
  obtain ⟨hlt, hall, -⟩ := hs.creating segnum hmem
  have hnodup := List.nodup_cons.1 (hcreating.nodup_iff.1 hs.nodup)
  have hseg : s'.shmsegs segnum = d := by rw [hsegs, Function.update_self]
  have hother : ∀ i, i ≠ segnum → s'.shmsegs i = s.shmsegs i := fun i hi => by rw [hsegs, Function.update_of_ne hi]
  have hnot : segnum ∉ s.live c := fun h => (mem_live.1 h).2.2 hmem
  have hzero := hs.attached_eq_zero hnot
  have hlive : s'.live c = insert segnum (s.live c) := by
    ext i
    rw [Finset.mem_insert, mem_live, mem_live, hcreating.mem_iff, List.mem_cons, not_or]
    rcases eq_or_ne i segnum with rfl | hi
    · simp only [hseg, hlt, hd.2.2.1, hnodup.1, not_false_eq_true, and_self, true_or]
    · simp only [hother i hi, hi, not_false_eq_true, true_and, false_or]
  have hin : ∀ i ∈ s.live c, i ≠ segnum := fun i hi heq => hnot (heq ▸ hi)
  have hallocated : ∀ i, (s'.shmsegs i).allocated = (s.shmsegs i).allocated ∧ (s'.shmsegs i).key = (s.shmsegs i).key := by
    intro i
    rcases eq_or_ne i segnum with rfl | hi
    · rw [hseg]; exact ⟨hd.2.2.1.trans hall.symm, hd.2.2.2.2⟩
    · rw [hother i hi]; exact ⟨rfl, rfl⟩
  refine ⟨fun i hi => ?_, fun i hi => ?_, hnodup.2, fun i hi => ?_, ?_, ?_, hlimit, fun i hi => ?_, fun i hi => ?_,
    fun i hi => ?_, fun i hi j hj => ?_, fun p hp => ?_⟩
  · rcases eq_or_ne i segnum with rfl | hne
    · rw [hseg, hd.1, hd.2.2.1]; rfl
    · rw [hother i hne]; exact hs.flags i hi
  · intro hpos
    obtain ⟨hi', hfree⟩ := hs.lastFree i (hlast ▸ hi) hpos
    refine ⟨hi', ?_⟩
    have hne : i ≠ segnum := by
      rintro rfl
      have := hs.flags i hi'
      rw [hfree, hall] at this
      cases this
    rw [hother i hne]
    exact hfree
  · have hne : i ≠ segnum := fun heq => hnodup.1 (heq ▸ hi)
    rw [hother i hne]
    exact hs.creating i (hcreating.mem_iff.2 (List.mem_cons_of_mem _ hi))
  · rw [hnused, hlive, Finset.card_insert_of_notMem hnot, hs.nused, Int.natCast_add, Int.natCast_one]
  · rw [hcommitted, hlive, Finset.sum_insert hnot, hs.committed, Int.natCast_add, Int.add_comm]
    have hpages : ∀ i ∈ s.live c, s'.pages i = s.pages i := fun i hi => by rw [pages, pages, hother i (hin i hi)]
    rw [Finset.sum_congr rfl hpages, pages, hseg]
  · rw [hattached]
    rcases eq_or_ne i segnum with rfl | hne
    · rw [hseg, hd.2.2.2.1, hzero]; rfl
    · rw [hother i hne]; exact hs.nattch i hi
  · rw [hattached]; exact hs.small i hi
  · rw [hlive, Finset.mem_insert] at hi
    rcases eq_or_ne i segnum with rfl | hne
    · rw [hseg, hd.2.1]
      exact fun h => absurd h Bool.false_ne_true
    · rw [hother i hne, hattached]
      exact hs.removed i (hi.resolve_left hne)
  · rw [(hallocated i).1, (hallocated j).1, (hallocated i).2, (hallocated j).2]
    exact hs.keys i hi j hj
  · refine (hprocs p hp).mono fun id hid => ⟨?_, ?_⟩
    · rw [hlive]
      exact Finset.mem_insert_of_mem hid.1
    · rw [hother _ (hin _ hid.1)]
      exact hid.2

theorem not_named_of_attached (hzero : s.attached i = 0) (hp : p ∈ s.procs) {e : ShmmapState} (he : e ∈ p.entries) {id : Nat}
    (hid : e.shmid = some id) : ipcidToIx id ≠ i := by
  intro heq
  have hle : p.attached i ≤ s.attached i := List.single_le_sum (fun _ _ => Nat.zero_le _) _ (List.mem_map_of_mem hp)
  have hpos : 0 < p.attached i := List.countP_pos_iff.2 ⟨e, he, names_iff.2 ⟨id, hid, heq⟩⟩
  omega

theorem Sound.release {segnum : Nat} (hs : Sound c hole s) (hlt : segnum < c.shmmni)
    (hsegs : s'.shmsegs = Function.update s.shmsegs segnum (s.shmsegs segnum).setFree)
    (hlast : s'.shmLastFree = some segnum) (hnused : s'.shmNused = ((s.live c).erase segnum).card)
    (hcommitted : s'.shmCommitted = (∑ i ∈ (s.live c).erase segnum, s.pages i : Nat)) (hnodup : s'.creating.Nodup)
    (hcreating : ∀ i, i ∈ s'.creating ↔ i ≠ segnum ∧ i ∈ s.creating) (hzero : s.attached segnum = 0)
    (hattached : ∀ i, s'.attached i = s.attached i) (hprocs : ∀ p ∈ s'.procs, p.Ok c (s.Named c))
    (hhole : ∀ i, hole i → i = segnum) : Sound c (fun _ => False) s' := by
  have hseg : s'.shmsegs segnum = (s.shmsegs segnum).setFree := by rw [hsegs, Function.update_self]
  have hother : ∀ i, i ≠ segnum → s'.shmsegs i = s.shmsegs i := fun i hi => by rw [hsegs, Function.update_of_ne hi]
  have hall : ∀ i, (s'.shmsegs i).allocated = true → i ≠ segnum ∧ (s.shmsegs i).allocated = true := by
    intro i hi
    have hne : i ≠ segnum := by
      rintro rfl
      rw [hseg] at hi
      cases hi
    exact ⟨hne, hother i hne ▸ hi⟩
  have hlive : s'.live c = (s.live c).erase segnum := by
    ext i
    rw [Finset.mem_erase, mem_live, mem_live, hcreating]
    rcases eq_or_ne i segnum with rfl | hi
    · simp only [hseg, ShmidDs.setFree, Bool.false_eq_true, false_and, and_false, ne_eq, not_true_eq_false]
    · simp only [hother i hi, ne_eq, hi, not_false_eq_true, true_and]
  refine ⟨fun i hi => ?_, fun i hi => ?_, hnodup, fun i hi => ?_, ?_, ?_, ?_, fun i hi => ?_, fun i hi => ?_, fun i hi => ?_,
    fun i hi j hj halli hallj => ?_, fun p hp => ?_⟩
  · rcases eq_or_ne i segnum with rfl | hne
    · rw [hseg]; rfl
    · rw [hother i hne]; exact hs.flags i hi
  · rw [hlast] at hi
    obtain rfl := Option.some.inj hi
    rw [hseg]
    exact fun _ => ⟨hlt, rfl⟩
  · obtain ⟨hne, hi⟩ := (hcreating i).1 hi
    rw [hother i hne]
    exact hs.creating i hi
  · rw [hnused, hlive]
  · rw [hcommitted, hlive]
    refine congrArg Nat.cast (Finset.sum_congr rfl fun i hi => ?_)
    rw [pages, pages, hother i (Finset.ne_of_mem_erase hi)]
  · have hle : ∑ i ∈ (s.live c).erase segnum, s.pages i ≤ ∑ i ∈ s.live c, s.pages i :=
      Finset.sum_le_sum_of_subset (Finset.erase_subset segnum (s.live c))
    have := hs.limit
    have := hs.committed
    omega
  · rw [hattached]
    rcases eq_or_ne i segnum with rfl | hne
    · rw [hseg]; exact hs.nattch i hi
    · rw [hother i hne]; exact hs.nattch i hi
  · rw [hattached]; exact hs.small i hi
  · rw [hlive, Finset.mem_erase] at hi
    rw [hother i hi.1, hattached]
    exact fun hremoved _ => hs.removed i hi.2 hremoved fun h => hi.1 (hhole i h)
  · obtain ⟨hnei, halli⟩ := hall i halli
    obtain ⟨hnej, hallj⟩ := hall j hallj
    rw [hother i hnei, hother j hnej]
    exact hs.keys i hi j hj halli hallj
  · have hok := hprocs p hp
    refine ⟨fun e he id hid => ?_, hok.table, hok.sleeping, hok.opening⟩
    have hne := not_named_of_attached ((hattached segnum).trans hzero) hp he hid
    obtain ⟨hin, hseq⟩ := hok.entries e he id hid
    refine ⟨?_, ?_⟩
    · rw [hlive]
      exact Finset.mem_erase.2 ⟨hne, hin⟩
    · rw [hother _ hne]
      exact hseq

theorem Sound.abort {segnum : Nat} (hs : Sound c (fun _ => False) s)
    (hsegs : s'.shmsegs = Function.update s.shmsegs segnum (s.shmsegs segnum).setFree)
    (hlast : s'.shmLastFree = some segnum) (hnused : s'.shmNused = s.shmNused)
    (hcommitted : s'.shmCommitted = s.shmCommitted) (hcreating : s.creating.Perm (segnum :: s'.creating))
    (hattached : ∀ i, s'.attached i = s.attached i) (hprocs : ∀ p ∈ s'.procs, p.Ok c (s.Named c)) :
    Sound c (fun _ => False) s' := by
  have hmem : segnum ∈ s.creating := hcreating.mem_iff.2 List.mem_cons_self
  have hnodup := List.nodup_cons.1 (hcreating.nodup_iff.1 hs.nodup)
  have hnot : segnum ∉ s.live c := fun h => (mem_live.1 h).2.2 hmem
  have herase := Finset.erase_eq_of_notMem hnot
  refine hs.release (hs.creating segnum hmem).1 hsegs hlast ?_ ?_ hnodup.2 (fun i => ?_) (hs.attached_eq_zero hnot) hattached
    hprocs fun _ h => h.elim
  · rw [hnused, herase]
    exact hs.nused
  · rw [hcommitted, herase]
    exact hs.committed
  · rw [hcreating.mem_iff, List.mem_cons]
    constructor
    · exact fun hi => ⟨fun heq => hnodup.1 (heq ▸ hi), .inr hi⟩
    · exact fun h => h.2.resolve_left h.1

theorem Sound.deallocate {segnum : Nat} (hs : Sound c (· = segnum) s) (hin : segnum ∈ s.live c)
    (hzero : s.attached segnum = 0) :
    Sound c (fun _ => False) { s.shmDeallocateSegment segnum with shmLastFree := some segnum } := by
  obtain ⟨hlt, hall, hnot⟩ := mem_live.1 hin
  refine hs.release hlt rfl rfl ?_ ?_ hs.nodup (fun i => ?_) hzero (fun _ => rfl) hs.procs fun _ h => h
  · change s.shmNused - 1 = _
    rw [hs.nused, Finset.card_erase_of_mem hin]
    have := Finset.card_pos.2 ⟨segnum, hin⟩
    omega
  · change s.shmCommitted - (s.pages segnum : Nat) = _
    have hsum := Finset.sum_erase_add (s.live c) s.pages hin
    have := hs.committed
    omega
  · change i ∈ s.creating ↔ _
    exact ⟨fun hi => ⟨fun heq => hnot (heq ▸ hi), hi⟩, fun h => h.2⟩

theorem Sound.recount {m : Nat → Int} {hole' : Nat → Prop} (hs : Sound c hole s)
    (hsegs : ∀ i, s'.shmsegs i = { s.shmsegs i with shmNattch := m i }) (hm : ∀ i < c.shmmni, m i = s'.attached i)
    (hsmall : ∀ i < c.shmmni, s'.attached i < 32768) (hlast : s'.shmLastFree = s.shmLastFree)
    (hnused : s'.shmNused = s.shmNused) (hcommitted : s'.shmCommitted = s.shmCommitted)
    (hcreating : s'.creating.Perm s.creating)
    (hremoved : ∀ i, ¬ hole' i → ¬ hole i ∧ (0 < s.attached i → 0 < s'.attached i))
    (hprocs : ∀ p ∈ s'.procs, p.Ok c (s.Named c)) : Sound c hole' s' := by
  have hlive : s'.live c = s.live c := by
    ext i
    rw [mem_live, mem_live, hsegs i, hcreating.mem_iff]
  refine ⟨fun i hi => ?_, fun i hi => ?_, hcreating.nodup_iff.2 hs.nodup, fun i hi => ?_, ?_, ?_, hcommitted ▸ hs.limit,
    fun i hi => ?_, hsmall, fun i hi => ?_, fun i hi j hj => ?_, fun p hp => ?_⟩
  · rw [hsegs i]; exact hs.flags i hi
  · rw [hsegs i]; exact hs.lastFree i (hlast ▸ hi)
  · rw [hsegs i]; exact hs.creating i (hcreating.mem_iff.1 hi)
  · rw [hnused, hlive]; exact hs.nused
  · rw [hcommitted, hlive, hs.committed]
    refine congrArg Nat.cast (Finset.sum_congr rfl fun i _ => ?_)
    rw [pages, pages, hsegs i]
  · rw [hsegs i]; exact hm i hi
  · rw [hsegs i]
    intro hrem hhole
    obtain ⟨hnot, hpos⟩ := hremoved i hhole
    exact hpos (hs.removed i (hlive ▸ hi) hrem hnot)
  · rw [hsegs i, hsegs j]; exact hs.keys i hi j hj
  · refine (hprocs p hp).mono fun id hid => ?_
    rw [Named, hlive, hsegs]
    exact hid

theorem Sound.mark {segnum : Nat} (hs : Sound c (fun _ => False) s) :
    Sound c (· = segnum) (s.setSeg segnum fun d => { d with key := 0, removed := true }) := by
  generalize hs' : s.setSeg segnum (fun d => { d with key := 0, removed := true }) = s'
  have hseg : s'.shmsegs segnum = { s.shmsegs segnum with key := 0, removed := true } := by
    rw [← hs', setSeg]
    exact Function.update_self ..
  have hother : ∀ i, i ≠ segnum → s'.shmsegs i = s.shmsegs i := by
    intro i hi
    rw [← hs', setSeg]
    exact Function.update_of_ne hi ..
  have hsame : ∀ i, (s'.shmsegs i).free = (s.shmsegs i).free ∧ (s'.shmsegs i).allocated = (s.shmsegs i).allocated ∧
      (s'.shmsegs i).seq = (s.shmsegs i).seq ∧ (s'.shmsegs i).shmSegsz = (s.shmsegs i).shmSegsz ∧
      (s'.shmsegs i).shmNattch = (s.shmsegs i).shmNattch := by
    intro i
    rcases eq_or_ne i segnum with rfl | hi
    · rw [hseg]; exact ⟨rfl, rfl, rfl, rfl, rfl⟩
    · rw [hother i hi]; exact ⟨rfl, rfl, rfl, rfl, rfl⟩
  have hcreating : s'.creating = s.creating := hs' ▸ rfl
  have hattached : ∀ i, s'.attached i = s.attached i := hs' ▸ fun _ => rfl
  have hlive : s'.live c = s.live c := by
    ext i
    rw [mem_live, mem_live, (hsame i).2.1, hcreating]
  refine ⟨fun i hi => ?_, fun i hi => ?_, hcreating ▸ hs.nodup, fun i hi => ?_, ?_, ?_, hs' ▸ hs.limit, fun i hi => ?_,
    fun i hi => ?_, fun i hi hrem hne => ?_, fun i hi j hj => ?_, fun p hp => ?_⟩
  · rw [(hsame i).1, (hsame i).2.1]; exact hs.flags i hi
  · rw [(hsame i).1]
    refine hs.lastFree i ?_
    rw [← hi, ← hs']
    rfl
  · obtain ⟨hlt, hall, hrem⟩ := hs.creating i (hcreating ▸ hi)
    refine ⟨hlt, (hsame i).2.1.trans hall, ?_⟩
    rcases eq_or_ne i segnum with rfl | hne
    · rw [hseg]
    · rw [hother i hne]; exact hrem
  · rw [hlive, ← hs']; exact hs.nused
  · have hpages : ∀ i, s'.pages i = s.pages i := fun i => by rw [pages, pages, (hsame i).2.2.2.1]
    rw [hlive]
    simp only [hpages]
    rw [← hs']
    exact hs.committed
  · rw [hattached, (hsame i).2.2.2.2]; exact hs.nattch i hi
  · rw [hattached]; exact hs.small i hi
  · rw [hother i hne] at hrem
    rw [hattached]
    exact hs.removed i (hlive ▸ hi) hrem fun h => h
  · rw [(hsame i).2.1, (hsame j).2.1]
    have hkey : ∀ k, (s'.shmsegs k).key ≠ 0 → (s'.shmsegs k).key = (s.shmsegs k).key := by
      intro k hk
      rcases eq_or_ne k segnum with rfl | hne
      · rw [hseg] at hk
        exact absurd rfl hk
      · rw [hother k hne]
    intro halli hallj heq hne
    refine hs.keys i hi j hj halli hallj ?_ (hkey i hne ▸ hne)
    rw [← hkey i hne, ← hkey j (heq ▸ hne), heq]
  · have hmem : p ∈ s.procs := by
      rw [← hs'] at hp
      exact hp
    refine (hs.procs p hmem).mono fun id hid => ?_
    rw [Named, hlive, (hsame _).2.2.1]
    exact hid

theorem Sound.settle {segnum : Nat} (hs : Sound c (· = segnum) s) (hin : segnum ∈ s.live c) :
    Sound c (fun _ => False) (if (s.shmsegs segnum).shmNattch ≤ 0 ∧ (s.shmsegs segnum).removed then
      { s.shmDeallocateSegment segnum with shmLastFree := some segnum } else s) := by
  have hnattch := hs.nattch segnum (mem_live.1 hin).1
  split
  · next h =>
    refine hs.deallocate hin ?_
    have := h.1
    omega
  · next h =>
    refine { hs with removed := fun i hi hrem _ => ?_ }
    by_cases heq : i = segnum
    · subst heq
      by_contra hzero
      exact h ⟨by omega, hrem⟩
    · exact hs.removed i hi hrem heq

end Sys

end NetBSD.Shm
