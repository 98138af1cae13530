import NetBSD.Ffs.Inodes
import NetBSD.Ffs.Lost

/-!
# Updates of cylinder groups

No update of a group is lost as long as a group that has been changed is not given back by `brelse` in a buffer that is not marked.
-/

namespace NetBSD.Ffs

open Lib (Runs Writeback)

section

variable {fs : Fs} {ipg time : Nat} {a a' : Access} {ret : Nat} {c : Cylinders} {last : Nat → Cylinder}

def HasCluster (fs : Fs) (cg : Cg) (bpref len : Nat) : Prop :=
  let bpref := if fs.dtog bpref ≠ cg.cgx then 0 else fs.fragstoblks (fs.dtogd (fs.blknum bpref))
  (∃ i, len ≤ i ∧ i ≤ fs.contigsumsize ∧ 0 < cg.clustersum i) ∧
    (clusterLoop cg.clustersfree len (cg.nclusterblks - bpref) bpref 0).1 ≠ cg.nclusterblks

/-- The calls that give back by `brelse` what they have changed: a cluster, or the time alone where nothing is allocated. -/
def GroupCall.Unmarked (fs : Fs) (time : Nat) (a : Access) : GroupCall → Prop
  | .fragextend _ bprev osize nsize =>
    (¬ a.cs.nffree < fs.numfrags (nsize - osize) ∧ fs.fragnum bprev ≤ fs.fragnum (bprev + fs.numfrags nsize - 1)) ∧
      time ≠ a.cylinder.time ∧
      ∃ i, fs.numfrags osize ≤ i ∧ i < fs.numfrags nsize ∧ a.cylinder.cg.blksfree.isset (fs.dtogd bprev + i) = false
  | .alloccg _ _ size => time ≠ a.cylinder.time ∧ size ≠ fs.bsize ∧ a.cylinder.cg.nbfree = 0 ∧
      ∀ i, fs.numfrags size ≤ i ∧ i < fs.frag → a.cylinder.cg.frsum i = 0
  | .clusteralloc _ bpref len => ¬ a.cs.nbfree < len ∧ HasCluster fs a.cylinder.cg bpref len
  | _ => False

def GroupCall.Slips (fs : Fs) (time : Nat) (a : Access) (call : GroupCall) : Prop :=
  a.error = false ∧ a.cylinder.chkmagic = true ∧ call.Unmarked fs time a

def Cylinders.Careful (fs : Fs) (ipg : Nat) (c : Cylinders) : CacheCall → Prop
  | .group call time fails =>
    (c.cache.read (call.cg fs ipg)).dirty = true ∨ ¬ call.Slips fs time (c.access (call.cg fs ipg) fails)
  | _ => True

theorem brelse_fragextend {bprev osize nsize : Nat} (h : a.fragextend fs time bprev osize nsize = some (ret, .brelse, a'))
    {cg : Nat} (hq : ¬ (GroupCall.fragextend cg bprev osize nsize).Slips fs time a) :
    a' = a := by
  unfold Access.fragextend at h
  dsimp only at h
  split at h
  · cases h
  split at h
  · cases h
  split at h
  · cases h
  split at h
  · cases h
    rfl
  next hnffree hspan herr hmagic =>
  split at h
  · next hany =>
    cases h
    obtain ⟨i, hi, hclear⟩ := List.any_eq_true.1 hany
    rw [List.mem_range'_1] at hi
    have htime : time = a.cylinder.time := by
      by_contra hne
      refine hq ⟨Bool.eq_false_iff.2 herr, eq_true_of_ne_false hmagic, ⟨hnffree, Nat.le_of_not_lt hspan⟩, hne, i, hi.1,
        by omega, ?_⟩
      rwa [Bool.not_eq_true'] at hclear
    rw [htime]
    rfl
  · cases h

theorem brelse_alloccg {bpref size : Nat} (h : a.alloccg fs time bpref size = some (ret, .brelse, a'))
    {cg : Nat} (hq : ¬ (GroupCall.alloccg cg bpref size).Slips fs time a) : a' = a := by
  unfold Access.alloccg at h
  dsimp only at h
  split at h
  · cases h
  split at h
  · cases h
  split at h
  · cases h
    rfl
  next herr hmagic =>
  split at h
  · next hnone =>
    cases h
    have htime : time = a.cylinder.time := by
      by_contra hne
      refine hq ⟨Bool.eq_false_iff.2 herr, eq_true_of_ne_false fun hm => hmagic (.inl hm), hne, hnone.1, hnone.2.1,
        fun i hi => ?_⟩
      exact of_decide_eq_true (List.all_eq_true.1 hnone.2.2 i (List.mem_range'_1.2 (by omega)))
    rw [htime]
    rfl
  · obtain ⟨r, -, hr⟩ := Option.map_eq_some_iff.1 h
    cases hr

theorem clusteralloc_none {g : Group} {bpref len : Nat} (h : ¬ HasCluster fs g.cg bpref len) :
    clusteralloc fs g bpref len = some (0, g) := by
  unfold clusteralloc
  split
  · rfl
  split
  · rfl
  next hsum =>
  rw [List.all_eq_true, not_forall] at hsum
  obtain ⟨i, hi⟩ := hsum
  obtain ⟨hmem, hpos⟩ := Classical.not_imp.1 hi
  rw [List.mem_range'_1] at hmem
  have hpos' : 0 < g.cg.clustersum i := Int.lt_of_not_ge fun hle => hpos (decide_eq_true hle)
  have hend : (clusterLoop g.cg.clustersfree len
      (g.cg.nclusterblks - if fs.dtog bpref ≠ g.cg.cgx then 0 else fs.fragstoblks (fs.dtogd (fs.blknum bpref)))
      (if fs.dtog bpref ≠ g.cg.cgx then 0 else fs.fragstoblks (fs.dtogd (fs.blknum bpref))) 0).1 = g.cg.nclusterblks := by
    by_contra hne
    exact h ⟨⟨i, hmem.1, by omega, hpos'⟩, hne⟩
  dsimp only
  generalize clusterLoop _ _ _ _ _ = r at hend
  obtain ⟨i, run⟩ := r
  rw [if_pos hend]

theorem brelse_clusteralloc {bpref len : Nat} (h : a.clusteralloc fs bpref len = some (ret, .brelse, a'))
    {cg : Nat} (hq : ¬ (GroupCall.clusteralloc cg bpref len).Slips fs time a) : a' = a := by
  unfold Access.clusteralloc at h
  split at h
  · cases h
  split at h
  · cases h
  split at h
  · cases h
    rfl
  next hnbfree herr hmagic =>
  have hnone : ¬ HasCluster fs a.cylinder.cg bpref len := fun hc =>
    hq ⟨Bool.eq_false_iff.2 herr, eq_true_of_ne_false hmagic, hnbfree, hc⟩
  rw [clusteralloc_none hnone] at h
  cases h
  rfl

theorem brelse_nodealloccg {cg ipref : Nat} {dir : Bool} (h : a.nodealloccg ipg cg time ipref dir = some (ret, .brelse, a')) :
    a' = a := by
  unfold Access.nodealloccg at h
  split at h
  · cases h
  split at h
  · cases h
  split at h
  · cases h
    rfl
  dsimp only at h
  split at h
  · cases h
  · obtain ⟨r, -, hr⟩ := Option.map_eq_some_iff.1 h
    cases hr

theorem brelse_blkfree {bno size : Nat} (h : a.blkfree fs time bno size = some (ret, .brelse, a')) : a' = a := by
  unfold Access.blkfree at h
  split at h
  · cases h
  split at h
  · cases h
  split at h
  · cases h
  split at h
  · cases h
    rfl
  · obtain ⟨g, -, hg⟩ := Option.map_eq_some_iff.1 h
    cases hg

theorem brelse_vfree {ino : Nat} {dir ronly : Bool} (h : a.vfree fs ipg time ino dir ronly = some (ret, .brelse, a')) : a' = a := by
  unfold Access.vfree at h
  split at h
  · cases h
  split at h
  · cases h
  split at h
  · cases h
    rfl
  dsimp only at h
  split at h
  · cases h
  · cases h

theorem GroupCall.brelse_eq {call : GroupCall} (h : call.run fs ipg time a = some (ret, .brelse, a'))
    (hq : ¬ call.Slips fs time a) : a' = a := by
  cases call with
  | fragextend cg bprev osize nsize => exact brelse_fragextend h hq
  | alloccg cg bpref size => exact brelse_alloccg h hq
  | clusteralloc cg bpref len => exact brelse_clusteralloc h hq
  | nodealloccg cg ipref dir => exact brelse_nodealloccg h
  | blkfree bno size => exact brelse_blkfree h
  | vfree ino dir ronly => exact brelse_vfree h

theorem Cylinders.call_keeps {c' : Cylinders} {last' : Nat → Cylinder} (hk : Writeback.Keeps c.cache last) {call : CacheCall}
    (hok : c.Careful fs ipg call) (h : c.call fs ipg last call = some (c', last')) : Writeback.Keeps c'.cache last' := by
  cases call with
  | group call time fails =>
    obtain ⟨⟨ret, exit, a⟩, hrun, heq⟩ := Option.map_eq_some_iff.1 h
    cases exit with
    | early =>
      cases heq
      exact hk
    | bdwrite =>
      cases heq
      exact hk.release (.inl rfl)
    | brelse =>
      cases heq
      refine hk.giveBack ?_
      rcases hok with hdirty | hq
      · exact .inl hdirty
      · right
        rw [GroupCall.brelse_eq hrun hq]
        rfl
  | write cg =>
    cases h
    exact hk.writeOut cg
  | reclaim cg =>
    cases h
    exact hk.letGo cg

def Mounted (s : Cylinders × (Nat → Cylinder)) : Prop := (∀ cg, s.1.cache.held cg = none) ∧ s.2 = s.1.cache.store

/-- In careful runs each call finds a group as the call before has left it. -/
theorem updates_kept {s : Cylinders × (Nat → Cylinder)}
    (h : Runs Mounted (fun s call => s.1.call fs ipg s.2 call) (fun s call => s.1.Careful fs ipg call) s) (cg : Nat) (fails : Bool) :
    (s.1.access cg fails).cylinder = s.2 cg := by
  have hkeeps : Writeback.Keeps s.1.cache s.2 := by
    refine h.invariant (fun s hs => ?_) fun s call s' hs hok hstep => Cylinders.call_keeps hs hok hstep
    rw [hs.2]
    exact .start hs.1
  exact hkeeps.data cg

end

def freeGroup : Cylinder where
  cg := {
    Cg.full 0 8 2 with
    nbfree := 4
    blktot := fun _ => 4
    blks := fun _ _ => 4
    blksfree := fun _ => 0xff
    clustersum := fun i => if i = 2 then 1 else 0
    clustersfree := fun _ => 0x0f }
  chkmagic := true
  time := 0
  nifree := 8
  ndir := 0
  irotor := 0
  inosused := fun _ => 0

def freeGroups : Cylinders where
  cache := ⟨fun _ => freeGroup, fun _ => none⟩
  cs := fun _ => ⟨4, 0⟩
  cstotal := ⟨4, 0⟩
  inodes := fun _ => ⟨8, 0⟩
  inodesTotal := ⟨8, 0⟩

def groupStep (s : Cylinders × (Nat → Cylinder)) (call : CacheCall) : Option (Cylinders × (Nat → Cylinder)) :=
  s.1.call smallFs 8 s.2 call

theorem freeGroups_mounted : Mounted (freeGroups, fun _ => freeGroup) := ⟨fun _ => rfl, rfl⟩

def groupAfter (s : Cylinders × (Nat → Cylinder)) (call : CacheCall) : Cylinders × (Nat → Cylinder) := (groupStep s call).getD s

theorem updates_kept_inode :
    let s := groupAfter (groupAfter (freeGroups, fun _ => freeGroup) (.group (.nodealloccg 0 3 false) 1 false)) (.reclaim 0)
    (s.1.access 0 false).cylinder.nifree = 7 ∧ (s.1.access 0 false).cylinder = s.2 0 := by
  have hstart : Runs Mounted groupStep (fun s call => s.1.Careful smallFs 8 call) _ := .start freeGroups_mounted
  have hone := hstart.after (.group (.nodealloccg 0 3 false) 1 false) (.inr fun h => h.2.2) (by decide)
  have htwo := hone.after (.reclaim 0) trivial (by decide)
  exact ⟨by decide, updates_kept htwo 0 false⟩

/-- A cluster is allocated in a clean buffer, and the buffer is taken: its block is free again. -/
theorem cluster_update_lost : ¬ ∀ (fs : Fs) (ipg : Nat) (s : Cylinders × (Nat → Cylinder)),
    Runs Mounted (fun s call => s.1.call fs ipg s.2 call) (fun _ _ => True) s →
      ∀ cg fails, (s.1.access cg fails).cylinder = s.2 cg := by
  intro hall
  have hstart : Runs Mounted groupStep (fun _ _ => True) _ := .start freeGroups_mounted
  have hone := hstart.after (.group (.clusteralloc 0 0 1) 1 false) trivial (by decide)
  have htwo := hone.after (.reclaim 0) trivial (by decide)
  have hlost := congrArg (fun c => c.cg.nbfree) (hall smallFs 8 _ htwo 0 false)
  exact absurd hlost (by decide)

end NetBSD.Ffs
