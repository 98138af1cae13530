import NetBSD.Fd.Files

/-!
# Calls on descriptors

Each call keeps the tables good and `f_count` the number of references, as long as a descriptor fits into a `u_short` and
the references to a file fit into a `short`.
-/

namespace NetBSD.Fd

theorem sum_eraseIdx {l : List Proc} {pid : Nat} {p : Proc} (hp : l[pid]? = some p) (f : Proc → Nat) :
    (l.map f).sum = f p + ((l.eraseIdx pid).map f).sum := by
  induction l generalizing pid with
  | nil => exact absurd hp (by simp)
  | cons q l ih =>
    cases pid with
    | zero =>
      obtain rfl : q = p := by simpa using hp
      simp only [List.map_cons, List.sum_cons, List.eraseIdx_cons_zero]
    | succ pid =>
      have hl := ih (show l[pid]? = some p by simpa using hp)
      simp only [List.map_cons, List.sum_cons, List.eraseIdx_cons_succ]
      omega

theorem eraseIdx_modify (l : List Proc) (pid : Nat) (f : Proc → Proc) :
    (l.modify pid f).eraseIdx pid = l.eraseIdx pid := by
  induction l generalizing pid with
  | nil => simp
  | cons q l ih =>
    cases pid with
    | zero => rfl
    | succ pid => simp only [List.modify_succ_cons, List.eraseIdx_cons_succ, ih]

namespace Sys

variable {s s' : Sys} {p : Proc} {pid want fd old new fp : Nat} {fdp fdp' : Filedesc}

def slots (s : Sys) (fp : Nat) : Nat := (s.procs.map fun p => p.fd.refs fp).sum

def others (s : Sys) (pid fp : Nat) : Nat := ((s.procs.eraseIdx pid).map fun p => p.fd.refs fp).sum

structure Sound (s : Sys) : Prop where
  good : ∀ p ∈ s.procs, p.fd.Good
  counts : Counts s.slots s

theorem slots_eq (hp : s.procs[pid]? = some p) (fp : Nat) : s.slots fp = p.fd.refs fp + s.others pid fp :=
  sum_eraseIdx hp _

theorem proc_setFd (hp : s.procs[pid]? = some p) (fdp : Filedesc) :
    (s.setFd pid fdp).procs[pid]? = some { p with fd := fdp } := by
  simp only [setFd, List.getElem?_modify_eq, hp, Option.map_eq_map, Option.map_some]

theorem others_setFd (s : Sys) (pid : Nat) (fdp : Filedesc) : (s.setFd pid fdp).others pid = s.others pid := by
  funext fp
  simp only [others, setFd, eraseIdx_modify]

theorem slots_setFd (hp : s.procs[pid]? = some p) (fdp : Filedesc) (fp : Nat) :
    (s.setFd pid fdp).slots fp = fdp.refs fp + s.others pid fp := by
  rw [slots_eq (proc_setFd hp fdp), others_setFd]

structure Using (s : Sys) (pid : Nat) (fdp : Filedesc) : Prop where
  proc : ∃ p, s.procs[pid]? = some p
  good : ∀ p ∈ s.procs, p.fd.Good
  table : fdp.Good

theorem Using.setFd (hu : Using s pid fdp) (hg : fdp'.Good) : Using (s.setFd pid fdp') pid fdp' := by
  obtain ⟨p, hp⟩ := hu.proc
  refine ⟨⟨_, proc_setFd hp fdp'⟩, fun q hq => ?_, hg⟩
  obtain ⟨i, hi⟩ := List.mem_iff_getElem?.1 hq
  simp only [Sys.setFd, List.getElem?_modify, Option.map_eq_map, Option.map_eq_some_iff] at hi
  obtain ⟨q', hq', rfl⟩ := hi
  split
  · exact hg
  · exact hu.good q' (List.mem_of_getElem? hq')

theorem Using.congr (hu : Using s pid fdp) (hprocs : s'.procs = s.procs) : Using s' pid fdp :=
  ⟨hprocs ▸ hu.proc, hprocs ▸ hu.good, hu.table⟩

theorem others_congr (hprocs : s'.procs = s.procs) : s'.others pid = s.others pid := by
  funext fp
  rw [others, hprocs, others]

theorem slots_congr (hprocs : s'.procs = s.procs) : s'.slots = s.slots := by
  funext fp
  rw [slots, hprocs, slots]

theorem Using.sound (hu : Using s pid fdp) (hg : fdp'.Good)
    (hc : Counts (fun fp => fdp'.refs fp + s.others pid fp) s) : Sound (s.setFd pid fdp') := by
  obtain ⟨p, hp⟩ := hu.proc
  refine ⟨(hu.setFd hg).good, hc.move rfl fun fp => ?_⟩
  rw [slots_setFd hp]
  rfl

theorem Sound.using (hs : Sound s) (hp : s.procs[pid]? = some p) : Using s pid p.fd :=
  ⟨⟨p, hp⟩, hs.good, hs.good p (List.mem_of_getElem? hp)⟩

theorem Sound.counts_using (hs : Sound s) (hp : s.procs[pid]? = some p) :
    Counts (fun fp => p.fd.refs fp + s.others pid fp) s := hs.counts.of_eq fun fp => (slots_eq hp fp).symm

def CanTake (s : Sys) (p : Proc) (want : Nat) : Prop := p.fd.Takes (s.lim p) want → p.fd.Short want

def CanHold (s : Sys) (p : Proc) (fd : Nat) : Prop := ∀ fp, p.fd.file fd = some fp → s.fCount fp ≠ some 32767

def CanDup2 (s : Sys) (p : Proc) (old new : Nat) : Prop :=
  p.fd.file old ≠ none → new < p.rlimCur → new < s.maxfiles → old ≠ new →
    new < 65536 ∧ (p.fd.file new ≠ p.fd.file old → s.CanHold p old)

def Careful (s : Sys) : Call → Prop
  | .falloc pid _ => ∀ p, s.procs[pid]? = some p → s.CanTake p 0
  | .dup pid fd target => ∀ p, s.procs[pid]? = some p →
      if fd ≥ 64 then s.CanDup2 p (fd % 64) target
      else p.fd.file fd ≠ none → p.fd.Takes (s.lim p) 0 → p.fd.Short 0 ∧ s.CanHold p fd
  | .dup2 pid old new => ∀ p, s.procs[pid]? = some p → s.CanDup2 p old new
  | .fcntl pid fd newmin => ∀ p, s.procs[pid]? = some p → p.fd.file fd ≠ none → p.fd.Takes (s.lim p) newmin →
      p.fd.Short newmin ∧ s.CanHold p fd
  | .fork pid => ∀ p, s.procs[pid]? = some p → ∀ fp count, s.fCount fp = some count → count + p.fd.refs fp ≤ 32767
  | .internalize pid fd _ => ∀ p, s.procs[pid]? = some p → s.CanHold p fd
  | .externalize pid _ => ∀ p, s.procs[pid]? = some p → s.CanTake p 0
  | _ => True

/-- What the kernel never does otherwise: a call is of a process that there is; a new file is at an address that is not in
use; a right goes to the buffer of a socket that there is, or comes out of one; and `unp_externalize` runs when there is
a descriptor. -/
def Allowed (s : Sys) : Call → Prop
  | .falloc pid fp => pid < s.procs.length ∧ s.fCount fp = none
  | .internalize pid _ holder => pid < s.procs.length ∧ ∀ fp ∈ holder, s.fCount fp ≠ none
  | .externalize pid i => i < s.rights.length ∧ ∃ p, s.procs[pid]? = some p ∧ p.fd.Takes (s.lim p) 0
  | .discard i => i < s.rights.length
  | .sysctl _ => True
  | .close pid _ | .dup pid _ _ | .dup2 pid _ _ | .fcntl pid _ _ | .setfd pid _ _ | .fork pid | .exec pid | .exit pid
  | .setrlimit pid _ => pid < s.procs.length

theorem CanHold.room (hs : Sound s) (hp : s.procs[pid]? = some p) (hhold : s.CanHold p fd)
    (hfile : p.fd.file fd = some fp) : s.slots fp + s.inflight fp + 1 < 32768 := by
  have hcount := hs.counts.count fp
  have hsmall := hs.counts.small fp
  have hpos := slots_eq hp fp
  have := Filedesc.refs_pos hfile
  cases hsome : s.fCount fp with
  | none =>
    rw [hsome, Option.getD_none] at hcount
    omega
  | some count =>
    rw [hsome, Option.getD_some] at hcount
    have hne := hhold fp hfile
    rw [hsome, hcount] at hne
    have : ((s.slots fp + s.inflight fp : Nat) : Int) ≠ 32767 := fun heq => hne (congrArg some heq)
    omega

def Returns (o : Option (Except Errno Nat × Sys)) : Prop := ∃ r s', o = some (r, s') ∧ Sound s'

theorem fdalloc_returns (hs : Sound s) (hp : s.procs[pid]? = some p) (htake : s.CanTake p want)
    {next : Nat → Filedesc → Sys → Option (Except Errno Nat × Sys)}
    (hnext : ∀ i fdp, p.fd.Lowest (s.lim p) want i → p.fd.Grown fdp → i ≤ fdp.lastfile →
      Returns (next i fdp (s.setFd pid fdp))) : Returns (s.fdalloc pid want p next) := by
  have hu := hs.using hp
  have halloc := hu.table.fdalloc htake
  unfold fdalloc
  generalize Fd.fdalloc (s.lim p) want p.fd = found at halloc ⊢
  cases halloc with
  | taken hlow hgrown hle => exact hnext _ _ hlow hgrown hle
  | @full fdp hfull hgrown =>
    refine ⟨.error .emfile, s.setFd pid fdp, rfl, hu.sound hgrown.good ?_⟩
    exact hgrown.refs ▸ hs.counts_using hp

theorem Grown.counts (hs : Sound s) (hp : s.procs[pid]? = some p) (hgrown : p.fd.Grown fdp) :
    Counts (fun fp => fdp.refs fp + (s.setFd pid fdp).others pid fp) (s.setFd pid fdp) := by
  rw [others_setFd, hgrown.refs]
  exact (hs.counts_using hp).move rfl fun fp => rfl

theorem refs_setFile_free (hlt : fd < fdp.nfiles) (hfree : fdp.file fd = none) (fp g : Nat) :
    (fdp.setFile fd (some fp)).refs g = (fdp.refs + one fp) g := by
  have hsum := Filedesc.refs_setFile hlt (some fp) g
  rw [hfree, if_neg (by simp)] at hsum
  rw [Pi.add_apply, one, Pi.single_apply]
  simpa only [Option.some.injEq, eq_comm (a := g), Nat.add_zero] using hsum

theorem falloc_returns (hs : Sound s) (hp : s.procs[pid]? = some p) (hfresh : s.fCount fp = none)
    (htake : s.CanTake p 0) : Returns (s.falloc pid fp p) := by
  refine fdalloc_returns hs hp htake fun i fdp hlow hgrown hle => ?_
  have hu := (hs.using hp).setFd hgrown.good
  have hc := Grown.counts hs hp hgrown
  have hlt : i < fdp.nfiles := Nat.lt_of_le_of_lt hle hgrown.good.last
  have hfree : fdp.file i = none := hgrown.file ▸ hlow.free
  change Returns (if s.nfiles ≥ s.maxfiles then some (.error .enfile, s.setFd pid fdp) else _)
  split
  · refine ⟨.error .enfile, s.setFd pid fdp, rfl, (hs.using hp).sound hgrown.good ?_⟩
    exact hgrown.refs ▸ hs.counts_using hp
  · refine ⟨_, _, rfl, Using.sound (show Using _ pid fdp from ?_) (hgrown.good.setFile hle fp) ?_⟩
    · exact hu.congr rfl
    · have hcreated : Counts _ { s.setFd pid fdp with
          fCount := Function.update s.fCount fp (some 1), nfiles := s.nfiles + 1 } := hc.create hfresh rfl rfl
      refine hcreated.of_eq fun g => ?_
      rw [refs_setFile_free hlt hfree, Pi.add_apply, Pi.add_apply, Nat.add_right_comm]
      rfl

theorem refs_clear (hfile : fdp.file fd = some fp) (g : Nat) : (fdp.clear fd).refs g + one fp g = fdp.refs g := by
  have hsum := Filedesc.refs_setFile (Filedesc.lt_of_file (hfile ▸ Option.some_ne_none fp)) none g
  change (fdp.clear fd).refs g + _ = _ at hsum
  rw [hfile, if_neg (Option.some_ne_none g).symm] at hsum
  rw [one, Pi.single_apply]
  simpa only [Option.some.injEq, eq_comm (a := g), Nat.add_zero] using hsum

theorem Sound.of_frame (hs : ∀ p ∈ s.procs, p.fd.Good) (hc : Counts s.slots s') (hf : Frame s s') : Sound s' :=
  ⟨hf.procs ▸ hs, slots_congr hf.procs ▸ hc⟩

theorem closeFd_returns (hs : Sound s) (hp : s.procs[pid]? = some p) (fd : Nat) : Returns (s.closeFd pid fd p) := by
  unfold closeFd
  split
  · exact ⟨_, _, rfl, hs⟩
  · next fp hfile =>
    have hu := hs.using hp
    have hg : (p.fd.close fd).Good := hu.table.close (hfile ▸ Option.some_ne_none fp)
    have hc : Counts ((s.setFd pid (p.fd.close fd)).slots + one fp) (s.setFd pid (p.fd.close fd)) := by
      refine (hs.counts_using hp).move rfl fun g => ?_
      have hsum := refs_clear hfile g
      rw [Pi.add_apply, slots_setFd hp]
      change (p.fd.clear fd).refs g + s.others pid g + one fp g + s.inflight g = p.fd.refs g + s.others pid g + s.inflight g
      omega
    obtain ⟨s', hs', hc', hf⟩ := close_spec hc
    refine ⟨.ok 0, s', ?_, Sound.of_frame (hu.setFd hg).good hc' hf⟩
    rw [hs']
    rfl

theorem finishdup_returns {refs : Nat → Nat} (hu : Using s pid fdp) (hc : Counts refs s) (hold : fdp.file old = some fp)
    (hlt : new < fdp.nfiles) (hshort : new < 65536) (hroom : refs fp + s.inflight fp + 1 < 32768)
    (hpos : 1 ≤ refs fp + s.inflight fp)
    (hrefs : ∀ g, refs g + (if fdp.file new = some g then 1 else 0) = fdp.refs g + s.others pid g) :
    ∃ s₁, s.finishdup pid fdp old new = some (.ok new, s₁.setFd pid (fdp.finishdup old new)) ∧ Frame s s₁ ∧
      Sound (s₁.setFd pid (fdp.finishdup old new)) := by
  obtain ⟨s₁, hs₁, hc₁, hf₁, -⟩ := hold_spec hc hpos hroom
  have hg := hu.table.finishdup hlt hshort (hold ▸ Option.some_ne_none fp)
  refine ⟨s₁, ?_, hf₁, (hu.congr hf₁.procs).sound hg (hc₁.of_eq fun g => ?_)⟩
  · rw [finishdup, hold]
    dsimp only
    rw [hs₁]
    rfl
  · have hsum := Filedesc.refs_finishdup old hlt g
    have hothers : s₁.others pid g = s.others pid g := congrFun (others_congr hf₁.procs) g
    rw [hold] at hsum
    rw [hothers, Pi.add_apply, one, Pi.single_apply]
    simp only [Option.some.injEq, eq_comm (a := fp)] at hsum
    have := hrefs g
    omega

theorem finishdup_free (hs : Sound s) (hp : s.procs[pid]? = some p) (hgrown : p.fd.Grown fdp) (hlt : new < fdp.nfiles)
    (hshort : new < 65536) (hfree : p.fd.file new = none) (hold : p.fd.file old = some fp)
    (hroom : s.slots fp + s.inflight fp + 1 < 32768) :
    ∃ s₁, (s.setFd pid fdp).finishdup pid fdp old new = some (.ok new, s₁.setFd pid (fdp.finishdup old new)) ∧
      Frame (s.setFd pid fdp) s₁ ∧ Sound (s₁.setFd pid (fdp.finishdup old new)) := by
  have hu := (hs.using hp).setFd hgrown.good
  have hslots := slots_eq hp fp
  have hpos := Filedesc.refs_pos hold
  refine finishdup_returns hu (Grown.counts hs hp hgrown) (hgrown.file.symm ▸ hold) hlt hshort ?_ ?_ fun g => ?_
  · rw [others_setFd, hgrown.refs, ← hslots]
    exact hroom
  · rw [hgrown.refs]
    omega
  · rw [hgrown.file, hfree, if_neg (Option.some_ne_none g).symm]
    rfl

theorem setFd_self (hp : s.procs[pid]? = some p) : s.setFd pid p.fd = s := by
  have hprocs : s.procs.modify pid (fun q => { q with fd := p.fd }) = s.procs := by
    refine List.ext_getElem? fun i => ?_
    rw [List.getElem?_modify]
    rcases eq_or_ne pid i with rfl | hne
    · rw [hp]
      simp only [↓reduceIte, Option.map_eq_map, Option.map_some]
    · simp only [hne, ↓reduceIte, Option.map_eq_map, Option.map_id']
  rw [setFd, hprocs]

theorem dup2_eq (hs : Sound s) (hp : s.procs[pid]? = some p) (hold : p.fd.file old = some fp) (hnew : new < p.rlimCur)
    (hmax : new < s.maxfiles) (hne : old ≠ new) (hfree : p.fd.file new = none) (hshort : new < 65536) :
    ∃ fdp, s.dup2 pid old new p = (s.setFd pid fdp).finishdup pid fdp old new ∧ p.fd.Grown fdp ∧ new < fdp.nfiles := by
  have hg := (hs.using hp).table
  unfold dup2
  rw [if_neg (by rw [hold]; simp only [reduceCtorEq, false_or]; omega), if_neg hne]
  split
  · have halloc : Filedesc.Allocated (s.lim p) new p.fd (Fd.fdalloc (s.lim p) new p.fd) :=
      hg.fdalloc fun _ => ⟨new, hshort, Nat.le_refl new, hfree⟩
    unfold fdalloc
    generalize Fd.fdalloc (s.lim p) new p.fd = found at halloc ⊢
    have htakes : p.fd.Takes (s.lim p) new := ⟨new, Nat.le_refl new, Nat.lt_min.2 ⟨hnew, hmax⟩, hfree⟩
    cases halloc with
    | full hfull => exact absurd htakes hfull
    | @taken i fdp hlow hgrown hle =>
      obtain rfl : new = i := by
        by_contra hlt
        exact hlow.least new (Nat.le_refl new) (Nat.lt_of_le_of_ne hlow.le hlt) hfree
      refine ⟨fdp, ?_, hgrown, Nat.lt_of_le_of_lt hle hgrown.good.last⟩
      dsimp only
      rw [if_neg (fun h => h rfl)]
  · next hlt =>
    refine ⟨p.fd, ?_, .refl hg, Nat.lt_of_not_le hlt⟩
    rw [hfree, setFd_self hp]

theorem dup2_used {gp : Nat} (hs : Sound s) (hp : s.procs[pid]? = some p) (hold : p.fd.file old = some fp)
    (hused : p.fd.file new = some gp) (hshort : new < 65536)
    (hroom : s.slots fp + s.inflight fp + 1 < 32768 ∨ gp = fp) (hne : old ≠ new) :
    Returns ((s.close gp).bind fun s => s.finishdup pid p.fd old new) := by
  have hu := hs.using hp
  have hlt := Filedesc.lt_of_file (hused ▸ Option.some_ne_none gp)
  have hslots := slots_eq hp
  have hclear : ∀ g, (p.fd.clear new).refs g + one gp g = p.fd.refs g := refs_clear hused
  have hc : Counts ((fun g => (p.fd.clear new).refs g + s.others pid g) + one gp) s :=
    hs.counts.of_eq fun g => by
      rw [hslots, ← hclear g, Pi.add_apply, Nat.add_right_comm]
  obtain ⟨s₁, hs₁, hc₁, hf₁⟩ := close_spec hc
  have hpos : 1 ≤ (p.fd.clear new).refs fp := by
    have hclearFile : (p.fd.clear new).file = Function.update p.fd.file new none := Filedesc.file_setFile hlt none
    have hfile : (p.fd.clear new).file old = some fp := by
      rw [hclearFile, Function.update_of_ne hne]
      exact hold
    exact Filedesc.refs_pos hfile
  have hin := hf₁.inflight_le fp
  have hcount := hclear fp
  have hfits : (p.fd.clear new).refs fp + s.others pid fp + s₁.inflight fp + 1 < 32768 := by
    have hfp := hslots fp
    rcases hroom with hroom | rfl
    · omega
    · have hsmall := hs.counts.small gp
      rw [one, Pi.single_eq_same] at hcount
      omega
  have hrefs : ∀ g, (p.fd.clear new).refs g + s.others pid g + (if p.fd.file new = some g then 1 else 0) =
      p.fd.refs g + s₁.others pid g := by
    intro g
    have hothers : s₁.others pid g = s.others pid g := congrFun (others_congr hf₁.procs) g
    rw [hused, hothers, ← hclear g, one, Pi.single_apply]
    simp only [Option.some.injEq, eq_comm (a := g)]
    omega
  obtain ⟨s₂, hs₂, -, hsound⟩ := finishdup_returns (hu.congr hf₁.procs) hc₁ hold hlt hshort hfits (by omega) hrefs
  refine ⟨.ok new, _, ?_, hsound⟩
  rw [hs₁]
  exact hs₂

theorem dup2_returns (hs : Sound s) (hp : s.procs[pid]? = some p) (hcan : s.CanDup2 p old new) :
    Returns (s.dup2 pid old new p) := by
  by_cases hbad : p.fd.file old = none ∨ new ≥ p.rlimCur ∨ new ≥ s.maxfiles
  · unfold dup2
    rw [if_pos hbad]
    exact ⟨_, _, rfl, hs⟩
  · have hold : p.fd.file old ≠ none := fun h => hbad (.inl h)
    obtain ⟨fp, hfp⟩ := Option.ne_none_iff_exists'.1 hold
    have hnew : new < p.rlimCur := by omega
    have hmax : new < s.maxfiles := by omega
    by_cases heq : old = new
    · unfold dup2
      rw [if_neg hbad, if_pos heq]
      exact ⟨_, _, rfl, hs⟩
    · obtain ⟨hshort, hhold⟩ := hcan hold hnew hmax heq
      cases hgp : p.fd.file new with
      | none =>
        have hroom := (hhold (by rw [hgp]; exact hold.symm)).room hs hp hfp
        obtain ⟨fdp, hrun, hgrown, hlt⟩ := dup2_eq hs hp hfp hnew hmax heq hgp hshort
        obtain ⟨s₁, hs₁, -, hsound⟩ := finishdup_free hs hp hgrown hlt hshort hgp hfp hroom
        exact ⟨_, _, hrun.trans hs₁, hsound⟩
      | some gp =>
        have hlt := Filedesc.lt_of_file (hgp ▸ Option.some_ne_none gp)
        unfold dup2
        rw [if_neg hbad, if_neg heq, if_neg (Nat.not_le.2 hlt), hgp]
        refine dup2_used hs hp hfp hgp hshort ?_ heq
        by_cases hsame : gp = fp
        · exact .inr hsame
        · refine .inl ((hhold ?_).room hs hp hfp)
          rw [hgp, hfp]
          exact fun h => hsame (Option.some.inj h)

theorem fdalloc_finishdup (hs : Sound s) (hp : s.procs[pid]? = some p) (hold : p.fd.file old ≠ none)
    (hcan : p.fd.Takes (s.lim p) want → p.fd.Short want ∧ s.CanHold p old) :
    Returns (s.fdalloc pid want p fun new fdp s => s.finishdup pid fdp old new) := by
  obtain ⟨fp, hfp⟩ := Option.ne_none_iff_exists'.1 hold
  refine fdalloc_returns hs hp (fun h => (hcan h).1) fun i fdp hlow hgrown hle => ?_
  obtain ⟨⟨j, hj, hwant, hfree⟩, hhold⟩ := hcan ⟨i, hlow.le, hlow.lt, hlow.free⟩
  have hshort : i < 65536 := by
    by_contra hge
    exact hlow.least j hwant (by omega) hfree
  obtain ⟨s₁, hs₁, -, hsound⟩ := finishdup_free hs hp hgrown (Nat.lt_of_le_of_lt hle hgrown.good.last) hshort hlow.free hfp
    (hhold.room hs hp hfp)
  exact ⟨_, _, hs₁, hsound⟩

theorem dup_returns {target : Nat} (hs : Sound s) (hp : s.procs[pid]? = some p)
    (hcan : if fd ≥ 64 then s.CanDup2 p (fd % 64) target
      else p.fd.file fd ≠ none → p.fd.Takes (s.lim p) 0 → p.fd.Short 0 ∧ s.CanHold p fd) :
    Returns (s.dup pid fd target p) := by
  unfold dup
  split
  · next hge =>
    rw [if_pos hge] at hcan
    exact dup2_returns hs hp hcan
  · next hlt =>
    rw [if_neg hlt] at hcan
    split
    · exact ⟨_, _, rfl, hs⟩
    · next hfile => exact fdalloc_finishdup hs hp hfile (hcan hfile)

theorem fcntl_returns {newmin : Nat} (hs : Sound s) (hp : s.procs[pid]? = some p)
    (hcan : p.fd.file fd ≠ none → p.fd.Takes (s.lim p) newmin → p.fd.Short newmin ∧ s.CanHold p fd) :
    Returns (s.fcntl pid fd newmin p) := by
  unfold fcntl
  split
  · exact ⟨_, _, rfl, hs⟩
  · next hfile =>
    split
    · exact ⟨_, _, rfl, hs⟩
    · exact fdalloc_finishdup hs hp hfile (hcan hfile)

theorem setfd_returns (hs : Sound s) (hp : s.procs[pid]? = some p) (arg : Byte) : Returns (s.setfd pid fd arg p) := by
  unfold setfd
  split
  · exact ⟨_, _, rfl, hs⟩
  · have hg := (hs.using hp).table
    exact ⟨_, _, rfl, (hs.using hp).sound ⟨hg.below, hg.above, hg.last, hg.short, hg.size⟩ (hs.counts_using hp)⟩

theorem holdAll_spec {refs : Nat → Nat} {fps : List Nat} (hc : Counts refs s)
    (hpos : ∀ fp ∈ fps, 1 ≤ refs fp + s.inflight fp) (hroom : ∀ fp, refs fp + s.inflight fp + fps.count fp < 32768) :
    ∃ s', fps.foldlM hold s = some s' ∧ Counts (fun g => refs g + fps.count g) s' ∧ Frame s s' := by
  induction fps generalizing s refs with
  | nil => exact ⟨s, rfl, hc.of_eq fun g => rfl, .refl s⟩
  | cons fp fps ih =>
    have hfp := hroom fp
    rw [List.count_cons_self] at hfp
    obtain ⟨s₁, hs₁, hc₁, hf₁, hrights⟩ := hold_spec hc (hpos fp List.mem_cons_self) (by omega)
    have hinflight : ∀ g, s₁.inflight g = s.inflight g := fun g => by rw [inflight, hrights, inflight]
    have hsum : ∀ g, (refs + one fp) g + fps.count g = refs g + (fp :: fps).count g := by
      intro g
      rw [Pi.add_apply, one, Pi.single_apply, List.count_cons]
      simp only [beq_iff_eq, eq_comm (a := g)]
      omega
    have hpos₁ : ∀ g ∈ fps, 1 ≤ (refs + one fp) g + s₁.inflight g := by
      intro g hg
      have := hpos g (List.mem_cons_of_mem fp hg)
      rw [hinflight, Pi.add_apply]
      omega
    have hroom₁ : ∀ g, (refs + one fp) g + s₁.inflight g + fps.count g < 32768 := by
      intro g
      have := hroom g
      have := hsum g
      rw [hinflight]
      omega
    obtain ⟨s₂, hs₂, hc₂, hf₂⟩ := ih hc₁ hpos₁ hroom₁
    refine ⟨s₂, ?_, hc₂.of_eq fun g => (hsum g).symm, hf₁.trans hf₂⟩
    rw [List.foldlM_cons, hs₁]
    exact hs₂

theorem Counts.room {refs : Nat → Nat} {k : Nat → Nat} (hc : Counts refs s) (hle : ∀ fp, k fp ≤ refs fp)
    (hroom : ∀ fp count, s.fCount fp = some count → count + k fp ≤ 32767) (fp : Nat) :
    refs fp + s.inflight fp + k fp < 32768 := by
  have hcount := hc.count fp
  have hk := hle fp
  cases hsome : s.fCount fp with
  | none =>
    rw [hsome, Option.getD_none] at hcount
    omega
  | some count =>
    have := hroom fp count hsome
    rw [hsome, Option.getD_some] at hcount
    omega

theorem fork_returns (hs : Sound s) (hp : s.procs[pid]? = some p)
    (hroom : ∀ fp count, s.fCount fp = some count → count + p.fd.refs fp ≤ 32767) : Returns (s.fork p) := by
  have hg := (hs.using hp).table
  have hcopy := hg.copy
  have hcount : ∀ fp, p.fd.copy.openFiles.count fp = p.fd.refs fp := fun fp => by
    rw [hcopy.good.count_openFiles, hcopy.refs]
  have hle : ∀ fp, p.fd.refs fp ≤ s.slots fp := fun fp => by
    rw [slots_eq hp]
    exact Nat.le_add_right _ _
  have hpos : ∀ fp ∈ p.fd.copy.openFiles, 1 ≤ s.slots fp + s.inflight fp := by
    intro fp hfp
    have hone := List.one_le_count_iff.2 hfp
    rw [hcount] at hone
    have := hle fp
    omega
  have hfits : ∀ fp, s.slots fp + s.inflight fp + p.fd.copy.openFiles.count fp < 32768 := by
    intro fp
    rw [hcount]
    exact hs.counts.room hle hroom fp
  obtain ⟨s₁, hs₁, hc₁, hf₁⟩ := holdAll_spec hs.counts hpos hfits
  refine ⟨.ok 0, { s₁ with procs := s₁.procs ++ [{ p with fd := p.fd.copy }] }, ?_, fun q hq => ?_,
    hc₁.move rfl fun fp => ?_⟩
  · rw [fork, hs₁]
    rfl
  · rcases List.mem_append.1 hq with hq | hq
    · exact hs.good q (hf₁.procs ▸ hq)
    · obtain rfl := List.mem_singleton.1 hq
      exact hcopy.good
  · rw [hcount, ← slots_congr hf₁.procs, ← hcopy.refs]
    simp only [slots, List.map_append, List.sum_append, List.map_cons, List.map_nil, List.sum_cons, List.sum_nil,
      Nat.add_zero]
    rfl

theorem foldlM_returns {α : Type} {P : α → Prop} {f : α → Nat → Option α} (hf : ∀ x i, P x → ∃ x', f x i = some x' ∧ P x')
    (l : List Nat) {x : α} (hx : P x) : ∃ x', l.foldlM f x = some x' ∧ P x' := by
  induction l generalizing x with
  | nil => exact ⟨x, rfl, hx⟩
  | cons i l ih =>
    obtain ⟨x₁, hx₁, hP⟩ := hf x i hx
    obtain ⟨x₂, hx₂, hP₂⟩ := ih hP
    refine ⟨x₂, ?_, hP₂⟩
    rw [List.foldlM_cons, hx₁]
    exact hx₂

theorem closeexec_spec {x : Filedesc × Sys} (i : Nat) (hu : Using x.2 pid x.1)
    (hc : Counts (fun g => x.1.refs g + x.2.others pid g) x.2) :
    ∃ x', closeexec x i = some x' ∧ Using x'.2 pid x'.1 ∧ Counts (fun g => x'.1.refs g + x'.2.others pid g) x'.2 := by
  obtain ⟨fdp, s⟩ := x
  unfold closeexec
  dsimp only at hu hc ⊢
  split
  · exact ⟨_, rfl, hu, hc⟩
  · next fp hfile =>
    split
    · exact ⟨_, rfl, hu, hc⟩
    · have hcounts : Counts ((fun g => (fdp.clear i).refs g + s.others pid g) + one fp) s :=
        hc.of_eq fun g => by
          rw [← refs_clear hfile g, Pi.add_apply, Nat.add_right_comm]
      obtain ⟨s₁, hs₁, hc₁, hf₁⟩ := close_spec hcounts
      refine ⟨(fdp.clear i, s₁), ?_, ?_, ?_⟩
      · rw [hs₁]
        rfl
      · have hu₁ := hu.congr hf₁.procs
        exact ⟨hu₁.proc, hu₁.good, hu.table.clear (hfile ▸ Option.some_ne_none fp)⟩
      · have hothers : s₁.others pid = s.others pid := others_congr hf₁.procs
        exact hothers ▸ hc₁

theorem exec_returns (hs : Sound s) (hp : s.procs[pid]? = some p) : Returns (s.exec pid p) := by
  obtain ⟨x, hx, hu, hc⟩ := foldlM_returns (P := fun x : Filedesc × Sys =>
      Using x.2 pid x.1 ∧ Counts (fun g => x.1.refs g + x.2.others pid g) x.2)
    (fun x i h => closeexec_spec i h.1 h.2) (List.range (p.fd.lastfile + 1)) (x := (p.fd, s))
    ⟨hs.using hp, hs.counts_using hp⟩
  refine ⟨.ok 0, _, ?_, hu.sound hu.table.lower hc⟩
  rw [exec, hx]
  rfl

theorem exit_returns (hs : Sound s) (hp : s.procs[pid]? = some p) : Returns (s.exit pid p) := by
  have hc : Counts (fun g => s.others pid g + p.fd.openFiles.count g) s :=
    hs.counts.of_eq fun g => by
      rw [slots_eq hp, (hs.using hp).table.count_openFiles, Nat.add_comm]
  obtain ⟨s₁, hs₁, hc₁, hf₁⟩ := closeAll_spec hc
  refine ⟨.ok 0, { s₁ with procs := s₁.procs.eraseIdx pid }, ?_, fun q hq => ?_, hc₁.move rfl fun g => ?_⟩
  · rw [exit, hs₁]
    rfl
  · exact hs.good q (hf₁.procs ▸ List.mem_of_mem_eraseIdx hq)
  · have hothers : s₁.others pid = s.others pid := others_congr hf₁.procs
    rw [← hothers]
    rfl

theorem internalize_returns {holder : Option Nat} (hs : Sound s) (hp : s.procs[pid]? = some p)
    (hhold : s.CanHold p fd) : Returns (s.internalize fd holder p) := by
  unfold internalize
  split
  · exact ⟨_, _, rfl, hs⟩
  · next fp hfile =>
    have hslots := slots_eq hp fp
    have hpos := Filedesc.refs_pos hfile
    obtain ⟨s₁, hs₁, hc₁, hf₁, -⟩ := hold_spec hs.counts (by omega) (hhold.room hs hp hfile)
    refine ⟨.ok 0, { s₁ with rights := ⟨holder, fp⟩ :: s₁.rights }, ?_, fun q hq => hs.good q (hf₁.procs ▸ hq),
      hc₁.move rfl fun g => ?_⟩
    · rw [hs₁]
      rfl
    · change s₁.slots g + (fp :: s₁.rights.map Right.file).count g = _
      rw [List.count_cons, slots_congr hf₁.procs, Pi.add_apply, one, Pi.single_apply]
      simp only [beq_iff_eq, eq_comm (a := g), inflight]
      omega

theorem inflight_eraseIdx {i : Nat} {r : Right} (hr : s.rights[i]? = some r) (g : Nat) :
    one r.file g + ({ s with rights := s.rights.eraseIdx i }).inflight g = s.inflight g := by
  obtain ⟨hi, rfl⟩ := List.getElem?_eq_some_iff.1 hr
  have hperm := (List.getElem_cons_eraseIdx_perm hi).map Right.file
  rw [inflight, inflight, ← hperm.count_eq g, List.map_cons, List.count_cons, one, Pi.single_apply]
  simp only [beq_iff_eq, eq_comm (a := g)]
  omega

theorem externalize_returns {i : Nat} (hs : Sound s) (hp : s.procs[pid]? = some p) (hi : i < s.rights.length)
    (htake : s.CanTake p 0) : Returns (s.externalize pid i p) := by
  have hr := List.getElem?_eq_getElem hi
  unfold externalize
  rw [hr]
  refine fdalloc_returns hs hp htake fun f fdp hlow hgrown hle => ?_
  have hu := (hs.using hp).setFd hgrown.good
  have hc := Grown.counts hs hp hgrown
  have hlt : f < fdp.nfiles := Nat.lt_of_le_of_lt hle hgrown.good.last
  have hfree : fdp.file f = none := hgrown.file ▸ hlow.free
  refine ⟨_, _, rfl, Using.sound (show Using _ pid fdp from ?_) (hgrown.good.setFile hle _) (hc.move rfl fun g => ?_)⟩
  · exact hu.congr rfl
  · rw [refs_setFile_free hlt hfree, Pi.add_apply]
    have := inflight_eraseIdx (s := s) hr g
    change fdp.refs g + one s.rights[i].file g + (s.setFd pid fdp).others pid g +
      ({ s with rights := s.rights.eraseIdx i }).inflight g = fdp.refs g + (s.setFd pid fdp).others pid g + s.inflight g
    omega

theorem discard_returns {i : Nat} (hs : Sound s) (hi : i < s.rights.length) : Returns (s.discard i) := by
  have hr := List.getElem?_eq_getElem hi
  have hc : Counts (s.slots + one s.rights[i].file) { s with rights := s.rights.eraseIdx i } := by
    refine hs.counts.move rfl fun g => ?_
    have := inflight_eraseIdx (s := s) hr g
    rw [Pi.add_apply]
    omega
  obtain ⟨s₁, hs₁, hc₁, hf₁⟩ := close_spec hc
  refine ⟨.ok 0, s₁, ?_, fun q hq => hs.good q (hf₁.procs ▸ hq), slots_congr hf₁.procs ▸ hc₁⟩
  unfold discard
  rw [hr]
  dsimp only
  rw [hs₁]
  rfl

theorem setrlimit_sound (hs : Sound s) (pid n : Nat) :
    Sound { s with procs := s.procs.modify pid fun p => { p with rlimCur := n } } := by
  have hfds : (s.procs.modify pid fun p => { p with rlimCur := n }).map Proc.fd = s.procs.map Proc.fd := by
    refine List.ext_getElem? fun i => ?_
    rw [List.getElem?_map, List.getElem?_map, List.getElem?_modify, Option.map_eq_map, Option.map_map]
    congr 1
    funext q
    simp only [Function.comp_apply]
    split <;> rfl
  refine ⟨fun q hq => ?_, hs.counts.move rfl fun g => ?_⟩
  · have hmem : q.fd ∈ s.procs.map Proc.fd := hfds ▸ List.mem_map_of_mem hq
    obtain ⟨q', hq', heq⟩ := List.mem_map.1 hmem
    exact heq ▸ hs.good q' hq'
  · have hslots : ∀ l : List Proc, (l.map fun p => p.fd.refs g).sum = ((l.map Proc.fd).map fun fd => fd.refs g).sum :=
      fun l => by rw [List.map_map]; rfl
    rw [slots, slots, hslots, hslots, hfds]
    rfl

theorem bind_returns {f : Proc → Option (Except Errno Nat × Sys)} (hp : s.procs[pid]? = some p) (h : Returns (f p)) :
    Returns (s.procs[pid]?.bind f) := hp.symm ▸ h

theorem call_returns (hs : Sound s) {c : Call} (hallowed : s.Allowed c) (hcareful : s.Careful c) :
    Returns (s.call c) := by
  have hproc : ∀ {pid}, pid < s.procs.length → ∃ p, s.procs[pid]? = some p := fun h => ⟨_, List.getElem?_eq_getElem h⟩
  cases c with
  | falloc pid fp =>
    obtain ⟨p, hp⟩ := hproc hallowed.1
    exact bind_returns hp (falloc_returns hs hp hallowed.2 (hcareful p hp))
  | close pid fd =>
    obtain ⟨p, hp⟩ := hproc hallowed
    exact bind_returns hp (closeFd_returns hs hp fd)
  | dup pid fd target =>
    obtain ⟨p, hp⟩ := hproc hallowed
    exact bind_returns hp (dup_returns hs hp (hcareful p hp))
  | dup2 pid old new =>
    obtain ⟨p, hp⟩ := hproc hallowed
    exact bind_returns hp (dup2_returns hs hp (hcareful p hp))
  | fcntl pid fd newmin =>
    obtain ⟨p, hp⟩ := hproc hallowed
    exact bind_returns hp (fcntl_returns hs hp (hcareful p hp))
  | setfd pid fd arg =>
    obtain ⟨p, hp⟩ := hproc hallowed
    exact bind_returns hp (setfd_returns hs hp arg)
  | fork pid =>
    obtain ⟨p, hp⟩ := hproc hallowed
    exact bind_returns hp (fork_returns hs hp (hcareful p hp))
  | exec pid =>
    obtain ⟨p, hp⟩ := hproc hallowed
    exact bind_returns hp (exec_returns hs hp)
  | exit pid =>
    obtain ⟨p, hp⟩ := hproc hallowed
    exact bind_returns hp (exit_returns hs hp)
  | internalize pid fd holder =>
    obtain ⟨p, hp⟩ := hproc hallowed.1
    exact bind_returns hp (internalize_returns hs hp (hcareful p hp))
  | externalize pid i =>
    obtain ⟨hi, p, hp, -⟩ := hallowed
    exact bind_returns hp (externalize_returns hs hp hi (hcareful p hp))
  | discard i => exact discard_returns hs hallowed
  | setrlimit pid n => exact ⟨_, _, rfl, setrlimit_sound hs pid _⟩
  | sysctl n => exact ⟨_, _, rfl, hs.good, hs.counts.move rfl fun _ => rfl⟩

end Sys

end NetBSD.Fd
