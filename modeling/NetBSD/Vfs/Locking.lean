import NetBSD.Vfs.Update

/-!
# Runs of requests

What holds of the locks of a file after any requests, waits, wakeups and signals.
-/

namespace NetBSD.Vfs

open NetBSD.Lib (Runs)

variable {f f' : File} {lock : Lockf} {env : Env} {out : Outcome} {call : Call}

/-- The request fits what is on the list: nothing that is left behind the last byte there can be has to be
split off, and no allocation is waited for between the search for a blocking lock and the update. -/
def Lockf.Careful (lock : Lockf) (env : Env) (f : File) : Prop :=
  match lfGetblock lock.toSpan (f.locks.length + 1) f.locks with
  | none =>
    ((∀ l ∈ spans f.locks, lock.Spares l) ∨ Absorbed lock.toSpan (spans f.locks)) ∧
      (env.waits = true → splitInThree lock f.locks = none)
  | some _ => lock.lfFlags.fFlock → lock.lfType = .wrlck → ∀ l ∈ spans f.locks, lock.Spares l

/-- A signal comes to a request that was woken, or whose `lf_next` points to the lock it is chained to. -/
def Sleeper.Chained (s : Sleeper) (f : File) : Prop :=
  ∀ a, s.lfNext = some a → ∃ block, f.lockAt a = some block ∧ s.lock.addr ∈ block.lfBlock

def Call.InRange : Call → Prop
  | .set request _ _ => request.InRange
  | .clear request => request.InRange
  | _ => True

def Call.Careful (f : File) : Call → Prop
  | .set request flags env =>
    Lockf.Careful { request with addr := f.next, lfFlags := flags } env { f with next := f.next + 1 }
  | .clear request => ∀ l ∈ spans f.locks, request.Spares l
  | .run addr env => ∀ s, f.runnable addr = some s →
      s.lock.Careful env { f with asleep := f.asleep.erase s }
  | .interrupt addr => ∀ s, f.sleeper addr = some s → s.Chained f
  | .resume _ => True

def Outcome.Effect (locks locks' : List Span) : Outcome → Prop
  | .granted r => Updated locks locks' r (some r.lfType)
  | .cleared r => Updated locks locks' r none
  | .sleeps => True
  | _ => locks' = locks

structure File.Sane (f : File) : Prop where
  tidy : Tidy (spans f.locks)
  requests : ∀ s ∈ f.asleep, s.lock.InRange
  splitting : f.splitting = []

theorem spans_map {g : Lockf → Lockf} (h : ∀ lf, (g lf).toSpan = lf.toSpan) (locks : List Lockf) :
    spans (locks.map g) = spans locks := by
  unfold spans
  rw [List.map_map]
  exact List.map_congr_left fun lf _ => h lf

theorem Lockf.addblock_toSpan (block blocked : Nat) (lf : Lockf) :
    (lf.addblock block blocked).toSpan = lf.toSpan := by
  unfold addblock
  split_ifs <;> rfl

theorem Lockf.unchain_toSpan (block blocked : Nat) (lf : Lockf) :
    (lf.unchain block blocked).toSpan = lf.toSpan := by
  unfold unchain
  split_ifs <;> rfl

theorem Sleeper.wake_lock (woken : List Nat) (s : Sleeper) : (s.wake woken).lock = s.lock := by
  unfold wake
  split_ifs <;> rfl

theorem File.Sane.walked {w : Walked} (h : f.Sane) (htidy : Tidy (spans w.locks)) : (f.walked w).Sane := by
  refine ⟨htidy, fun s hs => ?_, h.splitting⟩
  obtain ⟨s, hmem, rfl⟩ := List.mem_map.mp hs
  rw [Sleeper.wake_lock]
  exact h.requests s hmem

theorem File.Sane.erase (h : f.Sane) (s : Sleeper) : File.Sane { f with asleep := f.asleep.erase s } :=
  ⟨h.tidy, fun _ hx => h.requests _ (List.mem_of_mem_erase hx), h.splitting⟩

theorem lfClearlock_spec {r : Span} (h : f.Sane) (hr : r.InRange) (hspare : ∀ l ∈ spans f.locks, r.Spares l) :
    ∃ f', lfClearlock r f = some f' ∧ f'.Sane ∧ Updated (spans f.locks) (spans f'.locks) r none := by
  obtain ⟨w, hw, hlocks⟩ := clearLoop_spec hr (f.locks.length + 1) f.locks (Nat.lt_succ_self _) h.tidy hspare
  refine ⟨f.walked w, by rw [lfClearlock, hw]; rfl, h.walked ?_, ?_⟩
  · rw [hlocks]
    exact h.tidy.cut hr hspare
  · rw [show spans (f.walked w).locks = _ from hlocks]
    exact updated_cut h.tidy hr hspare

theorem setLoop_sane (addr : Nat) (h : f.Sane) (hr : lock.InRange)
    (hspare : (∀ l ∈ spans f.locks, lock.Spares l) ∨ Absorbed lock.toSpan (spans f.locks))
    (hnone : lfGetblock lock.toSpan (f.locks.length + 1) f.locks = none) :
    ∃ w, setLoop addr (f.locks.length + 1) lock f.locks = some w ∧ (f.walked w).Sane ∧
      Updated (spans f.locks) (spans w.locks) lock.toSpan (some lock.lfType) := by
  have habsorbed (habs : Absorbed lock.toSpan (spans f.locks)) {w : Walked}
      (hlocks : spans w.locks = spans f.locks) : (f.walked w).Sane ∧
        Updated (spans f.locks) (spans w.locks) lock.toSpan (some lock.lfType) := by
    rw [hlocks]
    exact ⟨h.walked (hlocks ▸ h.tidy), habs.updated h.tidy⟩
  obtain hspare | habs := hspare
  · obtain ⟨w, hw, hplaced | ⟨habs, hlocks⟩⟩ :=
      setLoop_spec  hr (Nat.lt_succ_self _) h.tidy hspare
    · refine ⟨w, hw, h.walked (hplaced.tidy h.tidy hr hspare fun l hl hid htype => ?_),
        hplaced.updated h.tidy hr hspare⟩
      obtain ⟨lf, hlf, rfl⟩ := List.mem_map.mp hl
      exact clear_of_lfGetblock_eq_none _ _ (Nat.lt_succ_self _) hnone lf hlf hid htype
    · exact ⟨w, hw, habsorbed habs hlocks⟩
  · obtain ⟨w, hw, hlocks⟩ := setLoop_of_absorbed  h.tidy habs
    exact ⟨w, hw, habsorbed habs hlocks⟩

theorem File.Sane.sleep (h : f.Sane) (hr : lock.InRange) (block : Nat) :
    File.Sane { f with
      locks := f.locks.map (Lockf.addblock block lock.addr)
      asleep := f.asleep ++ [⟨lock, some block⟩] } := by
  refine ⟨?_, fun s hs => ?_, h.splitting⟩
  · rw [spans_map (Lockf.addblock_toSpan block lock.addr)]
    exact h.tidy
  · obtain hs | hs := List.mem_append.mp hs
    · exact h.requests s hs
    · obtain rfl := List.mem_singleton.mp hs
      exact hr

theorem lfSetlock_spec (h : f.Sane) (hr : lock.InRange) (hcareful : lock.Careful env f) :
    ∃ out f', lfSetlock env lock f = some (out, f') ∧ f'.Sane ∧
      out.Effect (spans f.locks) (spans f'.locks) := by
  unfold Lockf.Careful at hcareful
  unfold lfSetlock
  cases hblock : lfGetblock lock.toSpan (f.locks.length + 1) f.locks with
  | none =>
    rw [hblock] at hcareful
    obtain ⟨hspare, hwaits⟩ := hcareful
    obtain ⟨w, hw, hsane, hupdated⟩ := setLoop_sane f.next h hr hspare hblock
    refine ⟨.granted lock.toSpan, f.walked w, ?_, hsane, hupdated⟩
    cases hmalloc : env.waits with
    | false => simp [hw]
    | true => simp [hwaits hmalloc, hw]
  | some block =>
    rw [hblock] at hcareful
    by_cases hwait : lock.lfFlags.fWait
    · by_cases hdead : lock.lfFlags.fPosix && block.lfFlags.fPosix && env.deadlock
      · exact ⟨.edeadlk, f, by simp only [hwait, hdead]; rfl, h, rfl⟩
      · by_cases hflock : lock.lfFlags.fFlock ∧ lock.lfType = .wrlck
        · obtain ⟨f', hf', hsane, -⟩ := lfClearlock_spec (r := { lock.toSpan with lfType := .unlck }) h
            ⟨hr.start_nonneg, hr.start_le, hr.end_le, hr.ordered⟩ (hcareful hflock.1 hflock.2)
          refine ⟨.sleeps, _, ?_, hsane.sleep hr block.addr, trivial⟩
          simp only [hwait, hdead, if_pos hflock, hf']
          rfl
        · refine ⟨.sleeps, _, ?_, h.sleep hr block.addr, trivial⟩
          simp only [hwait, hdead, if_neg hflock]
          rfl
    · exact ⟨.eagain, f, by simp only [hwait]; rfl, h, rfl⟩

theorem interrupted_spec {s : Sleeper} (h : f.Sane) (hs : s.Chained f) :
    ∃ f', interrupted s f = some f' ∧ f'.Sane ∧ spans f'.locks = spans f.locks := by
  unfold interrupted
  cases hnext : s.lfNext with
  | none => exact ⟨f, rfl, h, rfl⟩
  | some a =>
    obtain ⟨block, hblock, hmem⟩ := hs a hnext
    have hspans := spans_map (Lockf.unchain_toSpan a s.lock.addr) f.locks
    refine ⟨{ f with locks := f.locks.map (Lockf.unchain a s.lock.addr) }, ?_, ?_, hspans⟩
    · simp only [hblock]
      exact if_pos hmem
    · exact ⟨hspans ▸ h.tidy, h.requests, h.splitting⟩

theorem File.Sane.step_spec (h : f.Sane) (hrange : call.InRange) (hcareful : call.Careful f) :
    ∃ out f', f.step call = some (out, f') ∧ f'.Sane ∧ out.Effect (spans f.locks) (spans f'.locks) := by
  cases call with
  | set request flags env =>
    exact lfSetlock_spec (f := { f with next := f.next + 1 }) ⟨h.tidy, h.requests, h.splitting⟩ hrange hcareful
  | clear request =>
    obtain ⟨f', hf', hsane, hupdated⟩ := lfClearlock_spec h hrange hcareful
    exact ⟨.cleared request, f', by rw [step, hf']; rfl, hsane, hupdated⟩
  | run addr env =>
    simp only [step]
    cases hfind : f.runnable addr with
    | none => exact ⟨.idle, f, rfl, h, rfl⟩
    | some s =>
      exact lfSetlock_spec (h.erase s) (h.requests s (List.mem_of_find?_eq_some hfind)) (hcareful s hfind)
  | interrupt addr =>
    simp only [step]
    cases hfind : f.sleeper addr with
    | none => exact ⟨.idle, f, rfl, h, rfl⟩
    | some s =>
      obtain ⟨f', hf', hsane, hspans⟩ := interrupted_spec (h.erase s) (hcareful s hfind)
      exact ⟨.eintr, f', by simp only [hf']; rfl, hsane, hspans⟩
  | resume addr =>
    refine ⟨.idle, f, ?_, h, rfl⟩
    rw [step, h.splitting]
    rfl

def File.after (f : File) (call : Call) : Option File := (f.step call).map Prod.snd

def CarefulRun : File → Prop :=
  Runs (fun f => f = {}) File.after fun f call => call.InRange ∧ call.Careful f

theorem CarefulRun.sane (h : CarefulRun f) : f.Sane := by
  refine h.invariant ?_ fun f call f' hf hcall hstep => ?_
  · rintro _ rfl
    exact ⟨⟨by simp, List.Pairwise.nil⟩, by simp, rfl⟩
  · obtain ⟨out, f'', hf'', hsane, -⟩ := hf.step_spec hcall.1 hcall.2
    rw [File.after, hf''] at hstep
    obtain rfl := Option.some.inj hstep
    exact hsane

def Span.Compatible (byte : Nat) (a b : Span) : Prop :=
  ¬ (a.lfId ≠ b.lfId ∧ (a.lfType = .wrlck ∨ b.lfType = .wrlck) ∧ a.Covers byte ∧ b.Covers byte)

instance (byte : Nat) : Std.Symm (Span.Compatible byte) :=
  ⟨fun _ _ hxy hyx => hxy ⟨hyx.1.symm, hyx.2.1.symm, hyx.2.2.2, hyx.2.2.1⟩⟩

theorem Span.Fits.compatible {a b : Span} (h : a.Fits b) (byte : Nat) : Span.Compatible byte a b := by
  rintro ⟨hid, htype, hcova, hcovb⟩
  unfold Span.Fits at h
  rw [if_neg hid] at h
  obtain hbefore | hbefore := h htype
  · exact hbefore.not_covers hcova hcovb
  · exact hbefore.not_covers hcovb hcova

/-- Locks of different owners do not overlap when one of them is exclusive, and the locks of each owner are
disjoint and in the order of their starts. -/
structure ConflictFree (locks : List Span) : Prop where
  owners : ∀ a ∈ locks, ∀ b ∈ locks, a.lfId ≠ b.lfId → a.lfType = .wrlck ∨ b.lfType = .wrlck →
    ∀ byte, ¬ (a.Covers byte ∧ b.Covers byte)
  order : locks.Pairwise fun a b => a.lfId = b.lfId →
    a.lfStart < b.lfStart ∧ ∀ byte, ¬ (a.Covers byte ∧ b.Covers byte)

theorem Tidy.conflictFree {locks : List Span} (h : Tidy locks) : ConflictFree locks := by
  constructor
  · intro a ha b hb hid htype byte hcov
    have hne : a ≠ b := fun heq => hid (congrArg Span.lfId heq)
    exact (h.fits.imp fun hfits => hfits.compatible byte).forall ha hb hne ⟨hid, htype, hcov.1, hcov.2⟩
  · apply List.Pairwise.imp_of_mem ?_ h.fits
    intro a b ha _ hfits hid
    unfold Span.Fits at hfits
    rw [if_pos hid] at hfits
    refine ⟨?_, fun byte hcov => hfits.not_covers hcov.1 hcov.2⟩
    obtain ⟨hne, hlt⟩ := hfits
    have hordered := (h.inRange a ha).ordered
    omega

/-- **Locks never conflict** in a run of careful calls, and every further careful call is carried out. -/
theorem conflictFree_of_careful (h : CarefulRun f) :
    ConflictFree (spans f.locks) ∧
      ∀ call : Call, call.InRange → call.Careful f → (f.step call).isSome := by
  refine ⟨h.sane.tidy.conflictFree, fun call hrange hcareful => ?_⟩
  obtain ⟨out, f', hstep, -⟩ := h.sane.step_spec hrange hcareful
  rw [hstep]
  rfl

/-- **Setting and clearing locks is a pointwise update** in a run of careful calls. -/
theorem effect_of_careful (h : CarefulRun f) (hrange : call.InRange) (hcareful : call.Careful f)
    (hstep : f.step call = some (out, f')) : out.Effect (spans f.locks) (spans f'.locks) := by
  obtain ⟨out', f'', hstep', -, heffect⟩ := h.sane.step_spec hrange hcareful
  rw [hstep'] at hstep
  obtain ⟨rfl, rfl⟩ := Prod.mk.inj (Option.some.inj hstep)
  exact heffect

def posix : Flags := ⟨true, false, true⟩

def wholeFile : Call := .set ⟨.wrlck, 0, -1, 1⟩ posix {}

def afterWhole : File where
  locks := [{ lfType := .wrlck, lfStart := 0, lfEnd := -1, lfId := 1, addr := 0, lfFlags := posix }]
  next := 2

def tenBytes : Span := ⟨.unlck, 10, 19, 1⟩

def afterTen : File where
  locks :=
    [{ lfType := .wrlck, lfStart := 0, lfEnd := 9, lfId := 1, addr := 0, lfFlags := posix },
      { lfType := .wrlck, lfStart := 20, lfEnd := -1, lfId := 1, addr := 2, lfFlags := posix }]
  next := 3

theorem careful_whole : CarefulRun afterWhole := by
  refine Runs.call wholeFile (.start rfl) ⟨⟨by decide, by decide, by decide, by decide⟩, ?_⟩ rfl
  exact ⟨.inl (by simp), fun h => absurd h (by decide)⟩

theorem careful_ten : Call.Careful afterWhole (.clear tenBytes) := by
  intro l _ hend
  exact absurd hend (by decide)

theorem conflictFree_afterTen :
    ConflictFree (spans afterTen.locks) ∧
      ∀ call : Call, call.InRange → call.Careful afterTen → (afterTen.step call).isSome := by
  have hrange : Span.InRange tenBytes := ⟨by decide, by decide, by decide, by decide⟩
  exact conflictFree_of_careful (.call (.clear tenBytes) careful_whole ⟨hrange, careful_ten⟩ rfl)

theorem effect_tenBytes :
    Outcome.Effect (spans afterWhole.locks) (spans afterTen.locks) (.cleared tenBytes) := by
  have hrange : Span.InRange tenBytes := ⟨by decide, by decide, by decide, by decide⟩
  exact effect_of_careful careful_whole (show Call.InRange (.clear tenBytes) from hrange) careful_ten rfl

def toTheLast : Call := .set ⟨.rdlck, 1, offMax, 1⟩ posix {}

def afterLast : File where
  locks :=
    [{ lfType := .wrlck, lfStart := 0, lfEnd := 0, lfId := 1, addr := 0, lfFlags := posix },
      { lfType := .rdlck, lfStart := 1, lfEnd := offMax, lfId := 1, addr := 2, lfFlags := posix },
      { lfType := .wrlck, lfStart := -2 ^ 63, lfEnd := -1, lfId := 1, addr := 3, lfFlags := posix }]
  next := 4

theorem ranges_whole : Runs (fun f => f = {}) File.after (fun _ call => call.InRange) afterWhole :=
  .call wholeFile (.start rfl) ⟨by decide, by decide, by decide, by decide⟩ rfl

theorem inRange_toTheLast : toTheLast.InRange := ⟨by decide, by decide, by decide, by decide⟩

/-- The end of the request plus one is not an `off_t`: what is left of the old lock starts before byte 0. -/
theorem overrun_conflict : ∃ f, Runs (fun f => f = {}) File.after (fun _ call => call.InRange) f ∧
    ¬ ConflictFree (spans f.locks) := by
  refine ⟨afterLast, .call toTheLast ranges_whole inRange_toTheLast (by decide), fun h => ?_⟩
  have horder := List.rel_of_pairwise_cons (List.pairwise_cons.mp h.order).2 List.mem_cons_self rfl
  exact absurd horder.1 (by decide)

/-- The process still holds an exclusive lock on byte 1. -/
theorem overrun_effect : ∃ f call out f', Runs (fun f => f = {}) File.after (fun _ call => call.InRange) f ∧
    call.InRange ∧ f.step call = some (out, f') ∧ ¬ out.Effect (spans f.locks) (spans f'.locks) := by
  refine ⟨afterWhole, toTheLast, .granted ⟨.rdlck, 1, offMax, 1⟩, afterLast, ranges_whole,
    inRange_toTheLast, by decide, fun h => ?_⟩
  have hheld := h.inside 1 .wrlck ⟨by decide, .inr (by decide)⟩
  have hghost : Holds (spans afterLast.locks) 1 .wrlck 1 :=
    ⟨⟨.wrlck, -2 ^ 63, -1, 1⟩, by decide, rfl, rfl, by decide, .inl rfl⟩
  exact absurd (hheld.mp hghost) (by decide)

/-- The lock that a request waits for is merged into a larger one, and then a signal comes to the request. -/
example : ([Call.set ⟨.wrlck, 0, 9, 1⟩ posix {}, .set ⟨.wrlck, 0, 9, 2⟩ posix {},
    .set ⟨.wrlck, 0, 19, 1⟩ posix {}].foldlM File.after {}).map (fun f => f.after (.interrupt 2)) =
      some none := by decide

/-- A shared lock is made exclusive in the middle while another process gets a shared lock on its bytes. -/
example : (([Call.set ⟨.rdlck, 0, 9, 1⟩ posix {}, .set ⟨.wrlck, 3, 5, 1⟩ posix ⟨false, true⟩,
    .set ⟨.rdlck, 4, 4, 2⟩ posix {}, .resume 2].foldlM File.after {}).map fun f =>
      (spans f.locks).map fun l => (l.lfType, l.lfStart, l.lfEnd, l.lfId)) =
    some [(.rdlck, 0, 2, 1), (.wrlck, 3, 5, 1), (.rdlck, 6, 9, 1), (.rdlck, 4, 4, 2)] := by decide

end NetBSD.Vfs
