import NetBSD.Vfs.Chained
import Mathlib.Data.List.Chain

/-!
# The search for a deadlock

Before a request sleeps for a lock, `lf_setlock` goes from the owner of the lock along the sleeping processes.
It finds every cycle that the sleep would complete, in a run that merges no lock that others wait for. A merge
moves the waiters to the new lock and leaves their `lf_next` at the freed one, and then the search ends too early.
-/

namespace NetBSD.Vfs

open Function (update)
open NetBSD.Lib (Runs)

def maxlockdepth : Nat := 50

/-- The locks of all files, and the request in whose `lf_setlock` each process is: its file and its address. -/
structure Kernel where
  world : World
  inSetlock : Nat → Option (Nat × Nat)

def Kernel.start : Kernel := ⟨.start, fun _ => none⟩

/-- What a process does next. `freed` are the flags and the owner that a structure reads after it was freed. -/
inductive Act where
  | set (i : Nat) (request : Span) (flags : Flags) (waits : Bool) (freed : Nat → Flags × Nat)
  | clear (i : Nat) (request : Span) (flags : Flags)
  | run (waits : Bool) (freed : Nat → Flags × Nat)
  | interrupt
  | resume

namespace Kernel

variable {k : Kernel} {lock block : Lockf} {p q i n : Nat} {act : Act} {out : Outcome}

/-- The flags and the owner of `waitblock`, when the process sleeps on a request. A wakeup, which clears `lf_next`,
clears `p_wchan` too, and the sleep in `MALLOC` has another `p_wmesg`. -/
def waitblock (k : Kernel) (freed : Nat → Flags × Nat) (wproc : Nat) : Option (Flags × Nat) := do
  let (i, a) ← k.inSetlock wproc
  let s ← (k.world.files i).sleeper a
  let b ← s.lfNext
  return (((k.world.files i).lockAt b).map fun lf => (lf.lfFlags, lf.lfId)).getD (freed b)

def search (k : Kernel) (freed : Nat → Flags × Nat) (lfId : Nat) : Nat → Nat → Bool
  | 0, _ => false
  | n + 1, wproc =>
    match k.waitblock freed wproc with
    | none => false
    | some (flags, id) => flags.fPosix && (id = lfId || k.search freed lfId n id)

def blocker (k : Kernel) (i : Nat) (lock : Span) : Option Lockf :=
  lfGetblock lock ((k.world.files i).locks.length + 1) (k.world.files i).locks

def deadlock (k : Kernel) (freed : Nat → Flags × Nat) (i : Nat) (lock : Span) : Bool :=
  match k.blocker i lock with
  | none => false
  | some block => k.search freed lock.lfId maxlockdepth block.lfId

/-- `fcntl` makes requests in the name of the process, `flock` in the name of the open file. -/
def named (p : Nat) (flags : Flags) (request : Span) : Span :=
  if flags.fPosix then { request with lfId := p } else request

def request (k : Kernel) (p : Nat) : Act → Option (Nat × Lockf)
  | .set i request flags _ _ =>
    if k.inSetlock p = none then some (i, { named p flags request with addr := k.world.next, lfFlags := flags }) else none
  | .run _ _ => do
      let (i, a) ← k.inSetlock p
      let s ← (k.world.files i).runnable a
      return (i, s.lock)
  | _ => none

/-- The call that an act makes, and for which request of which file. A process in `lf_setlock` makes no new request. -/
def call (k : Kernel) (p : Nat) : Act → Option ((Nat × Nat) × Call)
  | .set i request flags waits freed =>
    if k.inSetlock p = none then
      some ((i, k.world.next), .set (named p flags request) flags ⟨k.deadlock freed i (named p flags request), waits⟩)
    else none
  | .clear i request flags =>
    if k.inSetlock p = none then some ((i, k.world.next), .clear (named p flags request)) else none
  | .run waits freed => do
      let r ← k.inSetlock p
      let s ← (k.world.files r.1).runnable r.2
      return (r, .run r.2 ⟨k.deadlock freed r.1 s.lock.toSpan, waits⟩)
  | .interrupt => (k.inSetlock p).map fun r => (r, .interrupt r.2)
  | .resume => (k.inSetlock p).map fun r => (r, .resume r.2)

def entered (k : Kernel) (p : Nat) (r : Nat × Nat) : Outcome → Nat → Option (Nat × Nat)
  | .sleeps => update k.inSetlock p (some r)
  | .idle => k.inSetlock
  | _ => update k.inSetlock p none

def step (k : Kernel) (p : Nat) (act : Act) : Option (Outcome × Kernel) :=
  match k.call p act with
  | none => some (.idle, k)
  | some (r, c) => (k.world.step r.1 c).map fun x => (x.1, ⟨x.2, k.entered p r x.1⟩)

def after (k : Kernel) (x : Nat × Act) : Option Kernel := (k.step x.1 x.2).map Prod.snd

/-- The request that process `p` sleeps for is on the chain of a lock that process `q` holds. -/
def WaitsFor (k : Kernel) (p q : Nat) : Prop :=
  ∃ i a, k.inSetlock p = some (i, a) ∧ ∃ lf ∈ (k.world.files i).locks, a ∈ lf.lfBlock ∧ lf.lfFlags.fPosix = true ∧ lf.lfId = q

/-- The sleep of a request would complete a cycle of at most `maxlockdepth` processes: its own, the owner of the
lock that is in its way, and `others`. -/
def Completes (k : Kernel) (i : Nat) (lock : Lockf) : Prop :=
  ∃ block, k.blocker i lock.toSpan = some block ∧ block.lfFlags.fPosix = true ∧ ∃ others : List Nat,
    List.IsChain k.WaitsFor (block.lfId :: others ++ [lock.lfId]) ∧ others.length + 2 ≤ maxlockdepth

def Refuses (k : Kernel) : Prop :=
  ∀ p act i lock, k.request p act = some (i, lock) → lock.lfFlags.fWait = true → lock.lfFlags.fPosix = true → k.Completes i lock →
    (k.step p act).map Prod.fst = some .edeadlk

def Keeps (k : Kernel) (p : Nat) (act : Act) : Prop :=
  ∀ r c, k.call p act = some (r, c) → c.Keeps { k.world.files r.1 with next := k.world.next }

def KeepingRun : Kernel → Prop := Runs (fun k => k = .start) after fun k x => k.Keeps x.1 x.2

theorem KeepingRun.world (h : KeepingRun k) : Vfs.KeepingRun k.world := by
  refine h.invariant (I := fun k => Vfs.KeepingRun k.world) ?_ fun k x k' hk hkeeps hafter => ?_
  · rintro _ rfl
    exact .start rfl
  · obtain ⟨⟨out, k''⟩, hstep, rfl⟩ := Option.map_eq_some_iff.1 hafter
    unfold step at hstep
    split at hstep
    · cases hstep
      exact hk
    · next r c hcall =>
      obtain ⟨⟨out', w⟩, hw, heq⟩ := Option.map_eq_some_iff.1 hstep
      cases heq
      exact .call (r.1, c) hk (hkeeps r c hcall) (by rw [World.after, hw]; rfl)

theorem waitblock_of_waitsFor (freed : Nat → Flags × Nat) (h : k.world.Chained) (hwaits : k.WaitsFor p q) :
    ∃ flags, k.waitblock freed p = some (flags, q) ∧ flags.fPosix = true := by
  obtain ⟨i, a, hin, lf, hlf, ha, hposix, rfl⟩ := hwaits
  have hfile := h.file i
  obtain ⟨s, hs, rfl, hnext⟩ := hfile.owned lf hlf a ha
  have hsleeper : (k.world.files i).sleeper s.lock.addr = some s := by
    have hsome : ((k.world.files i).sleeper s.lock.addr).isSome = true := List.find?_isSome.2 ⟨s, hs, decide_eq_true rfl⟩
    obtain ⟨x, hx⟩ := Option.isSome_iff_exists.1 hsome
    have haddr := of_decide_eq_true (List.find?_some (p := fun x : Sleeper => decide (x.lock.addr = s.lock.addr)) hx)
    rwa [hfile.sleeper_unique (List.mem_of_find?_eq_some hx) hs haddr] at hx
  obtain ⟨lf', hlf', hat, haddr, -⟩ := hfile.exists_lockAt hs hnext
  obtain rfl := hfile.lock_unique hlf' hlf haddr
  have hat' : (k.world.files i).lockAt lf'.addr = some lf' := hat
  refine ⟨lf'.lfFlags, ?_, hposix⟩
  unfold waitblock
  rw [hin]
  dsimp only [bind, Option.bind]
  rw [hsleeper]
  dsimp only
  rw [hnext]
  dsimp only
  rw [hat']
  rfl

theorem search_of_isChain (h : k.world.Chained) (others : List Nat) (hchain : List.IsChain k.WaitsFor (q :: others ++ [p]))
    (hn : others.length < n) : k.search freed p n q = true := by
  induction others generalizing q n with
  | nil =>
    obtain ⟨n, rfl⟩ := Nat.exists_eq_succ_of_ne_zero (Nat.ne_of_gt hn)
    obtain ⟨flags, hwait, hposix⟩ := waitblock_of_waitsFor freed h (List.isChain_cons_cons.1 hchain).1
    rw [search, hwait]
    simp [hposix]
  | cons r others ih =>
    obtain ⟨n, rfl⟩ := Nat.exists_eq_succ_of_ne_zero (Nat.ne_of_gt (Nat.zero_lt_of_lt hn))
    obtain ⟨hfirst, hrest⟩ := List.isChain_cons_cons.1 hchain
    obtain ⟨flags, hwait, hposix⟩ := waitblock_of_waitsFor freed h hfirst
    rw [search, hwait]
    simp [hposix, ih hrest (Nat.lt_of_succ_lt_succ hn)]

theorem deadlock_of_completes (h : k.world.Chained) (hcompletes : k.Completes i lock) : k.deadlock freed i lock.toSpan = true := by
  obtain ⟨block, hblock, -, others, hchain, hlength⟩ := hcompletes
  rw [deadlock, hblock]
  exact search_of_isChain h others hchain (Nat.lt_of_succ_lt hlength)

theorem lfSetlock_edeadlk {f : File} {env : Env} (hblock : lfGetblock lock.toSpan (f.locks.length + 1) f.locks = some block)
    (hwait : lock.lfFlags.fWait = true) (hposix : lock.lfFlags.fPosix = true) (hposix' : block.lfFlags.fPosix = true)
    (henv : env.deadlock = true) : lfSetlock env lock f = some (.edeadlk, f) := by
  rw [lfSetlock, hblock]
  simp [hwait, hposix, hposix', henv]

theorem step_of_call {r : Nat × Nat} {c : Call} {f : File} (hcall : k.call p act = some (r, c))
    (hstep : File.step { k.world.files r.1 with next := k.world.next } c = some (out, f)) : (k.step p act).map Prod.fst = some out := by
  rw [step, hcall]
  dsimp only
  rw [World.step, hstep]
  rfl

theorem refuses_of_chained (h : k.world.Chained) : k.Refuses := by
  intro p act i lock hrequest hwait hposix hcompletes
  have hfound : ∀ freed, k.deadlock freed i lock.toSpan = true := fun freed => deadlock_of_completes h hcompletes
  obtain ⟨block, hblock, hposix', -⟩ := hcompletes
  have hrefused : ∀ (f : File) (waits : Bool), f.locks = (k.world.files i).locks →
      lfSetlock ⟨true, waits⟩ lock f = some (.edeadlk, f) := fun f waits hf =>
    lfSetlock_edeadlk (by rw [hf]; exact hblock) hwait hposix hposix' rfl
  cases act with
  | set j request flags waits freed =>
    obtain ⟨hfree, heq⟩ := Option.ite_none_right_eq_some.1 hrequest
    cases heq
    have hcall : k.call p (.set i request flags waits freed) =
        some ((i, k.world.next), .set (named p flags request) flags ⟨true, waits⟩) := by
      rw [call, if_pos hfree, show k.deadlock freed i (named p flags request) = true from hfound freed]
    exact step_of_call hcall (hrefused _ waits rfl)
  | run waits freed =>
    obtain ⟨⟨j, a⟩, hin, hsome⟩ := Option.bind_eq_some_iff.1 hrequest
    obtain ⟨s, hs, heq⟩ := Option.bind_eq_some_iff.1 hsome
    cases heq
    have hcall : k.call p (.run waits freed) = some ((i, a), .run a ⟨true, waits⟩) := by
      rw [call, hin]
      dsimp only [bind, Option.bind]
      rw [hs]
      dsimp only
      rw [hfound freed]
      rfl
    refine step_of_call hcall (f := { k.world.files i with next := k.world.next, asleep := (k.world.files i).asleep.erase s }) ?_
    have hs' : File.runnable { k.world.files i with next := k.world.next } a = some s := hs
    rw [File.step, hs']
    exact hrefused _ waits rfl
  | clear j request flags => cases hrequest
  | interrupt => cases hrequest
  | resume => cases hrequest

/-- **A request that would complete a cycle is refused** with `EDEADLK`, in a run that merges no lock that others wait for. -/
theorem refuses_of_keeping (h : KeepingRun k) : k.Refuses := refuses_of_chained h.world.chained

def asks (p i : Nat) (last : Int) : Nat × Act :=
  (p, .set i ⟨.wrlck, 0, last, p⟩ posix false fun _ => (⟨false, false, false⟩, p))

def afterFirst : Kernel := (start.after (asks 1 0 9)).getD start

def afterBoth : Kernel := (afterFirst.after (asks 2 1 9)).getD afterFirst

def afterWait : Kernel := (afterBoth.after (asks 2 0 9)).getD afterBoth

theorem keeps_asks {last : Int} (hkeeps : Lockf.Keeps
      { lfType := .wrlck, lfStart := 0, lfEnd := last, lfId := p, addr := k.world.next, lfFlags := posix }
      { k.world.files i with next := k.world.next }) : k.Keeps (asks p i last).1 (asks p i last).2 := by
  intro r c hcall
  obtain ⟨-, heq⟩ := Option.ite_none_right_eq_some.1 hcall
  cases heq
  exact ⟨show LockType.wrlck ≠ .unlck from by decide, hkeeps⟩

theorem not_merges_nil : ¬lock.Merges [] := fun ⟨_, hlf, _⟩ => List.not_mem_nil hlf

theorem keeping_afterWait : KeepingRun afterWait := by
  have hstart : KeepingRun start := .start rfl
  have hfirst : KeepingRun afterFirst := hstart.after (asks 1 0 9) (keeps_asks fun _ => not_merges_nil) rfl
  have hboth : KeepingRun afterBoth := hfirst.after (asks 2 1 9) (keeps_asks fun _ => not_merges_nil) rfl
  exact hboth.after (asks 2 0 9) (keeps_asks fun h => absurd h (by decide)) rfl

theorem completes_afterWait : afterWait.Completes 1
    { lfType := .wrlck, lfStart := 0, lfEnd := 9, lfId := 1, addr := 5, lfFlags := posix } := by
  refine ⟨_, rfl, rfl, [], List.isChain_pair.2 ⟨0, 4, rfl, _, List.mem_cons_self, List.mem_cons_self, rfl, rfl⟩, by decide⟩

/-- The first process is refused the bytes of the second. -/
theorem refuses_afterWait : (afterWait.step 1 (asks 1 1 9).2).map Prod.fst = some .edeadlk :=
  refuses_of_keeping keeping_afterWait 1 (asks 1 1 9).2 1 _ rfl rfl rfl completes_afterWait

def afterMore : Kernel := (afterWait.after (asks 1 0 19)).getD afterWait

def afterLast : Kernel := (afterMore.after (asks 1 1 9)).getD afterMore

def Ranged : Kernel → Prop :=
  Runs (fun k => k = .start) after fun k x => ∀ r c, k.call x.1 x.2 = some (r, c) → c.InRange

theorem ranged_asks {last : Int} (hrange : Span.InRange ⟨.wrlck, 0, last, p⟩) :
    ∀ r c, k.call (asks p i last).1 (asks p i last).2 = some (r, c) → c.InRange := by
  intro r c hcall
  obtain ⟨-, heq⟩ := Option.ite_none_right_eq_some.1 hcall
  cases heq
  exact hrange

theorem ranged_afterMore : Ranged afterMore := by
  have hstart : Ranged start := .start rfl
  have hfirst : Ranged afterFirst := hstart.after (asks 1 0 9) (ranged_asks ⟨by decide, by decide, by decide, by decide⟩) rfl
  have hboth : Ranged afterBoth := hfirst.after (asks 2 1 9) (ranged_asks ⟨by decide, by decide, by decide, by decide⟩) rfl
  have hwait : Ranged afterWait := hboth.after (asks 2 0 9) (ranged_asks ⟨by decide, by decide, by decide, by decide⟩) rfl
  exact hwait.after (asks 1 0 19) (ranged_asks ⟨by decide, by decide, by decide, by decide⟩) rfl

theorem completes_afterMore : afterMore.Completes 1
    { lfType := .wrlck, lfStart := 0, lfEnd := 9, lfId := 1, addr := 7, lfFlags := posix } := by
  refine ⟨_, rfl, rfl, [], List.isChain_pair.2 ⟨0, 4, rfl, _, List.mem_cons_self, List.mem_cons_self, rfl, rfl⟩, by decide⟩

/-- The second process is on the chain of the new lock and its `lf_next` is the old one. The first is not refused the
bytes of the second, and then each waits for the other. -/
theorem merged_not_refused : Ranged afterMore ∧ ¬afterMore.Refuses ∧
    (afterMore.step 1 (asks 1 1 9).2).map Prod.fst = some .sleeps ∧ afterLast.WaitsFor 1 2 ∧ afterLast.WaitsFor 2 1 := by
  have hsleeps : (afterMore.step 1 (asks 1 1 9).2).map Prod.fst = some .sleeps := by decide
  refine ⟨ranged_afterMore, fun h => ?_, hsleeps, ?_, ?_⟩
  · have hrefused := h 1 (asks 1 1 9).2 1 _ rfl rfl rfl completes_afterMore
    rw [hsleeps] at hrefused
    cases hrefused
  · exact ⟨1, 7, rfl, _, List.mem_cons_self, List.mem_cons_self, rfl, rfl⟩
  · exact ⟨0, 4, rfl, _, List.mem_cons_self, List.mem_cons_self, rfl, rfl⟩

end Kernel

end NetBSD.Vfs
