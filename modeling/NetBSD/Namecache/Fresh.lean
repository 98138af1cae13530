import NetBSD.Namecache.Calls
import NetBSD.Lib.Runs

/-!
# Stale translations

A lookup replies with what was entered last, if no purge gives a vnode the number that an entry still has for it; after the numbers
have begun again one may.
-/

namespace NetBSD.Namecache

open Lib (Runs)

inductive Event where
  | looked (dvp : Nat) (name : Name) (r : Reply)
  | entered (dvp : Nat) (vp : Option Nat) (name : Name)
  | purged (vp : Nat)
  | purgedvfs (mount : Nat → Nat) (mp : Nat)

def Event.Ends (dvp : Nat) (name : Name) (vp : Option Nat) : Event → Prop
  | looked dvp' name' r => dvp' = dvp ∧ name' = name ∧ r = .zero
  | entered dvp' _ name' => dvp' = dvp ∧ name' = name
  | purged vp' => vp' = dvp ∨ vp = some vp'
  | purgedvfs mount mp => mount dvp = mp

def Fresh (history : List Event) (dvp : Nat) (name : Name) (vp : Option Nat) : Prop :=
  ∃ later earlier, history = later ++ .entered dvp vp name :: earlier ∧ ∀ e ∈ later, ¬e.Ends dvp name vp

def Missed (history : List Event) (dvp : Nat) (name : Name) : Prop :=
  ∃ later earlier, history = later ++ .looked dvp name .zero :: earlier ∧ ∀ vp, .entered dvp vp name ∉ later

/-- The calls; the file system of each vnode may be another one at each `cache_purgevfs`. -/
inductive Call where
  | lookup (dvp : Nat) (cn : Component)
  | enter (dvp : Nat) (vp : Option Nat) (name : Name)
  | purge (vp : Nat)
  | purgevfs (mount : Nat → Nat) (mp fuel : Nat)

structure State where
  cache : Cache
  history : List Event

namespace State

def new : State where
  cache := {
    entry := fun _ => ⟨none, 0, none, 0, []⟩
    hash := ⟨fun _ => none, fun _ => none⟩
    lru := ⟨⟨fun _ => none, fun _ => none⟩, .head ()⟩
    numcache := 0
    vid := fun _ => 0
    nextvnodeid := 0 }
  history := []

def step (conf : Config) (s : State) : Call → Option State
  | .lookup dvp cn => (s.cache.lookup conf dvp cn).map fun r => ⟨r.2, .looked dvp cn.name r.1 :: s.history⟩
  | .enter dvp vp name => (s.cache.enter conf dvp vp name).map fun c => ⟨c, .entered dvp vp name :: s.history⟩
  | .purge vp => (s.cache.purge conf vp).map fun c => ⟨c, .purged vp :: s.history⟩
  | .purgevfs mount mp fuel => (s.cache.purgevfs mount mp fuel).map fun c => ⟨c, .purgedvfs mount mp :: s.history⟩

/-- An entry is entered after a lookup of it has missed, which clears `MAKEENTRY` where the name is too long. -/
def Allowed (s : State) : Call → Prop
  | .enter dvp _ name => Missed s.history dvp name ∧ name.length ≤ nchnamlen
  | _ => True

def Careful (s : State) : Call → Prop
  | .purge vp => s.cache.nextvnodeid + 1 ≠ 0 → ∀ a, s.cache.Hashed a →
      ¬((s.cache.entry a).dvp = some vp ∧ (s.cache.entry a).dvpid = s.cache.nextvnodeid + 1) ∧
        ¬((s.cache.entry a).vp = some vp ∧ (s.cache.entry a).vpid = s.cache.nextvnodeid + 1)
  | _ => True

end State

variable {conf : Config} {c c' : Cache} {s : State} {history : List Event} {a b dvp vp : Nat} {name : Name} {e : Event}

theorem Fresh.cons {vp : Option Nat} (h : Fresh history dvp name vp) (he : ¬e.Ends dvp name vp) : Fresh (e :: history) dvp name vp := by
  obtain ⟨later, earlier, rfl, hlater⟩ := h
  refine ⟨e :: later, earlier, rfl, fun x hx => ?_⟩
  rcases List.mem_cons.1 hx with rfl | hx
  exacts [he, hlater x hx]

theorem Missed.of_cons (h : Missed (e :: history) dvp name) :
    e = .looked dvp name .zero ∨ Missed history dvp name ∧ ∀ vp, e ≠ .entered dvp vp name := by
  obtain ⟨later, earlier, heq, hlater⟩ := h
  cases later with
  | nil => exact .inl (List.cons.inj heq).1
  | cons x later =>
    obtain ⟨rfl, rfl⟩ := List.cons.inj heq
    exact .inr ⟨⟨later, earlier, rfl, fun vp hin => hlater vp (List.mem_cons_of_mem _ hin)⟩,
      fun vp heq => hlater vp (heq ▸ List.mem_cons_self)⟩

def Cache.Live (c : Cache) (a dvp : Nat) : Prop := (c.entry a).dvp = some dvp ∧ (c.entry a).dvpid = c.vid dvp

def Cache.Points (c : Cache) (a : Nat) : Prop := ∀ vp, (c.entry a).vp = some vp → (c.entry a).vpid = c.vid vp

structure Current (conf : Config) (s : State) : Prop where
  sound : Sound conf s.cache
  fresh : ∀ a dvp, s.cache.Hashed a → s.cache.Live a dvp → s.cache.Points a →
    Fresh s.history dvp (s.cache.entry a).name (s.cache.entry a).vp
  unique : ∀ a b dvp, s.cache.Hashed a → s.cache.Hashed b → s.cache.Live a dvp → s.cache.Live b dvp →
    (s.cache.entry a).name = (s.cache.entry b).name → a = b
  missed : ∀ a dvp, Missed s.history dvp (s.cache.entry a).name → s.cache.Hashed a → ¬s.cache.Live a dvp
  dvpid : ∀ a dvp, s.cache.Hashed a → (s.cache.entry a).dvp = some dvp → s.cache.vid dvp = 0 → (s.cache.entry a).dvpid = 0
  vpid : ∀ a vp, s.cache.Hashed a → (s.cache.entry a).vp = some vp → s.cache.vid vp = 0 → (s.cache.entry a).vpid = 0

structure Fewer (c c' : Cache) (e : Event) : Prop where
  hashed : ∀ a, c'.Hashed a → c.Hashed a
  name : ∀ a, c'.Hashed a → (c'.entry a).name = (c.entry a).name
  vp : ∀ a, c'.Hashed a → (c'.entry a).vp = (c.entry a).vp
  live : ∀ a dvp, c'.Hashed a → c'.Live a dvp → c.Live a dvp
  points : ∀ a, c'.Hashed a → c'.Points a → c.Points a
  goesOn : ∀ a dvp, c'.Hashed a → c'.Live a dvp → c'.Points a → ¬e.Ends dvp (c.entry a).name (c.entry a).vp
  dropped : ∀ a dvp, c'.Hashed a → e = .looked dvp (c.entry a).name .zero → ¬c'.Live a dvp
  dvpid : ∀ a dvp, c'.Hashed a → (c'.entry a).dvp = some dvp → c'.vid dvp = 0 → (c'.entry a).dvpid = 0
  vpid : ∀ a vp, c'.Hashed a → (c'.entry a).vp = some vp → c'.vid vp = 0 → (c'.entry a).vpid = 0

theorem Current.fewer (h : Current conf ⟨c, history⟩) (hsound : Sound conf c') (hfewer : Fewer c c' e) :
    Current conf ⟨c', e :: history⟩ := by
  refine ⟨hsound, fun a dvp ha hlive hpoints => ?_, fun a b dvp ha hb hla hlb hname => ?_, fun a dvp hmissed ha hlive => ?_,
    hfewer.dvpid, hfewer.vpid⟩
  · have hfresh := h.fresh a dvp (hfewer.hashed a ha) (hfewer.live a dvp ha hlive) (hfewer.points a ha hpoints)
    rw [hfewer.name a ha, hfewer.vp a ha]
    exact hfresh.cons (hfewer.goesOn a dvp ha hlive hpoints)
  · refine h.unique a b dvp (hfewer.hashed a ha) (hfewer.hashed b hb) (hfewer.live a dvp ha hla) (hfewer.live b dvp hb hlb) ?_
    exact (hfewer.name a ha).symm.trans (hname.trans (hfewer.name b hb))
  · rw [hfewer.name a ha] at hmissed
    rcases hmissed.of_cons with heq | ⟨hmissed, -⟩
    · exact hfewer.dropped a dvp ha heq hlive
    · exact h.missed a dvp hmissed (hfewer.hashed a ha) (hfewer.live a dvp ha hlive)

theorem Current.kept (h : Current conf ⟨c, history⟩) (hsound : Sound conf c') (hvid : c'.vid = c.vid)
    (hentry : ∀ a, c'.Hashed a → c.Hashed a ∧ c'.entry a = c.entry a)
    (hgoesOn : ∀ a dvp, c'.Hashed a → c.Live a dvp → ¬e.Ends dvp (c.entry a).name (c.entry a).vp)
    (hdropped : ∀ a dvp, c'.Hashed a → e = .looked dvp (c.entry a).name .zero → ¬c.Live a dvp) : Current conf ⟨c', e :: history⟩ := by
  have hlive : ∀ a dvp, c'.Hashed a → c'.Live a dvp → c.Live a dvp := fun a dvp ha hlive => by
    rwa [Cache.Live, (hentry a ha).2, hvid] at hlive
  refine h.fewer hsound ⟨fun a ha => (hentry a ha).1, fun a ha => congrArg _ (hentry a ha).2, fun a ha => congrArg _ (hentry a ha).2,
    hlive, fun a ha hpoints => ?_, fun a dvp ha hl _ => hgoesOn a dvp ha (hlive a dvp ha hl),
    fun a dvp ha heq hl => hdropped a dvp ha heq (hlive a dvp ha hl), fun a dvp ha => ?_, fun a vp ha => ?_⟩
  · rwa [Cache.Points, (hentry a ha).2, hvid] at hpoints
  · rw [(hentry a ha).2, hvid]
    exact h.dvpid a dvp (hentry a ha).1
  · rw [(hentry a ha).2, hvid]
    exact h.vpid a vp (hentry a ha).1

theorem Current.looked {cn : Component} {r : Reply} {gone : Option Nat} (h : Current conf ⟨c, history⟩) (hsound : Sound conf c')
    (hwithout : Without c c' gone) (hanswers : Answers c dvp cn.name gone r) :
    Current conf ⟨c', .looked dvp cn.name r :: history⟩ := by
  -- after a miss the only entry that could have been found is gone
  have hmiss : ∀ a, c'.Hashed a → c.Live a dvp → (c.entry a).name = cn.name → r ≠ .zero := by
    rintro a ha hlive hname rfl
    obtain ⟨hhashed, hgone⟩ := (hwithout.hashed a).1 ha
    have hmatch : c.matches_ dvp cn.name a = true := matches_iff.2 ⟨hlive.1, hlive.2, hname⟩
    cases gone with
    | none => exact Bool.false_ne_true ((hanswers.2 rfl a hhashed).symm.trans hmatch)
    | some g =>
      obtain ⟨hg, hgmatch⟩ := hanswers.1 g rfl
      obtain ⟨hdvp, hdvpid, hgname⟩ := matches_iff.1 hgmatch
      exact hgone (congrArg some (h.unique g a dvp hg hhashed ⟨hdvp, hdvpid⟩ hlive (hgname.trans hname.symm)))
  refine h.kept hsound hwithout.vid (fun a ha => ⟨((hwithout.hashed a).1 ha).1, congrFun hwithout.entry a⟩)
    (fun a dvp' ha hlive => ?_) fun a dvp' ha heq hlive => ?_
  · rintro ⟨rfl, hname, hr⟩
    exact hmiss a ha hlive hname.symm hr
  · obtain ⟨rfl, hname, hr⟩ := Event.looked.inj heq
    exact hmiss a ha hlive hname.symm hr

theorem Current.answers {gone : Option Nat} {r : Reply} (h : Current conf ⟨c, history⟩) (hanswers : Answers c dvp name gone r) :
    (∀ vp, r = .vnode vp → Fresh history dvp name (some vp)) ∧ (r = .enoent → Fresh history dvp name none) := by
  constructor
  · rintro vp rfl
    obtain ⟨-, a, ha, hmatch, hvp, hvpid⟩ := hanswers
    obtain ⟨hdvp, hdvpid, rfl⟩ := matches_iff.1 hmatch
    have hfresh := h.fresh a dvp ha ⟨hdvp, hdvpid⟩ fun vp' hvp' => Option.some.inj (hvp.symm.trans hvp') ▸ hvpid
    rwa [hvp] at hfresh
  · rintro rfl
    obtain ⟨-, a, ha, hmatch, hvp⟩ := hanswers
    obtain ⟨hdvp, hdvpid, rfl⟩ := matches_iff.1 hmatch
    have hfresh := h.fresh a dvp ha ⟨hdvp, hdvpid⟩ fun vp' hvp' => absurd (hvp.symm.trans hvp') (Option.some_ne_none vp').symm
    rwa [hvp] at hfresh

theorem Current.entered (h : Current conf ⟨c, history⟩) (vp : Option Nat) (hmissed : Missed history dvp name)
    (hname : name.length ≤ nchnamlen) :
    ∃ c', c.enter conf dvp vp name = some c' ∧ Current conf ⟨c', .entered dvp vp name :: history⟩ := by
  obtain ⟨c', ncp, henter, hsound, hvid, -, hentry⟩ := h.sound.enter dvp vp hname
  refine ⟨c', henter, ?_⟩
  have hnot : ∀ a, c.Hashed a → c.Live a dvp → (c.entry a).name ≠ name := fun a ha hlive heq =>
    h.missed a dvp (heq ▸ hmissed) ha hlive
  have hlive : ∀ a dvp', c'.entry a = c.entry a → c'.Live a dvp' → c.Live a dvp' := fun a dvp' heq hlive => by
    rwa [Cache.Live, heq, hvid] at hlive
  have hdvp : ∀ a dvp', c'.entry a = ⟨some dvp, c.vid dvp, vp, vp.elim 0 c.vid, name⟩ → c'.Live a dvp' → dvp = dvp' :=
    fun a dvp' heq hlive => by
      rw [Cache.Live, heq] at hlive
      exact Option.some.inj hlive.1
  refine ⟨hsound, fun a dvp' ha hl hpoints => ?_, fun a b dvp' ha hb hla hlb heq => ?_, fun a dvp' hmissed' ha hl => ?_,
    fun a dvp' ha hd hzero => ?_, fun a vp' ha hv hzero => ?_⟩
  · rcases hentry a ha with ⟨ha, -, heq⟩ | ⟨rfl, heq⟩
    · have hpoints' : c.Points a := by rwa [Cache.Points, heq, hvid] at hpoints
      have hl' := hlive a dvp' heq hl
      rw [show ({ cache := c', history := .entered dvp vp name :: history } : State).cache.entry a = c.entry a from heq]
      refine (h.fresh a dvp' ha hl' hpoints').cons ?_
      rintro ⟨rfl, hname⟩
      exact hnot a ha hl' hname.symm
    · obtain rfl := hdvp a dvp' heq hl
      refine ⟨[], history, ?_, fun e he => absurd he List.not_mem_nil⟩
      dsimp only
      rw [heq]
      rfl
  · rcases hentry a ha with ⟨ha, -, haeq⟩ | ⟨rfl, haeq⟩ <;> rcases hentry b hb with ⟨hb, -, hbeq⟩ | ⟨rfl, hbeq⟩
    · dsimp only at heq
      rw [haeq, hbeq] at heq
      exact h.unique a b dvp' ha hb (hlive a dvp' haeq hla) (hlive b dvp' hbeq hlb) heq
    · obtain rfl := hdvp b dvp' hbeq hlb
      dsimp only at heq
      rw [haeq, hbeq] at heq
      exact absurd heq (hnot a ha (hlive a dvp haeq hla))
    · obtain rfl := hdvp a dvp' haeq hla
      dsimp only at heq
      rw [haeq, hbeq] at heq
      exact absurd heq.symm (hnot b hb (hlive b dvp hbeq hlb))
    · rfl
  · obtain ⟨hold, hne⟩ := hmissed'.of_cons.resolve_left fun heq => by cases heq
    dsimp only at hold hne
    rcases hentry a ha with ⟨ha, -, heq⟩ | ⟨rfl, heq⟩
    · rw [heq] at hold
      exact h.missed a dvp' hold ha (hlive a dvp' heq hl)
    · obtain rfl := hdvp a dvp' heq hl
      rw [heq] at hne
      exact hne vp rfl
  · dsimp only at hd hzero ⊢
    rw [hvid] at hzero
    rcases hentry a ha with ⟨ha, -, heq⟩ | ⟨rfl, heq⟩
    · rw [heq] at hd ⊢
      exact h.dvpid a dvp' ha hd hzero
    · rw [heq] at hd ⊢
      exact Option.some.inj hd ▸ hzero
  · dsimp only at hv hzero ⊢
    rw [hvid] at hzero
    rcases hentry a ha with ⟨ha, -, heq⟩ | ⟨rfl, heq⟩
    · rw [heq] at hv ⊢
      exact h.vpid a vp' ha hv hzero
    · rw [heq] at hv ⊢
      dsimp only at hv ⊢
      rw [hv]
      exact hzero

theorem Current.purged (h : Current conf ⟨c, history⟩) (hcareful : State.Careful ⟨c, history⟩ (.purge vp)) :
    ∃ c', c.purge conf vp = some c' ∧ Current conf ⟨c', .purged vp :: history⟩ := by
  obtain ⟨c', hpurge, hsound, hhashed, hcase⟩ := h.sound.purge vp
  refine ⟨c', hpurge, ?_⟩
  have hends : ∀ a dvp, dvp ≠ vp → (c.entry a).vp ≠ some vp → ¬(Event.purged vp).Ends dvp (c.entry a).name (c.entry a).vp :=
    fun a dvp hdvp hvp hends => hends.elim (fun heq => hdvp heq.symm) hvp
  rcases hcase with ⟨hnext, hentry, hvid⟩ | ⟨hnext, hentry, hvid⟩
  · have hcare := fun a ha => hcareful hnext a ((hhashed a).1 ha)
    have hlive : ∀ a dvp, c'.Hashed a → c'.Live a dvp → dvp ≠ vp ∧ c.Live a dvp := by
      intro a dvp ha hlive
      rw [Cache.Live, hentry, hvid] at hlive
      have hne : dvp ≠ vp := by
        rintro rfl
        rw [Function.update_self] at hlive
        exact (hcare a ha).1 hlive
      rw [Function.update_of_ne hne] at hlive
      exact ⟨hne, hlive⟩
    have hpoints : ∀ a, c'.Hashed a → c'.Points a → (c.entry a).vp ≠ some vp ∧ c.Points a := by
      intro a ha hpoints
      rw [Cache.Points, hentry, hvid] at hpoints
      have hne : (c.entry a).vp ≠ some vp := fun hvp => (hcare a ha).2 ⟨hvp, (hpoints vp hvp).trans (Function.update_self ..)⟩
      exact ⟨hne, fun v hv => (hpoints v hv).trans (Function.update_of_ne (fun heq => hne (hv.trans (congrArg some heq))) ..)⟩
    have hzero : ∀ v, c'.vid v = 0 → c.vid v = 0 := by
      intro v hv
      rw [hvid] at hv
      by_cases heq : v = vp
      · subst heq
        rw [Function.update_self] at hv
        exact absurd hv hnext
      · rwa [Function.update_of_ne heq] at hv
    refine h.fewer hsound ⟨fun a ha => (hhashed a).1 ha, fun a _ => by rw [hentry], fun a _ => by rw [hentry],
      fun a dvp ha hl => (hlive a dvp ha hl).2, fun a ha hp => (hpoints a ha hp).2,
      fun a dvp ha hl hp => hends a dvp (hlive a dvp ha hl).1 (hpoints a ha hp).1, fun a dvp ha heq => (by cases heq),
      fun a dvp ha => ?_, fun a v ha => ?_⟩
    · rw [hentry]
      exact fun hd hv => h.dvpid a dvp ((hhashed a).1 ha) hd (hzero dvp hv)
    · rw [hentry]
      exact fun hp hv => h.vpid a v ((hhashed a).1 ha) hp (hzero v hv)
  · have hzeroed : ∀ a, c'.Hashed a → c'.entry a = (c.entry a).zeroed := fun a ha => hentry a ((hhashed a).1 ha)
    have hzero : ∀ v, 0 = c'.vid v → v ≠ vp ∧ c.vid v = 0 := by
      intro v hv
      rw [hvid] at hv
      by_cases heq : v = vp
      · subst heq
        rw [Function.update_self] at hv
        exact absurd hv (by decide)
      · rw [Function.update_of_ne heq] at hv
        exact ⟨heq, hv.symm⟩
    have hlive : ∀ a dvp, c'.Hashed a → c'.Live a dvp → dvp ≠ vp ∧ c.Live a dvp := by
      intro a dvp ha hlive
      rw [Cache.Live, hzeroed a ha] at hlive
      obtain ⟨hne, hv⟩ := hzero dvp hlive.2
      exact ⟨hne, hlive.1, (h.dvpid a dvp ((hhashed a).1 ha) hlive.1 hv).trans hv.symm⟩
    have hpoints : ∀ a, c'.Hashed a → c'.Points a → (c.entry a).vp ≠ some vp ∧ c.Points a := by
      intro a ha hpoints
      rw [Cache.Points, hzeroed a ha] at hpoints
      refine ⟨fun hvp => (hzero vp (hpoints vp hvp)).1 rfl, fun v hv => ?_⟩
      have hv' := (hzero v (hpoints v hv)).2
      exact (h.vpid a v ((hhashed a).1 ha) hv hv').trans hv'.symm
    exact h.fewer hsound ⟨fun a ha => (hhashed a).1 ha, fun a ha => by rw [hzeroed a ha]; rfl,
      fun a ha => by rw [hzeroed a ha]; rfl, fun a dvp ha hl => (hlive a dvp ha hl).2, fun a ha hp => (hpoints a ha hp).2,
      fun a dvp ha hl hp => hends a dvp (hlive a dvp ha hl).1 (hpoints a ha hp).1, fun a dvp ha heq => (by cases heq),
      fun a dvp ha _ _ => by rw [hzeroed a ha]; rfl, fun a v ha _ _ => by rw [hzeroed a ha]; rfl⟩

theorem Current.purgedvfs {mount : Nat → Nat} {mp : Nat} (h : Current conf ⟨c, history⟩) (hpurged : Purged conf mount mp c c') :
    Current conf ⟨c', .purgedvfs mount mp :: history⟩ := by
  refine h.kept hpurged.sound hpurged.vid (fun a ha => ⟨(hpurged.hashed a ha).1, (hpurged.hashed a ha).2.1⟩)
    (fun a dvp ha hlive hends => ?_) fun a dvp ha heq => by cases heq
  have hstays := (hpurged.hashed a ha).2.2
  rw [Cache.stays, hlive.1, Option.all_some] at hstays
  exact of_decide_eq_true hstays hends

theorem Current.step {a : Call} {s' : State} (h : Current conf s) (hallowed : s.Allowed a) (hcareful : s.Careful a)
    (hstep : s.step conf a = some s') : Current conf s' := by
  cases a with
  | lookup dvp cn =>
    obtain ⟨⟨r, c'⟩, hlookup, rfl⟩ := Option.map_eq_some_iff.1 hstep
    obtain ⟨r', c'', gone, hlookup', hsound, hwithout, hanswers⟩ := h.sound.lookup dvp cn
    cases hlookup.symm.trans hlookup'
    exact h.looked hsound hwithout hanswers
  | enter dvp vp name =>
    obtain ⟨c', henter, rfl⟩ := Option.map_eq_some_iff.1 hstep
    obtain ⟨c'', henter', hcurrent⟩ := h.entered vp hallowed.1 hallowed.2
    cases henter.symm.trans henter'
    exact hcurrent
  | purge vp =>
    obtain ⟨c', hpurge, rfl⟩ := Option.map_eq_some_iff.1 hstep
    obtain ⟨c'', hpurge', hcurrent⟩ := h.purged hcareful
    cases hpurge.symm.trans hpurge'
    exact hcurrent
  | purgevfs mount mp fuel =>
    obtain ⟨c', hpurgevfs, rfl⟩ := Option.map_eq_some_iff.1 hstep
    exact h.purgedvfs (.of_purgevfs h.sound hpurgevfs)

theorem Current.new : Current conf State.new := by
  have hoff : ∀ a, ¬State.new.cache.Hashed a := fun a ha => ha rfl
  refine ⟨⟨[], fun _ => [], ⟨rfl, List.nodup_nil, rfl⟩, fun a => ?_, ⟨fun _ => rfl, fun _ => List.nodup_nil, ?_, fun _ _ => rfl⟩, ?_,
    ?_, ?_, fun _ => rfl⟩, fun a _ ha => absurd ha (hoff a), fun a _ _ ha => absurd ha (hoff a), fun a _ _ ha => absurd ha (hoff a),
    fun a _ ha => absurd ha (hoff a), fun a _ ha => absurd ha (hoff a)⟩
  · exact iff_of_false List.not_mem_nil (Nat.not_lt_zero a)
  · exact fun b b' a ha => absurd ha List.not_mem_nil
  · exact fun b a ha => absurd ha List.not_mem_nil
  · exact fun b a ha => absurd ha List.not_mem_nil
  · exact fun b a ha => absurd ha List.not_mem_nil

/-- In runs whose calls are all careful the chains are sound, each call returns, and a lookup replies with what was entered last and
has not ended. -/
theorem translations_fresh (h : Runs (· = State.new) (State.step conf) (fun s a => s.Allowed a ∧ s.Careful a) s) :
    Sound conf s.cache ∧
      (∀ dvp cn, ∃ r c', s.cache.lookup conf dvp cn = some (r, c') ∧
        (∀ vp, r = .vnode vp → Fresh s.history dvp cn.name (some vp)) ∧ (r = .enoent → Fresh s.history dvp cn.name none)) ∧
      (∀ dvp vp name, name.length ≤ nchnamlen → (s.cache.enter conf dvp vp name).isSome) ∧
      (∀ vp, (s.cache.purge conf vp).isSome) ∧ ∀ mount mp, ∃ fuel, (s.cache.purgevfs mount mp fuel).isSome := by
  have hcurrent : Current conf s :=
    h.invariant (fun _ heq => heq ▸ .new) fun s a s' hs hok hstep => hs.step hok.1 hok.2 hstep
  refine ⟨hcurrent.sound, fun dvp cn => ?_, fun dvp vp name hname => ?_, fun vp => ?_, fun mount mp => ?_⟩
  · obtain ⟨r, c', gone, hlookup, -, -, hanswers⟩ := hcurrent.sound.lookup dvp cn
    exact ⟨r, c', hlookup, hcurrent.answers hanswers⟩
  · obtain ⟨c', -, henter, -⟩ := hcurrent.sound.enter dvp vp hname
    exact Option.isSome_iff_exists.2 ⟨c', henter⟩
  · obtain ⟨c', hpurge, -⟩ := hcurrent.sound.purge vp
    exact Option.isSome_iff_exists.2 ⟨c', hpurge⟩
  · obtain ⟨fuel, c', hpurgevfs, -⟩ := hcurrent.sound.purgevfs mount mp
    exact ⟨fuel, Option.isSome_iff_exists.2 ⟨c', hpurgevfs⟩⟩

def small : Config := ⟨true, 1, 0⟩

def unnamed : Component := ⟨[], true, false⟩

theorem translations_fresh_small : Fresh [.entered 0 (some 1) [], .looked 0 [] .zero] 0 [] (some 1) := by
  have hmissed : Missed [.looked 0 [] .zero] 0 [] := ⟨[], [], rfl, fun vp => List.not_mem_nil⟩
  have hlooked := (Runs.start rfl : Runs (· = State.new) (State.step small) (fun s a => s.Allowed a ∧ s.Careful a) State.new).after
    (.lookup 0 unnamed) ⟨trivial, trivial⟩ rfl
  have hentered := hlooked.after (.enter 0 (some 1) []) ⟨⟨hmissed, Nat.zero_le _⟩, trivial⟩ rfl
  obtain ⟨-, hlookup, -⟩ := translations_fresh hentered
  obtain ⟨r, c', heq, hvnode, -⟩ := hlookup 0 unnamed
  obtain ⟨rfl, -⟩ := Prod.mk.inj (Option.some.inj heq)
  exact hvnode 1 rfl

def numbered (vid : Nat → BitVec 32) (next : BitVec 32) : Cache := { State.new.cache with vid := vid, nextvnodeid := next }

def Numbered (vid : Nat → BitVec 32) (next : BitVec 32) : Prop :=
  ∃ history, Runs (· = State.new) (State.step small) State.Allowed ⟨numbered vid next, history⟩

theorem Numbered.purge {vid : Nat → BitVec 32} {next : BitVec 32} (h : Numbered vid next) (vp : Nat) (hnext : next + 1 ≠ 0) :
    Numbered (Function.update vid vp (next + 1)) (next + 1) := by
  obtain ⟨history, hrun⟩ := h
  have hpurge : (numbered vid next).purge small vp = some (numbered (Function.update vid vp (next + 1)) (next + 1)) := if_pos hnext
  exact ⟨.purged vp :: history, hrun.call (.purge vp) trivial (Option.map_eq_some_iff.2 ⟨_, hpurge, rfl⟩)⟩

theorem Numbered.purge_wrap {vid : Nat → BitVec 32} {next : BitVec 32} (h : Numbered vid next) (vp : Nat) (hnext : next + 1 = 0) :
    Numbered (Function.update vid vp 1) 1 := by
  obtain ⟨history, hrun⟩ := h
  have hpurge : (numbered vid next).purge small vp = some (numbered (Function.update vid vp 1) 1) := by
    refine (if_neg (not_not.2 hnext)).trans ?_
    rw [show (numbered vid next).nextvnodeid + 1 = 0 from hnext]
    rfl
  exact ⟨.purged vp :: history, hrun.call (.purge vp) trivial (Option.map_eq_some_iff.2 ⟨_, hpurge, rfl⟩)⟩

theorem Numbered.purges {vid : Nat → BitVec 32} {next : BitVec 32} (h : Numbered vid next) (vp n : Nat) (hn : next.toNat + n < 4294967296) :
    ∃ vid', Numbered vid' (next + BitVec.ofNat 32 n) ∧ ∀ v, v ≠ vp → vid' v = vid v := by
  induction n with
  | zero =>
    have hzero : next + BitVec.ofNat 32 0 = next := BitVec.add_zero next
    exact ⟨vid, by rwa [hzero], fun _ _ => rfl⟩
  | succ n ih =>
    obtain ⟨vid', hvid', hother⟩ := ih (Nat.lt_of_succ_lt hn)
    have hsucc : next + BitVec.ofNat 32 (n + 1) = next + BitVec.ofNat 32 n + 1 := by
      rw [BitVec.ofNat_add, BitVec.add_assoc]
      rfl
    have hne : next + BitVec.ofNat 32 n + 1 ≠ 0 := by
      rw [← hsucc]
      intro hzero
      have htoNat := congrArg BitVec.toNat hzero
      rw [BitVec.toNat_add, BitVec.toNat_ofNat, Nat.add_mod_mod, Nat.mod_eq_of_lt hn] at htoNat
      exact Nat.succ_ne_zero _ htoNat
    rw [hsucc]
    exact ⟨_, hvid'.purge vp hne, fun v hv => (Function.update_of_ne hv ..).trans (hother v hv)⟩

def full (vid : Nat → BitVec 32) (next : BitVec 32) : Cache := ((numbered vid next).enter small 0 (some 1) []).getD State.new.cache

theorem full_lookup {vid vid' : Nat → BitVec 32} {next next' : BitVec 32} (h₀ : vid 0 = vid' 0) (h₁ : vid 1 = vid' 1) :
    Cache.lookup { full vid next with vid := vid', nextvnodeid := next' } small 0 unnamed =
      some (.vnode 1, { full vid next with vid := vid', nextvnodeid := next' }) := by
  generalize hc : ({ full vid next with vid := vid', nextvnodeid := next' } : Cache) = c
  have hentry : c.entry 0 = ⟨some 0, vid 0, some 1, vid 1, []⟩ := hc ▸ rfl
  have hmatch : c.matches_ 0 [] 0 = true := matches_iff.2 ⟨congrArg _ hentry, by rw [hentry, ← hc]; exact h₀, congrArg _ hentry⟩
  have hfind : c.findLoop 0 unnamed.name c.numcache (c.hash.val (.head (small.bucket unnamed.name))) = some (some 0) := by
    rw [show c.numcache = 1 from hc ▸ rfl, show c.hash.val (.head (small.bucket unnamed.name)) = some 0 from hc ▸ rfl, Cache.findLoop]
    exact if_pos hmatch
  have hmove : c.moveToEnd 0 = some c := by subst hc; rfl
  have hvpid : ¬(c.entry 0).vpid ≠ c.vid 1 := by rw [hentry, ← hc]; exact not_not.2 h₁
  rw [Cache.lookup, if_neg (by decide), if_neg (by decide), hfind, Option.bind_some]
  dsimp only
  rw [if_neg (by decide), hentry]
  dsimp only
  rw [hentry] at hvpid
  rw [if_neg hvpid, hmove]
  rfl

/-- A vnode is purged after it was entered and has the number that it had before, as the numbers have begun again. -/
theorem purged_vnode_returned : ¬∀ s, Runs (· = State.new) (State.step small) State.Allowed s → ∀ dvp cn vp c',
    s.cache.lookup small dvp cn = some (.vnode vp, c') → Fresh s.history dvp cn.name (some vp) := by
  intro hfresh
  have hstart : Numbered (fun _ => 0) 0 := ⟨[], .start rfl⟩
  have htwo := (hstart.purge 0 (by decide)).purge 1 (by decide)
  obtain ⟨vid, hlast, hother⟩ := htwo.purges 2 4294967293 (by decide)
  obtain ⟨history, hrun⟩ := hlast.purge_wrap 2 (by decide)
  have hvid₁ : Function.update vid 2 1 1 = 2 := (Function.update_of_ne (by decide) ..).trans (hother 1 (by decide))
  generalize Function.update vid 2 1 = vid at hrun hvid₁
  have hmissed : Missed (.looked 0 [] .zero :: history) 0 [] := ⟨[], history, rfl, fun vp => List.not_mem_nil⟩
  have hpurged := ((hrun.after (.lookup 0 unnamed) trivial rfl).after (.enter 0 (some 1) []) ⟨hmissed, Nat.zero_le _⟩ rfl).after
    (.purge 1) trivial rfl
  have hlookup : Cache.lookup { full vid 1 with vid := Function.update vid 1 2, nextvnodeid := 2 } small 0 unnamed = _ :=
    full_lookup (Function.update_of_ne (by decide) ..).symm (hvid₁.trans (Function.update_self 1 2 vid).symm)
  obtain ⟨later, earlier, heq, hlater⟩ := hfresh _ hpurged 0 unnamed 1 _ hlookup
  cases later with
  | nil => cases (List.cons.inj heq).1
  | cons e later =>
    obtain rfl : Event.purged 1 = e := (List.cons.inj heq).1
    exact hlater _ List.mem_cons_self (.inr rfl)

end NetBSD.Namecache
