import NetBSD.Uipc.Pending

/-!
# Accept queues over whole runs

What each call does to the queues, and what is put on `so_q` against what is accepted from it.
-/

namespace NetBSD.Uipc

open Lib (Runs)

variable {m m' : Sockets} {q : Nat → Which → List Nat} {a b so head new : Nat} {s p : Socket} {w v : Which}

theorem Kept.appended (h : Kept m q) (hcons : Consistent m' (setq q head w (q head w ++ [so])))
    (hkinds : ∀ b, b ≠ so → (m' b).map Socket.kind = (m b).map Socket.kind)
    (hso : ∃ s', m' so = some s' ∧ s'.kind = (false, true, true)) (hne : head ≠ so) (hnil : ∀ w, q so w = [])
    (hp : m head = some p) (hacc : p.soAcceptconn = true) : Kept m' (setq q head w (q head w ++ [so])) := by
  obtain ⟨s', hs', hkind⟩ := hso
  have hback : ∀ b x, m' b = some x → b ≠ so → ∃ x₀, m b = some x₀ ∧ x.kind = x₀.kind := by
    intro b x hb hbso
    have hk := hkinds b hbso
    rw [hb] at hk
    obtain ⟨x₀, hx₀, hxk⟩ := Option.map_eq_some_iff.mp hk.symm
    exact ⟨x₀, hx₀, hxk.symm⟩
  refine ⟨hcons, ?_, ?_, ?_⟩
  · intro b x hb hhead
    by_cases hbso : b = so
    · subst hbso
      obtain rfl := Option.some.inj (hs'.symm.trans hb)
      exact hkind
    · obtain ⟨x₀, hx₀, hxk⟩ := hback b x hb hbso
      obtain ⟨hd, hhd⟩ := Option.ne_none_iff_exists'.mp hhead
      obtain ⟨v, hv, -⟩ := hcons.pending b x hd hb hhd
      have hold : b ∈ q hd v := by
        by_cases hav : hd = head ∧ v = w
        · obtain ⟨rfl, rfl⟩ := hav
          rw [setq_self, List.mem_append, List.mem_singleton] at hv
          exact hv.resolve_right hbso
        · rwa [setq_of_ne hav] at hv
      rw [hxk]
      exact h.waiting b x₀ hx₀ (by rw [h.queues.head_of_mem hold hx₀]; simp)
  · intro b x hb hlis
    by_cases hbso : b = so
    · subst hbso
      obtain rfl := Option.some.inj (hs'.symm.trans hb)
      have hfalse : s'.soAcceptconn = false := congrArg Prod.fst hkind
      rw [hfalse] at hlis
      cases hlis
    · obtain ⟨x₀, hx₀, hxk⟩ := hback b x hb hbso
      have hnofd : x.ssNofdref = x₀.ssNofdref := congrArg (fun k => k.2.1) hxk
      rw [hnofd]
      exact h.listening b x₀ hx₀ ((congrArg Prod.fst hxk).symm.trans hlis)
  · intro b v hq
    have hold : b ≠ so ∧ ∃ x, m b = some x ∧ x.soAcceptconn = true := by
      by_cases hav : b = head ∧ v = w
      · rw [hav.1]
        exact ⟨hne, p, hp, hacc⟩
      · rw [setq_of_ne hav] at hq
        refine ⟨?_, h.headed b v hq⟩
        rintro rfl
        exact hq (hnil v)
    obtain ⟨hbso, x, hx, hxacc⟩ := hold
    have hk := hkinds b hbso
    rw [hx] at hk
    obtain ⟨x', hx', hxk⟩ := Option.map_eq_some_iff.mp hk
    exact ⟨x', hx', (congrArg Prod.fst hxk).trans hxacc⟩

theorem Kept.ne_of_nofdref (h : Kept m q) (hp : m head = some p) (hacc : p.soAcceptconn = true)
    (hs : m so = some s) (hnofd : s.ssNofdref = true) : head ≠ so := by
  rintro rfl
  obtain rfl := Option.some.inj (hs.symm.trans hp)
  rw [h.listening head s hs hacc] at hnofd
  cases hnofd

theorem Kept.insque (h : Kept m q) (hs : m so = some s) (hsnone : s.soHead = none)
    (hkind : s.kind = (false, true, true)) (hp : m head = some p) (hacc : p.soAcceptconn = true) (w : Which) :
    ∃ m', soqinsque m head so w = some m' ∧ Kept m' (setq q head w (q head w ++ [so])) := by
  have hnofd : s.ssNofdref = true := congrArg (fun k => k.2.1) hkind
  have hne := h.ne_of_nofdref hp hacc hs hnofd
  have hnil := h.nil_of_nofdref hs hnofd
  obtain ⟨m', hcall, hcons, hkinds⟩ :=
    soqinsque_spec h.queues hs hsnone hnil hp (h.head_none hp (h.listening head p hp hacc)) hne w
  obtain ⟨s', hs', hk⟩ := hkinds.get hs
  exact ⟨m', hcall, h.appended hcons (fun b _ => hkinds b) ⟨s', hs', hk.trans hkind⟩ hne hnil hp hacc⟩

theorem Kept.remque (h : Kept m q) (hs : m so = some s) (hhead : s.soHead = some head) (hso : so ∈ q head w) :
    ∃ m', soqremque m so w = some (true, m') ∧ Kept m' (without q so) ∧ Kinds m m' ∧
      ∃ s', m' so = some s' ∧ s'.soHead = none ∧ s'.kind = (false, true, true) := by
  obtain ⟨m', hcall, hcons, hkinds, s', hs', hsnone⟩ := soqremque_mem h.queues hs hhead hso
  have hwait := h.waiting so s hs (by rw [hhead]; simp)
  obtain ⟨s₀, hs₀, hk⟩ := hkinds.get_back hs'
  obtain rfl := Option.some.inj (hs.symm.trans hs₀)
  refine ⟨m', hcall, ?_, hkinds, s', hs', hsnone, hk.trans hwait⟩
  apply h.shrink hcons (fun _ _ _ hb => (mem_without.mp hb).1)
  · exact fun b x hb => hkinds.get_back hb
  · exact fun a _ _ => hkinds a

theorem Kept.headed_of_kinds (h : Kept m q) (hkinds : Kinds m m') (hso : so ∈ q head w) :
    ∃ p, m' head = some p ∧ p.soAcceptconn = true := by
  obtain ⟨p, hp, hacc⟩ := h.headed head w (List.ne_nil_of_mem hso)
  obtain ⟨p', hp', hk⟩ := hkinds.get hp
  exact ⟨p', hp', (congrArg Prod.fst hk).trans hacc⟩

theorem Kept.create (h : Kept m q) (hfree : m so = none) (hs : s.soHead = none) (hsoq : ∀ w, s.soq w = none)
    (hlen : ∀ w, s.soqlen w = 0) (hacc : s.soAcceptconn = false) : Kept (Function.update m so (some s)) q := by
  have hself : Function.update m so (some s) so = some s := Function.update_self ..
  refine ⟨h.queues.create hfree hs hsoq hlen, ?_, ?_, ?_⟩
  · intro b x hb hne
    by_cases hbso : b = so
    · subst hbso
      obtain rfl := Option.some.inj (hself.symm.trans hb)
      exact absurd hs hne
    · rw [Function.update_of_ne hbso] at hb
      exact h.waiting b x hb hne
  · intro b x hb hlis
    by_cases hbso : b = so
    · subst hbso
      obtain rfl := Option.some.inj (hself.symm.trans hb)
      rw [hacc] at hlis
      cases hlis
    · rw [Function.update_of_ne hbso] at hb
      exact h.listening b x hb hlis
  · intro b w hne
    obtain ⟨x, hx, hlis⟩ := h.headed b w hne
    have hbso : b ≠ so := by
      rintro rfl
      rw [hfree] at hx
      cases hx
    exact ⟨x, by rw [Function.update_of_ne hbso, hx], hlis⟩

theorem sonewconn1_spec (h : Kept m q) (hp : m head = some p) (hacc : p.soAcceptconn = true)
    (connstatus : Connstatus) {new : Option Nat} (hnew : ∀ so, new = some so → m so = none) (attach : Bool) :
    ∃ r m', sonewconn1 m head connstatus new attach = some (r, m') ∧
      (r = none ∧ Kept m' q ∨
        ∃ so, r = some so ∧ new = some so ∧
          Kept m' (setq q head connstatus.soqueue (q head connstatus.soqueue ++ [so]))) := by
  unfold sonewconn1
  rw [hp]
  dsimp only
  split
  · exact ⟨none, m, rfl, Or.inl ⟨rfl, h⟩⟩
  cases new with
  | none => exact ⟨none, m, rfl, Or.inl ⟨rfl, h⟩⟩
  | some so =>
    have hfree := hnew so rfl
    obtain ⟨s, hsdef⟩ : ∃ s : Socket, s = { p with
        soHead := none, soq := fun _ => none, soqlen := fun _ => 0, soQlimit := 0, soPcb := false,
        soAcceptconn := false, ssNofdref := true } := ⟨_, rfl⟩
    have hsnone : s.soHead = none := by rw [hsdef]
    have hskind : s.kind = (false, true, false) := by rw [hsdef]; rfl
    dsimp only
    rw [← hsdef]
    have hmade := h.create hfree hsnone (fun w => by rw [hsdef]) (fun w => by rw [hsdef]) (by rw [hsdef])
    have hself : Function.update m so (some s) so = some s := Function.update_self ..
    have hne : head ≠ so := by
      rintro rfl
      rw [hfree] at hp
      cases hp
    have hp' : Function.update m so (some s) head = some p := by rw [Function.update_of_ne hne, hp]
    have hpnone := hmade.head_none hp' (h.listening head p hp hacc)
    have hnil := h.nil_of_unused hfree
    obtain ⟨m', hcall, hcons, hkinds⟩ :=
      soqinsque_spec hmade.queues hself hsnone hnil hp' hpnone hne connstatus.soqueue
    rw [hcall]
    obtain ⟨s', hs', hk⟩ := hkinds.get hself
    have hold : ∀ b, b ≠ so → (m' b).map Socket.kind = (m b).map Socket.kind := by
      intro b hb
      rw [hkinds b, Function.update_of_ne hb]
    have hmem : so ∈ setq q head connstatus.soqueue (q head connstatus.soqueue ++ [so]) head connstatus.soqueue := by
      rw [setq_self]
      simp
    dsimp only
    cases attach with
    | true =>
      rw [if_pos rfl]
      refine ⟨_, _, rfl, Or.inr ⟨so, rfl, rfl, ?_⟩⟩
      have hflags := hcons.flags (a := so) (f := fun s => { s with
        soPcb := true
        ssIsconfirming := s.ssIsconfirming || connstatus = .isconfirming
        ssIsconnected := s.ssIsconnected || connstatus = .isconnected }) fun _ => ⟨rfl, rfl, rfl⟩
      apply h.appended hflags _ _ hne hnil hp hacc
      · intro b hb
        rw [modify_of_ne hb, hold b hb]
      · rw [modify_self, hs']
        have hk' := hk.trans hskind
        have hacc' : s'.soAcceptconn = false := congrArg Prod.fst hk'
        have hnofd' : s'.ssNofdref = true := congrArg (fun k => k.2.1) hk'
        exact ⟨_, rfl, by rw [Socket.kind, hacc', hnofd']⟩
    | false =>
      -- The socket comes off the queue again and is freed.
      have hhead := hcons.head_of_mem hmem hs'
      obtain ⟨m'', hcall', hcons', hkinds', s'', hs'', hnone''⟩ :=
        soqremque_spec (t := []) hcons hs' hhead (w := connstatus.soqueue) (l := q head connstatus.soqueue)
          setq_self
      have hq : setq (setq q head connstatus.soqueue (q head connstatus.soqueue ++ [so])) head connstatus.soqueue
          (q head connstatus.soqueue ++ []) = q := by
        funext a v
        by_cases hav : a = head ∧ v = connstatus.soqueue
        · rw [hav.1, hav.2, setq_self, List.append_nil]
        · rw [setq_of_ne hav, setq_of_ne hav]
      rw [hq] at hcons'
      rw [if_neg (by simp), hcall']
      refine ⟨none, m''.free so, rfl, Or.inl ⟨rfl, ?_⟩⟩
      apply h.release hnil (hcons'.free hs'' hnone'' hnil) (fun _ _ _ hb => hb) _ (Function.update_self ..)
      intro b hb
      rw [free_kind m'' hb, hkinds' b, hold b hb]

theorem soisconnected_spec (h : Kept m q) (hs : m so = some s) : ∃ m', soisconnected m so = some m' ∧
    (m.entry (.soisconnected so) = none ∧ Kept m' q ∨
      ∃ head, m.entry (.soisconnected so) = some (head, so) ∧ so ∈ q head .q0 ∧
        Kept m' (setq (without q so) head .q (without q so head .q ++ [so]))) := by
  obtain ⟨f, hf⟩ : ∃ f : Socket → Socket, f = fun s =>
    { s with ssIsconnecting := false, ssIsdisconnecting := false, ssIsconfirming := false, ssIsconnected := true } :=
    ⟨_, rfl⟩
  have hmod : m.modify so f so = some (f s) := by rw [modify_self, hs]; rfl
  have hflags : Kept (m.modify so f) q :=
    h.state (fun s => by rw [hf]; exact ⟨rfl, rfl, rfl⟩) fun s => by rw [hf]; rfl
  have hfhead : (f s).soHead = s.soHead := by rw [hf]
  unfold soisconnected
  rw [hs]
  dsimp only [Sockets.entry]
  rw [← hf, hs, Option.bind_some]
  cases hhead : s.soHead with
  | none => exact ⟨_, rfl, Or.inl ⟨rfl, hflags⟩⟩
  | some head =>
    rw [hhead] at hfhead
    obtain ⟨w, hw, huniq⟩ := h.queues.pending so s head hs hhead
    dsimp only
    rw [Option.bind_some]
    cases w with
    | q0 =>
      obtain ⟨m₀, hentry, -⟩ := h.remque hs hhead hw
      obtain ⟨m₁, hcall, hkept, hkinds, s₁, hs₁, hnone, hkind⟩ := hflags.remque hmod hfhead hw
      obtain ⟨p, hp, hacc⟩ := hflags.headed_of_kinds hkinds hw
      obtain ⟨m₂, hcall', hkept'⟩ := hkept.insque hs₁ hnone hkind hp hacc .q
      rw [hcall, hentry]
      exact ⟨m₂, hcall', Or.inr ⟨head, rfl, hw, hkept'⟩⟩
    | q =>
      have hnot : so ∉ q head .q0 := fun hmem => by cases huniq .q0 hmem
      rw [soqremque_not h.queues hs hhead hnot, soqremque_not hflags.queues hmod hfhead hnot]
      exact ⟨_, rfl, Or.inl ⟨rfl, hflags⟩⟩

theorem accept_spec (h : Kept m q) (hp : m head = some p) (hacc : p.soAcceptconn = true) (hne : p.soq .q ≠ none) :
    ∃ so t m', q head .q = so :: t ∧ m.next .q head = some so ∧ accept m head = some (so, m') ∧
      Kept m' (without q so) := by
  have hpnone := h.head_none hp (h.listening head p hp hacc)
  have hlinked := h.queues.linked head p hp hpnone .q
  have hnext : m.next .q head = p.soq .q := by rw [Sockets.next, hp]; rfl
  cases hq : q head .q with
  | nil =>
    rw [hq] at hlinked
    exact absurd hlinked hne
  | cons so t =>
    rw [hq] at hlinked
    have hfirst : p.soq .q = some so := hlinked.1
    have hmem : so ∈ q head .q := by rw [hq]; exact List.mem_cons_self
    obtain ⟨-, s, hs, hhead⟩ := h.queues.listed head .q so hmem
    obtain ⟨m', hcall, hkept, -, s', hs', hnone, hkind⟩ := h.remque hs hhead hmem
    have hnofd : s'.ssNofdref = true := congrArg (fun k => k.2.1) hkind
    unfold accept
    rw [hnext, hfirst]
    dsimp only
    rw [hcall]
    dsimp only
    rw [hs']
    dsimp only
    rw [if_pos hnofd]
    refine ⟨so, t, _, rfl, rfl, rfl, hkept.flags (fun _ => ⟨rfl, rfl, rfl⟩) ?_ (fun _ _ _ => rfl) fun _ hx => hx⟩
    intro x hx hxne
    obtain rfl := Option.some.inj (hs'.symm.trans hx)
    exact absurd hnone hxne

def closed (q : Nat → Which → List Nat) (so : Nat) : Nat → Which → List Nat := fun a w => if a = so then [] else q a w

theorem modify_modify (m : Sockets) (a : Nat) (f g : Socket → Socket) :
    (m.modify a f).modify a g = m.modify a fun s => g (f s) := by
  funext b
  by_cases hb : b = a
  · subst hb
    rw [modify_self, modify_self, modify_self, Option.map_map]
    rfl
  · rw [modify_of_ne hb, modify_of_ne hb, modify_of_ne hb]

theorem soabort_first (h : Kept m q) (hp : m head = some p) (hq : q head w = so :: l) :
    ∃ m', soabort m so = some m' ∧ Kept m' (setq q head w l) ∧ ∃ p', m' head = some p' ∧ p'.kind = p.kind := by
  have hmem : so ∈ q head w := by rw [hq]; exact List.mem_cons_self
  obtain ⟨⟨p₀, hp₀, hpnone⟩, s, hs, hhead⟩ := h.queues.listed head w so hmem
  obtain rfl := Option.some.inj (hp.symm.trans hp₀)
  have hkind := h.waiting so s hs (by rw [hhead]; simp)
  have hpcb : s.soPcb = true := congrArg (fun k => k.2.2) hkind
  have hnofd : s.ssNofdref = true := congrArg (fun k => k.2.1) hkind
  have hset : setq q head w l = without q so := h.queues.setq_eq (l := []) hs hhead hq
  obtain ⟨m', hcall, hcases, hkinds⟩ := h.drop hs
  have hk := hkinds head (h.queues.ne_head hmem hp hpnone).symm
  rw [hp] at hk
  refine ⟨m', ?_, ?_, Option.map_eq_some_iff.mp hk⟩
  · unfold soabort
    rw [hs]
    dsimp only
    rw [if_pos hpcb, hcall]
  · rw [hset]
    rcases hcases with ⟨-, hkept, -⟩ | ⟨hfd, -⟩
    · exact hkept
    · rw [hnofd] at hfd
      cases hfd

theorem abortAll_spec {fuel : Nat} (h : Kept m q) (hp : m head = some p) (hpnone : p.soHead = none)
    (hfuel : (q head w).length < fuel) : ∃ m', abortAll w head fuel m = some m' ∧ Kept m' (setq q head w []) ∧
      ∃ p', m' head = some p' ∧ p'.kind = p.kind := by
  obtain ⟨l, hl⟩ : ∃ l, l = q head w := ⟨_, rfl⟩
  induction l generalizing m q p fuel with
  | nil =>
    cases fuel with
    | zero => exact absurd hfuel (Nat.not_lt_zero _)
    | succ fuel =>
      have hlinked := h.queues.linked head p hp hpnone w
      rw [← hl] at hlinked
      have hsoq : p.soq w = none := hlinked
      have hset : setq q head w [] = q := by
        funext a v
        by_cases hav : a = head ∧ v = w
        · rw [hav.1, hav.2, setq_self, hl]
        · rw [setq_of_ne hav]
      unfold abortAll
      rw [hp]
      dsimp only
      rw [hsoq, hset]
      exact ⟨m, rfl, h, p, hp, rfl⟩
  | cons so l ih =>
    cases fuel with
    | zero => exact absurd hfuel (Nat.not_lt_zero _)
    | succ fuel =>
      have hlinked := h.queues.linked head p hp hpnone w
      rw [← hl] at hlinked hfuel
      have hsoq : p.soq w = some so := hlinked.1
      obtain ⟨m₁, hcall, hkept, p₁, hp₁, hkind⟩ := soabort_first h hp hl.symm
      obtain ⟨hacc, hnofd⟩ : p.soAcceptconn = true ∧ p.ssNofdref = false := by
        obtain ⟨p', hp', hacc⟩ := h.headed head w (by rw [← hl]; simp)
        obtain rfl := Option.some.inj (hp.symm.trans hp')
        exact ⟨hacc, h.listening head p hp hacc⟩
      have hp₁none : p₁.soHead = none :=
        hkept.head_none hp₁ ((congrArg (fun k => k.2.1) hkind).trans hnofd)
      obtain ⟨m', hrest, hkept', p', hp', hkind'⟩ :=
        ih hkept hp₁ hp₁none (by rw [setq_self]; simpa using hfuel) setq_self.symm
      have hset : setq (setq q head w l) head w [] = setq q head w [] := by
        funext a v
        by_cases hav : a = head ∧ v = w
        · rw [hav.1, hav.2, setq_self, setq_self]
        · rw [setq_of_ne hav, setq_of_ne hav, setq_of_ne hav]
      rw [hset] at hkept'
      unfold abortAll
      rw [hp]
      dsimp only
      rw [hsoq]
      dsimp only
      rw [hcall, Option.bind_some]
      exact ⟨m', hrest, hkept', p', hp', hkind'.trans hkind⟩

theorem soclose_spec (h : Kept m q) (hs : m so = some s) (hfd : s.ssNofdref = false) (lingers : Bool) :
    ∃ m', soclose m so lingers = some m' ∧ Kept m' (closed q so) := by
  have hsnone := h.head_none hs hfd
  -- The loops, or nothing when the socket does not listen.
  obtain ⟨m₂, hloops, h₂, s₂, hs₂, hkind⟩ : ∃ m₂, (if s.soAcceptconn then
      (abortAll .q0 so ((s.soqlen .q0).toNat + 1) m).bind fun m => abortAll .q so ((s.soqlen .q).toNat + 1) m
      else some m) = some m₂ ∧ Kept m₂ (closed q so) ∧ ∃ s₂, m₂ so = some s₂ ∧ s₂.kind = s.kind := by
    have hlen : ∀ w, (s.soqlen w).toNat = (q so w).length := fun w => by
      rw [h.queues.len so s hs w, Int.toNat_natCast]
    cases hacc : s.soAcceptconn with
    | true =>
      obtain ⟨m₁, hcall₁, h₁, s₁, hs₁, hkind₁⟩ := abortAll_spec (w := .q0) h hs hsnone (Nat.lt_succ_self _)
      have hs₁none : s₁.soHead = none := h₁.head_none hs₁ ((congrArg (fun k => k.2.1) hkind₁).trans hfd)
      have hq : setq q so .q0 [] so .q = q so .q := setq_of_ne (by simp)
      obtain ⟨m₂, hcall₂, h₂, s₂, hs₂, hkind₂⟩ :=
        abortAll_spec (w := .q) h₁ hs₁ hs₁none (Nat.lt_succ_self _)
      rw [hq] at hcall₂
      have hset : setq (setq q so .q0 []) so .q [] = closed q so := by
        funext a v
        unfold closed
        by_cases ha : a = so
        · subst ha
          rw [if_pos rfl]
          cases v with
          | q => exact setq_self
          | q0 => rw [setq_of_ne (by simp), setq_self]
        · rw [if_neg ha, setq_of_ne fun hav => ha hav.1, setq_of_ne fun hav => ha hav.1]
      rw [hset] at h₂
      rw [if_pos rfl, hlen, hlen, hcall₁, Option.bind_some]
      exact ⟨m₂, hcall₂, h₂, s₂, hs₂, hkind₂.trans hkind₁⟩
    | false =>
      have hnil : closed q so = q := by
        funext a w
        unfold closed
        by_cases ha : a = so
        · subst ha
          rw [if_pos rfl]
          by_contra hne
          obtain ⟨p, hp, hlis⟩ := h.headed a w (Ne.symm hne)
          obtain rfl := Option.some.inj (hs.symm.trans hp)
          rw [hacc] at hlis
          cases hlis
        · rw [if_neg ha]
      rw [if_neg (by simp), hnil]
      exact ⟨m, rfl, h, s, hs, rfl⟩
  have hacc₂ : s₂.soAcceptconn = s.soAcceptconn := congrArg Prod.fst hkind
  have hfd₂ : s₂.ssNofdref = false := (congrArg (fun k => k.2.1) hkind).trans hfd
  have hnone₂ := h₂.head_none hs₂ hfd₂
  -- The control block and the descriptor go.
  obtain ⟨f, hf⟩ : ∃ f : Socket → Socket, f = fun x =>
    { x with soPcb := x.soPcb && lingers && !x.soAcceptconn, ssNofdref := true } := ⟨_, rfl⟩
  have hlinks : ∀ x, (f x).soHead = x.soHead ∧ (f x).soq = x.soq ∧ (f x).soqlen = x.soqlen := by
    intro x
    rw [hf]
    exact ⟨rfl, rfl, rfl⟩
  have hmod : m₂.modify so f so = some (f s₂) := by rw [modify_self, hs₂]; rfl
  have hsofree : soclose m so lingers = sofree (m₂.modify so f) so := by
    unfold soclose
    rw [hs]
    dsimp only
    rw [hloops, Option.bind_some, if_neg (by rw [hfd]; simp), modify_modify, hf]
  rw [hsofree]
  cases hpcb : (f s₂).soPcb with
  | true =>
    rw [sofree_used hmod (Or.inl hpcb)]
    have hnotacc : s₂.soAcceptconn = false := by
      rw [hf] at hpcb
      simpa using (Bool.and_eq_true_iff.mp hpcb).2
    refine ⟨_, rfl, h₂.flags hlinks ?_ ?_ ?_⟩
    · intro x hx hne
      obtain rfl := Option.some.inj (hs₂.symm.trans hx)
      exact absurd hnone₂ hne
    · intro x hx hlis
      obtain rfl := Option.some.inj (hs₂.symm.trans hx)
      rw [hf] at hlis
      exact absurd hlis (by rw [hnotacc]; simp)
    · intro x hlis
      rw [hf]
      exact hlis
  | false =>
    have hnil : ∀ w, closed q so so w = [] := fun w => if_pos rfl
    have hnofd : (f s₂).ssNofdref = true := by rw [hf]
    obtain ⟨m', hcall, hcons, hkinds, hgone⟩ :=
      sofree_spec (h₂.queues.flags hlinks) hmod hpcb hnofd fun _ => hnil
    refine ⟨m', hcall, h₂.release hnil ?_ (fun _ _ _ hb => hb) ?_ hgone⟩
    · have hout : without (closed q so) so = closed q so := by
        funext a w
        exact without_eq fun hmem => h₂.queues.ne_head hmem hs₂ hnone₂ rfl
      rw [hout] at hcons
      exact hcons
    · intro b hb
      rw [hkinds b hb, modify_of_ne hb]

end NetBSD.Uipc
