import NetBSD.Uipc.Remque

/-!
# What the calls do to the queues

Each function on sockets as a change of the queues, and what every call keeps.
-/

namespace NetBSD.Uipc

variable {m m' : Sockets} {q : Nat → Which → List Nat} {a b so head new : Nat} {s p : Socket} {w v : Which}
  {l t : List Nat} {f : Socket → Socket}

def without (q : Nat → Which → List Nat) (so : Nat) : Nat → Which → List Nat :=
  fun a w => (q a w).filter fun b => b ≠ so

theorem mem_without : b ∈ without q so a w ↔ b ∈ q a w ∧ b ≠ so := by
  rw [without, List.mem_filter, decide_eq_true_eq]

theorem without_eq (h : so ∉ q a w) : without q so a w = q a w := by
  rw [without, List.filter_eq_self]
  intro b hb
  exact decide_eq_true fun heq => h (heq ▸ hb)

theorem Consistent.setq_eq (h : Consistent m q) (hs : m so = some s) (hhead : s.soHead = some head)
    (hq : q head w = l ++ so :: t) : setq q head w (l ++ t) = without q so := by
  obtain ⟨p, hp, hpnone⟩ := h.head_alloc hs hhead
  have hsoq : so ∈ q head w := by
    rw [hq]
    simp
  funext a v
  by_cases hav : a = head ∧ v = w
  · obtain ⟨rfl, rfl⟩ := hav
    have hnodup := (h.linked a p hp hpnone v).nodup
    rw [hq, List.nodup_append, List.nodup_cons] at hnodup
    obtain ⟨-, ⟨hsot, -⟩, hlt⟩ := hnodup
    have hsol : so ∉ l := fun hmem => hlt so hmem so List.mem_cons_self rfl
    have hl : l.filter (fun b => b ≠ so) = l := by
      rw [List.filter_eq_self]
      exact fun b hb => decide_eq_true fun heq => hsol (heq ▸ hb)
    have ht : t.filter (fun b => b ≠ so) = t := by
      rw [List.filter_eq_self]
      exact fun b hb => decide_eq_true fun heq => hsot (heq ▸ hb)
    rw [setq_self, without, hq, List.filter_append, List.filter_cons_of_neg (by simp), hl, ht]
  · rw [setq_of_ne hav, without_eq]
    intro hmem
    have hah := h.head_unique hmem hsoq
    subst hah
    exact hav ⟨rfl, h.which_unique hmem hsoq⟩

theorem soqremque_mem (h : Consistent m q) (hs : m so = some s) (hhead : s.soHead = some head)
    (hso : so ∈ q head w) : ∃ m', soqremque m so w = some (true, m') ∧ Consistent m' (without q so) ∧ Kinds m m' ∧
      ∃ s', m' so = some s' ∧ s'.soHead = none := by
  obtain ⟨l, t, hq⟩ := List.append_of_mem hso
  obtain ⟨m', hcall, hcons, hkinds, hs'⟩ := soqremque_spec h hs hhead hq
  rw [h.setq_eq hs hhead hq] at hcons
  exact ⟨m', hcall, hcons, hkinds, hs'⟩

theorem Kinds.get (h : Kinds m m') (hs : m a = some s) : ∃ s', m' a = some s' ∧ s'.kind = s.kind := by
  have hk := h a
  rw [hs] at hk
  exact Option.map_eq_some_iff.mp hk

theorem Kinds.get_back {s' : Socket} (h : Kinds m m') (hs : m' a = some s') : ∃ s, m a = some s ∧ s'.kind = s.kind := by
  have hk := h a
  rw [hs] at hk
  obtain ⟨s, hs, hkind⟩ := Option.map_eq_some_iff.mp hk.symm
  exact ⟨s, hs, hkind.symm⟩

/-- The queues, and which sockets may be on them or have them: a pending socket has a control block and no
descriptor, and does not listen; only a listening socket, which has a descriptor, has queues. -/
structure Kept (m : Sockets) (q : Nat → Which → List Nat) : Prop where
  queues : Consistent m q
  waiting : ∀ b s, m b = some s → s.soHead ≠ none → s.kind = (false, true, true)
  listening : ∀ a s, m a = some s → s.soAcceptconn = true → s.ssNofdref = false
  headed : ∀ a w, q a w ≠ [] → ∃ p, m a = some p ∧ p.soAcceptconn = true

namespace Kept

theorem nil_of_nofdref (h : Kept m q) (hs : m so = some s) (hnofd : s.ssNofdref = true) (w : Which) : q so w = [] := by
  by_contra hne
  obtain ⟨p, hp, hacc⟩ := h.headed so w hne
  obtain rfl := Option.some.inj (hs.symm.trans hp)
  rw [h.listening so s hs hacc] at hnofd
  cases hnofd

theorem nil_of_unused (h : Kept m q) (hs : m so = none) (w : Which) : q so w = [] := by
  by_contra hne
  obtain ⟨p, hp, -⟩ := h.headed so w hne
  rw [hs] at hp
  cases hp

theorem head_none (h : Kept m q) (hs : m so = some s) (hfd : s.ssNofdref = false) : s.soHead = none := by
  by_contra hne
  have hkind := h.waiting so s hs hne
  have hnofd : s.ssNofdref = true := congrArg (fun k => k.2.1) hkind
  rw [hfd] at hnofd
  cases hnofd

theorem flags (h : Kept m q) (hf : ∀ s, (f s).soHead = s.soHead ∧ (f s).soq = s.soq ∧ (f s).soqlen = s.soqlen)
    (hpend : ∀ s, m a = some s → s.soHead ≠ none → (f s).kind = s.kind)
    (hlisten : ∀ s, m a = some s → (f s).soAcceptconn = true → (f s).ssNofdref = false)
    (hacc : ∀ s, s.soAcceptconn = true → (f s).soAcceptconn = true) : Kept (m.modify a f) q := by
  refine ⟨h.queues.flags hf, ?_, ?_, ?_⟩
  · intro b s' hb hne
    by_cases hba : b = a
    · subst hba
      rw [modify_self] at hb
      obtain ⟨s, hs, rfl⟩ := Option.map_eq_some_iff.mp hb
      rw [(hf s).1] at hne
      rw [hpend s hs hne, h.waiting b s hs hne]
    · rw [modify_of_ne hba] at hb
      exact h.waiting b s' hb hne
  · intro b s' hb hlis
    by_cases hba : b = a
    · subst hba
      rw [modify_self] at hb
      obtain ⟨s, hs, rfl⟩ := Option.map_eq_some_iff.mp hb
      exact hlisten s hs hlis
    · rw [modify_of_ne hba] at hb
      exact h.listening b s' hb hlis
  · intro b w hne
    obtain ⟨p, hp, hlis⟩ := h.headed b w hne
    by_cases hba : b = a
    · subst hba
      exact ⟨f p, by rw [modify_self, hp]; rfl, hacc p hlis⟩
    · exact ⟨p, by rw [modify_of_ne hba, hp], hlis⟩

theorem state (h : Kept m q) (hf : ∀ s, (f s).soHead = s.soHead ∧ (f s).soq = s.soq ∧ (f s).soqlen = s.soqlen)
    (hkind : ∀ s, (f s).kind = s.kind) : Kept (m.modify a f) q := by
  have hacc : ∀ s, (f s).soAcceptconn = s.soAcceptconn := fun s => congrArg Prod.fst (hkind s)
  have hnofd : ∀ s, (f s).ssNofdref = s.ssNofdref := fun s => congrArg (fun k => k.2.1) (hkind s)
  apply h.flags hf
  · exact fun s _ _ => hkind s
  · intro s hs hlis
    rw [hacc] at hlis
    rw [hnofd]
    exact h.listening a s hs hlis
  · intro s hlis
    rw [hacc, hlis]

theorem shrink (h : Kept m q) {q' : Nat → Which → List Nat} (hcons : Consistent m' q')
    (hsub : ∀ a w b, b ∈ q' a w → b ∈ q a w)
    (hback : ∀ b s', m' b = some s' → ∃ s, m b = some s ∧ s'.kind = s.kind)
    (hforth : ∀ a w, q a w ≠ [] → (m' a).map Socket.kind = (m a).map Socket.kind) : Kept m' q' := by
  refine ⟨hcons, ?_, ?_, ?_⟩
  · intro b s' hb hne
    obtain ⟨head, hhead⟩ := Option.ne_none_iff_exists'.mp hne
    obtain ⟨w, hw, -⟩ := hcons.pending b s' head hb hhead
    obtain ⟨s, hs, hkind⟩ := hback b s' hb
    have hbhead := h.queues.head_of_mem (hsub head w b hw) hs
    rw [hkind]
    exact h.waiting b s hs (by rw [hbhead]; simp)
  · intro b s' hb hlis
    obtain ⟨s, hs, hkind⟩ := hback b s' hb
    have hacc : s'.soAcceptconn = s.soAcceptconn := congrArg Prod.fst hkind
    have hnofd : s'.ssNofdref = s.ssNofdref := congrArg (fun k => k.2.1) hkind
    rw [hnofd]
    exact h.listening b s hs (hacc ▸ hlis)
  · intro a w hne
    obtain ⟨b, hb⟩ := List.exists_mem_of_ne_nil _ hne
    have hq := List.ne_nil_of_mem (hsub a w b hb)
    obtain ⟨p, hp, hlis⟩ := h.headed a w hq
    have hk := hforth a w hq
    rw [hp] at hk
    obtain ⟨p', hp', hkind⟩ := Option.map_eq_some_iff.mp hk
    exact ⟨p', hp', (congrArg Prod.fst hkind).trans hlis⟩

theorem release (h : Kept m q) {q' : Nat → Which → List Nat} (hnil : ∀ w, q so w = []) (hcons : Consistent m' q')
    (hsub : ∀ a w b, b ∈ q' a w → b ∈ q a w)
    (hkinds : ∀ b, b ≠ so → (m' b).map Socket.kind = (m b).map Socket.kind) (hgone : m' so = none) : Kept m' q' := by
  apply h.shrink hcons hsub
  · intro b s' hb
    have hne : b ≠ so := by
      rintro rfl
      rw [hgone] at hb
      cases hb
    have hk := hkinds b hne
    rw [hb] at hk
    obtain ⟨s, hs, hkind⟩ := Option.map_eq_some_iff.mp hk.symm
    exact ⟨s, hs, hkind.symm⟩
  · intro a w hq
    apply hkinds
    rintro rfl
    exact hq (hnil w)

end Kept

theorem free_kind (m : Sockets) (hb : b ≠ so) : (m.free so b).map Socket.kind = (m b).map Socket.kind := by
  rw [Sockets.free, Function.update_of_ne hb]

theorem sofree_spec (h : Consistent m q) (hs : m so = some s) (hpcb : s.soPcb = false) (hnofd : s.ssNofdref = true)
    (hnil : s.soHead = none → ∀ w, q so w = []) : ∃ m', sofree m so = some m' ∧ Consistent m' (without q so) ∧
      (∀ b, b ≠ so → (m' b).map Socket.kind = (m b).map Socket.kind) ∧ m' so = none := by
  have hgone : ∀ m₁ : Sockets, m₁.free so so = none := fun m₁ => Function.update_self ..
  unfold sofree
  rw [hs]
  dsimp only
  rw [hpcb, hnofd, if_neg (by simp)]
  cases hhead : s.soHead with
  | none =>
    have hout : without q so = q := by
      funext a w
      exact without_eq fun hmem => h.ne_head hmem hs hhead rfl
    rw [if_pos (by rfl), hout]
    exact ⟨_, rfl, h.free hs hhead (hnil hhead), fun b hb => free_kind m hb, hgone m⟩
  | some head =>
    rw [if_neg (by simp)]
    have htaken : ∀ {w}, so ∈ q head w → ∃ m', soqremque m so w = some (true, m') ∧
        Consistent (m'.free so) (without q so) ∧
        ∀ b, b ≠ so → (m'.free so b).map Socket.kind = (m b).map Socket.kind := by
      intro w hmem
      obtain ⟨m', hcall, hcons, hkinds, s', hs', hnone⟩ := soqremque_mem h hs hhead hmem
      refine ⟨m', hcall, hcons.free hs' hnone fun w => ?_, fun b hb => ?_⟩
      · rw [without, h.pending_nil hs (by rw [hhead]; simp)]
        rfl
      · rw [free_kind m' hb, hkinds b]
    obtain ⟨w, hw, huniq⟩ := h.pending so s head hs hhead
    cases w with
    | q0 =>
      obtain ⟨m', hcall, hcons, hkinds⟩ := htaken hw
      rw [hcall]
      exact ⟨_, rfl, hcons, hkinds, hgone m'⟩
    | q =>
      obtain ⟨m', hcall, hcons, hkinds⟩ := htaken hw
      have hnot : so ∉ q head .q0 := fun hmem => by
        have := huniq .q0 hmem
        cases this
      rw [soqremque_not h hs hhead hnot]
      dsimp only
      rw [hcall]
      exact ⟨_, rfl, hcons, hkinds, hgone m'⟩

theorem sofree_used (hs : m so = some s) (h : s.soPcb = true ∨ s.ssNofdref = false) : sofree m so = some m := by
  unfold sofree
  rw [hs]
  dsimp only
  rw [if_pos]
  rcases h with h | h <;> simp [h]

def Socket.dropped (s : Socket) : Socket :=
  { s with
    ssIsconnecting := false, ssIsconnected := false, ssIsdisconnecting := false
    ssCantrcvmore := true, ssCantsendmore := true, soPcb := false }

theorem drop_eq (m : Sockets) (so : Nat) : drop m so = sofree (m.modify so Socket.dropped) so := by
  have hmod : (soisdisconnected m so).modify so (fun s => { s with soPcb := false }) = m.modify so Socket.dropped := by
    funext b
    by_cases hb : b = so
    · subst hb
      rw [soisdisconnected, modify_self, modify_self, modify_self]
      cases m b <;> rfl
    · rw [soisdisconnected, modify_of_ne hb, modify_of_ne hb, modify_of_ne hb]
  rw [drop, hmod]

theorem drop_kind (hb : b ≠ so) : (m.modify so Socket.dropped b).map Socket.kind = (m b).map Socket.kind := by
  rw [modify_of_ne hb]

theorem Kept.drop (h : Kept m q) (hs : m so = some s) : ∃ m', drop m so = some m' ∧
    (s.ssNofdref = true ∧ Kept m' (without q so) ∧ m' so = none ∨
      s.ssNofdref = false ∧ Kept m' q ∧ s.soHead = none) ∧
    ∀ b, b ≠ so → (m' b).map Socket.kind = (m b).map Socket.kind := by
  have hmod : m.modify so Socket.dropped so = some s.dropped := by rw [modify_self, hs]; rfl
  have hcons : Consistent (m.modify so Socket.dropped) q := h.queues.flags fun _ => ⟨rfl, rfl, rfl⟩
  rw [drop_eq]
  cases hnofd : s.ssNofdref with
  | true =>
    obtain ⟨m', hcall, hcons', hkinds, hgone⟩ :=
      sofree_spec hcons hmod rfl hnofd fun _ w => h.nil_of_nofdref hs hnofd w
    have hkinds' : ∀ b, b ≠ so → (m' b).map Socket.kind = (m b).map Socket.kind :=
      fun b hb => (hkinds b hb).trans (drop_kind hb)
    exact ⟨m', hcall, Or.inl ⟨rfl, h.release (h.nil_of_nofdref hs hnofd) hcons' (fun _ _ _ hb => (mem_without.mp hb).1) hkinds' hgone, hgone⟩, hkinds'⟩
  | false =>
    have hnone := h.head_none hs hnofd
    refine ⟨_, sofree_used hmod (Or.inr hnofd), Or.inr ⟨rfl, ?_, hnone⟩, fun b hb => drop_kind hb⟩
    apply h.flags (f := Socket.dropped) (fun _ => ⟨rfl, rfl, rfl⟩)
    · intro s' hs' hne
      obtain rfl := Option.some.inj (hs.symm.trans hs')
      exact absurd hnone hne
    · intro s' hs' hlis
      exact h.listening so s' hs' hlis
    · exact fun _ hlis => hlis

end NetBSD.Uipc
