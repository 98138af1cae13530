import NetBSD.Uipc.Accept

/-!
# The order of pending connections

The queues as lists, and every call on the sockets as one of a few events on them. A socket goes to the end of
`so_q` and `accept` takes the first one; the record of what was put on `so_q` and what was accepted is kept by
the events, whatever the sockets are.
-/

namespace NetBSD.Uipc

open Lib (Runs)

abbrev Queues := Nat → Which → List Nat

inductive Event where
  | idle
  | create (so : Nat)
  | arrive (head : Nat) (w : Which) (so : Nat)
  | connect (head so : Nat)
  | leave (so : Nat)
  | accept (head so : Nat)
  | close (so : Nat)

namespace Event

def queues (q : Queues) : Event → Queues
  | .idle | .create _ => q
  | .arrive head w so => setq q head w (q head w ++ [so])
  | .connect head so => setq (without q so) head .q (without q so head .q ++ [so])
  | .leave so | .accept _ so => without q so
  | .close so => closed q so

def entry : Event → Option (Nat × Nat)
  | .arrive head .q so | .connect head so => some (head, so)
  | _ => none

def taken : Event → Option (Nat × Nat)
  | .accept head so => some (head, so)
  | _ => none

def creates : Event → Option Nat
  | .create so | .arrive _ _ so => some so
  | _ => none

def subject : Event → Option Nat
  | .arrive _ _ so | .connect _ so | .leave so | .accept _ so => some so
  | _ => none

def closes : Event → Option Nat
  | .close so => some so
  | _ => none

def Unused (q : Queues) (so : Nat) : Prop := (∀ head w, so ∉ q head w) ∧ ∀ w, q so w = []

def Possible (q : Queues) : Event → Prop
  | .create so => Unused q so
  | .arrive head _ so => Unused q so ∧ head ≠ so
  | .connect head so => so ∈ q head .q0
  | .accept head so => ∃ t, q head .q = so :: t
  | _ => True

end Event

variable {m m' : Sockets} {q : Queues} {a b so head : Nat} {s p : Socket} {w : Which} {e : Event}

theorem filter_without (q : Queues) (so a : Nat) (w : Which) :
    (without q so a w).filter (fun b => b ≠ so) = (q a w).filter fun b => b ≠ so := by
  rw [without, List.filter_filter]
  simp

theorem filter_append_self (l : List Nat) (so : Nat) :
    (l ++ [so]).filter (fun b => b ≠ so) = l.filter fun b => b ≠ so := by
  rw [List.filter_append]
  simp

theorem Event.others (hso : e.subject = some so ∨ e.subject = none) (hclose : e.closes ≠ some a) (w : Which) :
    (e.queues q a w).filter (fun b => b ≠ so) = (q a w).filter fun b => b ≠ so := by
  cases e with
  | idle => rfl
  | create _ => rfl
  | arrive head v so' =>
    obtain rfl : so' = so := Option.some.inj (hso.resolve_right (by simp [Event.subject]))
    by_cases hav : a = head ∧ w = v
    · rw [hav.1, hav.2, Event.queues, setq_self, filter_append_self]
    · rw [Event.queues, setq_of_ne hav]
  | connect head so' =>
    obtain rfl : so' = so := Option.some.inj (hso.resolve_right (by simp [Event.subject]))
    by_cases hav : a = head ∧ w = .q
    · rw [hav.1, hav.2, Event.queues, setq_self, filter_append_self, filter_without]
    · rw [Event.queues, setq_of_ne hav, filter_without]
  | leave so' =>
    obtain rfl : so' = so := Option.some.inj (hso.resolve_right (by simp [Event.subject]))
    exact filter_without q so' a w
  | accept head so' =>
    obtain rfl : so' = so := Option.some.inj (hso.resolve_right (by simp [Event.subject]))
    exact filter_without q so' a w
  | close so' =>
    have hne : a ≠ so' := fun heq => hclose (by rw [heq]; rfl)
    rw [Event.queues, closed, if_neg hne]

/-- The record is in order: what was accepted and what is still on `so_q` were put there in that order, and a socket
on `so_q0` was not put on `so_q` yet. -/
structure Ordered (q : Queues) (made : Nat → Nat) (entered accepted : Nat → List (Nat × Nat)) : Prop where
  order : ∀ a, (accepted a ++ (q a .q).map fun b => (b, made b)).Sublist (entered a)
  nodup : ∀ a, (entered a).Nodup
  old : ∀ a b n, (b, n) ∈ entered a → n ≤ made b
  waiting : ∀ a head b, (b, made b) ∈ entered a → b ∉ q head .q0

variable {made : Nat → Nat} {entered accepted : Nat → List (Nat × Nat)}

theorem logged_self : logged made entered (some (head, so)) head = entered head ++ [(so, made so)] :=
  Function.update_self ..

theorem logged_of_ne (ha : a ≠ head) : logged made entered (some (head, so)) a = entered a :=
  Function.update_of_ne ha ..

namespace Ordered

theorem shrink (h : Ordered q made entered accepted) {q' : Queues} (hsub : ∀ a w, (q' a w).Sublist (q a w)) :
    Ordered q' made entered accepted := by
  refine ⟨?_, h.nodup, h.old, ?_⟩
  · intro a
    apply List.Sublist.trans _ (h.order a)
    apply List.Sublist.append_left
    exact (hsub a .q).map _
  · exact fun a head b hb hmem => h.waiting a head b hb ((hsub head .q0).subset hmem)

theorem create (h : Ordered q made entered accepted) (hso : Event.Unused q so) :
    Ordered q (Function.update made so (made so + 1)) (Function.update entered so []) (Function.update accepted so []) := by
  have hsub : ∀ a x, x ∈ Function.update entered so [] a → x ∈ entered a := by
    intro a x hx
    by_cases ha : a = so
    · subst ha
      rw [Function.update_self] at hx
      cases hx
    · rwa [Function.update_of_ne ha] at hx
  refine ⟨?_, ?_, ?_, ?_⟩
  · intro a
    by_cases ha : a = so
    · subst ha
      rw [Function.update_self, Function.update_self, hso.2 .q]
      exact List.Sublist.refl _
    · rw [Function.update_of_ne ha, Function.update_of_ne ha]
      have hmap : (q a .q).map (fun b => (b, Function.update made so (made so + 1) b)) =
          (q a .q).map fun b => (b, made b) := by
        apply List.map_congr_left
        intro b hb
        have hbso : b ≠ so := by
          rintro rfl
          exact hso.1 a .q hb
        rw [Function.update_of_ne hbso]
      rw [hmap]
      exact h.order a
  · intro a
    by_cases ha : a = so
    · rw [ha, Function.update_self]
      exact List.nodup_nil
    · rw [Function.update_of_ne ha]
      exact h.nodup a
  · intro a b n hb
    have hle := h.old a b n (hsub a _ hb)
    by_cases hbso : b = so
    · subst hbso
      rw [Function.update_self]
      omega
    · rwa [Function.update_of_ne hbso]
  · intro a head b hb
    by_cases hbso : b = so
    · exact hbso ▸ hso.1 head .q0
    · rw [Function.update_of_ne hbso] at hb
      exact h.waiting a head b (hsub a _ hb)

theorem enter (h : Ordered q made entered accepted) (hnew : (so, made so) ∉ entered head)
    (hso : ∀ a, so ∉ q a .q0) :
    Ordered (setq q head .q (q head .q ++ [so])) made (logged made entered (some (head, so))) accepted := by
  have hmem : ∀ a x, x ∈ logged made entered (some (head, so)) a → x ∈ entered a ∨ a = head ∧ x = (so, made so) := by
    intro a x hx
    by_cases ha : a = head
    · subst ha
      rw [logged_self, List.mem_append, List.mem_singleton] at hx
      exact hx.imp_right fun hx => ⟨rfl, hx⟩
    · rw [logged_of_ne ha] at hx
      exact Or.inl hx
  refine ⟨?_, ?_, ?_, ?_⟩
  · intro a
    by_cases ha : a = head
    · subst ha
      rw [setq_self, logged_self, List.map_append, ← List.append_assoc]
      exact (h.order a).append_right _
    · rw [setq_of_ne fun hav => ha hav.1, logged_of_ne ha]
      exact h.order a
  · intro a
    by_cases ha : a = head
    · subst ha
      rw [logged_self]
      apply List.Nodup.append (h.nodup a) (List.nodup_singleton _)
      intro x hx hx'
      rw [List.mem_singleton.mp hx'] at hx
      exact hnew hx
    · rw [logged_of_ne ha]
      exact h.nodup a
  · intro a b n hb
    rcases hmem a _ hb with hb | ⟨-, hb⟩
    · exact h.old a b n hb
    · obtain ⟨rfl, rfl⟩ := Prod.mk.inj hb
      exact Nat.le_refl _
  · intro a hd b hb
    rw [setq_of_ne (by simp)]
    rcases hmem a _ hb with hb | ⟨-, hb⟩
    · exact h.waiting a hd b hb
    · exact (Prod.mk.inj hb).1 ▸ hso hd

theorem accept (h : Ordered q made entered accepted) {t : List Nat} (hq : q head .q = so :: t) :
    Ordered (without q so) made entered (logged made accepted (some (head, so))) := by
  have hrest : (without q so head .q).Sublist t := by
    rw [without, hq, List.filter_cons_of_neg (by simp)]
    exact List.filter_sublist
  have hsub : ∀ a w, (without q so a w).Sublist (q a w) := fun a w => List.filter_sublist
  refine ⟨?_, h.nodup, h.old, (h.shrink hsub).waiting⟩
  intro a
  by_cases ha : a = head
  · subst ha
    have horder := h.order a
    rw [hq, List.map_cons] at horder
    rw [logged_self, List.append_assoc, List.singleton_append]
    apply List.Sublist.trans _ horder
    apply List.Sublist.append_left
    exact (hrest.map _).cons_cons _
  · rw [logged_of_ne ha]
    exact (h.shrink hsub).order a

end Ordered

def System.init : System where
  sockets := fun _ => none
  made := fun _ => 0
  entered := fun _ => []
  accepted := fun _ => []

theorem Kept.step (h : Kept m q) {call : Call} (hok : m.Allowed call) : ∃ e : Event, ∃ m', m.step call = some m' ∧
    Kept m' (e.queues q) ∧ e.Possible q ∧ e.entry = m.entry call ∧ e.taken = m.taken call ∧
    e.creates = call.creates ∧ e.closes = call.closes ∧ (e.subject = m.subject call ∨ e.subject = none) := by
  have hunused : ∀ {so}, m so = none → Event.Unused q so := by
    intro so hso
    refine ⟨fun head w hmem => ?_, h.nil_of_unused hso⟩
    obtain ⟨-, s, hs, -⟩ := h.queues.listed head w so hmem
    rw [hso] at hs
    cases hs
  cases call with
  | socreate so =>
    have hkept := h.create (s := {}) hok rfl (fun _ => rfl) (fun _ => rfl) rfl
    exact ⟨.create so, _, rfl, hkept, hunused hok, rfl, rfl, rfl, rfl, Or.inr rfl⟩
  | solisten so backlog =>
    obtain ⟨p, hp, hfd⟩ := hok
    refine ⟨.idle, _, rfl, ?_, trivial, rfl, rfl, rfl, rfl, Or.inl rfl⟩
    refine h.flags (fun _ => ⟨rfl, rfl, rfl⟩) ?_ ?_ ?_
    · intro s hs hne
      obtain rfl := Option.some.inj (hp.symm.trans hs)
      exact absurd (h.head_none hp hfd) hne
    · intro s hs _
      obtain rfl := Option.some.inj (hp.symm.trans hs)
      exact hfd
    · intro s hacc
      dsimp only
      rw [hacc, Bool.true_or]
  | sonewconn1 head connstatus new attach =>
    obtain ⟨⟨p, hp, hacc⟩, hnew⟩ := hok
    obtain ⟨r, m', hcall, hcases⟩ := sonewconn1_spec h hp hacc connstatus hnew attach
    have hstep : m.step (.sonewconn1 head connstatus new attach) = some m' := by
      rw [Sockets.step, hcall]
      rfl
    have hentry : m.entry (.sonewconn1 head connstatus new attach) =
        if connstatus = .zero then none else r.map fun so => (head, so) := by
      rw [Sockets.entry, hcall]
      rfl
    rcases hcases with ⟨rfl, hkept⟩ | ⟨so, rfl, rfl, hkept⟩
    · have hnone : m.entry (.sonewconn1 head connstatus new attach) = none := by
        rw [hentry]
        split <;> rfl
      cases new with
      | none => exact ⟨.idle, m', hstep, hkept, trivial, hnone.symm, rfl, rfl, rfl, Or.inr rfl⟩
      | some so => exact ⟨.create so, m', hstep, hkept, hunused (hnew so rfl), hnone.symm, rfl, rfl, rfl, Or.inr rfl⟩
    · have hne : head ≠ so := by
        rintro rfl
        rw [hnew head rfl] at hp
        cases hp
      refine ⟨.arrive head connstatus.soqueue so, m', hstep, hkept, ⟨hunused (hnew so rfl), hne⟩, ?_, rfl, rfl, rfl,
        Or.inl rfl⟩
      rw [hentry]
      cases connstatus <;> rfl
  | soisconnecting so =>
    refine ⟨.idle, _, rfl, ?_, trivial, rfl, rfl, rfl, rfl, Or.inr rfl⟩
    exact h.state (fun _ => ⟨rfl, rfl, rfl⟩) fun _ => rfl
  | soisconnected so =>
    obtain ⟨s, hs⟩ := Option.isSome_iff_exists.mp hok
    obtain ⟨m', hcall, ⟨hentry, hkept⟩ | ⟨head, hentry, hmem, hkept⟩⟩ := soisconnected_spec h hs
    · exact ⟨.idle, m', hcall, hkept, trivial, hentry.symm, rfl, rfl, rfl, Or.inr rfl⟩
    · exact ⟨.connect head so, m', hcall, hkept, hmem, hentry.symm, rfl, rfl, rfl, Or.inl rfl⟩
  | soisdisconnected so =>
    refine ⟨.idle, _, rfl, ?_, trivial, rfl, rfl, rfl, rfl, Or.inr rfl⟩
    exact h.state (fun _ => ⟨rfl, rfl, rfl⟩) fun _ => rfl
  | accept head =>
    obtain ⟨p, hp, hacc, hne⟩ := hok
    obtain ⟨so, t, m', hq, hnext, hcall, hkept⟩ := accept_spec h hp hacc hne
    refine ⟨.accept head so, m', ?_, hkept, ⟨t, hq⟩, rfl, ?_, rfl, rfl, Or.inl hnext.symm⟩
    · rw [Sockets.step, hcall]
      rfl
    · rw [Sockets.taken, hnext]
      rfl
  | drop so =>
    obtain ⟨s, hs⟩ := Option.isSome_iff_exists.mp hok
    obtain ⟨m', hcall, ⟨-, hkept, -⟩ | ⟨-, hkept, -⟩, -⟩ := h.drop hs
    · exact ⟨.leave so, m', hcall, hkept, trivial, rfl, rfl, rfl, rfl, Or.inl rfl⟩
    · exact ⟨.idle, m', hcall, hkept, trivial, rfl, rfl, rfl, rfl, Or.inr rfl⟩
  | sofree so =>
    obtain ⟨s, hs⟩ := Option.isSome_iff_exists.mp hok
    by_cases hused : s.soPcb = true ∨ s.ssNofdref = false
    · exact ⟨.idle, m, sofree_used hs hused, h, trivial, rfl, rfl, rfl, rfl, Or.inr rfl⟩
    · obtain ⟨hpcb, hnofd⟩ := not_or.mp hused
      rw [Bool.not_eq_true] at hpcb
      rw [Bool.not_eq_false] at hnofd
      have hnil := h.nil_of_nofdref hs hnofd
      obtain ⟨m', hcall, hcons, hkinds, hgone⟩ := sofree_spec h.queues hs hpcb hnofd fun _ => hnil
      have hkept := h.release hnil hcons (fun _ _ _ hb => (mem_without.mp hb).1) hkinds hgone
      exact ⟨.leave so, m', hcall, hkept, trivial, rfl, rfl, rfl, rfl, Or.inl rfl⟩
  | soclose so lingers =>
    obtain ⟨s, hs, hfd⟩ := hok
    obtain ⟨m', hcall, hkept⟩ := soclose_spec h hs hfd lingers
    exact ⟨.close so, m', hcall, hkept, trivial, rfl, rfl, rfl, rfl, Or.inl rfl⟩

structure System.Good (s : System) (q : Queues) : Prop where
  kept : Kept s.sockets q
  ordered : Ordered q s.made s.entered s.accepted

theorem System.Good.step {s : System} (h : s.Good q) {call : Call} (hok : s.sockets.Allowed call) :
    ∃ e : Event, ∃ s', s.step call = some s' ∧ s'.Good (e.queues q) ∧ e.closes = call.closes ∧
      (e.subject = s.sockets.subject call ∨ e.subject = none) := by
  obtain ⟨e, m', hstep, hkept, hposs, hentry, htaken, hcreates, hcloses, hsubject⟩ := h.kept.step hok
  unfold System.step
  rw [hstep, ← hentry, ← htaken, ← hcreates]
  refine ⟨e, _, rfl, ⟨hkept, ?_⟩, hcloses, hsubject⟩
  have hord := h.ordered
  cases e with
  | idle => exact hord
  | create so => exact hord.create hposs
  | arrive head w so =>
    obtain ⟨hunused, hne⟩ := hposs
    have hmade := hord.create hunused
    cases w with
    | q =>
      apply hmade.enter _ fun a => hunused.1 a .q0
      intro hmem
      rw [Function.update_of_ne hne, Function.update_self] at hmem
      have hle := hord.old head so _ hmem
      omega
    | q0 =>
      refine ⟨?_, hmade.nodup, hmade.old, ?_⟩
      · intro a
        rw [Event.queues, setq_of_ne (by simp)]
        exact hmade.order a
      · intro a hd b hb hmem
        have hmem' : b ∈ q hd .q0 ∨ b = so := by
          by_cases hav : hd = head
          · rw [hav, Event.queues, setq_self, List.mem_append, List.mem_singleton] at hmem
            exact hmem.imp_left fun hmem => hav ▸ hmem
          · rw [Event.queues, setq_of_ne fun h => hav h.1] at hmem
            exact Or.inl hmem
        rcases hmem' with hmem | rfl
        · exact hmade.waiting a hd b hb hmem
        · -- The new socket was never put on `so_q`.
          change (b, Function.update s.made b (s.made b + 1) b) ∈ Function.update s.entered b [] a at hb
          by_cases ha : a = b
          · rw [ha, Function.update_self] at hb
            cases hb
          · rw [Function.update_of_ne ha, Function.update_self] at hb
            have hle := hord.old a b _ hb
            omega
  | connect head so =>
    have hless : Ordered (without q so) s.made s.entered s.accepted := hord.shrink fun a w => List.filter_sublist
    apply hless.enter
    · exact fun hmem => hord.waiting head head so hmem hposs
    · exact fun a hmem => (mem_without.mp hmem).2 rfl
  | leave so => exact hord.shrink fun a w => List.filter_sublist
  | accept head so =>
    obtain ⟨t, hq⟩ := hposs
    exact hord.accept hq
  | close so =>
    apply hord.shrink
    intro a w
    unfold Event.queues closed
    dsimp only
    split
    · exact List.nil_sublist _
    · exact List.Sublist.refl _

theorem System.Good.init : System.init.Good fun _ _ => [] := by
  refine ⟨⟨⟨?_, ?_, ?_, ?_⟩, ?_, ?_, ?_⟩, ⟨?_, ?_, ?_, ?_⟩⟩
  · intro a p hp
    cases hp
  · intro a p hp
    cases hp
  · intro b s head hb
    cases hb
  · intro head w b hb
    cases hb
  · intro b s hb
    cases hb
  · intro a s ha
    cases ha
  · intro a w hne
    exact absurd rfl hne
  · exact fun a => List.Sublist.refl _
  · exact fun a => List.nodup_nil
  · intro a b n hb
    cases hb
  · intro a head b hb
    cases hb

abbrev Run (s : System) : Prop := Runs (fun s => s = System.init) System.step (fun s => s.sockets.Allowed) s

theorem Run.good {s : System} (h : Run s) : ∃ q, s.Good q := by
  apply h.invariant
  · rintro s rfl
    exact ⟨_, System.Good.init⟩
  · intro s call s' ⟨q, hgood⟩ hok hstep
    obtain ⟨e, s₁, hstep₁, hgood₁, -⟩ := hgood.step hok
    obtain rfl := Option.some.inj (hstep₁.symm.trans hstep)
    exact ⟨_, hgood₁⟩

/-- In every run the queues are consistent; what was accepted from a socket, and behind it what is on its `so_q`, were
put on `so_q` in that order; and every call returns and leaves the sockets it is not about in their order. -/
theorem accept_queues {s : System} (h : Run s) : ∃ q, Consistent s.sockets q ∧
    (∀ a, (s.entered a).Nodup ∧
      (s.accepted a ++ (q a .q).map fun b => (b, s.made b)).Sublist (s.entered a)) ∧
    ∀ call, s.sockets.Allowed call → ∃ s' q', s.step call = some s' ∧ Consistent s'.sockets q' ∧
      ∀ a w so, call.closes ≠ some a → (∀ b, s.sockets.subject call = some b → b = so) →
        (q' a w).filter (fun b => b ≠ so) = (q a w).filter fun b => b ≠ so := by
  obtain ⟨q, hgood⟩ := h.good
  refine ⟨q, hgood.kept.queues, fun a => ⟨hgood.ordered.nodup a, hgood.ordered.order a⟩, fun call hok => ?_⟩
  obtain ⟨e, s', hstep, hgood', hcloses, hsubject⟩ := hgood.step hok
  refine ⟨s', e.queues q, hstep, hgood'.kept.queues, fun a w so hclose hso => Event.others ?_ (hcloses ▸ hclose) w⟩
  rcases hsubject with hsubject | hsubject
  · rw [hsubject]
    cases hsub : s.sockets.subject call with
    | none => exact Or.inr rfl
    | some b => exact Or.inl (congrArg some (hso b hsub))
  · exact Or.inr hsubject

def System.next (s : System) (call : Call) : System := (s.step call).getD s

theorem Run.next {s : System} (h : Run s) (call : Call) (hok : s.sockets.Allowed call) : Run (s.next call) := by
  obtain ⟨q, hgood⟩ := h.good
  obtain ⟨e, s', hstep, -⟩ := hgood.step hok
  rw [System.next, hstep]
  exact h.call call hok hstep

def twoConfirming : System :=
  (((System.init.next (.socreate 0)).next (.solisten 0 5)).next (.sonewconn1 0 .isconfirming (some 1) true)).next
    (.sonewconn1 0 .isconfirming (some 2) true)

theorem run_twoConfirming : Run twoConfirming := by
  have hstart : Run System.init := Runs.start rfl
  have hlisten := (hstart.next (.socreate 0) rfl).next (.solisten 0 5) ⟨_, rfl, rfl⟩
  have hfirst := hlisten.next (.sonewconn1 0 .isconfirming (some 1) true)
    ⟨⟨_, rfl, rfl⟩, fun _ hso => Option.some.inj hso ▸ rfl⟩
  exact hfirst.next (.sonewconn1 0 .isconfirming (some 2) true)
    ⟨⟨_, rfl, rfl⟩, fun _ hso => Option.some.inj hso ▸ rfl⟩

theorem accept_queues_two : ∃ q, Consistent twoConfirming.sockets q ∧
    (∀ a, (twoConfirming.entered a).Nodup ∧
      (twoConfirming.accepted a ++ (q a .q).map fun b => (b, twoConfirming.made b)).Sublist (twoConfirming.entered a)) ∧
    ∀ call, twoConfirming.sockets.Allowed call → ∃ s' q', twoConfirming.step call = some s' ∧
      Consistent s'.sockets q' ∧
      ∀ a w so, call.closes ≠ some a → (∀ b, twoConfirming.sockets.subject call = some b → b = so) →
        (q' a w).filter (fun b => b ≠ so) = (q a w).filter fun b => b ≠ so :=
  accept_queues run_twoConfirming

/-- The second socket becomes connected before the first, and the first is accepted before it. -/
theorem confirmed_order_differs : Run ((twoConfirming.next (.soisconnected 2)).next (.soisconnected 1)) ∧
    ((twoConfirming.next (.soisconnected 2)).sockets 2).map Socket.ssIsconnected = some true ∧
    ((twoConfirming.next (.soisconnected 2)).sockets 1).map Socket.ssIsconnected = some false ∧
    (((twoConfirming.next (.soisconnected 2)).next (.soisconnected 1)).sockets 1).map Socket.ssIsconnected = some true ∧
    ((twoConfirming.next (.soisconnected 2)).next (.soisconnected 1)).sockets.taken (.accept 0) = some (0, 1) ∧
    (((twoConfirming.next (.soisconnected 2)).next (.soisconnected 1)).next (.accept 0)).sockets.taken (.accept 0) =
      some (0, 2) := by
  have hsecond : Run (twoConfirming.next (.soisconnected 2)) := run_twoConfirming.next (.soisconnected 2) rfl
  exact ⟨hsecond.next (.soisconnected 1) rfl, by decide, by decide, by decide, by decide, by decide⟩

end NetBSD.Uipc
