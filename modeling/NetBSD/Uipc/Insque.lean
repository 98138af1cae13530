import NetBSD.Uipc.Queues

/-!
# Putting a socket on a queue and taking it off
-/

namespace NetBSD.Uipc

open Lib (Linked lastFrom lastFrom_of_linked linked_append linked_concat)

variable {m m' : Sockets} {q : Nat → Which → List Nat} {a b so head prev : Nat} {s p : Socket} {w v : Which}
  {l : List Nat}

def Socket.kind (s : Socket) : Bool × Bool × Bool := (s.soAcceptconn, s.ssNofdref, s.soPcb)

structure Relinked (m m' : Sockets) (soHead : Nat → Option Nat → Option Nat)
    (link : Nat → Which → Option Nat → Option Nat) (len : Nat → Which → Int) : Prop where
  unused : ∀ a, m a = none → m' a = none
  used : ∀ a p, m a = some p → ∃ p', m' a = some p' ∧ p'.soHead = soHead a p.soHead ∧
    (∀ v, p'.soq v = link a v (p.soq v)) ∧ (∀ v, p'.soqlen v = p.soqlen v + len a v) ∧ p'.kind = p.kind

variable {soHead : Nat → Option Nat → Option Nat} {link : Nat → Which → Option Nat → Option Nat}
  {len : Nat → Which → Int}

theorem Relinked.back (h : Relinked m m' soHead link len) {p' : Socket} (ha : m' a = some p') :
    ∃ p, m a = some p ∧ p'.soHead = soHead a p.soHead ∧ (∀ v, p'.soq v = link a v (p.soq v)) ∧
      (∀ v, p'.soqlen v = p.soqlen v + len a v) ∧ p'.kind = p.kind := by
  cases hm : m a with
  | none =>
    rw [h.unused a hm] at ha
    cases ha
  | some p =>
    obtain ⟨p₁, hp₁, hrest⟩ := h.used a p hm
    obtain rfl := Option.some.inj (hp₁.symm.trans ha)
    exact ⟨p, rfl, hrest⟩

theorem Relinked.next (h : Relinked m m' soHead link len) (hm : m a = some p) :
    m'.next v a = link a v (m.next v a) := by
  obtain ⟨p', hp', -, hsoq, -⟩ := h.used a p hm
  unfold Sockets.next
  rw [hp', hm]
  exact hsoq v

def Kinds (m m' : Sockets) : Prop := ∀ a, (m' a).map Socket.kind = (m a).map Socket.kind

theorem Relinked.kinds (h : Relinked m m' soHead link len) : Kinds m m' := by
  intro a
  cases hm : m a with
  | none => rw [h.unused a hm]
  | some p =>
    obtain ⟨p', hp', -, -, -, hkind⟩ := h.used a p hm
    rw [hp', Option.map_some, Option.map_some, hkind]

def setq (q : Nat → Which → List Nat) (head : Nat) (w : Which) (l : List Nat) : Nat → Which → List Nat :=
  Function.update q head (Function.update (q head) w l)

@[simp] theorem setq_self : setq q head w l head w = l := by
  rw [setq, Function.update_self, Function.update_self]

theorem setq_of_ne (h : ¬(a = head ∧ v = w)) : setq q head w l a v = q a v := by
  unfold setq
  by_cases ha : a = head
  · subst ha
    rw [Function.update_self, Function.update_of_ne fun hv => h ⟨rfl, hv⟩]
  · rw [Function.update_of_ne ha]

theorem Consistent.split_last (h : Consistent m q) (hp : m head = some p) (hnone : p.soHead = none) {t : List Nat}
    (hq : q head w = l ++ t) : ∃ l' prev, head :: l = l' ++ [prev] ∧
      Linked (m.next w) (some head) (l' ++ [prev] ++ t) none ∧ (prev = head ∨ prev ∈ q head w) ∧
      (∀ c ∈ l', c ≠ prev ∧ (c = head ∨ c ∈ q head w)) ∧ ∀ c ∈ t, c ≠ prev := by
  have hlink := h.withHead hp hnone w
  have hsplit : head :: l = (head :: l).dropLast ++ [(head :: l).getLast (List.cons_ne_nil _ _)] :=
    (List.dropLast_append_getLast _).symm
  have hall : head :: q head w = (head :: l).dropLast ++ [(head :: l).getLast (List.cons_ne_nil _ _)] ++ t := by
    rw [← hsplit, hq]
    rfl
  have hmem : ∀ c ∈ (head :: l).dropLast ++ [(head :: l).getLast (List.cons_ne_nil _ _)],
      c = head ∨ c ∈ q head w := by
    intro c hc
    rw [← hsplit] at hc
    rcases List.mem_cons.mp hc with rfl | hc
    · exact Or.inl rfl
    · exact Or.inr (by rw [hq]; exact List.mem_append_left t hc)
  rw [hall] at hlink
  have hnodup := hlink.nodup
  rw [List.nodup_append, List.nodup_append] at hnodup
  obtain ⟨⟨-, -, hbefore⟩, -, hbehind⟩ := hnodup
  refine ⟨_, _, hsplit, hlink, hmem _ (by simp), ?_, ?_⟩
  · exact fun c hc => ⟨hbefore c hc _ List.mem_cons_self, hmem c (List.mem_append_left _ hc)⟩
  · exact fun c hc heq => hbehind _ (List.mem_append_right _ List.mem_cons_self) c hc heq.symm

theorem Consistent.other_queue (h : Consistent m q) (w : Which) (prev : Nat) (hr : Relinked m m' soHead link len)
    (hlink : ∀ c v x, link c v x ≠ x → v = w ∧ c = prev ∨ c = so)
    (hprev : prev = head ∨ prev ∈ q head w) (hp : m head = some p) (hpnone : p.soHead = none)
    (hso : so ∉ q a v) (hav : ¬(a = head ∧ v = w)) (ha : m a = some s) (hanone : s.soHead = none) :
    Linked (m'.next v) (s.soq v) (q a v) none := by
  apply (h.linked a s ha hanone v).congr
  intro c hc
  obtain ⟨-, s', hs', -⟩ := h.listed a v c hc
  rw [hr.next hs']
  by_contra hne
  rcases hlink c v _ hne with ⟨rfl, rfl⟩ | rfl
  · rcases hprev with rfl | hmem
    · exact h.ne_head hc hp hpnone rfl
    · exact hav ⟨h.head_unique hc hmem, rfl⟩
  · exact hso hc

section Insque

variable (h : Consistent m q) (hs : m so = some s) (hsnone : s.soHead = none) (hsnil : ∀ w, q so w = [])
  (hp : m head = some p) (hpnone : p.soHead = none) (hne : head ≠ so)

include h hs hsnone hp hpnone hne in
theorem soqinsque_relinked (w : Which) : ∃ m' l prev, soqinsque m head so w = some m' ∧
    head :: q head w = l ++ [prev] ∧ Linked (m.next w) (some head) (l ++ [prev]) none ∧
    (prev = head ∨ prev ∈ q head w) ∧ (∀ c ∈ l, c ≠ prev ∧ (c = head ∨ c ∈ q head w)) ∧
    Relinked m m' (fun a x => if a = so then some head else x)
      (fun a v x => if v = w ∧ a = prev then some so else if v = w ∧ a = so then none else x)
      (fun a v => if a = head ∧ v = w then 1 else 0) := by
  obtain ⟨l, prev, hl, hlinked, hprev, hbefore, -⟩ := h.split_last hp hpnone (w := w) (l := q head w) (t := [])
    (List.append_nil _).symm
  rw [List.append_nil] at hlinked
  have hsprev : so ≠ prev := by
    rintro rfl
    rcases hprev with heq | hmem
    · exact hne heq.symm
    · exact h.ne_head hmem hs hsnone rfl
  have hlen := h.len head p hp w
  -- The memory in which the loop looks for the last link.
  obtain ⟨m₃, hm₃⟩ : ∃ m₃, m₃ = ((m.modify so fun s => { s with soHead := some head }).modify head fun s =>
    s.addLen w 1).modify so fun s => s.setLink w none := ⟨_, rfl⟩
  have hhead₃ : m₃ head = some (p.addLen w 1) := by
    rw [hm₃, modify_of_ne hne, modify_self, modify_of_ne hne, hp]
    rfl
  have hnext₃ : ∀ c, c ≠ so → m₃.next w c = m.next w c := by
    intro c hc
    unfold Sockets.next
    rw [hm₃, modify_of_ne hc]
    by_cases hch : c = head
    · subst hch
      rw [modify_self, modify_of_ne hc, hp]
      rfl
    · rw [modify_of_ne hch, modify_of_ne hc]
  have hlast : lastFrom (m₃.next w) ((p.addLen w 1).soqlen w).toNat head = some prev := by
    have hlink₃ : Linked (m₃.next w) (some head) (l ++ [prev]) none := by
      apply hlinked.congr
      intro c hc
      apply hnext₃
      rintro rfl
      rcases List.mem_append.mp hc with hc | hc
      · rcases (hbefore c hc).2 with heq | hmem
        · exact hne heq.symm
        · exact h.ne_head hmem hs hsnone rfl
      · exact hsprev (List.mem_singleton.mp hc)
    rw [lastFrom_of_linked hlink₃, List.getLast?_concat]
    have hadd : (p.addLen w 1).soqlen w = p.soqlen w + 1 := Function.update_self ..
    rw [← hl, List.length_cons, hadd, hlen]
    omega
  refine ⟨m₃.modify prev fun s => s.setLink w (some so), l, prev, ?_, hl, hlinked, hprev, hbefore, ?_, ?_⟩
  · unfold soqinsque
    dsimp only
    rw [← hm₃, hhead₃]
    dsimp only
    rw [hlast]
    rfl
  · intro a ha
    have hm₃a : m₃ a = none := by
      rw [hm₃]
      by_cases haso : a = so
      · rw [haso, hs] at ha
        cases ha
      · rw [modify_of_ne haso]
        by_cases hah : a = head
        · rw [hah, hp] at ha
          cases ha
        · rw [modify_of_ne hah, modify_of_ne haso, ha]
    by_cases hap : a = prev
    · rw [← hap, modify_self, hm₃a]
      rfl
    · rw [modify_of_ne hap, hm₃a]
  · intro a x ha
    by_cases haso : a = so
    · subst haso
      have hah : a ≠ head := Ne.symm hne
      refine ⟨({ x with soHead := some head } : Socket).setLink w none, ?_, ?_, ?_, ?_, rfl⟩
      · rw [modify_of_ne hsprev, hm₃, modify_self, modify_of_ne hah, modify_self, ha]
        rfl
      · rw [if_pos rfl]
        rfl
      · intro v
        by_cases hv : v = w
        · subst hv
          rw [if_neg fun hc => hsprev hc.2, if_pos ⟨rfl, rfl⟩]
          exact Function.update_self ..
        · rw [if_neg fun hc => hv hc.1, if_neg fun hc => hv hc.1]
          exact Function.update_of_ne hv ..
      · intro v
        rw [if_neg fun hc => hah hc.1, Int.add_zero]
        rfl
    · obtain ⟨y, hm₃a, hhead, hsoq, hlen', hkind⟩ : ∃ y, m₃ a = some y ∧ y.soHead = x.soHead ∧
          (∀ v, y.soq v = x.soq v) ∧ (∀ v, y.soqlen v = x.soqlen v + if a = head ∧ v = w then 1 else 0) ∧
          y.kind = x.kind := by
        by_cases hah : a = head
        · subst hah
          refine ⟨x.addLen w 1, ?_, rfl, fun _ => rfl, fun v => ?_, rfl⟩
          · rw [hm₃, modify_of_ne haso, modify_self, modify_of_ne haso, ha]
            rfl
          · by_cases hv : v = w
            · rw [hv, if_pos ⟨rfl, rfl⟩]
              exact Function.update_self ..
            · rw [if_neg fun hc => hv hc.2, Int.add_zero]
              exact Function.update_of_ne hv ..
        · refine ⟨x, ?_, rfl, fun _ => rfl, fun v => ?_, rfl⟩
          · rw [hm₃, modify_of_ne haso, modify_of_ne hah, modify_of_ne haso, ha]
          · rw [if_neg fun hc => hah hc.1, Int.add_zero]
      by_cases hap : a = prev
      · subst hap
        refine ⟨_, by rw [modify_self, hm₃a]; rfl, ?_, ?_, ?_, ?_⟩
        · rw [if_neg haso]
          exact hhead
        · intro v
          by_cases hv : v = w
          · subst hv
            rw [if_pos ⟨rfl, rfl⟩]
            exact Function.update_self ..
          · rw [if_neg fun hc => hv hc.1, if_neg fun hc => hv hc.1]
            exact (Function.update_of_ne hv ..).trans (hsoq v)
        · exact hlen'
        · exact hkind
      · refine ⟨_, by rw [modify_of_ne hap, hm₃a], ?_, ?_, hlen', hkind⟩
        · rw [if_neg haso]
          exact hhead
        · intro v
          rw [if_neg fun hc => hap hc.2, if_neg fun hc => haso hc.2]
          exact hsoq v

include h hs hsnone hsnil hp hpnone hne in
theorem soqinsque_spec (w : Which) : ∃ m', soqinsque m head so w = some m' ∧
    Consistent m' (setq q head w (q head w ++ [so])) ∧ Kinds m m' := by
  obtain ⟨m', l, prev, hcall, hl, hlinked, hprev, hbefore, hr⟩ :=
    soqinsque_relinked h hs hsnone hp hpnone hne w
  refine ⟨m', hcall, ?_, hr.kinds⟩
  have hsout : ∀ a v, so ∉ q a v := fun a v hmem => h.ne_head hmem hs hsnone rfl
  have hsprev : so ≠ prev := by
    rintro rfl
    rcases hprev with heq | hmem
    · exact hne heq.symm
    · exact hsout _ _ hmem
  have hmem : ∀ a v b, b ∈ setq q head w (q head w ++ [so]) a v ↔ b ∈ q a v ∨ b = so ∧ a = head ∧ v = w := by
    intro a v b
    by_cases hav : a = head ∧ v = w
    · obtain ⟨rfl, rfl⟩ := hav
      simp
    · rw [setq_of_ne hav]
      simp [hav]
  refine ⟨?_, ?_, ?_, ?_⟩
  · intro a p' ha hnone v
    obtain ⟨x, hx, hhead, hsoq, -⟩ := hr.back ha
    have haso : a ≠ so := by
      rintro rfl
      rw [if_pos rfl, hnone] at hhead
      cases hhead
    have hxnone : x.soHead = none := by rwa [if_neg haso, hnone, eq_comm] at hhead
    by_cases hav : a = head ∧ v = w
    · obtain ⟨rfl, rfl⟩ := hav
      rw [setq_self]
      have hnew : Linked (m'.next v) (some a) (l ++ [prev] ++ [so]) none := by
        have hend : m.next v prev = none := (linked_concat.mp hlinked).2
        have hprevm : ∃ y, m prev = some y := by
          rcases hprev with rfl | hmem
          · exact ⟨p, hp⟩
          · obtain ⟨-, y, hy, -⟩ := h.listed a v prev hmem
            exact ⟨y, hy⟩
        obtain ⟨y, hy⟩ := hprevm
        have hold : Linked (m.next v) (some a) (l ++ [prev] ++ []) none := by rwa [List.append_nil]
        refine hold.insert ?_ ?_ ?_
        · rw [hr.next hy, if_pos ⟨rfl, rfl⟩]
        · rw [hr.next hs, if_neg fun hc => hsprev hc.2, if_pos ⟨rfl, rfl⟩, hend]
        · intro c hc
          rw [List.append_nil] at hc
          obtain ⟨hcprev, hcmem⟩ := hbefore c hc
          have hcm : ∃ y, m c = some y ∧ c ≠ so := by
            rcases hcmem with rfl | hmem
            · exact ⟨p, hp, hne⟩
            · obtain ⟨-, y, hy, -⟩ := h.listed a v c hmem
              exact ⟨y, hy, fun heq => hsout _ _ (heq ▸ hmem)⟩
          obtain ⟨y, hy, hcso⟩ := hcm
          rw [hr.next hy, if_neg fun hc' => hcprev hc'.2, if_neg fun hc' => hcso hc'.2]
      rw [← hl] at hnew
      have hnext : m'.next v a = p'.soq v := by rw [Sockets.next, ha]; rfl
      rw [← hnext]
      exact hnew.2
    · rw [setq_of_ne hav]
      have hsoq' : p'.soq v = x.soq v := by
        rw [hsoq, if_neg, if_neg fun hc => haso hc.2]
        rintro ⟨rfl, rfl⟩
        rcases hprev with heq | hmem'
        · exact hav ⟨heq, rfl⟩
        · exact h.ne_head hmem' hx hxnone rfl
      rw [hsoq']
      refine h.other_queue w prev hr ?_ hprev hp hpnone (hsout a v) hav hx hxnone
      intro c v' y hy
      by_contra hc
      apply hy
      rw [if_neg fun hc' => hc (Or.inl hc'), if_neg fun hc' => hc (Or.inr hc'.2)]
  · intro a p' ha v
    obtain ⟨x, hx, -, -, hlen, -⟩ := hr.back ha
    rw [hlen, h.len a x hx v]
    by_cases hav : a = head ∧ v = w
    · obtain ⟨rfl, rfl⟩ := hav
      rw [if_pos ⟨rfl, rfl⟩, setq_self, List.length_append]
      rfl
    · rw [if_neg hav, setq_of_ne hav, Int.add_zero]
  · intro b p' hd hb hhead
    obtain ⟨x, hx, hhead', -⟩ := hr.back hb
    by_cases hbso : b = so
    · subst hbso
      rw [if_pos rfl, hhead] at hhead'
      obtain rfl := Option.some.inj hhead'
      refine ⟨w, (hmem _ _ _).mpr (Or.inr ⟨rfl, rfl, rfl⟩), fun v hv => ?_⟩
      rcases (hmem _ _ _).mp hv with hv | ⟨-, -, hv⟩
      · exact absurd hv (hsout _ _)
      · exact hv
    · rw [if_neg hbso, hhead] at hhead'
      obtain ⟨v, hv, huniq⟩ := h.pending b x hd hx hhead'.symm
      refine ⟨v, (hmem _ _ _).mpr (Or.inl hv), fun v' hv' => huniq v' ?_⟩
      exact ((hmem _ _ _).mp hv').resolve_right fun hc => hbso hc.1
  · intro a v b hb
    rcases (hmem a v b).mp hb with hb | ⟨rfl, rfl, rfl⟩
    · obtain ⟨⟨x, hx, hxnone⟩, y, hy, hyhead⟩ := h.listed a v b hb
      obtain ⟨x', hx', hxhead, -⟩ := hr.used a x hx
      obtain ⟨y', hy', hyhead', -⟩ := hr.used b y hy
      have haso : a ≠ so := fun heq => List.ne_nil_of_mem hb (heq ▸ hsnil v)
      have hbso : b ≠ so := fun heq => hsout _ _ (heq ▸ hb)
      rw [if_neg haso] at hxhead
      rw [if_neg hbso] at hyhead'
      exact ⟨⟨x', hx', hxhead.trans hxnone⟩, y', hy', hyhead'.trans hyhead⟩
    · obtain ⟨x', hx', hxhead, -⟩ := hr.used a p hp
      obtain ⟨y', hy', hyhead', -⟩ := hr.used b s hs
      rw [if_neg hne] at hxhead
      rw [if_pos rfl] at hyhead'
      exact ⟨⟨x', hx', hxhead.trans hpnone⟩, y', hy', hyhead'⟩

end Insque

end NetBSD.Uipc
