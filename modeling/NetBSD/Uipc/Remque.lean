import NetBSD.Uipc.Insque

/-!
# Taking a socket off a queue
-/

namespace NetBSD.Uipc

open Lib (Linked linked_append linked_concat)

variable {m m' : Sockets} {q : Nat → Which → List Nat} {a b so head prev : Nat} {s p : Socket} {w v : Which}
  {l t : List Nat} {next : Nat → Option Nat}

theorem findPrev_none {fuel : Nat} (h : Linked next (some prev) (prev :: l) none) (hso : so ∉ l)
    (hfuel : l.length < fuel) : findPrev next so fuel prev = some none := by
  induction l generalizing prev fuel with
  | nil =>
    obtain ⟨fuel, rfl⟩ := Nat.exists_eq_succ_of_ne_zero (Nat.ne_of_gt (Nat.zero_lt_of_lt hfuel))
    rw [findPrev, show next prev = none from h.2]
  | cons c l ih =>
    obtain ⟨fuel, rfl⟩ := Nat.exists_eq_succ_of_ne_zero (Nat.ne_of_gt (Nat.zero_lt_of_lt hfuel))
    have hnext : next prev = some c := h.2.1
    have hc : c ≠ so := fun heq => hso (heq ▸ List.mem_cons_self)
    rw [findPrev, hnext]
    dsimp only
    rw [if_neg hc]
    apply ih
    · exact ⟨rfl, h.2.2⟩
    · exact fun hmem => hso (List.mem_cons_of_mem c hmem)
    · exact Nat.lt_of_succ_lt_succ hfuel

theorem findPrev_some {fuel first : Nat} {l' : List Nat} (h : Linked next (some first) (first :: l ++ so :: t) none)
    (hso : so ∉ l) (hl : first :: l = l' ++ [prev]) (hfuel : l.length < fuel) :
    findPrev next so fuel first = some (some prev) := by
  induction l generalizing first fuel l' with
  | nil =>
    obtain ⟨fuel, rfl⟩ := Nat.exists_eq_succ_of_ne_zero (Nat.ne_of_gt (Nat.zero_lt_of_lt hfuel))
    have hnext : next first = some so := h.2.1
    have hprev : first = prev := by
      have := congrArg List.getLast? hl
      rw [List.getLast?_concat] at this
      simpa using this
    rw [findPrev, hnext]
    dsimp only
    rw [if_pos rfl, hprev]
  | cons c l ih =>
    obtain ⟨fuel, rfl⟩ := Nat.exists_eq_succ_of_ne_zero (Nat.ne_of_gt (Nat.zero_lt_of_lt hfuel))
    have hnext : next first = some c := h.2.1
    have hc : c ≠ so := fun heq => hso (heq ▸ List.mem_cons_self)
    rw [findPrev, hnext]
    dsimp only
    rw [if_neg hc]
    cases l' with
    | nil => simp at hl
    | cons d l' =>
      have hl' : c :: l = l' ++ [prev] := (List.cons.inj hl).2
      refine ih ⟨rfl, h.2.2⟩ ?_ hl' (Nat.lt_of_succ_lt_succ hfuel)
      exact fun hmem => hso (List.mem_cons_of_mem c hmem)

theorem Consistent.head_alloc (h : Consistent m q) (hs : m so = some s) (hhead : s.soHead = some head) :
    ∃ p, m head = some p ∧ p.soHead = none := by
  obtain ⟨w, hw, -⟩ := h.pending so s head hs hhead
  exact (h.listed head w so hw).1

theorem soqremque_not (h : Consistent m q) (hs : m so = some s) (hhead : s.soHead = some head)
    (hso : so ∉ q head w) : soqremque m so w = some (false, m) := by
  obtain ⟨p, hp, hpnone⟩ := h.head_alloc hs hhead
  have hlen := h.len head p hp w
  unfold soqremque
  rw [hs, Option.bind_some, hhead]
  dsimp only
  rw [hp]
  dsimp only
  rw [findPrev_none (h.withHead hp hpnone w) hso (by omega)]

section Remque

variable (h : Consistent m q) (hs : m so = some s) (hhead : s.soHead = some head)

include h hs hhead in
theorem soqremque_relinked (hq : q head w = l ++ so :: t) : ∃ m' l' prev, soqremque m so w = some (true, m') ∧
    head :: l = l' ++ [prev] ∧ Linked (m.next w) (some head) (l' ++ [prev] ++ so :: t) none ∧
    (prev = head ∨ prev ∈ q head w) ∧ prev ≠ so ∧ (∀ c ∈ l', c ≠ prev ∧ (c = head ∨ c ∈ q head w)) ∧
    (∀ c ∈ t, c ≠ prev) ∧
    Relinked m m' (fun a x => if a = so then none else x)
      (fun a v x => if a = so then none else if v = w ∧ a = prev then m.next w so else x)
      (fun a v => if a = head ∧ v = w then -1 else 0) := by
  obtain ⟨p, hp, hpnone⟩ := h.head_alloc hs hhead
  obtain ⟨l', prev, hl, hlinked, hprev, hbefore, hbehind⟩ := h.split_last hp hpnone hq
  have hprevso : prev ≠ so := fun heq => hbehind so List.mem_cons_self heq.symm
  have hneso : head ≠ so := by
    rintro rfl
    rw [hs] at hp
    rw [← Option.some.inj hp, hhead] at hpnone
    cases hpnone
  have hlen := h.len head p hp w
  have hsol : so ∉ l := by
    have hnodup := (h.linked head p hp hpnone w).nodup
    rw [hq, List.nodup_append] at hnodup
    exact fun hmem => hnodup.2.2 so hmem so List.mem_cons_self rfl
  have hfind : findPrev (m.next w) so ((p.soqlen w).toNat + 1) head = some (some prev) := by
    have hlinked' := hlinked
    rw [← hl] at hlinked'
    apply findPrev_some hlinked' hsol hl
    rw [hq, List.length_append, List.length_cons] at hlen
    omega
  refine ⟨((m.modify prev fun s => s.setLink w (m.next w so)).modify head fun s => s.addLen w (-1)).modify so fun s =>
      { s with soq := fun _ => none, soHead := none },
    l', prev, ?_, hl, hlinked, hprev, hprevso, hbefore, fun c hc => hbehind c (List.mem_cons_of_mem so hc), ?_, ?_⟩
  · unfold soqremque
    rw [hs, Option.bind_some, hhead]
    dsimp only
    rw [hp]
    dsimp only
    rw [hfind]
  · intro a ha
    by_cases haso : a = so
    · rw [haso, hs] at ha
      cases ha
    · rw [modify_of_ne haso]
      by_cases hah : a = head
      · rw [hah, hp] at ha
        cases ha
      · rw [modify_of_ne hah]
        by_cases hap : a = prev
        · rw [← hap, modify_self, ha]
          rfl
        · rw [modify_of_ne hap, ha]
  · intro a x ha
    -- First the link of the element in front of it, then the length of the queue.
    obtain ⟨y, hy, hyhead, hysoq, hylen, hykind⟩ : ∃ y,
        (m.modify prev fun s => s.setLink w (m.next w so)) a = some y ∧ y.soHead = x.soHead ∧
        (∀ v, y.soq v = if v = w ∧ a = prev then m.next w so else x.soq v) ∧ y.soqlen = x.soqlen ∧
        y.kind = x.kind := by
      by_cases hap : a = prev
      · refine ⟨x.setLink w (m.next w so), ?_, rfl, fun v => ?_, rfl, rfl⟩
        · rw [hap, modify_self, ← hap, ha]
          rfl
        · by_cases hv : v = w
          · rw [if_pos ⟨hv, hap⟩, hv]
            exact Function.update_self ..
          · rw [if_neg fun hc => hv hc.1]
            exact Function.update_of_ne hv ..
      · refine ⟨x, ?_, rfl, fun v => ?_, rfl, rfl⟩
        · rw [modify_of_ne hap, ha]
        · rw [if_neg fun hc => hap hc.2]
    obtain ⟨z, hz, hzhead, hzsoq, hzlen, hzkind⟩ : ∃ z,
        ((m.modify prev fun s => s.setLink w (m.next w so)).modify head fun s => s.addLen w (-1)) a = some z ∧
        z.soHead = y.soHead ∧ z.soq = y.soq ∧
        (∀ v, z.soqlen v = y.soqlen v + if a = head ∧ v = w then -1 else 0) ∧ z.kind = y.kind := by
      by_cases hah : a = head
      · refine ⟨y.addLen w (-1), ?_, rfl, rfl, fun v => ?_, rfl⟩
        · rw [hah, modify_self, ← hah, hy]
          rfl
        · by_cases hv : v = w
          · rw [hv, if_pos ⟨hah, rfl⟩]
            exact Function.update_self ..
          · rw [if_neg fun hc => hv hc.2, Int.add_zero]
            exact Function.update_of_ne hv ..
      · refine ⟨y, ?_, rfl, rfl, fun v => ?_, rfl⟩
        · rw [modify_of_ne hah, hy]
        · rw [if_neg fun hc => hah hc.1, Int.add_zero]
    have hlenz : ∀ v, z.soqlen v = x.soqlen v + if a = head ∧ v = w then -1 else 0 := by
      intro v
      rw [hzlen, hylen]
    by_cases haso : a = so
    · refine ⟨{ z with soq := fun _ => none, soHead := none }, ?_, ?_, fun v => ?_, hlenz, ?_⟩
      · subst haso
        rw [modify_self, hz]
        rfl
      · rw [if_pos haso]
      · rw [if_pos haso]
      · exact hzkind.trans hykind
    · refine ⟨z, ?_, ?_, fun v => ?_, hlenz, hzkind.trans hykind⟩
      · rw [modify_of_ne haso, hz]
      · rw [if_neg haso, hzhead, hyhead]
      · rw [if_neg haso, hzsoq, hysoq]

include h hs hhead in
theorem soqremque_spec (hq : q head w = l ++ so :: t) : ∃ m', soqremque m so w = some (true, m') ∧
    Consistent m' (setq q head w (l ++ t)) ∧ Kinds m m' ∧
    ∃ s', m' so = some s' ∧ s'.soHead = none := by
  obtain ⟨m', l', prev, hcall, hl, hlinked, hprev, hprevso, hbefore, hbehind, hr⟩ :=
    soqremque_relinked h hs hhead hq
  obtain ⟨p, hp, hpnone⟩ := h.head_alloc hs hhead
  have hsoq : so ∈ q head w := by
    rw [hq]
    simp
  have hneso : head ≠ so := (h.ne_head hsoq hp hpnone).symm
  obtain ⟨s', hs', hshead, hslink, hslen, -⟩ := hr.used so s hs
  rw [if_pos rfl] at hshead
  refine ⟨m', hcall, ?_, hr.kinds, s', hs', hshead⟩
  have hnodup := (h.linked head p hp hpnone w).nodup
  have hmem : ∀ a v b, b ∈ setq q head w (l ++ t) a v ↔ b ∈ q a v ∧ b ≠ so := by
    intro a v b
    by_cases hav : a = head ∧ v = w
    · obtain ⟨rfl, rfl⟩ := hav
      rw [hq, List.nodup_append, List.nodup_cons] at hnodup
      obtain ⟨-, ⟨hsot, -⟩, hlt⟩ := hnodup
      rw [setq_self, hq]
      constructor
      · intro hb
        rcases List.mem_append.mp hb with hb | hb
        · exact ⟨List.mem_append_left _ hb, hlt b hb so List.mem_cons_self⟩
        · exact ⟨List.mem_append_right _ (List.mem_cons_of_mem so hb), fun heq => hsot (heq ▸ hb)⟩
      · rintro ⟨hb, hne⟩
        rcases List.mem_append.mp hb with hb | hb
        · exact List.mem_append_left _ hb
        · exact List.mem_append_right _ ((List.mem_cons.mp hb).resolve_left hne)
    · rw [setq_of_ne hav]
      refine ⟨fun hb => ⟨hb, ?_⟩, And.left⟩
      rintro rfl
      have hah := h.head_unique hb hsoq
      subst hah
      exact hav ⟨rfl, h.which_unique hb hsoq⟩
  refine ⟨?_, ?_, ?_, ?_⟩
  · intro a p' ha hnone v
    obtain ⟨x, hx, hxhead, hxlink, -⟩ := hr.back ha
    by_cases haso : a = so
    · subst haso
      have hnil : setq q head w (l ++ t) a v = [] := by
        rw [setq_of_ne fun hc => hneso hc.1.symm]
        exact h.pending_nil hs (by rw [hhead]; simp) v
      rw [hnil, hxlink, if_pos rfl]
      rfl
    have hxnone : x.soHead = none := by rwa [if_neg haso, hnone, eq_comm] at hxhead
    by_cases hav : a = head ∧ v = w
    · obtain ⟨rfl, rfl⟩ := hav
      have hnew : Linked (m'.next v) (some a) (l' ++ [prev] ++ t) none := by
        apply hlinked.remove
        · obtain ⟨y, hy⟩ : ∃ y, m prev = some y := by
            rcases hprev with rfl | hmem'
            · exact ⟨x, hx⟩
            · obtain ⟨-, y, hy, -⟩ := h.listed a v prev hmem'
              exact ⟨y, hy⟩
          rw [hr.next hy, if_neg hprevso, if_pos ⟨rfl, rfl⟩]
        · intro c hc
          have hcfacts : c ≠ prev ∧ c ≠ so ∧ ∃ y, m c = some y := by
            rcases List.mem_append.mp hc with hc | hc
            · obtain ⟨hcprev, hcmem⟩ := hbefore c hc
              rcases hcmem with rfl | hcmem
              · exact ⟨hcprev, haso, x, hx⟩
              · obtain ⟨-, y, hy, -⟩ := h.listed a v c hcmem
                refine ⟨hcprev, ?_, y, hy⟩
                rintro rfl
                have hnodup' := hlinked.nodup
                rw [List.nodup_append] at hnodup'
                exact hnodup'.2.2 c (List.mem_append_left _ hc) c List.mem_cons_self rfl
            · have hcq : c ∈ q a v := by
                rw [hq]
                exact List.mem_append_right _ (List.mem_cons_of_mem so hc)
              obtain ⟨-, y, hy, -⟩ := h.listed a v c hcq
              refine ⟨hbehind c hc, ?_, y, hy⟩
              rintro rfl
              rw [hq, List.nodup_append, List.nodup_cons] at hnodup
              exact hnodup.2.1.1 hc
          obtain ⟨hcprev, hcso, y, hy⟩ := hcfacts
          rw [hr.next hy, if_neg hcso, if_neg fun hc' => hcprev hc'.2]
      rw [← hl] at hnew
      have hnext : m'.next v a = p'.soq v := by rw [Sockets.next, ha]; rfl
      rw [setq_self, ← hnext]
      exact hnew.2
    · have hsout : so ∉ q a v := by
        intro hb
        have hah := h.head_unique hb hsoq
        subst hah
        exact hav ⟨rfl, h.which_unique hb hsoq⟩
      have hlink' : p'.soq v = x.soq v := by
        rw [hxlink, if_neg haso, if_neg]
        rintro ⟨rfl, rfl⟩
        rcases hprev with heq | hmem'
        · exact hav ⟨heq, rfl⟩
        · exact h.ne_head hmem' hx hxnone rfl
      rw [setq_of_ne hav, hlink']
      refine h.other_queue w prev hr ?_ hprev hp hpnone hsout hav hx hxnone
      intro c v' y hy
      by_contra hc
      apply hy
      rw [if_neg fun hc' => hc (Or.inr hc'), if_neg fun hc' => hc (Or.inl hc')]
  · intro a p' ha v
    obtain ⟨x, hx, -, -, hlen, -⟩ := hr.back ha
    rw [hlen, h.len a x hx v]
    by_cases hav : a = head ∧ v = w
    · obtain ⟨rfl, rfl⟩ := hav
      rw [if_pos ⟨rfl, rfl⟩, setq_self, hq, List.length_append, List.length_append, List.length_cons]
      omega
    · rw [if_neg hav, setq_of_ne hav, Int.add_zero]
  · intro b p' hd hb hhead'
    obtain ⟨x, hx, hxhead, -⟩ := hr.back hb
    have hbso : b ≠ so := by
      rintro rfl
      rw [if_pos rfl, hhead'] at hxhead
      cases hxhead
    rw [if_neg hbso, hhead'] at hxhead
    obtain ⟨v, hv, huniq⟩ := h.pending b x hd hx hxhead.symm
    exact ⟨v, (hmem _ _ _).mpr ⟨hv, hbso⟩, fun v' hv' => huniq v' ((hmem _ _ _).mp hv').1⟩
  · intro a v b hb
    obtain ⟨hb, hbso⟩ := (hmem a v b).mp hb
    obtain ⟨⟨x, hx, hxnone⟩, y, hy, hyhead⟩ := h.listed a v b hb
    obtain ⟨x', hx', hxhead, -⟩ := hr.used a x hx
    obtain ⟨y', hy', hyhead', -⟩ := hr.used b y hy
    rw [if_neg hbso] at hyhead'
    refine ⟨⟨x', hx', ?_⟩, y', hy', hyhead'.trans hyhead⟩
    rw [hxhead]
    split
    · rfl
    · exact hxnone

end Remque

end NetBSD.Uipc
