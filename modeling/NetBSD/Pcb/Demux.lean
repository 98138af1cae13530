import NetBSD.Pcb.Inpcb

/-!
# Demultiplexing by connected blocks

No two connected blocks have the same addresses and ports. `in_pcbconnect` makes sure of this with a
look-up, but before it has picked a local port; then the look-up of `in_pcbbind` is all there is, and
without `INPLOOKUP_WILDCARD` that one passes over connected blocks.
-/

namespace NetBSD.Pcb

open NetBSD.Lib

variable {head head' : Head} {pcbs : List Inpcb} {inp inp' t : Inpcb} {faddr laddr : Word32}
  {fport lport p : Word16} {wild : Bool} {nam : Option Nam} {sin : Nam} {env : Env} {n : Nat}

def Taken (pcbs : List Inpcb) (inp : Inpcb) (faddr : Word32) (fport : Word16) (laddr : Word32)
    (lport : Word16) : Prop :=
  ∃ t ∈ pcbs, t.addr ≠ inp.addr ∧ t.inpFaddr = faddr ∧ t.inpFport = fport ∧ t.inpLaddr = laddr
    ∧ t.inpLport = lport

theorem wildcard_le {k : Nat} (h : t.wildcard faddr fport laddr lport = some k) : k ≤ 2 := by
  unfold Inpcb.wildcard at h
  repeat' split at h
  all_goals simp_all
  all_goals omega

theorem lookupLoop_eq_none {found : Option Inpcb} {k : Nat} (hk : 2 < k ∨ found.isSome)
    (h : lookupLoop faddr fport laddr lport wild found k pcbs = none) :
    found = none ∧ ∀ t ∈ pcbs, ∀ j, t.wildcard faddr fport laddr lport = some j → j ≠ 0 ∧ wild = false := by
  induction pcbs generalizing found k with
  | nil => exact ⟨h, by simp⟩
  | cons t rest ih =>
    rw [lookupLoop] at h
    cases hw : t.wildcard faddr fport laddr lport with
    | none =>
      rw [hw] at h
      obtain ⟨hnone, hrest⟩ := ih hk h
      refine ⟨hnone, List.forall_mem_cons.mpr ⟨fun j hj => ?_, hrest⟩⟩
      exact absurd (hw.symm.trans hj) (by simp)
    | some j =>
      rw [hw] at h
      dsimp only at h
      by_cases hskip : j ≠ 0 ∧ !wild
      · rw [if_pos hskip] at h
        obtain ⟨hnone, hrest⟩ := ih hk h
        refine ⟨hnone, List.forall_mem_cons.mpr ⟨fun i hi => ?_, hrest⟩⟩
        obtain rfl : j = i := Option.some.inj (hw.symm.trans hi)
        exact ⟨hskip.1, by simpa using hskip.2⟩
      · exfalso
        rw [if_neg hskip] at h
        by_cases hlt : j < k
        · rw [if_pos hlt] at h
          by_cases hzero : j = 0
          · rw [if_pos hzero] at h
            exact absurd h (by simp)
          · rw [if_neg hzero] at h
            exact absurd (ih (.inr rfl) h).1 (by simp)
        · rw [if_neg hlt] at h
          have hsome := hk.resolve_left (by have := wildcard_le hw; omega)
          rw [(ih (.inr hsome) h).1] at hsome
          exact absurd hsome (by simp)

theorem inPcblookup_eq_none (h : inPcblookup pcbs faddr fport laddr lport wild = none) :
    ∀ t ∈ pcbs, ∀ j, t.wildcard faddr fport laddr lport = some j → j ≠ 0 ∧ wild = false :=
  (lookupLoop_eq_none (.inl (by omega)) h).2

theorem wildcard_of_eq (hf : t.inpFaddr = faddr) (hfp : t.inpFport = fport) (hl : t.inpLaddr = laddr)
    (hlp : t.inpLport = lport) : t.wildcard faddr fport laddr lport = some 0 := by
  subst hf hfp hl hlp
  unfold Inpcb.wildcard
  by_cases hl : t.inpLaddr = inaddrAny <;> by_cases hf : t.inpFaddr = inaddrAny <;> simp [hl, hf]

theorem not_taken_of_lookup (h : inPcblookup pcbs faddr fport laddr lport false = none) :
    ¬ Taken pcbs inp faddr fport laddr lport := by
  rintro ⟨t, ht, -, hf, hfp, hl, hlp⟩
  exact (inPcblookup_eq_none h t ht 0 (wildcard_of_eq hf hfp hl hlp)).1 rfl

theorem not_taken_of_wild (h : inPcblookup pcbs inaddrAny 0 inaddrAny lport true = none) :
    ¬ Taken pcbs inp faddr fport laddr lport := by
  rintro ⟨t, ht, -, -, -, -, hlp⟩
  obtain ⟨j, hj⟩ : ∃ j, t.wildcard inaddrAny 0 inaddrAny lport = some j := by
    unfold Inpcb.wildcard
    by_cases hl : t.inpLaddr = inaddrAny <;> by_cases hf : t.inpFaddr = inaddrAny <;> simp [hl, hf, hlp]
  exact absurd (inPcblookup_eq_none h t ht j hj).2 (by simp)

/-- The port is the first after the last one picked for which the look-up of `in_pcbbind` finds nothing. -/
def Picks (pcbs : List Inpcb) (last : Word16) (laddr : Word32) (wild : Bool) (p : Word16) : Prop :=
  ∃ k, p = nextPort^[k + 1] last ∧ inPcblookup pcbs inaddrAny 0 laddr p wild = none
    ∧ ∀ j < k, inPcblookup pcbs inaddrAny 0 laddr (nextPort^[j + 1] last) wild ≠ none

theorem picks_of_portLoop {fuel : Nat} {last : Word16} (h : portLoop pcbs laddr wild fuel last = .ok p) :
    Picks pcbs last laddr wild p := by
  induction fuel generalizing last with
  | zero => simp [portLoop] at h
  | succ fuel ih =>
    rw [portLoop] at h
    cases hfound : inPcblookup pcbs inaddrAny 0 laddr (nextPort last) wild with
    | none =>
      rw [hfound] at h
      obtain rfl : nextPort last = p := Except.ok.inj h
      exact ⟨0, rfl, hfound, by simp⟩
    | some t =>
      rw [hfound] at h
      obtain ⟨k, hk, hnone, hbefore⟩ := ih h
      refine ⟨k + 1, hk, hnone, fun j hj => ?_⟩
      cases j with
      | zero =>
        show inPcblookup pcbs inaddrAny 0 laddr (nextPort last) wild ≠ none
        rw [hfound]
        simp
      | succ j => exact hbefore j (by omega)

def Gives (head : Head) (inp : Inpcb) (nam : Option Nam) (laddr : Word32) (lport : Word16) : Prop :=
  laddr = (nam.elim inp.inpLaddr Nam.sinAddr)
    ∧ if nam.elim 0 Nam.sinPort = 0 then
        Picks head.pcbs head.inpLport laddr (head.wild inp.inpSocket) lport
      else lport = nam.elim 0 Nam.sinPort

theorem inPcbbind_eq_ok {last : Word16} (h : inPcbbind head inp nam env = .ok (inp', last)) :
    inp.inpLport = 0 ∧ inp.inpLaddr = inaddrAny
      ∧ ∃ laddr lport, Gives head inp nam laddr lport
        ∧ inp' = { inp with inpLaddr := laddr, inpLport := lport } := by
  unfold inPcbbind at h
  split at h
  · exact absurd h (by simp)
  split at h
  · exact absurd h (by simp)
  next hunbound =>
    obtain ⟨hport, haddr⟩ := not_or.mp hunbound
    refine ⟨not_not.mp hport, not_not.mp haddr, nam.elim inp.inpLaddr Nam.sinAddr, ?_⟩
    split at h
    · exact absurd h (by simp)
    dsimp only at h
    by_cases hzero : nam.elim 0 Nam.sinPort = 0
    · rw [if_pos hzero] at h
      cases hloop : portLoop head.pcbs (nam.elim inp.inpLaddr Nam.sinAddr) (head.wild inp.inpSocket)
          (2 ^ 16) head.inpLport with
      | error e =>
        rw [hloop] at h
        exact absurd h (by simp [bind, Except.bind])
      | ok lport =>
        rw [hloop] at h
        obtain ⟨rfl, rfl⟩ := Prod.mk.inj (Except.ok.inj h)
        exact ⟨lport, ⟨rfl, by rw [if_pos hzero]; exact picks_of_portLoop hloop⟩, rfl⟩
    · rw [if_neg hzero] at h
      obtain ⟨rfl, rfl⟩ := Prod.mk.inj (Except.ok.inj h)
      exact ⟨nam.elim 0 Nam.sinPort, ⟨rfl, by rw [if_neg hzero]⟩, rfl⟩

theorem inPcbconnect_eq_ok {last : Word16} (h : inPcbconnect head inp sin env = .ok (inp', last)) :
    inp'.addr = inp.addr ∧ inp'.inpFaddr = destination env sin.sinAddr ∧ inp'.inpFport = sin.sinPort
      ∧ (inp.inpLaddr ≠ inaddrAny ∧ inp'.inpLaddr = inp.inpLaddr
        ∨ inp.inpLaddr = inaddrAny ∧ ∃ ia, sourceIfaddr env inp.inpSocket (destination env sin.sinAddr) = some ia
          ∧ inp'.inpLaddr = ia.iaAddr)
      ∧ inPcblookup head.pcbs inp'.inpFaddr inp'.inpFport inp'.inpLaddr inp.inpLport false = none
      ∧ (inp'.inpLport = inp.inpLport
        ∨ inp.inpLport = 0 ∧ inp.inpLaddr = inaddrAny
          ∧ Picks head.pcbs head.inpLport inaddrAny (head.wild inp.inpSocket) inp'.inpLport) := by
  unfold inPcbconnect at h
  split at h
  · exact absurd h (by simp)
  split at h
  · exact absurd h (by simp)
  split at h
  · exact absurd h (by simp)
  dsimp only at h
  by_cases haddr : inp.inpLaddr ≠ inaddrAny
  · rw [if_pos haddr] at h
    split at h
    · exact absurd h (by simp)
    next hlookup =>
      obtain ⟨rfl, rfl⟩ := Prod.mk.inj (Except.ok.inj h)
      exact ⟨rfl, rfl, rfl, .inl ⟨haddr, rfl⟩, by simpa using hlookup, .inl rfl⟩
  · rw [if_neg haddr] at h
    have hany := not_not.mp haddr
    split at h
    · exact absurd h (by simp)
    next ia hia =>
      split at h
      · exact absurd h (by simp)
      next hlookup =>
        have hnone := Option.not_isSome_iff_eq_none.mp hlookup
        split at h
        next hport =>
          split at h
          next inp₁ lport₁ hbind =>
            obtain ⟨rfl, rfl⟩ := Prod.mk.inj (Except.ok.inj h)
            obtain ⟨-, -, laddr, lport, ⟨rfl, hpicks⟩, rfl⟩ := inPcbbind_eq_ok hbind
            rw [if_pos (show none.elim 0 Nam.sinPort = (0 : Word16) from rfl)] at hpicks
            refine ⟨rfl, rfl, rfl, .inr ⟨hany, ia, hia, rfl⟩, hnone, .inr ⟨hport, hany, ?_⟩⟩
            exact hany ▸ hpicks
          · obtain ⟨rfl, rfl⟩ := Prod.mk.inj (Except.ok.inj h)
            exact ⟨rfl, rfl, rfl, .inr ⟨hany, ia, hia, rfl⟩, hnone, .inl rfl⟩
          · exact absurd h (by simp)
        · obtain ⟨rfl, rfl⟩ := Prod.mk.inj (Except.ok.inj h)
          exact ⟨rfl, rfl, rfl, .inr ⟨hany, ia, hia, rfl⟩, hnone, .inl rfl⟩

def Same (inp t : Inpcb) : Prop :=
  inp.inpFaddr ≠ inaddrAny ∧ t.inpFaddr = inp.inpFaddr ∧ t.inpFport = inp.inpFport
    ∧ t.inpLaddr = inp.inpLaddr ∧ t.inpLport = inp.inpLport

theorem Same.symm (h : Same inp t) : Same t inp :=
  ⟨h.2.1.symm ▸ h.1, h.2.1.symm, h.2.2.1.symm, h.2.2.2.1.symm, h.2.2.2.2.symm⟩

def Unambiguous (head : Head) : Prop :=
  ∀ inp ∈ head.pcbs, ∀ t ∈ head.pcbs, inp.addr ≠ t.addr → ¬ Same inp t

def Avoids (head : Head) : Call → Prop
  | .connect addr nam env => ∀ inp ia p, head.find addr = some inp → inp.inpLport = 0 →
      inp.inpLaddr = inaddrAny →
      sourceIfaddr env inp.inpSocket (destination env nam.sinAddr) = some ia →
      Picks head.pcbs head.inpLport inaddrAny (head.wild inp.inpSocket) p →
      ¬ Taken head.pcbs inp (destination env nam.sinAddr) nam.sinPort ia.iaAddr p
  | .bind addr nam _ => ∀ inp laddr lport, head.find addr = some inp → inp.inpLport = 0 →
      inp.inpLaddr = inaddrAny → inp.inpFaddr ≠ inaddrAny → Gives head inp nam laddr lport →
      ¬ Taken head.pcbs inp inp.inpFaddr inp.inpFport laddr lport
  | _ => True

theorem find_eq_some (h : head.find n = some inp) : inp ∈ head.pcbs ∧ inp.addr = n :=
  ⟨List.mem_of_find?_eq_some h, by simpa using List.find?_some h⟩

theorem Unambiguous.set (h : Unambiguous head)
    (hnew : ∀ t ∈ head.pcbs, t.addr ≠ inp.addr → ¬ Same inp t) : Unambiguous (head.set inp) := by
  have hmem : ∀ t ∈ (head.set inp).pcbs, t = inp ∨ t ∈ head.pcbs ∧ t.addr ≠ inp.addr := by
    intro t ht
    obtain ⟨s, hs, rfl⟩ := List.mem_map.mp ht
    by_cases heq : s.addr = inp.addr
    · exact .inl (if_pos heq)
    · rw [if_neg heq]
      exact .inr ⟨hs, heq⟩
  intro a ha b hb hne
  rcases hmem a ha with rfl | ⟨haold, hane⟩
  · rcases hmem b hb with rfl | ⟨hbold, hbne⟩
    · exact absurd rfl hne
    · exact hnew b hbold hbne
  · rcases hmem b hb with rfl | ⟨hbold, -⟩
    · exact fun hsame => hnew a haold hane hsame.symm
    · exact h a haold b hbold hne

theorem Unambiguous.set_of_not_taken (h : Unambiguous head) (haddr : inp'.addr = inp.addr)
    (hfree : inp'.inpFaddr ≠ inaddrAny →
      ¬ Taken head.pcbs inp inp'.inpFaddr inp'.inpFport inp'.inpLaddr inp'.inpLport) :
    Unambiguous (head.set inp') :=
  h.set fun t ht hne hsame =>
    hfree hsame.1 ⟨t, ht, haddr ▸ hne, hsame.2.1, hsame.2.2.1, hsame.2.2.2.1, hsame.2.2.2.2⟩

theorem Unambiguous.subset (h : Unambiguous head) (hsub : head'.pcbs ⊆ head.pcbs) : Unambiguous head' :=
  fun a ha b hb hne => h a (hsub ha) b (hsub hb) hne

theorem Unambiguous.remove (h : Unambiguous head) (n : Nat) : Unambiguous (head.remove n) :=
  h.subset (List.filter_subset_self _)

theorem Unambiguous.set_of_eq (h : Unambiguous head) (hinp : inp ∈ head.pcbs) (haddr : inp'.addr = inp.addr)
    (hsame : inp'.inpFaddr = inaddrAny ∨ inp'.inpFaddr = inp.inpFaddr ∧ inp'.inpFport = inp.inpFport
      ∧ inp'.inpLaddr = inp.inpLaddr ∧ inp'.inpLport = inp.inpLport) : Unambiguous (head.set inp') := by
  refine h.set_of_not_taken haddr fun hne => ?_
  obtain ⟨hf, hfp, hl, hlp⟩ := hsame.resolve_left hne
  rw [hf, hfp, hl, hlp]
  rintro ⟨t, ht, htne, htf, htfp, htl, htlp⟩
  exact h inp hinp t ht htne.symm ⟨hf ▸ hne, htf, htfp, htl, htlp⟩

theorem finish_eq_some {r : Except Exit (Inpcb × Word16)} (h : head.finish r = some head') :
    head' = head ∨ ∃ inp lport, r = .ok (inp, lport) ∧ head'.pcbs = (head.set inp).pcbs := by
  match r with
  | .ok (inp, lport) => exact .inr ⟨inp, lport, rfl, by rw [← Option.some.inj h]⟩
  | .error (.errno e) => exact .inl (Option.some.inj h).symm
  | .error .endless => exact absurd h (by simp [Head.finish])

theorem Unambiguous.step {call : Call} (h : Unambiguous head) (hok : Avoids head call)
    (hstep : head.step call = some head') : Unambiguous head' := by
  cases call with
  | alloc n so =>
    by_cases hused : (head.find n).isSome
    · rw [Head.step, if_pos hused] at hstep
      exact absurd hstep (by simp)
    · rw [Head.step, if_neg hused] at hstep
      obtain rfl := Option.some.inj hstep
      intro a ha b hb hne hsame
      rcases List.mem_cons.mp ha with rfl | ha
      · exact hsame.1 rfl
      · rcases List.mem_cons.mp hb with rfl | hb
        · exact hsame.symm.1 rfl
        · exact h a ha b hb hne hsame
  | bind n nam env =>
    obtain ⟨inp, hfind, hfinish⟩ := Option.bind_eq_some_iff.mp hstep
    rcases finish_eq_some hfinish with rfl | ⟨inp', last, hbind, hpcbs⟩
    · exact h
    · obtain ⟨hport, haddr, laddr, lport, hgives, rfl⟩ := inPcbbind_eq_ok hbind
      have hset := @Unambiguous.set_of_not_taken head inp
        { inp with inpLaddr := laddr, inpLport := lport } h rfl
        fun hne => hok inp laddr lport hfind hport haddr hne hgives
      exact hset.subset (hpcbs ▸ List.Subset.refl _)
  | connect n nam env =>
    obtain ⟨inp, hfind, hfinish⟩ := Option.bind_eq_some_iff.mp hstep
    rcases finish_eq_some hfinish with rfl | ⟨inp', last, hconnect, hpcbs⟩
    · exact h
    · obtain ⟨haddr, hf, hfp, hl, hlookup, hlp⟩ := inPcbconnect_eq_ok hconnect
      refine (h.set_of_not_taken haddr fun _ => ?_).subset (hpcbs ▸ List.Subset.refl _)
      rcases hlp with hlp | ⟨hport, hany, hpicks⟩
      · rw [hlp]
        exact not_taken_of_lookup hlookup
      · rcases hl with ⟨hne, -⟩ | ⟨-, ia, hia, hla⟩
        · exact absurd hany hne
        · rw [hf, hfp, hla]
          exact hok inp ia _ hfind hport hany hia hpicks
  | disconnect n =>
    obtain ⟨inp, hfind, hrest⟩ := Option.bind_eq_some_iff.mp hstep
    obtain ⟨hmem, -⟩ := find_eq_some hfind
    split at hrest
    · obtain rfl := Option.some.inj hrest
      exact h.remove n
    · obtain rfl := Option.some.inj hrest
      exact h.set_of_eq hmem rfl (.inl rfl)
  | detach n =>
    obtain ⟨inp, hfind, hrest⟩ := Option.bind_eq_some_iff.mp hstep
    obtain rfl := Option.some.inj hrest
    exact h.remove inp.addr
  | setsockopt n so =>
    obtain ⟨inp, hfind, hrest⟩ := Option.bind_eq_some_iff.mp hstep
    obtain ⟨hmem, -⟩ := find_eq_some hfind
    obtain rfl := Option.some.inj hrest
    exact h.set_of_eq hmem rfl (.inr ⟨rfl, rfl, rfl, rfl⟩)

/-- **Demultiplexing is unambiguous** as long as no call gives a block a local port with which it is
connected as another one already is. -/
theorem unambiguous_of_avoids (h : Runs Head.Fresh Head.step Avoids head) : Unambiguous head := by
  refine h.invariant (fun s hs => ?_) fun s call s' hs hok hstep => hs.step hok hstep
  intro inp hinp
  rw [hs.1] at hinp
  exact absurd hinp (by simp)

def LooksWild (head : Head) : Call → Prop
  | .connect addr _ _ => ∀ inp, head.find addr = some inp → head.wild inp.inpSocket = true
  | .bind addr _ _ => ∀ inp, head.find addr = some inp → inp.inpFaddr = inaddrAny
  | _ => True

theorem avoids_of_looksWild {call : Call} (h : LooksWild head call) : Avoids head call := by
  cases call with
  | connect n nam env =>
    rintro inp ia p hfind - - - ⟨k, -, hnone, -⟩
    rw [h inp hfind] at hnone
    exact not_taken_of_wild hnone
  | bind n nam env =>
    intro inp laddr lport hfind _ _ hne
    exact absurd (h inp hfind) hne
  | _ => trivial

def sampleEnv : Env where
  inIfaddr := [⟨0x0a000001, none, 0⟩]
  ifaIfwithaddr a := a = 0x0a000001
  ifaIfwithdstaddr _ := none
  ifaIfwithnet _ := none
  route _ := some ⟨0x0a000001, none, 0⟩
  imoMulticastIfp := none
  suser := none

def samplePeer : Nam := { sinPort := 53, sinAddr := 0x0a000002 }

def connectedFrom (n : Nat) (lport : Word16) (so : Socket) : Inpcb :=
  { addr := n, inpFaddr := 0x0a000002, inpFport := 53, inpLaddr := 0x0a000001, inpLport := lport,
    inpSocket := so }

/-- Both sockets are connected without being bound before. -/
theorem connected_unambiguous :
    Unambiguous ⟨[connectedFrom 2 1025 {}, connectedFrom 1 1024 {}], 1025, false⟩ := by
  have hstart : Runs Head.Fresh Head.step Avoids ⟨[], 0, false⟩ := .start ⟨rfl, rfl⟩
  have halloc₁ := Runs.call (Call.alloc 1 {}) hstart trivial
    (show _ = some ⟨[{ addr := 1 }], 0, false⟩ from rfl)
  have hconnect₁ := Runs.call (Call.connect 1 samplePeer sampleEnv) halloc₁
    (avoids_of_looksWild fun inp h => by rw [← Option.some.inj h]; rfl)
    (show _ = some ⟨[connectedFrom 1 1024 {}], 1024, false⟩ from rfl)
  have halloc₂ := Runs.call (Call.alloc 2 {}) hconnect₁ trivial
    (show _ = some ⟨[{ addr := 2 }, connectedFrom 1 1024 {}], 1024, false⟩ from rfl)
  have hconnect₂ := Runs.call (Call.connect 2 samplePeer sampleEnv) halloc₂
    (avoids_of_looksWild fun inp h => by rw [← Option.some.inj h]; rfl)
    (show _ = some ⟨[connectedFrom 2 1025 {}, connectedFrom 1 1024 {}], 1025, false⟩ from rfl)
  exact unambiguous_of_avoids hconnect₂

/-- The first socket is bound to the port that the second one, which may reuse addresses, picks. -/
theorem reused_ambiguous :
    ∃ head, Runs Head.Fresh Head.step (fun _ _ => True) head ∧ ¬ Unambiguous head := by
  have hstart : Runs Head.Fresh Head.step (fun _ _ => True) ⟨[], 0, false⟩ := .start ⟨rfl, rfl⟩
  have halloc₁ := Runs.call (Call.alloc 1 {}) hstart trivial
    (show _ = some ⟨[{ addr := 1 }], 0, false⟩ from rfl)
  have hbind := Runs.call (Call.bind 1 (some { sinPort := 1024, sinAddr := 0 }) sampleEnv) halloc₁ trivial
    (show _ = some ⟨[{ addr := 1, inpLport := 1024 }], 0, false⟩ from rfl)
  have hconnect₁ := Runs.call (Call.connect 1 samplePeer sampleEnv) hbind trivial
    (show _ = some ⟨[connectedFrom 1 1024 {}], 0, false⟩ from rfl)
  have halloc₂ := Runs.call (Call.alloc 2 { soReuseaddr := true }) hconnect₁ trivial
    (show _ = some ⟨[{ addr := 2, inpSocket := { soReuseaddr := true } }, connectedFrom 1 1024 {}], 0, false⟩
      from rfl)
  have hconnect₂ := Runs.call (Call.connect 2 samplePeer sampleEnv) halloc₂ trivial
    (show _ = some ⟨[connectedFrom 2 1024 { soReuseaddr := true }, connectedFrom 1 1024 {}], 1024, false⟩
      from rfl)
  refine ⟨_, hconnect₂, fun h => h _ List.mem_cons_self (connectedFrom 1 1024 {}) (by simp) (by decide) ?_⟩
  exact ⟨by decide, rfl, rfl, rfl, rfl⟩

end NetBSD.Pcb
