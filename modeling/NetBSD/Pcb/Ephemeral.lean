import NetBSD.Pcb.Demux

/-!
# The search for a port

`in_pcbbind` without a port goes round the ports from `IPPORT_RESERVED` to `IPPORT_USERRESERVED` until the look-up
finds nothing.
-/

namespace NetBSD.Pcb

open NetBSD.Lib

variable {head head' : Head} {pcbs : List Inpcb} {inp inp' : Inpcb} {laddr : Word32} {wild : Bool} {last p : Word16}
  {nam : Option Nam} {sin : Nam} {env : Env} {fuel k n : Nat}

def IsEphemeral (p : Word16) : Prop := ipportReserved ≤ p ∧ p ≤ ipportUserreserved

def InUse (pcbs : List Inpcb) (laddr : Word32) (wild : Bool) (p : Word16) : Prop :=
  inPcblookup pcbs inaddrAny 0 laddr p wild ≠ none

def Settles (pcbs : List Inpcb) (laddr : Word32) (wild : Bool) (last : Word16) : Prop :=
  ∃ fuel, (∃ p, portLoop pcbs laddr wild fuel last = .ok p ∧ IsEphemeral p ∧ ¬InUse pcbs laddr wild p) ∨
    ((∃ e, portLoop pcbs laddr wild fuel last = .error (.errno e)) ∧ ∀ p, IsEphemeral p → InUse pcbs laddr wild p)

def Left (last : Word16) : Prop := ∃ head, Runs Head.Fresh Head.step (fun _ _ => True) head ∧ head.inpLport = last

theorem isEphemeral_iff : IsEphemeral p ↔ 1024 ≤ p.toNat ∧ p.toNat ≤ 5000 := Iff.rfl

theorem nextPort_toNat (h : last = 0 ∨ IsEphemeral last) :
    (nextPort last).toNat = if last = 0 ∨ last = 5000 then 1024 else last.toNat + 1 := by
  unfold nextPort ipportReserved ipportUserreserved
  obtain rfl | hlast := h
  · rfl
  · obtain ⟨hlo, hhi⟩ := isEphemeral_iff.1 hlast
    by_cases hend : last = 5000
    · rw [hend]
      rfl
    · have hne : last.toNat ≠ 5000 := fun heq => hend (BitVec.eq_of_toNat_eq heq)
      rw [if_neg (by bv_omega), if_neg (by bv_omega)]
      bv_omega

theorem nextPort_ephemeral (h : last = 0 ∨ IsEphemeral last) : IsEphemeral (nextPort last) := by
  rw [isEphemeral_iff, nextPort_toNat h]
  obtain rfl | hlast := h
  · rw [if_pos (.inl rfl)]
    omega
  · obtain ⟨hlo, hhi⟩ := isEphemeral_iff.1 hlast
    split
    · omega
    · rename_i hne
      have hne' : last.toNat ≠ 5000 := fun heq => hne (.inr (BitVec.eq_of_toNat_eq heq))
      omega

theorem iterate_ephemeral (h : last = 0 ∨ IsEphemeral last) (k : Nat) : IsEphemeral (nextPort^[k + 1] last) := by
  induction k generalizing last with
  | zero => exact nextPort_ephemeral h
  | succ k ih => exact ih (.inr (nextPort_ephemeral h))

theorem iterate_up (h : IsEphemeral last) (hle : last.toNat + n ≤ 5000) : (nextPort^[n] last).toNat = last.toNat + n := by
  induction n generalizing last with
  | zero => rfl
  | succ n ih =>
    have hne : ¬(last = 0 ∨ last = 5000) := by
      obtain ⟨hlo, -⟩ := isEphemeral_iff.1 h
      rintro (rfl | rfl)
      · exact absurd hlo (by decide)
      · exact absurd (show 5000 + (n + 1) ≤ 5000 from hle) (by omega)
    have hnext := nextPort_toNat (.inr h)
    rw [if_neg hne] at hnext
    rw [Function.iterate_succ_apply, ih (nextPort_ephemeral (.inr h)) (by omega), hnext]
    omega

theorem iterate_first (h : last = 0 ∨ IsEphemeral last) : ∃ k, nextPort^[k + 1] last = ipportReserved := by
  obtain rfl | hlast := h
  · exact ⟨0, rfl⟩
  · refine ⟨5000 - last.toNat, BitVec.eq_of_toNat_eq ?_⟩
    have hhi := (isEphemeral_iff.1 hlast).2
    have hup : nextPort^[5000 - last.toNat] last = 5000 :=
      BitVec.eq_of_toNat_eq ((iterate_up hlast (by omega)).trans (show last.toNat + (5000 - last.toNat) = 5000 by omega))
    rw [Function.iterate_succ_apply', hup]
    rfl

theorem iterate_reaches (h : last = 0 ∨ IsEphemeral last) (hp : IsEphemeral p) : ∃ k, nextPort^[k + 1] last = p := by
  obtain ⟨k, hk⟩ := iterate_first h
  obtain ⟨hlo, hhi⟩ := isEphemeral_iff.1 hp
  have hfirst : IsEphemeral ipportReserved := isEphemeral_iff.2 (by decide)
  have hup := iterate_up (n := p.toNat - 1024) hfirst (show 1024 + (p.toNat - 1024) ≤ 5000 by omega)
  refine ⟨p.toNat - 1024 + k, BitVec.eq_of_toNat_eq ?_⟩
  rw [Nat.add_assoc, Function.iterate_add_apply, hk, hup]
  exact Nat.add_sub_cancel' hlo

theorem portLoop_ok (h : inPcblookup pcbs inaddrAny 0 laddr (nextPort^[k + 1] last) wild = none) :
    ∃ p, portLoop pcbs laddr wild (k + 1) last = .ok p := by
  induction k generalizing last with
  | zero =>
    refine ⟨nextPort last, ?_⟩
    rw [portLoop, show inPcblookup pcbs inaddrAny 0 laddr (nextPort last) wild = none from h]
  | succ k ih =>
    rw [portLoop]
    cases hnext : inPcblookup pcbs inaddrAny 0 laddr (nextPort last) wild with
    | none => exact ⟨_, rfl⟩
    | some t => exact ih h

theorem portLoop_endless (hlast : last = 0 ∨ IsEphemeral last) (h : ∀ p, IsEphemeral p → InUse pcbs laddr wild p) :
    portLoop pcbs laddr wild fuel last = .error .endless := by
  induction fuel generalizing last with
  | zero => rfl
  | succ fuel ih =>
    have hnext := nextPort_ephemeral hlast
    obtain ⟨t, ht⟩ := Option.ne_none_iff_exists'.1 (h _ hnext)
    rw [portLoop, ht]
    exact ih (.inr hnext)

theorem Settles.free (hlast : last = 0 ∨ IsEphemeral last) (h : Settles pcbs laddr wild last) :
    ∃ p, IsEphemeral p ∧ ¬InUse pcbs laddr wild p := by
  obtain ⟨fuel, ⟨p, -, hp⟩ | ⟨⟨e, he⟩, hall⟩⟩ := h
  · exact ⟨p, hp⟩
  · cases he.symm.trans (portLoop_endless hlast hall)

theorem Settles.of_free (hlast : last = 0 ∨ IsEphemeral last) (hp : IsEphemeral p) (hfree : ¬InUse pcbs laddr wild p) :
    Settles pcbs laddr wild last := by
  obtain ⟨k, rfl⟩ := iterate_reaches hlast hp
  obtain ⟨q, hq⟩ := portLoop_ok (not_not.1 hfree)
  obtain ⟨j, rfl, hnone, -⟩ := picks_of_portLoop hq
  exact ⟨k + 1, .inl ⟨_, hq, iterate_ephemeral hlast j, not_not.2 hnone⟩⟩

theorem inPcbbind_lport (h : inPcbbind head inp nam env = .ok (inp', last)) :
    last = head.inpLport ∨ ∃ k, last = nextPort^[k + 1] head.inpLport := by
  unfold inPcbbind at h
  split at h
  · cases h
  split at h
  · cases h
  split at h
  · cases h
  dsimp only at h
  split at h
  · cases hloop : portLoop head.pcbs (nam.elim inp.inpLaddr Nam.sinAddr) (head.wild inp.inpSocket) (2 ^ 16) head.inpLport with
    | error e =>
      rw [hloop] at h
      cases h
    | ok lport =>
      rw [hloop] at h
      obtain ⟨-, rfl⟩ := Prod.mk.inj (Except.ok.inj h)
      obtain ⟨k, hk, -⟩ := picks_of_portLoop hloop
      exact .inr ⟨k, hk⟩
  · exact .inl (Prod.mk.inj (Except.ok.inj h)).2.symm

theorem inPcbconnect_lport (h : inPcbconnect head inp sin env = .ok (inp', last)) :
    last = head.inpLport ∨ ∃ k, last = nextPort^[k + 1] head.inpLport := by
  unfold inPcbconnect at h
  dsimp only at h
  repeat' split at h
  all_goals first
    | exact .inl (Prod.mk.inj (Except.ok.inj h)).2.symm
    | cases h
  rename_i hbind
  exact inPcbbind_lport hbind

theorem Left.ephemeral (h : Left last) : last = 0 ∨ IsEphemeral last := by
  obtain ⟨head, hruns, rfl⟩ := h
  have hgoes {head : Head} {lport : Word16} (hhead : head.inpLport = 0 ∨ IsEphemeral head.inpLport)
      (h : lport = head.inpLport ∨ ∃ k, lport = nextPort^[k + 1] head.inpLport) : lport = 0 ∨ IsEphemeral lport := by
    obtain rfl | ⟨k, rfl⟩ := h
    · exact hhead
    · exact .inr (iterate_ephemeral hhead k)
  have hfinish {head head' : Head} {r : Except Exit (Inpcb × Word16)}
      (hhead : head.inpLport = 0 ∨ IsEphemeral head.inpLport) (h : head.finish r = some head')
      (hr : ∀ inp lport, r = .ok (inp, lport) → lport = head.inpLport ∨ ∃ k, lport = nextPort^[k + 1] head.inpLport) :
      head'.inpLport = 0 ∨ IsEphemeral head'.inpLport := by
    cases r with
    | ok r =>
      obtain rfl := Option.some.inj h
      exact hgoes hhead (hr r.1 r.2 rfl)
    | error e =>
      cases e with
      | errno e =>
        obtain rfl := Option.some.inj h
        exact hhead
      | endless => cases h
  refine hruns.invariant (I := fun s => s.inpLport = 0 ∨ IsEphemeral s.inpLport) (fun s hs => .inl hs.2)
    fun s call s' hs _ hstep => ?_
  cases call with
  | alloc n so =>
    rw [Head.step] at hstep
    split at hstep
    · cases hstep
    · obtain rfl := Option.some.inj hstep
      exact hs
  | bind n nam env =>
    obtain ⟨inp, -, hrest⟩ := Option.bind_eq_some_iff.mp hstep
    exact hfinish hs hrest fun _ _ => inPcbbind_lport
  | connect n nam env =>
    obtain ⟨inp, -, hrest⟩ := Option.bind_eq_some_iff.mp hstep
    exact hfinish hs hrest fun _ _ => inPcbconnect_lport
  | disconnect n =>
    obtain ⟨inp, -, hrest⟩ := Option.bind_eq_some_iff.mp hstep
    split at hrest <;> obtain rfl := Option.some.inj hrest <;> exact hs
  | detach n =>
    obtain ⟨inp, -, hrest⟩ := Option.bind_eq_some_iff.mp hstep
    obtain rfl := Option.some.inj hrest
    exact hs
  | setsockopt n so =>
    obtain ⟨inp, -, hrest⟩ := Option.bind_eq_some_iff.mp hstep
    obtain rfl := Option.some.inj hrest
    exact hs

/-- **The search ends** exactly when a port of the range is not in use for the address. -/
theorem settles_iff (pcbs : List Inpcb) (laddr : Word32) (wild : Bool) (last : Word16) (hlast : Left last) :
    Settles pcbs laddr wild last ↔ ∃ p, IsEphemeral p ∧ ¬InUse pcbs laddr wild p :=
  ⟨fun h => h.free hlast.ephemeral, fun ⟨_, hp, hfree⟩ => .of_free hlast.ephemeral hp hfree⟩

theorem left_zero : Left 0 := ⟨{ pcbs := [], inpLport := 0, prConnrequired := false }, .start ⟨rfl, rfl⟩, rfl⟩

theorem settles_iff_empty : Settles [] 0x0a000001 true 0 ↔ ∃ p, IsEphemeral p ∧ ¬InUse [] 0x0a000001 true p :=
  settles_iff [] 0x0a000001 true 0 left_zero

def allPorts : List Inpcb := (List.range 3977).map fun i => { addr := i, inpLport := BitVec.ofNat 16 (1024 + i) }

theorem allPorts_not_settled : Left 0 ∧ ¬Settles allPorts 0x0a000001 true 0 := by
  refine ⟨left_zero, fun h => ?_⟩
  obtain ⟨p, hp, hfree⟩ := h.free left_zero.ephemeral
  obtain ⟨hlo, hhi⟩ := isEphemeral_iff.1 hp
  have hmem : { addr := p.toNat - 1024, inpLport := p } ∈ allPorts := by
    refine List.mem_map.2 ⟨p.toNat - 1024, List.mem_range.2 (by omega), ?_⟩
    rw [Nat.add_sub_cancel' hlo, BitVec.ofNat_toNat, BitVec.setWidth_eq]
  have hwild : ({ addr := p.toNat - 1024, inpLport := p } : Inpcb).wildcard inaddrAny 0 0x0a000001 p = some 1 := by
    rw [Inpcb.wildcard, if_neg (not_not.2 rfl)]
    rfl
  exact absurd (inPcblookup_eq_none (not_not.1 hfree) _ hmem 1 hwild).2 (by decide)

end NetBSD.Pcb
