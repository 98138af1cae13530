import NetBSD.Lib.Runs
import NetBSD.Mbuf.Chain

/-!
# Multicast groups

`ip_setmoptions` and `ip_freemoptions` of `ip_output.c`, `in_addmulti`, `in_delmulti` and the end of `in_ifinit` of
`in.c`. A record, an interface and an address of an interface are named by numbers, and `none` stands for a null
pointer or for memory that is not allocated; as the result of a call it stands for one that follows such a pointer.
References are counted without a bound, as memory does not hold 2³² sockets. The addresses of the interfaces are there
from the start; what `rtalloc`, `malloc` and the driver answer is left open.
-/

namespace NetBSD.Ip

open Function (update update_self update_of_ne)
open Lib (Runs)

structure InMulti where
  inmAddr : Word32
  inmIfp : Nat
  inmIa : Nat
  inmRefcount : Nat
  deriving DecidableEq

structure Ifnet where
  multicast : Bool
  ifIoctl : Bool

/-- The list at `in_ifaddr`, as the interface of each address, `sin_addr` and `ia_multiaddrs` of each, and the records. -/
structure Multicast where
  inIfaddr : List Nat
  sinAddr : Nat → Word32
  ifnet : Nat → Ifnet
  multiaddrs : Nat → List Nat
  inMulti : Nat → Option InMulti

def Multicast.inaddrToIfp (s : Multicast) (addr : Word32) : Option Nat :=
  ((List.range s.inIfaddr.length).find? fun ia => s.sinAddr ia = addr).bind (s.inIfaddr[·]?)

def Multicast.ifpToIa (s : Multicast) (ifp : Nat) : Option Nat := s.inIfaddr.findIdx? (· = ifp)

def Multicast.lookup (s : Multicast) (addr : Word32) (ifp : Nat) : Option Nat :=
  (s.ifpToIa ifp).bind fun ia => (s.multiaddrs ia).find? fun inm => (s.inMulti inm).any (·.inmAddr = addr)

/-- What is answered: by `malloc` for `struct ip_moptions`, by `rtalloc` with an interface, by `malloc` for
`struct in_multi`, and by the driver. -/
structure Outcome where
  moptions : Bool := true
  route : Option Nat := none
  inm : Option Nat := none
  ioctl : Bool := true

def inAddmulti (ap : Word32) (ifp : Nat) (o : Outcome) (s : Multicast) : Option Nat × Multicast :=
  match s.lookup ap ifp with
  | some inm =>
    let m := (s.inMulti inm).map fun m => { m with inmRefcount := m.inmRefcount + 1 }
    (some inm, { s with inMulti := update s.inMulti inm m })
  | none =>
    match o.inm, s.ifpToIa ifp with
    | none, _ => (none, s)
    | some _, none => (none, s)
    | some inm, some ia =>
      if (s.ifnet ifp).ifIoctl && o.ioctl then
        (some inm, { s with
          inMulti := update s.inMulti inm (some ⟨ap, ifp, ia, 1⟩)
          multiaddrs := update s.multiaddrs ia (inm :: s.multiaddrs ia) })
      -- the record is taken off the list and freed
      else (none, s)

def inDelmulti (inm : Nat) (s : Multicast) : Option Multicast :=
  match s.inMulti inm with
  | none => none
  | some m =>
    if m.inmRefcount = 1 then
      if (s.multiaddrs m.inmIa).contains inm && (s.ifnet m.inmIfp).ifIoctl then
        some { s with
          inMulti := update s.inMulti inm none
          multiaddrs := update s.multiaddrs m.inmIa ((s.multiaddrs m.inmIa).erase inm) }
      else none
    else some { s with inMulti := update s.inMulti inm (some { m with inmRefcount := m.inmRefcount - 1 }) }

def ipMaxMemberships : Nat := 20

structure IpMoptions where
  multicastIfp : Option Nat := none
  multicastTtl : Byte := 1
  multicastLoop : Byte := 1
  numMemberships : Nat := 0
  membership : Nat → Option Nat := fun _ => none

def IpMoptions.isDefault (imo : IpMoptions) : Bool :=
  imo.multicastIfp = none && imo.multicastTtl = 1 && imo.multicastLoop = 1 && imo.numMemberships = 0

structure IpMreq where
  imrMultiaddr : Word32
  imrInterface : Word32

inductive Moption where
  | ipMulticastIf (addr : Option Word32)
  | ipMulticastTtl (ttl : Option Byte)
  | ipMulticastLoop (loop : Option Byte)
  | ipAddMembership (mreq : Option IpMreq)
  | ipDropMembership (mreq : Option IpMreq)
  | other

inductive MoptionError where
  | enobufs
  | einval
  | eaddrnotavail
  | eaddrinuse
  | etoomanyrefs
  | eopnotsupp
  deriving DecidableEq

def inClassd (addr : Word32) : Bool := addr &&& 0xf0000000 = 0xe0000000

def allhostsGroup : Word32 := 0xe0000001

def Multicast.at (s : Multicast) (imo : IpMoptions) (i : Nat) : Option InMulti := (imo.membership i).bind s.inMulti

def Multicast.findMembership (s : Multicast) (imo : IpMoptions) (group : Word32) (ifp : Option Nat) : Nat :=
  ((List.range imo.numMemberships).find? fun i =>
    (s.at imo i).any fun m => ifp.all (m.inmIfp = ·) && m.inmAddr = group).getD imo.numMemberships

def addMembership (mreq : IpMreq) (o : Outcome) (imo : IpMoptions) (s : Multicast) :
    Option MoptionError × IpMoptions × Multicast :=
  if !inClassd mreq.imrMultiaddr then (some .einval, imo, s)
  else
    match if mreq.imrInterface = 0 then o.route else s.inaddrToIfp mreq.imrInterface with
    | none => (some .eaddrnotavail, imo, s)
    | some ifp =>
      if !(s.ifnet ifp).multicast then (some .eaddrnotavail, imo, s)
      else
        let i := s.findMembership imo mreq.imrMultiaddr (some ifp)
        if i < imo.numMemberships then (some .eaddrinuse, imo, s)
        else if i = ipMaxMemberships then (some .etoomanyrefs, imo, s)
        else
          let (inm, s) := inAddmulti mreq.imrMultiaddr ifp o s
          let imo := { imo with membership := update imo.membership i inm }
          match inm with
          | none => (some .enobufs, imo, s)
          | some _ => (none, { imo with numMemberships := imo.numMemberships + 1 }, s)

def dropFound (group : Word32) (ifp : Option Nat) (imo : IpMoptions) (s : Multicast) :
    Option (Option MoptionError × IpMoptions × Multicast) :=
  let i := s.findMembership imo group ifp
  if i = imo.numMemberships then some (some .eaddrnotavail, imo, s)
  else
    ((imo.membership i).bind fun inm => inDelmulti inm s).map fun s =>
      (none, { imo with
        membership := fun j => if i ≤ j ∧ j + 1 < imo.numMemberships then imo.membership (j + 1) else imo.membership j
        numMemberships := imo.numMemberships - 1 }, s)

def dropMembership (mreq : IpMreq) (imo : IpMoptions) (s : Multicast) :
    Option (Option MoptionError × IpMoptions × Multicast) :=
  if !inClassd mreq.imrMultiaddr then some (some .einval, imo, s)
  else if mreq.imrInterface = 0 then dropFound mreq.imrMultiaddr none imo s
  else
    match s.inaddrToIfp mreq.imrInterface with
    | none => some (some .eaddrnotavail, imo, s)
    | some ifp => dropFound mreq.imrMultiaddr (some ifp) imo s

def setMoption (opt : Moption) (o : Outcome) (imo : IpMoptions) (s : Multicast) :
    Option (Option MoptionError × IpMoptions × Multicast) :=
  match opt with
  | .ipMulticastIf none | .ipMulticastTtl none | .ipMulticastLoop none | .ipAddMembership none
  | .ipDropMembership none => some (some .einval, imo, s)
  | .ipMulticastIf (some addr) =>
    if addr = 0 then some (none, { imo with multicastIfp := none }, s)
    else
      match s.inaddrToIfp addr with
      | none => some (some .eaddrnotavail, imo, s)
      | some ifp =>
        if (s.ifnet ifp).multicast then some (none, { imo with multicastIfp := some ifp }, s)
        else some (some .eaddrnotavail, imo, s)
  | .ipMulticastTtl (some ttl) => some (none, { imo with multicastTtl := ttl }, s)
  | .ipMulticastLoop (some loop) =>
    if loop.toNat > 1 then some (some .einval, imo, s) else some (none, { imo with multicastLoop := loop }, s)
  | .ipAddMembership (some mreq) => some (addMembership mreq o imo s)
  | .ipDropMembership (some mreq) => dropMembership mreq imo s
  | .other => some (some .eopnotsupp, imo, s)

def ipSetmoptions (opt : Moption) (o : Outcome) (imop : Option IpMoptions) (s : Multicast) :
    Option (Option MoptionError × Option IpMoptions × Multicast) :=
  match imop, o.moptions with
  | none, false => some (some .enobufs, none, s)
  | _, _ =>
    (setMoption opt o (imop.getD {}) s).map fun (error, imo, s) =>
      (error, if imo.isDefault then none else some imo, s)

def freeFrom (imo : IpMoptions) : Nat → Nat → Multicast → Option Multicast
  | 0, _, s => some s
  | left + 1, i, s => ((imo.membership i).bind fun inm => inDelmulti inm s).bind (freeFrom imo left (i + 1))

def ipFreemoptions (imop : Option IpMoptions) (s : Multicast) : Option Multicast :=
  match imop with
  | none => some s
  | some imo => freeFrom imo imo.numMemberships 0 s

/-- `inp_moptions` of each socket, and for each record that `in_addmulti` gave to `in_ifinit` its name. -/
structure Members extends Multicast where
  inpMoptions : List (Option IpMoptions)
  allhosts : List Nat

/-- A socket is made, its options are set, or it is closed; an interface is given an address, and joins all hosts when
`in_ifinit` comes to its end. -/
inductive McastCall where
  | socreate
  | setMoptions (so : Nat) (opt : Moption) (o : Outcome)
  | soclose (so : Nat)
  | inIfinit (ia : Nat) (addr : Word32) (ends : Bool) (o : Outcome)

def Members.step (s : Members) : McastCall → Option Members
  | .socreate => some { s with inpMoptions := s.inpMoptions ++ [none] }
  | .setMoptions so opt o =>
    match s.inpMoptions[so]? with
    | none => some s
    | some imop =>
      (ipSetmoptions opt o imop s.toMulticast).map fun r =>
        { s with toMulticast := r.2.2, inpMoptions := s.inpMoptions.set so r.2.1 }
  | .soclose so =>
    match s.inpMoptions[so]? with
    | none => some s
    | some imop =>
      (ipFreemoptions imop s.toMulticast).map fun t =>
        { s with toMulticast := t, inpMoptions := s.inpMoptions.eraseIdx so }
  | .inIfinit ia addr ends o =>
    let t : Multicast := { s.toMulticast with sinAddr := update s.sinAddr ia addr }
    match s.inIfaddr[ia]? with
    | none => some s
    | some ifp =>
      if ends && (s.ifnet ifp).multicast then
        let r := inAddmulti allhostsGroup ifp o t
        some { s with toMulticast := r.2, allhosts := r.1.toList ++ s.allhosts }
      else some { s with toMulticast := t }

def Multicast.memberOf (s : Multicast) (group : Word32) (ifp : Nat) (imop : Option IpMoptions) : Bool :=
  imop.any fun imo => (List.range imo.numMemberships).any fun i =>
    (s.at imo i).any fun m => m.inmAddr = group && m.inmIfp = ifp

/-- The sockets in the group on the interface, and the times that `in_ifinit` has joined it. -/
def Members.holders (s : Members) (group : Word32) (ifp : Nat) : Nat :=
  s.inpMoptions.countP (s.memberOf group ifp) +
    s.allhosts.countP fun inm => (s.inMulti inm).any fun m => m.inmAddr = group && m.inmIfp = ifp

def Members.Allowed (s : Members) : McastCall → Prop
  | .setMoptions _ _ o | .inIfinit _ _ _ o => ∀ inm, o.inm = some inm → s.inMulti inm = none
  | _ => True

structure Members.Initial (s : Members) : Prop where
  multiaddrs : s.multiaddrs = fun _ => []
  inMulti : s.inMulti = fun _ => none
  inpMoptions : s.inpMoptions = []
  allhosts : s.allhosts = []

def Members.Reached : Members → Prop := Runs Members.Initial Members.step Members.Allowed

variable {s s' t : Multicast} {refs l rest : List Nat} {inm ifp ia i : Nat} {m : InMulti} {ap group : Word32} {o : Outcome}
  {imo : IpMoptions}

/-- `refs` has a name for each reference to a record, and records are where `IN_LOOKUP_MULTI` looks for them. -/
structure Counted (s : Multicast) (refs : List Nat) : Prop where
  refcount : ∀ inm m, s.inMulti inm = some m → m.inmRefcount = refs.count inm ∧ inm ∈ refs
  linked : ∀ inm m, s.inMulti inm = some m → inm ∈ s.multiaddrs m.inmIa ∧ s.ifpToIa m.inmIfp = some m.inmIa ∧
    (s.ifnet m.inmIfp).ifIoctl = true
  listed : ∀ ia, ∀ inm ∈ s.multiaddrs ia, ∃ m, s.inMulti inm = some m ∧ m.inmIa = ia
  nodup : ∀ ia, (s.multiaddrs ia).Nodup
  held : ∀ inm ∈ refs, ∃ m, s.inMulti inm = some m
  unique : ∀ inm inm' m m', s.inMulti inm = some m → s.inMulti inm' = some m' → m.inmIfp = m'.inmIfp →
    m.inmAddr = m'.inmAddr → inm = inm'

theorem Counted.perm {refs' : List Nat} (h : Counted s refs) (hperm : refs.Perm refs') : Counted s refs' where
  refcount inm m hm := by
    rw [← hperm.count_eq, ← hperm.mem_iff]
    exact h.refcount inm m hm
  linked := h.linked
  listed := h.listed
  nodup := h.nodup
  held inm hinm := h.held inm (hperm.mem_iff.mpr hinm)
  unique := h.unique

theorem ifpToIa_inj {ifp' : Nat} (h : s.ifpToIa ifp = some ia) (h' : s.ifpToIa ifp' = some ia) : ifp = ifp' := by
  obtain ⟨hlt, heq, -⟩ := List.findIdx?_eq_some_iff_getElem.mp h
  obtain ⟨_, heq', -⟩ := List.findIdx?_eq_some_iff_getElem.mp h'
  exact (of_decide_eq_true heq).symm.trans (of_decide_eq_true heq')

theorem Counted.of_lookup (h : Counted s refs) (hlookup : s.lookup ap ifp = some inm) :
    ∃ m, s.inMulti inm = some m ∧ m.inmAddr = ap ∧ m.inmIfp = ifp := by
  obtain ⟨ia, hia, hfind⟩ := Option.bind_eq_some_iff.mp hlookup
  obtain ⟨m, hm, rfl⟩ := h.listed ia inm (List.mem_of_find?_eq_some hfind)
  have haddr := List.find?_some hfind
  rw [hm, Option.any_some, decide_eq_true_eq] at haddr
  exact ⟨m, hm, haddr, ifpToIa_inj (h.linked inm m hm).2.1 hia⟩

theorem Counted.lookup (h : Counted s refs) (hm : s.inMulti inm = some m) :
    s.lookup m.inmAddr m.inmIfp = some inm := by
  obtain ⟨hmem, hia, -⟩ := h.linked inm m hm
  cases hlookup : s.lookup m.inmAddr m.inmIfp with
  | none =>
    rw [Multicast.lookup, hia, Option.bind_some, List.find?_eq_none] at hlookup
    exact absurd (by simp [hm]) (hlookup inm hmem)
  | some inm' =>
    obtain ⟨m', hm', haddr, hifp⟩ := h.of_lookup hlookup
    rw [h.unique inm' inm m' m hm' hm hifp haddr]

inductive Added (s : Multicast) (refs : List Nat) (ap : Word32) (ifp : Nat) : Option Nat × Multicast → Prop where
  | fails : Added s refs ap ifp (none, s)
  | refers (inm : Nat) (m : InMulti) (s' : Multicast) : Counted s' (inm :: refs) → s'.inMulti inm = some m →
      m.inmAddr = ap → m.inmIfp = ifp → (∀ k m, s.inMulti k = some m → k = inm → m.inmAddr = ap ∧ m.inmIfp = ifp) →
      Added s refs ap ifp (some inm, s')

theorem Counted.recount (h : Counted s refs) (hm : s.inMulti inm = some m) {refs' : List Nat} (hmem : inm ∈ refs')
    (hcount : ∀ k, k ≠ inm → refs'.count k = refs.count k) :
    Counted { s with inMulti := update s.inMulti inm (some { m with inmRefcount := refs'.count inm }) } refs' := by
  have hsame : ∀ k mk, update s.inMulti inm (some { m with inmRefcount := refs'.count inm }) k = some mk →
      ∃ m', s.inMulti k = some m' ∧ mk.inmIfp = m'.inmIfp ∧ mk.inmAddr = m'.inmAddr ∧ mk.inmIa = m'.inmIa ∧
        mk.inmRefcount = refs'.count k ∧ k ∈ refs' := by
    intro k mk hk
    by_cases hkinm : k = inm
    · subst hkinm
      rw [update_self] at hk
      obtain rfl := Option.some.inj hk
      exact ⟨m, hm, rfl, rfl, rfl, rfl, hmem⟩
    · rw [update_of_ne hkinm] at hk
      obtain ⟨hrefs, hmk⟩ := h.refcount k mk hk
      refine ⟨mk, hk, rfl, rfl, rfl, hrefs.trans (hcount k hkinm).symm, ?_⟩
      rw [← List.count_pos_iff, hcount k hkinm]
      exact List.count_pos_iff.mpr hmk
  have hlive : ∀ k m', s.inMulti k = some m' →
      ∃ mk, update s.inMulti inm (some { m with inmRefcount := refs'.count inm }) k = some mk ∧
        mk.inmIa = m'.inmIa := by
    intro k m' hk
    by_cases hkinm : k = inm
    · subst hkinm
      obtain rfl := Option.some.inj (hk.symm.trans hm)
      exact ⟨_, update_self .., rfl⟩
    · exact ⟨m', (update_of_ne hkinm ..).trans hk, rfl⟩
  refine ⟨fun k mk hk => ?_, fun k mk hk => ?_, fun ia k hk => ?_, h.nodup, fun k hk => ?_, fun k k' mk mk' hk hk' => ?_⟩
  · obtain ⟨-, -, -, -, -, hrefs, hmk⟩ := hsame k mk hk
    exact ⟨hrefs, hmk⟩
  · obtain ⟨m', hm', hifp, -, hia, -⟩ := hsame k mk hk
    rw [hifp, hia]
    exact h.linked k m' hm'
  · obtain ⟨m', hm', rfl⟩ := h.listed ia k hk
    exact hlive k m' hm'
  · obtain ⟨m', hm'⟩ : ∃ m', s.inMulti k = some m' := by
      by_cases hkinm : k = inm
      · exact ⟨m, hkinm ▸ hm⟩
      · refine h.held k ?_
        rw [← List.count_pos_iff, ← hcount k hkinm]
        exact List.count_pos_iff.mpr hk
    obtain ⟨mk, hmk, -⟩ := hlive k m' hm'
    exact ⟨mk, hmk⟩
  · obtain ⟨m₁, hm₁, hifp₁, haddr₁, -⟩ := hsame k mk hk
    obtain ⟨m₂, hm₂, hifp₂, haddr₂, -⟩ := hsame k' mk' hk'
    intro hifp haddr
    exact h.unique k k' m₁ m₂ hm₁ hm₂ (by rw [← hifp₁, hifp, hifp₂]) (by rw [← haddr₁, haddr, haddr₂])

theorem Counted.link (h : Counted s refs) (hfree : s.inMulti inm = none) (hnone : s.lookup ap ifp = none)
    (hia : s.ifpToIa ifp = some ia) (hioctl : (s.ifnet ifp).ifIoctl = true) :
    Counted { s with
      inMulti := update s.inMulti inm (some ⟨ap, ifp, ia, 1⟩)
      multiaddrs := update s.multiaddrs ia (inm :: s.multiaddrs ia) } (inm :: refs) := by
  have hnew : inm ∉ refs := fun hmem => by
    obtain ⟨m, hm⟩ := h.held inm hmem
    rw [hfree] at hm
    cases hm
  have hrec : ∀ k mk, update s.inMulti inm (some ⟨ap, ifp, ia, 1⟩) k = some mk →
      k = inm ∧ mk = ⟨ap, ifp, ia, 1⟩ ∨ k ≠ inm ∧ s.inMulti k = some mk := by
    intro k mk hk
    by_cases hkinm : k = inm
    · subst hkinm
      rw [update_self] at hk
      exact .inl ⟨rfl, (Option.some.inj hk).symm⟩
    · rw [update_of_ne hkinm] at hk
      exact .inr ⟨hkinm, hk⟩
  have hnot : ∀ ia, inm ∉ s.multiaddrs ia := fun ia hmem => by
    obtain ⟨m, hm, -⟩ := h.listed ia inm hmem
    rw [hfree] at hm
    cases hm
  have hlookup : ∀ k mk, s.inMulti k = some mk → mk.inmIfp = ifp → mk.inmAddr ≠ ap := fun k mk hk hifp haddr => by
    subst hifp haddr
    rw [h.lookup hk] at hnone
    cases hnone
  refine ⟨fun k mk hk => ?_, fun k mk hk => ?_, fun j k hk => ?_, fun j => ?_, fun k hk => ?_,
    fun k k' mk mk' hk hk' hifp haddr => ?_⟩ <;> dsimp only at *
  · obtain ⟨rfl, rfl⟩ | ⟨hne, hk⟩ := hrec k mk hk
    · exact ⟨by simp [List.count_eq_zero_of_not_mem hnew], List.mem_cons_self⟩
    · obtain ⟨hrefs, hmk⟩ := h.refcount k mk hk
      exact ⟨by rw [List.count_cons_of_ne (Ne.symm hne), hrefs], List.mem_cons_of_mem _ hmk⟩
  · obtain ⟨rfl, rfl⟩ | ⟨-, hk⟩ := hrec k mk hk
    · exact ⟨by simp, hia, hioctl⟩
    · obtain ⟨hmem, hrest⟩ := h.linked k mk hk
      refine ⟨?_, hrest⟩
      by_cases hmia : mk.inmIa = ia
      · rw [hmia, update_self]
        exact List.mem_cons_of_mem _ (hmia ▸ hmem)
      · rwa [update_of_ne hmia]
  · have hold : k ∈ s.multiaddrs j → ∃ m, update s.inMulti inm (some ⟨ap, ifp, ia, 1⟩) k = some m ∧ m.inmIa = j := by
      intro hmem
      obtain ⟨m, hm, hmia⟩ := h.listed j k hmem
      exact ⟨m, (update_of_ne (fun hkinm : k = inm => hnot j (by rw [← hkinm]; exact hmem)) ..).trans hm, hmia⟩
    by_cases hj : j = ia
    · subst hj
      rw [update_self] at hk
      rcases List.mem_cons.mp hk with rfl | hk
      · exact ⟨_, update_self .., rfl⟩
      · exact hold hk
    · rw [update_of_ne hj] at hk
      exact hold hk
  · by_cases hj : j = ia
    · subst hj
      rw [update_self]
      exact List.nodup_cons.mpr ⟨hnot j, h.nodup j⟩
    · rw [update_of_ne hj]
      exact h.nodup j
  · rcases List.mem_cons.mp hk with rfl | hk
    · exact ⟨_, update_self ..⟩
    · obtain ⟨m, hm⟩ := h.held k hk
      exact ⟨m, (update_of_ne (fun hkinm : k = inm => hnew (by rw [← hkinm]; exact hk)) ..).trans hm⟩
  · obtain ⟨rfl, rfl⟩ | ⟨-, hold⟩ := hrec k mk hk
    · obtain ⟨rfl, -⟩ | ⟨-, hold'⟩ := hrec k' mk' hk'
      · rfl
      · exact absurd haddr.symm (hlookup k' mk' hold' hifp.symm)
    · obtain ⟨rfl, rfl⟩ | ⟨-, hold'⟩ := hrec k' mk' hk'
      · exact absurd haddr (hlookup k mk hold hifp)
      · exact h.unique k k' mk mk' hold hold' hifp haddr

theorem Counted.unlink (h : Counted s refs) (hm : s.inMulti inm = some m) (hlast : inm ∉ refs.erase inm) :
    Counted { s with
      inMulti := update s.inMulti inm none
      multiaddrs := update s.multiaddrs m.inmIa ((s.multiaddrs m.inmIa).erase inm) } (refs.erase inm) := by
  have hrec : ∀ k mk, update s.inMulti inm none k = some mk → k ≠ inm ∧ s.inMulti k = some mk := by
    intro k mk hk
    have hkinm : k ≠ inm := fun hkinm => by
      rw [hkinm, update_self] at hk
      cases hk
    rw [update_of_ne hkinm] at hk
    exact ⟨hkinm, hk⟩
  refine ⟨fun k mk hk => ?_, fun k mk hk => ?_, fun j k hk => ?_, fun j => ?_, fun k hk => ?_,
    fun k k' mk mk' hk hk' => h.unique k k' mk mk' (hrec k mk hk).2 (hrec k' mk' hk').2⟩ <;> dsimp only at *
  · obtain ⟨hne, hk⟩ := hrec k mk hk
    obtain ⟨hrefs, hmk⟩ := h.refcount k mk hk
    exact ⟨by rw [List.count_erase_of_ne hne, hrefs], (List.mem_erase_of_ne hne).mpr hmk⟩
  · obtain ⟨hne, hk⟩ := hrec k mk hk
    obtain ⟨hmem, hrest⟩ := h.linked k mk hk
    refine ⟨?_, hrest⟩
    by_cases hmia : mk.inmIa = m.inmIa
    · rw [hmia, update_self]
      exact (List.mem_erase_of_ne hne).mpr (hmia ▸ hmem)
    · rwa [update_of_ne hmia]
  · have hold : k ∈ s.multiaddrs j ∧ k ≠ inm := by
      by_cases hj : j = m.inmIa
      · subst hj
        rw [update_self] at hk
        obtain ⟨hne, hmem⟩ := (h.nodup _).mem_erase_iff.mp hk
        exact ⟨hmem, hne⟩
      · rw [update_of_ne hj] at hk
        refine ⟨hk, fun hkinm => hj ?_⟩
        obtain ⟨m', hm', hmia⟩ := h.listed j k hk
        rw [hkinm, hm] at hm'
        rw [← hmia, Option.some.inj hm']
    obtain ⟨m', hm', hmia⟩ := h.listed j k hold.1
    exact ⟨m', (update_of_ne hold.2 ..).trans hm', hmia⟩
  · by_cases hj : j = m.inmIa
    · subst hj
      rw [update_self]
      exact (h.nodup _).erase inm
    · rw [update_of_ne hj]
      exact h.nodup j
  · obtain ⟨m', hm'⟩ := h.held k (List.mem_of_mem_erase hk)
    exact ⟨m', (update_of_ne (fun hkinm : k = inm => hlast (hkinm.subst (motive := (· ∈ refs.erase inm)) hk)) ..).trans hm'⟩

theorem inAddmulti_spec (h : Counted s refs) (hfree : ∀ inm, o.inm = some inm → s.inMulti inm = none)
    (ap : Word32) (ifp : Nat) :
    Added s refs ap ifp (inAddmulti ap ifp o s) := by
  unfold inAddmulti
  cases hlookup : s.lookup ap ifp with
  | some inm =>
    obtain ⟨m, hm, haddr, hifp⟩ := h.of_lookup hlookup
    have hcount : m.inmRefcount + 1 = (inm :: refs).count inm := by simp [(h.refcount inm m hm).1]
    dsimp only
    rw [hm, Option.map_some, hcount]
    refine .refers inm { m with inmRefcount := (inm :: refs).count inm } _
      (h.recount hm List.mem_cons_self fun k hk => List.count_cons_of_ne (Ne.symm hk)) (update_self ..) haddr hifp ?_
    rintro k mk hk rfl
    obtain rfl := Option.some.inj (hk.symm.trans hm)
    exact ⟨haddr, hifp⟩
  | none =>
    cases hnew : o.inm with
    | none => exact .fails
    | some inm =>
      cases hia : s.ifpToIa ifp with
      | none => exact .fails
      | some ia =>
        dsimp only
        split_ifs with hgo
        · rw [Bool.and_eq_true] at hgo
          refine .refers inm ⟨ap, ifp, ia, 1⟩ _ (h.link (hfree inm hnew) hlookup hia hgo.1) (update_self ..) rfl rfl ?_
          rintro k mk hk rfl
          rw [hfree k hnew] at hk
          cases hk
        · exact .fails

theorem inDelmulti_spec (h : Counted s refs) (hinm : inm ∈ refs) :
    ∃ s', inDelmulti inm s = some s' ∧ Counted s' (refs.erase inm) := by
  obtain ⟨m, hm⟩ := h.held inm hinm
  have hrefs := (h.refcount inm m hm).1
  obtain ⟨hmem, -, hioctl⟩ := h.linked inm m hm
  have hless : (refs.erase inm).count inm = m.inmRefcount - 1 := by rw [List.count_erase_self, hrefs]
  unfold inDelmulti
  rw [hm]
  dsimp only
  by_cases hone : m.inmRefcount = 1
  · have hlast : inm ∉ refs.erase inm := by
      rw [← List.count_eq_zero, hless, hone]
    rw [if_pos hone, if_pos (by simp [hmem, hioctl])]
    exact ⟨_, rfl, h.unlink hm hlast⟩
  · have hpos := List.count_pos_iff.mpr hinm
    have hmore : inm ∈ refs.erase inm := by
      rw [← List.count_pos_iff, hless]
      omega
    rw [if_neg hone, ← hless]
    exact ⟨_, rfl, h.recount hm hmore fun k hk => List.count_erase_of_ne hk⟩

structure IpMoptions.Holds (imo : IpMoptions) (l : List Nat) : Prop where
  length : l.length = imo.numMemberships
  slot : ∀ i < imo.numMemberships, imo.membership i = l[i]?
  nodup : l.Nodup
  max : imo.numMemberships ≤ ipMaxMemberships

theorem findMembership_cases (s : Multicast) (imo : IpMoptions) (group : Word32) (ifp : Option Nat) :
    s.findMembership imo group ifp = imo.numMemberships ∧
        (∀ i < imo.numMemberships, ∀ m, s.at imo i = some m → ¬ (ifp.all (m.inmIfp = ·) = true ∧ m.inmAddr = group)) ∨
      s.findMembership imo group ifp < imo.numMemberships := by
  unfold Multicast.findMembership
  cases hfind : (List.range imo.numMemberships).find? fun i =>
    (s.at imo i).any fun m => ifp.all (m.inmIfp = ·) && m.inmAddr = group with
  | none =>
    refine .inl ⟨rfl, fun i hi m hm hmatch => ?_⟩
    have hnot := List.find?_eq_none.mp hfind i (List.mem_range.mpr hi)
    rw [hm] at hnot
    simp [hmatch] at hnot
  | some i => exact .inr (List.mem_range.mp (List.mem_of_find?_eq_some hfind))

def Counts (rest : List Nat) (r : Option MoptionError × IpMoptions × Multicast) : Prop :=
  ∃ l, r.2.1.Holds l ∧ Counted r.2.2 (l ++ rest)

theorem addMembership_spec (hholds : imo.Holds l) (h : Counted s (l ++ rest))
    (hfree : ∀ inm, o.inm = some inm → s.inMulti inm = none) (mreq : IpMreq) :
    Counts rest (addMembership mreq o imo s) := by
  have hkept : ∀ e, Counts rest (e, imo, s) := fun _ => ⟨l, hholds, h⟩
  unfold addMembership
  generalize (if mreq.imrInterface = 0 then o.route else s.inaddrToIfp mreq.imrInterface) = found
  by_cases hmulticast : (!inClassd mreq.imrMultiaddr) = true
  · rw [if_pos hmulticast]
    exact hkept _
  · rw [if_neg hmulticast]
    cases found with
    | none => exact hkept _
    | some ifp =>
      dsimp only
      by_cases hflag : (!(s.ifnet ifp).multicast) = true
      · rw [if_pos hflag]
        exact hkept _
      · rw [if_neg hflag]
        rcases findMembership_cases s imo mreq.imrMultiaddr (some ifp) with ⟨hend, hnone⟩ | hlt
        · rw [hend, if_neg (Nat.lt_irrefl _)]
          split_ifs with hfull
          · exact hkept _
          · have hadded := inAddmulti_spec h hfree mreq.imrMultiaddr ifp
            generalize inAddmulti mreq.imrMultiaddr ifp o s = r at hadded
            cases hadded with
            | fails =>
              refine ⟨l, ⟨hholds.length, fun i hi => ?_, hholds.nodup, hholds.max⟩, h⟩
              exact (update_of_ne (Nat.ne_of_lt hi) ..).trans (hholds.slot i hi)
            | refers inm m s' hcounted hm haddr hifp hbefore =>
              have hnew : inm ∉ l := fun hmem => by
                obtain ⟨i, hi, hget⟩ := List.getElem_of_mem hmem
                obtain ⟨m₀, hm₀⟩ := h.held inm (by simp [hmem])
                have hi' : i < imo.numMemberships := hholds.length ▸ hi
                have hat : s.at imo i = some m₀ := by
                  rw [Multicast.at, hholds.slot i hi', List.getElem?_eq_getElem hi, hget]
                  exact hm₀
                obtain ⟨haddr₀, hifp₀⟩ := hbefore inm m₀ hm₀ rfl
                exact hnone i hi' m₀ hat ⟨by simpa using hifp₀, haddr₀⟩
              refine ⟨l ++ [inm], ⟨?_, fun i hi => ?_, ?_, ?_⟩, hcounted.perm ?_⟩
              · simp [hholds.length]
              · have hi : i < imo.numMemberships + 1 := hi
                dsimp only
                by_cases hlast : i = imo.numMemberships
                · rw [hlast, update_self, ← hholds.length, List.getElem?_concat_length]
                · rw [update_of_ne hlast, hholds.slot i (by omega), List.getElem?_append_left (by
                    rw [hholds.length]; omega)]
              · exact List.nodup_append.mpr ⟨hholds.nodup, by simp, by
                  rintro a ha b hb rfl
                  obtain rfl := List.mem_singleton.mp hb
                  exact hnew ha⟩
              · have hmax := hholds.max
                exact Nat.lt_of_le_of_ne hmax hfull
              · rw [List.append_assoc]
                exact List.perm_middle.symm
        · rw [if_pos hlt]
          exact hkept _

theorem dropFound_spec (hholds : imo.Holds l) (h : Counted s (l ++ rest)) (group : Word32) (ifp : Option Nat) :
    ∃ r, dropFound group ifp imo s = some r ∧ Counts rest r := by
  unfold dropFound
  dsimp only
  rcases findMembership_cases s imo group ifp with ⟨hend, -⟩ | hlt
  · rw [if_pos hend]
    exact ⟨_, rfl, l, hholds, h⟩
  · rw [if_neg (Nat.ne_of_lt hlt)]
    generalize s.findMembership imo group ifp = i at hlt
    have hi : i < l.length := by rw [hholds.length]; exact hlt
    obtain ⟨s', hs', hcounted⟩ := inDelmulti_spec h (show l[i] ∈ l ++ rest by simp)
    rw [hholds.slot i hlt, List.getElem?_eq_getElem hi, Option.bind_some, hs']
    have herase : (l ++ rest).erase l[i] = l.eraseIdx i ++ rest := by
      rw [List.erase_append_left _ (List.getElem_mem hi), hholds.nodup.erase_getElem]
    refine ⟨_, rfl, l.eraseIdx i, ⟨?_, fun j hj => ?_, hholds.nodup.eraseIdx i, ?_⟩, herase ▸ hcounted⟩
    · rw [List.length_eraseIdx_of_lt hi, hholds.length]
    · have hj : j < imo.numMemberships - 1 := hj
      dsimp only
      rw [List.getElem?_eraseIdx]
      split_ifs with hmoved hbefore hbefore
      · omega
      · exact hholds.slot (j + 1) hmoved.2
      · exact hholds.slot j (by omega)
      · omega
    · exact Nat.le_trans (Nat.sub_le _ _) hholds.max

theorem setMoption_spec (hholds : imo.Holds l) (h : Counted s (l ++ rest))
    (hfree : ∀ inm, o.inm = some inm → s.inMulti inm = none) (opt : Moption) :
    ∃ r, setMoption opt o imo s = some r ∧ Counts rest r := by
  have hkept : ∀ e, ∃ r, some (e, imo, s) = some r ∧ Counts rest r := fun e => ⟨_, rfl, l, hholds, h⟩
  have hother : ∀ imo' : IpMoptions, imo'.numMemberships = imo.numMemberships → imo'.membership = imo.membership →
      ∃ r, some (none, imo', s) = some r ∧ Counts rest r := fun imo' hnum hslots =>
    ⟨_, rfl, l, ⟨hnum ▸ hholds.length, by rw [hnum, hslots]; exact hholds.slot, hholds.nodup, hnum ▸ hholds.max⟩, h⟩
  cases opt with
  | ipMulticastIf addr =>
    cases addr with
    | none => exact hkept _
    | some addr =>
      unfold setMoption
      dsimp only
      split_ifs
      · exact hother _ rfl rfl
      · split
        · exact hkept _
        · split_ifs
          · exact hother _ rfl rfl
          · exact hkept _
  | ipMulticastTtl ttl =>
    cases ttl with
    | none => exact hkept _
    | some ttl => exact hother _ rfl rfl
  | ipMulticastLoop loop =>
    cases loop with
    | none => exact hkept _
    | some loop =>
      unfold setMoption
      dsimp only
      split_ifs
      · exact hkept _
      · exact hother _ rfl rfl
  | ipAddMembership mreq =>
    cases mreq with
    | none => exact hkept _
    | some mreq => exact ⟨_, rfl, addMembership_spec hholds h hfree mreq⟩
  | ipDropMembership mreq =>
    cases mreq with
    | none => exact hkept _
    | some mreq =>
      unfold setMoption dropMembership
      dsimp only
      split_ifs
      · exact hkept _
      · exact dropFound_spec hholds h _ none
      · split
        · exact hkept _
        · exact dropFound_spec hholds h _ _
  | other => exact hkept _

theorem freeFrom_spec (hholds : imo.Holds l) {left : Nat} (hleft : i + left = imo.numMemberships)
    (h : Counted s (l.drop i ++ rest)) : ∃ s', freeFrom imo left i s = some s' ∧ Counted s' rest := by
  induction left generalizing i s with
  | zero =>
    rw [List.drop_of_length_le (by rw [hholds.length]; omega), List.nil_append] at h
    exact ⟨s, rfl, h⟩
  | succ left ih =>
    have hi : i < l.length := by rw [hholds.length]; omega
    rw [List.drop_eq_getElem_cons hi, List.cons_append] at h
    obtain ⟨s', hs', hcounted⟩ := inDelmulti_spec h List.mem_cons_self
    rw [List.erase_cons_head] at hcounted
    rw [freeFrom, hholds.slot i (by omega), List.getElem?_eq_getElem hi, Option.bind_some, hs', Option.bind_some]
    exact ih (by omega) hcounted

def SlotsOf (imop : Option IpMoptions) (l : List Nat) : Prop :=
  match imop with
  | none => l = []
  | some imo => imo.Holds l

/-- `ls` has the slots of each socket, and with the references of `in_ifinit` they are all that there are. -/
structure Kept (s : Members) (ls : List (List Nat)) : Prop where
  slots : List.Forall₂ SlotsOf s.inpMoptions ls
  counted : Counted s.toMulticast (ls.flatten ++ s.allhosts)

theorem forall₂_middle {α β : Type} {R : α → β → Prop} {p q : List α} {a : α} {ls : List β}
    (h : List.Forall₂ R (p ++ a :: q) ls) :
    ∃ lp l lq, ls = lp ++ l :: lq ∧ List.Forall₂ R p lp ∧ R a l ∧ List.Forall₂ R q lq := by
  induction p generalizing ls with
  | nil =>
    obtain ⟨l, lq, hl, hq, rfl⟩ := List.forall₂_cons_left_iff.mp h
    exact ⟨[], l, lq, rfl, .nil, hl, hq⟩
  | cons b p ih =>
    obtain ⟨k, ls, hk, hrest, rfl⟩ := List.forall₂_cons_left_iff.mp h
    obtain ⟨lp, l, lq, rfl, hp, hl, hq⟩ := ih hrest
    exact ⟨k :: lp, l, lq, rfl, .cons hk hp, hl, hq⟩

theorem forall₂_mem {α β : Type} {R : α → β → Prop} {l : List α} {a : α} {ls : List β} (h : List.Forall₂ R l ls)
    (ha : a ∈ l) : ∃ b ∈ ls, R a b := by
  obtain ⟨p, q, rfl⟩ := List.append_of_mem ha
  obtain ⟨lp, b, lq, rfl, -, hb, -⟩ := forall₂_middle h
  exact ⟨b, by simp, hb⟩

theorem ipSetmoptions_spec {imop : Option IpMoptions} (hslots : SlotsOf imop l) (h : Counted s (l ++ rest))
    (hfree : ∀ inm, o.inm = some inm → s.inMulti inm = none) (opt : Moption) :
    ∃ r, ipSetmoptions opt o imop s = some r ∧ ∃ l', SlotsOf r.2.1 l' ∧ Counted r.2.2 (l' ++ rest) := by
  have hholds : (imop.getD {}).Holds l := by
    cases imop with
    | none =>
      obtain rfl : l = [] := hslots
      exact ⟨rfl, fun i hi => absurd hi (Nat.not_lt_zero i), List.nodup_nil, Nat.zero_le _⟩
    | some imo => exact hslots
  have hset : ∃ r, ((setMoption opt o (imop.getD {}) s).map fun (error, imo, s) =>
      (error, if imo.isDefault then none else some imo, s)) = some r ∧
        ∃ l', SlotsOf r.2.1 l' ∧ Counted r.2.2 (l' ++ rest) := by
    obtain ⟨⟨error, imo, s'⟩, hr, l', hholds', hcounted⟩ := setMoption_spec hholds h hfree opt
    rw [hr, Option.map_some]
    refine ⟨_, rfl, l', ?_, hcounted⟩
    dsimp only
    split_ifs with hdefault
    · simp only [IpMoptions.isDefault, Bool.and_eq_true, decide_eq_true_eq] at hdefault
      exact List.eq_nil_of_length_eq_zero (hholds'.length.trans hdefault.2)
    · exact hholds'
  unfold ipSetmoptions
  split
  · exact ⟨_, rfl, l, hslots, h⟩
  · exact hset

theorem ipFreemoptions_spec {imop : Option IpMoptions} (hslots : SlotsOf imop l) (h : Counted s (l ++ rest)) :
    ∃ s', ipFreemoptions imop s = some s' ∧ Counted s' rest := by
  cases imop with
  | none =>
    obtain rfl : l = [] := hslots
    exact ⟨s, rfl, h⟩
  | some imo => exact freeFrom_spec hslots (Nat.zero_add _) (by simpa using h)

theorem split_at {α : Type} {l : List α} {a : α} {i : Nat} (h : l[i]? = some a) : ∃ p q, l = p ++ a :: q ∧ p.length = i := by
  obtain ⟨hi, rfl⟩ := List.getElem?_eq_some_iff.mp h
  refine ⟨l.take i, l.drop (i + 1), ?_, List.length_take_of_le (Nat.le_of_lt hi)⟩
  rw [← List.drop_eq_getElem_cons hi, List.take_append_drop]

theorem Kept.step {s : Members} {ls : List (List Nat)} (h : Kept s ls) {call : McastCall} (hok : s.Allowed call) :
    ∃ s', s.step call = some s' ∧ ∃ ls', Kept s' ls' := by
  cases call with
  | socreate => exact ⟨_, rfl, ls ++ [[]], List.rel_append h.slots (.cons rfl .nil), by simpa using h.counted⟩
  | setMoptions so opt o =>
    simp only [Members.step]
    cases hso : s.inpMoptions[so]? with
    | none => exact ⟨s, rfl, ls, h⟩
    | some imop =>
      obtain ⟨p, q, hsplit, rfl⟩ := split_at hso
      obtain ⟨lp, l, lq, rfl, hp, hl, hq⟩ := forall₂_middle (hsplit ▸ h.slots)
      have hcounted : Counted s.toMulticast (l ++ ((lp ++ lq).flatten ++ s.allhosts)) :=
        h.counted.perm (by simpa using (List.perm_append_comm_assoc _ _ _))
      obtain ⟨⟨e, imop', t⟩, hr, l', hl', ht⟩ := ipSetmoptions_spec hl hcounted hok opt
      dsimp only
      rw [hr]
      refine ⟨_, rfl, lp ++ l' :: lq, ?_, ?_⟩
      · dsimp only
        rw [hsplit, List.set_append_right _ _ (Nat.le_refl _), Nat.sub_self, List.set_cons_zero]
        exact List.rel_append hp (.cons hl' hq)
      · exact ht.perm (by simpa using (List.perm_append_comm_assoc _ _ _))
  | soclose so =>
    simp only [Members.step]
    cases hso : s.inpMoptions[so]? with
    | none => exact ⟨s, rfl, ls, h⟩
    | some imop =>
      obtain ⟨p, q, hsplit, rfl⟩ := split_at hso
      obtain ⟨lp, l, lq, rfl, hp, hl, hq⟩ := forall₂_middle (hsplit ▸ h.slots)
      have hcounted : Counted s.toMulticast (l ++ ((lp ++ lq).flatten ++ s.allhosts)) :=
        h.counted.perm (by simpa using (List.perm_append_comm_assoc _ _ _))
      obtain ⟨t, hr, ht⟩ := ipFreemoptions_spec hl hcounted
      dsimp only
      rw [hr]
      refine ⟨_, rfl, lp ++ lq, ?_, ht⟩
      dsimp only
      rw [hsplit, List.eraseIdx_append_of_length_le (Nat.le_refl _), Nat.sub_self, List.eraseIdx_cons_zero]
      exact List.rel_append hp hq
  | inIfinit ia addr ends o =>
    simp only [Members.step]
    cases hia : s.inIfaddr[ia]? with
    | none => exact ⟨s, rfl, ls, h⟩
    | some ifp =>
      have hcounted : Counted { s.toMulticast with sinAddr := update s.sinAddr ia addr } (ls.flatten ++ s.allhosts) :=
        ⟨h.counted.refcount, h.counted.linked, h.counted.listed, h.counted.nodup, h.counted.held, h.counted.unique⟩
      dsimp only
      split_ifs with hjoins
      · have hadded := inAddmulti_spec hcounted hok allhostsGroup ifp
        generalize inAddmulti allhostsGroup ifp o
          { s.toMulticast with sinAddr := update s.sinAddr ia addr } = r at hadded
        cases hadded with
        | fails => exact ⟨_, rfl, ls, h.slots, hcounted⟩
        | refers inm m s' hs' _ _ _ _ =>
          exact ⟨_, rfl, ls, h.slots, hs'.perm (List.perm_middle.symm)⟩
      · exact ⟨_, rfl, ls, h.slots, hcounted⟩

theorem Members.Reached.kept {s : Members} (hrun : s.Reached) : ∃ ls, Kept s ls :=
  Runs.invariant (I := fun s => ∃ ls, Kept s ls) hrun (fun s hs => ⟨[], by rw [hs.inpMoptions]; exact .nil, by
    refine ⟨fun inm m hm => ?_, fun inm m hm => ?_, fun ia inm hinm => ?_, fun ia => ?_, fun inm hinm => ?_,
      fun inm inm' m m' hm => ?_⟩
    · rw [hs.inMulti] at hm
      cases hm
    · rw [hs.inMulti] at hm
      cases hm
    · rw [hs.multiaddrs] at hinm
      cases hinm
    · rw [hs.multiaddrs]
      exact List.nodup_nil
    · rw [hs.allhosts] at hinm
      cases hinm
    · rw [hs.inMulti] at hm
      cases hm⟩)
  fun s call s' ⟨ls, hkept⟩ hok hstep => by
    obtain ⟨s₁, hs₁, hkept₁⟩ := hkept.step hok
    obtain rfl := Option.some.inj (hs₁.symm.trans hstep)
    exact hkept₁

theorem Counted.any_iff (h : Counted s refs) : ((s.inMulti inm).any fun m => m.inmAddr = group && m.inmIfp = ifp) = true ↔
    s.lookup group ifp = some inm := by
  constructor
  · intro hany
    cases hm : s.inMulti inm with
    | none =>
      rw [hm] at hany
      cases hany
    | some m =>
      rw [hm, Option.any_some, Bool.and_eq_true, decide_eq_true_eq, decide_eq_true_eq] at hany
      obtain ⟨rfl, rfl⟩ := hany
      exact h.lookup hm
  · intro hlookup
    obtain ⟨m, hm, haddr, hifp⟩ := h.of_lookup hlookup
    simp [hm, haddr, hifp]

theorem IpMoptions.Holds.at (hholds : imo.Holds l) (hi : i < imo.numMemberships) :
    ∃ inm ∈ l, imo.membership i = some inm ∧ l[i]? = some inm := by
  have hlt : i < l.length := by rw [hholds.length]; exact hi
  exact ⟨l[i], List.getElem_mem hlt, by rw [hholds.slot i hi, List.getElem?_eq_getElem hlt], List.getElem?_eq_getElem hlt⟩

theorem Counted.memberOf_iff (h : Counted s refs) {imop : Option IpMoptions} (hslots : SlotsOf imop l) :
    s.memberOf group ifp imop = true ↔ ∃ inm ∈ l, s.lookup group ifp = some inm := by
  cases imop with
  | none =>
    obtain rfl : l = [] := hslots
    simp [Multicast.memberOf]
  | some imo =>
    have hholds : imo.Holds l := hslots
    unfold Multicast.memberOf
    rw [Option.any_some, List.any_eq_true]
    constructor
    · rintro ⟨i, hi, hany⟩
      obtain ⟨inm, hmem, hslot, -⟩ := hholds.at (List.mem_range.mp hi)
      rw [Multicast.at, hslot, Option.bind_some, h.any_iff] at hany
      exact ⟨inm, hmem, hany⟩
    · rintro ⟨inm, hmem, hlookup⟩
      obtain ⟨i, hi, rfl⟩ := List.getElem_of_mem hmem
      have hi' : i < imo.numMemberships := hholds.length ▸ hi
      refine ⟨i, List.mem_range.mpr hi', ?_⟩
      rw [Multicast.at, hholds.slot i hi', List.getElem?_eq_getElem hi, Option.bind_some]
      exact h.any_iff.mpr hlookup

theorem Counted.countP_sockets (h : Counted s refs) (hlookup : s.lookup group ifp = some inm)
    {socks : List (Option IpMoptions)} {ls : List (List Nat)} (hslots : List.Forall₂ SlotsOf socks ls) :
    socks.countP (s.memberOf group ifp) = ls.flatten.count inm := by
  induction hslots with
  | nil => rfl
  | @cons imop l socks ls hl _ ih =>
    have hmember : s.memberOf group ifp imop = true ↔ inm ∈ l := by
      rw [h.memberOf_iff hl]
      constructor
      · rintro ⟨k, hk, hlookup'⟩
        exact Option.some.inj (hlookup'.symm.trans hlookup) ▸ hk
      · exact fun hmem => ⟨inm, hmem, hlookup⟩
    have hnodup : l.Nodup := by
      cases imop with
      | none =>
        obtain rfl : l = [] := hl
        exact List.nodup_nil
      | some imo => exact IpMoptions.Holds.nodup hl
    rw [List.flatten_cons, List.count_append, List.countP_cons, ih, hnodup.count]
    by_cases hmem : inm ∈ l
    · rw [if_pos hmem, if_pos (hmember.mpr hmem), Nat.add_comm]
    · rw [if_neg hmem, if_neg fun hc => hmem (hmember.mp hc), Nat.add_comm]

theorem Kept.holders {s : Members} {ls : List (List Nat)} (h : Kept s ls) (hlookup : s.lookup group ifp = some inm) :
    s.holders group ifp = (ls.flatten ++ s.allhosts).count inm := by
  rw [Members.holders, h.counted.countP_sockets hlookup h.slots, List.count_append, List.count_eq_countP (l := s.allhosts)]
  refine congrArg _ (List.countP_congr fun k _ => ?_)
  rw [h.counted.any_iff, hlookup]
  exact ⟨fun heq => beq_iff_eq.mpr (Option.some.inj heq).symm, fun heq => congrArg some (beq_iff_eq.mp heq).symm⟩

theorem Kept.holders_none {s : Members} {ls : List (List Nat)} (h : Kept s ls) (hlookup : s.lookup group ifp = none) :
    s.holders group ifp = 0 := by
  rw [Members.holders, Nat.add_eq_zero_iff, List.countP_eq_zero, List.countP_eq_zero]
  refine ⟨fun imop hmem hmember => ?_, fun inm _ hany => ?_⟩
  · obtain ⟨l, -, hl⟩ := forall₂_mem h.slots hmem
    obtain ⟨inm, -, hsome⟩ := (h.counted.memberOf_iff hl).mp hmember
    rw [hlookup] at hsome
    cases hsome
  · rw [h.counted.any_iff, hlookup] at hany
    cases hany

/-- **Memberships and references.** Whatever sockets join, leave and close, the slots of a socket are filled from the
front with records for different groups or interfaces, and the record for a group on an interface is there as long as
it has a holder, with the number of its holders as its reference count. -/
theorem memberships_counted {s : Members} (hrun : s.Reached) :
    (∀ call, s.Allowed call → ∃ s', s.step call = some s') ∧
      (∀ imo, some imo ∈ s.inpMoptions → imo.numMemberships ≤ ipMaxMemberships ∧
        (∀ i < imo.numMemberships, ∃ m, s.at imo i = some m) ∧
        ∀ i < imo.numMemberships, ∀ j < imo.numMemberships, ∀ m m', s.at imo i = some m → s.at imo j = some m' →
          m.inmAddr = m'.inmAddr → m.inmIfp = m'.inmIfp → i = j) ∧
      (∀ group ifp, (0 < s.holders group ifp ↔ ∃ inm, s.lookup group ifp = some inm) ∧
        ∀ inm, s.lookup group ifp = some inm → ∃ m, s.inMulti inm = some m ∧ m.inmAddr = group ∧ m.inmIfp = ifp ∧
          m.inmRefcount = s.holders group ifp) ∧
      ∀ inm m, s.inMulti inm = some m → s.lookup m.inmAddr m.inmIfp = some inm := by
  obtain ⟨ls, h⟩ := hrun.kept
  have hrecord : ∀ group ifp inm, s.lookup group ifp = some inm → ∃ m, s.inMulti inm = some m ∧ m.inmAddr = group ∧
      m.inmIfp = ifp ∧ m.inmRefcount = s.holders group ifp ∧ 0 < s.holders group ifp := by
    intro group ifp inm hlookup
    obtain ⟨m, hm, haddr, hifp⟩ := h.counted.of_lookup hlookup
    obtain ⟨hcount, hmem⟩ := h.counted.refcount inm m hm
    rw [h.holders hlookup]
    exact ⟨m, hm, haddr, hifp, hcount, List.count_pos_iff.mpr hmem⟩
  refine ⟨fun call hok => ?_, fun imo hmem => ?_, fun group ifp => ⟨⟨fun hpos => ?_, ?_⟩, fun inm hlookup => ?_⟩,
    fun inm m hm => h.counted.lookup hm⟩
  · obtain ⟨s', hs', -⟩ := h.step hok
    exact ⟨s', hs'⟩
  · obtain ⟨l, hl, hslots⟩ := forall₂_mem h.slots hmem
    have hholds : imo.Holds l := hslots
    refine ⟨hholds.max, fun i hi => ?_, fun i hi j hj m m' hm hm' haddr hifp => ?_⟩
    · obtain ⟨inm, hinm, hslot, -⟩ := hholds.at hi
      obtain ⟨m, hm⟩ := h.counted.held inm (List.mem_append_left _ (List.mem_flatten.mpr ⟨l, hl, hinm⟩))
      exact ⟨m, by rw [Multicast.at, hslot, Option.bind_some, hm]⟩
    · obtain ⟨inm, -, hslot, hget⟩ := hholds.at hi
      obtain ⟨inm', -, hslot', hget'⟩ := hholds.at hj
      rw [Multicast.at, hslot, Option.bind_some] at hm
      rw [Multicast.at, hslot', Option.bind_some] at hm'
      obtain rfl := h.counted.unique inm inm' m m' hm hm' hifp haddr
      exact (List.getElem?_inj (by rw [hholds.length]; exact hi) hholds.nodup).mp (hget.trans hget'.symm)
  · by_contra hnone
    rw [h.holders_none (Option.eq_none_iff_forall_ne_some.mpr fun inm hinm => hnone ⟨inm, hinm⟩)] at hpos
    exact Nat.lt_irrefl _ hpos
  · rintro ⟨inm, hlookup⟩
    obtain ⟨m, -, -, -, -, hpos⟩ := hrecord group ifp inm hlookup
    exact hpos
  · obtain ⟨m, hm, haddr, hifp, hcount, -⟩ := hrecord group ifp inm hlookup
    exact ⟨m, hm, haddr, hifp, hcount⟩

def oneAddress : Members where
  inIfaddr := [0]
  sinAddr _ := 0x0a000001
  ifnet _ := ⟨true, true⟩
  multiaddrs _ := []
  inMulti _ := none
  inpMoptions := []
  allhosts := []

def twoJoined : Members :=
  let joinByRoute := McastCall.setMoptions 0 (.ipAddMembership (some ⟨0xe0000005, 0⟩)) { route := some 0, inm := some 7 }
  let joinByAddress := McastCall.setMoptions 1 (.ipAddMembership (some ⟨0xe0000005, 0x0a000001⟩)) {}
  let s := { oneAddress with inpMoptions := [none, none] }
  let s := (s.step joinByRoute).getD s
  (s.step joinByAddress).getD s

theorem reached_twoJoined : twoJoined.Reached := by
  have hstart : oneAddress.Reached := .start ⟨rfl, rfl, rfl, rfl⟩
  have hsockets := (hstart.after McastCall.socreate trivial rfl).after McastCall.socreate trivial rfl
  have hfirst := hsockets.after
    (McastCall.setMoptions 0 (.ipAddMembership (some ⟨0xe0000005, 0⟩)) { route := some 0, inm := some 7 })
    (fun _ _ => rfl) rfl
  exact hfirst.after (McastCall.setMoptions 1 (.ipAddMembership (some ⟨0xe0000005, 0x0a000001⟩)) {})
    (fun _ h => by cases h) rfl

theorem memberships_counted_twoJoined : twoJoined.holders 0xe0000005 0 = 2 ∧
    ∃ m, twoJoined.inMulti 7 = some m ∧ m.inmRefcount = 2 := by
  obtain ⟨-, -, hrecords, -⟩ := memberships_counted reached_twoJoined
  obtain ⟨m, hm, -, -, hcount⟩ := (hrecords 0xe0000005 0).2 7 rfl
  exact ⟨rfl, m, hm, hcount⟩

end NetBSD.Ip
