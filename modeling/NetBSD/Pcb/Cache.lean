import NetBSD.Pcb.Demux

/-!
# The block that was used last

`tcp_last_inpcb` and `udp_last_inpcb`: a segment or datagram with the addresses and ports of the block that was
found last is given to it without a look-up. A block that stands before it in the list may have the same ones;
the head of the list, which is there before any block has been found, has some too; and `in_pcbdisconnect` may
free the block and leave the pointer.
-/

namespace NetBSD.Pcb

open NetBSD.Lib

variable {head head' : Head} {pcbs s r : List Inpcb} {inp t : Inpcb} {ntohs : Word16 → Word16} {n : Nat}
  {c c' : Cached} {ti : Segment} {event : Event}

/-- `tcp_last_inpcb` or `udp_last_inpcb`: the head of the list, or the block at an address. -/
inductive Last where
  | head
  | block (addr : Nat)
  deriving DecidableEq

structure Segment where
  src : Word32
  sport : Word16
  dst : Word32
  dport : Word16
  deriving DecidableEq

structure Cached where
  head : Head
  last : Last
  deriving DecidableEq

def Inpcb.matches (inp : Inpcb) (ti : Segment) : Bool :=
  inp.inpLport = ti.dport ∧ inp.inpFport = ti.sport ∧ inp.inpFaddr = ti.src ∧ inp.inpLaddr = ti.dst

def Cached.inpcb (ntohs : Word16 → Word16) (c : Cached) : Option Inpcb :=
  match c.last with
  | .head => some { addr := 0, inpLport := ntohs c.head.inpLport }
  | .block addr => c.head.find addr

def Cached.lookup (c : Cached) (ti : Segment) : Option Last :=
  (inPcblookup c.head.pcbs ti.src ti.sport ti.dst ti.dport true).map fun inp => .block inp.addr

def Cached.select (ntohs : Word16 → Word16) (c : Cached) (ti : Segment) : Option (Option Last) :=
  (c.inpcb ntohs).map fun inp => if inp.matches ti then some c.last else c.lookup ti

/-- A call on the list, an assignment of `inp_laddr` and `inp_lport` as `tcp_input` makes it for a new
connection and `udp_usrreq` after a disconnect, or an arrival. -/
inductive Event where
  | call (call : Call)
  | assign (addr : Nat) (laddr : Word32) (lport : Word16)
  | input (ti : Segment)

def Cached.step (ntohs : Word16 → Word16) (c : Cached) : Event → Option Cached
  | .call call =>
    (c.head.step call).map fun head =>
      match call with
      -- `tcp_close` and `udp_detach` reset the pointer, `in_pcbdisconnect` does not.
      | .detach addr => { head, last := if c.last = .block addr then .head else c.last }
      | _ => { c with head }
  | .assign addr laddr lport =>
    (c.head.find addr).map fun inp =>
      { c with head := c.head.set { inp with inpLaddr := laddr, inpLport := lport } }
  | .input ti =>
    (c.select ntohs ti).map fun inp =>
      match inp with
      | none => c
      | some last => { c with last }

def Cached.Fresh (c : Cached) : Prop := c.head.Fresh ∧ c.last = .head

def Alike (t inp : Inpcb) : Prop :=
  t.inpLport = inp.inpLport ∧ t.inpLaddr = inp.inpLaddr ∧ t.inpFaddr = inp.inpFaddr ∧
    (inp.inpFaddr = inaddrAny ∨ t.inpFport = inp.inpFport)

instance : Decidable (Alike t inp) := by
  unfold Alike
  infer_instance

theorem wildcard_eq_zero {faddr laddr : Word32} {fport lport : Word16} :
    t.wildcard faddr fport laddr lport = some 0 ↔
      t.inpLport = lport ∧ t.inpLaddr = laddr ∧ t.inpFaddr = faddr ∧
        (faddr = inaddrAny ∨ t.inpFport = fport) := by
  unfold Inpcb.wildcard
  by_cases hport : t.inpLport = lport
  · by_cases hl : t.inpLaddr = inaddrAny <;> by_cases hl' : laddr = inaddrAny <;>
      by_cases hf : t.inpFaddr = inaddrAny <;> by_cases hf' : faddr = inaddrAny <;>
      by_cases hladdr : t.inpLaddr = laddr <;> by_cases hfaddr : t.inpFaddr = faddr <;>
      by_cases hfport : t.inpFport = fport <;>
      simp_all
  · simp [hport]

theorem wildcard_of_matches (h : inp.matches ti) :
    t.wildcard ti.src ti.sport ti.dst ti.dport = some 0 ↔ Alike t inp := by
  simp only [Inpcb.matches, decide_eq_true_eq] at h
  obtain ⟨hlport, hfport, hfaddr, hladdr⟩ := h
  rw [wildcard_eq_zero, Alike, hlport, hfport, hfaddr, hladdr]

theorem lookupLoop_exact {found : Option Inpcb} {k : Nat} (hk : 0 < k)
    (hs : ∀ d ∈ s, d.wildcard ti.src ti.sport ti.dst ti.dport ≠ some 0)
    (hinp : inp.wildcard ti.src ti.sport ti.dst ti.dport = some 0) :
    lookupLoop ti.src ti.sport ti.dst ti.dport true found k (s ++ inp :: r) = some inp := by
  induction s generalizing found k with
  | nil =>
    rw [List.nil_append, lookupLoop, hinp]
    simp [hk]
  | cons d s ih =>
    have hrest : ∀ (found : Option Inpcb) (k : Nat), 0 < k →
        lookupLoop ti.src ti.sport ti.dst ti.dport true found k (s ++ inp :: r) = some inp :=
      fun found k hk => ih hk fun e he => hs e (by simp [he])
    have hd := hs d (by simp)
    rw [List.cons_append, lookupLoop]
    cases hw : d.wildcard ti.src ti.sport ti.dst ti.dport with
    | none => exact hrest _ _ hk
    | some j =>
      have hj : j ≠ 0 := by
        rintro rfl
        exact hd hw
      simp only [Bool.not_true, Bool.false_eq_true, and_false, if_false, hj]
      split
      · exact hrest _ _ (Nat.pos_of_ne_zero hj)
      · exact hrest _ _ hk

def Cached.Sound (c : Cached) : Prop := ∀ n, c.last = .block n → n ∈ c.head.pcbs.map Inpcb.addr

theorem find_isSome : (head.find n).isSome ↔ n ∈ head.pcbs.map Inpcb.addr := by
  rw [Head.find, List.find?_isSome, List.mem_map]
  simp

theorem set_addrs (head : Head) (inp : Inpcb) :
    (head.set inp).pcbs.map Inpcb.addr = head.pcbs.map Inpcb.addr := by
  rw [Head.set, List.map_map]
  apply List.map_congr_left
  intro t _
  by_cases h : t.addr = inp.addr
  · simp [h]
  · simp [h]

theorem remove_addrs (head : Head) (n : Nat) :
    (head.remove n).pcbs.map Inpcb.addr = (head.pcbs.map Inpcb.addr).filter (· ≠ n) := by
  rw [Head.remove, List.filter_map]
  rfl

theorem step_addrs {call : Call} (h : head.step call = some head') :
    (∃ n so, call = .alloc n so ∧ n ∉ head.pcbs.map Inpcb.addr ∧
      head'.pcbs.map Inpcb.addr = n :: head.pcbs.map Inpcb.addr) ∨
    (∃ n, (call = .detach n ∨ call = .disconnect n ∧ ∃ inp, head.find n = some inp ∧ inp.inpSocket.ssNofdref) ∧
      head'.pcbs.map Inpcb.addr = (head.pcbs.map Inpcb.addr).filter (· ≠ n)) ∨
    (∀ n, call ≠ .detach n) ∧ head'.pcbs.map Inpcb.addr = head.pcbs.map Inpcb.addr := by
  have hfinish : ∀ r, head.finish r = some head' → head'.pcbs.map Inpcb.addr = head.pcbs.map Inpcb.addr := by
    intro r hr
    rcases finish_eq_some hr with rfl | ⟨inp, lport, -, hpcbs⟩
    · rfl
    · rw [hpcbs, set_addrs]
  cases call with
  | alloc n so =>
    rw [Head.step] at h
    split at h
    · cases h
    · rename_i hfree
      obtain rfl := Option.some.inj h
      exact Or.inl ⟨n, so, rfl, fun hmem => hfree (find_isSome.mpr hmem), rfl⟩
  | bind n nam env =>
    obtain ⟨inp, -, hr⟩ := Option.bind_eq_some_iff.mp h
    exact Or.inr (Or.inr ⟨by simp, hfinish _ hr⟩)
  | connect n nam env =>
    obtain ⟨inp, -, hr⟩ := Option.bind_eq_some_iff.mp h
    exact Or.inr (Or.inr ⟨by simp, hfinish _ hr⟩)
  | disconnect n =>
    obtain ⟨inp, hfind, hr⟩ := Option.bind_eq_some_iff.mp h
    split at hr
    · rename_i hnofd
      obtain rfl := Option.some.inj hr
      exact Or.inr (Or.inl ⟨n, Or.inr ⟨rfl, inp, hfind, hnofd⟩, remove_addrs head n⟩)
    · obtain rfl := Option.some.inj hr
      exact Or.inr (Or.inr ⟨by simp, set_addrs head _⟩)
  | detach n =>
    obtain ⟨inp, hfind, hr⟩ := Option.bind_eq_some_iff.mp h
    obtain ⟨-, rfl⟩ := find_eq_some hfind
    obtain rfl := Option.some.inj hr
    exact Or.inr (Or.inl ⟨inp.addr, Or.inl rfl, remove_addrs head _⟩)
  | setsockopt n so =>
    obtain ⟨inp, -, hr⟩ := Option.bind_eq_some_iff.mp h
    obtain rfl := Option.some.inj hr
    exact Or.inr (Or.inr ⟨by simp, set_addrs head _⟩)

def Cached.Clear (ntohs : Word16 → Word16) (c : Cached) (ti : Segment) : Prop :=
  match c.last with
  | .head => ¬ ({ addr := 0, inpLport := ntohs c.head.inpLport } : Inpcb).matches ti
  | .block addr => ∀ inp, c.head.find addr = some inp → inp.matches ti →
      ∀ t ∈ c.head.pcbs.takeWhile fun t => t.addr ≠ addr, ¬ Alike t inp

/-- What goes well: an arrival of that kind, and no `in_pcbdisconnect` that frees the cached block. -/
def Careful (ntohs : Word16 → Word16) (c : Cached) : Event → Prop
  | .call (.disconnect n) => c.last = .block n → ∀ inp, c.head.find n = some inp → inp.inpSocket.ssNofdref = false
  | .call _ => True
  | .assign _ _ _ => True
  | .input ti => c.Clear ntohs ti

theorem Cached.Sound.call {call : Call} (h : c.Sound) (hc : Careful ntohs c (.call call))
    (hstep : c.step ntohs (.call call) = some c') : c'.Sound := by
  obtain ⟨head, hhead, rfl⟩ := Option.map_eq_some_iff.mp hstep
  rcases step_addrs hhead with ⟨n, so, rfl, hnew, haddrs⟩ | ⟨n, hgone, haddrs⟩ | ⟨hnot, haddrs⟩
  · intro m hlast
    show m ∈ head.pcbs.map Inpcb.addr
    rw [haddrs]
    exact List.mem_cons_of_mem _ (h m hlast)
  · have hkeep : ∀ m, c.last = .block m → m ≠ n → m ∈ head.pcbs.map Inpcb.addr := by
      intro m hlast hne
      rw [haddrs, List.mem_filter]
      exact ⟨h m hlast, decide_eq_true hne⟩
    rcases hgone with rfl | ⟨rfl, inp, hfind, hnofd⟩
    · intro m hlast
      dsimp only at hlast
      split at hlast
      · cases hlast
      · rename_i hne
        exact hkeep m hlast fun heq => hne (heq ▸ hlast)
    · intro m hlast
      refine hkeep m hlast ?_
      rintro rfl
      have hfd := hc hlast inp hfind
      rw [hnofd] at hfd
      cases hfd
  · have hsound : Cached.Sound { c with head } := by
      intro m hlast
      rw [haddrs]
      exact h m hlast
    cases call with
    | detach n => exact absurd rfl (hnot n)
    | _ => exact hsound

theorem lookupLoop_mem {faddr laddr : Word32} {fport lport : Word16} {wild : Bool} {found : Option Inpcb} {k : Nat}
    (h : lookupLoop faddr fport laddr lport wild found k pcbs = some inp) : found = some inp ∨ inp ∈ pcbs := by
  induction pcbs generalizing found k with
  | nil => exact Or.inl h
  | cons t rest ih =>
    rw [lookupLoop] at h
    have hskip : ∀ k, lookupLoop faddr fport laddr lport wild found k rest = some inp →
        found = some inp ∨ inp ∈ t :: rest := fun k h => (ih h).imp_right (List.mem_cons_of_mem t)
    have htake : ∀ k, lookupLoop faddr fport laddr lport wild (some t) k rest = some inp → inp ∈ t :: rest := by
      intro k h
      rcases ih h with heq | hmem
      · obtain rfl := Option.some.inj heq
        exact List.mem_cons_self
      · exact List.mem_cons_of_mem t hmem
    split at h
    · exact hskip _ h
    · split at h
      · exact hskip _ h
      · split at h
        · split at h
          · obtain rfl := Option.some.inj h
            exact Or.inr List.mem_cons_self
          · exact Or.inr (htake _ h)
        · exact hskip _ h

theorem Cached.lookup_mem {n : Nat} (h : c.lookup ti = some (.block n)) : n ∈ c.head.pcbs.map Inpcb.addr := by
  obtain ⟨inp, hfound, hn⟩ := Option.map_eq_some_iff.mp h
  obtain rfl := Last.block.inj hn
  rcases lookupLoop_mem hfound with hnone | hmem
  · cases hnone
  · exact List.mem_map_of_mem hmem

theorem Cached.lookup_ne_head : c.lookup ti ≠ some .head := by
  intro h
  obtain ⟨inp, -, hn⟩ := Option.map_eq_some_iff.mp h
  cases hn

theorem Cached.Sound.step (h : c.Sound) (hc : Careful ntohs c event) (hstep : c.step ntohs event = some c') :
    c'.Sound := by
  cases event with
  | call call => exact h.call hc hstep
  | assign n laddr lport =>
    obtain ⟨inp, hfind, rfl⟩ := Option.map_eq_some_iff.mp hstep
    intro m hlast
    rw [set_addrs]
    exact h m hlast
  | input ti =>
    obtain ⟨found, hselect, rfl⟩ := Option.map_eq_some_iff.mp hstep
    cases found with
    | none => exact h
    | some last =>
      intro m hlast
      obtain rfl : last = .block m := hlast
      obtain ⟨inp, -, hinp⟩ := Option.map_eq_some_iff.mp hselect
      split at hinp
      · exact h m (Option.some.inj hinp)
      · exact Cached.lookup_mem hinp

theorem sound_of_careful (h : Runs Cached.Fresh (Cached.step ntohs) (Careful ntohs) c) : c.Sound := by
  apply h.invariant
  · rintro c ⟨-, hlast⟩ n hn
    rw [hlast] at hn
    cases hn
  · exact fun c event c' hsound hc hstep => hsound.step hc hstep

theorem Cached.Sound.split (h : c.Sound) (hlast : c.last = .block n) :
    ∃ s inp r, c.head.pcbs = s ++ inp :: r ∧ inp.addr = n ∧ c.head.find n = some inp ∧
      (∀ d ∈ s, d.addr ≠ n) ∧ c.head.pcbs.takeWhile (fun t => t.addr ≠ n) = s := by
  obtain ⟨inp, hfind⟩ := Option.isSome_iff_exists.mp (find_isSome.mpr (h n hlast))
  obtain ⟨haddr, s, r, hpcbs, hs⟩ := List.find?_eq_some_iff_append.mp hfind
  have haddr : inp.addr = n := by simpa using haddr
  have hs : ∀ d ∈ s, d.addr ≠ n := fun d hd => by simpa using hs d hd
  refine ⟨s, inp, r, hpcbs, haddr, hfind, hs, ?_⟩
  rw [hpcbs, List.takeWhile_append_of_pos fun d hd => decide_eq_true (hs d hd)]
  simp [haddr]

theorem exists_first (p : Inpcb → Prop) [DecidablePred p] (h : ∃ t ∈ s, p t) :
    ∃ s₁ t s₂, s = s₁ ++ t :: s₂ ∧ p t ∧ ∀ d ∈ s₁, ¬ p d := by
  obtain ⟨t, ht, hpt⟩ := h
  obtain ⟨t', hfind⟩ := Option.isSome_iff_exists.mp
    (List.find?_isSome (p := fun t => decide (p t)) |>.mpr ⟨t, ht, decide_eq_true hpt⟩)
  obtain ⟨hp, s₁, s₂, hs, hnot⟩ := List.find?_eq_some_iff_append.mp hfind
  refine ⟨s₁, t', s₂, hs, of_decide_eq_true hp, fun d hd hpd => ?_⟩
  have := hnot d hd
  simp [hpd] at this

theorem Cached.Sound.select_iff (h : c.Sound) : c.select ntohs ti = some (c.lookup ti) ↔ c.Clear ntohs ti := by
  unfold Cached.select Cached.inpcb Cached.Clear
  cases hlast : c.last with
  | head =>
    dsimp only
    rw [Option.map_some]
    split
    · rename_i hmatch
      constructor
      · exact fun hhead => absurd (Option.some.inj hhead).symm Cached.lookup_ne_head
      · exact fun hno => absurd hmatch hno
    · rename_i hmatch
      exact ⟨fun _ => hmatch, fun _ => rfl⟩
  | block n =>
    obtain ⟨s, inp, r, hpcbs, haddr, hfind, hother, htake⟩ := h.split hlast
    dsimp only
    rw [hfind, htake, Option.map_some]
    by_cases hmatch : inp.matches ti
    · have hexact : inp.wildcard ti.src ti.sport ti.dst ti.dport = some 0 :=
        (wildcard_of_matches hmatch).mpr ⟨rfl, rfl, rfl, Or.inr rfl⟩
      rw [if_pos hmatch]
      constructor
      · -- The first block that is like the cached one would be found instead of it.
        intro heq inp' hinp' _ t ht halike
        obtain rfl := Option.some.inj hinp'
        obtain ⟨s₁, t', s₂, hs, halike', hnot⟩ := exists_first (fun t => Alike t inp) ⟨t, ht, halike⟩
        have hfound : c.lookup ti = some (.block t'.addr) := by
          rw [Cached.lookup, inPcblookup, hpcbs, hs, List.append_assoc, List.cons_append,
            lookupLoop_exact (by decide) _ ((wildcard_of_matches hmatch).mpr halike')]
          · rfl
          · exact fun d hd hd0 => hnot d hd ((wildcard_of_matches hmatch).mp hd0)
        rw [hfound] at heq
        have hsame : n = t'.addr := by simpa using heq
        exact hother t' (by rw [hs]; simp) hsame.symm
      · intro hclear
        have hnot := hclear inp rfl hmatch
        rw [Cached.lookup, inPcblookup, hpcbs, lookupLoop_exact (by decide) _ hexact, Option.map_some, haddr]
        exact fun d hd hd0 => hnot d hd ((wildcard_of_matches hmatch).mp hd0)
    · rw [if_neg hmatch]
      refine ⟨fun _ inp' hinp' hmatch' => ?_, fun _ => rfl⟩
      obtain rfl := Option.some.inj hinp'
      exact absurd hmatch' hmatch

/-- **The pointer does not change the answer** in runs whose arrivals are clear and which free no cached block
in `in_pcbdisconnect`; and there it does not change the answer for just the clear ones. -/
theorem select_eq_lookup (h : Runs Cached.Fresh (Cached.step ntohs) (Careful ntohs) c) (ti : Segment) :
    c.select ntohs ti = some (c.lookup ti) ↔ Careful ntohs c (.input ti) :=
  (sound_of_careful h).select_iff

def sharing (n : Nat) : Inpcb :=
  { addr := n, inpLaddr := 0x0a000001, inpLport := 1024, inpSocket := { soReuseport := true } }

def anonymous : Segment := { src := 0, sport := 0, dst := 0x0a000001, dport := 1024 }

theorem first_selected {ok : Cached → Event → Prop} (hok : ∀ c event, Careful id c event → ok c event) :
    Runs Cached.Fresh (Cached.step id) ok ⟨⟨[sharing 1], 0, false⟩, .block 1⟩ := by
  have hstart : Runs Cached.Fresh (Cached.step id) ok ⟨⟨[], 0, false⟩, .head⟩ := .start ⟨⟨rfl, rfl⟩, rfl⟩
  have halloc := Runs.call (Event.call (.alloc 1 { soReuseport := true })) hstart (hok _ _ trivial)
    (show _ = some ⟨⟨[{ addr := 1, inpSocket := { soReuseport := true } }], 0, false⟩, .head⟩ from rfl)
  have hbind := Runs.call (Event.call (.bind 1 (some { sinPort := 1024, sinAddr := 0x0a000001 }) sampleEnv)) halloc
    (hok _ _ trivial) (show _ = some ⟨⟨[sharing 1], 0, false⟩, .head⟩ from rfl)
  have hclear : Careful id ⟨⟨[sharing 1], 0, false⟩, .head⟩ (.input anonymous) :=
    (by decide : ¬ Inpcb.matches { addr := 0 } anonymous)
  have hinput := Runs.call (Event.input anonymous) hbind (hok _ _ hclear)
    (show _ = some ⟨⟨[sharing 1], 0, false⟩, .block 1⟩ from rfl)
  exact hinput

/-- The next datagram of that kind is selected for it, too. -/
theorem again_selected :
    Cached.select id ⟨⟨[sharing 1], 0, false⟩, .block 1⟩ anonymous =
      some (Cached.lookup ⟨⟨[sharing 1], 0, false⟩, .block 1⟩ anonymous) := by
  apply (select_eq_lookup (first_selected fun _ _ h => h) anonymous).mpr
  intro inp _ _ t ht
  simp [sharing] at ht

/-- When a second socket has been bound to the port, the look-up finds that one. -/
theorem second_passed_over :
    ∃ c, Runs Cached.Fresh (Cached.step id) (fun _ _ => True) c ∧
      c.select id anonymous = some (some (.block 1)) ∧ c.lookup anonymous = some (.block 2) := by
  have hfirst := @first_selected (fun _ _ => True) fun _ _ _ => trivial
  have halloc := Runs.call (Event.call (.alloc 2 { soReuseport := true })) hfirst trivial
    (show _ = some ⟨⟨[{ addr := 2, inpSocket := { soReuseport := true } }, sharing 1], 0, false⟩, .block 1⟩ from rfl)
  have hbind := Runs.call (Event.call (.bind 2 (some { sinPort := 1024, sinAddr := 0x0a000001 }) sampleEnv)) halloc
    trivial (show _ = some ⟨⟨[sharing 2, sharing 1], 0, false⟩, .block 1⟩ from rfl)
  exact ⟨_, hbind, rfl, rfl⟩

end NetBSD.Pcb
