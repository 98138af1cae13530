import NetBSD.Uipc.Sockbuf

/-!
# Sending at once

`sosend` of a message of the user's on a socket whose protocol is `PR_ATOMIC`. The loop over chains ends when the message
does; what the socket looks like each time the loop comes back to its head is an argument.
-/

namespace NetBSD.Uipc.Sosend

abbrev mhlen : Nat := 100
abbrev mclbytes : Nat := 2048

abbrev minclsize : Nat := mhlen + mlen

abbrev edestaddrreq : Nat := 39
abbrev emsgsize : Nat := 40
abbrev enotconn : Nat := 57
abbrev ewouldblock : Nat := 35
abbrev epipe : Nat := 32
abbrev efault : Nat := 14

structure Socket where
  ssCantsendmore : Bool := false
  soError : Nat := 0
  ssIsconnected : Bool := false
  ssIsconfirming : Bool := false
  ssNbio : Bool := false
  prConnrequired : Bool := false
  soSnd : Sockbuf

structure Sent where
  mExt : Bool
  mData : Nat
  data : List Byte
  deriving DecidableEq

/-- What is outside of `sosend`; the `i`th socket is the one that is found at the `i`th time at the head of the loop, and the
`n`th mbuf is the `n`th that is filled. -/
structure Env where
  so : Nat → Socket
  /-- The errors of `sblock`, `sbwait` and the requests to the protocol, or zero. -/
  sblock : Nat → Nat
  sbwait : Nat → Nat
  usrreq : Nat → Nat
  /-- `MCLGET` finds a cluster. -/
  mclget : Nat → Bool
  /-- The first byte of the message that `uiomove` cannot read. -/
  fault : Option Nat
  addr : Bool
  msgOob : Bool
  maxHdr : Nat

inductive Check where
  | snderr (errno : Nat)
  | wait
  | send (space : Int)
  deriving DecidableEq

def check (env : Env) (so : Socket) (resid clen : Nat) : Check :=
  if so.ssCantsendmore then .snderr epipe
  else if so.soError ≠ 0 then .snderr so.soError
  else if ¬so.ssIsconnected ∧ so.prConnrequired ∧ ¬so.ssIsconfirming ∧ ¬(resid = 0 ∧ clen ≠ 0) then .snderr enotconn
  else if ¬so.ssIsconnected ∧ ¬so.prConnrequired ∧ ¬env.addr then .snderr edestaddrreq
  else
    let space := so.soSnd.sbspace + if env.msgOob then 1024 else 0
    if so.soSnd.sbHiwat < resid ∨ so.soSnd.sbHiwat < clen then .snderr emsgsize
    else if space < resid + clen then if so.ssNbio then .snderr ewouldblock else .wait
    else .send space

/-- What has been made of the message: the chain so far, the bytes that are left and how many went before them, the space
that is left, and the number of mbufs. -/
structure Work where
  top : List Sent
  uio : List Byte
  pos : Nat
  space : Int
  mbufs : Nat

def Work.Clusters (env : Env) (w : Work) : Prop := minclsize ≤ w.uio.length ∧ (mclbytes : Int) ≤ w.space ∧ env.mclget w.mbufs = true

instance (env : Env) (w : Work) : Decidable (w.Clusters env) := inferInstanceAs (Decidable (_ ∧ _ ∧ _))

/-- How many bytes go into the next mbuf; the space is not negative here, where `min` is of unsigned numbers. -/
def Work.len (env : Env) (w : Work) : Nat :=
  if w.Clusters env then min (if w.top = [] then mclbytes - env.maxHdr else mclbytes) w.uio.length
  else min (min (if w.top = [] then mhlen else mlen) w.uio.length) w.space.toNat

/-- The next mbuf, with room for the headers when it is the first: `m_data` of a cluster, or `MH_ALIGN`. -/
def Work.mbuf (env : Env) (w : Work) : Sent where
  mExt := w.Clusters env
  mData :=
    if w.Clusters env then if w.top = [] then env.maxHdr else 0
    else if w.top = [] then mlen - mhlen + (mhlen - w.len env) / 4 * 4 else 0
  data := w.uio.take (w.len env)

def Work.Faults (env : Env) (w : Work) : Prop := ∃ k ∈ env.fault, w.pos ≤ k ∧ k < w.pos + w.len env

instance (env : Env) (w : Work) : Decidable (w.Faults env) :=
  inferInstanceAs (Decidable (∃ k, k ∈ env.fault ∧ w.pos ≤ k ∧ k < w.pos + w.len env))

def Work.turn (env : Env) (w : Work) : Work where
  top := w.top ++ [w.mbuf env]
  uio := w.uio.drop (w.len env)
  pos := w.pos + w.len env
  space := w.space - if w.Clusters env then (mclbytes : Int) else (w.len env : Int)
  mbufs := w.mbufs + 1

def copyLoop (env : Env) : Nat → Work → Option (Except Nat Work)
  | 0, _ => none
  | fuel + 1, w =>
    if w.Faults env then some (.error efault)
    else if (w.turn env).uio = [] then some (.ok (w.turn env))
    else if 0 < (w.turn env).space then copyLoop env fuel (w.turn env)
    else some (.ok (w.turn env))

structure Outcome where
  sends : List (List Sent)
  error : Option Nat
  deriving DecidableEq

def sendLoop (env : Env) : Nat → Work → List (List Sent) → Except Nat Work × List (List Sent)
  | 0, w, sends => (.ok w, sends)
  | fuel + 1, w, sends =>
    match copyLoop env (w.uio.length + 1) { w with top := [] } with
    | none => (.error 0, sends)
    | some (.error e) => (.error e, sends)
    | some (.ok w) =>
      let sends := sends ++ [w.top]
      if env.usrreq sends.length ≠ 0 then (.error (env.usrreq sends.length), sends)
      else if w.uio ≠ [] ∧ 0 < w.space then sendLoop env fuel w sends
      else (.ok w, sends)

def sosendLoop (env : Env) : Nat → Nat → Bool → Work → Nat → List (List Sent) → Outcome
  | 0, _, _, _, _, sends => { sends, error := none }
  | fuel + 1, i, restart, w, clen, sends =>
    if restart ∧ env.sblock i ≠ 0 then { sends, error := some (env.sblock i) }
    else
      match check env (env.so i) w.uio.length clen with
      | .snderr e => { sends, error := some e }
      | .wait =>
        if env.sbwait i ≠ 0 then { sends, error := some (env.sbwait i) }
        else sosendLoop env fuel (i + 1) true w clen sends
      | .send space =>
        match sendLoop env (w.uio.length + 1) { w with space := space - clen } sends with
        | (.error e, sends) => { sends, error := some e }
        | (.ok w, sends) =>
          if w.uio = [] then { sends, error := some 0 } else sosendLoop env fuel (i + 1) false w 0 sends

def sosend (env : Env) (fuel : Nat) (uio : List Byte) (clen : Nat) : Outcome :=
  sosendLoop env fuel 0 true { top := [], uio, pos := 0, space := 0, mbufs := 0 } clen []

def SendsWhole (env : Env) (uio : List Byte) (clen : Nat) : Prop :=
  ∀ fuel, (sosend env fuel uio clen).sends = [] ∨ ∃ chain, (sosend env fuel uio clen).sends = [chain] ∧ chain.flatMap Sent.data = uio

def Admits (env : Env) (resid clen i : Nat) (space : Int) : Prop :=
  (∀ j < i, env.sblock j = 0 ∧ check env (env.so j) resid clen = .wait ∧ env.sbwait j = 0) ∧
    env.sblock i = 0 ∧ check env (env.so i) resid clen = .send space

/-- The first mbuf is a cluster, and the space that it takes away is wanted: not even with the room for the headers would there be
enough, and the bytes that go before can be read. -/
def Cramped (env : Env) (resid : Nat) (space : Int) : Prop :=
  minclsize ≤ resid ∧ (mclbytes : Int) ≤ space ∧ env.mclget 0 = true ∧ space < resid + env.maxHdr ∧
    ∀ k ∈ env.fault, space ≤ k + env.maxHdr

variable {env : Env} {w w' : Work} {fuel resid clen i : Nat} {space : Int} {uio : List Byte} {sends : List (List Sent)}

def Work.moved (env : Env) (w : Work) : Nat :=
  min w.uio.length (if w.top = [] ∧ w.Clusters env then w.space.toNat - env.maxHdr else w.space.toNat)

theorem turn_top_ne : (w.turn env).top ≠ [] := List.append_ne_nil_of_right_ne_nil _ (List.cons_ne_nil _ _)

theorem turn_uio_eq_nil : (w.turn env).uio = [] ↔ w.uio.length ≤ w.len env := List.drop_eq_nil_iff

theorem turn_moved (hhdr : env.maxHdr < mclbytes) (hspace : 0 < w.space ∨ w.uio = []) (hpos : 0 ≤ w.space) :
    w.len env ≤ w.moved env ∧ 0 ≤ (w.turn env).space ∧ ((w.turn env).uio = [] → w.moved env = w.len env) ∧
      ((w.turn env).uio ≠ [] → (w.turn env).space = 0 → w.moved env = w.len env) ∧
      ((w.turn env).uio ≠ [] → 0 < (w.turn env).space → 0 < w.len env ∧ w.moved env = w.len env + (w.turn env).moved env) := by
  have hsizes : mclbytes = 2048 ∧ mhlen = 100 ∧ mlen = 108 ∧ minclsize = 208 := ⟨rfl, rfl, rfl, rfl⟩
  have hmoved : (w.turn env).moved env = min (w.uio.length - w.len env) (w.turn env).space.toNat := by
    rw [Work.moved, if_neg (fun h => turn_top_ne h.1)]
    exact congrArg (min · _) List.length_drop
  rw [Ne, turn_uio_eq_nil, hmoved]
  have hempty : w.uio = [] → w.uio.length = 0 := fun h => by rw [h, List.length_nil]
  have hturn : (w.turn env).space = w.space - if w.Clusters env then (mclbytes : Int) else (w.len env : Int) := rfl
  rw [hturn]
  by_cases hcl : w.Clusters env
  · obtain ⟨hmany, hroom, -⟩ := id hcl
    by_cases htop : w.top = []
    · have hlen : w.len env = min (mclbytes - env.maxHdr) w.uio.length := by rw [Work.len, if_pos hcl, if_pos htop]
      have hall : w.moved env = min w.uio.length (w.space.toNat - env.maxHdr) := by rw [Work.moved, if_pos ⟨htop, hcl⟩]
      rw [if_pos hcl, hall]
      omega
    · have hlen : w.len env = min mclbytes w.uio.length := by rw [Work.len, if_pos hcl, if_neg htop]
      have hall : w.moved env = min w.uio.length w.space.toNat := by rw [Work.moved, if_neg fun h => htop h.1]
      rw [if_pos hcl, hall]
      omega
  · have hlen : ∃ size, 100 ≤ size ∧ w.len env = min (min size w.uio.length) w.space.toNat := by
      rw [Work.len, if_neg hcl]
      exact ⟨_, by split <;> omega, rfl⟩
    obtain ⟨size, hsize, hlen⟩ := hlen
    have hall : w.moved env = min w.uio.length w.space.toNat := by rw [Work.moved, if_neg fun h => hcl h.2]
    rw [if_neg hcl, hall]
    omega

theorem copyLoop_spec (hhdr : env.maxHdr < mclbytes) (hfuel : w.uio.length < fuel) (hspace : 0 < w.space ∨ w.uio = [])
    (hpos : 0 ≤ w.space) :
    (copyLoop env fuel w = some (.error efault) ∧ ∃ k ∈ env.fault, w.pos ≤ k ∧ k < w.pos + w.moved env) ∨
      ∃ w', copyLoop env fuel w = some (.ok w') ∧ (∀ k ∈ env.fault, w.pos ≤ k → w.pos + w.moved env ≤ k) ∧
        w'.top.flatMap Sent.data = w.top.flatMap Sent.data ++ w.uio.take (w.moved env) ∧ w'.uio = w.uio.drop (w.moved env) ∧
        (w'.uio ≠ [] → w'.space = 0) := by
  induction fuel generalizing w with
  | zero => omega
  | succ fuel ih =>
    obtain ⟨hle, hpos', hdone, hfull, hmore⟩ := turn_moved hhdr hspace hpos
    have htop : (w.turn env).top.flatMap Sent.data = w.top.flatMap Sent.data ++ w.uio.take (w.len env) := by
      rw [Work.turn, List.flatMap_append, List.flatMap_singleton]
      rfl
    rw [copyLoop]
    by_cases hfault : w.Faults env
    · rw [if_pos hfault]
      obtain ⟨k, hk, hlo, hhi⟩ := hfault
      exact .inl ⟨rfl, k, hk, hlo, by omega⟩
    · have hread : ∀ k ∈ env.fault, w.pos ≤ k → w.pos + w.len env ≤ k := fun k hk hlo =>
        not_lt.1 fun hlt => hfault ⟨k, hk, hlo, hlt⟩
      rw [if_neg hfault]
      by_cases huio : (w.turn env).uio = []
      · rw [if_pos huio, hdone huio]
        exact .inr ⟨_, rfl, hread, htop, rfl, fun h => absurd huio h⟩
      · rw [if_neg huio]
        by_cases hroom : 0 < (w.turn env).space
        · obtain ⟨hlen, hmoved⟩ := hmore huio hroom
          rw [if_pos hroom, hmoved]
          have hless : (w.turn env).uio.length < fuel := by
            have : (w.turn env).uio.length = w.uio.length - w.len env := List.length_drop
            have hne := turn_uio_eq_nil.not.1 huio
            omega
          have hstart : (w.turn env).pos = w.pos + w.len env := rfl
          obtain ⟨hloop, k, hk, hlo, hhi⟩ | ⟨w', hloop, hk, hdata, hrest, hzero⟩ := ih hless (.inl hroom) hpos'
          · exact .inl ⟨hloop, k, hk, by omega, by omega⟩
          · refine .inr ⟨w', hloop, fun k hmem hlo => ?_, ?_, ?_, hzero⟩
            · have := hk k hmem (hstart ▸ hread k hmem hlo)
              omega
            · rw [hdata, htop, List.take_add, List.append_assoc]
              rfl
            · rw [hrest, ← List.drop_drop]
              rfl
        · have hzero : (w.turn env).space = 0 := by omega
          rw [if_neg hroom, hfull huio hzero]
          exact .inr ⟨_, rfl, hread, htop, rfl, fun _ => hzero⟩

theorem sendLoop_extends (env : Env) (fuel : Nat) (w : Work) (sends : List (List Sent)) :
    ∃ more, (sendLoop env fuel w sends).2 = sends ++ more := by
  induction fuel generalizing w sends with
  | zero => exact ⟨[], (List.append_nil _).symm⟩
  | succ fuel ih =>
    rw [sendLoop]
    split
    · exact ⟨[], (List.append_nil _).symm⟩
    · exact ⟨[], (List.append_nil _).symm⟩
    · rename_i w' _
      dsimp only
      split
      · exact ⟨[w'.top], rfl⟩
      · split
        · obtain ⟨more, hmore⟩ := ih w' (sends ++ [w'.top])
          exact ⟨[w'.top] ++ more, by rw [hmore, List.append_assoc]⟩
        · exact ⟨[w'.top], rfl⟩

theorem sendLoop_first (hhdr : env.maxHdr < mclbytes) (hstart : w.top = []) (hroom : (w.uio.length : Int) ≤ w.space) (fuel : Nat) :
    (sendLoop env (fuel + 1) w [] = (.error efault, []) ∧ ∃ k ∈ env.fault, w.pos ≤ k ∧ k < w.pos + w.moved env) ∨
      ∃ chain more r, sendLoop env (fuel + 1) w [] = (r, chain :: more) ∧ chain.flatMap Sent.data = w.uio.take (w.moved env) ∧
        (∀ k ∈ env.fault, w.pos ≤ k → w.pos + w.moved env ≤ k) ∧
        (w.moved env = w.uio.length → more = [] ∧ ∀ w', r = .ok w' → w'.uio = []) := by
  have hempty : { w with top := [] } = w := by rw [← hstart]
  have hspace : 0 < w.space ∨ w.uio = [] := by
    cases huio : w.uio with
    | nil => exact .inr rfl
    | cons b rest =>
      rw [huio, List.length_cons] at hroom
      exact .inl (by omega)
  have hpos : 0 ≤ w.space := by omega
  rw [sendLoop, hempty]
  obtain ⟨hloop, hfault⟩ | ⟨w', hloop, hread, hdata, hrest, hzero⟩ := copyLoop_spec hhdr (Nat.lt_succ_self _) hspace hpos
  · rw [hloop]
    exact .inl ⟨rfl, hfault⟩
  · rw [hstart, List.flatMap_nil, List.nil_append] at hdata
    rw [hloop]
    right
    dsimp only
    have hwhole : w.moved env = w.uio.length → w'.uio = [] := by
      intro hall
      rw [hrest, hall]
      exact List.drop_length
    split
    · exact ⟨w'.top, [], _, rfl, hdata, hread, fun _ => ⟨rfl, fun _ h => by cases h⟩⟩
    · split
      · rename_i hmore
        obtain ⟨more, hext⟩ := sendLoop_extends env fuel w' [w'.top]
        exact ⟨w'.top, more, _, Prod.ext rfl hext, hdata, hread, fun hall => absurd (hwhole hall) hmore.1⟩
      · refine ⟨w'.top, [], _, rfl, hdata, hread, fun hall => ⟨rfl, fun w'' h => ?_⟩⟩
        cases h
        exact hwhole hall

theorem check_send {so : Socket} (h : check env so resid clen = .send space) : (resid : Int) + clen ≤ space := by
  unfold check at h
  split at h
  · cases h
  split at h
  · cases h
  split at h
  · cases h
  split at h
  · cases h
  dsimp only at h
  generalize so.soSnd.sbspace + (if env.msgOob = true then (1024 : Int) else 0) = sp at h
  split at h
  · cases h
  split at h
  · split at h <;> cases h
  · cases h
    omega

def Sleeps (env : Env) (resid clen i : Nat) : Prop :=
  ∀ j < i, env.sblock j = 0 ∧ check env (env.so j) resid clen = .wait ∧ env.sbwait j = 0

theorem sosendLoop_sleeps (hsleeps : Sleeps env w.uio.length clen i) (fuel : Nat) :
    sosendLoop env (i + fuel) 0 true w clen sends = sosendLoop env fuel i true w clen sends := by
  induction i generalizing fuel with
  | zero => rw [Nat.zero_add]
  | succ i ih =>
    obtain ⟨hlock, hcheck, hwait⟩ := hsleeps i (Nat.lt_succ_self i)
    rw [Nat.succ_add_eq_add_succ, ih (fun j hj => hsleeps j (Nat.lt_succ_of_lt hj)) (fuel + 1), sosendLoop,
      if_neg (fun h => h.2 hlock), hcheck]
    dsimp only
    rw [if_neg (not_not.2 hwait)]

theorem moved_first (hstart : w.top = []) (hmbufs : w.mbufs = 0) (hroom : (w.uio.length : Int) ≤ w.space)
    (hhdr : env.maxHdr < mclbytes) :
    (w.moved env = w.uio.length ∧ ¬(minclsize ≤ w.uio.length ∧ (mclbytes : Int) ≤ w.space ∧ env.mclget 0 = true ∧
        w.space < w.uio.length + env.maxHdr)) ∨
      ((w.moved env : Int) = w.space - env.maxHdr ∧ w.moved env < w.uio.length ∧ minclsize ≤ w.uio.length ∧
        (mclbytes : Int) ≤ w.space ∧ env.mclget 0 = true ∧ w.space < w.uio.length + env.maxHdr) := by
  have hmcl : mclbytes = 2048 := rfl
  by_cases hcl : w.Clusters env
  · have hmoved : w.moved env = min w.uio.length (w.space.toNat - env.maxHdr) := by rw [Work.moved, if_pos ⟨hstart, hcl⟩]
    obtain ⟨hmany, hspace, hget⟩ := hcl
    rw [hmbufs] at hget
    by_cases hcramped : w.space < w.uio.length + env.maxHdr
    · exact .inr ⟨by omega, by omega, hmany, hspace, hget, hcramped⟩
    · exact .inl ⟨by omega, fun h => hcramped h.2.2.2⟩
  · have hmoved : w.moved env = min w.uio.length w.space.toNat := by rw [Work.moved, if_neg (fun h => hcl h.2)]
    refine .inl ⟨by omega, fun ⟨hmany, hspace, hget, _⟩ => hcl ⟨hmany, hspace, ?_⟩⟩
    rw [hmbufs]
    exact hget

def start (uio : List Byte) (space : Int) : Work := { top := [], uio, pos := 0, space, mbufs := 0 }

theorem sendsWhole_of_not_cramped (hhdr : env.maxHdr < mclbytes)
    (h : ∀ i space, Admits env uio.length clen i space → ¬Cramped env uio.length (space - clen)) : SendsWhole env uio clen := by
  suffices hloop : ∀ fuel i, Sleeps env uio.length clen i →
      (sosendLoop env fuel i true (start uio 0) clen []).sends = [] ∨
        ∃ chain, (sosendLoop env fuel i true (start uio 0) clen []).sends = [chain] ∧ chain.flatMap Sent.data = uio from
    fun fuel => hloop fuel 0 fun j hj => absurd hj (Nat.not_lt_zero j)
  intro fuel
  induction fuel with
  | zero => exact fun i _ => .inl rfl
  | succ fuel ih =>
    intro i hsleeps
    rw [sosendLoop]
    by_cases hlock : env.sblock i = 0
    · rw [if_neg (fun h => h.2 hlock)]
      cases hcheck : check env (env.so i) uio.length clen with
      | snderr e =>
        rw [show check env (env.so i) (start uio 0).uio.length clen = .snderr e from hcheck]
        exact .inl rfl
      | wait =>
        rw [show check env (env.so i) (start uio 0).uio.length clen = .wait from hcheck]
        dsimp only
        by_cases hwait : env.sbwait i = 0
        · rw [if_neg (not_not.2 hwait)]
          refine ih (i + 1) fun j hj => ?_
          obtain rfl | hlt := Nat.eq_or_lt_of_le (Nat.le_of_lt_succ hj)
          · exact ⟨hlock, hcheck, hwait⟩
          · exact hsleeps j hlt
        · rw [if_pos hwait]
          exact .inl rfl
      | send space =>
        rw [show check env (env.so i) (start uio 0).uio.length clen = .send space from hcheck]
        dsimp only
        have hspace := check_send hcheck
        have hroom : ((start uio (space - clen)).uio.length : Int) ≤ (start uio (space - clen)).space := by
          change (uio.length : Int) ≤ space - clen
          omega
        obtain ⟨hsend, -⟩ | ⟨chain, more, r, hsend, hdata, hread, hwhole⟩ :=
          sendLoop_first (w := start uio (space - clen)) hhdr rfl hroom uio.length
        · rw [show sendLoop env ((start uio 0).uio.length + 1) { start uio 0 with space := space - clen } [] = _ from hsend]
          exact .inl rfl
        · rw [show sendLoop env ((start uio 0).uio.length + 1) { start uio 0 with space := space - clen } [] = _ from hsend]
          obtain ⟨hall, -⟩ | ⟨hmoved, -, hmany, hcluster, hget, hshort⟩ := moved_first rfl rfl hroom hhdr
          · obtain ⟨rfl, hrest⟩ := hwhole hall
            have hbytes : chain.flatMap Sent.data = uio := by
              rw [hdata, hall]
              exact List.take_length
            right
            cases r with
            | error e => exact ⟨chain, rfl, hbytes⟩
            | ok w' =>
              dsimp only
              rw [if_pos (hrest w' rfl)]
              exact ⟨chain, rfl, hbytes⟩
          · refine absurd ⟨hmany, hcluster, hget, hshort, fun k hk => ?_⟩ (h i space ⟨hsleeps, hlock, hcheck⟩)
            have hle := hread k hk (Nat.zero_le k)
            have hpos : (start uio (space - clen)).pos = 0 := rfl
            have hspace' : (start uio (space - clen)).space = space - clen := rfl
            omega
    · rw [if_pos ⟨rfl, hlock⟩]
      exact .inl rfl

theorem Cramped.not_sendsWhole (hhdr : env.maxHdr < mclbytes) (hadmits : Admits env uio.length clen i space)
    (hcramped : Cramped env uio.length (space - clen)) : ¬SendsWhole env uio clen := by
  intro hwhole
  obtain ⟨hsleeps, hlock, hcheck⟩ := hadmits
  obtain ⟨hmany, hcluster, hget, hshort, hfault⟩ := hcramped
  have hspace := check_send hcheck
  have hroom : ((start uio (space - clen)).uio.length : Int) ≤ (start uio (space - clen)).space := by
    change (uio.length : Int) ≤ space - clen
    omega
  have hspace' : (start uio (space - clen)).space = space - clen := rfl
  obtain ⟨-, hnot⟩ | ⟨hmoved, hless, -⟩ := moved_first rfl rfl hroom hhdr
  · exact hnot ⟨hmany, hcluster, hget, hshort⟩
  obtain ⟨-, k, hk, -, hlt⟩ | ⟨chain, more, r, hsend, hdata, -, -⟩ :=
    sendLoop_first (w := start uio (space - clen)) hhdr rfl hroom uio.length
  · have hle := hfault k hk
    have hpos : (start uio (space - clen)).pos = 0 := rfl
    omega
  · have hpart : chain.flatMap Sent.data ≠ uio := by
      intro heq
      have hlength := congrArg List.length (hdata.symm.trans heq)
      rw [List.length_take, min_eq_left hless.le] at hlength
      exact absurd hlength hless.ne
    have hfirst : ∃ more', (sosend env (i + 1) uio clen).sends = chain :: more' := by
      have hrun : sosend env (i + 1) uio clen = sosendLoop env 1 i true (start uio 0) clen [] :=
        sosendLoop_sleeps (w := start uio 0) hsleeps 1
      rw [hrun, sosendLoop, if_neg (fun h => h.2 hlock), show check env (env.so i) (start uio 0).uio.length clen = _ from hcheck]
      dsimp only
      rw [show sendLoop env ((start uio 0).uio.length + 1) { start uio 0 with space := space - clen } [] = _ from hsend]
      cases r with
      | error e => exact ⟨more, rfl⟩
      | ok w' =>
        dsimp only
        split
        · exact ⟨more, rfl⟩
        · exact ⟨more, rfl⟩
    obtain ⟨more', hmore⟩ := hfirst
    obtain hnone | ⟨chain', hone, hbytes⟩ := hwhole (i + 1)
    · cases hmore.symm.trans hnone
    · obtain ⟨rfl, -⟩ := List.cons.inj (hmore.symm.trans hone)
      exact hpart hbytes

/-- **`sosend` sends a message whole** exactly when the head of the loop, when it lets the message through, finds space that is not
cramped. -/
theorem sosend_sendsWhole_iff (env : Env) (hhdr : env.maxHdr < mclbytes) (uio : List Byte) (clen : Nat) :
    SendsWhole env uio clen ↔ ∀ i space, Admits env uio.length clen i space → ¬Cramped env uio.length (space - clen) :=
  ⟨fun h _ _ hadmits hcramped => hcramped.not_sendsWhole hhdr hadmits h, sendsWhole_of_not_cramped hhdr⟩

def roomy : Env where
  so _ := { ssIsconnected := true, soSnd := { sbHiwat := 16384, sbMbmax := 65536 } }
  sblock _ := 0
  sbwait _ := 0
  usrreq _ := 0
  mclget _ := true
  fault := none
  addr := false
  msgOob := false
  maxHdr := 56

theorem sosend_sendsWhole_iff_byte :
    SendsWhole roomy [1] 0 ↔ ∀ i space, Admits roomy [1].length 0 i space → ¬Cramped roomy [1].length (space - 0) :=
  sosend_sendsWhole_iff roomy (by decide) [1] 0

/-- A message that is as long as the buffer. -/
theorem full_not_sendsWhole : ¬SendsWhole roomy (List.replicate 16384 0) 0 := by
  have hlength : (List.replicate 16384 (0 : Byte)).length = 16384 := List.length_replicate
  have hcheck : check roomy (roomy.so 0) 16384 0 = .send 16384 := by decide
  have hadmits : Admits roomy (List.replicate 16384 (0 : Byte)).length 0 0 16384 := by
    rw [hlength]
    exact ⟨fun j hj => absurd hj (Nat.not_lt_zero j), rfl, hcheck⟩
  refine Cramped.not_sendsWhole (by decide) hadmits ?_
  rw [hlength]
  exact ⟨by decide, by decide, rfl, by decide, fun k hk => by cases hk⟩

end NetBSD.Uipc.Sosend
