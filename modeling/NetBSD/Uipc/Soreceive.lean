import NetBSD.Lib.Runs
import NetBSD.Mbuf.Chain
import Mathlib.Algebra.BigOperators.Group.List.Basic
import Mathlib.Data.List.TakeWhile

/-!
# Receiving

`soreceive` as a machine that goes from one place where it can sleep to the next. The first record of the buffer is the list
of mbufs that `m` walks along; what is appended while the call sleeps comes with the event that ends the sleep.
-/

namespace NetBSD.Uipc.Soreceive

open Lib (Runs)

abbrev ewouldblock : Nat := 35
abbrev enotconn : Nat := 57

inductive MbufType where
  | soname
  | control
  | data
  | header
  | oobdata
  deriving DecidableEq

structure Rmbuf where
  mType : MbufType := .data
  data : List Byte
  mEor : Bool := false
  deriving DecidableEq

abbrev Record := List Rmbuf

structure Call where
  msgPeek : Bool := false
  msgDontwait : Bool := false
  msgWaitall : Bool := false
  msgOob : Bool := false
  /-- The caller has a place for the control mbufs, and one for the data mbufs. -/
  controlp : Bool := false
  mp : Bool := false
  prAddr : Bool := false
  prAtomic : Bool := false
  prConnrequired : Bool := true
  sbLowat : Nat := 1
  sbHiwat : Nat := 16384

structure Socket where
  soError : Nat := 0
  ssCantrcvmore : Bool := false
  /-- `SS_ISCONNECTED` or `SS_ISCONNECTING`. -/
  ssIsconnected : Bool := true
  ssNbio : Bool := false
  soOobmark : BitVec 32 := 0

structure Place where
  mbuf : Nat
  off : Nat
  byte : Byte
  deriving DecidableEq

inductive Pc where
  | start
  | restart
  | sbwait
  | loop
  | waitall
  | done
  deriving DecidableEq

structure State where
  pc : Pc := .start
  rcv : List Record
  /-- The buffer as the appends alone have made it. -/
  appended : List Record
  so : Socket := {}
  m : Option Nat := none
  moff : Nat := 0
  offset : Nat := 0
  resid : Nat
  origResid : Nat
  type : MbufType := .data
  msgEor : Bool := false
  nextrecord : Bool := false
  error : Nat := 0
  /-- The out-of-band data that the protocol had. -/
  oob : List Byte := []
  out : List Place := []

structure Event where
  append : List Record → List Record
  so : Socket
  /-- The error of `sblock`, `sbwait`, `uiomove` or `PRU_RCVOOB`, and of `dom_externalize`. -/
  error : Nat := 0
  externalize : Nat := 0
  /-- How many bytes `uiomove` has copied when it fails. -/
  moved : Nat := 0
  oob : List Byte := []

def places (mbuf : Nat) : Nat → List Byte → List Place
  | _, [] => []
  | off, byte :: bytes => { mbuf, off, byte } :: places mbuf (off + 1) bytes

def stream : Nat → Record → List Place
  | _, [] => []
  | j, m :: rest => places j 0 m.data ++ stream (j + 1) rest

def first (b : List Record) : Record := b.headD []

def pointer (r : Record) (j : Nat) : Option Nat := if j < r.length then some j else none

def dropMbufs (n : Nat) : List Record → List Record
  | [] => []
  | r :: rest => r.drop n :: rest

def trimMbuf (len : Nat) : List Record → List Record
  | (m :: r) :: rest => ({ m with data := m.data.drop len } :: r) :: rest
  | b => b

def sbCc (b : List Record) : Nat := (b.flatten.map fun m => m.data.length).sum

def State.sleep (s : State) (a : Event) : State :=
  { s with rcv := a.append s.rcv, appended := a.append s.appended, so := a.so }

def leading (c : Call) (r : Record) : Nat :=
  (if c.prAddr then 1 else 0) + ((r.drop (if c.prAddr then 1 else 0)).takeWhile fun m => m.mType = .control).length

/-- From `dontblock` to the loop; only the first control mbuf is told apart when it cannot be made external. -/
def dontblock (c : Call) (s : State) (externalize : Nat) : State :=
  let addr := if c.prAddr then 1 else 0
  let fails := ¬c.msgPeek ∧ c.controlp ∧ externalize ≠ 0 ∧ addr < leading c (first s.rcv)
  let n := if fails then addr + 1 else leading c (first s.rcv)
  { s with
    pc := .loop
    nextrecord := s.rcv.tail ≠ []
    origResid := if c.prAddr ∨ (c.controlp ∧ addr < n) then 0 else s.origResid
    error := if fails then externalize else 0
    rcv := if c.msgPeek then s.rcv else dropMbufs n s.rcv
    m := if c.msgPeek then pointer (first s.rcv) n else pointer ((first s.rcv).drop n) 0
    type := ((first s.rcv)[n]?.map Rmbuf.mType).getD s.type
    moff := 0
    offset := 0 }

def Blocks (c : Call) (s : State) : Prop :=
  first s.rcv = [] ∨ ((¬c.msgDontwait ∧ sbCc s.rcv < s.resid) ∧
    (sbCc s.rcv < c.sbLowat ∨ (c.msgWaitall ∧ s.resid ≤ c.sbHiwat)) ∧ s.rcv.tail = [] ∧ ¬c.prAtomic)

instance (c : Call) (s : State) : Decidable (Blocks c s) := inferInstanceAs (Decidable (_ ∨ _))

def locked (c : Call) (s : State) (externalize : Nat) : State :=
  if Blocks c s then
    if s.so.soError ≠ 0 then
      if first s.rcv ≠ [] then dontblock c s externalize
      else { s with pc := .done, error := s.so.soError, so := if c.msgPeek then s.so else { s.so with soError := 0 } }
    else if s.so.ssCantrcvmore then if first s.rcv ≠ [] then dontblock c s externalize else { s with pc := .done }
    else if (first s.rcv).any fun m => m.mType = .oobdata || m.mEor then dontblock c s externalize
    else if ¬s.so.ssIsconnected ∧ c.prConnrequired then { s with pc := .done, error := enotconn }
    else if s.resid = 0 then { s with pc := .done }
    else if s.so.ssNbio ∨ c.msgDontwait then { s with pc := .done, error := ewouldblock }
    else { s with pc := .sbwait }
  else dontblock c s externalize

def finish (c : Call) (s : State) : State :=
  { s with
    rcv :=
      if c.msgPeek then s.rcv
      else if s.m.isSome ∧ c.prAtomic then s.rcv.tail
      else if first s.rcv = [] then s.rcv.tail else s.rcv
    pc := if s.origResid = s.resid ∧ s.origResid ≠ 0 ∧ ¬s.msgEor ∧ ¬s.so.ssCantrcvmore then .restart else .done }

def State.len (s : State) (mb : Rmbuf) : Nat :=
  let toMark := if s.so.soOobmark ≠ 0 then (s.so.soOobmark - BitVec.ofNat 32 s.offset).toNat else s.resid
  min (min s.resid toMark) (mb.data.length - s.moff)

def moveOut (c : Call) (s : State) (a : Event) (j : Nat) (mb : Rmbuf) : State :=
  if c.mp then { s with resid := s.resid - s.len mb }
  else
    let copied := if a.error = 0 then s.len mb else min a.moved (s.len mb)
    { s.sleep a with
      resid := s.resid - copied
      error := a.error
      out := s.out ++ places j s.moff ((mb.data.drop s.moff).take copied) }

def advance (c : Call) (s : State) (j len : Nat) : State :=
  let mb := ((first s.rcv)[j]?).getD { data := [] }
  if len = mb.data.length - s.moff then
    if c.msgPeek then { s with m := pointer (first s.rcv) (j + 1), moff := 0, msgEor := s.msgEor || mb.mEor }
    else
      { s with
        rcv := dropMbufs 1 s.rcv
        nextrecord := s.rcv.tail ≠ []
        m := pointer ((first s.rcv).drop 1) 0
        msgEor := s.msgEor || mb.mEor }
  else if c.msgPeek then { s with moff := s.moff + len }
  else { s with rcv := trimMbuf len s.rcv }

def State.passMark (s : State) (c : Call) (len : Nat) : State :=
  if s.so.soOobmark = 0 then s
  else if c.msgPeek then { s with offset := s.offset + len }
  else { s with so := { s.so with soOobmark := s.so.soOobmark - BitVec.ofNat 32 len } }

def Marked (c : Call) (s : State) (len : Nat) : Prop :=
  s.so.soOobmark ≠ 0 ∧ if c.msgPeek then s.offset + len = s.so.soOobmark.toNat else s.so.soOobmark.toNat = len

instance (c : Call) (s : State) (len : Nat) : Decidable (Marked c s len) := inferInstanceAs (Decidable (_ ∧ _))

def turnEnd (c : Call) (s : State) (len : Nat) : State :=
  let stops := Marked c s len
  let s := s.passMark c len
  if stops then finish c s
  else if s.msgEor then finish c s
  else if (c.msgWaitall ∧ s.m = none ∧ 0 < s.resid ∧ ¬c.prAtomic ∧ ¬s.nextrecord) ∧ s.so.soError = 0 ∧
      ¬s.so.ssCantrcvmore then
    { s with pc := .waitall }
  else { s with pc := .loop }

def turn (c : Call) (s : State) (a : Event) : State :=
  match s.m.bind fun j => (first s.rcv)[j]?.map fun mb => (j, mb) with
  | none => finish c s
  | some (j, mb) =>
    if s.resid = 0 ∨ s.error ≠ 0 ∨ (mb.mType = .oobdata) ≠ (s.type = .oobdata) then finish c s
    else turnEnd c (advance c (moveOut c s a j mb) j (s.len mb)) (s.len mb)

def step (c : Call) (s : State) (a : Event) : Option State :=
  match s.pc with
  | .start =>
    if c.msgOob then
      some { s with
        pc := .done
        error := a.error
        oob := a.oob
        out := places 0 0 (a.oob.take (min s.resid (if a.error = 0 then a.oob.length else a.moved))) }
    else some { s with pc := .restart }
  | .restart =>
    if a.error ≠ 0 then some { s.sleep a with pc := .done, error := a.error }
    else some (locked c (s.sleep a) a.externalize)
  | .sbwait => some { s.sleep a with pc := if a.error ≠ 0 then .done else .restart, error := a.error }
  | .loop => some (turn c s a)
  | .waitall =>
    if a.error ≠ 0 then some { s.sleep a with pc := .done, error := 0 }
    else
      let s := s.sleep a
      if first s.rcv ≠ [] then some { s with m := some 0, nextrecord := s.rcv.tail ≠ [], pc := .loop, error := 0 }
      else if s.so.soError ≠ 0 ∨ s.so.ssCantrcvmore then some { s with pc := .loop, error := 0 }
      else some { s with error := 0 }
  | .done => none

inductive Grows : Record → Record → Prop where
  | nil (r : Record) : Grows [] r
  | last {m m' : Rmbuf} (more : Record) (htype : m'.mType = m.mType) (hdata : m.data <+: m'.data) : Grows [m] (m' :: more)
  | cons (m : Rmbuf) {m₁ : Rmbuf} {r r' : Record} (h : Grows (m₁ :: r) r') : Grows (m :: m₁ :: r) (m :: r')

structure Begins (c : Call) (r : Record) (k : Nat) : Prop where
  lead : ∀ i m, i < k → r[i]? = some m → (c.prAddr = true ∧ i = 0) ∨ m.mType = .control
  addr : c.prAddr = true → 0 < k
  data : ∀ m, r[k]? = some m → m.mType ≠ .control

def Prefix (c : Call) (s : State) : Prop :=
  if c.msgOob then s.out <+: places 0 0 s.oob
  else s.out = [] ∨ ∃ k, Begins c (first s.rcv) k ∧ s.out <+: stream k ((first s.rcv).drop k)

def Starts (s : State) : Prop := s.pc = .start ∧ s.appended = s.rcv ∧ s.origResid = s.resid ∧ s.out = [] ∧ s.m = none

def Sleeps (s : State) (a : Event) : Prop :=
  Grows (first s.rcv) (first (a.append s.rcv)) ∧ (s.pc = .waitall → a.error ≠ 0)

variable {c : Call} {s s' : State} {a : Event} {r r' front rest more : Record} {m m' mb : Rmbuf} {j k i n off : Nat}
  {bytes bytes' : List Byte}

theorem places_append (j off : Nat) (bytes bytes' : List Byte) :
    places j off (bytes ++ bytes') = places j off bytes ++ places j (off + bytes.length) bytes' := by
  induction bytes generalizing off with
  | nil => rfl
  | cons b bytes ih =>
    rw [List.cons_append, places, places, ih, List.cons_append, List.length_cons]
    congr 3
    omega

theorem places_mono (h : bytes <+: bytes') : places j off bytes <+: places j off bytes' := by
  obtain ⟨more, rfl⟩ := h
  rw [places_append]
  exact List.prefix_append ..

theorem stream_append (j : Nat) (r r' : Record) : stream j (r ++ r') = stream j r ++ stream (j + r.length) r' := by
  induction r generalizing j with
  | nil => rfl
  | cons m r ih =>
    rw [List.cons_append, stream, stream, ih, List.append_assoc, List.length_cons]
    congr 3
    omega

theorem stream_upto (hk : k ≤ front.length) (n : Nat) :
    stream k (front.drop k) ++ places front.length 0 (mb.data.take n) <+: stream k ((front ++ mb :: rest).drop k) := by
  have hlen : k + (front.drop k).length = front.length := by rw [List.length_drop]; omega
  rw [List.drop_append_of_le_length hk, stream_append, hlen, stream]
  refine (List.prefix_append_right_inj _).2 ((places_mono (List.take_prefix n mb.data)).trans ?_)
  exact List.prefix_append ..

theorem stream_next (hk : k ≤ front.length) :
    stream k ((front ++ [mb]).drop k) = stream k (front.drop k) ++ places front.length 0 mb.data := by
  have hlen : k + (front.drop k).length = front.length := by rw [List.length_drop]; omega
  rw [List.drop_append_of_le_length hk, stream_append, hlen, stream, stream, List.append_nil]

theorem nodup_places (j off : Nat) (bytes : List Byte) : (places j off bytes).Nodup ∧
    ∀ p ∈ places j off bytes, p.mbuf = j ∧ off ≤ p.off := by
  induction bytes generalizing off with
  | nil => exact ⟨List.nodup_nil, fun p hp => by cases hp⟩
  | cons b bytes ih =>
    obtain ⟨hnodup, hmem⟩ := ih (off + 1)
    rw [places]
    refine ⟨List.nodup_cons.2 ⟨fun hp => ?_, hnodup⟩, fun p hp => ?_⟩
    · exact absurd (hmem _ hp).2 (by dsimp only; omega)
    · obtain rfl | hp := List.mem_cons.1 hp
      · exact ⟨rfl, le_refl _⟩
      · exact ⟨(hmem p hp).1, (Nat.le_succ off).trans (hmem p hp).2⟩

theorem nodup_stream (j : Nat) (r : Record) : (stream j r).Nodup ∧ ∀ p ∈ stream j r, j ≤ p.mbuf := by
  induction r generalizing j with
  | nil => exact ⟨List.nodup_nil, fun p hp => by cases hp⟩
  | cons m r ih =>
    obtain ⟨hnodup, hmem⟩ := ih (j + 1)
    obtain ⟨hplaces, hat⟩ := nodup_places j 0 m.data
    rw [stream]
    refine ⟨List.nodup_append.2 ⟨hplaces, hnodup, ?_⟩, fun p hp => ?_⟩
    · rintro p hp q hq rfl
      have hthere := (hat p hp).1
      have hlater := hmem p hq
      omega
    · obtain hp | hp := List.mem_append.1 hp
      · exact (hat p hp).1.ge
      · exact (Nat.le_succ j).trans (hmem p hp)

theorem Prefix.nodup (h : Prefix c s) : s.out.Nodup := by
  unfold Prefix at h
  split at h
  · exact (nodup_places _ _ _).1.sublist h.sublist
  · obtain hnil | ⟨k, -, hprefix⟩ := h
    · rw [hnil]
      exact List.nodup_nil
    · exact (nodup_stream _ _).1.sublist hprefix.sublist

theorem Grows.drop (h : Grows r r') (k : Nat) : Grows (r.drop k) (r'.drop k) := by
  induction h generalizing k with
  | nil r => rw [List.drop_nil]; exact .nil _
  | last more htype hdata =>
    cases k with
    | zero => exact .last more htype hdata
    | succ k => rw [List.drop_succ_cons, List.drop_nil]; exact .nil _
  | cons m h ih =>
    cases k with
    | zero => exact .cons m h
    | succ k => exact ih k

theorem Grows.split (h : Grows (front ++ mb :: rest) r') :
    ∃ mb' rest', r' = front ++ mb' :: rest' ∧ mb'.mType = mb.mType ∧ mb.data <+: mb'.data := by
  induction front generalizing r' with
  | nil =>
    cases h with
    | last more htype hdata => exact ⟨_, more, rfl, htype, hdata⟩
    | cons _ _ => exact ⟨mb, _, rfl, rfl, List.prefix_rfl⟩
  | cons x front ih =>
    obtain ⟨y, tail, htail⟩ : ∃ y tail, front ++ mb :: rest = y :: tail := by
      cases front with
      | nil => exact ⟨mb, rest, rfl⟩
      | cons y front => exact ⟨y, _, rfl⟩
    rw [List.cons_append, htail] at h
    cases h with
    | cons _ h =>
      rw [← htail] at h
      obtain ⟨mb', rest', rfl, htype, hdata⟩ := ih h
      exact ⟨mb', rest', rfl, htype, hdata⟩

theorem Grows.mType (h : Grows r r') (hi : i < r.length) : r'[i]?.map Rmbuf.mType = r[i]?.map Rmbuf.mType := by
  have hget : r[i]? = some r[i] := List.getElem?_eq_getElem hi
  have hr : r = r.take i ++ r[i] :: r.drop (i + 1) := by rw [List.cons_getElem_drop_succ, List.take_append_drop]
  have hlen : (r.take i).length = i := by rw [List.length_take]; omega
  rw [hr] at h
  obtain ⟨mb', rest', rfl, htype, -⟩ := h.split
  rw [hget, List.getElem?_append_right (by omega), hlen, Nat.sub_self, List.getElem?_cons_zero, Option.map_some, Option.map_some,
    htype]

theorem Begins.grow (hb : Begins c r k) (hk : k < r.length) (h : Grows r r') : Begins c r' k := by
  refine ⟨fun i m hi hm => ?_, hb.addr, fun m hm => ?_⟩
  · have htype := h.mType (hi.trans hk)
    rw [hm] at htype
    obtain ⟨m', hm', heq⟩ := Option.map_eq_some_iff.1 htype.symm
    exact heq ▸ hb.lead i m' hi hm'
  · have htype := h.mType hk
    rw [hm] at htype
    obtain ⟨m', hm', heq⟩ := Option.map_eq_some_iff.1 htype.symm
    exact heq ▸ hb.data m' hm'

def At (c : Call) (s : State) (j : Nat) : Prop :=
  ∃ front mb rest k, first s.rcv = front ++ mb :: rest ∧ front.length = j ∧ s.moff ≤ mb.data.length ∧ k ≤ j ∧
    Begins c (first s.rcv) k ∧ (c.mp = false → s.out = stream k (front.drop k) ++ places j 0 (mb.data.take s.moff))

structure Kept (c : Call) (s : State) : Prop where
  same : s.rcv = s.appended
  isPrefix : s.out = [] ∨ ∃ k, Begins c (first s.rcv) k ∧ s.out <+: stream k ((first s.rcv).drop k)
  mp : c.mp = true → s.out = []
  count : c.mp = false → s.origResid = 0 ∨ s.origResid = s.resid + s.out.length

structure Inv (c : Call) (s : State) : Prop extends Kept c s where
  early : s.pc = .start ∨ s.pc = .restart ∨ s.pc = .sbwait → s.out = []
  at' : ∀ j, s.m = some j → s.error = 0 → s.pc = .loop → At c s j

theorem Kept.inv (h : Kept c s) (hpc : s.pc = .waitall ∨ s.pc = .done) : Inv c s where
  toKept := h
  early hearly := by
    obtain hpc | hpc := hpc <;> rw [hpc] at hearly <;> obtain hearly | hearly | hearly := hearly <;> cases hearly
  at' _ _ _ hloop := by
    obtain hpc | hpc := hpc <;> rw [hpc] at hloop <;> cases hloop

theorem Kept.inv_loop (h : Kept c s) (hpc : s.pc = .loop) (hat : ∀ j, s.m = some j → s.error = 0 → At c s j) : Inv c s where
  toKept := h
  early hearly := by
    rw [hpc] at hearly
    obtain hearly | hearly | hearly := hearly <;> cases hearly
  at' j hm herror _ := hat j hm herror

theorem Kept.finish (hpeek : c.msgPeek = true) (h : Kept c s) : Inv c (finish c s) := by
  have hrcv : (Soreceive.finish c s).rcv = s.rcv := if_pos hpeek
  refine ⟨⟨hrcv.trans h.same, by rw [hrcv]; exact h.isPrefix, h.mp, h.count⟩, fun hpc => ?_, fun j _ _ hpc => ?_⟩
  · change s.out = []
    cases hmp : c.mp with
    | true => exact h.mp hmp
    | false =>
      unfold Soreceive.finish at hpc
      dsimp only at hpc
      split at hpc
      · rename_i hall
        have := h.count hmp
        exact List.length_eq_zero_iff.1 (by omega)
      · obtain hpc | hpc | hpc := hpc <;> cases hpc
  · unfold Soreceive.finish at hpc
    dsimp only at hpc
    split at hpc <;> cases hpc

theorem pointer_eq_some (h : pointer r n = some j) : j = n ∧ n < r.length := by
  unfold pointer at h
  split at h
  · exact ⟨(Option.some.inj h).symm, ‹_›⟩
  · cases h

theorem split_at (h : n < r.length) : r = r.take n ++ r[n] :: r.drop (n + 1) ∧ (r.take n).length = n :=
  ⟨by rw [List.cons_getElem_drop_succ, List.take_append_drop], by rw [List.length_take]; omega⟩

structure Moved (c : Call) (s : State) (j len : Nat) : Prop where
  same : s.rcv = s.appended
  mp : c.mp = true → s.out = []
  count : c.mp = false → s.origResid = 0 ∨ s.origResid = s.resid + s.out.length
  place : ∃ front mb rest k, first s.rcv = front ++ mb :: rest ∧ front.length = j ∧ k ≤ j ∧ Begins c (first s.rcv) k ∧
    s.moff + len ≤ mb.data.length ∧
    (c.mp = false → ∃ n ≤ s.moff + len, s.out = stream k (front.drop k) ++ places j 0 (mb.data.take n) ∧
      (s.error = 0 → n = s.moff + len))

theorem Moved.advance {len : Nat} (hpeek : c.msgPeek = true) (h : Moved c s j len) (hm : s.m = some j) :
    Kept c (advance c s j len) ∧
      ∀ i, (advance c s j len).m = some i → (advance c s j len).error = 0 → At c (advance c s j len) i := by
  obtain ⟨front, mb, rest, k, hfirst, rfl, hk, hb, hlen, hout⟩ := h.place
  have hget : ((first s.rcv)[front.length]?).getD { data := [] } = mb := by
    rw [hfirst, List.getElem?_append_right (le_refl _), Nat.sub_self, List.getElem?_cons_zero, Option.getD_some]
  have hprefix : s.out = [] ∨ ∃ k, Begins c (first s.rcv) k ∧ s.out <+: stream k ((first s.rcv).drop k) := by
    cases hmp : c.mp with
    | true => exact .inl (h.mp hmp)
    | false =>
      obtain ⟨n, -, hout, -⟩ := hout hmp
      refine .inr ⟨k, hb, ?_⟩
      rw [hout, hfirst]
      exact stream_upto hk n
  unfold Soreceive.advance
  dsimp only
  rw [hget]
  by_cases hall : len = mb.data.length - s.moff
  · rw [if_pos hall, if_pos hpeek]
    refine ⟨⟨h.same, hprefix, h.mp, h.count⟩, fun i hi herror => ?_⟩
    obtain ⟨rfl, hlt⟩ := pointer_eq_some hi
    obtain ⟨mb', rest', rfl⟩ : ∃ mb' rest', rest = mb' :: rest' := by
      cases rest with
      | nil =>
        rw [hfirst, List.length_append, List.length_singleton] at hlt
        omega
      | cons mb' rest' => exact ⟨mb', rest', rfl⟩
    refine ⟨front ++ [mb], mb', rest', k, ?_, by rw [List.length_append, List.length_singleton], Nat.zero_le _, by omega, hb,
      fun hmp => ?_⟩
    · rw [List.append_assoc]
      exact hfirst
    · obtain ⟨n, -, hout, hn⟩ := hout hmp
      have hfull : n = mb.data.length := by rw [hn herror]; omega
      change s.out = _ ++ places _ 0 []
      rw [hout, hfull, List.take_length, stream_next hk, places, List.append_nil]
  · rw [if_neg hall, if_pos hpeek]
    refine ⟨⟨h.same, hprefix, h.mp, h.count⟩, fun i hi herror => ?_⟩
    obtain rfl := Option.some.inj (hm.symm.trans hi)
    refine ⟨front, mb, rest, k, hfirst, rfl, hlen, hk, hb, fun hmp => ?_⟩
    obtain ⟨n, -, hout, hn⟩ := hout hmp
    change s.out = _ ++ places _ 0 (mb.data.take (s.moff + len))
    rw [hout, hn herror]

theorem passMark_eq (hpeek : c.msgPeek = true) (len : Nat) : ∃ offset, s.passMark c len = { s with offset } := by
  unfold State.passMark
  split
  · exact ⟨s.offset, rfl⟩
  · exact ⟨s.offset + len, rfl⟩

theorem Kept.passMark (h : Kept c s) (hpeek : c.msgPeek = true) (len : Nat) : Kept c (s.passMark c len) := by
  obtain ⟨offset, hoffset⟩ := passMark_eq hpeek len
  rw [hoffset]
  exact ⟨h.same, h.isPrefix, h.mp, h.count⟩

theorem at_passMark (hpeek : c.msgPeek = true) (len : Nat) (hat : ∀ i, s.m = some i → s.error = 0 → At c s i) :
    ∀ i, (s.passMark c len).m = some i → (s.passMark c len).error = 0 → At c (s.passMark c len) i := by
  obtain ⟨offset, hoffset⟩ := passMark_eq hpeek len
  rw [hoffset]
  exact hat

theorem Kept.turnEnd {len : Nat} (hpeek : c.msgPeek = true) (h : Kept c s) (hat : ∀ i, s.m = some i → s.error = 0 → At c s i) :
    Inv c (turnEnd c s len) := by
  unfold Soreceive.turnEnd
  dsimp only
  have hkept := h.passMark hpeek len
  replace hat := at_passMark hpeek len hat
  generalize s.passMark c len = s at hkept hat
  split
  · exact hkept.finish hpeek
  split
  · exact hkept.finish hpeek
  split
  · exact Kept.inv ⟨hkept.same, hkept.isPrefix, hkept.mp, hkept.count⟩ (.inl rfl)
  · exact Kept.inv_loop ⟨hkept.same, hkept.isPrefix, hkept.mp, hkept.count⟩ rfl hat

def waiting : State := { rcv := [[{ data := [1, 2] }]], appended := [[{ data := [1, 2] }]], resid := 20, origResid := 20 }

def again : State :=
  { pc := .waitall, rcv := [[{ data := [1, 2, 3, 4] }]], appended := [[{ data := [1, 2, 3, 4] }]], resid := 14, origResid := 20
    out := places 0 0 [1, 2] ++ places 0 0 [1, 2, 3, 4] }

end NetBSD.Uipc.Soreceive
