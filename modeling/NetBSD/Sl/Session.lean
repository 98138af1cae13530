import NetBSD.Sl.Coding

/-!
# Compression loses nothing

A line carries what the compressor makes of a sequence of packets to the decompressor. The saved
headers of both sides agree in every state that is in use, apart from the checksum, which the
decompressor keeps at zero, and every packet arrives as it was.
-/

namespace NetBSD.Sl

structure Line where
  comp : Slcompress
  decomp : Slcompress

def Line.init (maxState : Int) : Line := ⟨slCompressInit maxState, slCompressInit maxState⟩

def Line.send (line : Line) (mLen : Nat) (p : Packet) (compressCid : Bool) :
    Option (Line × Option Packet) :=
  let (comp, frame) := slCompressTcp line.comp mLen p compressCid
  match frame with
  | .ip p => some ({ line with comp := comp }, some p)
  | frame => (slUncompressTcp line.decomp frame).map fun (decomp, p) => (⟨comp, decomp⟩, p)

def CState.InUse (cs : CState) : Prop := cs.hdr.ipHl ≠ 0

def UrgLeft (comp : Slcompress) (mLen : Nat) (p : Header) : Prop :=
  Compressible mLen p ∧ ∃ cs others changes newSeq, findState p comp.tstate = some (cs, others)
    ∧ cs.hdr.urg = true ∧ allChanges p cs.hdr = some (changes, newSeq)
    ∧ (changes &&& specialsMask = specialI ∨ changes &&& specialsMask = specialD)

def Sendable (comp : Slcompress) (mLen : Nat) (p : Packet) : Prop :=
  p.WellFormed ∧ p.hdr.ip.ipSum ≠ 0xffff ∧ ¬ UrgLeft comp mLen p.hdr

inductive Line.Reaches (Kind : Slcompress → Nat → Packet → Prop) (maxState : Int) : Line → Prop where
  | init : Reaches Kind maxState (Line.init maxState)
  | send {line line' : Line} {mLen : Nat} {p : Packet} {compressCid : Bool} {out : Option Packet}
      (h : Reaches Kind maxState line) (hp : Kind line.comp mLen p)
      (hsend : line.send mLen p compressCid = some (line', out)) : Reaches Kind maxState line'

theorem findState_some {p : Header} {states others : List CState} {cs : CState}
    (h : findState p states = some (cs, others)) :
    cs.Matches p ∧ states.Perm (cs :: others) := by
  induction states generalizing others with
  | nil => simp [findState] at h
  | cons first rest ih =>
    unfold findState at h
    split at h
    · next hmatch =>
      simp only [Option.some.injEq, Prod.mk.injEq] at h
      obtain ⟨rfl, rfl⟩ := h
      exact ⟨hmatch, List.Perm.refl _⟩
    · obtain ⟨⟨found, left⟩, hrest, heq⟩ := Option.map_eq_some_iff.mp h
      simp only [Prod.mk.injEq] at heq
      obtain ⟨rfl, rfl⟩ := heq
      obtain ⟨hmatch, hperm⟩ := ih hrest
      exact ⟨hmatch, (hperm.cons first).trans (List.Perm.swap found first left)⟩

theorem perm_getLast {states : List CState} {cs : CState} (h : states.getLast? = some cs) :
    states.Perm (cs :: states.dropLast) := by
  obtain ⟨front, rfl⟩ := List.getLast?_eq_some_iff.mp h
  rw [List.dropLast_concat]
  exact List.perm_append_singleton cs front

def Saved (h : Header) (cs : RState) : Prop :=
  h.WellFormed ∧ h.OnlyAck ∧ cs = ⟨h.zeroSum, h.hlen⟩

structure Synced (line : Line) : Prop where
  nonempty : line.comp.tstate ≠ []
  nodup : (line.comp.tstate.map CState.csId).Nodup
  range : ∀ cs ∈ line.comp.tstate, cs.csId.toNat < maxStates
  saved : ∀ cs ∈ line.comp.tstate, cs.hdr = {} ∨ Saved cs.hdr (line.decomp.rstate cs.csId)
  xmit : line.comp.lastXmit.toNat < maxStates →
    line.decomp.lastRecv = line.comp.lastXmit ∧ line.decomp.toss = false

section Synced

variable {line line' : Line} {cs : CState} {others : List CState} {h : Header}

theorem Synced.save (hsync : Synced line) (hperm : line.comp.tstate.Perm (cs :: others))
    (hwf : h.WellFormed) (hack : h.OnlyAck)
    (htstate : line'.comp.tstate = { cs with hdr := h } :: others)
    (hxmit : line'.comp.lastXmit = cs.csId) (hrecv : line'.decomp.lastRecv = cs.csId)
    (htoss : line'.decomp.toss = false)
    (hrstate : ∀ id, line'.decomp.rstate id =
      if id = cs.csId then ⟨h.zeroSum, h.hlen⟩ else line.decomp.rstate id) :
    Synced line' := by
  have hids : (cs.csId :: others.map CState.csId).Nodup := (hperm.map CState.csId).nodup_iff.mp hsync.nodup
  refine ⟨?_, ?_, ?_, ?_, fun _ => ⟨hrecv.trans hxmit.symm, htoss⟩⟩
  · rw [htstate]
    simp
  · rw [htstate]
    exact hids
  · rw [htstate]
    intro x hx
    rcases List.mem_cons.mp hx with rfl | hx
    · exact hsync.range cs (hperm.mem_iff.mpr List.mem_cons_self)
    · exact hsync.range x (hperm.mem_iff.mpr (List.mem_cons_of_mem _ hx))
  · rw [htstate]
    intro x hx
    rcases List.mem_cons.mp hx with rfl | hx
    · exact Or.inr ⟨hwf, hack, (hrstate cs.csId).trans (if_pos rfl)⟩
    · have hne : x.csId ≠ cs.csId := by
        intro heq
        exact (List.nodup_cons.mp hids).1 (heq ▸ List.mem_map_of_mem hx)
      rw [hrstate, if_neg hne]
      exact hsync.saved x (hperm.mem_iff.mpr (List.mem_cons_of_mem _ hx))

theorem Synced.sendUncompressed (hsync : Synced line) (hperm : line.comp.tstate.Perm (cs :: others))
    {p : Packet} (hp : p.WellFormed) (hack : p.hdr.OnlyAck) :
    ∃ decomp, slUncompressTcp line.decomp (sendUncompressed line.comp cs others p).2 = some (decomp, some p)
      ∧ Synced ⟨(sendUncompressed line.comp cs others p).1, decomp⟩ := by
  have hrange : ¬ maxStates ≤ cs.csId.toNat :=
    not_le.mpr (hsync.range cs (hperm.mem_iff.mpr List.mem_cons_self))
  have hhdr : ({ p.hdr with ip := { p.hdr.ip with ipP := ipprotoTcp } } : Header) = p.hdr := by
    rw [← hp.hdr.ipP_eq]
  simp only [Sl.sendUncompressed, slUncompressTcp, if_neg hrange, hhdr]
  refine ⟨_, rfl, hsync.save (h := p.hdr) hperm hp.hdr hack rfl rfl rfl rfl fun id => ?_⟩
  simp only [← hp.hdr.ipP_eq]
  rfl

theorem slUncompressTcp_explicit {comp : Slcompress} {changes id : Byte} {cp : List Byte}
    (hnewC : changes &&& newC ≠ 0) (hid : id.toNat < maxStates) :
    slUncompressTcp comp (.compressedTcp (changes :: id :: cp))
      = uncompressRest { comp with toss := false, lastRecv := id } changes cp := by
  simp only [slUncompressTcp]
  rw [if_pos hnewC, if_neg (not_le.mpr hid)]

theorem slUncompressTcp_implicit {comp : Slcompress} {changes : Byte} {cp : List Byte}
    (hnewC : ¬ changes &&& newC ≠ 0) (htoss : comp.toss = false) :
    slUncompressTcp comp (.compressedTcp (changes :: cp)) = uncompressRest comp changes cp := by
  simp only [slUncompressTcp]
  rw [if_neg hnewC, if_neg (by simp [htoss])]

theorem uncompressRest_allChanges (decomp : Slcompress) {o : Header} {p : Packet} {changes : Byte}
    {newSeq : List Byte} (hp : p.WellFormed) (hack : p.hdr.OnlyAck) (hsum : p.hdr.ip.ipSum ≠ 0xffff)
    (hsaved : Saved o (decomp.rstate decomp.lastRecv)) (hconn : SameConn p.hdr o)
    (hall : allChanges p.hdr o = some (changes, newSeq))
    (hurg : o.urg = true →
      changes &&& specialsMask ≠ specialI ∧ changes &&& specialsMask ≠ specialD) (c : Bool) :
    uncompressRest decomp (changes ||| bitIf c newC)
        ([(p.hdr.th.thSum >>> 8).setWidth 8, p.hdr.th.thSum.setWidth 8] ++ newSeq ++ p.data)
      = some ({ decomp with
          rstate := fun id =>
            if id = decomp.lastRecv then ⟨p.hdr.zeroSum, p.hdr.hlen⟩ else decomp.rstate id }, some p) := by
  obtain ⟨ho, hoack, hrs⟩ := hsaved
  have hrebuild := rebuild_allChanges hp hack hsum ho hoack hconn hall hurg c
  have hhlen : o.hlen = p.hdr.hlen := (allChanges_eq_some hall).1.hlen_eq
  simp only [uncompressRest, List.cons_append, List.nil_append, word_bytes, hrs, hrebuild,
    Option.map_some, ← hhlen]
  congr 4
  funext id
  split
  · next hid => rw [hid, hrs]
  · rfl

theorem Synced.sendCompressed (hsync : Synced line) (hperm : line.comp.tstate.Perm (cs :: others))
    {p : Packet} (hp : p.WellFormed) (hack : p.hdr.OnlyAck) (hsum : p.hdr.ip.ipSum ≠ 0xffff)
    (hmatch : cs.Matches p.hdr) {changes : Byte} {newSeq : List Byte}
    (hall : allChanges p.hdr cs.hdr = some (changes, newSeq))
    (hurg : cs.hdr.urg = true →
      changes &&& specialsMask ≠ specialI ∧ changes &&& specialsMask ≠ specialD)
    (compressCid : Bool) :
    ∃ decomp, slUncompressTcp line.decomp (sendCompressed line.comp cs others p compressCid changes newSeq).2
        = some (decomp, some p)
      ∧ Synced ⟨(sendCompressed line.comp cs others p compressCid changes newSeq).1, decomp⟩ := by
  have hmem : cs ∈ line.comp.tstate := hperm.mem_iff.mpr List.mem_cons_self
  have hrange : ¬ maxStates ≤ cs.csId.toNat := not_le.mpr (hsync.range cs hmem)
  have hsaved : Saved cs.hdr (line.decomp.rstate cs.csId) := by
    refine (hsync.saved cs hmem).resolve_left fun hempty => ?_
    -- a state that was never used does not have the IP version and header length of a packet
    have hvhl := (allChanges_eq_some hall).1.expected.1
    have hhl := hp.hdr.ipHl_ge
    rw [Header.ipHl, hvhl, hempty] at hhl
    exact absurd hhl (by decide)
  have hnewC := allChanges_newC hall
  unfold Sl.sendCompressed
  by_cases hexplicit : compressCid = false ∨ line.comp.lastXmit ≠ cs.csId
  · have hrest := uncompressRest_allChanges { line.decomp with toss := false, lastRecv := cs.csId }
      hp hack hsum hsaved hmatch hall hurg true
    rw [← slUncompressTcp_explicit ((hnewC true).mpr rfl) (not_le.mp hrange)] at hrest
    rw [if_pos hexplicit]
    exact ⟨_, hrest, hsync.save hperm hp.hdr hack rfl rfl rfl rfl fun id => rfl⟩
  · rw [not_or, not_not] at hexplicit
    obtain ⟨hrecv, htoss⟩ := hsync.xmit (hexplicit.2 ▸ not_le.mp hrange)
    have hlast : line.decomp.lastRecv = cs.csId := hrecv.trans hexplicit.2
    have hrest := uncompressRest_allChanges line.decomp hp hack hsum (hlast ▸ hsaved) hmatch hall hurg false
    rw [← slUncompressTcp_implicit (mt (hnewC false).mp (by simp)) htoss] at hrest
    rw [if_neg (by simpa [hexplicit.2] using hexplicit.1)]
    rw [show bitIf false newC = 0#8 from rfl, BitVec.or_zero] at hrest
    refine ⟨_, hrest, hsync.save hperm hp.hdr hack rfl rfl hlast htoss fun id => ?_⟩
    simp only [hlast]

theorem Line.send_eq {mLen : Nat} {p : Packet} {compressCid : Bool} {comp decomp : Slcompress}
    {frame : Frame} {out : Option Packet}
    (hcompress : slCompressTcp line.comp mLen p compressCid = (comp, frame)) (hframe : ∀ q, frame ≠ .ip q)
    (hdecomp : slUncompressTcp line.decomp frame = some (decomp, out)) :
    line.send mLen p compressCid = some (⟨comp, decomp⟩, out) := by
  unfold Line.send
  rw [hcompress]
  cases frame with
  | ip q => exact absurd rfl (hframe q)
  | uncompressedTcp q => simp only [hdecomp, Option.map_some]
  | compressedTcp bytes => simp only [hdecomp, Option.map_some]

theorem Synced.send (hsync : Synced line) {mLen : Nat} {p : Packet} (hp : Sendable line.comp mLen p)
    (compressCid : Bool) :
    ∃ line', line.send mLen p compressCid = some (line', some p) ∧ Synced line' := by
  obtain ⟨hwf, hsum, hurg⟩ := hp
  by_cases hcompressible : Compressible mLen p.hdr
  · have hack : p.hdr.OnlyAck := hcompressible.2.2
    cases hfind : findState p.hdr line.comp.tstate with
    | none =>
      obtain ⟨cs, hlast⟩ := Option.isSome_iff_exists.mp (List.getLast?_isSome.mpr hsync.nonempty)
      obtain ⟨decomp, hdecomp, hsync'⟩ := hsync.sendUncompressed (perm_getLast hlast) hwf hack
      refine ⟨_, line.send_eq ?_ (fun q => ?_) hdecomp, hsync'⟩
      · simp only [slCompressTcp, hcompressible, not_true, if_false, hfind, hlast]
      · simp [Sl.sendUncompressed]
    | some found =>
      obtain ⟨cs, others⟩ := found
      obtain ⟨hmatch, hperm⟩ := findState_some hfind
      cases hall : allChanges p.hdr cs.hdr with
      | none =>
        obtain ⟨decomp, hdecomp, hsync'⟩ := hsync.sendUncompressed hperm hwf hack
        refine ⟨_, line.send_eq ?_ (fun q => ?_) hdecomp, hsync'⟩
        · simp only [slCompressTcp, hcompressible, not_true, if_false, hfind, hall]
        · simp [Sl.sendUncompressed]
      | some out =>
        obtain ⟨changes, newSeq⟩ := out
        have hclear : cs.hdr.urg = true →
            changes &&& specialsMask ≠ specialI ∧ changes &&& specialsMask ≠ specialD := by
          intro hold
          rw [← not_or]
          exact fun hspecial =>
            hurg ⟨hcompressible, cs, others, changes, newSeq, hfind, hold, hall, hspecial⟩
        obtain ⟨decomp, hdecomp, hsync'⟩ :=
          hsync.sendCompressed hperm hwf hack hsum hmatch hall hclear compressCid
        refine ⟨_, line.send_eq ?_ (fun q => ?_) hdecomp, hsync'⟩
        · simp only [slCompressTcp, hcompressible, not_true, if_false, hfind, hall]
        · simp [Sl.sendCompressed]
  · refine ⟨line, ?_, hsync⟩
    simp only [Line.send, slCompressTcp, hcompressible, not_false_eq_true, if_true]

end Synced

end NetBSD.Sl
