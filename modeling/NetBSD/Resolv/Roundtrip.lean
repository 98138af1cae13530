import NetBSD.Resolv.Compress

/-!
# Names that are compressed and expanded

Any names may be put into a message one after another, with other data between them: each of them is expanded to its
labels.
-/

namespace NetBSD.Resolv

open Lib (Runs)

structure Entry where
  pos : Nat
  labels : List Label
  len : Nat

structure Packet where
  msg : Message
  size : Nat
  dnptrs : Dnptrs
  names : List Entry

inductive PacketCall where
  | name (labels : List Label) (trailing : Bool) (length : Nat)
  | data (bytes : List Byte)

def textOf (labels : List Label) (trailing : Bool) : List Byte := if trailing then spell labels ++ [dot] else spell labels

namespace Packet

def step (p : Packet) : PacketCall → Option Packet
  | .name labels trailing length =>
    (dnComp p.size (textOf labels trailing) p.size length p.dnptrs p.msg).map fun r =>
      if r.len < 0 then { p with msg := r.msg, dnptrs := r.dnptrs }
      else {
        msg := r.msg
        size := p.size + r.len.toNat
        dnptrs := r.dnptrs
        names := p.names ++ [⟨p.size, labels, r.len.toNat⟩] }
  | .data bytes => some { p with msg := store p.msg p.size bytes, size := p.size + bytes.length }

def Empty (p : Packet) : Prop := p.dnptrs.ptrs = some [] ∧ p.names = []

def Allowed (_ : Packet) : PacketCall → Prop
  | .name labels _ length => (∀ l ∈ labels, Clean l) ∧ wireLength labels ≤ length
  | .data _ => True

structure Good (p : Packet) : Prop where
  known : Known p.msg p.size p.dnptrs
  names : ∀ e ∈ p.names, NameAt p.msg e.pos e.pos e.labels e.len ∧ e.pos + e.len ≤ p.size ∧ ∀ l ∈ e.labels, Clean l

end Packet

variable {p p' : Packet} {labels : List Label} {trailing : Bool} {length : Nat}

theorem spells_dotted (h : ∀ m ∈ labels, Clean m) {l : Label} (hl : Clean l) (trailing : Bool) :
    Spells (escape l ++ dotted labels ++ if trailing then [dot] else []) (l :: labels) := by
  induction labels generalizing l with
  | nil =>
    have hempty : dotted [] = [] := rfl
    rw [hempty, List.append_nil]
    cases trailing with
    | true => exact .cons hl .nil
    | false =>
      rw [if_neg Bool.false_ne_true, List.append_nil]
      exact .last hl
  | cons m labels ih =>
    have hcons : dotted (m :: labels) = dot :: (escape m ++ dotted labels) := List.flatMap_cons
    have hrest := ih (fun k hk => h k (List.mem_cons_of_mem m hk)) (h m List.mem_cons_self)
    rw [hcons, List.append_assoc, List.cons_append]
    exact .cons hl hrest

theorem dnComp_spec {d : Dnptrs} {msg : Message} {size : Nat} (hlabels : ∀ l ∈ labels, Clean l)
    (hroom : wireLength labels ≤ length) (hsize : size ≤ 16384) (hknown : Known msg size d) :
    ∃ (n : Nat) (d' : Dnptrs) (msg' : Message), dnComp size (textOf labels trailing) size length d msg = some ⟨(n : Int), d', msg'⟩ ∧
      (∀ i < size, msg' i = msg i) ∧ NameAt msg' size size labels n ∧ Known msg' (size + n) d' := by
  have hwrites : Writes size (size + length) d (textOf labels trailing) labels := by
    cases labels with
    | nil =>
      cases trailing with
      | true => exact writes_dot size (size + length) d
      | false => exact writes_nil size (size + length) d
    | cons l labels =>
      refine writes_spells ?_ hsize
      have hspells := spells_dotted (fun m hm => hlabels m (List.mem_cons_of_mem l hm)) (hlabels l List.mem_cons_self)
        trailing
      rw [← spell_cons hlabels] at hspells
      cases trailing with
      | true => exact hspells
      | false =>
        rw [if_neg Bool.false_ne_true, List.append_nil] at hspells
        exact hspells
  obtain ⟨n, d', msg', hrun, hsame, hname, -, -, hptrs⟩ := hwrites ((textOf labels trailing).length + 1) size d msg
    (Nat.lt_succ_self _) le_rfl (Nat.add_le_add_left hroom size) hknown
  refine ⟨n, d', msg', ?_, hsame, hname, fun ptrs hptrs' q hq => ?_⟩
  · rw [dnComp, hrun, Nat.add_sub_cancel_left]
  · rcases hptrs ptrs hptrs' q hq with ⟨ptrs', hold, hmem⟩ | ⟨-, ms, k, hq, hk⟩
    · obtain ⟨ms, k, hq, hk⟩ := hknown ptrs' hold q hmem
      exact ⟨ms, k, hq.congr fun i hi => hsame i (by omega), by omega⟩
    · exact ⟨ms, k, hq, hk⟩

namespace Packet.Good

theorem extend (h : p.Good) {msg' : Message} {d' : Dnptrs} {size' : Nat} (hsame : ∀ i < p.size, msg' i = p.msg i)
    (hsize : p.size ≤ size') (hknown : Known msg' size' d') : Packet.Good ⟨msg', size', d', p.names⟩ := by
  refine ⟨hknown, fun e he => ?_⟩
  obtain ⟨hname, hle, hclean⟩ := h.names e he
  exact ⟨hname.congr fun i hi => hsame i (by omega), hle.trans hsize, hclean⟩

theorem name (h : p.Good) (hsize : p.size ≤ 16384) (hallowed : p.Allowed (.name labels trailing length)) :
    ∃ (n : Nat) (p' : Packet), p.step (.name labels trailing length) = some p' ∧
      p'.names = p.names ++ [⟨p.size, labels, n⟩] ∧ p'.size = p.size + n ∧ p'.Good := by
  obtain ⟨n, d', msg', hrun, hsame, hname, hknown⟩ := dnComp_spec hallowed.1 hallowed.2 hsize h.known
  refine ⟨n, ⟨msg', p.size + n, d', p.names ++ [⟨p.size, labels, n⟩]⟩, ?_, rfl, rfl, hknown, fun e he => ?_⟩
  · rw [step, hrun, Option.map_some, if_neg (by dsimp only; omega)]
    rfl
  · rcases List.mem_append.mp he with hold | hnew
    · exact (h.extend hsame (Nat.le_add_right ..) hknown).names e hold
    · rw [List.mem_singleton.mp hnew]
      exact ⟨hname, le_rfl, hallowed.1⟩

theorem data (h : p.Good) (bytes : List Byte) :
    Packet.Good { p with msg := store p.msg p.size bytes, size := p.size + bytes.length } :=
  h.extend (fun _ hi => store_of_lt hi p.msg bytes) (Nat.le_add_right ..)
    (h.known.mono (Nat.le_add_right ..) fun _ hi => store_of_lt hi p.msg bytes)

end Packet.Good

theorem Packet.size_le {call : PacketCall} (h : p.step call = some p') : p.size ≤ p'.size := by
  cases call with
  | name labels trailing length =>
    obtain ⟨r, -, rfl⟩ := Option.map_eq_some_iff.mp h
    split
    · exact le_rfl
    · exact Nat.le_add_right ..
  | data bytes =>
    obtain rfl := Option.some.inj h
    exact Nat.le_add_right ..

/-- Each name in a message of fewer than 16384 bytes is skipped and expanded over its own length, and to its labels; and
any name can be put behind it. -/
theorem names_roundtrip (hruns : Runs Packet.Empty Packet.step Packet.Allowed p) (hsize : p.size < 16384) :
    (∀ e ∈ p.names, dnSkipname p.msg e.pos p.size = some (e.len : Int) ∧
      ∀ length, (spell e.labels).length < length → ∃ text,
        dnExpand p.msg p.size e.pos length = some ((e.len : Int), text) ∧ labelsOf text = e.labels) ∧
      ∀ labels trailing length, p.Allowed (.name labels trailing length) → ∃ (n : Nat) (p' : Packet),
        p.step (.name labels trailing length) = some p' ∧ p'.names = p.names ++ [⟨p.size, labels, n⟩] ∧
          p'.size = p.size + n := by
  have hgood : p.size < 16384 → p.Good := by
    refine hruns.invariant (I := fun p => p.size < 16384 → p.Good) (fun p hempty _ => ?_) fun p call p' ih hok hstep hlt => ?_
    · obtain ⟨hptrs, hnames⟩ := hempty
      refine ⟨fun ptrs heq q hq => ?_, fun e he => ?_⟩
      · rw [hptrs] at heq
        obtain rfl := Option.some.inj heq
        cases hq
      · rw [hnames] at he
        cases he
    · have hle := Packet.size_le hstep
      have hp := ih (by omega)
      cases call with
      | name labels trailing length =>
        obtain ⟨n, p'', hrun, -, -, hp''⟩ := hp.name (by omega) hok
        rw [hstep] at hrun
        exact Option.some.inj hrun ▸ hp''
      | data bytes =>
        obtain rfl := Option.some.inj hstep
        exact hp.data bytes
  refine ⟨fun e he => ?_, fun labels trailing length hallowed => ?_⟩
  · obtain ⟨hname, hle, hclean⟩ := (hgood hsize).names e he
    exact ⟨dnSkipname_spec hname hle, fun length hroom => ⟨_, dnExpand_spec hname hle hroom, labelsOf_spell hclean⟩⟩
  · obtain ⟨n, p', hrun, hnames, hsize', -⟩ := (hgood hsize).name (by omega) hallowed
    exact ⟨n, p', hrun, hnames, hsize'⟩

def emptyPacket : Packet where
  msg := fun _ => 0
  size := 12
  dnptrs := ⟨some [], some 10⟩
  names := []

def Packet.after (p : Packet) (call : PacketCall) : Packet := (p.step call).getD p

theorem Packet.runs_after {p : Packet} (hruns : Runs Packet.Empty Packet.step Packet.Allowed p) (call : PacketCall)
    (hok : p.Allowed call) (hsome : (p.step call).isSome = true) :
    Runs Packet.Empty Packet.step Packet.Allowed (p.after call) :=
  hruns.after call hok hsome

def twoNames : Packet := (emptyPacket.after (.name [[0x61, 0x2e], [0x62]] false 20)).after (.name [[0x62]] true 20)

theorem names_roundtrip_two : ∃ e ∈ twoNames.names, e.labels = [[0x62]] ∧
    dnSkipname twoNames.msg e.pos twoNames.size = some (e.len : Int) ∧ ∃ text, dnExpand twoNames.msg twoNames.size e.pos 256 = some ((e.len : Int), text) ∧ labelsOf text = e.labels := by
  have hclean : ∀ l ∈ ([[0x61, 0x2e], [0x62]] : List Label), Clean l := by
    intro l hl
    simp only [List.mem_cons, List.not_mem_nil, or_false] at hl
    rcases hl with rfl | rfl <;> exact ⟨by decide, by decide, by decide⟩
  have hfirst := Packet.runs_after (.start (s := emptyPacket) ⟨rfl, rfl⟩) (.name [[0x61, 0x2e], [0x62]] false 20)
    ⟨hclean, by decide⟩ (by decide)
  have hboth : Runs Packet.Empty Packet.step Packet.Allowed twoNames :=
    Packet.runs_after hfirst (.name [[0x62]] true 20) ⟨fun l hl => hclean l (List.mem_cons_of_mem _ hl), by decide⟩
      (by decide)
  have hroom : ∀ e ∈ twoNames.names, (spell e.labels).length < 256 := by
    have hall : (twoNames.names.all fun e => (spell e.labels).length < 256) = true := by decide
    simpa using hall
  have hsecond : ∃ e ∈ twoNames.names, e.labels = [[0x62]] := by
    have hany : (twoNames.names.any fun e => e.labels = [[0x62]]) = true := by decide
    simpa using hany
  obtain ⟨e, he, hlabels⟩ := hsecond
  obtain ⟨hskip, hexpand⟩ := (names_roundtrip hboth (by decide)).1 e he
  exact ⟨e, he, hlabels, hskip, hexpand 256 (hroom e he)⟩

end NetBSD.Resolv
