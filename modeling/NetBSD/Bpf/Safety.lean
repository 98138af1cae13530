import NetBSD.Bpf.Machine

/-!
# Which accepted programs run safely

The validator lets through three kinds of instruction that the interpreter executes without a check:
an `LDX|MEM` or `STX` whose index lies outside the scratch memory, a `JA` whose displacement is
negative or makes the sum in `bpf_validate` wrap, and a load whose offset is negative and whose bounds
test wraps. A run that executes none of these makes no undefined access, and one whose `JA`s all go
forward terminates.
-/

namespace NetBSD.Bpf

open NetBSD.Lib Machine

theorem validateFrom_getElem {len : Int} :
    ∀ {f : List BpfInsn} {i : Nat}, validateFrom len i f = true →
      ∀ j (hj : j < f.length), insnOk len (i + j) f[j] = true := by
  intro f
  induction f with
  | nil => intro i _ j hj; simp at hj
  | cons p rest ih =>
    intro i h j hj
    simp only [validateFrom, Bool.and_eq_true] at h
    cases j with
    | zero => simpa using h.1
    | succ j =>
      have := ih h.2 j (by simpa using hj)
      simpa [Nat.add_assoc, Nat.add_comm 1 j] using this

namespace AcceptedProgram

variable (prog : AcceptedProgram)

theorem insnOk_getElem (i : Nat) (hi : i < prog.insns.length) :
    insnOk prog.insns.length i prog.insns[i] = true := by
  have h := prog.accepted
  simp only [bpfValidate, Option.map_eq_some_iff, Bool.and_eq_true] at h
  obtain ⟨last, _, hok, _⟩ := h
  simpa using validateFrom_getElem hok i hi

theorem length_pos : 0 < prog.insns.length := by
  have h := prog.accepted
  simp only [bpfValidate, Option.map_eq_some_iff] at h
  obtain ⟨last, hlast, _⟩ := h
  exact List.length_pos_iff.mpr fun hnil => by simp [hnil] at hlast

theorem class_last (i : Nat) (hi : i < prog.insns.length) (hlast : i + 1 = prog.insns.length) :
    bpfClass prog.insns[i].code = bpfRet := by
  have h := prog.accepted
  simp only [bpfValidate, Option.map_eq_some_iff, Bool.and_eq_true, decide_eq_true_eq] at h
  obtain ⟨last, hgetLast, _, hret⟩ := h
  rw [List.getLast?_eq_getElem?] at hgetLast
  have hidx : prog.insns.length - 1 = i := by omega
  rw [hidx, List.getElem?_eq_getElem hi, Option.some.injEq] at hgetLast
  rw [hgetLast, hret]

end AcceptedProgram

theorem intAdd_of_lt {a b : Int} (hlow : -2 ^ 31 ≤ a + b) (hhigh : a + b < 2 ^ 31) :
    intAdd a b = a + b := by
  unfold intAdd
  rw [Int.bmod_def]
  split <;> omega

section InsnOk

variable {len : Int} {i : Nat} {p : BpfInsn}

theorem memIndex_isSome_of_insnOk (hok : insnOk len i p = true)
    (hcode : p.code = Opcode.code .st ∨ p.code = Opcode.code .ldMem) : p.k.toNat < bpfMemwords := by
  have huses : bpfClass p.code = bpfSt ∨ (bpfClass p.code = bpfLd ∧ p.code &&& 0xe0 = bpfMem) := by
    rcases hcode with h | h <;> rw [h] <;> decide
  have hrange : ¬ ((bpfMemwords : Int) ≤ p.k.toInt ∨ p.k.toInt < 0) := by
    intro hbad
    simp only [insnOk, huses, hbad, decide_true, Bool.and_self, Bool.not_true, Bool.and_false,
      Bool.false_and, Bool.false_eq_true] at hok
  rw [BitVec.toInt_eq_toNat_cond] at hrange
  unfold bpfMemwords at *
  split at hrange <;> omega

theorem k_ne_zero_of_insnOk (hok : insnOk len i p = true)
    (hcode : p.code = Opcode.code (.alu .div .k)) : p.k ≠ 0 := by
  intro hk
  have hdiv : p.code = (bpfAlu ||| bpfDiv ||| bpfK) := hcode
  simp [insnOk, hdiv, hk] at hok

theorem target_lt_of_insnOk (hok : insnOk len i p = true) {cmp : Cmp} {src : Src}
    (hcode : p.code = Opcode.code (.jmp cmp src)) (hi : i < 2 ^ 29) :
    (i : Int) + 1 + p.jt.toNat < len ∧ (i : Int) + 1 + p.jf.toNat < len := by
  have hclass : bpfClass p.code = bpfJmp := by
    rw [hcode]
    cases cmp <;> cases src <;> decide
  have hop : bpfOp p.code ≠ bpfJa := by
    rw [hcode]
    cases cmp <;> cases src <;> decide
  have hjt := p.jt.isLt
  have hjf := p.jf.isLt
  have htargets : intAdd (i + 1) p.jt.toNat < len ∧ intAdd (i + 1) p.jf.toNat < len := by
    simp only [insnOk, hclass, if_true, if_neg hop, Bool.and_eq_true, decide_eq_true_eq] at hok
    exact hok.1.1
  rwa [intAdd_of_lt (by omega) (by omega), intAdd_of_lt (by omega) (by omega)] at htargets

end InsnOk

theorem bpfClass_code_ne_ret (op : Opcode) (hk : op ≠ .retK) (ha : op ≠ .retA) :
    bpfClass op.code ≠ bpfRet := by
  cases op with
  | retK => exact absurd rfl hk
  | retA => exact absurd rfl ha
  | ld mode width => cases mode <;> cases width <;> decide
  | jmp cmp src => cases cmp <;> cases src <;> decide
  | alu op src => cases op <;> cases src <;> decide
  | _ => decide

def LoadInside (width : Width) (p : List Byte) (k : Word32) : Prop :=
  p ≠ [] ∧ (k.toInt < 0 →
    match width with
    | .word => p.length < (k + 4).toNat
    | .half => p.length < (k + 2).toNat
    | .byte => p.length ≤ k.toNat)

theorem loadBuf_ne_stray_iff {width : Width} {p : List Byte} {k : Word32} :
    loadBuf width p k ≠ .stray ↔ LoadInside width p k := by
  have hk := k.isLt
  have hint := BitVec.toInt_eq_toNat_cond k
  have hempty : p = [] ↔ p.length = 0 := List.length_eq_zero_iff.symm
  have hfour : (4 : Word32).toNat = 4 := rfl
  have htwo : (2 : Word32).toNat = 2 := rfl
  have hread : ∀ n, Load.ofBytes (bytesAt p k.toInt n) = .stray ↔ k.toInt < 0 ∨ p.length < k.toInt + n := by
    intro n
    rw [← bytesAt_eq_none_iff]
    cases bytesAt p k.toInt n <;> simp [Load.ofBytes]
  have hreject : ∀ {out : Bool}, (if out = true then if p.length ≠ 0 then Load.reject else .stray
      else Load.ofBytes (bytesAt p k.toInt width.bytes)) ≠ .stray ↔
        if out = true then p.length ≠ 0 else 0 ≤ k.toInt ∧ k.toInt + width.bytes ≤ p.length := by
    intro out
    cases out with
    | true => by_cases hp : p.length = 0 <;> simp [hp]
    | false =>
      rw [if_neg (by decide), if_neg (by decide), ne_eq, hread]
      omega
  unfold loadBuf
  rw [hreject]
  cases width with
  | word =>
    simp only [LoadInside, Width.bytes, decide_eq_true_eq, BitVec.toNat_add, hfour, ne_eq, hempty]
    split at hint <;> split <;> omega
  | half =>
    simp only [LoadInside, Width.bytes, decide_eq_true_eq, BitVec.toNat_add, htwo, ne_eq, hempty]
    split at hint <;> split <;> omega
  | byte =>
    simp only [LoadInside, Width.bytes, decide_eq_true_eq, ne_eq, hempty]
    split at hint <;> split <;> omega

/-- What the instruction at hand must not do for the step to be defined: the accesses that
`bpf_validate` does not check. -/
def AccessOk (len : Nat) (p : List Byte) (s : BpfState) (i : BpfInsn) : Option Opcode → Prop
  | some (.ld mode width) => LoadInside width p (s.offset mode i.k)
  | some .ldxMsh => LoadInside .byte p i.k
  | some .ldxMem => i.k.toNat < bpfMemwords
  | some .stx => i.k.toNat < bpfMemwords
  | some .ja => 0 ≤ s.pc + i.k.toInt + 1 ∧ s.pc + i.k.toInt + 1 < len
  | _ => True

def StepOk (prog : List BpfInsn) (p : List Byte) (s : BpfState) : Prop :=
  ∀ i, fetch prog s.pc = some i → AccessOk prog.length p s i (decode i.code)

def StepForward (prog : List BpfInsn) (s : BpfState) : Prop :=
  ∀ i, fetch prog s.pc = some i → decode i.code = some .ja → 0 ≤ i.k.toInt

def InRange (prog : List BpfInsn) (s : BpfState) : Prop := 0 ≤ s.pc ∧ s.pc < prog.length

section Exec

variable {pkt : Packet} {wirelen : Word32} {s s' : BpfState} {i : BpfInsn} {len : Nat} {p : List Byte}

theorem exec_next_pc {op : Option Opcode} (h : exec pkt wirelen s i op = .next s') :
    (∃ o, op = some o ∧ o ≠ .retK ∧ o ≠ .retA ∧ s'.pc = s.pc + 1)
      ∨ (∃ cmp src, op = some (.jmp cmp src)
          ∧ (s'.pc = s.pc + i.jt.toNat + 1 ∨ s'.pc = s.pc + i.jf.toNat + 1))
      ∨ (op = some .ja ∧ s'.pc = s.pc + i.k.toInt + 1) := by
  cases op with
  | none => simp [exec] at h
  | some o =>
    cases o with
    | retK => simp [exec] at h
    | retA => simp [exec] at h
    | ja =>
      simp only [exec, Step.next.injEq] at h
      exact Or.inr (Or.inr ⟨rfl, by rw [← h]; rfl⟩)
    | jmp cmp src =>
      simp only [exec, Step.next.injEq] at h
      refine Or.inr (Or.inl ⟨cmp, src, rfl, ?_⟩)
      subst h
      by_cases htest : cmp.test s.a (s.operand src i.k) = true
      · exact Or.inl (by simp [BpfState.jump, htest])
      · exact Or.inr (by simp [BpfState.jump, htest])
    | alu o src =>
      refine Or.inl ⟨_, rfl, by simp, by simp, ?_⟩
      cases o <;> cases src <;> simp only [exec] at h <;> (try split at h) <;>
        first
        | (simp only [Step.next.injEq] at h; rw [← h]; rfl)
        | simp at h
    | _ =>
      refine Or.inl ⟨_, rfl, by simp, by simp, ?_⟩
      simp only [exec] at h
      (try split at h) <;>
        first
        | (simp only [Step.next.injEq] at h; rw [← h]; rfl)
        | simp at h

theorem load_buf_ne_stray_iff {mode : Mode} {width : Width} {k : Word32} :
    load mode width (.buf p) k ≠ .stray ↔ LoadInside width p k := loadBuf_ne_stray_iff

theorem exec_ne_fault {count : Int} {n : Nat} (hok : insnOk count n i = true)
    (haccess : AccessOk len p s i (decode i.code)) (f : Fault) :
    exec (.buf p) wirelen s i (decode i.code) ≠ .fault f := by
  cases hop : decode i.code with
  | none => simp [exec]
  | some o =>
    have hcode := decode_code hop
    rw [hop] at haccess
    cases o with
    | ld mode width =>
      have hload : load mode width (.buf p) (s.offset mode i.k) ≠ .stray :=
        load_buf_ne_stray_iff.mpr haccess
      simp only [exec]
      split <;> simp_all
    | ldxMsh =>
      have hload : load .ind .byte (.buf p) i.k ≠ .stray := load_buf_ne_stray_iff.mpr haccess
      simp only [exec]
      split <;> simp_all
    | ldMem | st =>
      have hmem := memIndex_isSome_of_insnOk hok (by simp [hcode])
      simp [exec, memIndex, hmem]
    | ldxMem | stx =>
      have hmem : i.k.toNat < bpfMemwords := haccess
      simp [exec, memIndex, hmem]
    | alu o src =>
      by_cases hdiv : o = .div ∧ src = .k
      · obtain ⟨rfl, rfl⟩ := hdiv
        simp only [exec]
        rw [if_neg (k_ne_zero_of_insnOk hok hcode.symm)]
        simp
      · cases o <;> cases src <;> simp only [exec, ne_eq] <;> (try split) <;> simp_all
    | _ => simp [exec]

theorem exists_exec_fault (wirelen : Word32) (hja : decode i.code ≠ some .ja)
    (haccess : ¬ AccessOk len p s i (decode i.code)) :
    ∃ f, exec (.buf p) wirelen s i (decode i.code) = .fault f := by
  cases hop : decode i.code with
  | none => rw [hop] at haccess; exact absurd trivial haccess
  | some o =>
    rw [hop] at haccess hja
    cases o with
    | ld mode width =>
      have hload : load mode width (.buf p) (s.offset mode i.k) = .stray := by
        by_contra hne
        exact haccess (load_buf_ne_stray_iff.mp hne)
      exact ⟨.packet, by simp only [exec, hload]⟩
    | ldxMsh =>
      have hload : load .ind .byte (.buf p) i.k = .stray := by
        by_contra hne
        exact haccess (load_buf_ne_stray_iff.mp hne)
      exact ⟨.packet, by simp only [exec, hload]⟩
    | ldxMem | stx =>
      have hmem : ¬ i.k.toNat < bpfMemwords := haccess
      exact ⟨.scratch, by simp [exec, memIndex, hmem]⟩
    | ja => exact absurd rfl hja
    | _ => exact absurd trivial haccess

end Exec

section Run

variable (prog : AcceptedProgram) (p : List Byte) (wirelen : Word32) {s s' : BpfState}

theorem fetch_of_inRange (hrange : InRange prog.insns s) :
    ∃ n, ∃ hn : n < prog.insns.length, s.pc = n ∧ fetch prog.insns s.pc = some prog.insns[n] := by
  obtain ⟨hlow, hhigh⟩ := hrange
  refine ⟨s.pc.toNat, by omega, by omega, ?_⟩
  rw [fetch, if_pos hlow, List.getElem?_eq_getElem (by omega)]

theorem bpfStep_of_stepOk (hrange : InRange prog.insns s) (hok : StepOk prog.insns p s) :
    (∀ f, bpfStep prog.insns (.buf p) wirelen s ≠ .fault f)
      ∧ ∀ s', bpfStep prog.insns (.buf p) wirelen s = .next s' → InRange prog.insns s' := by
  obtain ⟨n, hn, hpc, hfetch⟩ := fetch_of_inRange prog hrange
  have haccess := hok _ hfetch
  have hvalid := prog.insnOk_getElem n hn
  have hlen := prog.length_lt
  simp only [bpfStep, hfetch]
  refine ⟨fun f => exec_ne_fault hvalid haccess f, fun s' hnext => ?_⟩
  rcases exec_next_pc hnext with ⟨o, hop, hk, ha, hpc'⟩ | ⟨cmp, src, hop, hpc'⟩ | ⟨hop, hpc'⟩
  · -- the last instruction is a return, so a following one exists
    have hnotLast : n + 1 ≠ prog.insns.length := by
      intro hlast
      have hclass := prog.class_last n hn hlast
      rw [← decode_code hop] at hclass
      exact bpfClass_code_ne_ret o hk ha hclass
    exact ⟨by omega, by omega⟩
  · have htarget := target_lt_of_insnOk hvalid (decode_code hop).symm (by omega)
    rcases hpc' with hpc' | hpc' <;> exact ⟨by omega, by omega⟩
  · rw [hop] at haccess
    exact ⟨hpc' ▸ haccess.1, hpc' ▸ haccess.2⟩

theorem bpfStep_of_not_stepOk (hrange : InRange prog.insns s) (hok : ¬ StepOk prog.insns p s) :
    (∃ f, bpfStep prog.insns (.buf p) wirelen s = .fault f)
      ∨ ∃ s' f, bpfStep prog.insns (.buf p) wirelen s = .next s'
          ∧ bpfStep prog.insns (.buf p) wirelen s' = .fault f := by
  obtain ⟨n, hn, hpc, hfetch⟩ := fetch_of_inRange prog hrange
  have haccess : ¬ AccessOk prog.insns.length p s prog.insns[n] (decode prog.insns[n].code) := by
    intro haccess
    apply hok
    intro i hi
    rw [hfetch, Option.some.injEq] at hi
    exact hi ▸ haccess
  by_cases hja : decode prog.insns[n].code = some .ja
  · right
    rw [hja] at haccess
    refine ⟨s.jump prog.insns[n].k.toInt, .fetch, by simp [bpfStep, hfetch, hja, exec], ?_⟩
    have hout : fetch prog.insns (s.jump prog.insns[n].k.toInt).pc = none := by
      simp only [AccessOk, not_and_or, not_le, not_lt] at haccess
      unfold fetch
      split
      · next hlow =>
        rw [List.getElem?_eq_none_iff]
        simp only [BpfState.jump] at hlow ⊢
        omega
      · rfl
    simp only [bpfStep, hout]
  · left
    obtain ⟨f, hf⟩ := exists_exec_fault wirelen hja haccess
    exact ⟨f, by simp only [bpfStep, hfetch, hf]⟩

theorem pc_lt_of_stepForward (hforward : StepForward prog.insns s)
    (hstep : bpfStep prog.insns (.buf p) wirelen s = .next s') : s.pc < s'.pc := by
  unfold bpfStep at hstep
  cases hfetch : fetch prog.insns s.pc with
  | none => simp [hfetch] at hstep
  | some i =>
    simp only [hfetch] at hstep
    rcases exec_next_pc hstep with ⟨o, hop, hk, ha, hpc'⟩ | ⟨cmp, src, hop, hpc'⟩ | ⟨hop, hpc'⟩
    · omega
    · omega
    · have := hforward i hfetch hop
      omega

/-- What `bpf_validate` is meant to ensure of a run: it returns, and on the way it fetches, reads and
writes only inside the array, the packet and the scratch memory, and divides by nothing zero. -/
def FilterSafe (s : BpfState) : Prop :=
  (∃ v, Returns (bpfStep prog.insns (.buf p) wirelen) s v)
    ∧ Faultless (bpfStep prog.insns (.buf p) wirelen) s

/-- **When an accepted program is safe.** Its run on a packet makes no undefined access exactly when
every instruction executed keeps its unchecked access in range; if in addition none of them jumps
backward, the run returns. -/
theorem bpfFilter_safe_iff (a x : Word32) (mem : Fin bpfMemwords → Word32) :
    (Faultless (bpfStep prog.insns (.buf p) wirelen) (.start a x mem)
        ↔ ∀ s, Reaches (bpfStep prog.insns (.buf p) wirelen) (.start a x mem) s → StepOk prog.insns p s)
      ∧ ((∀ s, Reaches (bpfStep prog.insns (.buf p) wirelen) (.start a x mem) s →
            StepOk prog.insns p s ∧ StepForward prog.insns s) →
          FilterSafe prog p wirelen (.start a x mem)) := by
  have hlen : (0 : Int) < prog.insns.length := by exact_mod_cast prog.length_pos
  have hstart : InRange prog.insns (.start a x mem) := ⟨le_refl _, hlen⟩
  have hiff : Faultless (bpfStep prog.insns (.buf p) wirelen) (.start a x mem)
      ↔ ∀ s, Reaches (bpfStep prog.insns (.buf p) wirelen) (.start a x mem) s →
          StepOk prog.insns p s :=
    faultless_iff hstart (fun s => bpfStep_of_stepOk prog p wirelen)
      (fun s => bpfStep_of_not_stepOk prog p wirelen)
  refine ⟨hiff, fun hall => ?_⟩
  have hsafe := hiff.mpr fun s hs => (hall s hs).1
  refine ⟨?_, hsafe⟩
  have hrange : ∀ s, Reaches (bpfStep prog.insns (.buf p) wirelen) (.start a x mem) s →
      InRange prog.insns s := fun s hs =>
    hs.invariant hstart fun b c hb hIb hstep =>
      (bpfStep_of_stepOk prog p wirelen hIb (hall b hb).1).2 c hstep
  obtain ⟨v, hv⟩ := hsafe.returns (fun s => prog.insns.length - s.pc.toNat) fun b c hb hstep => by
    have hb' := hrange b hb
    have hc' := hrange c (hb.tail hstep)
    have hlt := pc_lt_of_stepForward prog p wirelen (hall b hb).2 hstep
    obtain ⟨_, _⟩ := hb'
    obtain ⟨_, _⟩ := hc'
    omega
  exact ⟨v, _, hv⟩

end Run

/-- `LDX M[16]; RET A`: the index is one past the scratch memory, and `bpf_validate` looks at the
index of `LD|MEM` and `ST` only. -/
def ldxPastScratch : AcceptedProgram where
  insns := [⟨bpfLdx ||| bpfMem, 0, 0, 16⟩, ⟨bpfRet ||| bpfA, 0, 0, 0⟩]
  length_lt := by decide
  accepted := by decide

/-- Acceptance is not enough: this program reads outside the scratch memory on every packet. -/
theorem not_filterSafe_ldxPastScratch :
    ¬ FilterSafe ldxPastScratch [0x45] 1 (.start 0 0 fun _ => 0) := by
  rintro ⟨_, hfaultless⟩
  exact hfaultless _ (Reaches.refl _) .scratch (by rfl)

end NetBSD.Bpf
