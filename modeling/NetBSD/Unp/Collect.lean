import NetBSD.Unp.Mark
import NetBSD.Unp.Close

/-!
# What unp_gc collects

The marks follow receive buffers only, and the sweep takes every file without a mark for a socket. Nothing is lost, and
nothing is left, when neither matters.
-/

namespace NetBSD.Unp.Sys

open Fd (short)

variable {desc refs msgs : Nat → Nat} {gone : Nat → Prop} {s s' t : Sys} {fp g so : Nat}

structure Unmarked (desc : Nat → Nat) (s : Sys) (fp : Nat) : Prop where
  mem : fp ∈ s.files
  used : (s.file fp).fCount ≠ 0
  lost : ¬ Reach s.own desc fp

def Closing (desc : Nat → Nat) (s : Sys) (fp : Nat) : Prop := desc fp + s.inflight fp = 0

theorem Valid.closing_iff (hs : Valid desc s) (hfp : fp ∈ s.files) : Closing desc s fp ↔ (s.file fp).fCount = 0 := by
  rw [hs.count fp hfp, Closing, Int.natCast_eq_zero]

theorem Valid.counts (hs : Valid desc s) : Counts desc (fun _ => 0) (Closing desc s) s where
  files := hs.files
  sockets := hs.sockets
  count fp hfp := (hs.count fp hfp).trans (Fd.Sys.short_eq (hs.small fp hfp)).symm
  msgcount fp hfp := by
    rw [Nat.zero_add, hs.msgcount fp hfp, Fd.Sys.short_eq]
    exact Nat.lt_of_le_of_lt (Nat.le_add_left _ _) (hs.small fp hfp)
  small fp hfp := (hs.small fp hfp).le
  known := hs.known
  gone _ _ := .rfl

theorem Flags.counts (hf : Flags s t) (hc : Counts refs msgs gone s) : Counts refs msgs gone t := by
  refine ⟨hf.same.files ▸ hc.files, hf.same.sockets ▸ hc.sockets, fun fp hfp => ?_, fun fp hfp => ?_, fun fp hfp => ?_,
    fun fp hfp => ?_, fun fp hfp => ?_⟩ <;> rw [hf.same.inflight] at * <;> try rw [hf.same.files] at *
  · rw [hf.count]
    exact hc.count fp hfp
  · rw [hf.msgcount]
    exact hc.msgcount fp hfp
  · exact hc.small fp hfp
  · exact hc.known fp hfp
  · exact hc.gone fp hfp

theorem gcClear_spec (s : Sys) : Flags s s.gcClear ∧ s.gcClear.unpDefer = s.unpDefer ∧
    ∀ fp ∈ s.files, (s.gcClear.file fp).mark = false ∧ (s.gcClear.file fp).defer = false := by
  have hloop : ∀ (l : List Nat) (t : Sys), Flags s t →
      Flags s (l.foldl (fun s fp => s.setFile fp fun f => { f with mark := false, defer := false }) t) ∧
      (l.foldl (fun s fp => s.setFile fp fun f => { f with mark := false, defer := false }) t).unpDefer = t.unpDefer ∧
      ∀ fp, (fp ∈ l ∨ (t.file fp).mark = false ∧ (t.file fp).defer = false) →
        ((l.foldl (fun s fp => s.setFile fp fun f => { f with mark := false, defer := false }) t).file fp).mark = false ∧
        ((l.foldl (fun s fp => s.setFile fp fun f => { f with mark := false, defer := false }) t).file fp).defer = false := by
    intro l
    induction l with
    | nil => exact fun t hf => ⟨hf, rfl, fun fp hfp => hfp.resolve_left List.not_mem_nil⟩
    | cons g l ih =>
      intro t hf
      have hstep : Flags s (t.setFile g fun f => { f with mark := false, defer := false }) :=
        hf.setFile (n := t.unpDefer) (f := fun f => { f with mark := false, defer := false }) (fun _ => rfl) (fun _ => rfl)
          fun _ => rfl
      obtain ⟨hf', hdefer, hflags⟩ := ih _ hstep
      refine ⟨hf', hdefer, fun fp hfp => hflags fp ?_⟩
      rcases eq_or_ne fp g with rfl | hne
      · right
        rw [file_setFile_self]
        exact ⟨rfl, rfl⟩
      · rw [file_setFile_of_ne hne]
        exact hfp.imp_left fun h => (List.mem_cons.1 h).resolve_left hne
  obtain ⟨hf, hdefer, hflags⟩ := hloop s.files s ⟨.refl s, fun _ => rfl, fun _ => rfl⟩
  exact ⟨hf, hdefer, fun fp hfp => hflags fp (.inl hfp)⟩

theorem marks_spec (hs : Valid desc s) :
    ∃ t, gcMark (s.files.length + 1) { s with unpGcing := true, unpDefer := 0 }.gcClear = some t ∧ Flags s t ∧
      ∀ fp ∈ s.files, t.isExtra fp = true ↔ Unmarked desc s fp := by
  obtain ⟨hf, hdefer, hflags⟩ := gcClear_spec { s with unpGcing := true, unpDefer := 0 }
  generalize ({ s with unpGcing := true, unpDefer := 0 } : Sys).gcClear = t₀ at *
  have hf₀ : Flags s t₀ := ⟨⟨hf.same.files, hf.same.socket, hf.same.link⟩, hf.count, hf.msgcount⟩
  have hm : Marking desc s t₀ fun _ => False := by
    refine ⟨hf₀, ?_, fun fp hfp hd => ?_, fun fp hfp hmark => ?_, fun fp hfp hmark => ?_⟩
    · rw [hdefer, List.countP_eq_zero.2 fun fp hfp => by rw [(hflags fp hfp).2]; exact Bool.false_ne_true]
      rfl
    · exact absurd ((hflags fp hfp).2.symm.trans hd) Bool.false_ne_true
    · exact absurd ((hflags fp hfp).1.symm.trans hmark) Bool.false_ne_true
    · exact absurd ((hflags fp hfp).1.symm.trans hmark) Bool.false_ne_true
  obtain ⟨t, ht, hft, hmarks⟩ := gcMark_spec hs hm (Nat.lt_succ_of_le List.countP_le_length)
  refine ⟨t, ht, hft, fun fp hfp => ?_⟩
  rw [isExtra, decide_eq_true_iff, hft.count, hft.msgcount, ← Bool.not_eq_true, hmarks fp hfp]
  refine ⟨fun ⟨hused, _, hlost⟩ => ⟨hfp, hused, hlost⟩, fun h => ⟨h.used, ?_, h.lost⟩⟩
  have hdesc : desc fp = 0 := Nat.eq_zero_of_not_pos fun hpos => h.lost (.desc hpos)
  rw [hs.count fp hfp, hs.msgcount fp hfp, hdesc, Nat.zero_add]

theorem foldl_takeRef {l : List Nat} (hc : Counts refs msgs gone s) (hl : l.Nodup)
    (hmem : ∀ fp ∈ l, 0 < refs fp + s.inflight fp ∧ refs fp + s.inflight fp < 32768) :
    Counts (fun g => refs g + l.count g) msgs gone (l.foldl takeRef s) ∧ Same s (l.foldl takeRef s) := by
  induction l generalizing s refs with
  | nil => exact ⟨hc.of_eq (fun _ => rfl) fun _ => rfl, .refl s⟩
  | cons fp l ih =>
    obtain ⟨hnew, hl⟩ := List.nodup_cons.1 hl
    obtain ⟨hpos, hsmall⟩ := hmem fp List.mem_cons_self
    have hfp := hc.known fp hpos
    have hone : (refs + one fp) fp = refs fp + 1 := by rw [Pi.add_apply, one, Pi.single_eq_same]
    have hother : ∀ g, g ≠ fp → (refs + one fp) g = refs g := fun g hne => by
      rw [Pi.add_apply, one, Pi.single_eq_of_ne hne, Nat.add_zero]
    have hsame : Same s (s.takeRef fp) := same_setFile s fp fun _ => rfl
    have hc' : Counts (refs + one fp) msgs gone (s.takeRef fp) := by
      refine hc.setFile hfp (fun _ => rfl) hother (fun _ _ => rfl) (fun _ _ => .rfl) ?_ (hc.msgcount fp hfp)
        (by rw [hone]; omega) ?_
      · dsimp only
        rw [hc.count fp hfp, hone, short_add, Nat.add_right_comm, Int.natCast_add _ 1]
        rfl
      · rw [hc.gone fp hfp, hone]
        omega
    obtain ⟨hc'', hsame'⟩ := ih hc' hl fun g hg => by
      rw [hother g fun heq => hnew (heq ▸ hg), hsame.inflight]
      exact hmem g (List.mem_cons_of_mem _ hg)
    refine ⟨hc''.of_eq (fun g => ?_) fun _ => rfl, hsame.trans hsame'⟩
    rw [Pi.add_apply, one, Pi.single_apply, List.count_cons, Nat.add_assoc, Nat.add_comm (l.count g)]
    simp only [beq_iff_eq, eq_comm (a := g)]

theorem mem_socketsOf (hsocket : (s.file fp).socket = some so) : so ∈ s.socketsOf fp := by
  rw [socketsOf, hsocket]
  exact List.mem_append_right _ List.mem_cons_self

theorem flushFile_spec (hc : Counts refs msgs gone s) (hpos : 0 < refs fp) (hsocket : (s.file fp).socket = some so) :
    flushFile fp s = s.sorflush close so ∧ ∃ s', s.sorflush close so = some s' ∧ Flushed refs msgs gone [so] s s' := by
  refine ⟨?_, sorflush_spec (closes_close _) hc (List.mem_flatMap.2 ⟨fp, hc.mem hpos, mem_socketsOf hsocket⟩) le_rfl⟩
  rw [flushFile, hsocket]
  rfl

theorem foldlM_flushFile {l : List Nat} (hc : Counts refs msgs gone s) (hl : ∀ fp ∈ l, 0 < refs fp)
    (hsocket : ∀ fp ∈ l, (s.file fp).socket ≠ none) :
    l.foldlM (fun s fp => flushFile fp s) s =
      (l.filterMap fun fp => (s.file fp).socket).foldlM (fun s so => sorflush s close so) s := by
  induction l generalizing s with
  | nil => rfl
  | cons fp l ih =>
    obtain ⟨so, hso⟩ := Option.ne_none_iff_exists'.1 (hsocket fp List.mem_cons_self)
    obtain ⟨heq, s₁, hs₁, hf₁⟩ := flushFile_spec hc (hl fp List.mem_cons_self) hso
    have hlinks : (l.filterMap fun fp => (s₁.file fp).socket) = l.filterMap fun fp => (s.file fp).socket :=
      List.filterMap_congr fun fp _ => hf₁.frame.link fp
    have hcons : ((fp :: l).filterMap fun fp => (s.file fp).socket) = so :: l.filterMap fun fp => (s.file fp).socket :=
      List.filterMap_cons_some hso
    rw [hcons, List.foldlM_cons, List.foldlM_cons, heq, hs₁, ← hlinks]
    exact ih hf₁.counts (fun g hg => hl g (List.mem_cons_of_mem _ hg))
      fun g hg => by
        rw [hf₁.frame.link]
        exact hsocket g (List.mem_cons_of_mem _ hg)

theorem foldlM_flushFile_none {l : List Nat} (hc : Counts refs msgs gone s) (hl : ∀ fp ∈ l, 0 < refs fp)
    (hnone : ∃ fp ∈ l, (s.file fp).socket = none) : l.foldlM (fun s fp => flushFile fp s) s = none := by
  induction l generalizing s with
  | nil =>
    obtain ⟨fp, hfp, -⟩ := hnone
    exact absurd hfp List.not_mem_nil
  | cons fp l ih =>
    rw [List.foldlM_cons]
    cases hsocket : (s.file fp).socket with
    | none =>
      rw [flushFile, hsocket]
      rfl
    | some so =>
      obtain ⟨heq, s₁, hs₁, hf₁⟩ := flushFile_spec hc (hl fp List.mem_cons_self) hsocket
      rw [heq, hs₁]
      refine ih hf₁.counts (fun g hg => hl g (List.mem_cons_of_mem _ hg)) ?_
      obtain ⟨g, hg, hlink⟩ := hnone
      rcases List.mem_cons.1 hg with rfl | hg
      · exact absurd (hlink.symm.trans hsocket) nofun
      · exact ⟨g, hg, (hf₁.frame.link g).trans hlink⟩

theorem foldlM_close {l : List Nat} (hc : Counts (fun g => refs g + l.count g) msgs gone s) :
    ∃ s', l.foldlM (fun s fp => s.close fp) s = some s' ∧ Closed refs msgs gone s s' := by
  induction l generalizing s with
  | nil => exact ⟨s, rfl, .refl (hc.of_eq (fun _ => rfl) fun _ => rfl)⟩
  | cons fp l ih =>
    obtain ⟨s₁, hs₁, hcl₁⟩ := close_spec (hc.of_eq (fun g => (add_one_eq refs fp g l).symm) fun _ => rfl)
    obtain ⟨s₂, hs₂, hcl₂⟩ := ih hcl₁.counts
    refine ⟨s₂, ?_, hcl₁.trans (fun g hg => Nat.add_pos_left hg _) hcl₂⟩
    rw [List.foldlM_cons, hs₁]
    exact hs₂

theorem sweep_spec (hs : Valid desc s) :
    ∃ (t : Sys) (extra : List Nat), s.unpGc = ((extra.foldlM (fun s fp => flushFile fp s) t).bind fun s =>
        (extra.foldlM (fun s fp => close fp s) s).map fun s => { s with unpGcing := false }) ∧
      Same s t ∧ Counts (fun g => desc g + extra.count g) (fun _ => 0) (Closing desc s) t ∧
      ∀ fp, fp ∈ extra ↔ Unmarked desc s fp := by
  obtain ⟨t, ht, hf, hextra⟩ := marks_spec hs
  have hmem : ∀ fp, fp ∈ t.files.filter t.isExtra ↔ Unmarked desc s fp := fun fp => by
    rw [List.mem_filter, hf.same.files]
    exact ⟨fun h => (hextra fp h.1).1 h.2, fun h => ⟨h.mem, (hextra fp h.mem).2 h⟩⟩
  have hc := hf.counts hs.counts
  obtain ⟨hc', hsame⟩ := foldl_takeRef hc (hc.files.filter _) fun fp hfp => by
    have hun := (hmem fp).1 hfp
    rw [hf.same.inflight]
    refine ⟨Nat.pos_of_ne_zero fun hzero => hun.used ((hs.closing_iff hun.mem).1 hzero), hs.small fp hun.mem⟩
  refine ⟨_, _, ?_, hf.same.trans hsame, hc', hmem⟩
  rw [unpGc, hs.idle, if_neg Bool.false_ne_true, ht]
  rfl

theorem unpGc_none (hs : Valid desc s) (hun : Unmarked desc s fp) (hnone : (s.file fp).socket = none) :
    s.unpGc = none := by
  obtain ⟨t, extra, hgc, hsame, hc, hextra⟩ := sweep_spec hs
  rw [hgc, foldlM_flushFile_none hc (fun g hg => Nat.add_pos_right _ (List.count_pos_iff.2 hg))
    ⟨fp, (hextra fp).2 hun, (hsame.link fp).trans hnone⟩]
  rfl

def Swept (desc : Nat → Nat) (s : Sys) (so : Nat) : Prop := ∃ g, Unmarked desc s g ∧ (s.file g).socket = some so

structure Sweeps (desc : Nat → Nat) (s mid s' : Sys) : Prop where
  frame : Frame s mid
  empty : ∀ so, Swept desc s so → mid.held so = []
  rest : ∀ fp ∈ s.files, (s.file fp).fCount ≠ 0 → fp ∈ mid.files ∧
    ∀ so ∈ s.socketsOf fp, ¬ Swept desc s so → mid.socket so = s.socket so
  closed : Closed desc (fun _ => 0) (Closing desc s) mid s'

theorem unpGc_spec (hs : Valid desc s) (hsocket : ∀ fp, Unmarked desc s fp → (s.file fp).socket ≠ none) :
    ∃ mid s', s.unpGc = some { s' with unpGcing := false } ∧ Sweeps desc s mid s' := by
  obtain ⟨t, extra, hgc, hsame, hc, hextra⟩ := sweep_spec hs
  have hpos : ∀ fp ∈ extra, 0 < desc fp + extra.count fp := fun g hg => Nat.add_pos_right _ (List.count_pos_iff.2 hg)
  have hswept : ∀ so, so ∈ (extra.filterMap fun fp => (t.file fp).socket) ↔ Swept desc s so := fun so => by
    simp only [List.mem_filterMap, hextra, hsame.link]
    rfl
  have hsockets : ∀ so ∈ (extra.filterMap fun fp => (t.file fp).socket), ∃ fp ∈ t.files, so ∈ t.socketsOf fp ∧
      (Closing desc s fp ∨ 0 < desc fp + extra.count fp) := by
    intro so hso
    obtain ⟨g, hg, hlink⟩ := List.mem_filterMap.1 hso
    exact ⟨g, hc.mem (hpos g hg), mem_socketsOf hlink, .inr (hpos g hg)⟩
  obtain ⟨mid, hmid, hfl⟩ := foldlM_sorflush (closes_close _) hc hsockets le_rfl
  obtain ⟨s', hs', hcl⟩ := foldlM_close hfl.counts
  refine ⟨mid, s', ?_, (Frame.of_same hsame).trans hfl.frame, fun so hso => hfl.empty so ((hswept so).2 hso), ?_, hcl⟩
  · rw [hgc, foldlM_flushFile hc hpos fun fp hfp => by
      rw [hsame.link]
      exact hsocket fp ((hextra fp).1 hfp), hmid, Option.bind_some, hs']
    rfl
  · -- while the files of the sweep have a reference more, no file in use goes
    have hsup : Supported (fun g => desc g + extra.count g) (fun fp => fp ∈ s.files ∧ (s.file fp).fCount ≠ 0)
        (extra.filterMap fun fp => (t.file fp).socket) t := by
      rintro fp ⟨hfp, hused⟩
      refine ⟨hsame.files ▸ hfp, ?_⟩
      by_cases hreach : Reach s.own desc fp
      · cases hreach with
        | desc hdesc => exact .inl (Nat.add_pos_left hdesc _)
        | @right g _ hg hin =>
          rw [own] at hin
          cases hlink : (s.file g).socket with
          | none =>
            rw [hlink] at hin
            exact absurd hin List.not_mem_nil
          | some so =>
            rw [hlink] at hin
            have hpos' := hs.reach_pos (reach_of_own hg)
            refine .inr ⟨g, so, ⟨hs.known g hpos', hs.count_pos hpos'⟩, hsame.socketsOf ▸ mem_socketsOf hlink,
              fun hso => ?_, hsame.held ▸ hin⟩
            obtain ⟨h, hun, hlink'⟩ := (hswept so).1 hso
            have heq : h = g := owner_unique hs.counts hun.mem (hs.known g hpos') (mem_socketsOf hlink') (mem_socketsOf hlink)
            exact hun.lost (heq ▸ hg)
      · exact .inl (hpos fp ((hextra fp).2 ⟨hfp, hused, hreach⟩))
    intro fp hfp hused
    obtain ⟨hin, hkept⟩ := hfl.kept _ _ (List.Subset.refl _) hsup fp ⟨hfp, hused⟩
    refine ⟨hin, fun so hso hnot => ?_⟩
    exact (hkept so (hsame.socketsOf ▸ hso) fun h => hnot ((hswept so).1 h)).trans (congrFun hsame.socket so)

theorem own_eq (hlink : (s.file fp).socket = some so) : s.own fp = s.held so := by
  rw [own, hlink]
  rfl

theorem own_eq_nil (hlink : (s.file fp).socket = none) : s.own fp = [] := by
  rw [own, hlink]
  rfl

theorem queued_eq (hlink : (s.file fp).socket = some so) : s.queued fp = (s.socket so).q.flatMap s.held := by
  rw [queued, hlink]
  rfl

theorem Valid.used (hs : Valid desc s) (hfp : fp ∈ s.files) (hg : g ∈ s.rights fp) : (s.file fp).fCount ≠ 0 := by
  intro hzero
  rw [hs.closing fp hfp hzero] at hg
  exact List.not_mem_nil hg

theorem Frame.rights (h : Frame s s') (hg : g ∈ s'.rights fp) : g ∈ s.rights fp := by
  rw [mem_rights, h.socketsOf] at hg
  obtain ⟨so, hso, hin⟩ := hg
  exact mem_rights.2 ⟨so, hso, (h.held so).subset hin⟩

theorem Frame.own (h : Frame s s') : (s'.own fp).Sublist (s.own fp) := by
  rw [Sys.own, Sys.own, h.link]
  cases (s.file fp).socket with
  | none => exact .refl _
  | some so => exact h.held so

theorem not_swept_of_q (hs : Valid desc s) (hfp : fp ∈ s.files) (hlink : (s.file fp).socket = some so) {so' : Nat}
    (hso' : so' ∈ (s.socket so).q) : ¬ Swept desc s so' := by
  rintro ⟨g, hun, hlink'⟩
  have hin : so' ∈ s.socketsOf fp := by
    rw [socketsOf, hlink]
    exact List.mem_append_left _ hso'
  have heq := owner_unique hs.counts hun.mem hfp (mem_socketsOf hlink') hin
  subst heq
  obtain rfl : so' = so := Option.some.inj (hlink'.symm.trans hlink)
  have hnodup := (List.nodup_flatMap.1 hs.sockets).1 g hfp
  rw [socketsOf, hlink] at hnodup
  exact (List.nodup_append.1 hnodup).2.2 so' hso' so' List.mem_cons_self rfl

namespace Sweeps

variable {mid : Sys}

theorem own_unmarked (h : Sweeps desc s mid s') (hun : Unmarked desc s fp) : mid.own fp = [] := by
  cases hlink : (s.file fp).socket with
  | none => exact own_eq_nil ((h.frame.link fp).trans hlink)
  | some so => rw [own_eq ((h.frame.link fp).trans hlink), h.empty so ⟨fp, hun, hlink⟩]

theorem queued (hs : Valid desc s) (h : Sweeps desc s mid s') (hfp : fp ∈ s.files) (hused : (s.file fp).fCount ≠ 0) :
    mid.queued fp = s.queued fp := by
  cases hlink : (s.file fp).socket with
  | none => rw [Sys.queued, Sys.queued, h.frame.link, hlink, Option.map_none, Option.map_none]
  | some so =>
    have hq : (mid.socket so).q = (s.socket so).q := by
      rcases h.frame.socket so with heq | heq <;> rw [heq]
    rw [queued_eq ((h.frame.link fp).trans hlink), queued_eq hlink, hq]
    refine List.flatMap_congr fun so' hso' => held_congr ?_
    refine (h.rest fp hfp hused).2 so' ?_ (not_swept_of_q hs hfp hlink hso')
    rw [socketsOf, hlink]
    exact List.mem_append_left _ hso'

theorem own_reached (hs : Valid desc s) (h : Sweeps desc s mid s') (hreach : Reach s.own desc fp) :
    mid.own fp = s.own fp := by
  have hpos := hs.reach_pos (reach_of_own hreach)
  cases hlink : (s.file fp).socket with
  | none => rw [own_eq_nil ((h.frame.link fp).trans hlink), own_eq_nil hlink]
  | some so =>
    rw [own_eq ((h.frame.link fp).trans hlink), own_eq hlink]
    refine held_congr ((h.rest fp (hs.known fp hpos) (hs.count_pos hpos)).2 so (mem_socketsOf hlink) ?_)
    rintro ⟨g, hun, hlink'⟩
    have heq := owner_unique hs.counts hun.mem (hs.known fp hpos) (mem_socketsOf hlink') (mem_socketsOf hlink)
    exact hun.lost (heq ▸ hreach)

end Sweeps

end NetBSD.Unp.Sys
