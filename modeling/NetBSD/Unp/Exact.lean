import NetBSD.Unp.Collect

/-!
# When garbage collection is exact

`unp_gc` collects exactly what no descriptor leads to, when what its marks miss is sockets with nothing in their receive
buffers, and no file that is lost waits, in the queues of files that are lost, on itself.
-/

namespace NetBSD.Unp.Sys

variable {desc : Nat → Nat} {s s' mid : Sys} {fp : Nat}

structure Collected (desc : Nat → Nat) (s s' : Sys) : Prop where
  valid : Valid desc s'
  files : s'.files.Sublist s.files
  kept : ∀ fp, Reach s.rights desc fp → fp ∈ s'.files ∧ s'.own fp = s.own fp ∧ s'.queued fp = s.queued fp
  dropped : ∀ fp ∈ s.files, (s.file fp).fCount ≠ 0 → ¬ Reach s.rights desc fp → fp ∉ s'.files

def Waits (desc : Nat → Nat) (s : Sys) (l fp : Nat) : Prop :=
  l ∈ s.files ∧ ¬ Reach s.rights desc l ∧ fp ∈ s.queued l

structure Collectable (desc : Nat → Nat) (s : Sys) : Prop where
  socket : ∀ fp, Unmarked desc s fp → (s.file fp).socket ≠ none
  empty : ∀ fp, Unmarked desc s fp → Reach s.rights desc fp → s.own fp = []
  acyclic : WellFounded (Waits desc s)

theorem Sweeps.own (hs : Valid desc s) (h : Sweeps desc s mid s')
    (hempty : ∀ fp, Unmarked desc s fp → Reach s.rights desc fp → s.own fp = []) (hreach : Reach s.rights desc fp) :
    mid.own fp = s.own fp := by
  by_cases hown : Reach s.own desc fp
  · exact h.own_reached hs hown
  · have hpos := hs.reach_pos hreach
    have hun : Unmarked desc s fp := ⟨hs.known fp hpos, hs.count_pos hpos, hown⟩
    rw [h.own_unmarked hun, hempty fp hun hreach]

theorem Sweeps.supported (lost : Nat → Prop) (hs : Valid desc s) (h : Sweeps desc s mid s')
    (hempty : ∀ fp, Unmarked desc s fp → Reach s.rights desc fp → s.own fp = [])
    (hlost : ∀ fp, lost fp → ∃ l, lost l ∧ Waits desc s l fp) :
    Supported desc (fun fp => Reach s.rights desc fp ∨ lost fp) [] mid := by
  have hheld : ∀ g fp, (Reach s.rights desc g ∨ lost g) → fp ∈ mid.rights g →
      ∃ g so, (Reach s.rights desc g ∨ lost g) ∧ so ∈ mid.socketsOf g ∧ so ∉ ([] : List Nat) ∧ fp ∈ mid.held so := by
    intro g fp hg hin
    obtain ⟨so, hso, hin⟩ := mem_rights.1 hin
    exact ⟨g, so, hg, hso, List.not_mem_nil, hin⟩
  rintro fp (hreach | hfp)
  · have hpos := hs.reach_pos hreach
    refine ⟨(h.rest fp (hs.known fp hpos) (hs.count_pos hpos)).1, ?_⟩
    cases hreach with
    | desc hdesc => exact .inl hdesc
    | @right g _ hg hin =>
      have hpos' := hs.reach_pos hg
      refine .inr (hheld g fp (.inl hg) ?_)
      rw [rights, h.own hs hempty hg, h.queued hs (hs.known g hpos') (hs.count_pos hpos')]
      exact hin
  · obtain ⟨l, hl, hmem, -, hin⟩ := hlost fp hfp
    have hin' : fp ∈ s.rights l := List.mem_append_right _ hin
    have hpos := Nat.add_pos_right (desc fp) (inflight_pos hmem hin')
    refine ⟨(h.rest fp (hs.known fp hpos) (hs.count_pos hpos)).1, .inr (hheld l fp (.inr hl) ?_)⟩
    rw [rights, h.queued hs hmem (hs.used hmem hin')]
    exact List.mem_append_right _ hin

theorem Kept.rights {held_ : Nat → Prop} (hf : Frame s s') (hkept : Kept held_ [] s s') (hfp : held_ fp) :
    s'.own fp = s.own fp ∧ s'.queued fp = s.queued fp := by
  have hheld : ∀ so ∈ s.socketsOf fp, s'.held so = s.held so := fun so hso =>
    held_congr ((hkept fp hfp).2 so hso List.not_mem_nil)
  cases hlink : (s.file fp).socket with
  | none =>
    rw [Sys.own, Sys.own, Sys.queued, Sys.queued, hf.link, hlink]
    exact ⟨rfl, rfl⟩
  | some so =>
    have hlink' := (hf.link fp).trans hlink
    have hso := mem_socketsOf hlink
    rw [own_eq hlink, own_eq hlink', queued_eq hlink, queued_eq hlink', (hkept fp hfp).2 so hso List.not_mem_nil]
    refine ⟨hheld so hso, List.flatMap_congr fun so' hso' => hheld so' ?_⟩
    rw [socketsOf, hlink]
    exact List.mem_append_left _ hso'

theorem Sweeps.valid (hs : Valid desc s) (h : Sweeps desc s mid s') : Valid desc { s' with unpGcing := false } := by
  have hc := h.closed.counts
  have hframe := h.frame.trans h.closed.frame
  have hmem : ∀ fp ∈ s'.files, fp ∈ s.files := fun fp hfp => hframe.files.subset hfp
  have hsmall : ∀ fp ∈ s'.files, desc fp + s'.inflight fp < 32768 := fun fp hfp =>
    Nat.lt_of_le_of_lt (Nat.add_le_add_left (hframe.inflight_le fp) _) (hs.small fp (hmem fp hfp))
  refine ⟨hc.files, hc.sockets, fun fp hfp => ?_, fun fp hfp => ?_, hsmall, hc.known, fun fp hfp hzero => ?_, rfl⟩
  · exact (hc.count fp hfp).trans (Fd.Sys.short_eq (hsmall fp hfp))
  · have heq := hc.msgcount fp hfp
    rw [Nat.zero_add] at heq
    exact heq.trans (Fd.Sys.short_eq (Nat.lt_of_le_of_lt (Nat.le_add_left _ _) (hsmall fp hfp)))
  · have hcount := (hc.count fp hfp).symm.trans hzero
    rw [Fd.Sys.short_eq (hsmall fp hfp), Int.natCast_eq_zero] at hcount
    have hclosing := (hs.closing_iff (hmem fp hfp)).1 ((hc.gone fp hfp).2 hcount)
    refine List.eq_nil_iff_forall_not_mem.2 fun g hg => ?_
    exact hs.used (hmem fp hfp) (hframe.rights hg) hclosing

/-- `unp_gc` is exact in the states that `Collectable` describes, and in no others. -/
theorem flight_collected (hs : Valid desc s) :
    (∃ s', s.unpGc = some s' ∧ Collected desc s s') ↔ Collectable desc s := by
  constructor
  · rintro ⟨r, hr, hcol⟩
    have hsocket : ∀ fp, Unmarked desc s fp → (s.file fp).socket ≠ none := fun fp hun hnone =>
      Option.some_ne_none r (hr.symm.trans (unpGc_none hs hun hnone))
    obtain ⟨mid, s', hs', hsw⟩ := unpGc_spec hs hsocket
    obtain rfl := Option.some.inj (hr.symm.trans hs')
    have hempty : ∀ fp, Unmarked desc s fp → Reach s.rights desc fp → s.own fp = [] := by
      intro fp hun hreach
      have hsub : (s'.own fp).Sublist (mid.own fp) := hsw.closed.frame.own
      rw [hsw.own_unmarked hun] at hsub
      exact (hcol.kept fp hreach).2.1.symm.trans (List.eq_nil_of_sublist_nil hsub)
    refine ⟨hsocket, hempty, ⟨fun fp => ?_⟩⟩
    by_contra hacc
    have hlost : ∀ g, ¬ Acc (Waits desc s) g → ∃ l, ¬ Acc (Waits desc s) l ∧ Waits desc s l g := by
      intro g hg
      by_contra hnone
      exact hg ⟨g, fun l hl => not_not.1 fun hl' => hnone ⟨l, hl', hl⟩⟩
    -- what waits on `fp`, and on that, is there to the end
    obtain ⟨l, hl, hwaits⟩ := hlost fp hacc
    have hkept := hsw.closed.kept _ _ (hsw.supported _ hs hempty hlost)
    refine hcol.dropped l hwaits.1 (hs.used hwaits.1 (List.mem_append_right _ hwaits.2.2)) hwaits.2.1 ?_
    exact (hkept l (.inr hl)).1
  · intro hcol
    obtain ⟨mid, s', hs', hsw⟩ := unpGc_spec hs hcol.socket
    have hframe := hsw.frame.trans hsw.closed.frame
    refine ⟨_, hs', hsw.valid hs, hframe.files, fun fp hreach => ?_, fun fp => ?_⟩
    · have hsup := hsw.supported (fun _ => False) hs hcol.empty fun _ => False.elim
      have hkept := hsw.closed.kept _ _ hsup
      have hheld : Reach s.rights desc fp ∨ False := .inl hreach
      obtain ⟨hown, hqueued⟩ := hkept.rights hsw.closed.frame hheld
      have hpos := hs.reach_pos hreach
      exact ⟨(hkept fp (.inl hreach)).1, hown.trans (hsw.own hs hcol.empty hreach),
        hqueued.trans (hsw.queued hs (hs.known fp hpos) (hs.count_pos hpos))⟩
    · -- the file that holds a lost one is lost, and waits; the induction is on the waiting
      induction fp using hcol.acyclic.induction with
      | _ fp ih =>
        intro hfp hused hlost hin
        have hcount : ¬ desc fp + s'.inflight fp = 0 := by
          rw [← hsw.closed.counts.gone fp hin, hs.closing_iff hfp]
          exact hused
        have hdesc : desc fp = 0 := Nat.eq_zero_of_not_pos fun hpos => hlost (.desc hpos)
        have hpos : 0 < s'.flying.count fp := by
          change ¬ desc fp + s'.flying.count fp = 0 at hcount
          omega
        obtain ⟨l, hl, hright⟩ := mem_flying.1 (List.count_pos_iff.1 hpos)
        have hmem := hframe.files.subset hl
        have hright' := hframe.rights hright
        have hlost' : ¬ Reach s.rights desc l := fun h => hlost (h.right hright')
        have hused' := hs.used hmem hright'
        have hun : Unmarked desc s l := ⟨hmem, hused', fun h => hlost' (reach_of_own h)⟩
        have hqueued : fp ∈ s.queued l := by
          rcases List.mem_append.1 (hsw.closed.frame.rights hright) with hown | hq
          · rw [hsw.own_unmarked hun] at hown
            exact absurd hown List.not_mem_nil
          · rw [hsw.queued hs hmem hused'] at hq
            exact hq
        exact ih l ⟨hmem, hlost', hqueued⟩ hmem hused' hlost' hl

def build (files : List File) (sockets : List Socket) : Sys where
  files := List.range files.length
  file fp := files.getD fp ⟨0, 0, false, false, none⟩
  socket so := sockets.getD so ⟨true, [], []⟩
  unpDefer := 0
  unpGcing := false

def loop : Sys :=
  build [⟨1, 1, false, false, some 0⟩, ⟨1, 1, false, false, some 1⟩]
    [⟨true, [[.rights [1]]], []⟩, ⟨true, [[.data, .rights [0]]], []⟩]

theorem loop_collected : ∃ s', loop.unpGc = some s' ∧ Collected (fun _ => 0) loop s' := by
  have hvalid : Valid (fun _ => 0) loop := by
    refine ⟨by decide, by decide, by decide, by decide, by decide, fun fp hpos => ?_, by decide, rfl⟩
    have hin : fp ∈ loop.flying := List.count_pos_iff.1 (by rw [Nat.zero_add] at hpos; exact hpos)
    exact (by decide : ∀ fp ∈ loop.flying, fp ∈ loop.files) fp hin
  refine (flight_collected hvalid).2 ⟨fun fp hun => ?_, fun fp _ hreach => ?_, ⟨fun fp => ⟨fp, fun l hl => ?_⟩⟩⟩
  · exact (by decide : ∀ fp ∈ loop.files, (loop.file fp).socket ≠ none) fp hun.mem
  · have hnone : ∀ g, ¬ Reach loop.rights (fun _ => 0) g := by
      intro g h
      induction h with
      | desc hdesc => exact Nat.lt_irrefl 0 hdesc
      | right _ _ ih => exact ih
    exact absurd hreach (hnone fp)
  · have hnil : ∀ l ∈ loop.files, loop.queued l = [] := by decide
    rw [Waits, hnil l hl.1] at hl
    exact absurd hl.2.2 List.not_mem_nil

def withFile : Sys :=
  build [⟨1, 1, false, false, some 0⟩, ⟨1, 1, false, false, none⟩] [⟨true, [[.rights [0, 1]]], []⟩]

def waiting : Sys :=
  build [⟨1, 0, false, false, some 0⟩, ⟨1, 1, false, false, some 2⟩, ⟨1, 1, false, false, some 3⟩]
    [⟨true, [], [1]⟩, ⟨true, [[.rights [1]]], []⟩, ⟨true, [[.rights [2]]], []⟩]

/-- `sorflush` is called on what is not a socket, and a file that a descriptor leads to loses its messages. -/
theorem flight_not_collected :
    (Valid (fun _ => 0) withFile ∧ withFile.unpGc = none) ∧
    Valid (fun fp => [0].count fp) waiting ∧ Reach waiting.rights (fun fp => [0].count fp) 1 ∧ waiting.own 1 = [2] ∧
      ∀ s', waiting.unpGc = some s' → s'.own 1 = [] ∧ ¬ Collected (fun fp => [0].count fp) waiting s' := by
  have hreach : Reach waiting.rights (fun fp => [0].count fp) 1 :=
    .right (.desc (by decide : 0 < [0].count 0)) (by decide)
  have hmap : waiting.unpGc.map (fun s => s.own 1) = some [] := by rfl
  refine ⟨⟨⟨by decide, by decide, by decide, by decide, by decide, fun fp hpos => ?_, by decide, rfl⟩, rfl⟩,
    ⟨by decide, by decide, by decide, by decide, by decide, fun fp hpos => ?_, by decide, rfl⟩, hreach, rfl, fun s' hs' => ?_⟩
  · have hin : fp ∈ withFile.flying := List.count_pos_iff.1 (by rw [Nat.zero_add] at hpos; exact hpos)
    exact (by decide : ∀ fp ∈ withFile.flying, fp ∈ withFile.files) fp hin
  · have hin : fp ∈ [0] ++ waiting.flying := List.count_pos_iff.1 (by rw [List.count_append]; exact hpos)
    exact (by decide : ∀ fp ∈ [0] ++ waiting.flying, fp ∈ waiting.files) fp hin
  · rw [hs'] at hmap
    have hown : s'.own 1 = [] := Option.some.inj hmap
    exact ⟨hown, fun h => List.cons_ne_nil 2 [] ((h.kept 1 hreach).2.1.symm.trans hown)⟩

end NetBSD.Unp.Sys
