import NetBSD.Unp.Gc

/-!
# The marks

The loops of `unp_gc` end, and mark what is reached through receive buffers, without those of the sockets that wait to be
accepted. A file is deferred only when its mark is new, so that no file is deferred twice.
-/

namespace NetBSD.Unp.Sys

variable {desc : Nat → Nat} {s t t' : Sys} {fp g : Nat} {open_ : Nat → Prop}

theorem countP_update {l : List Nat} {p q : Nat → Bool} (hnodup : l.Nodup) (hfp : fp ∈ l)
    (hne : ∀ g, g ≠ fp → q g = p g) : l.countP q + (p fp).toNat = l.countP p + (q fp).toNat := by
  have hsplit := List.perm_cons_erase hfp
  have hrest : (l.erase fp).countP q = (l.erase fp).countP p := by
    refine List.countP_congr fun g hg => ?_
    rw [hne g]
    rintro rfl
    exact hnodup.not_mem_erase hg
  rw [hsplit.countP_eq, hsplit.countP_eq, List.countP_cons, List.countP_cons, hrest]
  cases p fp <;> cases q fp <;> simp

structure Flags (s t : Sys) : Prop where
  same : Same s t
  count : ∀ fp, (t.file fp).fCount = (s.file fp).fCount
  msgcount : ∀ fp, (t.file fp).fMsgcount = (s.file fp).fMsgcount

/-- The state of the loops. The receive buffer of a marked file has been scanned, unless it is deferred or `open_`. -/
structure Marking (desc : Nat → Nat) (s t : Sys) (open_ : Nat → Prop) : Prop extends Flags s t where
  deferred : t.unpDefer = (s.files.countP fun fp => (t.file fp).defer : Nat)
  marked : ∀ fp ∈ s.files, (t.file fp).defer = true → (t.file fp).mark = true
  sound : ∀ fp ∈ s.files, (t.file fp).mark = true → Reach s.own desc fp
  closed : ∀ fp ∈ s.files, (t.file fp).mark = true → (t.file fp).defer = false → ¬ open_ fp →
    ∀ g ∈ s.own fp, (t.file g).mark = true

structure Grow (t t' : Sys) : Prop where
  mark : ∀ fp, (t.file fp).mark = true → (t'.file fp).mark = true
  defer : ∀ fp, (t'.file fp).defer = true → (t.file fp).defer = true ∨ (t.file fp).mark = false

theorem Grow.refl (t : Sys) : Grow t t := ⟨fun _ => id, fun _ => .inl⟩

theorem Grow.unmarked (h : Grow t t') (hmark : (t'.file fp).mark = false) : (t.file fp).mark = false := by
  cases hold : (t.file fp).mark with
  | false => rfl
  | true => exact absurd (h.mark fp hold) (by rw [hmark]; exact Bool.false_ne_true)

theorem Grow.trans {t'' : Sys} (h : Grow t t') (h' : Grow t' t'') : Grow t t'' := by
  refine ⟨fun fp hmark => h'.mark fp (h.mark fp hmark), fun fp hdefer => ?_⟩
  rcases h'.defer fp hdefer with hold | hnew
  · exact h.defer fp hold
  · exact .inr (h.unmarked hnew)

theorem Flags.setFile {n : Int} (hf : Flags s t) {f : File → File} (hlink : ∀ x, (f x).socket = x.socket)
    (hcount : ∀ x, (f x).fCount = x.fCount) (hmsgcount : ∀ x, (f x).fMsgcount = x.fMsgcount) :
    Flags s { t.setFile fp f with unpDefer := n } := by
  have hsame := same_setFile t fp hlink
  refine ⟨hf.same.trans ⟨hsame.files, hsame.socket, hsame.link⟩, fun g => ?_, fun g => ?_⟩
  · refine Eq.trans ?_ (hf.count g)
    change ((t.setFile fp f).file g).fCount = _
    rcases eq_or_ne g fp with rfl | hne
    · rw [file_setFile_self, hcount]
    · rw [file_setFile_of_ne hne]
  · refine Eq.trans ?_ (hf.msgcount g)
    change ((t.setFile fp f).file g).fMsgcount = _
    rcases eq_or_ne g fp with rfl | hne
    · rw [file_setFile_self, hmsgcount]
    · rw [file_setFile_of_ne hne]

theorem Marking.change {defer : Bool} {n : Int} {f : File → File} (open' : Nat → Prop) (hnodup : s.files.Nodup)
    (hm : Marking desc s t open_) (hmem : fp ∈ s.files) (hreach : Reach s.own desc fp)
    (hlink : ∀ x, (f x).socket = x.socket) (hfcount : ∀ x, (f x).fCount = x.fCount)
    (hmsgcount : ∀ x, (f x).fMsgcount = x.fMsgcount) (hfmark : (f (t.file fp)).mark = true)
    (hfdefer : (f (t.file fp)).defer = defer) (hnew : defer = true → (t.file fp).mark = false)
    (hcount : n + ((t.file fp).defer.toNat : Int) = t.unpDefer + (defer.toNat : Int))
    (hopen : ∀ g, open_ g → open' g) (hscan : defer = false → open' fp) :
    Marking desc s { t.setFile fp f with unpDefer := n } open' ∧ Grow t { t.setFile fp f with unpDefer := n } := by
  generalize ht' : ({ t.setFile fp f with unpDefer := n } : Sys) = t'
  have hflags : Flags s t' := ht' ▸ hm.toFlags.setFile hlink hfcount hmsgcount
  have hcount' : t'.unpDefer + ((t.file fp).defer.toNat : Int) = t.unpDefer + (defer.toNat : Int) := ht' ▸ hcount
  have hself : t'.file fp = f (t.file fp) := ht' ▸ file_setFile_self t fp f
  have hother : ∀ g, g ≠ fp → t'.file g = t.file g := fun g hne => ht' ▸ file_setFile_of_ne hne f
  have hmark : (t'.file fp).mark = true := hself ▸ hfmark
  have hdefer : (t'.file fp).defer = defer := hself ▸ hfdefer
  have hmono : ∀ g, (t.file g).mark = true → (t'.file g).mark = true := by
    intro g hg
    rcases eq_or_ne g fp with rfl | hne
    · exact hmark
    · rw [hother g hne, hg]
  refine ⟨⟨hflags, ?_, fun g hg hd => ?_, fun g hg hm' => ?_, fun g hg hm' hd hop h hh => ?_⟩, hmono, fun g hd => ?_⟩
  · have hsum := countP_update (p := fun g => (t.file g).defer) (q := fun g => (t'.file g).defer) hnodup hmem
      fun g hne => by rw [hother g hne]
    rw [hdefer] at hsum
    have := hm.deferred
    omega
  · rcases eq_or_ne g fp with rfl | hne
    · exact hmark
    · rw [hother g hne] at hd ⊢
      exact hm.marked g hg hd
  · rcases eq_or_ne g fp with rfl | hne
    · exact hreach
    · rw [hother g hne] at hm'
      exact hm.sound g hg hm'
  · rcases eq_or_ne g fp with rfl | hne
    · exact absurd (hscan (hdefer.symm.trans hd)) hop
    · rw [hother g hne] at hm' hd
      exact hmono h (hm.closed g hg hm' hd (fun hop' => hop (hopen g hop')) h hh)
  · rcases eq_or_ne g fp with rfl | hne
    · exact .inr (hnew (hdefer.symm.trans hd))
    · rw [hother g hne] at hd
      exact .inl hd

theorem unpMark_spec (hnodup : s.files.Nodup) (hm : Marking desc s t open_) (hmem : fp ∈ s.files)
    (hreach : Reach s.own desc fp) :
    Marking desc s (t.unpMark fp) open_ ∧ Grow t (t.unpMark fp) ∧ ((t.unpMark fp).file fp).mark = true := by
  unfold unpMark
  split
  · next hmark => exact ⟨hm, .refl t, hmark⟩
  · next hmark =>
    rw [Bool.not_eq_true] at hmark
    have hdefer : (t.file fp).defer = false := by
      cases hold : (t.file fp).defer with
      | false => rfl
      | true => exact absurd (hm.marked fp hmem hold) (by rw [hmark]; exact Bool.false_ne_true)
    obtain ⟨hm', hgrow⟩ := hm.change (n := t.unpDefer + 1) (f := fun f => { f with mark := true, defer := true })
      _ hnodup hmem hreach (fun _ => rfl) (fun _ => rfl) (fun _ => rfl) rfl rfl (fun _ => hmark)
      (by rw [hdefer]; exact add_zero _) (fun _ => id) nofun
    have hself : (t.setFile fp fun f => { f with mark := true, defer := true }).file fp = _ := file_setFile_self ..
    exact ⟨hm', hgrow, congrArg File.mark hself⟩

theorem foldl_unpMark {l : List Nat} (hnodup : s.files.Nodup) (hm : Marking desc s t open_)
    (hl : ∀ g ∈ l, g ∈ s.files ∧ Reach s.own desc g) :
    Marking desc s (l.foldl unpMark t) open_ ∧ Grow t (l.foldl unpMark t) ∧
      ∀ g ∈ l, ((l.foldl unpMark t).file g).mark = true := by
  induction l generalizing t with
  | nil => exact ⟨hm, .refl t, fun _ hg => absurd hg List.not_mem_nil⟩
  | cons g l ih =>
    obtain ⟨hg, hreach⟩ := hl g List.mem_cons_self
    obtain ⟨hm', hgrow, hmark⟩ := unpMark_spec hnodup hm hg hreach
    obtain ⟨hm'', hgrow', hmarks⟩ := ih hm' fun g hg => hl g (List.mem_cons_of_mem _ hg)
    refine ⟨hm'', hgrow.trans hgrow', fun h hh => ?_⟩
    rcases List.mem_cons.1 hh with rfl | hh
    · exact hgrow'.mark h hmark
    · exact hmarks h hh

theorem gcScan_eq (t : Sys) (fp : Nat) : t.gcScan fp = (t.own fp).foldl unpMark t := by
  rw [gcScan, own]
  cases (t.file fp).socket with
  | none => rfl
  | some so =>
    simp only [Option.map_some, Option.getD_some, held]
    split
    · rfl
    · rfl

theorem gcScan_spec (hs : Valid desc s) (hm : Marking desc s t (· = fp)) (hreach : Reach s.own desc fp) :
    Marking desc s (t.gcScan fp) (fun _ => False) ∧ Grow t (t.gcScan fp) := by
  have hown : ∀ g ∈ t.own fp, g ∈ s.files ∧ Reach s.own desc g := by
    intro g hg
    rw [hm.same.own] at hg
    have hg' := hreach.right hg
    exact ⟨hs.known g (hs.reach_pos (reach_of_own hg')), hg'⟩
  obtain ⟨hm', hgrow, hmarks⟩ := foldl_unpMark hs.files hm hown
  rw [gcScan_eq]
  refine ⟨⟨hm'.toFlags, hm'.deferred, hm'.marked, hm'.sound, fun f hf hmark hdefer _ g hg => ?_⟩, hgrow⟩
  by_cases heq : f = fp
  · subst heq
    exact hmarks g (by rw [hm.same.own]; exact hg)
  · exact hm'.closed f hf hmark hdefer heq g hg

theorem Marking.unmarked (hs : Valid desc s) (hm : Marking desc s t open_) (hmem : fp ∈ s.files)
    (hcount : (t.file fp).fCount = 0) : (t.file fp).mark = false := by
  cases hmark : (t.file fp).mark with
  | false => rfl
  | true =>
    rw [hm.count] at hcount
    exact absurd hcount (hs.count_pos (hs.reach_pos (reach_of_own (hm.sound fp hmem hmark))))

theorem gcVisit_spec (hs : Valid desc s) (hm : Marking desc s t fun _ => False) (hmem : fp ∈ s.files) :
    Marking desc s (t.gcVisit fp) (fun _ => False) ∧ Grow t (t.gcVisit fp) ∧
      (((t.gcVisit fp).file fp).defer = true → (t.file fp).mark = false) ∧
      (0 < desc fp → ((t.gcVisit fp).file fp).mark = true) := by
  have hcount := hs.count fp hmem
  rw [← hm.count] at hcount
  have hmsgcount := hs.msgcount fp hmem
  rw [← hm.msgcount] at hmsgcount
  unfold gcVisit
  dsimp only
  split
  · next hzero =>
    refine ⟨hm, .refl t, fun _ => hm.unmarked hs hmem hzero, fun hdesc => ?_⟩
    omega
  next hzero =>
  split
  · next hdefer =>
    have hmark := hm.marked fp hmem hdefer
    have hreach := hm.sound fp hmem hmark
    obtain ⟨hm', hgrow⟩ := hm.change (n := t.unpDefer - 1) (f := fun f => { f with defer := false })
      (· = fp) hs.files hmem hreach (fun _ => rfl) (fun _ => rfl) (fun _ => rfl) hmark rfl nofun
      (by simp [hdefer]) (fun _ => False.elim) fun _ => rfl
    obtain ⟨hm'', hgrow'⟩ := gcScan_spec hs hm' hreach
    have hself : ((t.setFile fp fun f => { f with defer := false }).file fp) = _ := file_setFile_self ..
    have hmark' := hgrow.mark fp hmark
    refine ⟨hm'', hgrow.trans hgrow', fun hd => ?_, fun _ => hgrow'.mark fp hmark'⟩
    -- a file that is marked is not deferred by the scan
    rcases hgrow'.defer fp hd with hold | hnew
    · exact absurd ((congrArg File.defer hself).symm.trans hold) Bool.false_ne_true
    · exact absurd (hnew.symm.trans hmark') Bool.false_ne_true
  next hdefer =>
  rw [Bool.not_eq_true] at hdefer
  split
  · next hmark => exact ⟨hm, .refl t, fun hd => absurd (hdefer.symm.trans hd) Bool.false_ne_true, fun _ => hmark⟩
  next hmark =>
  rw [Bool.not_eq_true] at hmark
  split
  · next heq =>
    refine ⟨hm, .refl t, fun _ => hmark, fun hdesc => ?_⟩
    omega
  · next hne =>
    have hdesc : 0 < desc fp := by
      refine Nat.pos_of_ne_zero fun hdesc => hne ?_
      rw [hcount, hmsgcount, hdesc, Nat.zero_add]
    obtain ⟨hm', hgrow⟩ := hm.change (n := t.unpDefer) (f := fun f => { f with mark := true })
      (· = fp) hs.files hmem (.desc hdesc) (fun _ => rfl) (fun _ => rfl) (fun _ => rfl) rfl hdefer nofun
      (by rw [hdefer]) (fun _ => False.elim) fun _ => rfl
    obtain ⟨hm'', hgrow'⟩ := gcScan_spec hs hm' (.desc hdesc)
    have hself : ((t.setFile fp fun f => { f with mark := true }).file fp) = _ := file_setFile_self ..
    exact ⟨hm'', hgrow.trans hgrow', fun _ => hmark, fun _ => hgrow'.mark fp (congrArg File.mark hself)⟩

theorem foldl_gcVisit {l : List Nat} (hs : Valid desc s) (hm : Marking desc s t fun _ => False)
    (hl : ∀ fp ∈ l, fp ∈ s.files) :
    Marking desc s (l.foldl gcVisit t) (fun _ => False) ∧ Grow t (l.foldl gcVisit t) ∧
      ∀ fp ∈ l, (((l.foldl gcVisit t).file fp).defer = true → (t.file fp).mark = false) ∧
        (0 < desc fp → ((l.foldl gcVisit t).file fp).mark = true) := by
  induction l generalizing t with
  | nil => exact ⟨hm, .refl t, fun _ hg => absurd hg List.not_mem_nil⟩
  | cons fp l ih =>
    obtain ⟨hm', hgrow, hdefer, hmark⟩ := gcVisit_spec hs hm (hl fp List.mem_cons_self)
    obtain ⟨hm'', hgrow', hrest⟩ := ih hm' fun g hg => hl g (List.mem_cons_of_mem _ hg)
    refine ⟨hm'', hgrow.trans hgrow', fun g hg => ?_⟩
    rcases List.mem_cons.1 hg with rfl | hg
    · refine ⟨fun hd => ?_, fun hdesc => hgrow'.mark g (hmark hdesc)⟩
      rcases hgrow'.defer g hd with hold | hnew
      · exact hdefer hold
      · exact hgrow.unmarked hnew
    · exact ⟨fun hd => hgrow.unmarked ((hrest g hg).1 hd), (hrest g hg).2⟩

def unmarked (s t : Sys) : Nat := s.files.countP fun fp => !(t.file fp).mark

theorem unmarked_lt (hgrow : Grow t t') (hmem : fp ∈ s.files) (hold : (t.file fp).mark = false)
    (hnew : (t'.file fp).mark = true) : unmarked s t' < unmarked s t := by
  unfold unmarked
  rw [List.countP_eq_length_filter, List.countP_eq_length_filter]
  have hsub : (s.files.filter fun fp => !(t'.file fp).mark).Sublist (s.files.filter fun fp => !(t.file fp).mark) := by
    refine List.monotone_filter_right _ fun g hg => ?_
    rw [Bool.not_eq_true'] at hg ⊢
    exact hgrow.unmarked hg
  refine Nat.lt_of_le_of_ne hsub.length_le fun heq => ?_
  have hin : fp ∈ s.files.filter fun fp => !(t.file fp).mark := List.mem_filter.2 ⟨hmem, by rw [hold]; rfl⟩
  rw [← hsub.eq_of_length heq] at hin
  have := (List.mem_filter.1 hin).2
  rw [hnew] at this
  exact Bool.false_ne_true this

theorem gcMark_spec {fuel : Nat} (hs : Valid desc s) (hm : Marking desc s t fun _ => False)
    (hfuel : unmarked s t < fuel) :
    ∃ t', gcMark fuel t = some t' ∧ Flags s t' ∧
      ∀ fp ∈ s.files, (t'.file fp).mark = true ↔ Reach s.own desc fp := by
  induction fuel generalizing t with
  | zero => exact absurd hfuel (Nat.not_lt_zero _)
  | succ fuel ih =>
    obtain ⟨hm', hgrow, hpass⟩ := foldl_gcVisit hs hm fun _ => id
    rw [gcMark, hm.same.files]
    have hdeferred := hm'.deferred
    split
    · next hzero =>
      refine ⟨_, rfl, hm'.toFlags, fun fp hfp => ⟨hm'.sound fp hfp, fun hreach => ?_⟩⟩
      rw [hzero, eq_comm, Int.natCast_eq_zero, List.countP_eq_zero] at hdeferred
      induction hreach with
      | desc hdesc => exact (hpass _ hfp).2 hdesc
      | right hreach hg hind =>
        have hfp' := hs.known _ (hs.reach_pos (reach_of_own hreach))
        exact hm'.closed _ hfp' (hind hfp') (Bool.not_eq_true _ ▸ hdeferred _ hfp') id _ hg
    · next hne =>
      rw [hdeferred, Int.natCast_eq_zero, List.countP_eq_zero] at hne
      obtain ⟨fp, hne⟩ := not_forall.1 hne
      obtain ⟨hfp, hd⟩ := Classical.not_imp.1 hne
      rw [not_not] at hd
      have hlt := unmarked_lt hgrow hfp ((hpass fp hfp).1 hd) (hm'.marked fp hfp hd)
      exact ih hm' (by omega)

end NetBSD.Unp.Sys
