import NetBSD.Db.Coherent

/-!
# The pool against the array of pages

What each call keeps, and the runs of careful calls.
-/

namespace NetBSD.Db

open Lib (File Runs)

variable {F : Filters} {ulong : Nat} {mp mp' : Mpool} {array : Nat → Page} {held : Nat → Option Held} {b c pgno : Nat}
  {x : Bkt} {h : Held} {fresh : Fresh} {page : Page} {s : System}

theorem offset_eq (hwithin : mp.Within ulong pgno) : mp.offset ulong pgno = some (mp.pagesize * pgno) := by
  rw [Mpool.offset, Nat.mod_eq_of_lt hwithin.1]
  exact if_pos hwithin.2

def written (F : Filters) (mp : Mpool) (b : Nat) : Mpool :=
  { mp with
    file := mp.file.write (mp.pagesize * (mp.bkt b).pgno) (F.pgout (mp.bkt b).pgno (mp.bkt b).page) }.modify b fun x =>
      { x with page := F.pgout x.pgno x.page, dirty := false }

theorem mpoolWrite_eq (hwithin : mp.Within ulong (mp.bkt b).pgno) :
    mpoolWrite F ulong mp b = (true, written F mp b) := by
  have hoffset : (mp.modify b fun x => { x with page := F.pgout x.pgno x.page }).offset ulong (mp.bkt b).pgno =
      some (mp.pagesize * (mp.bkt b).pgno) := offset_eq hwithin
  unfold mpoolWrite
  simp only [modify_bkt_self]
  rw [hoffset]
  simp only [modify_file, written, Mpool.modify, Function.update_self, Function.update_idem]

theorem written_stored (hfull : (mp.bkt b).page.length = mp.pagesize) :
    Stored F mp.pagesize (written F mp b).file (mp.bkt b).pgno (mp.bkt b).page ∧
      ∀ q page, q ≠ (mp.bkt b).pgno → Stored F mp.pagesize mp.file q page →
        Stored F mp.pagesize (written F mp b).file q page := by
  have hlen : (F.pgout (mp.bkt b).pgno (mp.bkt b).page).length = mp.pagesize := by rw [F.length_pgout, hfull]
  constructor
  · exact Stored.write hlen (F.pgin_pgout ..)
  · exact fun q page hne hst => hst.write_of_ne hlen hne

structure Given (F : Filters) (ulong : Nat) (array : Nat → Page) (held : Nat → Option Held) (mp mp' : Mpool)
    (b : Nat) : Prop where
  coherent : Coherent F ulong mp' array held
  out : b ∉ mp'.lru
  full : (mp'.bkt b).page.length = mp.pagesize
  npages : mp'.npages = mp.npages
  pagesize : mp'.pagesize = mp.pagesize
  still : ∀ c ∈ mp'.lru, c ∈ mp.lru ∧ (mp'.bkt c).pgno = (mp.bkt c).pgno

theorem grow_spec (hc : Coherent F ulong mp array held) (hfresh : mp.Unused fresh) :
    (mp.grow fresh = (none, mp) ∧ fresh = none) ∨
      ∃ b mp', mp.grow fresh = (some b, mp') ∧ Given F ulong array held mp mp' b := by
  cases fresh with
  | none => exact Or.inl ⟨rfl, rfl⟩
  | some bx =>
    obtain ⟨b, x⟩ := bx
    obtain ⟨hout, hfull⟩ := hfresh b x rfl
    have hother : ∀ c ∈ mp.lru, Function.update mp.bkt b x c = mp.bkt c := by
      intro c hcmem
      have hne : c ≠ b := fun heq => hout (heq ▸ hcmem)
      exact Function.update_of_ne hne ..
    refine Or.inr ⟨b, _, rfl, ⟨hc.congr rfl rfl rfl rfl rfl hother, hout, ?_, rfl, rfl, ?_⟩⟩
    · dsimp only
      rw [Function.update_self, hfull]
    · intro c hcmem
      exact ⟨hcmem, congrArg Bkt.pgno (hother c hcmem)⟩

theorem mpoolBkt_spec (hc : Coherent F ulong mp array held) (hfresh : mp.Unused fresh) :
    (mpoolBkt F ulong mp fresh = (none, mp) ∧ fresh = none) ∨
      ∃ b mp', mpoolBkt F ulong mp fresh = (some b, mp') ∧ Given F ulong array held mp mp' b := by
  unfold mpoolBkt
  split
  · exact grow_spec hc hfresh
  cases hfind : mp.lru.reverse.find? fun b => !(mp.bkt b).pinned with
  | none => exact grow_spec hc hfresh
  | some b =>
    have hb : b ∈ mp.lru := List.mem_reverse.mp (List.mem_of_find?_eq_some hfind)
    have hpin : (mp.bkt b).pinned = false := by
      have hfound := List.find?_some hfind
      rwa [Bool.not_eq_true'] at hfound
    have hout : b ∉ mp.lru.erase b := fun hmem => (hc.chains.nodup.mem_erase_iff.mp hmem).1 rfl
    dsimp only
    cases hdirty : (mp.bkt b).dirty with
    | true =>
      rw [if_pos rfl, mpoolWrite_eq (hc.within b hb)]
      obtain ⟨hself, hrest⟩ := written_stored (F := F) (hc.full b hb)
      have hbkt : ∀ c, c ≠ b → (written F mp b).bkt c = mp.bkt c := fun c hne => modify_bkt_of_ne hne
      have hbkt' : (written F mp b).bkt b =
          { mp.bkt b with page := F.pgout (mp.bkt b).pgno (mp.bkt b).page, dirty := false } := modify_bkt_self
      have hnum : ((written F mp b).bkt b).pgno = (mp.bkt b).pgno := by rw [hbkt']
      rw [hc.cached b hb hpin] at hself
      refine Or.inr ⟨b, _, rfl, ⟨?_, hout, ?_, rfl, rfl, ?_⟩⟩
      · refine hc.evict hb hpin rfl ?_ hbkt hnum rfl rfl hself fun q hne hst => hrest q _ hne hst
        simp only [Mpool.rmchain, Mpool.rmhash, hnum]
        rfl
      · have hlen := hc.full b hb
        rw [← F.length_pgout (mp.bkt b).pgno] at hlen
        simp only [Mpool.rmchain, Mpool.rmhash, hbkt', hlen]
      · intro c hcmem
        obtain ⟨hne, hcmem⟩ := hc.chains.nodup.mem_erase_iff.mp hcmem
        exact ⟨hcmem, congrArg Bkt.pgno (hbkt c hne)⟩
    | false =>
      rw [if_neg (by simp)]
      refine Or.inr ⟨b, _, rfl, ⟨?_, hout, hc.full b hb, rfl, rfl, ?_⟩⟩
      · exact hc.evict hb hpin rfl rfl (fun _ _ => rfl) rfl rfl rfl (hc.stored_of_clean hb hdirty hpin)
          fun _ _ hst => hst
      · exact fun c hcmem => ⟨List.mem_of_mem_erase hcmem, rfl⟩

theorem mpoolGet_spec (hc : Coherent F ulong mp array held) (hheld : held pgno = none) (hfresh : mp.Unused fresh)
    (hwithin : mp.Within ulong pgno) :
    (mpoolGet F ulong mp pgno fresh = (none, mp) ∧ (mp.npages ≤ pgno ∨ fresh = none)) ∨
      ∃ b mp', mpoolGet F ulong mp pgno fresh = (some b, mp') ∧ pgno < mp.npages ∧
        (mp'.bkt b).page = array pgno ∧
        Coherent F ulong mp' array
          (Function.update held pgno (some { buf := b, page := array pgno, modified := false, new := false })) := by
  unfold mpoolGet
  cases hlook : mpoolLook mp pgno with
  | some b =>
    obtain ⟨hb, rfl⟩ := (mpoolLook_some hc.chains).mp hlook
    have hpin : (mp.bkt b).pinned = false := by
      rw [← Bool.not_eq_true]
      intro hpinned
      obtain ⟨h, hh⟩ := hc.pinned b hb hpinned
      rw [hheld] at hh
      cases hh
    have hpage := hc.cached b hb hpin
    refine Or.inr ⟨b, _, rfl, hc.numbered b hb, ?_, ?_⟩
    · rw [modify_bkt_self]
      exact hpage
    · refine hc.revise hb ?_ ?_ rfl rfl rfl (fun c hne => modify_bkt_of_ne hne) ?_ ?_ (fun _ _ => rfl)
        (fun q hne => Function.update_of_ne hne ..) ?_ ?_ ?_ ?_ fun _ _ hst => hst
      · exact List.nodup_cons.mpr ⟨fun hmem => (hc.chains.nodup.mem_erase_iff.mp hmem).1 rfl, hc.chains.nodup.erase b⟩
      · intro c
        change c ∈ b :: mp.lru.erase b ↔ c ∈ mp.lru
        exact (List.perm_cons_erase hb).mem_iff.symm
      · rw [modify_bkt_self]
        rfl
      · rw [modify_bkt_self]
        exact hc.full b hb
      · intro h hh
        rw [Function.update_self] at hh
        obtain rfl := Option.some.inj hh
        rw [modify_bkt_self]
        exact ⟨rfl, rfl, hpage, fun _ _ => rfl⟩
      · exact fun _ => ⟨_, Function.update_self ..⟩
      · rw [modify_bkt_self]
        intro hcontra
        cases hcontra
      · rw [modify_bkt_self]
        rcases hc.stored _ (hc.numbered b hb) with hst | ⟨c, hcmem, hnum, hwhy⟩
        · exact Or.inl hst
        · obtain rfl := hc.chains.unique c hcmem b hb hnum
          rcases hwhy with hdirty | ⟨h, hh, -⟩
          · exact Or.inr (Or.inl hdirty)
          · rw [hheld] at hh
            cases hh
  | none =>
    have habsent := (mpoolLook_none hc.chains).mp hlook
    dsimp only
    split
    case isTrue hge => exact Or.inl ⟨rfl, Or.inl hge⟩
    case isFalse hlt =>
      rw [Nat.not_le] at hlt
      rcases mpoolBkt_spec hc hfresh with ⟨hcall, hnone⟩ | ⟨b, mp₁, hcall, hgiven⟩
      · rw [hcall]
        exact Or.inl ⟨rfl, Or.inr hnone⟩
      · have habsent₁ : ∀ c ∈ mp₁.lru, (mp₁.bkt c).pgno ≠ pgno := by
          intro c hcmem
          rw [(hgiven.still c hcmem).2]
          exact habsent c (hgiven.still c hcmem).1
        have hlt₁ : pgno < mp₁.npages := hgiven.npages ▸ hlt
        have hwithin₁ : mp₁.Within ulong pgno := by rwa [Mpool.Within, hgiven.pagesize]
        obtain ⟨hsize, hin⟩ := hgiven.coherent.stored_of_absent hlt₁ habsent₁
        have hlen : (mp₁.file.read (mp₁.pagesize * pgno) mp₁.pagesize).length = mp₁.pagesize := File.length_read hsize
        have hoffset : (mp₁.modify b fun x => { x with pgno, dirty := false, pinned := true }).offset ulong pgno =
            some (mp₁.pagesize * pgno) := offset_eq hwithin₁
        rw [hcall]
        dsimp only
        rw [hoffset]
        simp only [modify_file, modify_pagesize, hlen, ne_eq, not_true_eq_false, if_false]
        refine Or.inr ⟨b, _, rfl, hlt, ?_, ?_⟩
        · rw [← hin]
          simp only [Mpool.inschain, Mpool.inshash, modify_bkt_self]
        · refine hgiven.coherent.attach hgiven.out (x := { page := array pgno, pgno, dirty := false, pinned := true })
            habsent₁ rfl ?_ ?_ rfl rfl (Nat.le_refl _) hlt₁ (fun q hq => Or.inl hq) rfl hwithin₁ ?_ rfl rfl fun _ => rfl
          · simp only [Mpool.inschain, Mpool.inshash, modify_hashtable]
          · simp only [Mpool.inschain, Mpool.inshash, Mpool.modify, Function.update_self, Function.update_idem, hin]
          · rw [← hin, F.length_pgin, hlen]

theorem mpoolNew_spec (hc : Coherent F ulong mp array held) (hfresh : mp.Unused fresh)
    (hwithin : mp.Within ulong mp.npages) (hsmall : mp.npages + 1 < 4294967296) :
    (mpoolNew F ulong mp fresh = (none, mp) ∧ fresh = none) ∨
      ∃ b mp', mpoolNew F ulong mp fresh = (some (b, mp.npages), mp') ∧
        Coherent F ulong mp' array
          (Function.update held mp.npages (some { buf := b, page := (mp'.bkt b).page, modified := false, new := true })) := by
  unfold mpoolNew
  rcases mpoolBkt_spec hc hfresh with ⟨hcall, hnone⟩ | ⟨b, mp₁, hcall, hgiven⟩
  · rw [hcall]
    exact Or.inl ⟨rfl, hnone⟩
  · have hnext : (mp₁.npages + 1) % 4294967296 = mp₁.npages + 1 := by
      rw [hgiven.npages]
      exact Nat.mod_eq_of_lt hsmall
    have hwithin₁ : mp₁.Within ulong mp₁.npages := by rwa [Mpool.Within, hgiven.pagesize, hgiven.npages]
    rw [hcall]
    dsimp only
    rw [hnext]
    refine Or.inr ⟨b, _, by rw [hgiven.npages], ?_⟩
    rw [← hgiven.npages]
    refine hgiven.coherent.attach hgiven.out
      (x := { mp₁.bkt b with pgno := mp₁.npages, dirty := false, pinned := true })
      (fun c hcmem => (hgiven.coherent.numbered c hcmem).ne) rfl ?_ rfl rfl rfl (Nat.le_succ _) (Nat.lt_succ_self _)
      ?_ rfl hwithin₁ ?_ rfl ?_ ?_
    · simp only [Mpool.inschain, Mpool.inshash, modify_hashtable]
    · intro q hq
      rcases Nat.lt_succ_iff_lt_or_eq.mp hq with hlt | heq
      · exact Or.inl hlt
      · exact Or.inr ⟨heq, rfl⟩
    · rw [hgiven.pagesize]
      exact hgiven.full
    · simp only [Mpool.inschain, Mpool.inshash, modify_bkt_self]
    · intro hcontra
      cases hcontra

theorem modify_spec (hc : Coherent F ulong mp array held) (hh : held pgno = some h) (hlen : page.length = mp.pagesize) :
    Coherent F ulong (mp.modify h.buf fun x => { x with page }) array
      (Function.update held pgno (some { h with page, modified := true })) := by
  obtain ⟨hbuf, rfl, hpin, -⟩ := hc.theirs pgno h hh
  refine hc.revise hbuf hc.chains.nodup (fun _ => Iff.rfl) rfl rfl rfl (fun c hne => modify_bkt_of_ne hne) ?_ ?_
    (fun _ _ => rfl) (fun q hne => Function.update_of_ne hne ..) ?_ ?_ ?_ ?_ fun _ _ hst => hst
  · rw [modify_bkt_self]
  · rw [modify_bkt_self]
    exact hlen
  · intro g hg
    rw [Function.update_self] at hg
    obtain rfl := Option.some.inj hg
    rw [modify_bkt_self]
    exact ⟨rfl, hpin, rfl, fun _ hcontra => by cases hcontra⟩
  · exact fun _ => ⟨_, Function.update_self ..⟩
  · rw [modify_bkt_self]
    intro hcontra
    rw [hpin] at hcontra
    cases hcontra
  · exact Or.inr (Or.inr ⟨_, Function.update_self .., Or.inr rfl⟩)

theorem mpoolPut_spec (hc : Coherent F ulong mp array held) (hh : held pgno = some h) {dirty : Bool}
    (hmod : h.modified = true → dirty = true) (hnew : h.new = true → dirty = true) :
    Coherent F ulong (mpoolPut mp h.buf dirty) (Function.update array pgno h.page) (Function.update held pgno none) := by
  obtain ⟨hbuf, rfl, -, hpage⟩ := hc.theirs pgno h hh
  refine hc.revise hbuf hc.chains.nodup (fun _ => Iff.rfl) rfl rfl rfl (fun c hne => modify_bkt_of_ne hne) ?_ ?_
    (fun q hne => Function.update_of_ne hne ..) (fun q hne => Function.update_of_ne hne ..) ?_ ?_ ?_ ?_
    fun _ _ hst => hst
  · rw [mpoolPut, modify_bkt_self]
  · rw [mpoolPut, modify_bkt_self]
    exact hc.full _ hbuf
  · intro g hg
    rw [Function.update_self] at hg
    cases hg
  · rw [mpoolPut, modify_bkt_self]
    intro hcontra
    cases hcontra
  · rw [mpoolPut, modify_bkt_self, Function.update_self]
    exact fun _ => hpage
  · rw [mpoolPut, modify_bkt_self, Function.update_self]
    cases dirty with
    | true => exact Or.inr (Or.inl (Bool.or_true _))
    | false =>
      have hmod' : h.modified = false := by
        cases hm : h.modified with
        | true => exact (hmod hm).symm
        | false => rfl
      have hnew' : h.new = false := by
        cases hn : h.new with
        | true => exact (hnew hn).symm
        | false => rfl
      rcases hc.stored _ (hc.numbered _ hbuf) with hst | ⟨c, hcmem, hnum, hwhy⟩
      · rw [hc.unmodified _ h hh hnew' hmod']
        exact Or.inl hst
      · obtain rfl := hc.chains.unique c hcmem _ hbuf hnum
        rcases hwhy with hdirty | ⟨g, hg, hwhy⟩
        · exact Or.inr (Or.inl (by rw [hdirty]; rfl))
        · obtain rfl := Option.some.inj (hh.symm.trans hg)
          rw [hnew', hmod'] at hwhy
          rcases hwhy with hcontra | hcontra <;> cases hcontra

theorem written_spec (hc : Coherent F ulong mp array held) (hb : b ∈ mp.lru)
    (hout : F.pgout (mp.bkt b).pgno (mp.bkt b).page = (mp.bkt b).page) :
    Coherent F ulong (written F mp b) array held := by
  obtain ⟨hself, hrest⟩ := written_stored (F := F) (hc.full b hb)
  have hbkt : (written F mp b).bkt b = { mp.bkt b with dirty := false } := by
    rw [written, modify_bkt_self]
    dsimp only
    rw [hout]
  refine hc.revise hb hc.chains.nodup (fun _ => Iff.rfl) rfl rfl rfl (fun c hne => modify_bkt_of_ne hne) ?_ ?_
    (fun _ _ => rfl) (fun _ _ => rfl) ?_ ?_ ?_ ?_ fun q hne hst => hrest q _ hne hst
  · rw [hbkt]
  · rw [hbkt]
    exact hc.full b hb
  · intro h hh
    obtain rfl := hc.buf_eq hb hh
    obtain ⟨-, -, hpin, hpage⟩ := hc.theirs _ h hh
    rw [hbkt]
    exact ⟨rfl, hpin, hpage, hc.unmodified _ h hh⟩
  · rw [hbkt]
    exact hc.pinned b hb
  · rw [hbkt]
    exact hc.cached b hb
  · cases hpin : (mp.bkt b).pinned with
    | false =>
      rw [← hc.cached b hb hpin]
      exact Or.inl hself
    | true =>
      obtain ⟨h, hh⟩ := hc.pinned b hb hpin
      by_cases hwhy : h.new = true ∨ h.modified = true
      · exact Or.inr (Or.inr ⟨h, hh, hwhy⟩)
      · rw [not_or, Bool.not_eq_true, Bool.not_eq_true] at hwhy
        obtain rfl := hc.buf_eq hb hh
        rw [(hc.theirs _ h hh).2.2.2, hc.unmodified _ h hh hwhy.1 hwhy.2] at hself
        exact Or.inl hself

theorem syncLoop_spec {l : List Nat} (hc : Coherent F ulong mp array held) (hl : ∀ b ∈ l, b ∈ mp.lru)
    (hout : ∀ b ∈ mp.lru, (mp.bkt b).dirty = true → F.pgout (mp.bkt b).pgno (mp.bkt b).page = (mp.bkt b).page) :
    ∃ mp', syncLoop F ulong l mp = (true, mp') ∧ Coherent F ulong mp' array held := by
  induction l generalizing mp with
  | nil => exact ⟨mp, rfl, hc⟩
  | cons b l ih =>
    have hb := hl b List.mem_cons_self
    unfold syncLoop
    split
    case isTrue hdirty =>
      rw [mpoolWrite_eq (hc.within b hb)]
      apply ih (written_spec hc hb (hout b hb hdirty))
      · exact fun c hcmem => hl c (List.mem_cons_of_mem b hcmem)
      · intro c hcmem hcdirty
        by_cases hcb : c = b
        · rw [hcb, written, modify_bkt_self] at hcdirty
          cases hcdirty
        · have hbkt : (written F mp b).bkt c = mp.bkt c := modify_bkt_of_ne hcb
          rw [hbkt] at hcdirty ⊢
          exact hout c hcmem hcdirty
    case isFalse =>
      exact ih hc (fun c hcmem => hl c (List.mem_cons_of_mem b hcmem)) hout

abbrev Run (F : Filters) (ulong : Nat) (ok : System → Call → Prop) : System → Prop :=
  Runs (System.Opened F) (System.step F ulong) fun s call => s.Allowed call ∧ ok s call

theorem opened_coherent (hs : s.Opened F) : Coherent F ulong s.pool s.array s.held := by
  obtain ⟨⟨file, pagesize, maxcache, hpos, hpool⟩, harray, hheld⟩ := hs
  have hlru : ∀ b, b ∉ s.pool.lru := by
    intro b
    rw [hpool]
    exact List.not_mem_nil
  have hnone : ∀ {p : Nat} {h : Held}, s.held p ≠ some h := by
    intro p h hh
    rw [hheld p] at hh
    cases hh
  refine ⟨?_, ⟨?_, ?_, ?_, ?_⟩, ?_, ?_, ?_, ?_, ?_, ?_, ?_, ?_⟩
  · rwa [hpool]
  · rw [hpool]
    exact List.nodup_nil
  · intro k
    rw [hpool]
    exact List.nodup_nil
  · intro k b
    rw [hpool]
    exact iff_of_false List.not_mem_nil fun hmem => List.not_mem_nil hmem.1
  · exact fun b hb => absurd hb (hlru b)
  · exact fun b hb => absurd hb (hlru b)
  · exact fun b hb => absurd hb (hlru b)
  · exact fun b hb => absurd hb (hlru b)
  · exact fun p h hh => absurd hh hnone
  · exact fun b hb => absurd hb (hlru b)
  · exact fun b hb => absurd hb (hlru b)
  · exact fun p h hh => absurd hh hnone
  · intro p hp
    refine Or.inl ⟨?_, (harray p).symm⟩
    rw [hpool] at hp ⊢
    have hle : p < file.size / pagesize := hp.trans_le (Nat.mod_le ..)
    calc
      pagesize * p + pagesize = pagesize * (p + 1) := (Nat.mul_succ ..).symm
      _ ≤ pagesize * (file.size / pagesize) := Nat.mul_le_mul_left pagesize hle
      _ ≤ file.size := Nat.mul_div_le ..

theorem step_coherent (hc : Coherent F ulong s.pool s.array s.held) {call : Call} (hok : s.Allowed call)
    (hcareful : s.Careful F ulong call) :
    ∃ s', s.step F ulong call = some s' ∧ Coherent F ulong s'.pool s'.array s'.held := by
  cases call with
  | get pgno fresh =>
    simp only [System.step]
    rcases mpoolGet_spec hc hok.1 hok.2 hcareful with ⟨hcall, -⟩ | ⟨b, mp', hcall, -, -, hc'⟩
    · rw [hcall]
      exact ⟨_, rfl, hc⟩
    · rw [hcall]
      exact ⟨_, rfl, hc'⟩
  | new fresh =>
    simp only [System.step]
    rcases mpoolNew_spec hc hok hcareful.1 hcareful.2 with ⟨hcall, -⟩ | ⟨b, mp', hcall, hc'⟩
    · rw [hcall]
      exact ⟨_, rfl, hc⟩
    · rw [hcall]
      exact ⟨_, rfl, hc'⟩
  | modify pgno page =>
    obtain ⟨⟨h, hh⟩, hlen⟩ := hok
    exact ⟨_, by rw [System.step, hh, Option.map_some], modify_spec hc hh hlen⟩
  | put pgno dirty =>
    obtain ⟨h, hh, hmod⟩ := hok
    exact ⟨_, by rw [System.step, hh, Option.map_some], mpoolPut_spec hc hh hmod (hcareful h hh)⟩
  | sync =>
    obtain ⟨mp', hcall, hc'⟩ := syncLoop_spec hc (fun b hb => List.mem_reverse.mp hb) hcareful
    refine ⟨_, rfl, ?_⟩
    rw [mpoolSync, hcall]
    exact hc'

theorem Run.coherent (hs : Run F ulong (System.Careful F ulong) s) : Coherent F ulong s.pool s.array s.held := by
  apply hs.invariant
  · exact fun s hs => opened_coherent hs
  · intro s call s' hc hok hstep
    obtain ⟨s₁, hstep₁, hc'⟩ := step_coherent hc hok.1 hok.2
    obtain rfl := Option.some.inj (hstep₁.symm.trans hstep)
    exact hc'

/-- In a run of careful calls the pool is the array: what a user has in a buffer is what the user made it, and
`mpool_get` returns what the array has, or nothing where there is no such page or no memory. -/
theorem pool_transparent (hs : Run F ulong (System.Careful F ulong) s) :
    (∀ pgno h, s.held pgno = some h → (s.pool.bkt h.buf).page = h.page) ∧
      ∀ pgno fresh, s.Allowed (.get pgno fresh) → s.Careful F ulong (.get pgno fresh) →
        ((mpoolGet F ulong s.pool pgno fresh).1 = none ∧ (s.pool.npages ≤ pgno ∨ fresh = none)) ∨
          ∃ b mp', mpoolGet F ulong s.pool pgno fresh = (some b, mp') ∧ pgno < s.pool.npages ∧
            (mp'.bkt b).page = s.array pgno := by
  have hc := hs.coherent
  refine ⟨fun pgno h hh => (hc.theirs pgno h hh).2.2.2, fun pgno fresh hok hcareful => ?_⟩
  rcases mpoolGet_spec hc hok.1 hok.2 hcareful with ⟨hcall, hwhy⟩ | ⟨b, mp', hcall, hlt, hpage, -⟩
  · exact Or.inl ⟨by rw [hcall], hwhy⟩
  · exact Or.inr ⟨b, mp', hcall, hlt, hpage⟩

def turned : Filters where
  pgin _ page := page.reverse
  pgout _ page := page.reverse
  length_pgin _ _ := List.length_reverse
  length_pgout _ _ := List.length_reverse
  pgin_pgout _ _ := List.reverse_reverse _
  pgout_pgin _ _ := List.reverse_reverse _

def onePage : System where
  pool := mpoolOpen { size := 2, byte := fun i => if i = 0 then 1 else 2 } 2 1
  array pgno := ({ size := 2, byte := fun i => if i = 0 then 1 else 2 } : File).read (2 * pgno) 2 |>.reverse
  held _ := none

def System.next (s : System) (call : Call) : System := (s.step turned 4294967296 call).getD s

theorem run_next {ok : System → Call → Prop} (hs : Run turned 4294967296 ok s) (call : Call) (hok : s.Allowed call)
    (hcall : ok s call) (hstep : (s.step turned 4294967296 call).isSome) : Run turned 4294967296 ok (s.next call) := by
  obtain ⟨s', hs'⟩ := Option.isSome_iff_exists.mp hstep
  rw [System.next, hs', Option.getD_some]
  exact hs.call call ⟨hok, hcall⟩ hs'

def fresh₁ : Fresh := some (1, { page := [0, 0], pgno := 0, dirty := false, pinned := false })

def changed : System := ((onePage.next (.get 0 fresh₁)).next (.modify 0 [5, 6])).next (.put 0 true)

theorem run_changed {ok : System → Call → Prop} (hok : ∀ s call, s.Careful turned 4294967296 call → ok s call) :
    Run turned 4294967296 ok changed := by
  have hopen : Run turned 4294967296 ok onePage := .start ⟨⟨_, 2, 1, by decide, rfl⟩, fun _ => rfl, fun _ => rfl⟩
  have hunused : onePage.pool.Unused fresh₁ := by
    intro b x hx
    obtain ⟨rfl, rfl⟩ := Prod.mk.inj (Option.some.inj hx)
    exact ⟨List.not_mem_nil, rfl⟩
  have hwithin : onePage.pool.Within 4294967296 0 := ⟨by decide, by decide⟩
  have hget := run_next hopen (.get 0 fresh₁) ⟨rfl, hunused⟩ (hok _ _ hwithin) rfl
  have hmodify := run_next hget (.modify 0 [5, 6]) ⟨⟨_, rfl⟩, rfl⟩ (hok _ _ trivial) rfl
  exact run_next hmodify (.put 0 true) ⟨_, rfl, fun _ => rfl⟩ (hok _ _ fun _ _ _ => rfl) rfl

theorem changed_transparent : Run turned 4294967296 (System.Careful turned 4294967296) changed ∧
    (∀ pgno h, changed.held pgno = some h → (changed.pool.bkt h.buf).page = h.page) ∧
      ∀ pgno fresh, changed.Allowed (.get pgno fresh) → changed.Careful turned 4294967296 (.get pgno fresh) →
        ((mpoolGet turned 4294967296 changed.pool pgno fresh).1 = none ∧
            (changed.pool.npages ≤ pgno ∨ fresh = none)) ∨
          ∃ b mp', mpoolGet turned 4294967296 changed.pool pgno fresh = (some b, mp') ∧ pgno < changed.pool.npages ∧
            (mp'.bkt b).page = changed.array pgno :=
  have hrun := run_changed fun _ _ h => h
  ⟨hrun, pool_transparent hrun⟩

/-- After `mpool_sync` the user gets the page as the filter has left it. -/
theorem synced_turned : Run turned 4294967296 (fun _ _ => True) (changed.next .sync) ∧
    (changed.next .sync).Allowed (.get 0 none) ∧ (changed.next .sync).array 0 = [5, 6] ∧
    ∃ b mp', mpoolGet turned 4294967296 (changed.next .sync).pool 0 none = (some b, mp') ∧ (mp'.bkt b).page = [6, 5] := by
  have hrun : Run turned 4294967296 (fun _ _ => True) changed := run_changed fun _ _ _ => trivial
  refine ⟨run_next hrun .sync trivial trivial rfl, ⟨rfl, fun b x hx => by cases hx⟩, rfl, 1, _, rfl, rfl⟩

end NetBSD.Db
