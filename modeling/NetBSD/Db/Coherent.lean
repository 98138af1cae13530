import NetBSD.Db.Mpool

/-!
# What the cache holds against the array

A page that is not in the cache is in the file; one that is in the cache and no user has is what the array has there;
and a user's page is what the user has made it.
-/

namespace NetBSD.Db

open Lib (File)

variable {F : Filters} {ulong : Nat} {mp mp' : Mpool} {array : Nat → Page} {held : Nat → Option Held} {b c p q n off : Nat}
  {x : Bkt} {f : Bkt → Bkt} {h : Held} {file file' : File} {page : Page}

def Stored (F : Filters) (n : Nat) (file : File) (p : Nat) (page : Page) : Prop :=
  n * p + n ≤ file.size ∧ F.pgin p (file.read (n * p) n) = page

theorem Stored.write (hlen : page.length = n) (hin : F.pgin p page = x.page) :
    Stored F n (file.write (n * p) page) p x.page := by
  subst hlen
  exact ⟨File.le_size_write, by rw [File.read_write, hin]⟩

theorem Stored.write_of_ne {page' : Page} (h : Stored F n file q page) (hlen : page'.length = n) (hne : q ≠ p) :
    Stored F n (file.write (n * p) page') q page := by
  obtain ⟨hsize, hin⟩ := h
  refine ⟨hsize.trans File.size_le_write, ?_⟩
  rw [File.read_write_of_disjoint hsize, hin]
  rcases Nat.lt_or_gt_of_ne hne with hlt | hgt
  · left
    calc
      n * q + n = n * (q + 1) := (Nat.mul_succ n q).symm
      _ ≤ n * p := Nat.mul_le_mul_left n hlt
  · right
    calc
      n * p + page'.length = n * (p + 1) := by rw [hlen, Nat.mul_succ]
      _ ≤ n * q := Nat.mul_le_mul_left n hgt

structure Coherent (F : Filters) (ulong : Nat) (mp : Mpool) (array : Nat → Page) (held : Nat → Option Held) : Prop where
  pagesize : 0 < mp.pagesize
  chains : Chained mp.lru mp.hashtable fun b => (mp.bkt b).pgno
  numbered : ∀ b ∈ mp.lru, (mp.bkt b).pgno < mp.npages
  within : ∀ b ∈ mp.lru, mp.Within ulong (mp.bkt b).pgno
  full : ∀ b ∈ mp.lru, (mp.bkt b).page.length = mp.pagesize
  theirs : ∀ p h, held p = some h →
    h.buf ∈ mp.lru ∧ (mp.bkt h.buf).pgno = p ∧ (mp.bkt h.buf).pinned = true ∧ (mp.bkt h.buf).page = h.page
  pinned : ∀ b ∈ mp.lru, (mp.bkt b).pinned = true → ∃ h, held (mp.bkt b).pgno = some h
  cached : ∀ b ∈ mp.lru, (mp.bkt b).pinned = false → (mp.bkt b).page = array (mp.bkt b).pgno
  unmodified : ∀ p h, held p = some h → h.new = false → h.modified = false → h.page = array p
  stored : ∀ p < mp.npages, Stored F mp.pagesize mp.file p (array p) ∨
    ∃ b ∈ mp.lru, (mp.bkt b).pgno = p ∧
      ((mp.bkt b).dirty = true ∨ ∃ h, held p = some h ∧ (h.new = true ∨ h.modified = true))

namespace Coherent

theorem buf_eq (hc : Coherent F ulong mp array held) (hb : b ∈ mp.lru) (hh : held (mp.bkt b).pgno = some h) :
    h.buf = b := by
  obtain ⟨hbuf, hnum, -⟩ := hc.theirs _ h hh
  exact hc.chains.unique h.buf hbuf b hb hnum

theorem stored_of_absent (hc : Coherent F ulong mp array held) (hp : p < mp.npages)
    (habsent : ∀ b ∈ mp.lru, (mp.bkt b).pgno ≠ p) : Stored F mp.pagesize mp.file p (array p) := by
  rcases hc.stored p hp with hst | ⟨b, hb, hnum, -⟩
  · exact hst
  · exact absurd hnum (habsent b hb)

theorem stored_of_clean (hc : Coherent F ulong mp array held) (hb : b ∈ mp.lru) (hclean : (mp.bkt b).dirty = false)
    (hpin : (mp.bkt b).pinned = false) : Stored F mp.pagesize mp.file (mp.bkt b).pgno (array (mp.bkt b).pgno) := by
  rcases hc.stored _ (hc.numbered b hb) with hst | ⟨c, hcmem, hnum, hwhy⟩
  · exact hst
  · obtain rfl := hc.chains.unique c hcmem b hb hnum
    rcases hwhy with hdirty | ⟨h, hh, -⟩
    · rw [hclean] at hdirty
      cases hdirty
    · have hpinned := (hc.theirs _ h hh).2.2.1
      rw [hc.buf_eq hb hh, hpin] at hpinned
      cases hpinned

theorem congr (hc : Coherent F ulong mp array held) (hlru : mp'.lru = mp.lru) (hhash : mp'.hashtable = mp.hashtable)
    (hfile : mp'.file = mp.file) (hnpages : mp'.npages = mp.npages) (hpagesize : mp'.pagesize = mp.pagesize)
    (hbkt : ∀ c ∈ mp.lru, mp'.bkt c = mp.bkt c) : Coherent F ulong mp' array held := by
  refine ⟨hpagesize ▸ hc.pagesize, ?_, ?_, ?_, ?_, ?_, ?_, ?_, hc.unmodified, ?_⟩
  · rw [hlru, hhash]
    exact hc.chains.congr fun c hcmem => by rw [hbkt c hcmem]
  · intro c hcmem
    rw [hlru] at hcmem
    rw [hbkt c hcmem, hnpages]
    exact hc.numbered c hcmem
  · intro c hcmem
    rw [hlru] at hcmem
    rw [hbkt c hcmem, Mpool.Within, hpagesize]
    exact hc.within c hcmem
  · intro c hcmem
    rw [hlru] at hcmem
    rw [hbkt c hcmem, hpagesize, hc.full c hcmem]
  · intro p g hg
    rw [hlru, hbkt _ (hc.theirs p g hg).1]
    exact hc.theirs p g hg
  · intro c hcmem
    rw [hlru] at hcmem
    rw [hbkt c hcmem]
    exact hc.pinned c hcmem
  · intro c hcmem
    rw [hlru] at hcmem
    rw [hbkt c hcmem]
    exact hc.cached c hcmem
  · intro p hp
    rw [hpagesize, hfile]
    rcases hc.stored p (hnpages ▸ hp) with hst | ⟨c, hcmem, hwhy⟩
    · exact Or.inl hst
    · refine Or.inr ⟨c, hlru ▸ hcmem, ?_⟩
      rwa [hbkt c hcmem]

theorem evict (hc : Coherent F ulong mp array held) (hb : b ∈ mp.lru) (hpin : (mp.bkt b).pinned = false)
    (hlru : mp'.lru = mp.lru.erase b)
    (hhash : mp'.hashtable = Function.update mp.hashtable (hashkey (mp.bkt b).pgno)
      ((mp.hashtable (hashkey (mp.bkt b).pgno)).erase b))
    (hbkt : ∀ c, c ≠ b → mp'.bkt c = mp.bkt c) (hnum : (mp'.bkt b).pgno = (mp.bkt b).pgno)
    (hnpages : mp'.npages = mp.npages) (hpagesize : mp'.pagesize = mp.pagesize)
    (hself : Stored F mp.pagesize mp'.file (mp.bkt b).pgno (array (mp.bkt b).pgno))
    (hfile : ∀ q, q ≠ (mp.bkt b).pgno → Stored F mp.pagesize mp.file q (array q) →
      Stored F mp.pagesize mp'.file q (array q)) : Coherent F ulong mp' array held := by
  have hmem : ∀ c, c ∈ mp'.lru ↔ c ≠ b ∧ c ∈ mp.lru := fun c => by rw [hlru, hc.chains.nodup.mem_erase_iff]
  have hheld : ∀ p h, held p = some h → h.buf ≠ b := by
    rintro p h hh rfl
    rw [(hc.theirs p h hh).2.2.1] at hpin
    cases hpin
  refine ⟨hpagesize ▸ hc.pagesize, ?_, ?_, ?_, ?_, ?_, ?_, ?_, hc.unmodified, ?_⟩
  · rw [hlru, hhash]
    apply (hc.chains.erase b).congr
    intro c hcmem
    rw [hbkt c ((hc.chains.nodup.mem_erase_iff).mp hcmem).1]
  · intro c hcmem
    obtain ⟨hne, hcmem⟩ := (hmem c).mp hcmem
    rw [hbkt c hne, hnpages]
    exact hc.numbered c hcmem
  · intro c hcmem
    obtain ⟨hne, hcmem⟩ := (hmem c).mp hcmem
    rw [hbkt c hne, Mpool.Within, hpagesize]
    exact hc.within c hcmem
  · intro c hcmem
    obtain ⟨hne, hcmem⟩ := (hmem c).mp hcmem
    rw [hbkt c hne, hpagesize]
    exact hc.full c hcmem
  · intro p h hh
    rw [hbkt _ (hheld p h hh), hmem]
    exact ⟨⟨hheld p h hh, (hc.theirs p h hh).1⟩, (hc.theirs p h hh).2⟩
  · intro c hcmem
    obtain ⟨hne, hcmem⟩ := (hmem c).mp hcmem
    rw [hbkt c hne]
    exact hc.pinned c hcmem
  · intro c hcmem
    obtain ⟨hne, hcmem⟩ := (hmem c).mp hcmem
    rw [hbkt c hne]
    exact hc.cached c hcmem
  · intro p hp
    rw [hpagesize]
    by_cases hpb : p = (mp.bkt b).pgno
    · rw [hpb]
      exact Or.inl hself
    · rcases hc.stored p (hnpages ▸ hp) with hst | ⟨c, hcmem, hnumc, hwhy⟩
      · exact Or.inl (hfile p hpb hst)
      · have hne : c ≠ b := by
          rintro rfl
          exact hpb hnumc.symm
        refine Or.inr ⟨c, (hmem c).mpr ⟨hne, hcmem⟩, ?_, ?_⟩
        · rw [hbkt c hne, hnumc]
        · rwa [hbkt c hne]

theorem attach (hc : Coherent F ulong mp array held) (hb : b ∉ mp.lru) (habsent : ∀ c ∈ mp.lru, (mp.bkt c).pgno ≠ x.pgno)
    (hlru : mp'.lru = b :: mp.lru)
    (hhash : mp'.hashtable = Function.update mp.hashtable (hashkey x.pgno) (b :: mp.hashtable (hashkey x.pgno)))
    (hbkt : mp'.bkt = Function.update mp.bkt b x) (hfile : mp'.file = mp.file) (hpagesize : mp'.pagesize = mp.pagesize)
    (hle : mp.npages ≤ mp'.npages) (hlt : x.pgno < mp'.npages)
    (hnpages : ∀ q < mp'.npages, q < mp.npages ∨ q = x.pgno ∧ h.new = true)
    (hpin : x.pinned = true) (hwithin : mp.Within ulong x.pgno) (hfull : x.page.length = mp.pagesize)
    (hbuf : h.buf = b) (hpage : h.page = x.page) (hold : h.new = false → h.page = array x.pgno) :
    Coherent F ulong mp' array (Function.update held x.pgno (some h)) := by
  have hself : mp'.bkt b = x := by rw [hbkt, Function.update_self]
  have hne : ∀ c ∈ mp.lru, c ≠ b := fun c hcmem heq => hb (heq ▸ hcmem)
  have hother : ∀ c ∈ mp.lru, mp'.bkt c = mp.bkt c := fun c hcmem => by
    rw [hbkt, Function.update_of_ne (hne c hcmem)]
  have hheld : ∀ q, q ≠ x.pgno → Function.update held x.pgno (some h) q = held q :=
    fun q hq => Function.update_of_ne hq ..
  have hmem : ∀ {P : Nat → Prop}, P b → (∀ c ∈ mp.lru, P c) → ∀ c ∈ mp'.lru, P c := by
    intro P hPb hP c hcmem
    rw [hlru, List.mem_cons] at hcmem
    rcases hcmem with rfl | hcmem
    · exact hPb
    · exact hP c hcmem
  refine ⟨hpagesize ▸ hc.pagesize, ?_, hmem ?_ ?_, hmem ?_ ?_, hmem ?_ ?_, ?_, hmem ?_ ?_, hmem ?_ ?_, ?_, ?_⟩
  · have hnum : (fun c => (mp'.bkt c).pgno) b = x.pgno := by
      dsimp only
      rw [hself]
    rw [hlru, hhash, ← hnum]
    apply Chained.insert _ hb
    · intro c hcmem
      rw [hother c hcmem, hself]
      exact habsent c hcmem
    · exact hc.chains.congr fun c hcmem => by rw [hother c hcmem]
  · rw [hself]
    exact hlt
  · intro c hcmem
    rw [hother c hcmem]
    exact (hc.numbered c hcmem).trans_le hle
  · rw [hself, Mpool.Within, hpagesize]
    exact hwithin
  · intro c hcmem
    rw [hother c hcmem, Mpool.Within, hpagesize]
    exact hc.within c hcmem
  · rw [hself, hpagesize, hfull]
  · intro c hcmem
    rw [hother c hcmem, hpagesize, hc.full c hcmem]
  · intro q g hg
    by_cases hq : q = x.pgno
    · rw [hq, Function.update_self] at hg
      obtain rfl := Option.some.inj hg
      rw [hbuf, hself, hlru]
      exact ⟨List.mem_cons_self, hq.symm, hpin, hpage.symm⟩
    · rw [hheld q hq] at hg
      obtain ⟨hgmem, hrest⟩ := hc.theirs q g hg
      rw [hother _ hgmem, hlru]
      exact ⟨List.mem_cons_of_mem b hgmem, hrest⟩
  · rw [hself]
    exact fun _ => ⟨h, Function.update_self ..⟩
  · intro c hcmem
    rw [hother c hcmem, hheld _ (habsent c hcmem)]
    exact hc.pinned c hcmem
  · rw [hself, hpin]
    intro hcontra
    cases hcontra
  · intro c hcmem
    rw [hother c hcmem]
    exact hc.cached c hcmem
  · intro q g hg hnew hmod
    by_cases hq : q = x.pgno
    · rw [hq, Function.update_self] at hg
      obtain rfl := Option.some.inj hg
      rw [hq]
      exact hold hnew
    · rw [hheld q hq] at hg
      exact hc.unmodified q g hg hnew hmod
  · intro q hq
    rw [hpagesize, hfile]
    rcases hnpages q hq with hqold | ⟨rfl, hnew⟩
    · rcases hc.stored q hqold with hst | ⟨c, hcmem, hnumc, hwhy⟩
      · exact Or.inl hst
      · have hqne : q ≠ x.pgno := hnumc ▸ habsent c hcmem
        refine Or.inr ⟨c, hlru ▸ List.mem_cons_of_mem b hcmem, ?_, ?_⟩
        · rw [hother c hcmem, hnumc]
        · rw [hother c hcmem, hheld q hqne]
          exact hwhy
    · refine Or.inr ⟨b, hlru ▸ List.mem_cons_self, ?_, Or.inr ⟨h, Function.update_self .., Or.inl hnew⟩⟩
      rw [hself]

theorem revise (hc : Coherent F ulong mp array held) {array' : Nat → Page} {held' : Nat → Option Held} (hb : b ∈ mp.lru)
    (hnodup : mp'.lru.Nodup) (hmem : ∀ c, c ∈ mp'.lru ↔ c ∈ mp.lru) (hhash : mp'.hashtable = mp.hashtable)
    (hnpages : mp'.npages = mp.npages) (hpagesize : mp'.pagesize = mp.pagesize)
    (hbkt : ∀ c, c ≠ b → mp'.bkt c = mp.bkt c) (hnum : (mp'.bkt b).pgno = (mp.bkt b).pgno)
    (hfull : (mp'.bkt b).page.length = mp.pagesize)
    (harray : ∀ q, q ≠ (mp.bkt b).pgno → array' q = array q) (hheld : ∀ q, q ≠ (mp.bkt b).pgno → held' q = held q)
    (htheirs : ∀ h, held' (mp.bkt b).pgno = some h → h.buf = b ∧ (mp'.bkt b).pinned = true ∧
      (mp'.bkt b).page = h.page ∧ (h.new = false → h.modified = false → h.page = array' (mp.bkt b).pgno))
    (hpinned : (mp'.bkt b).pinned = true → ∃ h, held' (mp.bkt b).pgno = some h)
    (hcached : (mp'.bkt b).pinned = false → (mp'.bkt b).page = array' (mp.bkt b).pgno)
    (hself : Stored F mp.pagesize mp'.file (mp.bkt b).pgno (array' (mp.bkt b).pgno) ∨ (mp'.bkt b).dirty = true ∨
      ∃ h, held' (mp.bkt b).pgno = some h ∧ (h.new = true ∨ h.modified = true))
    (hfile : ∀ q, q ≠ (mp.bkt b).pgno → Stored F mp.pagesize mp.file q (array q) →
      Stored F mp.pagesize mp'.file q (array q)) : Coherent F ulong mp' array' held' := by
  have hnum' : ∀ c, (mp'.bkt c).pgno = (mp.bkt c).pgno := by
    intro c
    by_cases hcb : c = b
    · rw [hcb, hnum]
    · rw [hbkt c hcb]
  have hpage : ∀ c ∈ mp.lru, c ≠ b → (mp.bkt c).pgno ≠ (mp.bkt b).pgno :=
    fun c hcmem hcb heq => hcb (hc.chains.unique c hcmem b hb heq)
  refine ⟨hpagesize ▸ hc.pagesize, ?_, ?_, ?_, ?_, ?_, ?_, ?_, ?_, ?_⟩
  · rw [hhash]
    exact (hc.chains.perm hnodup hmem).congr fun c _ => hnum' c
  · intro c hcmem
    rw [hnum' c, hnpages]
    exact hc.numbered c ((hmem c).mp hcmem)
  · intro c hcmem
    rw [hnum' c, Mpool.Within, hpagesize]
    exact hc.within c ((hmem c).mp hcmem)
  · intro c hcmem
    rw [hpagesize]
    by_cases hcb : c = b
    · rw [hcb, hfull]
    · rw [hbkt c hcb, hc.full c ((hmem c).mp hcmem)]
  · intro q g hg
    by_cases hq : q = (mp.bkt b).pgno
    · rw [hq] at hg
      obtain ⟨hbuf, hpin, hgpage, -⟩ := htheirs g hg
      rw [hbuf, hmem]
      exact ⟨hb, hnum.trans hq.symm, hpin, hgpage⟩
    · rw [hheld q hq] at hg
      obtain ⟨hgmem, hgnum, hrest⟩ := hc.theirs q g hg
      have hgb : g.buf ≠ b := by
        rintro rfl
        exact hq hgnum.symm
      rw [hbkt _ hgb, hmem]
      exact ⟨hgmem, hgnum, hrest⟩
  · intro c hcmem
    by_cases hcb : c = b
    · rw [hcb, hnum]
      exact hpinned
    · rw [hbkt c hcb, hheld _ (hpage c ((hmem c).mp hcmem) hcb)]
      exact hc.pinned c ((hmem c).mp hcmem)
  · intro c hcmem
    by_cases hcb : c = b
    · rw [hcb, hnum]
      exact hcached
    · rw [hbkt c hcb, harray _ (hpage c ((hmem c).mp hcmem) hcb)]
      exact hc.cached c ((hmem c).mp hcmem)
  · intro q g hg hnew hmod
    by_cases hq : q = (mp.bkt b).pgno
    · rw [hq] at hg ⊢
      exact (htheirs g hg).2.2.2 hnew hmod
    · rw [hheld q hq] at hg
      rw [harray q hq]
      exact hc.unmodified q g hg hnew hmod
  · intro q hq
    rw [hpagesize]
    by_cases hqb : q = (mp.bkt b).pgno
    · rw [hqb]
      exact hself.imp_right fun hwhy => ⟨b, (hmem b).mpr hb, hnum, hwhy⟩
    · rw [harray q hqb, hheld q hqb]
      rcases hc.stored q (hnpages ▸ hq) with hst | ⟨c, hcmem, hnumc, hwhy⟩
      · exact Or.inl (hfile q hqb hst)
      · have hcb : c ≠ b := by
          rintro rfl
          exact hqb hnumc.symm
        refine Or.inr ⟨c, (hmem c).mpr hcmem, ?_, ?_⟩
        · rw [hbkt c hcb, hnumc]
        · rwa [hbkt c hcb]

end Coherent

end NetBSD.Db
