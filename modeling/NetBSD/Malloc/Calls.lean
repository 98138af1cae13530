import NetBSD.Malloc.Blocks

/-!
# What the calls do to the blocks

`malloc`, `free` and `realloc` keep the heap sound, and the bytes of the blocks in use.
-/

namespace NetBSD.Malloc

open Function (update)
open Lib (Linked)

variable {pg pb b nbytes op cp size : Nat} {chunks : Nat → Nat → Prop} {frees : Nat → List Nat} {h h' : Heap} {live : List (Nat × Nat)}
  {m m' m'' : Nat → Byte} {e : Sbrk} {r : Option Nat}

def Fresh (h : Heap) (a : Nat × Nat) : Prop :=
  0 < a.1 ∧ a.1 + a.2 ≤ 4294967296 ∧ ∀ a' ∈ h.areas, a.1 + a.2 ≤ a'.1 ∨ a'.1 + a'.2 ≤ a.1

theorem Kept.trans {chunks' : Nat → Nat → Prop} (h : Kept pg chunks m m') (h' : Kept pg chunks' m' m'')
    (hsub : ∀ op b, chunks op b → chunks' op b) : Kept pg chunks m m'' :=
  fun op b hc x hx hx' => (h' op b (hsub op b hc) x hx hx').trans (h op b hc x hx hx')

theorem Sound.kept_putUsed (hs : Sound pg chunks frees h live) (hc : chunks op b) : Kept pg chunks h.mem (putUsed op b h.mem) := by
  intro op' b' hc' x hx hx'
  have := overhead_eq
  by_cases heq : op = op' ∧ b = b'
  · exact putUsed_of_ne (by omega) b h.mem
  · have := hs.header_apart hc hc' heq (by omega) hx'
    exact putUsed_of_ne (by omega) b h.mem

theorem Sound.kept_putNext (hs : Sound pg chunks frees h live) (hc : chunks op b) (q : Option Nat) :
    Kept pg chunks h.mem (putNext op q h.mem) := by
  intro op' b' hc' x hx hx'
  have := overhead_eq
  by_cases heq : op = op' ∧ b = b'
  · exact putNext_of_ne (by omega) q h.mem
  · exact putNext_of_ne (hs.header_apart hc hc' heq (by omega) hx') q h.mem

theorem request_spec (pg b : Nat) : 0 < (request pg (1 <<< (b + 3))).2 ∧
    (∀ j < (request pg (1 <<< (b + 3))).2, j * 1 <<< (b + 3) + len pg b ≤ (request pg (1 <<< (b + 3))).1) ∧
      (1 < (request pg (1 <<< (b + 3))).2 → len pg b = 1 <<< (b + 3)) := by
  have hmin := size_ge b
  unfold request len
  generalize 1 <<< (b + 3) = sz at *
  split
  · next hlt =>
    refine ⟨Nat.div_pos (Nat.le_of_lt hlt) (by omega), fun j hj => ?_, fun _ => rfl⟩
    have hmul := Nat.mul_le_mul_right sz (Nat.succ_le_of_lt hj)
    have hdiv := Nat.div_mul_le_self pg sz
    rw [Nat.succ_mul] at hmul
    exact Nat.le_trans hmul hdiv
  · refine ⟨Nat.one_pos, fun j hj => ?_, fun hlt => absurd hlt (Nat.lt_irrefl 1)⟩
    obtain rfl : j = 0 := Nat.lt_one_iff.1 hj
    rewrite [Nat.zero_mul, Nat.zero_add]
    exact Nat.le_refl _

theorem next_zero {p : Nat} (h : ∀ x, p ≤ x → x < p + 4 → m x = 0) : next m p = none := by
  unfold next
  rw [h p (by omega) (by omega), h (p + 1) (by omega) (by omega), h (p + 2) (by omega) (by omega), h (p + 3) (by omega) (by omega)]
  rfl

theorem Sound.grow {k amt sz : Nat} (hs : Sound pg chunks frees h live) (hb : h.nextf b = none) (hsmall : b + 3 < 31)
    (hfresh : Fresh h (op, amt)) (hsz : 8 ≤ sz) (hk : 0 < k) (hfits : ∀ j < k, j * sz + len pg b ≤ amt) (hlen : 1 < k → len pg b = sz) :
    ∃ chunks' frees', Sound pg chunks' frees'
        { h with
          mem := carve sz (k - 1) op fun x => if op ≤ x ∧ x < op + amt then 0 else h.mem x
          nextf := update h.nextf b (some op)
          areas := (op, amt) :: h.areas } live ∧ (∀ op b, chunks op b → chunks' op b) ∧
      Kept pg chunks h.mem (carve sz (k - 1) op fun x => if op ≤ x ∧ x < op + amt then 0 else h.mem x) := by
  obtain ⟨hpos, hend, hapart⟩ := hfresh
  dsimp only at hpos hend hapart
  have hlenge := len_ge pg b
  have hlast := hfits (k - 1) (by omega)
  have hout : ∀ x, x < op ∨ op + amt ≤ x →
      carve sz (k - 1) op (fun x => if op ≤ x ∧ x < op + amt then 0 else h.mem x) x = h.mem x := by
    intro x hx
    rcases hx with hlt | hle
    · rw [carve_of_lt hlt, if_neg (by omega)]
    · rw [carve_of_le (by omega) hsz, if_neg (by omega)]
  have holdout : ∀ op' b', chunks op' b' → op' + len pg b' ≤ op ∨ op + amt ≤ op' := by
    intro op' b' hc
    obtain ⟨-, -, a, ha, hle, hle'⟩ := hs.inside op' b' hc
    have := hapart a ha
    omega
  have hempty : frees b = [] := (hs.linked b).eq_nil hb
  have hlinked := carve_linked (m := fun x => if op ≤ x ∧ x < op + amt then 0 else h.mem x) (k := k - 1) hpos hsz (by omega)
    (next_zero fun x hx hx' => if_pos (by omega))
  rw [Nat.sub_add_cancel hk] at hlinked
  generalize carve sz (k - 1) op (fun x => if op ≤ x ∧ x < op + amt then 0 else h.mem x) = m at *
  have hold : ∀ op' b', chunks op' b' → ∀ x, op' ≤ x → x < op' + 4 → m x = h.mem x := fun op' b' hc x hx hx' => by
    have := len_ge pg b'
    have := holdout op' b' hc
    exact hout x (by omega)
  have hnew : ∀ op' ∈ List.range' op k sz, ∃ j < k, op' = op + j * sz ∧ op' + len pg b ≤ op + amt := fun op' hop' => by
    obtain ⟨j, hj, rfl⟩ := List.mem_range'.1 hop'
    have := hfits j hj
    rw [Nat.mul_comm sz]
    exact ⟨j, hj, rfl, by omega⟩
  refine ⟨fun op' b' => chunks op' b' ∨ (b' = b ∧ op' ∈ List.range' op k sz), update frees b (List.range' op k sz), ?_,
    fun _ _ hc => .inl hc, fun op' b' hc x hx hx' => hout x (by have := holdout op' b' hc; omega)⟩
  refine ⟨fun op₁ b₁ op₂ b₂ h₁ h₂ => ?_, fun op' b' hc => ?_, fun a ha => ?_, fun b' => ?_, fun b' => ?_, fun b' op' hop' => ?_,
    fun x hx => ?_, hs.names⟩
  · rcases h₁ with h₁ | ⟨rfl, h₁⟩ <;> rcases h₂ with h₂ | ⟨rfl, h₂⟩
    · exact hs.apart op₁ b₁ op₂ b₂ h₁ h₂
    · obtain ⟨j, hj, hop₂, hle⟩ := hnew op₂ h₂
      have := holdout op₁ b₁ h₁
      exact .inr (by omega)
    · obtain ⟨j, hj, hop₁, hle⟩ := hnew op₁ h₁
      have := holdout op₂ b₂ h₂
      exact .inr (by omega)
    · obtain ⟨j₁, hj₁, rfl, hle₁⟩ := hnew op₁ h₁
      obtain ⟨j₂, hj₂, rfl, hle₂⟩ := hnew op₂ h₂
      rcases Nat.lt_trichotomy j₁ j₂ with hlt | rfl | hlt
      · have hmul := Nat.mul_le_mul_right sz (Nat.succ_le_of_lt hlt)
        rw [Nat.succ_mul] at hmul
        rw [hlen (by omega)]
        exact .inr (.inl (by omega))
      · exact .inl ⟨rfl, rfl⟩
      · have hmul := Nat.mul_le_mul_right sz (Nat.succ_le_of_lt hlt)
        rw [Nat.succ_mul] at hmul
        rw [hlen (by omega)]
        exact .inr (.inr (by omega))
  · rcases hc with hc | ⟨rfl, hin⟩
    · obtain ⟨hp, hb', a, ha, hle⟩ := hs.inside op' b' hc
      exact ⟨hp, hb', a, List.mem_cons_of_mem _ ha, hle⟩
    · obtain ⟨j, hj, hop', hle⟩ := hnew op' hin
      exact ⟨by omega, hsmall, (op, amt), List.mem_cons_self, by dsimp only; omega, hle⟩
  · rcases List.mem_cons.1 ha with rfl | ha
    · exact hend
    · exact hs.areas a ha
  · dsimp only
    by_cases hbb : b' = b
    · rw [hbb, Function.update_self, Function.update_self]
      exact hlinked
    · rw [Function.update_of_ne hbb, Function.update_of_ne hbb]
      exact (hs.linked b').congr fun op' hop' => next_congr (hold op' b' (hs.free b' op' hop'))
  · by_cases hbb : b' = b
    · rw [hbb, Function.update_self]
      exact List.nodup_range' sz (by omega)
    · rw [Function.update_of_ne hbb]
      exact hs.nodup b'
  · by_cases hbb : b' = b
    · rw [hbb, Function.update_self] at hop'
      exact .inr ⟨hbb, hop'⟩
    · rw [Function.update_of_ne hbb] at hop'
      exact .inl (hs.free b' op' hop')
  · obtain ⟨hle, b', hc, hnot, hfits', hmagic, hindex⟩ := hs.used x hx
    refine ⟨hle, b', .inl hc, fun hin => ?_, hfits', (hold _ b' hc _ (Nat.le_refl _) (by omega)).trans hmagic,
      (hold _ b' hc _ (Nat.le_succ _) (by omega)).trans hindex⟩
    by_cases hbb : b' = b
    · rw [hbb, Function.update_self] at hin
      obtain ⟨j, hj, hop', hle'⟩ := hnew _ hin
      have hsep := holdout _ b' hc
      rw [hbb] at hsep
      omega
    · rw [Function.update_of_ne hbb] at hin
      exact hnot hin

theorem Sound.morecore (hs : Sound pg chunks frees h live) (hsz : h.pagesz = pg) (hb : h.nextf b = none)
    (hfresh : ∀ a, (morecore e b h).areas = a :: h.areas → Fresh h a) :
    ∃ chunks' frees', Sound pg chunks' frees' (Malloc.morecore e b h) live ∧ (∀ op b, chunks op b → chunks' op b) ∧
      Kept pg chunks h.mem (Malloc.morecore e b h).mem := by
  subst hsz
  have hsame : ∃ chunks' frees', Sound h.pagesz chunks' frees' h live ∧ (∀ op b, chunks op b → chunks' op b) ∧ Kept h.pagesz chunks h.mem h.mem :=
    ⟨chunks, frees, hs, fun _ _ hc => hc, fun _ _ _ _ _ _ => rfl⟩
  unfold Malloc.morecore at hfresh ⊢
  split
  · exact hsame
  next hbig =>
  rw [if_neg hbig] at hfresh
  dsimp only at hfresh ⊢
  cases hmore : e.more with
  | none => exact hsame
  | some op =>
    rw [hmore] at hfresh
    obtain ⟨hk, hfits, hlen⟩ := request_spec h.pagesz b
    exact hs.grow hb (by omega) (hfresh _ rfl) (size_ge b) hk hfits hlen

def Booted (pg pb : Nat) (h : Heap) : Prop := h.pagesz = pg ∧ h.pagebucket = pb

def Aligned (pg : Nat) (e : Sbrk) (h : Heap) : Prop := h.pagesz = 0 → padding pg e ≠ 0 → e.aligned = true

theorem setup_spec (hpb : pb + 3 < 31) (hpg : pg = 1 <<< (pb + 3)) (hboot : h.pagesz = 0 ∨ Booted pg pb h) (haligned : Aligned pg e h) :
    setup pg e h = (true, { h with pagesz := pg, pagebucket := pb }) := by
  have hmin := size_ge pb
  unfold setup
  rcases hboot with hzero | ⟨hsz, hbucket⟩
  · have hloop : pageLoop pg 32 8 0 = pb := by
      rw [hpg]
      exact pageLoop_eq hpb (Nat.zero_le pb) (by omega)
    rw [if_neg (fun hne => hne hzero), if_neg fun hfails => Bool.false_ne_true (hfails.2.symm.trans (haligned hzero hfails.1)), hloop]
  · rw [if_pos (by omega), ← hsz, ← hbucket]

theorem Sound.popped (hs : Sound pg chunks frees h live) (hfits : nbytes + overhead ≤ len pg b) :
    ∃ frees', Sound pg chunks frees' (Malloc.pop b h).2 ((Malloc.pop b h).1.elim live fun p => (p, nbytes) :: live) ∧
      Kept pg chunks h.mem (Malloc.pop b h).2.mem := by
  unfold Malloc.pop
  cases hb : h.nextf b with
  | none => exact ⟨frees, hs, fun _ _ _ _ _ _ => rfl⟩
  | some op =>
    obtain ⟨hc, frees', hs'⟩ := hs.pop hb hfits
    exact ⟨frees', hs', hs.kept_putUsed hc⟩

theorem pop_areas (b : Nat) (h : Heap) : (pop b h).2.areas = h.areas := by
  unfold pop
  split <;> rfl

theorem pop_booted (hboot : Booted pg pb h) : Booted pg pb (pop b h).2 := by
  unfold pop
  split
  · exact hboot
  · exact hboot

theorem morecore_booted (hboot : Booted pg pb h) : Booted pg pb (morecore e b h) := by
  unfold morecore
  split
  · exact hboot
  · dsimp only
    split
    · exact hboot
    · exact hboot

theorem Sound.allocate (hs : Sound pg chunks frees h live) (hpb : pb + 3 < 31) (hpg : pg = 1 <<< (pb + 3)) (hboot : Booted pg pb h)
    (hfresh : ∀ a, (allocate e nbytes h).2.areas = a :: h.areas → Fresh h a) :
    ∃ chunks' frees', Sound pg chunks' frees' (Malloc.allocate e nbytes h).2
        ((Malloc.allocate e nbytes h).1.elim live fun p => (p, nbytes) :: live) ∧
      (∀ op b, chunks op b → chunks' op b) ∧ Kept pg chunks h.mem (Malloc.allocate e nbytes h).2.mem ∧
        Booted pg pb (Malloc.allocate e nbytes h).2 := by
  unfold Malloc.allocate at hfresh ⊢
  cases hbucket : bucketFor h nbytes with
  | none => exact ⟨chunks, frees, hs, fun _ _ hc => hc, fun _ _ _ _ _ _ => rfl, hboot⟩
  | some b =>
    rw [hbucket] at hfresh
    dsimp only at hfresh ⊢
    obtain ⟨-, hfits⟩ := bucketFor_spec hpb hpg hboot.1 hboot.2 hbucket
    split
    · next hnone =>
      rw [if_pos hnone] at hfresh
      simp only [pop_areas] at hfresh
      obtain ⟨chunks', frees', hs₂, hsub, hkept⟩ := hs.morecore hboot.1 hnone hfresh
      obtain ⟨frees'', hs₃, hkept'⟩ := hs₂.popped hfits
      exact ⟨chunks', frees'', hs₃, hsub, hkept.trans hkept' hsub, pop_booted (morecore_booted hboot)⟩
    · obtain ⟨frees', hs₂, hkept⟩ := hs.popped hfits
      exact ⟨chunks, frees', hs₂, fun _ _ hc => hc, hkept, pop_booted hboot⟩

theorem malloc_eq (hpb : pb + 3 < 31) (hpg : pg = 1 <<< (pb + 3)) (hboot : h.pagesz = 0 ∨ Booted pg pb h) (haligned : Aligned pg e h) :
    malloc pg e nbytes h = allocate e nbytes { h with pagesz := pg, pagebucket := pb } := by
  unfold malloc
  rw [setup_spec hpb hpg hboot haligned]
  exact if_neg Bool.noConfusion

theorem Sound.malloc (hs : Sound pg chunks frees h live) (hpb : pb + 3 < 31) (hpg : pg = 1 <<< (pb + 3))
    (hboot : h.pagesz = 0 ∨ Booted pg pb h) (haligned : Aligned pg e h)
    (hfresh : ∀ a, (malloc pg e nbytes h).2.areas = a :: h.areas → Fresh h a) :
    ∃ chunks' frees', Sound pg chunks' frees' (Malloc.malloc pg e nbytes h).2
        ((Malloc.malloc pg e nbytes h).1.elim live fun p => (p, nbytes) :: live) ∧
      (∀ op b, chunks op b → chunks' op b) ∧ Kept pg chunks h.mem (Malloc.malloc pg e nbytes h).2.mem ∧
        Booted pg pb (Malloc.malloc pg e nbytes h).2 := by
  rw [malloc_eq hpb hpg hboot haligned] at hfresh ⊢
  have hs₁ : Sound pg chunks frees { h with pagesz := pg, pagebucket := pb } live :=
    ⟨hs.apart, hs.inside, hs.areas, hs.linked, hs.nodup, hs.free, hs.used, hs.names⟩
  exact hs₁.allocate hpb hpg ⟨rfl, rfl⟩ hfresh

theorem Sound.freed (hs : Sound pg chunks frees h live) (hx : (cp, size) ∈ live) :
    ∃ b frees', chunks (cp - overhead) b ∧ b + 3 < 31 ∧ size + overhead ≤ len pg b ∧ (h.mem (cp - overhead) = magic) ∧
      (h.mem (cp - overhead + 1)).toNat = b ∧ Sound pg chunks frees' (Malloc.free (some cp) h) (live.filter fun x => some x.1 ≠ some cp) ∧
        Kept pg chunks h.mem (Malloc.free (some cp) h).mem := by
  obtain ⟨hle, b, hc, hnot, hfits, hmagic, hindex⟩ := hs.used _ hx
  obtain ⟨-, hsmall, -⟩ := hs.inside _ b hc
  obtain ⟨frees', hs'⟩ := hs.push hx hc
  have htoNat : (h.mem (cp - overhead + 1)).toNat = b := by
    rw [hindex, BitVec.toNat_ofNat]
    exact Nat.mod_eq_of_lt (by omega)
  refine ⟨b, frees', hc, hsmall, hfits, hmagic, htoNat, ?_⟩
  unfold Malloc.free
  dsimp only at hmagic ⊢
  rw [if_neg (not_not.2 hmagic), htoNat]
  exact ⟨hs', hs.kept_putNext hc _⟩

theorem bcopy_of_ne {src dst n x : Nat} (h : x < dst ∨ dst + n ≤ x) (m : Nat → Byte) : bcopy src dst n m x = m x := if_neg (by omega)

theorem bcopy_at {src dst n i : Nat} (hi : i < n) (m : Nat → Byte) : bcopy src dst n m (dst + i) = m (src + i) := by
  unfold bcopy
  rw [if_pos (by omega), Nat.add_sub_cancel_left]

theorem Sound.written {x : Nat × Nat} (hs : Sound pg chunks frees h live) (hx : x ∈ live)
    (hm : ∀ i, i < x.1 ∨ x.1 + x.2 ≤ i → m i = h.mem i) : Sound pg chunks frees { h with mem := m } live := by
  obtain ⟨hle, b, hc, hnot, hfits, -⟩ := hs.used x hx
  have := overhead_eq
  refine hs.headers fun op' b' hc' i hi hi' => hm i ?_
  have := len_ge pg b'
  rcases hs.apart _ b op' b' hc hc' with heq | hle' | hle' <;> omega

def Movable (e : Sbrk) (cp nbytes : Nat) (h : Heap) : Prop :=
  sameBlock h.pagesz (h.mem (cp - overhead + 1)).toNat nbytes = true ∨
    ∃ b, bucketFor h nbytes = some b ∧ (b = (h.mem (cp - overhead + 1)).toNat ∨ h.nextf b ≠ none ∨ (b + 3 < 31 ∧ e.more ≠ none))

theorem pop_isSome (hne : h.nextf b ≠ none) : ∃ p, (pop b h).1 = some p := by
  obtain ⟨op, hop⟩ := Option.ne_none_iff_exists'.1 hne
  unfold pop
  rw [hop]
  exact ⟨_, rfl⟩

theorem morecore_nextf (hb : b + 3 < 31) (hmore : e.more ≠ none) : (morecore e b h).nextf b ≠ none := by
  obtain ⟨op, hop⟩ := Option.ne_none_iff_exists'.1 hmore
  unfold morecore
  rw [if_neg (by omega), hop]
  dsimp only
  rw [Function.update_self]
  exact Option.some_ne_none op

theorem allocate_isSome (hb : bucketFor h nbytes = some b) (hserves : h.nextf b ≠ none ∨ (b + 3 < 31 ∧ e.more ≠ none)) :
    ∃ p, (allocate e nbytes h).1 = some p := by
  unfold allocate
  rw [hb]
  dsimp only
  split
  · next hnone =>
    rcases hserves with hne | ⟨hsmall, hmore⟩
    · exact absurd hnone hne
    · exact pop_isSome (morecore_nextf hsmall hmore)
  · next hne => exact pop_isSome hne

theorem malloc_booted (hpb : pb + 3 < 31) (hpg : pg = 1 <<< (pb + 3)) (hboot : Booted pg pb h) :
    malloc pg e nbytes h = allocate e nbytes h := by
  have hne : h.pagesz ≠ 0 := by
    have := size_ge pb
    rw [hboot.1]
    omega
  have hself : ({ h with pagesz := pg, pagebucket := pb } : Heap) = h := by
    rw [← hboot.1, ← hboot.2]
  rw [malloc_eq hpb hpg (.inr hboot) fun hzero => absurd hzero hne, hself]

theorem free_eq (hmagic : h.mem (cp - overhead) = magic) (hindex : (h.mem (cp - overhead + 1)).toNat = b) :
    free (some cp) h =
      { h with mem := putNext (cp - overhead) (h.nextf b) h.mem, nextf := update h.nextf b (some (cp - overhead)) } := by
  unfold free
  dsimp only
  rw [if_neg (not_not.2 hmagic), hindex]

theorem Sound.resized (hs : Sound pg chunks frees h live) (hx : (cp, size) ∈ live) (hc : chunks (cp - overhead) b)
    (hfits : nbytes + overhead ≤ len pg b) : Sound pg chunks frees h ((cp, nbytes) :: live.filter fun x => some x.1 ≠ some cp) := by
  obtain ⟨hle, b', hc', hnot, -, hheader⟩ := hs.used _ hx
  obtain rfl := hs.bucket_unique hc hc'
  refine { hs with used := fun x hx' => ?_, names := ?_ }
  · rcases List.mem_cons.1 hx' with rfl | hx'
    · exact ⟨hle, b, hc, hnot, hfits, hheader⟩
    · exact hs.used x (List.mem_filter.1 hx').1
  · refine List.nodup_cons.2 ⟨fun hin => ?_, hs.names.sublist (List.filter_sublist.map _)⟩
    obtain ⟨x, hx', heq⟩ := List.mem_map.1 hin
    exact of_decide_eq_true (List.mem_filter.1 hx').2 (congrArg some heq)

theorem move_areas {onb : Nat} : (move pg e cp nbytes onb h).2.areas = (malloc pg e nbytes h).2.areas := by
  unfold move
  split
  · next heq => rw [heq]
  · next heq =>
    rw [heq]
    dsimp only
    split <;> rfl

theorem Sound.realloc (hs : Sound pg chunks frees h live) (hpb : pb + 3 < 31) (hpg : pg = 1 <<< (pb + 3)) (hboot : Booted pg pb h)
    (hx : (cp, size) ∈ live) (hmovable : Movable e cp nbytes h)
    (hfresh : ∀ a, (realloc pg e (some cp) nbytes h).2.areas = a :: h.areas → Fresh h a) :
    ∃ p h' chunks' frees', Malloc.realloc pg e (some cp) nbytes h = (some p, h') ∧
      Sound pg chunks' frees' h' ((p, nbytes) :: live.filter fun x => some x.1 ≠ some cp) ∧
        (∀ i < min size nbytes, h'.mem (p + i) = h.mem (cp + i)) ∧ Booted pg pb h' := by
  obtain ⟨b, frees₁, hc, hsmall, hfits, hmagic, hindex, hs₁, hkept₁⟩ := hs.freed hx
  have hover := overhead_eq
  unfold Malloc.realloc at hfresh ⊢
  dsimp only at hfresh ⊢
  rw [if_pos hmagic, hindex] at hfresh ⊢
  rw [Movable, hindex] at hmovable
  by_cases hsame : sameBlock h.pagesz b nbytes = true
  · have hle : nbytes ≤ capacity pg b := hboot.1 ▸ (of_decide_eq_true hsame).1
    have hcap := capacity_add hsmall pg
    rw [if_pos hsame]
    exact ⟨cp, h, chunks, frees, rfl, hs.resized hx hc (by omega), fun _ _ => rfl, hboot⟩
  · obtain ⟨b', hbucket, hserves⟩ := hmovable.resolve_left hsame
    rw [if_neg hsame] at hfresh ⊢
    have hdata : ∀ i < size, (Malloc.free (some cp) h).mem (cp + i) = h.mem (cp + i) := fun i hi => by
      have := (hs.used _ hx).1
      exact hkept₁ _ b hc (cp + i) (by omega) (by omega)
    rw [free_eq hmagic hindex] at *
    generalize hh₁ : ({ h with mem := putNext (cp - overhead) (h.nextf b) h.mem, nextf := update h.nextf b (some (cp - overhead)) } : Heap) =
      h₁ at *
    have hboot₁ : Booted pg pb h₁ := hh₁ ▸ hboot
    have hareas : h₁.areas = h.areas := hh₁ ▸ rfl
    have hbucket₁ : bucketFor h₁ nbytes = some b' := hh₁ ▸ hbucket
    have hnextf : h₁.nextf b' ≠ none ∨ (b' + 3 < 31 ∧ e.more ≠ none) := by
      rcases hserves with rfl | hne | hmore
      · refine .inl (hh₁ ▸ ?_)
        dsimp only
        rw [Function.update_self]
        exact Option.some_ne_none _
      · refine .inl (hh₁ ▸ ?_)
        dsimp only
        by_cases hbb : b' = b
        · rw [hbb, Function.update_self]
          exact Option.some_ne_none _
        · rw [Function.update_of_ne hbb]
          exact hne
      · exact .inr hmore
    obtain ⟨p, hp⟩ := allocate_isSome hbucket₁ hnextf
    have hfresh' : ∀ a, (Malloc.allocate e nbytes h₁).2.areas = a :: h₁.areas → Fresh h₁ a := by
      intro a ha
      rw [hareas] at ha
      have hfresh₁ := hfresh a (by rw [move_areas, malloc_booted hpb hpg hboot₁]; exact ha)
      exact ⟨hfresh₁.1, hfresh₁.2.1, fun a' ha' => hfresh₁.2.2 a' (hareas ▸ ha')⟩
    obtain ⟨chunks', frees', hs₂, hsub, hkept₂, hboot₂⟩ := hs₁.allocate hpb hpg hboot₁ hfresh'
    unfold Malloc.move
    rw [malloc_booted hpb hpg hboot₁]
    generalize Malloc.allocate e nbytes h₁ = r at *
    obtain ⟨r₁, h₂⟩ := r
    obtain rfl : r₁ = some p := hp
    dsimp only [Option.elim] at hs₂ hkept₂ hboot₂ ⊢
    have hcap := capacity_add hsmall pg
    rw [hboot.1]
    have hkept : ∀ i < size, h₂.mem (cp + i) = h.mem (cp + i) := fun i hi => by
      have := (hs.used _ hx).1
      exact (hkept₂ _ b hc (cp + i) (by omega) (by omega)).trans (hdata i hi)
    refine ⟨p, _, chunks', frees', rfl, ?_, ?_, ?_⟩ <;> by_cases hcp : cp = p
    · rw [if_pos hcp]
      exact hs₂
    · rw [if_neg hcp]
      exact hs₂.written List.mem_cons_self fun i hi => bcopy_of_ne (by dsimp only at hi; split <;> omega) _
    · rw [if_pos hcp, ← hcp]
      exact fun i hi => hkept i (by omega)
    · rw [if_neg hcp]
      exact fun i hi => (bcopy_at (by split <;> omega) _).trans (hkept i (by omega))
    · rw [if_pos hcp]
      exact hboot₂
    · rw [if_neg hcp]
      exact hboot₂

end NetBSD.Malloc
