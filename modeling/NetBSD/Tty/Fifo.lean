import NetBSD.Tty.Refine

/-!
# Clists over whole runs

Any number of clists and the queues they hold, through any calls.
-/

namespace NetBSD.Tty

open Lib (Matches replies replies_matches)

variable {size : Nat → Nat} {out : Nat → Nat → Item} {s s' : Clists} {q q' : Queues} {clp : Clist}

structure Related (size : Nat → Nat) (out : Nat → Nat → Item) (s : Clists) (q : Queues) : Prop where
  stores : ∀ i, (s i).Stores (out i) (q i)
  cap : ∀ i, (q i).cap = size i

theorem Related.update (h : Related size out s q) {i : Nat} {p : Queue} (hi : clp.Stores (out i) p)
    (hcap : p.cap = (q i).cap) : Related size out (Function.update s i clp) (Function.update q i p) := by
  constructor
  · intro j
    by_cases hj : j = i
    · subst hj
      rw [Function.update_self, Function.update_self]
      exact hi
    · rw [Function.update_of_ne hj, Function.update_of_ne hj]
      exact h.stores j
  · intro j
    by_cases hj : j = i
    · subst hj
      rw [Function.update_self, hcap, h.cap]
    · rw [Function.update_of_ne hj, h.cap]

theorem Related.same (h : Related size out s q) {i : Nat} (hi : clp.Stores (out i) (q i)) :
    Related size out (Function.update s i clp) q := by
  have hupdate := h.update hi rfl
  rwa [Function.update_eq_self] at hupdate

theorem putc_encode {out : Nat → Item} {q : Queue} (h : clp.Stores out q) (x : Item) :
    ∃ r clp', putc (encode x) clp = some (r, clp') ∧ clp'.Stores out (q.push [x]) := by
  rcases h.fits.lt_or_eq with hroom | hfull
  · obtain ⟨clp', hput, hst⟩ := putc_room h hroom (encode x)
    have hpush : q.push [x] = { q with items := q.items ++ [x] } := by
      rw [Queue.push, List.take_of_length_le]
      rw [List.length_singleton]
      omega
    rw [decode_encode] at hst
    rw [hpush]
    exact ⟨0, clp', hput, hst⟩
  · have hpush : q.push [x] = q := by
      rw [Queue.push, hfull, Nat.sub_self, List.take_zero, List.append_nil]
    rw [hpush]
    exact ⟨-1, clp, putc_full h hfull _, h⟩

theorem Queue.push_nil (q : Queue) : q.push [] = q := by
  rw [Queue.push, List.take_nil, List.append_nil]

theorem Queue.push_push (q : Queue) (l l' : List Item) : (q.push l).push l' = q.push (l ++ l') := by
  unfold Queue.push
  congr 1
  dsimp only
  rw [List.append_assoc, List.take_append, List.length_append, List.length_take]
  congr 3
  omega

theorem catqLoop_spec (h : Related size out s q) {src dst fuel : Nat} (hne : src ≠ dst)
    (hfuel : (q src).items.length < fuel) :
    ∃ s', catqLoop fuel s src dst = some s' ∧
      Related size out s' (Function.update (Function.update q src { q src with items := [] }) dst
        ((q dst).push (q src).items)) := by
  induction fuel generalizing s q with
  | zero => omega
  | succ fuel ih =>
    rw [catqLoop]
    cases hitems : (q src).items with
    | nil =>
      rw [getc_nil (h.stores src) hitems]
      dsimp only
      rw [if_pos rfl]
      refine ⟨_, rfl, ?_⟩
      have hsrc : ({ q src with items := [] } : Queue) = q src := by rw [← hitems]
      rw [hsrc, Queue.push_nil, Function.update_eq_self, Function.update_eq_self, Function.update_eq_self]
      exact h
    | cons x xs =>
      obtain ⟨clp, hget, hst⟩ := getc_cons (h.stores src) hitems
      rw [hget]
      dsimp only
      rw [if_neg (encode_ne_minus_one x), Function.update_of_ne hne.symm]
      obtain ⟨r, clp', hput, hst'⟩ := putc_encode (h.stores dst) x
      rw [hput]
      have hrel := (h.update hst rfl).update (i := dst) hst' (by rw [Function.update_of_ne hne.symm]; rfl)
      have hsrc : Function.update (Function.update q src { q src with items := xs }) dst ((q dst).push [x]) src =
          { q src with items := xs } := by
        rw [Function.update_of_ne hne, Function.update_self]
      rw [hitems, List.length_cons] at hfuel
      obtain ⟨s', hloop, hrel'⟩ := ih hrel (by rw [hsrc]; dsimp only; omega)
      refine ⟨s', hloop, ?_⟩
      rw [hsrc, Function.update_self, Queue.push_push] at hrel'
      convert hrel' using 1
      funext j
      by_cases hdst : j = dst
      · rw [hdst, Function.update_self, Function.update_self]
        rfl
      · by_cases hsrc : j = src
        · rw [hsrc, Function.update_of_ne hne, Function.update_self, Function.update_of_ne hne,
            Function.update_self]
        · simp only [Function.update_of_ne hdst, Function.update_of_ne hsrc]

theorem catqLoop_self (h : Related size out s q) {i : Nat} (hne : (q i).items ≠ []) (fuel : Nat) :
    catqLoop fuel s i i = none := by
  induction fuel generalizing s q with
  | zero => rfl
  | succ fuel ih =>
    rw [catqLoop]
    cases hitems : (q i).items with
    | nil => exact absurd hitems hne
    | cons x xs =>
      obtain ⟨clp, hget, hst⟩ := getc_cons (h.stores i) hitems
      rw [hget]
      dsimp only
      rw [if_neg (encode_ne_minus_one x), Function.update_self]
      obtain ⟨r, clp', hput, hst'⟩ := putc_encode hst x
      rw [hput]
      apply ih ((h.update hst rfl).update hst' (by rw [Function.update_self]; rfl))
      have hroom : xs.length < (q i).cap := by
        have hfits := (h.stores i).fits
        rw [hitems, List.length_cons] at hfits
        exact hfits
      rw [Function.update_self]
      unfold Queue.push
      dsimp only
      rw [List.take_of_length_le]
      · simp
      · rw [List.length_singleton]
        omega

theorem step_matches (s : Clists) (q : Queues) (call : Call) (h : Related size out s q) :
    Matches (Related size out) (s.step call) (q.step call) := by
  have hst := h.stores
  cases call with
  | putc c i =>
    simp only [Clists.step, Queues.step]
    rcases (hst i).fits.lt_or_eq with hroom | hfull
    · obtain ⟨clp, hput, hst⟩ := putc_room (hst i) hroom c
      have hpush : (q i).push [decode c] = { q i with items := (q i).items ++ [decode c] } := by
        rw [Queue.push, List.take_of_length_le]
        rw [List.length_singleton]
        omega
      rw [hput, if_neg hroom.ne, hpush]
      exact .reply _ (h.update hst rfl)
    · have hpush : (q i).push [decode c] = q i := by
        rw [Queue.push, hfull, Nat.sub_self, List.take_zero, List.append_nil]
      rw [putc_full (hst i) hfull, if_pos hfull, hpush]
      exact .reply _ (h.update (hst i) rfl)
  | getc i =>
    simp only [Clists.step, Queues.step]
    cases hitems : (q i).items with
    | nil =>
      rw [getc_nil (hst i) hitems]
      exact .reply _ (h.same (hst i))
    | cons x xs =>
      obtain ⟨clp, hget, hst⟩ := getc_cons (hst i) hitems
      rw [hget]
      exact .reply _ (h.update hst rfl)
  | unputc i =>
    simp only [Clists.step, Queues.step]
    rcases List.eq_nil_or_concat (q i).items with hitems | ⟨xs, x, hitems⟩
    · rw [unputc_nil (hst i) hitems, hitems]
      exact .reply _ (h.same (hst i))
    · rw [List.concat_eq_append] at hitems
      obtain ⟨clp, hget, hst⟩ := unputc_concat (hst i) hitems
      rw [hget, hitems, List.getLast?_concat, List.dropLast_concat]
      exact .reply _ (h.update hst rfl)
  | bToQ cp count i =>
    obtain ⟨clp, hput, hst⟩ := bToQ_spec (hst i) cp count
    simp only [Clists.step, Queues.step]
    rw [hput]
    exact .reply _ (h.update hst rfl)
  | qToB i count =>
    obtain ⟨clp, hget, hst⟩ := qToB_spec (hst i) count
    simp only [Clists.step, Queues.step]
    rw [hget]
    exact .reply _ (h.update hst rfl)
  | ndflush i count =>
    obtain ⟨clp, hflush, hst⟩ := ndflush_spec (hst i) count
    simp only [Clists.step, Queues.step]
    rw [hflush]
    exact .reply _ (h.update hst rfl)
  | clrbits i k n =>
    simp only [Clists.step, Queues.step]
    rw [(hst i).cc]
    by_cases hrange : 0 < n ∧ k + n ≤ (q i).items.length
    · have hne : (q i).items ≠ [] := by
        intro hnil
        rw [hnil, List.length_nil] at hrange
        omega
      obtain ⟨f, ho⟩ := (hst i).here hne
      have hclear := clear_spec ho hrange.1 hrange.2
      rw [(hst i).cc] at hclear
      rw [if_pos hrange, if_pos hrange]
      exact .reply _ (h.update hclear rfl)
    · rw [if_neg hrange, if_neg hrange]
      exact .stuck
  | catq src dst =>
    simp only [Clists.step, Queues.step, catq]
    rw [(hst src).cc]
    by_cases hself : src = dst
    · subst hself
      by_cases hnil : (q src).items = []
      · have hsrc : ({ q src with items := [] } : Queue) = q src := by rw [← hnil]
        rw [if_neg fun hc => hc.2 hnil, hsrc, hnil, Function.update_eq_self, Queue.push_nil,
          Function.update_eq_self, catqLoop, getc_nil (hst src) hnil]
        dsimp only
        rw [if_pos rfl]
        exact .reply _ (h.same (hst src))
      · rw [if_pos ⟨rfl, hnil⟩, catqLoop_self h hnil]
        exact .stuck
    · obtain ⟨s', hloop, hrel⟩ := catqLoop_spec h hself (Nat.lt_succ_self _)
      rw [if_neg fun hc => hself hc.1, hloop, Function.update_of_ne (Ne.symm hself)]
      exact .reply _ hrel

/-- What can be seen of clists that were set up for `size` characters each, `start` being their cells then:
the counts, and what `firstc` and `nextc` give, are those of the queues, and no cell behind a ring has
changed. -/
def Shows (size : Nat → Nat) (start : Nat → Nat → Item) (s : Clists) (q : Queues) : Prop :=
  ∀ i, (s i).cCc = (q i).items.length ∧ (s i).scan = some ((q i).items.map encode) ∧
    (q i).items.length ≤ size i ∧ ∀ k, size i ≤ k → (s i).cell k = start i k

theorem Related.shows (h : Related size out s q) : Shows size out s q := by
  intro i
  have hst := h.stores i
  refine ⟨hst.cc, scan_spec hst, ?_, ?_⟩
  · rw [← h.cap i]
    exact hst.fits
  · intro k hk
    rw [← h.cap i] at hk
    exact hst.outside k hk

theorem clalloc_stores (size : Nat) (cs cq : Memory) :
    (clalloc size true cs cq).Stores (clalloc size true cs cq).cell { cap := size, items := [] } where
  cn := rfl
  cc := rfl
  quoted := rfl
  outside _ _ := rfl
  fits := Nat.zero_le _
  place hne := absurd rfl hne

/-- Clists that `clalloc` sets up with quoting return what the queues return, call by call, and hold what the
queues hold. -/
theorem clists_are_queues (size : Nat → Nat) (cs cq : Nat → Memory) (calls : List Call) :
    Matches (Shows size fun i => (clalloc (size i) true (cs i) (cq i)).cell)
      (replies Clists.step (fun i => clalloc (size i) true (cs i) (cq i)) calls)
      (replies Queues.step (fun i => { cap := size i, items := [] }) calls) := by
  have hstart : Related size (fun i => (clalloc (size i) true (cs i) (cq i)).cell)
      (fun i => clalloc (size i) true (cs i) (cq i)) fun i => { cap := size i, items := [] } :=
    ⟨fun i => clalloc_stores (size i) (cs i) (cq i), fun _ => rfl⟩
  apply (replies_matches step_matches hstart calls).mono
  exact fun s q h => h.shows

end NetBSD.Tty
