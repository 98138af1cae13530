import NetBSD.Kern.Callout
import Mathlib.Data.List.Range

/-!
# Callouts on time

What the times in the callout queue mean, and that each operation keeps it.
-/

namespace NetBSD.Kern

open Lib (Runs)

theorem int32_eq {x : Int} (hlow : -2147483648 ≤ x) (hhigh : x < 2147483648) : int32 x = x := by
  rw [int32, Int.bmod_def]
  split <;> omega

variable {Func Arg : Type} {now : Int} {due due' : Nat → Int} {queue : List (Callout Func Arg)}

def Follows (due : Nat → Int) : Int → List (Callout Func Arg) → Prop
  | _, [] => True
  | base, t :: rest => 0 ≤ t.cTime ∧ due t.serial = base + t.cTime ∧ Follows due (due t.serial) rest

def Encodes (now : Int) (due : Nat → Int) : List (Callout Func Arg) → Prop
  | [] => True
  | t :: rest => due t.serial = now + t.cTime ∧
      if t.cTime ≤ 0 then Encodes now due rest else Follows due (due t.serial) rest

theorem Follows.le {base : Int} (h : Follows due base queue) : ∀ t ∈ queue, base ≤ due t.serial := by
  induction queue generalizing base with
  | nil => exact fun t ht => absurd ht List.not_mem_nil
  | cons t rest ih =>
    obtain ⟨hpos, hdue, hrest⟩ := h
    intro u hu
    rcases List.mem_cons.mp hu with rfl | hu
    · omega
    · have hle := ih hrest u hu
      omega

theorem Follows.congr {base : Int} (h : Follows due base queue) (hsame : ∀ t ∈ queue, due' t.serial = due t.serial) :
    Follows due' base queue := by
  induction queue generalizing base with
  | nil => trivial
  | cons t rest ih =>
    obtain ⟨hpos, hdue, hrest⟩ := h
    have ht := hsame t List.mem_cons_self
    refine ⟨hpos, ht.trans hdue, ?_⟩
    rw [ht]
    exact ih hrest fun u hu => hsame u (List.mem_cons_of_mem t hu)

theorem Encodes.congr (h : Encodes now due queue) (hsame : ∀ t ∈ queue, due' t.serial = due t.serial) :
    Encodes now due' queue := by
  induction queue with
  | nil => trivial
  | cons t rest ih =>
    obtain ⟨hdue, hrest⟩ := h
    have ht := hsame t List.mem_cons_self
    refine ⟨ht.trans hdue, ?_⟩
    split <;> rename_i hsign
    · rw [if_pos hsign] at hrest
      exact ih hrest fun u hu => hsame u (List.mem_cons_of_mem t hu)
    · rw [if_neg hsign] at hrest
      rw [ht]
      exact hrest.congr fun u hu => hsame u (List.mem_cons_of_mem t hu)

theorem Encodes.later {t : Callout Func Arg} {rest : List (Callout Func Arg)} (h : Encodes now due (t :: rest))
    (hpos : 0 < t.cTime) : ∀ u ∈ t :: rest, now < due u.serial := by
  obtain ⟨hdue, hrest⟩ := h
  rw [if_neg (Int.not_le.mpr hpos)] at hrest
  intro u hu
  rcases List.mem_cons.mp hu with rfl | hu
  · omega
  · have hle := hrest.le u hu
    omega

theorem Follows.encodes (h : Follows due now queue) : Encodes now due queue := by
  induction queue with
  | nil => trivial
  | cons t rest ih =>
    obtain ⟨hpos, hdue, hrest⟩ := h
    refine ⟨hdue, ?_⟩
    split <;> rename_i hsign
    · have hnow : due t.serial = now := by omega
      rw [hnow] at hrest
      exact ih hrest
    · exact hrest

theorem hardclockLoop_spec (h : Encodes now due queue) (hprompt : ∀ t ∈ queue, now - due t.serial < 2147483648)
    (hfar : ∀ t ∈ queue, due t.serial - now ≤ 2147483647) :
    Encodes (now + 1) due (hardclockLoop queue).1 ∧
      (hardclockLoop queue).1.map Callout.key = queue.map Callout.key ∧
      ((hardclockLoop queue).2 = true ↔ ∃ t ∈ queue, due t.serial ≤ now + 1) := by
  induction queue with
  | nil =>
    refine ⟨trivial, rfl, iff_of_false Bool.false_ne_true ?_⟩
    rintro ⟨t, ht, -⟩
    cases ht
  | cons t rest ih =>
    have hlow := hprompt t List.mem_cons_self
    have hhigh := hfar t List.mem_cons_self
    obtain ⟨hdue, hrest⟩ := id h
    have hcount : int32 (t.cTime - 1) = t.cTime - 1 := int32_eq (by omega) (by omega)
    unfold hardclockLoop
    rw [hcount]
    dsimp only
    rcases lt_trichotomy t.cTime 1 with hover | hnow | hlater
    · rw [if_neg (by omega), if_neg (by omega)]
      rw [if_pos (by omega)] at hrest
      obtain ⟨hrec, hserial, -⟩ := ih hrest (fun u hu => hprompt u (List.mem_cons_of_mem t hu))
        fun u hu => hfar u (List.mem_cons_of_mem t hu)
      refine ⟨⟨?_, ?_⟩, ?_, iff_of_true rfl ⟨t, List.mem_cons_self, by omega⟩⟩
      · show due t.serial = now + 1 + (t.cTime - 1)
        omega
      · rw [if_pos (show t.cTime - 1 ≤ 0 by omega)]
        exact hrec
      · rw [List.map_cons, hserial, List.map_cons]
        rfl
    · rw [if_neg (by omega), if_pos (by omega)]
      rw [if_neg (by omega)] at hrest
      refine ⟨⟨?_, ?_⟩, rfl, iff_of_true rfl ⟨t, List.mem_cons_self, by omega⟩⟩
      · show due t.serial = now + 1 + (t.cTime - 1)
        omega
      · rw [if_pos (show t.cTime - 1 ≤ 0 by omega)]
        have hbase : due t.serial = now + 1 := by omega
        rw [hbase] at hrest
        exact hrest.encodes
    · rw [if_pos (by omega)]
      have hall := h.later (by omega)
      rw [if_neg (by omega)] at hrest
      refine ⟨⟨?_, ?_⟩, rfl, iff_of_false Bool.false_ne_true ?_⟩
      · show due t.serial = now + 1 + (t.cTime - 1)
        omega
      · rw [if_neg (show ¬t.cTime - 1 ≤ 0 by omega)]
        exact hrest
      · rintro ⟨u, hu, hle⟩
        rcases List.mem_cons.mp hu with rfl | hu
        · omega
        · have hge := hrest.le u hu
          omega

theorem Follows.timeoutLoop {base ticks : Int} {new : Callout Func Arg} (h : Follows due base queue) (hpos : 0 < ticks)
    (hint : ticks < 2147483648) (hfar : ∀ t ∈ queue, due t.serial - base < 2147483648)
    (hnew : due new.serial = base + ticks) : Follows due base (timeoutLoop new ticks queue) := by
  induction queue generalizing base ticks with
  | nil => exact ⟨hpos.le, hnew, trivial⟩
  | cons t rest ih =>
    obtain ⟨hgap, hdue, hrest⟩ := id h
    have hhigh := hfar t List.mem_cons_self
    unfold Kern.timeoutLoop
    by_cases hpass : ticks > t.cTime
    · rw [if_pos hpass]
      have hticks : (if t.cTime > 0 then int32 (ticks - t.cTime) else ticks) = ticks - t.cTime := by
        split
        · exact int32_eq (by omega) (by omega)
        · omega
      rw [hticks]
      refine ⟨hgap, hdue, ih hrest (by omega) (by omega) (fun u hu => ?_) (by omega)⟩
      have hle := hfar u (List.mem_cons_of_mem t hu)
      omega
    · rw [if_neg hpass, int32_eq (by omega) (by omega)]
      refine ⟨hpos.le, hnew, ?_, ?_, hrest⟩
      · show 0 ≤ t.cTime - ticks
        omega
      · show due t.serial = due new.serial + (t.cTime - ticks)
        omega

theorem Encodes.timeoutLoop {ticks : Int} {new : Callout Func Arg} (h : Encodes now due queue) (hpos : 0 < ticks)
    (hint : ticks < 2147483648) (hfar : ∀ t ∈ queue, due t.serial - now < 2147483648)
    (hnew : due new.serial = now + ticks) : Encodes now due (timeoutLoop new ticks queue) := by
  induction queue with
  | nil =>
    refine ⟨hnew, ?_⟩
    rw [if_neg (show ¬ticks ≤ 0 by omega)]
    trivial
  | cons t rest ih =>
    obtain ⟨hdue, hrest⟩ := id h
    have hhigh := hfar t List.mem_cons_self
    unfold Kern.timeoutLoop
    by_cases hpass : ticks > t.cTime
    · rw [if_pos hpass]
      refine ⟨hdue, ?_⟩
      by_cases hsign : t.cTime ≤ 0
      · rw [if_pos hsign] at hrest
        rw [if_pos hsign, if_neg (by omega)]
        exact ih hrest fun u hu => hfar u (List.mem_cons_of_mem t hu)
      · rw [if_neg hsign] at hrest
        rw [if_neg hsign, if_pos (by omega), int32_eq (by omega) (by omega)]
        refine hrest.timeoutLoop (by omega) (by omega) (fun u hu => ?_) (by omega)
        have hle := hfar u (List.mem_cons_of_mem t hu)
        omega
    · rw [if_neg (by omega)] at hrest
      rw [if_neg hpass, int32_eq (by omega) (by omega)]
      refine ⟨hnew, ?_⟩
      rw [if_neg (show ¬ticks ≤ 0 by omega)]
      refine ⟨?_, ?_, hrest⟩
      · show 0 ≤ t.cTime - ticks
        omega
      · show due t.serial = due new.serial + (t.cTime - ticks)
        omega

theorem timeoutLoop_perm (new : Callout Func Arg) (ticks : Int) (queue : List (Callout Func Arg)) :
    ((timeoutLoop new ticks queue).map Callout.key).Perm (new.key :: queue.map Callout.key) := by
  induction queue generalizing ticks with
  | nil => exact List.Perm.refl _
  | cons t rest ih =>
    unfold timeoutLoop
    split
    · exact ((ih _).cons t.key).trans (List.Perm.swap ..)
    · exact List.Perm.refl _

theorem Follows.unlinkTime {base : Int} {t : Callout Func Arg} (h : Follows due base (t :: queue))
    (hfar : ∀ u ∈ t :: queue, due u.serial - base < 2147483648) : Follows due base (unlinkTime t.cTime queue) := by
  obtain ⟨hgap, hdue, hrest⟩ := h
  cases queue with
  | nil => trivial
  | cons next rest =>
    obtain ⟨hgap', hdue', hrest'⟩ := hrest
    have hhigh := hfar next (List.mem_cons_of_mem t List.mem_cons_self)
    have hnext : (if t.cTime > 0 then { next with cTime := int32 (next.cTime + t.cTime) } else next) =
        { next with cTime := next.cTime + t.cTime } := by
      split
      · rw [int32_eq (by omega) (by omega)]
      · have hzero : t.cTime = 0 := by omega
        rw [hzero, Int.add_zero]
    rw [Kern.unlinkTime, hnext]
    refine ⟨?_, ?_, hrest'⟩
    · show 0 ≤ next.cTime + t.cTime
      omega
    · show due next.serial = base + (next.cTime + t.cTime)
      omega

theorem Encodes.unlinkTime {t : Callout Func Arg} (h : Encodes now due (t :: queue))
    (hfar : ∀ u ∈ t :: queue, due u.serial - now < 2147483648) : Encodes now due (unlinkTime t.cTime queue) := by
  obtain ⟨hdue, hrest⟩ := h
  by_cases hsign : t.cTime ≤ 0
  · rw [if_pos hsign] at hrest
    have hsame : Kern.unlinkTime t.cTime queue = queue := by
      cases queue with
      | nil => rfl
      | cons next rest => rw [Kern.unlinkTime, if_neg (by omega)]
    rwa [hsame]
  · rw [if_neg hsign] at hrest
    have hfollows : Follows due now (t :: queue) := ⟨by omega, hdue, hrest⟩
    exact (hfollows.unlinkTime hfar).encodes

section

variable [DecidableEq Func] [DecidableEq Arg] (ftn : Func) (arg : Arg)

theorem Follows.untimeoutLoop {base : Int} (h : Follows due base queue)
    (hfar : ∀ t ∈ queue, due t.serial - base < 2147483648) : Follows due base (untimeoutLoop ftn arg queue).2 := by
  induction queue generalizing base with
  | nil => trivial
  | cons t rest ih =>
    unfold Kern.untimeoutLoop
    split
    · exact h.unlinkTime hfar
    · obtain ⟨hgap, hdue, hrest⟩ := h
      refine ⟨hgap, hdue, ih hrest fun u hu => ?_⟩
      have hle := hfar u (List.mem_cons_of_mem t hu)
      omega

theorem Encodes.untimeoutLoop (h : Encodes now due queue) (hfar : ∀ t ∈ queue, due t.serial - now < 2147483648) :
    Encodes now due (untimeoutLoop ftn arg queue).2 := by
  induction queue with
  | nil => trivial
  | cons t rest ih =>
    unfold Kern.untimeoutLoop
    split
    · exact h.unlinkTime hfar
    · obtain ⟨hdue, hrest⟩ := h
      refine ⟨hdue, ?_⟩
      have hfar' : ∀ u ∈ rest, due u.serial - now < 2147483648 := fun u hu => hfar u (List.mem_cons_of_mem t hu)
      split <;> rename_i hsign
      · rw [if_pos hsign] at hrest
        exact ih hrest hfar'
      · rw [if_neg hsign] at hrest
        refine hrest.untimeoutLoop ftn arg fun u hu => ?_
        have hle := hfar' u hu
        omega

theorem unlinkTime_keys (time : Int) (queue : List (Callout Func Arg)) :
    (unlinkTime time queue).map Callout.key = queue.map Callout.key := by
  cases queue with
  | nil => rfl
  | cons next rest =>
    rw [unlinkTime]
    split <;> rfl

theorem untimeoutLoop_keys (queue : List (Callout Func Arg)) : (untimeoutLoop ftn arg queue).2.map Callout.key =
    (queue.eraseP fun t => t.cFunc = ftn ∧ t.cArg = arg).map Callout.key := by
  induction queue with
  | nil => rfl
  | cons t rest ih =>
    unfold untimeoutLoop
    by_cases hmatch : t.cFunc = ftn ∧ t.cArg = arg
    · rw [if_pos hmatch, List.eraseP_cons_of_pos (by simpa using hmatch)]
      exact unlinkTime_keys t.cTime rest
    · rw [if_neg hmatch, List.eraseP_cons_of_neg (by simpa using hmatch)]
      exact congrArg (t.key :: ·) ih

theorem untimeoutLoop_perm (queue : List (Callout Func Arg)) :
    ((untimeoutLoop ftn arg queue).1.toList.map Callout.key ++ (untimeoutLoop ftn arg queue).2.map Callout.key).Perm
      (queue.map Callout.key) := by
  induction queue with
  | nil => exact List.Perm.refl _
  | cons t rest ih =>
    unfold untimeoutLoop
    split
    · rw [unlinkTime_keys]
      exact List.Perm.refl _
    · exact List.perm_middle.trans (ih.cons t.key)

end

/-- The times in the queue say when the callouts are due. Each call of `timeout` is waiting, was called or was
cancelled; no `softclock` was done since a callout that is waiting came due, nor between that and the call of one that
was called. -/
structure Clock.Timed (c : Clock Func Arg) : Prop where
  encodes : Encodes c.now c.due c.calltodo
  far : ∀ t ∈ c.calltodo, c.due t.serial - c.now ≤ 2147483647
  once : (c.calltodo.map Callout.key ++ (c.called.map Called.key ++ c.cancelled)).Perm c.asked
  serials : c.asked.map (fun key => key.2.2) = List.range c.asked.length
  waiting : ∀ t ∈ c.calltodo, ∀ n ∈ c.finished, (n : Int) < c.due t.serial
  called : ∀ e ∈ c.called, c.due e.key.2.2 ≤ e.tick ∧ ∀ n ∈ e.finished, (n : Int) < c.due e.key.2.2
  finished : ∀ n ∈ c.finished, n ≤ c.now

namespace Clock.Timed

variable {c c' : Clock Func Arg} {key : Func × Arg × Nat}

theorem serial_lt (h : c.Timed) (hkey : key ∈ c.asked) : key.2.2 < c.asked.length := by
  have hmem : key.2.2 ∈ c.asked.map fun key => key.2.2 := List.mem_map_of_mem hkey
  rw [h.serials] at hmem
  exact List.mem_range.mp hmem

theorem asked_of_waiting (h : c.Timed) {t : Callout Func Arg} (ht : t ∈ c.calltodo) : t.key ∈ c.asked :=
  h.once.mem_iff.mp (List.mem_append_left _ (List.mem_map_of_mem ht))

theorem asked_of_called (h : c.Timed) {e : Called Func Arg} (he : e ∈ c.called) : e.key ∈ c.asked :=
  h.once.mem_iff.mp (List.mem_append_right _ (List.mem_append_left _ (List.mem_map_of_mem he)))

theorem mem_of_keys {queue' : List (Callout Func Arg)} (hkeys : queue'.map Callout.key = queue.map Callout.key)
    {t : Callout Func Arg} (ht : t ∈ queue') : ∃ u ∈ queue, u.serial = t.serial := by
  have hmem : t.key ∈ queue.map Callout.key := hkeys ▸ List.mem_map_of_mem ht
  obtain ⟨u, hu, heq⟩ := List.mem_map.mp hmem
  exact ⟨u, hu, congrArg (fun key => key.2.2) heq⟩

theorem hardclock (h : c.Timed) (hprompt : c.Prompt .hardclock) : c.hardclock.Timed := by
  obtain ⟨hencodes, hkeys, -⟩ := hardclockLoop_spec h.encodes hprompt h.far
  refine ⟨?_, fun t ht => ?_, ?_, h.serials, fun t ht n hn => ?_, h.called, fun n hn => Nat.le_succ_of_le (h.finished n hn)⟩
  · show Encodes ((c.now + 1 : Nat) : Int) c.due _
    rw [Int.natCast_add, Int.natCast_one]
    exact hencodes
  · obtain ⟨u, hu, heq⟩ := mem_of_keys hkeys ht
    have hfar := h.far u hu
    show c.due t.serial - ((c.now + 1 : Nat) : Int) ≤ 2147483647
    rw [← heq]
    omega
  · show ((hardclockLoop c.calltodo).1.map Callout.key ++ _).Perm c.asked
    rw [hkeys]
    exact h.once
  · obtain ⟨u, hu, heq⟩ := mem_of_keys hkeys ht
    show (n : Int) < c.due t.serial
    rw [← heq]
    exact h.waiting u hu n hn

theorem done (h : c.Timed) (hlater : ∀ t ∈ c.calltodo, (c.now : Int) < c.due t.serial) :
    Clock.Timed { c with running := false, finished := some c.now } := by
  refine ⟨h.encodes, h.far, h.once, h.serials, fun t ht n hn => ?_, h.called, fun n hn => ?_⟩
  · obtain rfl := Option.some.inj hn
    exact hlater t ht
  · obtain rfl := Option.some.inj hn
    exact le_rfl

theorem turn (h : c.Timed) : c.turn.Timed := by
  unfold Clock.turn
  split <;> rename_i hqueue
  · refine h.done fun t ht => ?_
    rw [hqueue] at ht
    cases ht
  · rename_i t rest
    have hencodes := h.encodes
    have hfar := h.far
    have honce := h.once
    have hwaiting := h.waiting
    rw [hqueue] at hencodes hfar honce hwaiting
    by_cases hdue : t.cTime ≤ 0
    · rw [if_pos hdue]
      obtain ⟨hnow, hrest⟩ := hencodes
      rw [if_pos hdue] at hrest
      refine ⟨hrest, fun u hu => hfar u (List.mem_cons_of_mem t hu), ?_, h.serials,
        fun u hu => hwaiting u (List.mem_cons_of_mem t hu), fun e he => ?_, h.finished⟩
      · refine List.Perm.trans ?_ honce
        rw [List.map_append, List.map_singleton, List.append_assoc, List.map_cons, List.cons_append]
        exact (List.perm_middle.append_left _).trans List.perm_middle
      · rcases List.mem_append.mp he with hold | hnew
        · exact h.called e hold
        · rw [List.mem_singleton.mp hnew]
          refine ⟨?_, hwaiting t List.mem_cons_self⟩
          show c.due t.serial ≤ c.now
          omega
    · rw [if_neg hdue]
      refine h.done ?_
      rw [hqueue]
      exact hencodes.later (by omega)

theorem timeout (h : c.Timed) {ftn : Func} {arg : Arg} {ticks : Int} (hint : ticks ≤ 2147483647)
    (hstep : c.timeout ftn arg ticks = some c') : c'.Timed := by
  unfold Clock.timeout at hstep
  have hpos : 0 < if ticks ≤ 0 then 1 else ticks := by
    split <;> omega
  have hmax : (if ticks ≤ 0 then 1 else ticks) ≤ 2147483647 := by
    split <;> omega
  generalize (if ticks ≤ 0 then 1 else ticks) = n at hstep hpos hmax
  dsimp only at hstep
  split at hstep
  · cases hstep
  obtain rfl := Option.some.inj hstep
  have hold : ∀ k < c.asked.length, Function.update c.due c.asked.length (c.now + n) k = c.due k :=
    fun k hk => Function.update_of_ne (Nat.ne_of_lt hk) _ _
  have hsame : ∀ t ∈ c.calltodo, Function.update c.due c.asked.length (c.now + n) t.serial = c.due t.serial :=
    fun t ht => hold _ (h.serial_lt (h.asked_of_waiting ht))
  have hperm := timeoutLoop_perm (⟨ftn, arg, 0, c.asked.length⟩ : Callout Func Arg) n c.calltodo
  have hmem : ∀ t ∈ timeoutLoop (⟨ftn, arg, 0, c.asked.length⟩ : Callout Func Arg) n c.calltodo,
      t.serial = c.asked.length ∨ ∃ u ∈ c.calltodo, u.serial = t.serial := by
    intro t ht
    rcases List.mem_cons.mp (hperm.mem_iff.mp (List.mem_map_of_mem ht)) with hnew | hkey
    · exact Or.inl (congrArg (fun key => key.2.2) hnew)
    · obtain ⟨u, hu, heq⟩ := List.mem_map.mp hkey
      exact Or.inr ⟨u, hu, congrArg (fun key => key.2.2) heq⟩
  refine ⟨?_, fun t ht => ?_, ?_, ?_, fun t ht m hm => ?_, fun e he => ?_, h.finished⟩
  · refine (h.encodes.congr hsame).timeoutLoop hpos (by omega) (fun t ht => ?_) (Function.update_self ..)
    have hfar := h.far t ht
    rw [hsame t ht]
    omega
  · show Function.update c.due c.asked.length (c.now + n) t.serial - c.now ≤ 2147483647
    rcases hmem t ht with hnew | ⟨u, hu, heq⟩
    · rw [hnew, Function.update_self]
      omega
    · rw [← heq, hsame u hu]
      exact h.far u hu
  · show ((timeoutLoop _ n c.calltodo).map Callout.key ++ _).Perm (c.asked ++ [_])
    refine (hperm.append_right _).trans ?_
    exact (h.once.cons _).trans (List.perm_append_singleton _ _).symm
  · show (c.asked ++ [_]).map _ = List.range (c.asked ++ [_]).length
    rw [List.map_append, h.serials, List.length_append, List.length_singleton, List.range_succ]
    rfl
  · show (m : Int) < Function.update c.due c.asked.length (c.now + n) t.serial
    rcases hmem t ht with hnew | ⟨u, hu, heq⟩
    · have hle := h.finished m hm
      rw [hnew, Function.update_self]
      omega
    · rw [← heq, hsame u hu]
      exact h.waiting u hu m hm
  · show Function.update c.due c.asked.length (c.now + n) e.key.2.2 ≤ e.tick ∧
      ∀ m ∈ e.finished, (m : Int) < Function.update c.due c.asked.length (c.now + n) e.key.2.2
    rw [hold _ (h.serial_lt (h.asked_of_called he))]
    exact h.called e he

theorem untimeout [DecidableEq Func] [DecidableEq Arg] (h : c.Timed) (ftn : Func) (arg : Arg) :
    (c.untimeout ftn arg).Timed := by
  have hkeys := untimeoutLoop_keys ftn arg c.calltodo
  have hperm := untimeoutLoop_perm ftn arg c.calltodo
  have hencodes := h.encodes.untimeoutLoop ftn arg fun t ht => Int.lt_of_le_of_lt (h.far t ht) (by decide)
  have hmem : ∀ t ∈ (untimeoutLoop ftn arg c.calltodo).2, ∃ u ∈ c.calltodo, u.serial = t.serial := by
    intro t ht
    obtain ⟨u, hu, heq⟩ := mem_of_keys hkeys ht
    exact ⟨u, List.mem_of_mem_eraseP hu, heq⟩
  have hfar : ∀ t ∈ (untimeoutLoop ftn arg c.calltodo).2, c.due t.serial - c.now ≤ 2147483647 := by
    intro t ht
    obtain ⟨u, hu, heq⟩ := hmem t ht
    rw [← heq]
    exact h.far u hu
  have hwaiting : ∀ t ∈ (untimeoutLoop ftn arg c.calltodo).2, ∀ n ∈ c.finished, (n : Int) < c.due t.serial := by
    intro t ht
    obtain ⟨u, hu, heq⟩ := hmem t ht
    rw [← heq]
    exact h.waiting u hu
  unfold Clock.untimeout
  dsimp only
  split <;> rename_i hone
  · refine ⟨hencodes, hfar, ?_, h.serials, hwaiting, h.called, h.finished⟩
    show ((untimeoutLoop ftn arg c.calltodo).2.map Callout.key ++ _).Perm c.asked
    rw [hone] at hperm
    exact (hperm.append_right _).trans h.once
  · rename_i t
    refine ⟨hencodes, hfar, ?_, h.serials, hwaiting, h.called, h.finished⟩
    show ((untimeoutLoop ftn arg c.calltodo).2.map Callout.key ++ (_ ++ (c.cancelled ++ [t.key]))).Perm c.asked
    rw [hone] at hperm
    refine List.Perm.trans ?_ ((hperm.append_right _).trans h.once)
    rw [← List.append_assoc, ← List.append_assoc]
    exact (List.perm_append_singleton _ _).trans (List.Perm.of_eq (by simp))

end Clock.Timed

variable [DecidableEq Func] [DecidableEq Arg] {c : Clock Func Arg}

/-- While no callout is overdue for longer than an `int` can count: each is called once, by the first `softclock` at or
after its time, unless it is cancelled; and `untimeout` cancels the first in the queue that matches, and changes the time
of no other. -/
theorem callouts_on_time (hruns : Runs Clock.Boot Clock.step (fun c call => c.Allowed call ∧ c.Prompt call) c) :
    c.Timed ∧ ∀ ftn arg, (c.untimeout ftn arg).Timed ∧ (c.untimeout ftn arg).due = c.due ∧
      (c.untimeout ftn arg).calltodo.map Callout.key =
        (c.calltodo.eraseP fun t => t.cFunc = ftn ∧ t.cArg = arg).map Callout.key := by
  have htimed : c.Timed := by
    refine hruns.invariant (fun c hboot => ?_) fun c call c' htimed hok hstep => ?_
    · obtain ⟨hqueue, -, hfinished, hasked, hcalled, hcancelled⟩ := hboot
      constructor <;> simp [hqueue, hfinished, hasked, hcalled, hcancelled, Encodes]
    · cases call with
      | hardclock =>
        obtain rfl := Option.some.inj hstep
        exact htimed.hardclock hok.2
      | softclock =>
        unfold Clock.step at hstep
        dsimp only at hstep
        split at hstep
        · cases hstep
        · obtain rfl := Option.some.inj hstep
          exact ⟨htimed.encodes, htimed.far, htimed.once, htimed.serials, htimed.waiting, htimed.called,
            htimed.finished⟩
      | turn =>
        unfold Clock.step at hstep
        dsimp only at hstep
        split at hstep
        · obtain rfl := Option.some.inj hstep
          exact htimed.turn
        · cases hstep
      | timeout ftn arg ticks => exact htimed.timeout hok.1.2 hstep
      | untimeout ftn arg =>
        obtain rfl := Option.some.inj hstep
        exact htimed.untimeout ftn arg
  refine ⟨htimed, fun ftn arg => ⟨htimed.untimeout ftn arg, ?_, ?_⟩⟩
  · unfold Clock.untimeout
    dsimp only
    split <;> rfl
  · rw [← untimeoutLoop_keys]
    unfold Clock.untimeout
    dsimp only
    split <;> rfl

def idleClock : Clock Nat Nat where
  calltodo := []
  callfree := 1
  now := 0
  running := false
  finished := none
  asked := []
  due := fun _ => 0
  called := []
  cancelled := []

def Clock.after (c : Clock Nat Nat) (call : ClockCall Nat Nat) : Clock Nat Nat := (c.step call).getD c

theorem Clock.runs_after {p : Clock Nat Nat → ClockCall Nat Nat → Prop} {c : Clock Nat Nat}
    (hruns : Runs Clock.Boot Clock.step p c) (call : ClockCall Nat Nat) (hok : p c call)
    (hsome : (c.step call).isSome = true) : Runs Clock.Boot Clock.step p (c.after call) :=
  hruns.after call hok hsome

theorem idleClock_boot : idleClock.Boot := ⟨rfl, rfl, rfl, rfl, rfl, rfl⟩

theorem callouts_on_time_one :
    ((((idleClock.after (.timeout 3 5 0)).after .hardclock).after .softclock).after .turn).Timed := by
  have htimeout := Clock.runs_after (p := fun c call => c.Allowed call ∧ c.Prompt call) (Runs.start idleClock_boot)
    (.timeout 3 5 0) ⟨⟨by decide, by decide⟩, trivial⟩ rfl
  have htick := Clock.runs_after htimeout .hardclock ⟨trivial, fun t ht => by
    obtain rfl := List.mem_singleton.mp ht
    decide⟩ rfl
  have hsoft := Clock.runs_after htick .softclock ⟨trivial, trivial⟩ rfl
  exact (callouts_on_time (Clock.runs_after hsoft .turn ⟨trivial, trivial⟩ rfl)).1

def waitingClock (time : Int) (k : Nat) : Clock Nat Nat where
  calltodo := [⟨3, 5, time, 0⟩]
  callfree := 0
  now := k
  running := false
  finished := none
  asked := [(3, 5, 0)]
  due := Function.update (fun _ => 0) 0 1
  called := []
  cancelled := []

theorem waitingClock_tick (time : Int) (k : Nat) :
    (waitingClock time k).step .hardclock = some (waitingClock (int32 (time - 1)) (k + 1)) := by
  have hloop : (hardclockLoop [(⟨3, 5, time, 0⟩ : Callout Nat Nat)]).1 = [⟨3, 5, int32 (time - 1), 0⟩] := by
    unfold hardclockLoop
    dsimp only
    split
    · rfl
    split <;> rfl
  unfold Clock.step Clock.hardclock
  rw [show (waitingClock time k).calltodo = [⟨3, 5, time, 0⟩] from rfl, hloop]
  rfl

theorem waitingClock_runs {k : Nat} (hk : k ≤ 2147483649) :
    Runs Clock.Boot Clock.step Clock.Allowed (waitingClock (1 - k) k) := by
  induction k with
  | zero => exact .call (.timeout 3 5 0) (.start idleClock_boot) ⟨by decide, by decide⟩ rfl
  | succ k ih =>
    refine .call .hardclock (ih (by omega)) trivial ?_
    rw [waitingClock_tick, int32_eq (by omega) (by omega)]
    congr 2
    omega

/-- A callout that is overdue for too long is not called by `softclock`. -/
theorem callout_late : ¬∀ c : Clock Nat Nat, Runs Clock.Boot Clock.step Clock.Allowed c →
    ∀ t ∈ c.calltodo, ∀ n ∈ c.finished, (n : Int) < c.due t.serial := by
  intro hall
  have hlate := waitingClock_runs (k := 2147483649) le_rfl
  have hwrap : Runs Clock.Boot Clock.step Clock.Allowed (waitingClock 2147483647 2147483650) := by
    refine .call .hardclock hlate trivial ?_
    rw [waitingClock_tick]
    rfl
  have hsoft : Runs Clock.Boot Clock.step Clock.Allowed { waitingClock 2147483647 2147483650 with running := true } :=
    .call .softclock hwrap trivial rfl
  have hdone : Runs Clock.Boot Clock.step Clock.Allowed
      { waitingClock 2147483647 2147483650 with running := false, finished := some 2147483650 } :=
    .call .turn hsoft trivial rfl
  have hfalse := hall _ hdone _ List.mem_cons_self 2147483650 rfl
  exact absurd hfalse (by decide)

end NetBSD.Kern
