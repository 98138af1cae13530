import NetBSD.Uipc.Control
import NetBSD.Uipc.Drop

/-!
# Runs of a socket buffer

Any sequence of the routines on a buffer that starts empty, while the rest of the kernel uses the memory
that the buffer does not hold.
-/

namespace NetBSD.Uipc

open NetBSD.Lib

variable {recs : List (List Addr)} {ms : List Addr} {st st' : Store} {data : List Byte} {n : Nat}

inductive Op where
  | append (m : Option Addr)
  | appendRecord (m0 : Option Addr)
  | insertOob (m0 : Option Addr)
  | appendAddr (asa : List Byte) (m0 control mget : Option Addr)
  | appendControl (m0 control : Option Addr)
  | compress (m n : Option Addr)
  | drop (len : Nat)
  | dropRecord
  | flush

def Op.run (st : Store) : Op → Except Fault (Store × Bool)
  | append m => (sbappend st m).map fun st' => (st', true)
  | appendRecord m0 => (sbappendrecord st m0).map fun st' => (st', true)
  | insertOob m0 => (sbinsertoob st m0).map fun st' => (st', true)
  | appendAddr asa m0 control mget => sbappendaddr st asa m0 control mget
  | appendControl m0 control => sbappendcontrol st m0 control
  | compress m n => (sbcompress st m n).map fun st' => (st', true)
  | drop len => (sbdrop st len).map fun st' => (st', true)
  | dropRecord => (sbdroprecord st).map fun st' => (st', true)
  | flush => (sbflush st).map fun st' => (st', true)

/-- The call is given well-formed chains with the mbufs `ms`, and drops no more than there is. -/
def Op.Allowed (st : Store) (recs : List (List Addr)) (ms : List Addr) : Op → Prop
  | append m => Chain st recs.flatten m ms
  | appendRecord m0 => Chain st recs.flatten m0 ms
  | insertOob m0 => Chain st recs.flatten m0 ms
  | appendAddr _ m0 control mget => ∃ ctl data, ms = mget.toList ++ (ctl ++ data)
      ∧ Linked (fun a => (st.mbuf a).mNext) control ctl none
      ∧ Linked (fun a => (st.mbuf a).mNext) m0 data none
      ∧ Outside st recs.flatten (ctl ++ data)
      ∧ (∀ b, m0 = some b → (st.mbuf b).mPkthdr ≠ none)
      ∧ ∀ b, mget = some b → b ∉ recs.flatten ++ st.free ∧ b ∉ ctl ++ data ∧ b < st.size
  | appendControl m0 control => ∃ ctl data, ms = ctl ++ data ∧ ctl ≠ []
      ∧ Linked (fun a => (st.mbuf a).mNext) control ctl none
      ∧ Linked (fun a => (st.mbuf a).mNext) m0 data none
      ∧ Outside st recs.flatten (ctl ++ data)
  | compress m n => Chain st recs.flatten m ms
      ∧ (recs = [] ∧ n = none ∨ ∃ r ∈ recs, r.getLast? = n)
  | drop len => ms = [] ∧ (len : Int) ≤ st.sb.sbCc
  | dropRecord => ms = []
  | flush => ms = []

structure Fresh (st : Store) : Prop where
  sbMb_eq : st.sb.sbMb = none
  sbCc_eq : st.sb.sbCc = 0
  sbMbcnt_eq : st.sb.sbMbcnt = 0
  sbLock_eq : st.sb.sbLock = false
  free_nodup : st.free.Nodup
  below : ∀ a ∈ st.free, a < st.size

theorem Fresh.good (h : Fresh st) : Good st [] :=
  ⟨h.sbMb_eq ▸ Records.nil, ⟨h.free_nodup, h.sbCc_eq, h.sbMbcnt_eq, by simp, h.below⟩⟩

structure Elsewhere (st st' : Store) (recs : List (List Addr)) : Prop where
  mbuf_eq : ∀ a ∈ recs.flatten, st'.mbuf a = st.mbuf a
  sbMb_eq : st'.sb.sbMb = st.sb.sbMb
  sbCc_eq : st'.sb.sbCc = st.sb.sbCc
  sbMbcnt_eq : st'.sb.sbMbcnt = st.sb.sbMbcnt
  sbLock_eq : st'.sb.sbLock = st.sb.sbLock
  nodup : (recs.flatten ++ st'.free).Nodup
  below : ∀ a ∈ recs.flatten ++ st'.free, a < st'.size

theorem Good.elsewhere (h : Good st recs) (he : Elsewhere st st' recs) : Good st' recs where
  records := by
    rw [he.sbMb_eq]
    refine h.records.congr (fun a ha => ?_) fun a ha => ?_
    · rw [he.mbuf_eq a ha]
    · rw [he.mbuf_eq a (mem_flatten_of_mem_heads ha)]
  counted :=
    { nodup := he.nodup
      sbCc_eq := by
        rw [he.sbCc_eq, h.counted.sbCc_eq]
        exact (lenOf_congr fun a ha => by rw [he.mbuf_eq a ha]).symm
      sbMbcnt_eq := by
        rw [he.sbMbcnt_eq, h.counted.sbMbcnt_eq]
        exact (spaceOf_congr fun a ha => by rw [he.mbuf_eq a ha]).symm
      fits := fun a ha => by
        rw [he.mbuf_eq a ha]
        exact h.counted.fits a ha
      below := he.below }

inductive Reachable : Store → Prop where
  | start {st : Store} : Fresh st → Reachable st
  | elsewhere {st st' : Store} {recs : List (List Addr)} : Reachable st →
      Records st.mbuf st.sb.sbMb recs → Elsewhere st st' recs → Reachable st'
  | call {st st' : Store} {recs : List (List Addr)} {ms : List Addr} {op : Op} {done : Bool} : Reachable st →
      Records st.mbuf st.sb.sbMb recs → op.Allowed st recs ms → op.run st = .ok (st', done) → Reachable st'

/-- What a call does to a buffer that holds the records `recs`, when it is given the mbufs `ms`. -/
structure Outcome (st st' : Store) (recs recs' : List (List Addr)) (ms : List Addr) (done : Bool) :
    Prop where
  good : Good st' recs'
  /-- Every mbuf that was there or was given is linked once or was freed once. -/
  perm : done = true → (recs'.flatten ++ st'.free).Perm (recs.flatten ++ ms ++ st.free)
  unchanged : done = false → st' = st
  sbLock_eq : st'.sb.sbLock = st.sb.sbLock

theorem Added.outcome {before after recs' : List (List Addr)} {l : List Addr}
    (h : Added st st' before after ms data recs') (hl : recs.flatten = l)
    (hsplit : (before ++ after).flatten = l) : Outcome st st' recs recs' ms true :=
  ⟨h.good, fun _ => by rw [hl, ← hsplit]; exact h.perm, fun hf => absurd hf (by simp), h.sbLock_eq⟩

theorem Dropped.outcome {recs' : List (List Addr)} (hgood : Good st' recs')
    (h : Dropped st st' n recs.flatten recs'.flatten) : Outcome st st' recs recs' [] true :=
  ⟨hgood, fun _ => by rw [List.append_nil]; exact h.perm, fun hf => absurd hf (by simp), h.sbLock_eq⟩

theorem Good.run_eq {op : Op} (h : Good st recs) (hlock : st.sb.sbLock = false)
    (hop : op.Allowed st recs ms) :
    ∃ st' done recs', op.run st = .ok (st', done) ∧ Outcome st st' recs recs' ms done
      ∧ (op = .flush → recs' = []) := by
  cases op with
  | append m =>
    obtain ⟨st', recs', hrun, hadded⟩ := sbappend_eq h hop
    exact ⟨st', true, recs', by rw [Op.run, hrun]; rfl, hadded.outcome rfl (by simp), by simp⟩
  | appendRecord m0 =>
    obtain ⟨st', recs', hrun, hadded⟩ := sbappendrecord_eq h hop
    exact ⟨st', true, recs', by rw [Op.run, hrun]; rfl, hadded.outcome rfl (by simp), by simp⟩
  | insertOob m0 =>
    obtain ⟨st', x, y, recs', rfl, hrun, hadded⟩ := sbinsertoob_eq h hop
    exact ⟨st', true, recs', by rw [Op.run, hrun]; rfl, hadded.outcome rfl rfl, by simp⟩
  | appendAddr asa m0 control mget =>
    obtain ⟨ctl, dat, rfl, hc, hm, hout, hpkt, hget⟩ := hop
    obtain ⟨st', done, hrun, hno, hyes⟩ := sbappendaddr_eq asa h hc hm hout hpkt hget
    cases done with
    | false =>
      obtain rfl := hno rfl
      exact ⟨st', false, recs, hrun, ⟨h, by simp, fun _ => rfl, rfl⟩, by simp⟩
    | true =>
      obtain ⟨b, rfl, hadded⟩ := hyes rfl
      exact ⟨st', true, _, hrun, hadded.outcome rfl (by simp), by simp⟩
  | appendControl m0 control =>
    obtain ⟨ctl, dat, rfl, hne, hc, hm, hout⟩ := hop
    obtain ⟨l, b, rfl⟩ := (List.eq_nil_or_concat ctl).resolve_left hne
    rw [List.concat_eq_append] at hc hout ⊢
    cases control with
    | none => exact absurd (hc.unique (show Linked _ none [] none from rfl)) (by simp)
    | some c =>
      obtain ⟨st', done, hrun, hno, hyes⟩ := sbappendcontrol_eq h hc hm hout
      cases done with
      | false =>
        obtain rfl := hno rfl
        exact ⟨st', false, recs, hrun, ⟨h, by simp, fun _ => rfl, rfl⟩, by simp⟩
      | true => exact ⟨st', true, _, hrun, (hyes rfl).outcome rfl (by simp), by simp⟩
  | compress m n =>
    obtain ⟨hc, ⟨rfl, rfl⟩ | ⟨r, hr, rfl⟩⟩ := hop
    · obtain ⟨st', recs', hrun, hadded⟩ := sbcompress_empty_eq h hc
      exact ⟨st', true, recs', by rw [Op.run, hrun]; rfl, hadded.outcome rfl rfl, by simp⟩
    · obtain ⟨x, y, rfl⟩ := List.append_of_mem hr
      have hlist : x ++ r :: y = x ++ [r] ++ y := by simp
      rw [hlist] at h hc ⊢
      obtain ⟨st', recs', hrun, hadded⟩ := sbcompress_record_eq h hc
      exact ⟨st', true, recs', by rw [Op.run, hrun]; rfl, hadded.outcome rfl rfl, by simp⟩
  | drop len =>
    obtain ⟨rfl, hlen⟩ := hop
    obtain ⟨st', recs', hrun, hgood, hdropped, -⟩ := h.sbdrop_eq hlen
    exact ⟨st', true, recs', by rw [Op.run, hrun]; rfl, hdropped.outcome hgood, by simp⟩
  | dropRecord =>
    obtain rfl : ms = [] := hop
    obtain ⟨st', hrun, hgood, hdropped⟩ := h.sbdroprecord_eq
    exact ⟨st', true, recs.tail, by rw [Op.run, hrun]; rfl, hdropped.outcome hgood, by simp⟩
  | flush =>
    obtain rfl : ms = [] := hop
    obtain ⟨st', hrun, hgood, hperm, hsize, hlock'⟩ := h.sbflush_eq hlock
    refine ⟨st', true, [], by rw [Op.run, hrun]; rfl, ⟨hgood, fun _ => ?_, by simp, hlock'.trans hlock.symm⟩,
      fun _ => rfl⟩
    rw [List.append_nil]
    exact hperm

theorem Reachable.good (h : Reachable st) : ∃ recs, Good st recs ∧ st.sb.sbLock = false := by
  induction h with
  | start h => exact ⟨[], h.good, h.sbLock_eq⟩
  | elsewhere _ hrecs he ih =>
    obtain ⟨recs, hgood, hlock⟩ := ih
    obtain rfl := hgood.records.unique hrecs
    exact ⟨_, hgood.elsewhere he, he.sbLock_eq.trans hlock⟩
  | call _ hrecs hop hrun ih =>
    obtain ⟨recs, hgood, hlock⟩ := ih
    obtain rfl := hgood.records.unique hrecs
    obtain ⟨st'', done, recs', hrun', hout, -⟩ := hgood.run_eq hlock hop
    obtain ⟨rfl, rfl⟩ := Prod.mk.inj (Except.ok.inj (hrun.symm.trans hrun'))
    exact ⟨recs', hout.good, hout.sbLock_eq.trans hlock⟩

/-- **The accounting of a socket buffer.** In every reachable state the counters agree with the records,
in which no mbuf occurs twice. A call returns in such a state; it leaves nothing linked twice or lost,
changes nothing when it fails, and after `sbflush` nothing is left. -/
theorem Reachable.accounting (h : Reachable st) :
    ∃ recs, Good st recs ∧ ∀ (op : Op) (ms : List Addr), op.Allowed st recs ms →
      ∃ st' done recs', op.run st = .ok (st', done) ∧ Outcome st st' recs recs' ms done
        ∧ (op = .flush → st'.sb.sbMb = none ∧ st'.sb.sbCc = 0 ∧ st'.sb.sbMbcnt = 0) := by
  obtain ⟨recs, hgood, hlock⟩ := h.good
  refine ⟨recs, hgood, fun op ms hop => ?_⟩
  obtain ⟨st', done, recs', hrun, hout, hflush⟩ := hgood.run_eq hlock hop
  refine ⟨st', done, recs', hrun, hout, fun heq => ?_⟩
  have hempty := hout.good
  rw [hflush heq] at hempty
  exact ⟨hempty.records.queue, hempty.counted.sbCc_eq, hempty.counted.sbMbcnt_eq⟩

def sampleStore : Store where
  mbuf a :=
    { mNext := if a = 0 then some 1 else none
      mLen := if a = 0 then 3 else 0
      storage := List.replicate mlen 7 }
  size := 2
  sb := {}
  free := []

theorem sampleStore_fresh : Fresh sampleStore := ⟨rfl, rfl, rfl, rfl, List.nodup_nil, by simp [sampleStore]⟩

theorem sampleStore_chain : Chain sampleStore [] (some 0) [0, 1] where
  linked := ⟨rfl, rfl, rfl⟩
  outside :=
    { nodup := by simp
      notMem := by simp [sampleStore]
      mNextpkt_eq := by simp [sampleStore]
      fits := fun a ha => by
        have hlen : (sampleStore.mbuf a).storage.length = mlen := List.length_replicate
        refine ⟨?_, fun _ => hlen⟩
        rw [hlen]
        show 0 + (if a = 0 then 3 else 0) ≤ 108
        split <;> omega
      below := by simp [sampleStore] }

theorem sampleStore_accounting :
    ∃ st', sbappend sampleStore (some 0) = .ok st' ∧ ∃ recs, Good st' recs := by
  obtain ⟨st', recs', hrun, -⟩ := sbappend_eq sampleStore_fresh.good sampleStore_chain
  have hop : (Op.append (some 0)).Allowed sampleStore [] [0, 1] := sampleStore_chain
  have hcall : (Op.append (some 0)).run sampleStore = .ok (st', true) := by rw [Op.run, hrun]; rfl
  obtain ⟨recs, hgood, -⟩ := Reachable.accounting
    (.call (.start sampleStore_fresh) sampleStore_fresh.good.records hop hcall)
  exact ⟨st', hrun, recs, hgood⟩

/-- The states of a buffer on which only `sbappend` and `sbdrop` are called, with all the bytes that
were appended and the number of those dropped. -/
inductive Stream : Store → List Byte → Nat → Prop where
  | start {st : Store} : Fresh st → Stream st [] 0
  | elsewhere {st st' : Store} {recs : List (List Addr)} {data : List Byte} {n : Nat} : Stream st data n →
      Records st.mbuf st.sb.sbMb recs → Elsewhere st st' recs → Stream st' data n
  | append {st st' : Store} {recs : List (List Addr)} {ms : List Addr} {m : Option Addr} {data : List Byte}
      {n : Nat} : Stream st data n → Records st.mbuf st.sb.sbMb recs → Chain st recs.flatten m ms →
      sbappend st m = .ok st' → Stream st' (data ++ bytesOf st.mbuf ms) n
  | drop {st st' : Store} {data : List Byte} {n len : Nat} : Stream st data n →
      (len : Int) ≤ st.sb.sbCc → sbdrop st len = .ok st' → Stream st' data (n + len)

structure Queued (st : Store) (recs : List (List Addr)) (data : List Byte) (n : Nat) : Prop where
  good : Good st recs
  le : n ≤ data.length
  bytes : bytesOf st.mbuf recs.flatten = data.drop n

theorem Queued.append {recs' : List (List Addr)} {l : List Byte} (h : Queued st recs data n)
    (hadded : Added st st' recs [] ms l recs') : Queued st' recs' (data ++ l) n where
  good := hadded.good
  le := h.le.trans (by simp)
  bytes := by
    rw [hadded.bytes, h.bytes, List.drop_append_of_le_length h.le, List.flatten_nil, bytesOf_nil,
      List.append_nil]

theorem Queued.drop {recs' : List (List Addr)} {len : Nat} (h : Queued st recs data n)
    (hlen : (len : Int) ≤ st.sb.sbCc) (hgood : Good st' recs')
    (hdropped : Dropped st st' len recs.flatten recs'.flatten) : Queued st' recs' data (n + len) where
  good := hgood
  le := by
    have hcc := (length_bytesOf h.good.counted.fits).trans h.good.counted.sbCc_eq.symm
    rw [h.bytes, List.length_drop] at hcc
    have := h.le
    omega
  bytes := by rw [hdropped.bytes, h.bytes, List.drop_drop]

theorem Stream.queued (h : Stream st data n) : ∃ recs, Queued st recs data n := by
  induction h with
  | start h => exact ⟨[], h.good, Nat.zero_le _, rfl⟩
  | elsewhere _ hrecs he ih =>
    obtain ⟨recs, hq⟩ := ih
    obtain rfl := hq.good.records.unique hrecs
    refine ⟨_, hq.good.elsewhere he, hq.le, ?_⟩
    rw [bytesOf_congr fun a ha => by rw [he.mbuf_eq a ha]]
    exact hq.bytes
  | append _ hrecs hc hrun ih =>
    obtain ⟨recs, hq⟩ := ih
    obtain rfl := hq.good.records.unique hrecs
    obtain ⟨st'', recs', hrun', hadded⟩ := sbappend_eq hq.good hc
    obtain rfl := Except.ok.inj (hrun.symm.trans hrun')
    exact ⟨recs', hq.append hadded⟩
  | drop _ hlen hrun ih =>
    obtain ⟨recs, hq⟩ := ih
    obtain ⟨st'', recs', hrun', hgood, hdropped, -⟩ := hq.good.sbdrop_eq hlen
    obtain rfl := Except.ok.inj (hrun.symm.trans hrun')
    exact ⟨recs', hq.drop hlen hgood hdropped⟩

/-- **A stream buffer is a byte queue.** What it holds is what was appended, less what was dropped from
the front, and neither routine fails to return. -/
theorem Stream.faithful (h : Stream st data n) :
    ∃ recs, Records st.mbuf st.sb.sbMb recs ∧ bytesOf st.mbuf recs.flatten = data.drop n
      ∧ (∀ len : Nat, (len : Int) ≤ st.sb.sbCc → ∃ st', sbdrop st len = .ok st')
      ∧ ∀ m ms, Chain st recs.flatten m ms → ∃ st', sbappend st m = .ok st' := by
  obtain ⟨recs, hq⟩ := h.queued
  refine ⟨recs, hq.good.records, hq.bytes, fun len hlen => ?_, fun m ms hc => ?_⟩
  · obtain ⟨st', -, hrun, -⟩ := hq.good.sbdrop_eq hlen
    exact ⟨st', hrun⟩
  · obtain ⟨st', -, hrun, -⟩ := sbappend_eq hq.good hc
    exact ⟨st', hrun⟩

theorem sampleStore_faithful :
    ∃ st', sbappend sampleStore (some 0) = .ok st' ∧
      ∃ recs, Records st'.mbuf st'.sb.sbMb recs ∧ bytesOf st'.mbuf recs.flatten = [7, 7, 7] := by
  obtain ⟨st', recs', hrun, -⟩ := sbappend_eq sampleStore_fresh.good sampleStore_chain
  obtain ⟨recs, hrecs, hbytes, -⟩ := Stream.faithful
    (.append (.start sampleStore_fresh) sampleStore_fresh.good.records sampleStore_chain hrun)
  exact ⟨st', hrun, recs, hrecs, hbytes⟩

end NetBSD.Uipc
