import NetBSD.Slip.Interface
import Mathlib.Data.List.TakeWhile

/-!
# Packets over the serial line

What is received on a line is what `slstart` took from the queues, in that order.
-/

namespace NetBSD.Slip

open Lib (Marks Runs)

/-- One end that sends and one that receives; `received` has the packets that IP has taken. -/
structure Line where
  sender : Sender
  receiver : Receiver
  received : List (List Byte)

inductive LineCall where
  | output (fast : Bool) (m : List Mbuf)
  | slstart (taken : List Nat)
  | device (k : Nat)
  | slinput (cluster : Nat)
  | ipintr

def Rmbuf.bytes (mem : Nat → Byte) : Rmbuf → List Byte
  | .mhdr data => data
  | .ext mData mLen => bytesFrom mem mData mLen

section

variable (cfg : Config)

def Line.step (l : Line) : LineCall → Option Line
  | .output fast m =>
    some { l with sender :=
      if fast then { l.sender with scFastq := l.sender.scFastq ++ [m] }
      else { l.sender with ifSnd := l.sender.ifSnd ++ [m] } }
  | .slstart taken => some { l with sender := slstart cfg taken l.sender }
  | .device k => some { l with sender := l.sender.oproc k }
  | .slinput cluster =>
    match l.sender.wire with
    | [] => none
    | c :: wire => some { l with
        sender := { l.sender with wire }
        receiver := slinput cfg true (some cluster) false c l.receiver }
  | .ipintr =>
    match l.receiver.ipintrq with
    | [] => none
    | m :: ipintrq => some { l with
        receiver := { l.receiver with ipintrq }
        received := l.received ++ [m.bytes l.receiver.mem] }

structure Line.Opened (l : Line) : Prop where
  fastq : l.sender.scFastq = []
  snd : l.sender.ifSnd = []
  chars : l.sender.outq.chars = []
  wire : l.sender.wire = []
  taken : l.sender.taken = []
  compress : l.sender.compress = false
  ep : cfg.slbufsize ≤ l.receiver.scEp
  buf : l.receiver.scBuf = l.receiver.scEp - cfg.slmax
  mp : l.receiver.scMp = l.receiver.scBuf
  plain : l.receiver.scError = false ∧ l.receiver.scEscape = false ∧ l.receiver.compress = false
  queue : l.receiver.ipintrq = []
  received : l.received = []

def Sendable (m : List Mbuf) : Prop :=
  3 ≤ m.flatten.length ∧ m.flatten.length ≤ cfg.slmax ∧ ∀ b ∈ m.flatten.head?, b &&& 0xf0 = 0x40

def Apart (p n p' n' : Nat) : Prop := p + n ≤ p' ∨ p' + n' ≤ p

/-- The packets are IP packets; there is room in `ipintrq`, and a cluster that `MCLGET` returns is not in use. -/
def Line.Allowed (l : Line) : LineCall → Prop
  | .output _ m => Sendable cfg m
  | .slinput cluster => l.receiver.ipintrq.length < cfg.ifqMaxlen ∧
      Apart cluster cfg.slbufsize (l.receiver.scEp - cfg.slbufsize) cfg.slbufsize ∧
      ∀ mData mLen, Rmbuf.ext mData mLen ∈ l.receiver.ipintrq → Apart cluster cfg.slbufsize mData mLen
  | _ => True

end

def Line.packets (l : Line) : List (List Byte) := l.received ++ l.receiver.ipintrq.map (Rmbuf.bytes l.receiver.mem)

def marks : Marks Byte where
  frameEnd := frameEnd
  escape := frameEscape
  transEnd := transFrameEnd
  transEscape := transFrameEscape
  escape_ne := by decide
  transEnd_ne := by decide
  transEnd_ne' := by decide
  transEscape_ne := by decide
  transEscape_ne' := by decide
  trans_ne := by decide

theorem marks_escape : marks.escape = frameEscape := rfl

theorem marks_frameEnd : marks.frameEnd = frameEnd := rfl

def accept (l : List Byte) : Option (List (List Byte)) :=
  if l.length < 3 then some [] else if l.head?.any (fun b => b &&& 0xf0 = 0x40) then some [l] else none

variable {cfg : Config} {received : List (List Byte)} {r : Receiver} {d d' : Marks.Decoder Byte} {c : Byte} {cluster : Nat}

structure Receives (cfg : Config) (received : List (List Byte)) (r : Receiver) (d : Marks.Decoder Byte) : Prop where
  frames : d.frames = received ++ r.ipintrq.map (Rmbuf.bytes r.mem)
  ep : cfg.slbufsize ≤ r.scEp
  buf : r.scBuf = r.scEp - cfg.slmax
  mp : r.scMp = r.scBuf + d.current.length
  current : bytesFrom r.mem r.scBuf d.current.length = d.current
  fits : d.current.length ≤ cfg.slmax
  escape : r.scEscape = d.escaped
  error : r.scError = false
  compress : r.compress = false
  apart : ∀ mData mLen, Rmbuf.ext mData mLen ∈ r.ipintrq → Apart mData mLen r.scBuf cfg.slmax

theorem bytesFrom_succ (mem : Nat → Byte) (p n : Nat) : bytesFrom mem p (n + 1) = bytesFrom mem p n ++ [mem (p + n)] := by
  rw [bytesFrom, List.range_succ, List.map_append, List.map_singleton, bytesFrom]

theorem bytesFrom_update {mem : Nat → Byte} {p n a : Nat} (ha : a < p ∨ p + n ≤ a) (x : Byte) :
    bytesFrom (Function.update mem a x) p n = bytesFrom mem p n := by
  refine List.map_congr_left fun i hi => ?_
  have hlt := List.mem_range.mp hi
  have hne : p + i ≠ a := by omega
  rw [Function.update_of_ne hne]

theorem Receives.store (h : Receives cfg received r d) (hroom : d.current.length < cfg.slmax) (x : Byte) :
    Receives cfg received (slinputStore cfg x r) { d with current := d.current ++ [x], escaped := false } := by
  have hslmax := cfg.slmax_le
  have hep := h.ep
  have hbuf := h.buf
  have hmp := h.mp
  have hlt : r.scMp < r.scEp := by omega
  have hstore : slinputStore cfg x r =
      { r with mem := Function.update r.mem r.scMp x, scMp := r.scMp + 1, scEscape := false } := if_pos hlt
  rw [hstore]
  refine ⟨?_, hep, hbuf, ?_, ?_, ?_, rfl, h.error, h.compress, h.apart⟩
  · show d.frames = received ++ r.ipintrq.map (Rmbuf.bytes (Function.update r.mem r.scMp x))
    rw [h.frames]
    congr 1
    refine List.map_congr_left fun m hm => ?_
    cases m with
    | mhdr data => rfl
    | ext mData mLen =>
      have hapart := h.apart mData mLen hm
      refine (bytesFrom_update ?_ x).symm
      rcases hapart with hbefore | hafter
      · right
        omega
      · left
        omega
  · show r.scMp + 1 = r.scBuf + (d.current ++ [x]).length
    rw [List.length_append, List.length_singleton]
    omega
  · show bytesFrom (Function.update r.mem r.scMp x) r.scBuf (d.current ++ [x]).length = d.current ++ [x]
    rw [List.length_append, List.length_singleton, bytesFrom_succ, bytesFrom_update (by omega), h.current, ← hmp,
      Function.update_self]
  · show (d.current ++ [x]).length ≤ cfg.slmax
    rw [List.length_append, List.length_singleton]
    omega

theorem receives_newpack {frames : List (List Byte)} (hframes : frames = received ++ r.ipintrq.map (Rmbuf.bytes r.mem))
    (hep : cfg.slbufsize ≤ r.scEp) (herror : r.scError = false) (hcompress : r.compress = false)
    (hapart : ∀ mData mLen, Rmbuf.ext mData mLen ∈ r.ipintrq → Apart mData mLen (r.scEp - cfg.slmax) cfg.slmax) :
    Receives cfg received (newpack cfg r) { frames, current := [], escaped := false } :=
  ⟨hframes, hep, rfl, rfl, rfl, Nat.zero_le _, rfl, herror, hcompress, hapart⟩

theorem Receives.frameEnd (h : Receives cfg received r d) (hroom : r.ipintrq.length < cfg.ifqMaxlen)
    (hcluster : Apart cluster cfg.slbufsize (r.scEp - cfg.slbufsize) cfg.slbufsize)
    (hfree : ∀ mData mLen, Rmbuf.ext mData mLen ∈ r.ipintrq → Apart cluster cfg.slbufsize mData mLen)
    {frames : List (List Byte)} (haccept : accept d.current = some frames) :
    Receives cfg received (slinputEnd cfg true (some cluster) r)
      { frames := d.frames ++ frames, current := [], escaped := false } := by
  have hslmax := cfg.slmax_le
  have hep := h.ep
  have hbuf := h.buf
  have hlen : r.scMp - r.scBuf = d.current.length := by
    rw [h.mp, Nat.add_sub_cancel_left]
  have hapart : ∀ mData mLen, Rmbuf.ext mData mLen ∈ r.ipintrq → Apart mData mLen (r.scEp - cfg.slmax) cfg.slmax := by
    rw [← hbuf]
    exact h.apart
  unfold slinputEnd
  rw [if_neg (by rw [h.error]; decide), hlen]
  unfold accept at haccept
  by_cases hshort : d.current.length < 3
  · rw [if_pos hshort] at haccept
    obtain rfl := Option.some.inj haccept
    dsimp only
    rw [if_pos hshort, List.append_nil]
    exact receives_newpack h.frames hep h.error h.compress hapart
  · rw [if_neg hshort] at haccept
    have hgood : d.current.head?.any (fun b => b &&& 0xf0 = 0x40) = true := by
      by_contra hbad
      rw [if_neg hbad] at haccept
      cases haccept
    rw [if_pos hgood] at haccept
    obtain rfl := Option.some.inj haccept
    have hfirst : r.mem r.scBuf &&& 0xf0 = 0x40 := by
      rw [← h.current, ← Nat.succ_pred_eq_of_pos (show 0 < d.current.length by omega), bytesFrom, List.range_succ_eq_map,
        List.map_cons, List.head?_cons, Option.any_some, decide_eq_true_eq] at hgood
      exact hgood
    dsimp only
    rw [if_neg hshort, if_neg (not_not.mpr hfirst)]
    have hfits := h.fits
    unfold slBtom
    dsimp only
    rw [if_neg (by decide)]
    by_cases hbig : d.current.length ≥ cfg.mhlen
    · rw [if_pos hbig]
      dsimp only [Option.map_some]
      rw [if_neg (Nat.not_le.mpr hroom)]
      apply receives_newpack
      · show d.frames ++ [d.current] = received ++ (r.ipintrq ++ [Rmbuf.ext r.scBuf d.current.length]).map _
        rw [List.map_append, ← List.append_assoc, ← h.frames, List.map_singleton, Rmbuf.bytes, h.current]
      · exact Nat.le_add_left ..
      · exact h.error
      · exact h.compress
      · intro mData mLen hm
        show Apart mData mLen (cluster + cfg.slbufsize - cfg.slmax) cfg.slmax
        rcases List.mem_append.mp hm with hm | hm
        · rcases hfree mData mLen hm with hbefore | hafter
          · right
            omega
          · left
            omega
        · cases List.mem_singleton.mp hm
          rcases hcluster with hbefore | hafter
          · right
            omega
          · left
            omega
    · rw [if_neg hbig]
      dsimp only
      rw [if_neg (Nat.not_le.mpr hroom)]
      apply receives_newpack
      · show d.frames ++ [d.current] = received ++ (r.ipintrq ++ [Rmbuf.mhdr _]).map _
        rw [List.map_append, ← List.append_assoc, ← h.frames, List.map_singleton, Rmbuf.bytes, h.current]
      · exact hep
      · exact h.error
      · exact h.compress
      · intro mData mLen hm
        rcases List.mem_append.mp hm with hm | hm
        · exact hapart mData mLen hm
        · cases List.mem_singleton.mp hm

theorem Receives.slinput (h : Receives cfg received r d) (hroom : r.ipintrq.length < cfg.ifqMaxlen)
    (hcluster : Apart cluster cfg.slbufsize (r.scEp - cfg.slbufsize) cfg.slbufsize)
    (hfree : ∀ mData mLen, Rmbuf.ext mData mLen ∈ r.ipintrq → Apart cluster cfg.slbufsize mData mLen)
    (hfeed : marks.feed accept cfg.slmax d c = some d') :
    Receives cfg received (slinput cfg true (some cluster) false c r) d' := by
  rw [Marks.feed, marks_escape, marks_frameEnd] at hfeed
  unfold Slip.slinput
  rw [if_neg Bool.false_ne_true]
  by_cases hescape : c = frameEscape
  · subst hescape
    rw [if_pos rfl] at hfeed
    obtain rfl := Option.some.inj hfeed
    rw [if_neg (by decide), if_neg (by decide), if_pos rfl]
    exact ⟨h.frames, h.ep, h.buf, h.mp, h.current, h.fits, rfl, h.error, h.compress, h.apart⟩
  by_cases hend : c = Slip.frameEnd
  · subst hend
    rw [if_neg hescape, if_pos rfl] at hfeed
    obtain ⟨frames, haccept, rfl⟩ := Option.map_eq_some_iff.mp hfeed
    rw [if_neg (by decide), if_neg (by decide), if_neg hescape, if_pos rfl]
    exact h.frameEnd hroom hcluster hfree haccept
  have hlen : d.current.length < cfg.slmax := by
    by_contra hlen
    rw [if_neg hescape, if_neg hend, if_neg hlen] at hfeed
    cases hfeed
  rw [if_neg hescape, if_neg hend, if_pos hlen] at hfeed
  obtain rfl := Option.some.inj hfeed
  have hstore := h.store hlen (marks.unstuff d.escaped c)
  rw [if_neg hescape, if_neg hend, h.escape]
  have hunstuff : marks.unstuff d.escaped c =
      if c = transFrameEscape then (if d.escaped = true then frameEscape else c)
      else if c = transFrameEnd then (if d.escaped = true then Slip.frameEnd else c) else c := by
    rw [Marks.unstuff]
    cases d.escaped with
    | false => simp
    | true => simp [marks]
  rw [hunstuff] at hstore ⊢
  by_cases htransEscape : c = transFrameEscape
  · rw [if_pos htransEscape] at hstore ⊢
    rwa [if_pos htransEscape]
  rw [if_neg htransEscape] at hstore ⊢
  rw [if_neg htransEscape]
  by_cases htransEnd : c = transFrameEnd
  · rw [if_pos htransEnd] at hstore ⊢
    rwa [if_pos htransEnd]
  · rw [if_neg htransEnd] at hstore ⊢
    rwa [if_neg htransEnd]

variable {q q' q'' : Outq} {s s' : Sender} {l l' : List Byte}

def Put (q : Outq) (l : List Byte) (q' : Outq) : Prop :=
  q'.lost = false → q.lost = false ∧ q'.chars = q.chars ++ l

theorem Put.trans (h : Put q l q') (h' : Put q' l' q'') : Put q (l ++ l') q'' := by
  intro hlost
  obtain ⟨hlost', hchars'⟩ := h' hlost
  obtain ⟨hlost'', hchars⟩ := h hlost'
  exact ⟨hlost'', by rw [hchars', hchars, List.append_assoc]⟩

theorem put_nil : Put q [] q := fun hlost => ⟨hlost, (List.append_nil _).symm⟩

theorem putc_spec (c : Byte) (q : Outq) : Put q [c] (putc c q).2 ∧ ((putc c q).1 = true → (putc c q).2.lost = true) := by
  unfold putc
  split
  · exact ⟨fun hlost => Bool.noConfusion hlost, fun _ => rfl⟩
  · exact ⟨fun hlost => ⟨hlost, rfl⟩, fun h => absurd h Bool.false_ne_true⟩

theorem bToQ_spec (cp : List Byte) (q : Outq) : Put q cp (bToQ cp q).2 ∧ ((bToQ cp q).1 ≠ 0 → (bToQ cp q).2.lost = true) := by
  unfold bToQ
  constructor
  · intro hlost
    obtain ⟨hq, hroom⟩ := Bool.or_eq_false_iff.mp hlost
    refine ⟨hq, ?_⟩
    show q.chars ++ cp.take _ = _
    rw [List.take_of_length_le (Nat.le_of_not_lt (of_decide_eq_false hroom))]
  · intro hleft
    have hlt : q.cCn - q.chars.length < cp.length := by
      dsimp only at hleft
      omega
    show (q.lost || decide _) = true
    rw [decide_eq_true hlt, Bool.or_true]

theorem put_of_lost (hlost : q'.lost = true) : Put q l q' := fun h => Bool.noConfusion (hlost.symm.trans h)

theorem stuff_append (l l' : List Byte) : marks.stuff (l ++ l') = marks.stuff l ++ marks.stuff l' := List.flatMap_append

theorem stuff_plain (h : ∀ c ∈ l, c ≠ frameEscape ∧ c ≠ Slip.frameEnd) : marks.stuff l = l := by
  induction l with
  | nil => rfl
  | cons c l ih =>
    obtain ⟨hescape, hend⟩ := h c List.mem_cons_self
    have hone : marks.stuffOne c = [c] := by
      rw [Marks.stuffOne, marks_escape, marks_frameEnd, if_neg hescape, if_neg hend]
    rw [Marks.stuff, List.flatMap_cons, hone, ← Marks.stuff, ih fun c hc => h c (List.mem_cons_of_mem _ hc),
      List.singleton_append]

theorem putMbuf_put {fuel : Nat} {cp : List Byte} (hfuel : cp.length < fuel) (q : Outq) :
    Put q (marks.stuff cp) (putMbuf fuel cp q) := by
  induction fuel generalizing cp q with
  | zero => omega
  | succ fuel ih =>
    have hsplit := List.takeWhile_append_dropWhile (p := fun c => decide (c ≠ frameEscape ∧ c ≠ Slip.frameEnd)) (l := cp)
    have hplain : ∀ c ∈ cp.takeWhile fun c => decide (c ≠ frameEscape ∧ c ≠ Slip.frameEnd),
        c ≠ frameEscape ∧ c ≠ Slip.frameEnd := by
      intro c hc
      have htake := List.mem_takeWhile_imp hc
      rwa [decide_eq_true_eq] at htake
    have hspecial : ∀ c cp', (cp.dropWhile fun c => decide (c ≠ frameEscape ∧ c ≠ Slip.frameEnd)) = c :: cp' →
        ¬(c ≠ frameEscape ∧ c ≠ Slip.frameEnd) := by
      intro c cp' hdrop
      have hhead := List.head?_dropWhile_not (fun c => decide (c ≠ frameEscape ∧ c ≠ Slip.frameEnd)) cp
      rw [hdrop] at hhead
      simpa using hhead
    unfold putMbuf
    generalize cp.takeWhile (fun c => decide (c ≠ frameEscape ∧ c ≠ Slip.frameEnd)) = bp at hsplit hplain
    generalize cp.dropWhile (fun c => decide (c ≠ frameEscape ∧ c ≠ Slip.frameEnd)) = rest at hsplit hspecial
    subst hsplit
    rw [stuff_append, stuff_plain hplain]
    have hfirst : Put q bp (if bp = [] then (0, q) else bToQ bp q).2 ∧
        ((if bp = [] then (0, q) else bToQ bp q).1 ≠ 0 → (if bp = [] then (0, q) else bToQ bp q).2.lost = true) := by
      by_cases hnil : bp = []
      · rw [if_pos hnil, hnil]
        exact ⟨put_nil, fun hne => absurd rfl hne⟩
      · rw [if_neg hnil]
        exact bToQ_spec bp q
    dsimp only
    generalize (if bp = [] then (0, q) else bToQ bp q) = r at hfirst
    obtain ⟨left, q₁⟩ := r
    obtain ⟨hput, hleft⟩ := hfirst
    dsimp only at hput hleft ⊢
    by_cases hne : left ≠ 0
    · rw [if_pos hne]
      exact put_of_lost (hleft hne)
    rw [if_neg hne]
    cases rest with
    | nil =>
      have hnil : marks.stuff [] = [] := rfl
      rw [hnil, List.append_nil]
      exact hput
    | cons c cp =>
      have htrans : marks.stuffOne c = [frameEscape, if c = frameEscape then transFrameEscape else transFrameEnd] := by
        rw [Marks.stuffOne, marks_escape, marks_frameEnd]
        by_cases hescape : c = frameEscape
        · rw [if_pos hescape, if_pos hescape]
          rfl
        · have hend : c = Slip.frameEnd := by
            by_contra hend
            exact hspecial c cp rfl ⟨hescape, hend⟩
          rw [if_neg hescape, if_neg hescape, if_pos hend]
          rfl
      have hstuff : marks.stuff (c :: cp) = [frameEscape] ++
          ([if c = frameEscape then transFrameEscape else transFrameEnd] ++ marks.stuff cp) := by
        rw [Marks.stuff, List.flatMap_cons, htrans]
        rfl
      rw [hstuff]
      dsimp only
      generalize (if c = frameEscape then transFrameEscape else transFrameEnd) = t
      obtain ⟨hesc, hescFull⟩ := putc_spec frameEscape q₁
      generalize putc frameEscape q₁ = r at hesc hescFull
      obtain ⟨full, q₂⟩ := r
      cases full with
      | true => exact put_of_lost (hescFull rfl)
      | false =>
        obtain ⟨hsub, hsubFull⟩ := putc_spec t q₂
        dsimp only
        generalize putc t q₂ = r at hsub hsubFull
        obtain ⟨full, q₃⟩ := r
        cases full with
        | true => exact put_of_lost (hsubFull rfl)
        | false =>
          have hlen : cp.length < fuel := by
            rw [List.length_append, List.length_cons] at hfuel
            omega
          exact hput.trans (hesc.trans (hsub.trans (ih hlen q₃)))

theorem putMbufs_put (m : List Mbuf) (q : Outq) :
    Put q (marks.stuff m.flatten) (m.foldl (fun q cp => putMbuf (cp.length + 1) cp q) q) := by
  induction m generalizing q with
  | nil => exact put_nil
  | cons cp m ih =>
    rw [List.flatten_cons, stuff_append, List.foldl_cons]
    exact (putMbuf_put (Nat.lt_succ_self _) q).trans (ih _)

theorem putPacket_put (m : List Mbuf) (q : Outq) :
    Put q ((if q.chars = [] then [Slip.frameEnd] else []) ++ (marks.stuff m.flatten ++ [Slip.frameEnd])) (putPacket m q) := by
  have hmark : Put q (if q.chars = [] then [Slip.frameEnd] else [])
      (if q.chars = [] then (putc Slip.frameEnd q).2 else q) := by
    split
    · exact (putc_spec Slip.frameEnd q).1
    · exact put_nil
  unfold putPacket
  dsimp only
  generalize (if q.chars = [] then (putc Slip.frameEnd q).2 else q) = q₁ at hmark
  have hbytes := putMbufs_put m q₁
  generalize m.foldl (fun q cp => putMbuf (cp.length + 1) cp q) q₁ = q₂ at hbytes
  obtain ⟨hend, hfull⟩ := putc_spec Slip.frameEnd q₂
  generalize putc Slip.frameEnd q₂ = r at hend hfull
  obtain ⟨full, q₃⟩ := r
  cases full with
  | true =>
    intro hlost
    have hunput := ((putc_spec Slip.frameEnd (unputc q₃)).1 hlost).1
    exact Bool.noConfusion ((hfull rfl).symm.trans hunput)
  | false => exact hmark.trans (hbytes.trans hend)

structure Carries (cfg : Config) (d : Marks.Decoder Byte) (s : Sender) : Prop where
  sendable : ∀ m ∈ s.scFastq ++ s.ifSnd, Sendable cfg m
  compress : s.compress = false
  decoded : s.outq.lost = false → (s.wire ++ s.outq.chars).foldlM (marks.feed accept cfg.slmax) d =
    some { frames := s.taken.map List.flatten, current := [], escaped := false }

theorem Carries.oproc (h : Carries cfg d s) (k : Nat) : Carries cfg d (s.oproc k) := by
  refine ⟨h.sendable, h.compress, fun hlost => ?_⟩
  show (s.wire ++ s.outq.chars.take k ++ s.outq.chars.drop k).foldlM _ d = _
  rw [List.append_assoc, List.take_append_drop]
  exact h.decoded hlost

theorem accept_sendable {m : List Mbuf} (h : Sendable cfg m) : accept m.flatten = some [m.flatten] := by
  obtain ⟨hmin, -, hfirst⟩ := h
  rw [accept, if_neg (by omega)]
  cases hm : m.flatten with
  | nil =>
    rw [hm] at hmin
    exact absurd hmin (by decide)
  | cons b bytes =>
    rw [hm] at hfirst
    rw [List.head?_cons, Option.any_some, decide_eq_true (hfirst b rfl)]
    rfl

theorem Carries.packet (h : Carries cfg d s) {m : List Mbuf} (hm : Sendable cfg m)
    (hs : ∀ m ∈ s'.scFastq ++ s'.ifSnd, m ∈ s.scFastq ++ s.ifSnd) (hcompress : s'.compress = s.compress)
    (hwire : s'.wire = s.wire) (houtq : s'.outq = putPacket m s.outq) (htaken : s'.taken = s.taken ++ [m]) :
    Carries cfg d s' := by
  refine ⟨fun m hm => h.sendable m (hs m hm), hcompress.trans h.compress, fun hlost => ?_⟩
  rw [houtq] at hlost
  obtain ⟨hlost', hchars⟩ := putPacket_put m s.outq hlost
  have hmark : (if s.outq.chars = [] then [Slip.frameEnd] else []).foldlM (marks.feed accept cfg.slmax)
      (⟨s.taken.map List.flatten, [], false⟩ : Marks.Decoder Byte) = some ⟨s.taken.map List.flatten, [], false⟩ := by
    split
    · have hne : Slip.frameEnd ≠ frameEscape := by decide
      have hskip : accept [] = some [] := rfl
      simp [Marks.feed, marks_escape, marks_frameEnd, hne, hskip]
    · rfl
  have hframe := marks.feed_frame (d := ⟨s.taken.map List.flatten, [], false⟩) rfl rfl hm.2.1 (accept_sendable hm)
  rw [marks_frameEnd] at hframe
  rw [hwire, houtq, hchars, ← List.append_assoc, List.foldlM_append, h.decoded hlost', Option.bind_eq_bind,
    Option.bind_some, List.foldlM_append, hmark, Option.bind_eq_bind, Option.bind_some, hframe, htaken, List.map_append]
  rfl

theorem Sender.dequeue_spec {m : List Mbuf} (h : s.dequeue = some (m, s')) :
    m ∈ s.scFastq ++ s.ifSnd ∧ (∀ m ∈ s'.scFastq ++ s'.ifSnd, m ∈ s.scFastq ++ s.ifSnd) ∧
      s'.scFastq.length + s'.ifSnd.length + 1 = s.scFastq.length + s.ifSnd.length ∧
      s'.compress = s.compress ∧ s'.wire = s.wire ∧ s'.outq = s.outq ∧ s'.taken = s.taken ++ [m] := by
  obtain ⟨compress, fastq, snd, outq, wire, taken⟩ := s
  unfold Sender.dequeue at h
  cases fastq with
  | cons first fastq =>
    obtain ⟨rfl, rfl⟩ := Prod.mk.inj (Option.some.inj h)
    exact ⟨List.mem_cons_self, fun m hm => List.mem_cons_of_mem _ hm, Nat.add_right_comm .., rfl, rfl, rfl, rfl⟩
  | nil =>
    cases snd with
    | nil => cases h
    | cons first snd =>
      obtain ⟨rfl, rfl⟩ := Prod.mk.inj (Option.some.inj h)
      exact ⟨List.mem_cons_self, fun m hm => List.mem_cons_of_mem _ hm, rfl, rfl, rfl, rfl, rfl⟩

theorem Carries.slstartLoop (h : Carries cfg d s) (fuel : Nat) (taken : List Nat) :
    Carries cfg d (slstartLoop cfg fuel taken s) := by
  induction fuel generalizing taken s with
  | zero => exact h
  | succ fuel ih =>
    have htaken : Carries cfg d
        (if s.outq.chars = [] then (taken, s) else (taken.tail, s.oproc (taken.headD 0))).2 := by
      split
      · exact h
      · exact h.oproc _
    unfold Slip.slstartLoop
    dsimp only
    generalize (if s.outq.chars = [] then (taken, s) else (taken.tail, s.oproc (taken.headD 0))) = r at htaken
    obtain ⟨taken', s₁⟩ := r
    dsimp only
    split
    · exact htaken
    split
    · exact htaken
    cases hdequeue : s₁.dequeue with
    | none => exact htaken
    | some r =>
      obtain ⟨m, s₂⟩ := r
      obtain ⟨hm, hqueues, -, hcompress, hwire, houtq, hpackets⟩ := Sender.dequeue_spec hdequeue
      have hplain : ¬(s₂.compress = true ∧ ipP m = some ipprotoTcp) := fun hboth => by
        rw [hcompress, htaken.compress] at hboth
        exact Bool.false_ne_true hboth.1
      dsimp only
      rw [if_neg hplain]
      refine ih (s := { s₂ with outq := putPacket m s₂.outq }) ?_ taken'
      refine htaken.packet (htaken.sendable m hm) hqueues hcompress hwire ?_ hpackets
      show putPacket m s₂.outq = putPacket m s₁.outq
      rw [houtq]

theorem slstartLoop_lost (fuel : Nat) (taken : List Nat) (s : Sender)
    (hlost : (Slip.slstartLoop cfg fuel taken s).outq.lost = false) : s.outq.lost = false := by
  induction fuel generalizing taken s with
  | zero => exact hlost
  | succ fuel ih =>
    have hsame : (if s.outq.chars = [] then (taken, s) else (taken.tail, s.oproc (taken.headD 0))).2.outq.lost =
        s.outq.lost := by
      split <;> rfl
    unfold Slip.slstartLoop at hlost
    dsimp only at hlost
    generalize (if s.outq.chars = [] then (taken, s) else (taken.tail, s.oproc (taken.headD 0))) = r at hlost hsame
    obtain ⟨taken', s₁⟩ := r
    dsimp only at hlost hsame
    rw [← hsame]
    split at hlost
    · exact hlost
    split at hlost
    · exact hlost
    cases hdequeue : s₁.dequeue with
    | none =>
      rw [hdequeue] at hlost
      exact hlost
    | some r =>
      obtain ⟨m, s₂⟩ := r
      obtain ⟨-, -, -, -, -, houtq, -⟩ := Sender.dequeue_spec hdequeue
      rw [hdequeue] at hlost
      have hput := (putPacket_put _ _ (ih _ _ hlost)).1
      rwa [← houtq]

def Line.Good (cfg : Config) (l : Line) : Prop :=
  ∃ d, Carries cfg d l.sender ∧ (l.sender.outq.lost = false → Receives cfg l.received l.receiver d)

variable {line line' : Line}

theorem Line.Good.step {call : LineCall} (h : line.Good cfg) (hallowed : line.Allowed cfg call)
    (hstep : line.step cfg call = some line') : line'.Good cfg := by
  obtain ⟨d, hcarries, hreceives⟩ := h
  cases call with
  | output fast m =>
    obtain rfl := Option.some.inj hstep
    refine ⟨d, ⟨fun m' hm' => ?_, ?_, ?_⟩, ?_⟩
    · have hmem : m' ∈ line.sender.scFastq ++ line.sender.ifSnd ∨ m' = m := by
        cases fast <;> simp at hm' ⊢ <;> tauto
      rcases hmem with hold | rfl
      · exact hcarries.sendable m' hold
      · exact hallowed
    all_goals cases fast
    · exact hcarries.compress
    · exact hcarries.compress
    · exact hcarries.decoded
    · exact hcarries.decoded
    · exact hreceives
    · exact hreceives
  | slstart taken =>
    obtain rfl := Option.some.inj hstep
    exact ⟨d, hcarries.slstartLoop _ taken, fun hlost => hreceives (slstartLoop_lost _ taken _ hlost)⟩
  | device k =>
    obtain rfl := Option.some.inj hstep
    exact ⟨d, hcarries.oproc k, hreceives⟩
  | slinput cluster =>
    obtain ⟨hroom, hcluster, hfree⟩ := hallowed
    unfold Line.step at hstep
    cases hwire : line.sender.wire with
    | nil =>
      rw [hwire] at hstep
      cases hstep
    | cons c wire =>
      rw [hwire] at hstep
      obtain rfl := Option.some.inj hstep
      by_cases hlost : line.sender.outq.lost = false
      · have hdecoded := hcarries.decoded hlost
        rw [hwire, List.cons_append, List.foldlM_cons] at hdecoded
        obtain ⟨d', hfeed, hrest⟩ := Option.bind_eq_some_iff.mp hdecoded
        exact ⟨d', ⟨hcarries.sendable, hcarries.compress, fun _ => hrest⟩,
          fun _ => (hreceives hlost).slinput hroom hcluster hfree hfeed⟩
      · exact ⟨d, ⟨hcarries.sendable, hcarries.compress, fun h => absurd h hlost⟩, fun h => absurd h hlost⟩
  | ipintr =>
    unfold Line.step at hstep
    cases hqueue : line.receiver.ipintrq with
    | nil =>
      rw [hqueue] at hstep
      cases hstep
    | cons m ipintrq =>
      rw [hqueue] at hstep
      obtain rfl := Option.some.inj hstep
      refine ⟨d, hcarries, fun hlost => ?_⟩
      obtain ⟨hframes, hep, hbuf, hmp, hcurrent, hfits, hescape, herror, hcompress, hapart⟩ := hreceives hlost
      refine ⟨?_, hep, hbuf, hmp, hcurrent, hfits, hescape, herror, hcompress, fun mData mLen hm => ?_⟩
      · rw [hframes, hqueue, List.map_cons, List.append_cons]
      · rw [hqueue] at hapart
        exact hapart mData mLen (List.mem_cons_of_mem m hm)

theorem Line.Opened.good (h : line.Opened cfg) : line.Good cfg := by
  refine ⟨{ frames := [], current := [], escaped := false }, ⟨fun m hm => ?_, h.compress, fun _ => ?_⟩, fun _ => ?_⟩
  · rw [h.fastq, h.snd] at hm
    cases hm
  · rw [h.wire, h.chars, h.taken]
    rfl
  · refine ⟨?_, h.ep, h.buf, h.mp, rfl, Nat.zero_le _, h.plain.2.1, h.plain.1, h.plain.2.2, fun mData mLen hm => ?_⟩
    · rw [h.received, h.queue]
      rfl
    · rw [h.queue] at hm
      cases hm

theorem frames_prefix {chars : List Byte} (h : chars.foldlM (marks.feed accept cfg.slmax) d = some d') :
    d.frames <+: d'.frames := by
  induction chars generalizing d with
  | nil =>
    obtain rfl := Option.some.inj h
    exact List.prefix_refl _
  | cons c chars ih =>
    rw [List.foldlM_cons] at h
    obtain ⟨d₁, hfeed, hrest⟩ := Option.bind_eq_some_iff.mp h
    refine List.IsPrefix.trans ?_ (ih hrest)
    unfold Marks.feed at hfeed
    split at hfeed
    · obtain rfl := Option.some.inj hfeed
      exact List.prefix_refl _
    split at hfeed
    · obtain ⟨frames, -, rfl⟩ := Option.map_eq_some_iff.mp hfeed
      exact List.prefix_append _ _
    split at hfeed
    · obtain rfl := Option.some.inj hfeed
      exact List.prefix_refl _
    · cases hfeed

/-- As long as no character was lost at the output queue, the packets that are received are those that `slstart` has
taken, in order, as far as their characters have arrived; and all of them when no character is under way. -/
theorem slip_transparent (hruns : Runs (Line.Opened cfg) (Line.step cfg) (Line.Allowed cfg) line)
    (hlost : line.sender.outq.lost = false) :
    line.packets <+: line.sender.taken.map List.flatten ∧
      (line.sender.wire ++ line.sender.outq.chars = [] → line.packets = line.sender.taken.map List.flatten) := by
  have hgood : line.Good cfg := hruns.invariant (fun _ h => h.good) fun _ _ _ hg hok hstep => hg.step hok hstep
  obtain ⟨d, hcarries, hreceives⟩ := hgood
  have hdecoded := hcarries.decoded hlost
  have hframes := (hreceives hlost).frames
  rw [← Line.packets] at hframes
  refine ⟨?_, fun hnil => ?_⟩
  · rw [← hframes]
    exact frames_prefix hdecoded
  · rw [hnil] at hdecoded
    rw [← hframes, Option.some.inj hdecoded]

def smallConfig : Config where
  slmax := 1916
  slbufsize := 2048
  slmtu := 296
  slipHiwat := 64
  mhlen := 100
  ifqMaxlen := 50
  slmax_le := by decide
  autocomp := true
  slCompressTcp := id
  slUncompressTcp := fun _ _ _ _ => none

def openLine : Line where
  sender := { compress := false, scFastq := [], ifSnd := [], outq := ⟨888, [], false⟩, wire := [], taken := [] }
  receiver := {
    scMp := 132, scEp := 2048, scBuf := 132, scError := false, scEscape := false, compress := false
    mem := fun _ => 0, ipintrq := [] }
  received := []

def Line.after (l : Line) (call : LineCall) : Line := (l.step smallConfig call).getD l

theorem Line.runs_after {p : Line → LineCall → Prop} {l : Line}
    (hruns : Runs (Line.Opened smallConfig) (Line.step smallConfig) p l) (call : LineCall) (hok : p l call)
    (hsome : (l.step smallConfig call).isSome = true) :
    Runs (Line.Opened smallConfig) (Line.step smallConfig) p (l.after call) :=
  hruns.after call hok hsome

theorem Line.runs_slinput {l : Line}
    (hruns : Runs (Line.Opened smallConfig) (Line.step smallConfig) (Line.Allowed smallConfig) l)
    (hqueue : l.receiver.ipintrq = []) (hep : l.receiver.scEp = 2048)
    (hsome : (l.step smallConfig (.slinput 2048)).isSome = true) :
    Runs (Line.Opened smallConfig) (Line.step smallConfig) (Line.Allowed smallConfig) (l.after (.slinput 2048)) := by
  refine Line.runs_after hruns _ ⟨?_, ?_, fun mData mLen hm => ?_⟩ hsome
  · rw [hqueue]
    decide
  · rw [hep]
    exact Or.inr (Nat.le_refl _)
  · rw [hqueue] at hm
    cases hm

def sentLine : Line :=
  ((openLine.after (.output false [[0x45], [], [0xc0, 1]])).after (.slstart [])).after (.device 6)

def receivedLine : Line :=
  (((((sentLine.after (.slinput 2048)).after (.slinput 2048)).after (.slinput 2048)).after (.slinput 2048)).after
    (.slinput 2048)).after (.slinput 2048)

theorem slip_transparent_one : receivedLine.packets = receivedLine.sender.taken.map List.flatten := by
  have hopen : openLine.Opened smallConfig :=
    ⟨rfl, rfl, rfl, rfl, rfl, rfl, Nat.le_refl _, rfl, rfl, ⟨rfl, rfl, rfl⟩, rfl, rfl⟩
  have houtput := Line.runs_after (p := Line.Allowed smallConfig) (Runs.start hopen)
    (.output false [[0x45], [], [0xc0, 1]]) ⟨by decide, by decide, by decide⟩ rfl
  have hsent : Runs (Line.Opened smallConfig) (Line.step smallConfig) (Line.Allowed smallConfig) sentLine :=
    Line.runs_after (Line.runs_after houtput (.slstart []) trivial rfl) (.device 6) trivial rfl
  have hone := Line.runs_slinput hsent (by decide) (by decide) (by decide)
  have htwo := Line.runs_slinput hone (by decide) (by decide) (by decide)
  have hthree := Line.runs_slinput htwo (by decide) (by decide) (by decide)
  have hfour := Line.runs_slinput hthree (by decide) (by decide) (by decide)
  have hfive := Line.runs_slinput hfour (by decide) (by decide) (by decide)
  have hsix : Runs (Line.Opened smallConfig) (Line.step smallConfig) (Line.Allowed smallConfig) receivedLine :=
    Line.runs_slinput hfive (by decide) (by decide) (by decide)
  exact (slip_transparent hsix (by decide)).2 (by decide)

variable {cluster : Option Nat} {r' : Receiver} {a : Nat}

structure Receiver.Fits (cfg : Config) (r : Receiver) : Prop where
  cluster : cfg.slbufsize ≤ r.scEp
  buf : r.scBuf + cfg.slmax = r.scEp
  mp : r.scBuf ≤ r.scMp ∧ r.scMp ≤ r.scEp

def Config.Outside (cfg : Config) (ep a : Nat) : Prop := a + cfg.slbufsize < ep ∨ ep ≤ a

def Config.Prepends (cfg : Config) : Prop :=
  ∀ mem buf len c mem' buf' len', cfg.slUncompressTcp mem buf len c = some (mem', buf', len') →
    ∀ a, cfg.Outside (buf + cfg.slmax) a → mem' a = mem a

/-- Nothing outside the cluster of `r` has changed, and the cluster is the same or a new one. -/
structure Keeps (cfg : Config) (cluster : Option Nat) (r r' : Receiver) : Prop where
  scEp : r'.scEp = r.scEp ∨ ∃ p, cluster = some p ∧ r'.scEp = p + cfg.slbufsize
  mem : ∀ a, cfg.Outside r.scEp a → r'.mem a = r.mem a

theorem Keeps.newpack (h : Keeps cfg cluster r r') (hr : r.Fits cfg) :
    Keeps cfg cluster r (newpack cfg r') ∧ (newpack cfg r').Fits cfg := by
  have hle : cfg.slbufsize ≤ r'.scEp := by
    rcases h.scEp with heq | ⟨p, -, heq⟩ <;> rw [heq]
    · exact hr.cluster
    · exact Nat.le_add_left ..
  exact ⟨⟨h.scEp, h.mem⟩, hle, Nat.sub_add_cancel (cfg.slmax_le.trans hle), Nat.le_refl _, Nat.sub_le ..⟩

theorem Receiver.Fits.update (h : r.Fits cfg) {i : Nat} (hlo : r.scBuf ≤ i) (hhi : i < r.scEp) (x : Byte)
    (ha : cfg.Outside r.scEp a) : Function.update r.mem i x a = r.mem a := by
  have := cfg.slmax_le
  have := h.buf
  exact Function.update_of_ne (by rcases ha with ha | ha <;> omega) ..

theorem Receiver.Fits.uncompress (h : r.Fits cfg) (hcfg : cfg.Prepends) (len : Nat) (hne : r.scBuf < r.scEp) :
    Keeps cfg cluster r (uncompress cfg len r).2 := by
  unfold Slip.uncompress
  dsimp only
  generalize hr' : (if r.mem r.scBuf &&& 0xf0 &&& 0x80 = 0 ∧ r.mem r.scBuf &&& 0xf0 = typeUncompressedTcp then
    { r with mem := Function.update r.mem r.scBuf (r.mem r.scBuf &&& 0x4f) } else r) = r'
  have hsame : r'.scEp = r.scEp ∧ r'.scBuf + cfg.slmax = r.scEp ∧ ∀ a, cfg.Outside r.scEp a → r'.mem a = r.mem a := by
    subst hr'
    split
    · exact ⟨rfl, h.buf, fun a ha => h.update (Nat.le_refl _) hne _ ha⟩
    · exact ⟨rfl, h.buf, fun _ _ => rfl⟩
  obtain ⟨hep, hbuf, hmem⟩ := hsame
  have hcall : ∀ {c mem buf len'}, cfg.slUncompressTcp r'.mem r'.scBuf len c = some (mem, buf, len') →
      ∀ a, cfg.Outside r.scEp a → mem a = r.mem a := fun hsome a ha =>
    (hcfg _ _ _ _ _ _ _ hsome a (hbuf.symm ▸ ha)).trans (hmem a ha)
  generalize (if r.mem r.scBuf &&& 0xf0 &&& 0x80 ≠ 0 then typeCompressedTcp else r.mem r.scBuf &&& 0xf0) = c
  cases hsome : cfg.slUncompressTcp r'.mem r'.scBuf len c with
  | none => split_ifs <;> exact ⟨.inl hep, hmem⟩
  | some u =>
    split_ifs
    · exact ⟨.inl hep, hcall hsome⟩
    · exact ⟨.inl hep, hcall hsome⟩
    · exact ⟨.inl hep, hmem⟩

theorem Receiver.Fits.slinput (h : r.Fits cfg) (hcfg : cfg.Prepends) (hdr : Bool) (cluster : Option Nat) (bad : Bool) (c : Byte) :
    Keeps cfg cluster r (slinput cfg hdr cluster bad c r) ∧ (slinput cfg hdr cluster bad c r).Fits cfg := by
  have hstore : ∀ x, Keeps cfg cluster r (slinputStore cfg x r) ∧ (slinputStore cfg x r).Fits cfg := fun x => by
    unfold slinputStore
    split
    · next hlt =>
      exact ⟨⟨.inl rfl, fun a ha => h.update h.mp.1 hlt x ha⟩, h.cluster, h.buf, Nat.le_succ_of_le h.mp.1, hlt⟩
    · exact Keeps.newpack ⟨.inl rfl, fun _ _ => rfl⟩ h
  have hend : Keeps cfg cluster r (slinputEnd cfg hdr cluster r) ∧ (slinputEnd cfg hdr cluster r).Fits cfg := by
    unfold slinputEnd
    split
    · exact Keeps.newpack ⟨.inl rfl, fun _ _ => rfl⟩ h
    dsimp only
    split
    · exact Keeps.newpack ⟨.inl rfl, fun _ _ => rfl⟩ h
    have hkeeps : Keeps cfg cluster r (if r.mem r.scBuf &&& 0xf0 ≠ 0x40 then Slip.uncompress cfg (r.scMp - r.scBuf) r
        else (some (r.scMp - r.scBuf), r)).2 := by
      split
      · exact h.uncompress hcfg _ (by have := h.mp; omega)
      · exact ⟨.inl rfl, fun _ _ => rfl⟩
    generalize (if r.mem r.scBuf &&& 0xf0 ≠ 0x40 then Slip.uncompress cfg (r.scMp - r.scBuf) r
      else (some (r.scMp - r.scBuf), r)) = u at hkeeps ⊢
    split
    · exact hkeeps.newpack h
    split
    · exact hkeeps.newpack h
    next m r' hm =>
      have hr' : Keeps cfg cluster r r' := by
        unfold slBtom at hm
        split_ifs at hm
        · obtain ⟨p, rfl, hp⟩ := Option.map_eq_some_iff.1 hm
          cases hp
          exact ⟨.inr ⟨p, rfl, rfl⟩, hkeeps.mem⟩
        · cases hm
          exact hkeeps
      split
      · exact hr'.newpack h
      · exact Keeps.newpack ⟨hr'.scEp, hr'.mem⟩ h
  unfold Slip.slinput
  split_ifs
  all_goals first
    | exact hstore _
    | exact hend
    | exact ⟨⟨.inl rfl, fun _ _ => rfl⟩, h.cluster, h.buf, h.mp⟩

end NetBSD.Slip
