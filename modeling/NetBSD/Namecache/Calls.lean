import NetBSD.Namecache.Cache
import Mathlib.Data.List.Count

/-!
# The calls

Each call returns and keeps the chains consistent; what it leaves on the hash chains was there before, but for an entry that is
entered.
-/

namespace NetBSD.Namecache

open Lib (Chains Deque)

variable {conf : Config} {c c' : Cache} {l : List Nat} {chain : Nat → List Nat} {ncp a dvp : Nat} {name : Name}

theorem findLoop_spec {s : Lib.Slot Nat Nat} {rest : List Nat} {fuel : Nat} (h : c.hash.Chain s rest) (hfuel : rest.length ≤ fuel) :
    c.findLoop dvp name fuel (c.hash.val s) = some (rest.find? (c.matches_ dvp name)) := by
  induction rest generalizing s fuel with
  | nil =>
    have hnull : c.hash.val s = none := h
    rw [hnull, Cache.findLoop.eq_def]
    rfl
  | cons a rest ih =>
    obtain ⟨hfirst, -, hrest⟩ := h
    obtain ⟨fuel, rfl⟩ : ∃ n, fuel = n + 1 := Nat.exists_eq_add_of_le' (Nat.le_trans (Nat.le_add_left ..) hfuel)
    rw [hfirst, Cache.findLoop, List.find?_cons]
    cases hmatch : c.matches_ dvp name a with
    | true => rfl
    | false => exact ih hrest (Nat.le_of_succ_le_succ hfuel)

theorem matches_iff : c.matches_ dvp name a = true ↔
    (c.entry a).dvp = some dvp ∧ (c.entry a).dvpid = c.vid dvp ∧ (c.entry a).name = name := decide_eq_true_iff

theorem Consistent.find (h : Consistent conf c l chain) (dvp : Nat) (name : Name) : ∃ found : Option Nat,
    c.findLoop dvp name c.numcache (c.hash.val (.head (conf.bucket name))) = some found ∧
      (∀ a ∈ found, c.Hashed a ∧ c.matches_ dvp name a) ∧ (found = none → ∀ a, c.Hashed a → c.matches_ dvp name a = false) := by
  refine ⟨_, findLoop_spec (h.hash.links _) (h.length_le _), fun a ha => ?_, fun hnone a ha => ?_⟩
  · exact ⟨h.hashed_iff.2 ⟨_, List.mem_of_find?_eq_some ha⟩, List.find?_some ha⟩
  · by_contra hmatch
    have hname := (matches_iff.1 (eq_true_of_ne_false hmatch)).2.2
    exact List.find?_eq_none.1 hnone a (hname ▸ h.mem_bucket ha) (eq_true_of_ne_false hmatch)

theorem Consistent.not_matches_of_long (h : Consistent conf c l chain) (hlong : name.length > nchnamlen) (ha : c.Hashed a) :
    c.matches_ dvp name a = false := by
  by_contra hmatch
  have hname := (matches_iff.1 (eq_true_of_ne_false hmatch)).2.2
  obtain ⟨b, hb⟩ := h.hashed_iff.1 ha
  exact absurd (hname ▸ h.short b a hb) (Nat.not_le_of_lt hlong)

structure Without (c c' : Cache) (gone : Option Nat) : Prop extends Same c c' where
  entry : c'.entry = c.entry
  hashed : ∀ a, c'.Hashed a ↔ c.Hashed a ∧ a ∉ gone

theorem Without.of_eq {gone : Option Nat} (h : c' = { c with hash := c'.hash, lru := c'.lru })
    (hhashed : ∀ a, c'.Hashed a ↔ c.Hashed a ∧ a ∉ gone) : Without c c' gone where
  numcache := by rw [h]
  vid := by rw [h]
  nextvnodeid := by rw [h]
  entry := by rw [h]
  hashed := hhashed

theorem Without.none_of_eq (h : c' = { c with lru := c'.lru }) : Without c c' none := by
  have hhash : c'.hash = c.hash := by rw [h]
  refine .of_eq (by rw [hhash]; exact h) fun a => ?_
  rw [Cache.Hashed, Cache.Hashed, hhash]
  exact ⟨fun ha => ⟨ha, Option.not_mem_none a⟩, fun ha => ha.1⟩

def Answers (c : Cache) (dvp : Nat) (name : Name) (gone : Option Nat) : Reply → Prop
  | .zero => (∀ a ∈ gone, c.Hashed a ∧ c.matches_ dvp name a) ∧ (gone = none → ∀ a, c.Hashed a → c.matches_ dvp name a = false)
  | .vnode vp => gone = none ∧ ∃ a, c.Hashed a ∧ c.matches_ dvp name a ∧ (c.entry a).vp = some vp ∧ (c.entry a).vpid = c.vid vp
  | .enoent => gone = none ∧ ∃ a, c.Hashed a ∧ c.matches_ dvp name a ∧ (c.entry a).vp = none

theorem Sound.lookup (h : Sound conf c) (dvp : Nat) (cn : Component) :
    ∃ r c' gone, c.lookup conf dvp cn = some (r, c') ∧ Sound conf c' ∧ Without c c' gone ∧ Answers c dvp cn.name gone r := by
  obtain ⟨l, chain, h⟩ := h
  have hstay : Without c c none := .none_of_eq rfl
  have hnone : ∀ a ∈ (none : Option Nat), c.Hashed a ∧ c.matches_ dvp cn.name a := fun a ha => absurd ha (Option.not_mem_none a)
  unfold Cache.lookup
  by_cases hdoing : conf.doingcache = false
  · rw [if_pos hdoing]
    refine ⟨_, _, none, rfl, ⟨l, chain, h⟩, hstay, hnone, fun _ a ha => ?_⟩
    exact absurd (h.idle hdoing ▸ h.lt_of_hashed ha) (Nat.not_lt_zero a)
  by_cases hlong : cn.name.length > nchnamlen
  · rw [if_neg hdoing, if_pos hlong]
    exact ⟨_, _, none, rfl, ⟨l, chain, h⟩, hstay, hnone, fun _ a ha => h.not_matches_of_long hlong ha⟩
  obtain ⟨found, hfind, hfound, hmissing⟩ := h.find dvp cn.name
  rw [if_neg hdoing, if_neg hlong, hfind, Option.bind_some]
  cases found with
  | none => exact ⟨_, _, none, rfl, ⟨l, chain, h⟩, hstay, hnone, hmissing⟩
  | some ncp =>
    obtain ⟨hncp, hmatch⟩ := hfound ncp rfl
    obtain ⟨c₁, l₁, chain₁, hdrop, hcons₁, heq₁, hhashed₁⟩ := h.drop hncp
    obtain ⟨c₂, l₂, hmove, hcons₂, heq₂⟩ := h.moveToEnd (h.lt_of_hashed hncp)
    have hdropped : ∃ r c' gone, (c.drop ncp).map (fun c => (Reply.zero, c)) = some (r, c') ∧ Sound conf c' ∧ Without c c' gone ∧
        Answers c dvp cn.name gone r := by
      refine ⟨_, _, some ncp, congrArg _ hdrop, ⟨l₁, chain₁, hcons₁⟩, .of_eq heq₁ fun a => ?_, fun a ha => ?_, fun hnone => ?_⟩
      · rw [hhashed₁, Option.mem_some_iff, eq_comm (a := ncp)]
      · exact Option.some.inj ha ▸ ⟨hncp, hmatch⟩
      · exact absurd hnone (Option.some_ne_none ncp)
    dsimp only
    split
    · exact hdropped
    split
    · rename_i hvp
      split
      · exact hdropped
      · exact ⟨_, _, none, congrArg _ hmove, ⟨l₂, chain, hcons₂⟩, .none_of_eq heq₂, rfl, ncp, hncp, hmatch, hvp⟩
    · rename_i vp hvp
      split
      · exact hdropped
      · rename_i hvpid
        exact ⟨_, _, none, congrArg _ hmove, ⟨l₂, chain, hcons₂⟩, .none_of_eq heq₂, rfl, ncp, hncp, hmatch, hvp, not_not.1 hvpid⟩

structure Spare (conf : Config) (c : Cache) (ncp : Nat) (l : List Nat) (chain : Nat → List Nat) : Prop where
  lt : ncp < c.numcache
  lru : c.lru.Holds l
  mem : ∀ a, a ∈ l ↔ a < c.numcache ∧ a ≠ ncp
  hash : c.hash.Hung chain
  sub : ∀ b, ∀ a ∈ chain b, a < c.numcache ∧ a ≠ ncp
  bucket : ∀ b, ∀ a ∈ chain b, b = conf.bucket (c.entry a).name
  short : ∀ b, ∀ a ∈ chain b, (c.entry a).name.length ≤ nchnamlen
  doing : conf.doingcache ≠ false

def Cache.place (conf : Config) (c : Cache) (ncp : Nat) (e : Entry) : Cache :=
  { c with entry := Function.update c.entry ncp e, lru := c.lru.pushBack ncp, hash := c.hash.push (conf.bucket e.name) ncp }

theorem Spare.place (h : Spare conf c ncp l chain) {e : Entry} (he : e.name.length ≤ nchnamlen) :
    ∃ chain', Consistent conf (c.place conf ncp e) (l ++ [ncp]) chain' ∧
      ∀ a, (c.place conf ncp e).Hashed a ↔ c.Hashed a ∨ a = ncp := by
  have hoff : ∀ b, ncp ∉ chain b := fun b hb => (h.sub b ncp hb).2 rfl
  have hnot : ncp ∉ l := fun hin => ((h.mem ncp).1 hin).2 rfl
  have hmem : ∀ b a, a ∈ Function.update chain (conf.bucket e.name) (ncp :: chain (conf.bucket e.name)) b ↔
      a ∈ chain b ∨ a = ncp ∧ b = conf.bucket e.name := by
    intro b a
    by_cases hb : b = conf.bucket e.name
    · subst hb
      rw [Function.update_self, List.mem_cons]
      exact ⟨fun hin => hin.elim (fun heq => .inr ⟨heq, rfl⟩) .inl, fun hin => hin.elim .inr fun heq => .inl heq.1⟩
    · rw [Function.update_of_ne hb]
      exact ⟨.inl, fun hin => hin.elim id fun heq => absurd heq.2 hb⟩
  have hother : ∀ {b a}, a ∈ chain b → Function.update c.entry ncp e a = c.entry a := fun hin =>
    Function.update_of_ne (h.sub _ _ hin).2 ..
  have hnew : Function.update c.entry ncp e ncp = e := Function.update_self ..
  refine ⟨_, ⟨h.lru.pushBack hnot, fun a => ?_, h.hash.push hoff, fun b a hin => ?_, fun b a hin => ?_, fun b a hin => ?_,
    fun hidle => absurd hidle h.doing⟩, fun a => ?_⟩
  · rw [List.mem_append, List.mem_singleton, h.mem]
    constructor
    · rintro (hin | rfl)
      exacts [hin.1, h.lt]
    · intro hlt
      exact (eq_or_ne a ncp).symm.imp (fun hne => ⟨hlt, hne⟩) id
  · rcases (hmem b a).1 hin with hin | ⟨rfl, -⟩
    exacts [(h.sub b a hin).1, h.lt]
  · rcases (hmem b a).1 hin with hin | ⟨rfl, hb⟩
    · exact (h.bucket b a hin).trans (congrArg (fun e => conf.bucket e.name) (hother hin).symm)
    · exact hb.trans (congrArg (fun e => conf.bucket e.name) hnew.symm)
  · rcases (hmem b a).1 hin with hin | ⟨rfl, hb⟩
    · exact Nat.le_trans (Nat.le_of_eq (congrArg (fun e => e.name.length) (hother hin))) (h.short b a hin)
    · exact Nat.le_trans (Nat.le_of_eq (congrArg (fun e => e.name.length) hnew)) he
  · refine (h.hash.push hoff).mem_iff.trans ?_
    rw [Cache.Hashed, h.hash.mem_iff]
    constructor
    · rintro ⟨b, hb⟩
      exact ((hmem b a).1 hb).imp (fun hin => ⟨b, hin⟩) fun heq => heq.1
    · rintro (⟨b, hb⟩ | rfl)
      exacts [⟨b, (hmem b a).2 (.inl hb)⟩, ⟨_, (hmem _ a).2 (.inr ⟨rfl, rfl⟩)⟩]

theorem Consistent.grab (h : Consistent conf c l chain) (hdoing : conf.doingcache ≠ false) :
    c.grab conf = some (none, c) ∨ ∃ ncp c' l' chain', c.grab conf = some (some ncp, c') ∧ Spare conf c' ncp l' chain' ∧
      c'.entry = c.entry ∧ c'.vid = c.vid ∧ c'.nextvnodeid = c.nextvnodeid ∧ ∀ a, c'.Hashed a ↔ c.Hashed a ∧ a ≠ ncp := by
  unfold Cache.grab
  split
  · right
    have hoff : ∀ b, c.numcache ∉ chain b := fun b hb => Nat.lt_irrefl _ (h.sub b _ hb)
    have hnew : ∀ {a}, a < c.numcache → a < c.numcache + 1 ∧ a ≠ c.numcache := fun hlt => ⟨Nat.lt_succ_of_lt hlt, Nat.ne_of_lt hlt⟩
    have hspare : Spare conf { c with hash := c.hash.clear c.numcache, numcache := c.numcache + 1 } c.numcache l chain := by
      refine ⟨Nat.lt_succ_self _, h.lru, fun a => (h.mem a).trans ⟨hnew, fun hlt => ?_⟩, h.hash.clear hoff,
        fun b a hin => hnew (h.sub b a hin), h.bucket, h.short, hdoing⟩
      exact Nat.lt_of_le_of_ne (Nat.le_of_lt_succ hlt.1) hlt.2
    refine ⟨_, _, l, chain, rfl, hspare, rfl, rfl, rfl, fun a => ?_⟩
    refine (hspare.hash.mem_iff.trans h.hashed_iff.symm).trans ⟨fun ha => ⟨ha, ?_⟩, fun ha => ha.1⟩
    exact Nat.ne_of_lt (h.lt_of_hashed ha)
  · rw [h.lru.chain.head?]
    cases l with
    | nil => exact .inl rfl
    | cons ncp l =>
      right
      obtain ⟨lru, hremove, hholds⟩ := h.lru.remove List.mem_cons_self
      obtain ⟨c₁, chain', hunhash, hcons, heq, hhashed⟩ := h.unhashIfOn ncp
      obtain ⟨hash, rfl⟩ : ∃ hash, c₁ = { c with hash := hash } := ⟨_, heq⟩
      rw [List.erase_cons_head] at hholds
      refine ⟨ncp, { c with hash := hash, lru := lru }, l, chain', ?_, ?_, rfl, rfl, rfl, hhashed⟩
      · rw [List.head?_cons]
        dsimp only
        rw [hremove, Option.bind_some, unhashIfOn_lru, hunhash]
        rfl
      · refine ⟨(h.mem ncp).1 List.mem_cons_self, hholds, fun a => ?_, hcons.hash, fun b a hin => ?_, hcons.bucket, hcons.short, hdoing⟩
        · have hnot := (List.nodup_cons.1 h.lru.nodup).1
          refine Iff.trans ⟨fun hin => ⟨List.mem_cons_of_mem _ hin, ne_of_mem_of_not_mem hin hnot⟩, fun hin => ?_⟩
            (and_congr_left' (h.mem a))
          exact (List.mem_cons.1 hin.1).resolve_left hin.2
        · exact ⟨hcons.sub b a hin, ((hhashed a).1 (hcons.hashed_iff.2 ⟨b, hin⟩)).2⟩

theorem Sound.enter (h : Sound conf c) (dvp : Nat) (vp : Option Nat) (hname : name.length ≤ nchnamlen) :
    ∃ c' ncp, c.enter conf dvp vp name = some c' ∧ Sound conf c' ∧ c'.vid = c.vid ∧ c'.nextvnodeid = c.nextvnodeid ∧
      ∀ a, c'.Hashed a → c.Hashed a ∧ a ≠ ncp ∧ c'.entry a = c.entry a ∨
        a = ncp ∧ c'.entry a = { dvp := some dvp, dvpid := c.vid dvp, vp := vp, vpid := vp.elim 0 c.vid, name := name } := by
  obtain ⟨l, chain, h⟩ := h
  have hstay : ∀ a, c.Hashed a → c.Hashed a ∧ a ≠ c.numcache ∧ c.entry a = c.entry a := fun a ha =>
    ⟨ha, Nat.ne_of_lt (h.lt_of_hashed ha), rfl⟩
  unfold Cache.enter
  rw [if_neg (Nat.not_lt_of_le hname)]
  by_cases hdoing : conf.doingcache = false
  · rw [if_pos hdoing]
    exact ⟨c, c.numcache, rfl, ⟨l, chain, h⟩, rfl, rfl, fun a ha => .inl (hstay a ha)⟩
  · rw [if_neg hdoing]
    rcases h.grab hdoing with hgrab | ⟨ncp, c₁, l', chain', hgrab, hspare, hentry, hvid, hnext, hhashed⟩
    · rw [hgrab]
      exact ⟨c, c.numcache, rfl, ⟨l, chain, h⟩, rfl, rfl, fun a ha => .inl (hstay a ha)⟩
    · rw [hgrab]
      obtain ⟨chain'', hcons, hplaced⟩ := hspare.place (e := ⟨some dvp, c₁.vid dvp, vp, vp.elim 0 c₁.vid, name⟩) hname
      refine ⟨_, ncp, rfl, ⟨_, _, hcons⟩, hvid, hnext, fun a ha => ?_⟩
      rcases (hplaced a).1 ha with hin | rfl
      · obtain ⟨hin, hne⟩ := (hhashed a).1 hin
        exact .inl ⟨hin, hne, (Function.update_of_ne hne ..).trans (congrFun hentry a)⟩
      · refine .inr ⟨rfl, (Function.update_self ..).trans ?_⟩
        rw [hvid]

theorem Consistent.relabel {entry : Nat → Entry} {vid : Nat → BitVec 32} {next : BitVec 32} (h : Consistent conf c l chain)
    (hname : ∀ a, (entry a).name = (c.entry a).name) :
    Consistent conf { c with entry := entry, vid := vid, nextvnodeid := next } l chain :=
  ⟨h.lru, h.mem, h.hash, h.sub, fun b a hin => (h.bucket b a hin).trans (congrArg conf.bucket (hname a).symm),
    fun b a hin => Nat.le_trans (Nat.le_of_eq (congrArg List.length (hname a))) (h.short b a hin), h.idle⟩

def Entry.zeroed (e : Entry) : Entry := { e with vpid := 0, dvpid := 0 }

def Zeroed (p : Nat → Prop) (entry entry' : Nat → Entry) : Prop :=
  ∀ a, (p a → entry' a = (entry a).zeroed) ∧ (¬p a → entry' a = entry a)

theorem Zeroed.trans {p q : Nat → Prop} {entry entry' entry'' : Nat → Entry} (h : Zeroed p entry entry')
    (h' : Zeroed q entry' entry'') : Zeroed (fun a => p a ∨ q a) entry entry'' := by
  intro a
  constructor
  · intro hpq
    by_cases hp : p a
    · by_cases hq : q a
      · rw [(h' a).1 hq, (h a).1 hp]
        rfl
      · exact ((h' a).2 hq).trans ((h a).1 hp)
    · exact ((h' a).1 (hpq.resolve_left hp)).trans (congrArg Entry.zeroed ((h a).2 hp))
  · intro hpq
    exact ((h' a).2 fun hq => hpq (.inr hq)).trans ((h a).2 fun hp => hpq (.inl hp))

theorem zeroed_update (entry : Nat → Entry) (ncp : Nat) :
    Zeroed (· = ncp) entry (Function.update entry ncp { entry ncp with vpid := 0, dvpid := 0 }) :=
  fun _ => ⟨fun heq => heq ▸ Function.update_self .., fun hne => Function.update_of_ne hne ..⟩

theorem zeroLoop_spec {hash : Chains Nat Nat} {s : Lib.Slot Nat Nat} {rest : List Nat} {fuel : Nat} (entry : Nat → Entry)
    (h : hash.Chain s rest) (hfuel : rest.length ≤ fuel) :
    ∃ entry', Cache.zeroLoop hash fuel (hash.val s) entry = some entry' ∧ Zeroed (· ∈ rest) entry entry' := by
  induction rest generalizing s fuel entry with
  | nil =>
    have hnull : hash.val s = none := h
    rw [hnull, Cache.zeroLoop.eq_def]
    exact ⟨entry, rfl, fun a => ⟨fun hin => absurd hin List.not_mem_nil, fun _ => rfl⟩⟩
  | cons a rest ih =>
    obtain ⟨hfirst, -, hrest⟩ := h
    obtain ⟨fuel, rfl⟩ : ∃ n, fuel = n + 1 := Nat.exists_eq_add_of_le' (Nat.le_trans (Nat.le_add_left ..) hfuel)
    obtain ⟨entry', hloop, hzeroed⟩ := ih _ hrest (Nat.le_of_succ_le_succ hfuel)
    have hcons : (· ∈ a :: rest) = fun x => x = a ∨ x ∈ rest := funext fun x => propext List.mem_cons
    rw [hfirst, Cache.zeroLoop, hcons]
    exact ⟨entry', hloop, (zeroed_update entry a).trans hzeroed⟩

theorem Consistent.zero (h : Consistent conf c l chain) (bs : List Nat) (entry : Nat → Entry) :
    ∃ entry', bs.foldlM (fun entry b => Cache.zeroLoop c.hash c.numcache (c.hash.val (.head b)) entry) entry = some entry' ∧
      Zeroed (fun a => ∃ b ∈ bs, a ∈ chain b) entry entry' := by
  induction bs generalizing entry with
  | nil => exact ⟨entry, rfl, fun a => ⟨fun ⟨_, hb, _⟩ => absurd hb List.not_mem_nil, fun _ => rfl⟩⟩
  | cons b bs ih =>
    obtain ⟨entry₁, hloop, hzeroed⟩ := zeroLoop_spec entry (h.hash.links b) (h.length_le b)
    obtain ⟨entry₂, hrest, hzeroed'⟩ := ih entry₁
    have hcons : (fun x => ∃ b' ∈ b :: bs, x ∈ chain b') = fun x => x ∈ chain b ∨ ∃ b' ∈ bs, x ∈ chain b' :=
      funext fun x => propext (List.exists_mem_cons_iff ..)
    rw [List.foldlM_cons, hloop, hcons]
    exact ⟨entry₂, hrest, hzeroed.trans hzeroed'⟩

theorem Sound.purge (h : Sound conf c) (vp : Nat) : ∃ c', c.purge conf vp = some c' ∧ Sound conf c' ∧ (∀ a, c'.Hashed a ↔ c.Hashed a) ∧
    (c.nextvnodeid + 1 ≠ 0 ∧ c'.entry = c.entry ∧ c'.vid = Function.update c.vid vp (c.nextvnodeid + 1) ∨
      c.nextvnodeid + 1 = 0 ∧ (∀ a, c.Hashed a → c'.entry a = (c.entry a).zeroed) ∧ c'.vid = Function.update c.vid vp 1) := by
  obtain ⟨l, chain, h⟩ := h
  unfold Cache.purge
  dsimp only
  by_cases hnext : c.nextvnodeid + 1 = 0
  · obtain ⟨entry, hzero, hzeroed⟩ := h.zero (List.range (conf.nchash + 1)).reverse c.entry
    have hname : ∀ a, (entry a).name = (c.entry a).name := fun a => by
      by_cases ha : ∃ b ∈ (List.range (conf.nchash + 1)).reverse, a ∈ chain b
      · rw [(hzeroed a).1 ha]
        rfl
      · exact congrArg Entry.name ((hzeroed a).2 ha)
    rw [if_neg (not_not.2 hnext), hzero, hnext]
    refine ⟨_, rfl, ⟨l, chain, h.relabel hname⟩, fun a => Iff.rfl, .inr ⟨rfl, fun a ha => (hzeroed a).1 ?_, rfl⟩⟩
    refine ⟨_, List.mem_reverse.2 (List.mem_range.2 ?_), h.mem_bucket ha⟩
    exact Nat.lt_succ_of_le Nat.and_le_right
  · rw [if_pos hnext]
    exact ⟨_, rfl, ⟨l, chain, h.relabel fun _ => rfl⟩, fun a => Iff.rfl, .inl ⟨hnext, rfl, rfl⟩⟩

variable {mount : Nat → Nat} {mp : Nat}

def Cache.stays (c : Cache) (mount : Nat → Nat) (mp a : Nat) : Bool := (c.entry a).dvp.all fun dvp => mount dvp ≠ mp

def Cache.leaves (c : Cache) (mount : Nat → Nat) (mp a : Nat) : Bool := !c.stays mount mp a

def Cache.emptied (c : Cache) (ncp : Nat) : Cache :=
  { c with entry := Function.update c.entry ncp { c.entry ncp with vp := none, dvp := none } }

theorem emptied_entry_self : (c.emptied ncp).entry ncp = { c.entry ncp with vp := none, dvp := none } := Function.update_self ..

theorem emptied_entry_of_ne (h : a ≠ ncp) : (c.emptied ncp).entry a = c.entry a := Function.update_of_ne h ..

theorem stays_emptied_self (hentry : c'.entry = (c.emptied ncp).entry) : c'.stays mount mp ncp = true := by
  rw [Cache.stays, hentry, emptied_entry_self]
  rfl

theorem stays_emptied_of_ne (hentry : c'.entry = (c.emptied ncp).entry) (h : a ≠ ncp) : c'.stays mount mp a = c.stays mount mp a := by
  rw [Cache.stays, hentry, emptied_entry_of_ne h]
  rfl

theorem Consistent.free (h : Consistent conf c l chain) (hmem : ncp ∈ l) : ∃ c' chain' lru,
    (c.emptied ncp).unhashIfOn ncp = some c' ∧ c'.lru.remove ncp = some lru ∧ lru.chains.val (.head ()) = (l.erase ncp).head? ∧
      Consistent conf { c' with lru := lru.pushFront ncp } (ncp :: l.erase ncp) chain' ∧ Same c c' ∧
        c'.entry = (c.emptied ncp).entry ∧ ∀ a, c'.Hashed a ↔ c.Hashed a ∧ a ≠ ncp := by
  have hname : ∀ a, ((c.emptied ncp).entry a).name = (c.entry a).name := fun a => by
    by_cases ha : a = ncp
    · rw [ha, emptied_entry_self]
    · rw [emptied_entry_of_ne ha]
  have hemptied : Consistent conf (c.emptied ncp) l chain := h.relabel hname
  obtain ⟨c', chain', hunhash, hcons, heq, hhashed⟩ := hemptied.unhashIfOn ncp
  obtain ⟨lru, hremove, hholds⟩ := hcons.lru.remove hmem
  refine ⟨c', chain', lru, hunhash, hremove, hholds.chain.head?, ?_, ?_, ?_, hhashed⟩
  · exact hcons.reorder (hholds.pushFront h.lru.nodup.not_mem_erase) (List.perm_cons_erase hmem).symm
  · constructor <;> rw [heq] <;> rfl
  · rw [heq]

theorem purgeLoop_succ {fuel : Nat} : Cache.purgeLoop mount mp (fuel + 1) (some ncp) c =
    if c.stays mount mp ncp then Cache.purgeLoop mount mp fuel (c.lru.chains.val (.next ncp)) c
    else ((c.emptied ncp).unhashIfOn ncp).bind fun c => (c.lru.remove ncp).bind fun lru =>
      Cache.purgeLoop mount mp fuel (lru.chains.val (.head ())) { c with lru := lru.pushFront ncp } := rfl

structure Purged (conf : Config) (mount : Nat → Nat) (mp : Nat) (c c' : Cache) : Prop extends Same c c' where
  sound : Sound conf c'
  hashed : ∀ a, c'.Hashed a → c.Hashed a ∧ c'.entry a = c.entry a ∧ c.stays mount mp a = true

theorem purgeLoop_spec {pre rest : List Nat} (h : Consistent conf c (pre ++ rest) chain)
    (hpre : ∀ a ∈ pre, c.stays mount mp a = true) :
    ∃ fuel c', Cache.purgeLoop mount mp fuel rest.head? c = some c' ∧ Purged conf mount mp c c' := by
  -- each entry that is freed is one less of the file system; between two of them the rest of the chain gets shorter
  induction hn : (pre ++ rest).countP (c.leaves mount mp) using Nat.strongRecOn generalizing c chain pre rest with
  | ind n ihn =>
    subst hn
    induction rest generalizing pre with
    | nil =>
      refine ⟨0, c, rfl, ⟨rfl, rfl, rfl⟩, ⟨_, _, h⟩, fun a ha => ⟨ha, rfl, hpre a ?_⟩⟩
      exact List.append_nil pre ▸ (h.mem a).2 (h.lt_of_hashed ha)
    | cons a rest ih =>
      cases ha : c.stays mount mp a with
      | true =>
        have happend : pre ++ a :: rest = pre ++ [a] ++ rest := List.append_cons ..
        have hpre' : ∀ x ∈ pre ++ [a], c.stays mount mp x = true := fun x hx =>
          (List.mem_append.1 hx).elim (hpre x) fun hxa => List.mem_singleton.1 hxa ▸ ha
        obtain ⟨fuel, c', hloop, hpurged⟩ := ih (happend ▸ h) hpre' (happend ▸ ihn)
        refine ⟨fuel + 1, c', ?_, hpurged⟩
        rw [List.head?_cons, purgeLoop_succ, if_pos ha, h.lru.chain.next_of_append]
        exact hloop
      | false =>
        have hmem : a ∈ pre ++ a :: rest := List.mem_append_right _ List.mem_cons_self
        have hapre : a ∉ pre := fun hin => Bool.false_ne_true (ha.symm.trans (hpre a hin))
        have herase : (pre ++ a :: rest).erase a = pre ++ rest := by rw [List.erase_append_right _ hapre, List.erase_cons_head]
        obtain ⟨c₁, chain₁, lru, hunhash, hremove, hhead, hcons, hsame, hentry, hhashed⟩ := h.free hmem
        have hnot : a ∉ pre ++ rest := herase ▸ h.lru.nodup.not_mem_erase
        rw [herase] at hhead hcons
        generalize hc₂ : { c₁ with lru := lru.pushFront a } = c₂ at hcons
        have hentry₂ : c₂.entry = (c.emptied a).entry := hc₂ ▸ hentry
        have hself : c₂.stays mount mp a = true := stays_emptied_self hentry₂
        have hless : ([a] ++ (pre ++ rest)).countP (c₂.leaves mount mp) <
            (pre ++ a :: rest).countP (c.leaves mount mp) := by
          have hrest : ∀ x ∈ pre ++ rest, c₂.leaves mount mp x = true ↔ c.leaves mount mp x = true := fun x hx => by
            rw [Cache.leaves, stays_emptied_of_ne hentry₂ (ne_of_mem_of_not_mem hx hnot), Cache.leaves]
          have hneg : ¬c₂.leaves mount mp a = true := by rw [Cache.leaves, hself]; exact Bool.false_ne_true
          have hpos : c.leaves mount mp a = true := by rw [Cache.leaves, ha]; rfl
          rw [List.singleton_append, List.countP_cons_of_neg hneg, List.countP_congr hrest, List.countP_append, List.countP_append,
            List.countP_cons_of_pos hpos]
          exact Nat.lt_succ_self _
        obtain ⟨fuel, c', hloop, hpurged⟩ := ihn _ hless hcons (fun x hx => List.mem_singleton.1 hx ▸ hself) rfl
        have hhashed₂ : ∀ x, c₂.Hashed x ↔ c.Hashed x ∧ x ≠ a := hc₂ ▸ hhashed
        have hsame₂ : Same c c₂ := hc₂ ▸ ⟨hsame.1, hsame.2, hsame.3⟩
        refine ⟨fuel + 1, c', ?_, ⟨?_, ?_, ?_⟩, hpurged.sound, fun x hx => ?_⟩
        · rw [List.head?_cons, purgeLoop_succ, if_neg (Bool.eq_false_iff.1 ha), hunhash, Option.bind_some, hremove,
            Option.bind_some, hhead, hc₂]
          exact hloop
        · exact hpurged.numcache.trans hsame₂.numcache
        · exact hpurged.vid.trans hsame₂.vid
        · exact hpurged.nextvnodeid.trans hsame₂.nextvnodeid
        · obtain ⟨hx₂, hentry', hstays⟩ := hpurged.hashed x hx
          obtain ⟨hx, hne⟩ := (hhashed₂ x).1 hx₂
          rw [stays_emptied_of_ne hentry₂ hne] at hstays
          exact ⟨hx, hentry'.trans ((congrFun hentry₂ x).trans (emptied_entry_of_ne hne)), hstays⟩

theorem purgeLoop_add {fuel : Nat} {p : Option Nat} (h : Cache.purgeLoop mount mp fuel p c = some c') (k : Nat) :
    Cache.purgeLoop mount mp (fuel + k) p c = some c' := by
  induction fuel generalizing p c with
  | zero =>
    cases p with
    | none => rw [Cache.purgeLoop.eq_def] at h ⊢; exact h
    | some a => cases h
  | succ fuel ih =>
    cases p with
    | none => rw [Cache.purgeLoop.eq_def] at h ⊢; exact h
    | some a =>
      rw [Nat.succ_add]
      rw [purgeLoop_succ] at h ⊢
      split at h
      · rename_i hstays
        rw [if_pos hstays]
        exact ih h
      · rename_i hstays
        rw [if_neg hstays]
        obtain ⟨c₁, hunhash, h⟩ := Option.bind_eq_some_iff.1 h
        obtain ⟨lru, hremove, h⟩ := Option.bind_eq_some_iff.1 h
        rw [hunhash, Option.bind_some, hremove, Option.bind_some]
        exact ih h

theorem Sound.purgevfs (h : Sound conf c) (mount : Nat → Nat) (mp : Nat) :
    ∃ fuel c', c.purgevfs mount mp fuel = some c' ∧ Purged conf mount mp c c' := by
  obtain ⟨l, chain, h⟩ := h
  have hall : Consistent conf c ([] ++ l) chain := h
  obtain ⟨fuel, c', hloop, hpurged⟩ := purgeLoop_spec hall fun a ha => absurd ha List.not_mem_nil
  exact ⟨fuel, c', (congrArg (fun p => Cache.purgeLoop mount mp fuel p c) h.lru.chain.head?).trans hloop, hpurged⟩

theorem Purged.of_purgevfs {fuel : Nat} (h : Sound conf c) (hpurgevfs : c.purgevfs mount mp fuel = some c') :
    Purged conf mount mp c c' := by
  obtain ⟨fuel', c'', hloop, hpurged⟩ := h.purgevfs mount mp
  have heq : some c' = some c'' := by
    calc some c' = c.purgevfs mount mp (fuel + fuel') := (purgeLoop_add hpurgevfs fuel').symm
      _ = c.purgevfs mount mp (fuel' + fuel) := by rw [Nat.add_comm]
      _ = some c'' := purgeLoop_add hloop fuel
  exact Option.some.inj heq ▸ hpurged

end NetBSD.Namecache
