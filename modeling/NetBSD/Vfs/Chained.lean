import NetBSD.Vfs.Waiters
import Mathlib.Data.List.Nodup

/-!
# The chains of requests

A request that sleeps is on the chain of the lock that its `lf_next` points to and on no other, over runs of requests for the locks of
all files, when no lock that others wait for is merged into a larger one.
-/

namespace NetBSD.Vfs

open Function (update)
open NetBSD.Lib (Runs)

variable {f f' : File} {lock lf lf' block : Lockf} {id : Nat} {new : List Nat} {w : Walked} {s s' : Sleeper} {env : Env} {out : Outcome}
  {call : Call}

def Lockf.without (r : Nat) (lf : Lockf) : Lockf := { lf with lfBlock := lf.lfBlock.filter (· != r) }

def File.names (f : File) : List Nat := f.locks.map (·.addr) ++ (f.asleep.map (·.lock.addr) ++ f.splitting.map (·.1.addr))

structure File.Chained (f : File) : Prop where
  names_nodup : f.names.Nodup
  fresh : ∀ a ∈ f.names, a < f.next
  requests : ∀ s ∈ f.asleep, s.lock.lfBlock = [] ∧ s.lock.lfType ≠ .unlck
  splits : ∀ p ∈ f.splitting, p.1.lfBlock = []
  chains : ∀ lf ∈ f.locks, lf.lfBlock.Nodup
  waits : ∀ s ∈ f.asleep, ∀ a, s.lfNext = some a →
    ∃ lf ∈ f.locks, lf.addr = a ∧ s.lock.addr ∈ lf.lfBlock ∧ s.lock.toSpan.Conflicts lf.toSpan
  owned : ∀ lf ∈ f.locks, ∀ r ∈ lf.lfBlock, ∃ s ∈ f.asleep, s.lock.addr = r ∧ s.lfNext = some lf.addr

namespace File.Chained

theorem lock_unique (h : f.Chained) (hlf : lf ∈ f.locks) (hlf' : lf' ∈ f.locks) (haddr : lf.addr = lf'.addr) : lf = lf' :=
  List.inj_on_of_nodup_map (List.nodup_append.1 h.names_nodup).1 hlf hlf' haddr

theorem sleeper_unique (h : f.Chained) (hs : s ∈ f.asleep) (hs' : s' ∈ f.asleep) (haddr : s.lock.addr = s'.lock.addr) : s = s' :=
  List.inj_on_of_nodup_map (List.nodup_append.1 (List.nodup_append.1 h.names_nodup).2.1).1 hs hs' haddr

theorem mem_names (hs : s ∈ f.asleep) : s.lock.addr ∈ f.names :=
  List.mem_append_right _ (List.mem_append_left _ (List.mem_map_of_mem hs))

theorem block_unique (h : f.Chained) {r : Nat} (hlf : lf ∈ f.locks) (hr : r ∈ lf.lfBlock) (hlf' : lf' ∈ f.locks) (hr' : r ∈ lf'.lfBlock) :
    lf = lf' := by
  obtain ⟨s, hs, haddr, hnext⟩ := h.owned lf hlf r hr
  obtain ⟨s', hs', haddr', hnext'⟩ := h.owned lf' hlf' r hr'
  obtain rfl := h.sleeper_unique hs hs' (haddr.trans haddr'.symm)
  exact h.lock_unique hlf hlf' (Option.some.inj (hnext.symm.trans hnext'))

theorem not_mem_chain (h : f.Chained) {r : Nat} (hr : r ∉ f.names) (hlf : lf ∈ f.locks) : r ∉ lf.lfBlock := by
  intro hmem
  obtain ⟨s, hs, rfl, -⟩ := h.owned lf hlf r hmem
  exact hr (mem_names hs)

theorem flatMap_nodup (h : f.Chained) : (f.locks.flatMap (·.lfBlock)).Nodup := by
  refine List.nodup_flatMap.2 ⟨h.chains, ?_⟩
  have hlocks : f.locks.Nodup := List.Nodup.of_map _ (List.nodup_append.1 h.names_nodup).1
  refine List.Pairwise.imp_of_mem (fun {a b} ha hb hne => ?_) hlocks
  exact fun r hr hr' => hne (h.block_unique ha hr hb hr')

theorem walked (h : f.Chained) (hw : Worked id new f.locks w.locks w.woken) (hnew : new.Nodup)
    (hfresh : ∀ a ∈ new, a ∉ f.names ∧ a ≤ f.next) : (f.walked w).Chained ∧ ∀ a ∈ (f.walked w).names, a ∈ new ∨ a ∈ f.names := by
  have hdisjoint : ∀ lf ∈ w.locks, ∀ r ∈ lf.lfBlock, r ∉ w.woken := fun lf hlf r hr hwoken => by
    have hnodup := (hw.chains.nodup_iff).1 h.flatMap_nodup
    exact (List.nodup_append.1 hnodup).2.2 r (List.mem_flatMap.2 ⟨lf, hlf, hr⟩) r hwoken rfl
  have hasleep : (f.walked w).asleep.map (·.lock.addr) = f.asleep.map (·.lock.addr) := by
    show (f.asleep.map (Sleeper.wake w.woken)).map _ = _
    rw [List.map_map]
    exact List.map_congr_left fun s _ => congrArg Lockf.addr (Sleeper.wake_lock w.woken s)
  have hsub : List.Subperm (f.walked w).names (new ++ f.names) := by
    unfold File.names
    rw [hasleep, ← List.append_assoc new]
    exact (List.subperm_append_right _).2 hw.subperm
  have hmem : ∀ a ∈ (f.walked w).names, a ∈ new ∨ a ∈ f.names := fun a ha => List.mem_append.1 (hsub.subset ha)
  have hall : (new ++ f.names).Nodup := List.nodup_append.2 ⟨hnew, h.names_nodup, fun a ha b hb heq => (hfresh a ha).1 (heq ▸ hb)⟩
  refine ⟨⟨?_, fun a ha => ?_, fun s hs => ?_, h.splits, fun lf hlf => ?_, fun s hs a hnext => ?_, fun lf hlf r hr => ?_⟩, hmem⟩
  · obtain ⟨l, hperm, hl⟩ := hsub
    exact hperm.nodup_iff.1 (hall.sublist hl)
  · rcases hmem a ha with ha | ha
    · exact Nat.lt_succ_of_le (hfresh a ha).2
    · exact Nat.lt_succ_of_lt (h.fresh a ha)
  · obtain ⟨s, hmem, rfl⟩ := List.mem_map.1 hs
    rw [Sleeper.wake_lock]
    exact h.requests s hmem
  · by_cases hnil : lf.lfBlock = []
    · rw [hnil]
      exact List.nodup_nil
    · obtain ⟨lf₀, hlf₀, hkept⟩ := hw.before hlf hnil
      rw [hkept.lfBlock]
      exact h.chains lf₀ hlf₀
  · obtain ⟨s, hmem, rfl⟩ := List.mem_map.1 hs
    have hawake : s.lock.addr ∉ w.woken := fun hwoken => by
      rw [Sleeper.wake, if_pos hwoken] at hnext
      cases hnext
    rw [Sleeper.wake, if_neg hawake] at hnext ⊢
    obtain ⟨lf, hlf, haddr, hr, hconf⟩ := h.waits s hmem a hnext
    rcases hw.after hlf with ⟨lf', hlf', hkept⟩ | ⟨-, hwoken⟩
    · exact ⟨lf', hlf', hkept.addr.trans haddr, hkept.lfBlock ▸ hr, hkept.conflicts hconf⟩
    · exact absurd (hwoken _ hr) hawake
  · obtain ⟨lf₀, hlf₀, hkept⟩ := hw.before hlf (List.ne_nil_of_mem hr)
    obtain ⟨s, hs, rfl, hnext⟩ := h.owned lf₀ hlf₀ r (hkept.lfBlock ▸ hr)
    have hawake : s.wake w.woken = s := if_neg (hdisjoint lf hlf _ hr)
    exact ⟨s, List.mem_map.2 ⟨s, hs, hawake⟩, rfl, hkept.addr ▸ hnext⟩

theorem addblock_addr (b r : Nat) (lf : Lockf) : (lf.addblock b r).addr = lf.addr := by
  unfold Lockf.addblock
  split <;> rfl

def slept (f : File) (b : Nat) (lock : Lockf) : File :=
  { f with locks := f.locks.map (Lockf.addblock b lock.addr), asleep := f.asleep ++ [⟨lock, some b⟩] }

theorem names_slept (f : File) (b : Nat) (lock : Lockf) : List.Perm (slept f b lock).names (lock.addr :: f.names) := by
  have hnames : (slept f b lock).names =
      f.locks.map (·.addr) ++ (f.asleep.map (·.lock.addr) ++ lock.addr :: f.splitting.map (·.1.addr)) := by
    unfold File.names slept
    rw [List.map_map, List.map_append, List.append_assoc]
    exact congrArg (· ++ _) (List.map_congr_left fun lf _ => addblock_addr b lock.addr lf)
  rw [hnames]
  exact (List.perm_middle.append_left _).trans List.perm_middle

theorem sleep (h : f.Chained) (hname : lock.addr ∉ f.names) (hlt : lock.addr < f.next) (hblock : lock.lfBlock = [])
    (htype : lock.lfType ≠ .unlck) (hmem : block ∈ f.locks) (hconf : lock.toSpan.Conflicts block.toSpan) :
    (slept f block.addr lock).Chained := by
  have hother : ∀ lf : Lockf, lf.addr ≠ block.addr → lf.addblock block.addr lock.addr = lf := fun lf hne => if_neg hne
  have hself : (block.addblock block.addr lock.addr).lfBlock = block.lfBlock ++ [lock.addr] := by
    rw [Lockf.addblock, if_pos rfl]
  have hmore : ∀ lf : Lockf, ∀ r ∈ lf.lfBlock, r ∈ (lf.addblock block.addr lock.addr).lfBlock := fun lf r hr => by
    unfold Lockf.addblock
    split
    · exact List.mem_append_left _ hr
    · exact hr
  have hperm := names_slept f block.addr lock
  refine ⟨?_, fun a ha => ?_, fun s hs => ?_, h.splits, fun lf hmem' => ?_, fun s hs a hnext => ?_, fun lf hmem' r hr => ?_⟩
  · rw [hperm.nodup_iff]
    exact List.nodup_cons.2 ⟨hname, h.names_nodup⟩
  · rcases List.mem_cons.1 (hperm.mem_iff.1 ha) with rfl | ha
    · exact hlt
    · exact h.fresh a ha
  · rcases List.mem_append.1 hs with hs | hs
    · exact h.requests s hs
    · obtain rfl := List.mem_singleton.1 hs
      exact ⟨hblock, htype⟩
  · obtain ⟨lf, hlf, rfl⟩ := List.mem_map.1 hmem'
    by_cases heq : lf.addr = block.addr
    · obtain rfl := h.lock_unique hlf hmem heq
      rw [hself]
      refine List.nodup_append.2 ⟨h.chains lf hlf, List.nodup_singleton _, fun a ha b hb heq => ?_⟩
      obtain rfl := List.mem_singleton.1 hb
      exact h.not_mem_chain hname hlf (heq ▸ ha)
    · rw [hother lf heq]
      exact h.chains lf hlf
  · rcases List.mem_append.1 hs with hs | hs
    · obtain ⟨lf, hlf, haddr', hr, hc⟩ := h.waits s hs a hnext
      refine ⟨_, List.mem_map_of_mem hlf, (addblock_addr _ _ lf).trans haddr', hmore lf _ hr, ?_⟩
      rw [Lockf.addblock_toSpan]
      exact hc
    · obtain rfl := List.mem_singleton.1 hs
      refine ⟨_, List.mem_map_of_mem hmem, (addblock_addr _ _ block).trans (Option.some.inj hnext), ?_, ?_⟩
      · rw [hself]
        exact List.mem_append_right _ (List.mem_singleton.2 rfl)
      · rw [Lockf.addblock_toSpan]
        exact hconf
  · obtain ⟨lf, hlf, rfl⟩ := List.mem_map.1 hmem'
    rw [addblock_addr]
    have hold : r ∈ lf.lfBlock → ∃ s ∈ f.asleep ++ [⟨lock, some block.addr⟩], s.lock.addr = r ∧ s.lfNext = some lf.addr := fun hr => by
      obtain ⟨s, hs, hsr⟩ := h.owned lf hlf r hr
      exact ⟨s, List.mem_append_left _ hs, hsr⟩
    by_cases heq : lf.addr = block.addr
    · obtain rfl := h.lock_unique hlf hmem heq
      rw [hself] at hr
      rcases List.mem_append.1 hr with hr | hr
      · exact hold hr
      · obtain rfl := List.mem_singleton.1 hr
        exact ⟨_, List.mem_append_right _ (List.mem_singleton.2 rfl), rfl, rfl⟩
    · rw [hother lf heq] at hr
      exact hold hr

theorem names_erase (hs : s ∈ f.asleep) : List.Perm f.names (s.lock.addr :: File.names { f with asleep := f.asleep.erase s }) := by
  have hperm : List.Perm (f.asleep.map (·.lock.addr)) (s.lock.addr :: (f.asleep.erase s).map (·.lock.addr)) :=
    (List.perm_cons_erase hs).map (·.lock.addr)
  exact ((hperm.append_right _).append_left _).trans List.perm_middle

theorem mem_erase (hs' : s' ∈ f.asleep) (hne : s'.lock.addr ≠ s.lock.addr) :
    s' ∈ f.asleep.erase s :=
  (List.mem_erase_of_ne fun heq => hne (congrArg (fun x : Sleeper => x.lock.addr) heq)).2 hs'

theorem names_splitting (f : File) (lock : Lockf) (b : Nat) :
    List.Perm (File.names { f with splitting := f.splitting ++ [(lock, b)] }) (lock.addr :: f.names) := by
  unfold File.names
  rw [List.map_append, ← List.append_assoc, ← List.append_assoc]
  exact (List.perm_append_singleton ..).trans (List.Perm.of_eq (by rw [List.append_assoc]))

theorem splitting (h : f.Chained) (hname : lock.addr ∉ f.names) (hlt : lock.addr < f.next) (hblock : lock.lfBlock = []) (b : Nat) :
    File.Chained { f with splitting := f.splitting ++ [(lock, b)] } := by
  have hperm := names_splitting f lock b
  refine ⟨hperm.nodup_iff.2 (List.nodup_cons.2 ⟨hname, h.names_nodup⟩), fun a ha => ?_, h.requests, fun p hp => ?_, h.chains, h.waits,
    h.owned⟩
  · rcases List.mem_cons.1 (hperm.mem_iff.1 ha) with rfl | ha
    · exact hlt
    · exact h.fresh a ha
  · rcases List.mem_append.1 hp with hp | hp
    · exact h.splits p hp
    · obtain rfl := List.mem_singleton.1 hp
      exact hblock

theorem names_resumed {p : Lockf × Nat} (hp : p ∈ f.splitting) :
    List.Perm f.names (p.1.addr :: File.names { f with splitting := f.splitting.erase p }) := by
  have hperm : List.Perm (f.splitting.map (·.1.addr)) (p.1.addr :: (f.splitting.erase p).map (·.1.addr)) :=
    (List.perm_cons_erase hp).map (·.1.addr)
  exact ((hperm.append_left _).trans List.perm_middle |>.append_left _).trans List.perm_middle

theorem resumed (h : f.Chained) {p : Lockf × Nat} (hp : p ∈ f.splitting) :
    File.Chained { f with splitting := f.splitting.erase p } ∧ p.1.addr ∉ File.names { f with splitting := f.splitting.erase p } := by
  have hnodup := (names_resumed hp).nodup_iff.1 h.names_nodup
  refine ⟨⟨(List.nodup_cons.1 hnodup).2, fun a ha => ?_, h.requests, fun x hx => h.splits x (List.mem_of_mem_erase hx), h.chains, h.waits,
    h.owned⟩, (List.nodup_cons.1 hnodup).1⟩
  exact h.fresh a ((names_resumed hp).mem_iff.2 (List.mem_cons_of_mem _ ha))

theorem awake (h : f.Chained) (hs : s ∈ f.asleep) (hnone : s.lfNext = none) :
    File.Chained { f with asleep := f.asleep.erase s } ∧ s.lock.addr ∉ File.names { f with asleep := f.asleep.erase s } := by
  have hnodup := (names_erase hs).nodup_iff.1 h.names_nodup
  refine ⟨⟨(List.nodup_cons.1 hnodup).2, fun a ha => ?_, fun x hx => h.requests x (List.mem_of_mem_erase hx), h.splits, h.chains,
    fun x hx => h.waits x (List.mem_of_mem_erase hx), fun lf hlf r hr => ?_⟩, (List.nodup_cons.1 hnodup).1⟩
  · exact h.fresh a ((names_erase hs).mem_iff.2 (List.mem_cons_of_mem _ ha))
  · obtain ⟨x, hx, haddr, hnext⟩ := h.owned lf hlf r hr
    refine ⟨x, mem_erase hx fun heq => ?_, haddr, hnext⟩
    rw [h.sleeper_unique hx hs heq, hnone] at hnext
    cases hnext

theorem exists_lockAt (h : f.Chained) (hs : s ∈ f.asleep) {a : Nat} (hnext : s.lfNext = some a) :
    ∃ lf ∈ f.locks, f.lockAt a = some lf ∧ lf.addr = a ∧ s.lock.addr ∈ lf.lfBlock := by
  obtain ⟨lf, hlf, haddr, hr, -⟩ := h.waits s hs a hnext
  have hsome : (f.lockAt a).isSome = true := List.find?_isSome.2 ⟨lf, hlf, decide_eq_true haddr⟩
  obtain ⟨x, hx⟩ := Option.isSome_iff_exists.1 hsome
  have hxa : x.addr = a := of_decide_eq_true (List.find?_some (p := fun lf : Lockf => decide (lf.addr = a)) hx)
  obtain rfl := h.lock_unique (List.mem_of_find?_eq_some hx) hlf (hxa.trans haddr.symm)
  exact ⟨x, hlf, hx, haddr, hr⟩

theorem unchain_eq (h : f.Chained) (hlf : lf ∈ f.locks) (hr : s.lock.addr ∈ lf.lfBlock) :
    f.locks.map (Lockf.unchain lf.addr s.lock.addr) = f.locks.map (Lockf.without s.lock.addr) := by
  refine List.map_congr_left fun x hx => ?_
  unfold Lockf.unchain Lockf.without
  split
  · rw [(h.chains x hx).erase_eq_filter]
  · next hne =>
    have hnot : s.lock.addr ∉ x.lfBlock := fun hmem => hne (congrArg Lockf.addr (h.block_unique hx hmem hlf hr))
    have hsame : x.lfBlock.filter (· != s.lock.addr) = x.lfBlock :=
      List.filter_eq_self.2 fun r hr => bne_iff_ne.2 fun heq => hnot (heq ▸ hr)
    rw [hsame]

theorem names_unchained (hs : s ∈ f.asleep) : List.Perm f.names (s.lock.addr ::
    File.names { f with locks := f.locks.map (Lockf.without s.lock.addr), asleep := f.asleep.erase s }) := by
  refine (names_erase hs).trans (List.Perm.of_eq ?_)
  unfold File.names
  rw [List.map_map]
  rfl

theorem unchained (h : f.Chained) (hs : s ∈ f.asleep) :
    File.Chained { f with locks := f.locks.map (Lockf.without s.lock.addr), asleep := f.asleep.erase s } := by
  have hnames := names_unchained hs
  have hnodup := hnames.nodup_iff.1 h.names_nodup
  refine ⟨(List.nodup_cons.1 hnodup).2, fun a ha => ?_, fun x hx => h.requests x (List.mem_of_mem_erase hx), h.splits,
    fun lf hmem => ?_, fun x hx a hnext => ?_, fun lf hmem r hr => ?_⟩
  · exact h.fresh a (hnames.mem_iff.2 (List.mem_cons_of_mem _ ha))
  · obtain ⟨lf, hlf, rfl⟩ := List.mem_map.1 hmem
    exact (h.chains lf hlf).sublist List.filter_sublist
  · have hx' := List.mem_of_mem_erase hx
    obtain ⟨lf, hlf, haddr, hr, hconf⟩ := h.waits x hx' a hnext
    have hne : x.lock.addr ≠ s.lock.addr := fun heq => by
      have hsleepers : f.asleep.Nodup :=
        List.Nodup.of_map _ (List.nodup_append.1 (List.nodup_append.1 h.names_nodup).2.1).1
      rw [h.sleeper_unique hx' hs heq] at hx
      exact hsleepers.not_mem_erase hx
    exact ⟨_, List.mem_map_of_mem hlf, haddr, List.mem_filter.2 ⟨hr, bne_iff_ne.2 hne⟩, hconf⟩
  · obtain ⟨lf, hlf, rfl⟩ := List.mem_map.1 hmem
    obtain ⟨hr, hne⟩ := List.mem_filter.1 hr
    obtain ⟨x, hx, haddr, hnext⟩ := h.owned lf hlf r hr
    exact ⟨x, mem_erase hx fun heq => bne_iff_ne.1 hne (haddr.symm.trans heq), haddr, hnext⟩

end File.Chained

structure Grows (f f' : File) : Prop where
  chained : f'.Chained
  names : ∀ a ∈ f'.names, a ∈ f.names ∨ f.next ≤ a
  next : f.next ≤ f'.next

theorem nodup_of_sublist_pair {a b : Nat} (hne : a ≠ b) (h : new.Sublist [a, b]) : new.Nodup :=
  List.Nodup.sublist h (by simpa using hne)

theorem lfClearlock_chained {unlock : Span} (h : f.Chained) (hclear : lfClearlock unlock f = some f') :
    Grows f f' ∧ ∀ lf ∈ f.locks, lf.lfId ≠ unlock.lfId → ∃ lf' ∈ f'.locks, Kept lf lf' := by
  obtain ⟨w, hw, rfl⟩ := Option.map_eq_some_iff.1 hclear
  obtain ⟨new, hnew, hworked⟩ := clearLoop_worked hw
  have hfresh : ∀ a ∈ new, a = f.next := fun a ha => List.mem_singleton.1 (hnew.subset ha)
  obtain ⟨hchained, hnames⟩ := h.walked hworked ((List.nodup_singleton _).sublist hnew) fun a ha =>
    ⟨fun hmem => Nat.ne_of_lt (h.fresh a hmem) (hfresh a ha), Nat.le_of_eq (hfresh a ha)⟩
  refine ⟨⟨hchained, fun a ha => ?_, Nat.le_succ _⟩, fun lf hlf hid => ?_⟩
  · exact (hnames a ha).symm.imp_right fun ha => Nat.le_of_eq (hfresh a ha).symm
  · exact (hworked.after hlf).resolve_right fun hown => hid hown.1

def Lockf.Keeps (lock : Lockf) (f : File) : Prop :=
  lfGetblock lock.toSpan (f.locks.length + 1) f.locks = none → ¬lock.Merges f.locks

theorem lfSetlock_chained (h : f.Chained) (hname : lock.addr ∉ f.names) (hlt : lock.addr < f.next) (hblock : lock.lfBlock = [])
    (htype : lock.lfType ≠ .unlck) (hkeeps : lock.Keeps f) (hset : lfSetlock env lock f = some (out, f')) :
    f'.Chained ∧ (∀ a ∈ f'.names, a ∈ f.names ∨ a = lock.addr ∨ f.next ≤ a) ∧ f.next ≤ f'.next := by
  have hsame : f.Chained ∧ (∀ a ∈ f.names, a ∈ f.names ∨ a = lock.addr ∨ f.next ≤ a) ∧ f.next ≤ f.next :=
    ⟨h, fun _ ha => .inl ha, Nat.le_refl _⟩
  unfold lfSetlock at hset
  cases hget : lfGetblock lock.toSpan (f.locks.length + 1) f.locks with
  | none =>
    rw [hget] at hset
    have hgranted : ∀ w, setLoop f.next (f.locks.length + 1) lock f.locks = some w →
        (f.walked w).Chained ∧ (∀ a ∈ (f.walked w).names, a ∈ f.names ∨ a = lock.addr ∨ f.next ≤ a) ∧ f.next ≤ (f.walked w).next := by
      intro w hw
      obtain ⟨new, hnew, hworked⟩ := setLoop_worked hblock htype (hkeeps hget) hw
      have hpair : ∀ a ∈ new, a = lock.addr ∨ a = f.next := fun a ha => by simpa using hnew.subset ha
      obtain ⟨hchained, hnames⟩ := h.walked hworked (nodup_of_sublist_pair (Nat.ne_of_lt hlt) hnew) fun a ha => by
        rcases hpair a ha with rfl | rfl
        · exact ⟨hname, Nat.le_of_lt hlt⟩
        · exact ⟨fun hmem => Nat.lt_irrefl _ (h.fresh _ hmem), Nat.le_refl _⟩
      refine ⟨hchained, fun a ha => ?_, Nat.le_succ _⟩
      rcases hnames a ha with ha | ha
      · exact .inr ((hpair a ha).imp_right fun heq => Nat.le_of_eq heq.symm)
      · exact .inl ha
    dsimp only at hset
    split at hset
    · next overlap _ _ =>
      cases hset
      refine ⟨h.splitting hname hlt hblock _, fun a ha => ?_, Nat.le_refl _⟩
      rcases List.mem_cons.1 ((File.Chained.names_splitting f lock _).mem_iff.1 ha) with rfl | ha
      · exact .inr (.inl rfl)
      · exact .inl ha
    · obtain ⟨w, hw, heq⟩ := Option.map_eq_some_iff.1 hset
      cases heq
      exact hgranted w hw
  | some block =>
    obtain ⟨hmem, hconf⟩ := lfGetblock_conflicts hget
    rw [hget] at hset
    dsimp only at hset
    split at hset
    · cases hset
      exact hsame
    split at hset
    · cases hset
      exact hsame
    have hcleared : ∃ f₁ : File, (f₁.Chained ∧ (∀ a ∈ f₁.names, a ∈ f.names ∨ f.next ≤ a) ∧ f.next ≤ f₁.next ∧
        ∃ block' ∈ f₁.locks, Kept block block') ∧ File.Chained.slept f₁ block.addr lock = f' := by
      split at hset
      · obtain ⟨f₁, hf₁, hset⟩ := Option.bind_eq_some_iff.1 hset
        cases hset
        obtain ⟨hgrows, hothers⟩ := lfClearlock_chained h hf₁
        exact ⟨f₁, ⟨hgrows.chained, hgrows.names, hgrows.next, hothers block hmem hconf.1⟩, rfl⟩
      · cases hset
        exact ⟨f, ⟨h, fun _ ha => .inl ha, Nat.le_refl _, block, hmem, .refl block⟩, rfl⟩
    obtain ⟨f₁, ⟨h₁, hnames, hnext, block', hmem', hkept⟩, rfl⟩ := hcleared
    have hname₁ : lock.addr ∉ f₁.names := fun ha => (hnames _ ha).elim hname fun hle => absurd hlt (Nat.not_lt.2 hle)
    have hsleep := h₁.sleep hname₁ (Nat.lt_of_lt_of_le hlt hnext) hblock htype hmem' (hkept.conflicts hconf)
    rw [hkept.addr] at hsleep
    refine ⟨hsleep, fun a ha => ?_, hnext⟩
    rcases List.mem_cons.1 ((File.Chained.names_slept f₁ block.addr lock).mem_iff.1 ha) with rfl | ha
    · exact .inr (.inl rfl)
    · exact (hnames a ha).imp_right .inr

theorem resumeSplit_chained {overlap : Nat} (h : f.Chained) (hname : lock.addr ∉ f.names) (hlt : lock.addr < f.next)
    (hblock : lock.lfBlock = []) (hresume : resumeSplit lock overlap f = some (out, f')) :
    f'.Chained ∧ (∀ a ∈ f'.names, a ∈ f.names ∨ a = lock.addr ∨ f.next ≤ a) ∧ f.next ≤ f'.next := by
  unfold resumeSplit at hresume
  split at hresume
  · cases hresume
  · next lf hfind =>
    cases hresume
    have hlf := List.mem_of_find?_eq_some hfind
    have haddr : lf.addr = overlap := of_decide_eq_true (List.find?_some (p := fun lf : Lockf => decide (lf.addr = overlap)) hfind)
    obtain ⟨pre, post, hlist⟩ := List.append_of_mem hlf
    have hothers : ∀ l : List Lockf, (∀ x ∈ l, x ∈ f.locks ∧ x ≠ lf) → ∀ pieces : List Lockf,
        l.flatMap (fun x => if x.addr = overlap then pieces else [x]) = l := fun l hl pieces => by
      refine (List.flatMap_congr fun x hx => if_neg fun heq => (hl x hx).2 ?_).trans (List.flatMap_singleton' l)
      exact h.lock_unique (hl x hx).1 hlf (heq.trans haddr.symm)
    have hnodup : (pre ++ lf :: post).Nodup := hlist ▸ List.Nodup.of_map _ (List.nodup_append.1 h.names_nodup).1
    have hpre : ∀ x ∈ pre, x ∈ f.locks ∧ x ≠ lf := fun x hx =>
      ⟨hlist ▸ List.mem_append_left _ hx, (List.nodup_append.1 hnodup).2.2 x hx lf List.mem_cons_self⟩
    have hpost : ∀ x ∈ post, x ∈ f.locks ∧ x ≠ lf := fun x hx =>
      ⟨hlist ▸ List.mem_append_right _ (List.mem_cons_of_mem _ hx), fun heq =>
        (List.nodup_cons.1 (List.nodup_append.1 hnodup).2.1).1 (heq ▸ hx)⟩
    obtain ⟨new, hnew, hworked⟩ := Worked.split lock.toSpan (rfl : lf.lfId = lf.lfId) [lock]
      (fun l hl => List.mem_singleton.1 hl ▸ hblock) f.next post
    have hworked := hworked.append_left pre
    rw [← hlist, List.append_nil] at hworked
    have hpair : ∀ a ∈ new, a = lock.addr ∨ a = f.next := fun a ha => by simpa using hnew.subset ha
    have hspec := h.walked (w := ⟨_, lf.lfBlock⟩) hworked (nodup_of_sublist_pair (Nat.ne_of_lt hlt) hnew) fun a ha => by
      rcases hpair a ha with rfl | rfl
      · exact ⟨hname, Nat.le_of_lt hlt⟩
      · exact ⟨fun hmem => Nat.lt_irrefl _ (h.fresh _ hmem), Nat.le_refl _⟩
    rw [hlist, List.flatMap_append, List.flatMap_cons, hothers pre hpre, hothers post hpost, if_pos haddr, List.append_assoc]
    refine ⟨hspec.1, fun a ha => ?_, Nat.le_succ _⟩
    rcases hspec.2 a ha with ha | ha
    · exact .inr ((hpair a ha).imp_right fun heq => Nat.le_of_eq heq.symm)
    · exact .inl ha

def Call.Keeps (f : File) : Call → Prop
  | .set request flags _ =>
    request.lfType ≠ .unlck ∧ Lockf.Keeps { request with addr := f.next, lfFlags := flags } f
  | .run addr _ => ∀ s, f.runnable addr = some s → s.lock.Keeps f
  | _ => True

theorem interrupted_chained (h : f.Chained) (hs : s ∈ f.asleep) :
    interrupted s { f with asleep := f.asleep.erase s } =
      some { f with locks := f.locks.map (Lockf.without s.lock.addr), asleep := f.asleep.erase s } := by
  unfold interrupted
  cases hnext : s.lfNext with
  | none =>
    have hsame : f.locks.map (Lockf.without s.lock.addr) = f.locks := by
      refine (List.map_congr_left fun lf hlf => ?_).trans (List.map_id _)
      have hnot : s.lock.addr ∉ lf.lfBlock := fun hr => by
        obtain ⟨x, hx, haddr, hxnext⟩ := h.owned lf hlf _ hr
        rw [h.sleeper_unique hx hs haddr, hnext] at hxnext
        cases hxnext
      have hchain : lf.lfBlock.filter (· != s.lock.addr) = lf.lfBlock :=
        List.filter_eq_self.2 fun r hr => bne_iff_ne.2 fun heq => hnot (heq ▸ hr)
      rw [Lockf.without, hchain]
      rfl
    rw [hsame]
  | some a =>
    obtain ⟨lf, hlf, hat, rfl, hr⟩ := h.exists_lockAt hs hnext
    have hat' : File.lockAt { f with asleep := f.asleep.erase s } lf.addr = some lf := hat
    dsimp only
    rw [hat']
    dsimp only
    rw [if_pos hr, h.unchain_eq hlf hr]

theorem File.Chained.step (h : f.Chained) (hkeeps : call.Keeps f) (hstep : f.step call = some (out, f')) : Grows f f' := by
  cases call with
  | set request flags env =>
    have hlater : File.Chained { f with next := f.next + 1 } :=
      ⟨h.names_nodup, fun a ha => Nat.lt_succ_of_lt (h.fresh a ha), h.requests, h.splits, h.chains, h.waits, h.owned⟩
    have hfresh : f.next ∉ f.names := fun hmem => Nat.lt_irrefl _ (h.fresh _ hmem)
    obtain ⟨hchained, hnames, hnext⟩ := lfSetlock_chained hlater hfresh (Nat.lt_succ_self _) rfl hkeeps.1 hkeeps.2 hstep
    refine ⟨hchained, fun a ha => (hnames a ha).imp_right fun ha => ?_, Nat.le_of_succ_le hnext⟩
    exact ha.elim (fun heq => Nat.le_of_eq heq.symm) Nat.le_of_succ_le
  | clear request =>
    obtain ⟨f₁, hf₁, heq⟩ := Option.map_eq_some_iff.1 hstep
    cases heq
    exact (lfClearlock_chained h hf₁).1
  | run addr env =>
    unfold File.step at hstep
    dsimp only at hstep
    split at hstep
    · cases hstep
      exact ⟨h, fun _ ha => .inl ha, Nat.le_refl _⟩
    · next s hs =>
      have hmem := List.mem_of_find?_eq_some hs
      have hwoken := of_decide_eq_true (List.find?_some (p := fun s : Sleeper => decide (s.lock.addr = addr ∧ s.lfNext = none)) hs)
      obtain ⟨hawake, hname⟩ := h.awake hmem hwoken.2
      have hnamed := File.Chained.mem_names hmem
      obtain ⟨hchained, hnames, hnext⟩ := lfSetlock_chained hawake hname (h.fresh _ hnamed) (h.requests s hmem).1 (h.requests s hmem).2
        (hkeeps s hs) hstep
      refine ⟨hchained, fun a ha => ?_, hnext⟩
      rcases hnames a ha with ha | rfl | ha
      · exact .inl ((File.Chained.names_erase hmem).mem_iff.2 (List.mem_cons_of_mem _ ha))
      · exact .inl hnamed
      · exact .inr ha
  | interrupt addr =>
    unfold File.step at hstep
    dsimp only at hstep
    split at hstep
    · cases hstep
      exact ⟨h, fun _ ha => .inl ha, Nat.le_refl _⟩
    · next s hs =>
      have hmem := List.mem_of_find?_eq_some hs
      rw [interrupted_chained h hmem] at hstep
      cases hstep
      refine ⟨h.unchained hmem, fun a ha => .inl ?_, Nat.le_refl _⟩
      exact (File.Chained.names_unchained hmem).mem_iff.2 (List.mem_cons_of_mem _ ha)
  | resume addr =>
    unfold File.step at hstep
    dsimp only at hstep
    split at hstep
    · cases hstep
      exact ⟨h, fun _ ha => .inl ha, Nat.le_refl _⟩
    · next p hp =>
      have hmem := List.mem_of_find?_eq_some hp
      obtain ⟨hresumed, hname⟩ := h.resumed hmem
      have hnamed : p.1.addr ∈ f.names :=
        List.mem_append_right _ (List.mem_append_right _ (List.mem_map_of_mem hmem))
      obtain ⟨hchained, hnames, hnext⟩ := resumeSplit_chained hresumed hname (h.fresh _ hnamed) (h.splits p hmem) hstep
      refine ⟨hchained, fun a ha => ?_, hnext⟩
      rcases hnames a ha with ha | rfl | ha
      · exact .inl ((File.Chained.names_resumed hmem).mem_iff.2 (List.mem_cons_of_mem _ ha))
      · exact .inl hnamed
      · exact .inr ha

structure World where
  files : Nat → File
  next : Nat

def World.start : World := ⟨fun _ => {}, 0⟩

def World.step (w : World) (i : Nat) (call : Call) : Option (Outcome × World) :=
  (File.step { w.files i with next := w.next } call).map fun r => (r.1, ⟨update w.files i r.2, r.2.next⟩)

def World.after (w : World) (c : Nat × Call) : Option World := (w.step c.1 c.2).map Prod.snd

/-- Each request that sleeps is once on the chain of the lock that its `lf_next` points to, which is in its way, and on no other; a wakeup
clears `lf_next`. -/
def World.Waiting (w : World) : Prop :=
  ∀ i, ∀ s ∈ (w.files i).asleep, ∀ a, s.lfNext = some a →
    ∃ block ∈ (w.files i).locks, block.addr = a ∧ s.lock.toSpan.Conflicts block.toSpan ∧ block.lfBlock.count s.lock.addr = 1 ∧
      ∀ j, ∀ lf ∈ (w.files j).locks, s.lock.addr ∈ lf.lfBlock → j = i ∧ lf = block

def KeepingRun : World → Prop := Runs (fun w => w = .start) World.after fun w c => c.2.Keeps { w.files c.1 with next := w.next }

structure World.Chained (w : World) : Prop where
  file : ∀ i, File.Chained { w.files i with next := w.next }
  apart : ∀ i j, i ≠ j → ∀ a ∈ (w.files i).names, a ∉ (w.files j).names

theorem World.Chained.after {w w' : World} {c : Nat × Call} (h : w.Chained) (hkeeps : c.2.Keeps { w.files c.1 with next := w.next })
    (hafter : w.after c = some w') : w'.Chained := by
  obtain ⟨⟨out, w''⟩, hstep, rfl⟩ := Option.map_eq_some_iff.1 hafter
  obtain ⟨⟨out', f'⟩, hfile, heq⟩ := Option.map_eq_some_iff.1 hstep
  cases heq
  obtain ⟨hchained, hnames, hnext⟩ := (h.file c.1).step hkeeps hfile
  have hother : ∀ j, j ≠ c.1 → update w.files c.1 f' j = w.files j := fun j hj => Function.update_of_ne hj ..
  have hself : update w.files c.1 f' c.1 = f' := Function.update_self ..
  -- what is new in one file is not in use in another
  have hapart : ∀ j, j ≠ c.1 → ∀ a ∈ f'.names, a ∉ (w.files j).names := fun j hj a ha hmem => by
    rcases hnames a ha with ha | ha
    · exact h.apart c.1 j hj.symm a ha hmem
    · exact absurd ((h.file j).fresh a hmem) (Nat.not_lt.2 ha)
  constructor
  · intro i
    dsimp only
    by_cases hi : i = c.1
    · rw [hi, hself]
      exact hchained
    · rw [hother i hi]
      have hi := h.file i
      exact ⟨hi.names_nodup, fun a ha => Nat.lt_of_lt_of_le (hi.fresh a ha) hnext, hi.requests, hi.splits, hi.chains, hi.waits, hi.owned⟩
  · intro i j hij a ha
    dsimp only at ha ⊢
    by_cases hi : i = c.1
    · rw [hi, hself] at ha
      rw [hother j fun hj => hij (hi.trans hj.symm)]
      exact hapart j (fun hj => hij (hi.trans hj.symm)) a ha
    · rw [hother i hi] at ha
      by_cases hj : j = c.1
      · rw [hj, hself]
        exact fun hmem => hapart i hi a hmem ha
      · rw [hother j hj]
        exact h.apart i j hij a ha

theorem KeepingRun.chained {w : World} (h : KeepingRun w) : w.Chained := by
  refine h.invariant ?_ fun w c w' hw hkeeps hafter => hw.after hkeeps hafter
  rintro _ rfl
  refine ⟨fun i => ⟨List.nodup_nil, ?_, ?_, ?_, ?_, ?_, ?_⟩, fun i j _ a ha => ?_⟩
  all_goals simp [World.start, File.names] at *

theorem World.Chained.waiting {w : World} (h : w.Chained) : w.Waiting := by
  intro i s hs a hnext
  obtain ⟨block, hblock, haddr, hr, hconf⟩ := (h.file i).waits s hs a hnext
  refine ⟨block, hblock, haddr, hconf, List.count_eq_one_of_mem ((h.file i).chains block hblock) hr, fun j lf hlf hmem => ?_⟩
  by_cases hj : j = i
  · subst hj
    exact ⟨rfl, (h.file j).block_unique hlf hmem hblock hr⟩
  · obtain ⟨s', hs', heq, -⟩ := (h.file j).owned lf hlf _ hmem
    have hname : s.lock.addr ∈ (w.files j).names := heq ▸ File.Chained.mem_names hs'
    exact absurd hname (h.apart i j (fun heq => hj heq.symm) _ (File.Chained.mem_names hs))

end NetBSD.Vfs
