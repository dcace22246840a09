import OS2021.Fs.Accounting
import OS2021.Fs.Holders

/-! Group commit: what is home when, over every interleaving of operations.

An operation acquires blocks, changes and syncs those it holds, and releases them before
it ends. The operations of a group end at different times; the last one commits for all
of them, and only then do the others return. `updates` has what blocks were synced with,
in order. At every moment each home block holds what some first part of it makes of the
block: no update of an operation that still runs is in that part, and every update of an
operation that has returned is. This needs that a block which is held is not evicted. -/
namespace OS2021.Fs
open Lib Function

/-! ### Operations that hold blocks -/

structure Group where
  s : Protocol
  /-- The blocks that `cache_acquire` has returned, and to whom. -/
  held : List (Nat × Ptr)

inductive GroupCall where
  /-- `begin_op`, `end_op` and the steps of the commit. -/
  | log (e : Event)
  | acquire (c : Nat) (b : UInt64)
  /-- `cache_sync` of a block to which its holder has written `d`. -/
  | sync (c : Nat) (p : Ptr) (d : BlockData)
  | release (c : Nat) (p : Ptr)

/-- The steps of the log's protocol that do not go through the cache. -/
def Event.OfLog : Event → Prop
  | .beginOp _ | .endOp _ | .commit | .leave _ => True
  | .sync .. | .update .. | .read _ | .cache .. => False

instance (e : Event) : Decidable e.OfLog := by
  cases e <;> unfold Event.OfLog <;> infer_instance

namespace Group

def start (m : Machine) : Group := ⟨.start m, []⟩

/-- Whoever ends holds nothing. -/
def LetsGo (g : Group) : Event → Prop
  | .endOp c => ∀ x ∈ g.held, x.1 ≠ c
  | _ => True

instance (g : Group) (e : Event) : Decidable (g.LetsGo e) := by
  cases e <;> unfold LetsGo <;> infer_instance

/-- One step of one operation, if it can be taken. -/
def exec (sb : SuperBlock) (arena : Arena) (g : Group) : GroupCall → Option Group
  | .log e => if e.OfLog ∧ g.LetsGo e then (g.s.exec sb arena e).map fun s => {g with s} else none
  | .acquire c b =>
    if c ∈ g.s.running then
      match (cacheAcquire arena b).run g.s.m with
      | .ok p m => some ⟨{g.s with m}, (c, p) :: g.held⟩
      | .error _ _ => none
    else none
  | .sync c p d =>
    if (c, p) ∈ g.held ∧ OutsideLog sb (g.s.m.heap p).blockNo then
      match (cacheSync (some c) p).run (g.s.m.setBlock p fun x => {x with data := d}) with
      | .ok _ m => some {g with s := {g.s with
          m, synced := (c, (g.s.m.heap p).blockNo) :: g.s.synced
          updates := g.s.updates ++ [(c, ⟨(g.s.m.heap p).blockNo, fun _ => d⟩)]}}
      | .error _ _ => none
    else none
  | .release c p =>
    if (c, p) ∈ g.held then some ⟨{g.s with m := g.s.m.released p}, g.held.filter fun x => x.2 ≠ p⟩ else none

end Group

/-- A miss is taken only when every block that is held is spared. -/
def SparesHeld (g : Group) : GroupCall → Prop
  | .acquire _ b => g.s.m.lookup b = none → ∀ x ∈ g.held, g.s.m.Spared x.2
  | _ => True

instance (g : Group) (a : GroupCall) : Decidable (SparesHeld g a) := by
  cases a <;> unfold SparesHeld <;> infer_instance

variable {sb : SuperBlock} {arena : Arena} {s s' : Protocol} {g g' : Group} {m m' : Machine} {b : UInt64} {p : Ptr}
  {d : BlockData} {old cur : UInt64 → BlockData} {held : List Ptr} {c n : Nat} {t : Nat}

/-- Everything a step can do. -/
inductive Group.Step (sb : SuperBlock) (arena : Arena) (g : Group) : GroupCall → Group → Prop
  | log {e : Event} {s : Protocol} (he : e.OfLog) (hfree : g.LetsGo e) (hs : g.s.Step sb arena e s) :
    Step sb arena g (.log e) {g with s}
  | acquired {c : Nat} {b : UInt64} {p : Ptr} {m : Machine} (hc : c ∈ g.s.running)
      (hrun : (cacheAcquire arena b).run g.s.m = .ok p m) :
    Step sb arena g (.acquire c b) ⟨{g.s with m}, (c, p) :: g.held⟩
  | synced {c : Nat} {p : Ptr} {d : BlockData} {m : Machine} (hp : (c, p) ∈ g.held)
      (hb : OutsideLog sb (g.s.m.heap p).blockNo)
      (hrun : (cacheSync (some c) p).run (g.s.m.setBlock p fun x => {x with data := d}) = .ok () m) :
    Step sb arena g (.sync c p d) {g with s := {g.s with
      m, synced := (c, (g.s.m.heap p).blockNo) :: g.s.synced
      updates := g.s.updates ++ [(c, ⟨(g.s.m.heap p).blockNo, fun _ => d⟩)]}}
  | released {c : Nat} {p : Ptr} (hp : (c, p) ∈ g.held) :
    Step sb arena g (.release c p) ⟨{g.s with m := g.s.m.released p}, g.held.filter fun x => x.2 ≠ p⟩

theorem Group.exec_step {a : GroupCall} (h : g.exec sb arena a = some g') : g.Step sb arena a g' := by
  cases a with
  | log e =>
    obtain ⟨he, h⟩ := Option.ite_none_right_eq_some.mp h
    obtain ⟨s, hs, rfl⟩ := Option.map_eq_some_iff.mp h
    exact .log he.1 he.2 (Protocol.exec_step hs)
  | acquire c b =>
    obtain ⟨hc, h⟩ := Option.ite_none_right_eq_some.mp h
    cases hrun : (cacheAcquire arena b).run g.s.m with
    | error => simp [hrun] at h
    | ok p m =>
      simp only [hrun, Option.some.injEq] at h
      exact h ▸ .acquired hc hrun
  | sync c p d =>
    obtain ⟨hp, h⟩ := Option.ite_none_right_eq_some.mp h
    cases hrun : (cacheSync (some c) p).run (g.s.m.setBlock p fun x => {x with data := d}) with
    | error => simp [hrun] at h
    | ok _ m =>
      simp only [hrun, Option.some.injEq] at h
      exact h ▸ .synced hp.1 hp.2 hrun
  | release c p =>
    rw [Group.exec] at h
    split at h
    case isFalse => cases h
    case isTrue hp => exact Option.some.inj h ▸ .released hp

/-! ### Who is where -/

/-- The operation has called `end_op`. -/
def Protocol.Ended (s : Protocol) (c : Nat) : Prop :=
  c ∈ s.sleeping ∨ c ∈ s.woken ∨ c ∈ s.returned ∨ ∃ phase, s.committer = some (c, phase)

structure Roster (s : Protocol) : Prop where
  owned : ∀ x ∈ s.updates, x.1 ∈ s.started
  ended : ∀ c, s.Ended c → c ∈ s.started ∧ c ∉ s.running
  /-- Somebody is left to wake the sleepers up. -/
  asleep : s.sleeping ≠ [] → s.running ≠ [] ∨ s.committer.isSome

theorem Protocol.ended_goto {d : Nat} {phase phase' : Phase} (hc : s.committer = some (c, phase))
    (hd : (s.goto c phase' m).Ended d) : s.Ended d := by
  rcases hd with h | h | h | ⟨x, h⟩
  · exact Or.inl h
  · exact Or.inr (Or.inl h)
  · exact Or.inr (Or.inr (Or.inl h))
  · rw [Protocol.goto, Option.some.injEq, Prod.mk.injEq] at h
    exact Or.inr (Or.inr (Or.inr ⟨phase, h.1 ▸ hc⟩))

theorem Roster.goto {phase phase' : Phase} (h : Roster s) (hc : s.committer = some (c, phase)) :
    Roster (s.goto c phase' m) :=
  ⟨h.owned, fun d hd => h.ended d (Protocol.ended_goto hc hd), fun _ => Or.inr rfl⟩

/-- An operation leaves the running ones. -/
theorem Roster.endOp (h : Roster s) (ha : Accounted sb s.ops s.m) (hc : c ∈ s.running)
    (hu : s'.updates = s.updates) (hst : s'.started = s.started) (hr : s'.running = s.running.erase c)
    (he : ∀ d, s'.Ended d → s.Ended d ∨ d = c) (hsl : s'.running ≠ [] ∨ s'.committer.isSome) : Roster s' := by
  refine ⟨?_, fun d hd => ?_, fun _ => hsl⟩
  · rw [hu, hst]
    exact h.owned
  · rw [hst, hr]
    rcases he d hd with hold | rfl
    · exact ⟨(h.ended d hold).1, fun hin => (h.ended d hold).2 (List.mem_of_mem_erase hin)⟩
    · exact ⟨ha.begun d hc, List.Nodup.not_mem_erase ha.nodup⟩

/-- An operation that runs syncs a block. -/
theorem Roster.updated (u : Update) (h : Roster s) (ha : Accounted sb s.ops s.m) (hc : c ∈ s.running) :
    Roster {s with m, synced := (c, u.block) :: s.synced, updates := s.updates ++ [(c, u)]} := by
  refine ⟨fun x hx => ?_, h.ended, h.asleep⟩
  rcases List.mem_append.mp hx with hx | hx
  · exact h.owned x hx
  · rw [List.mem_singleton.mp hx]
    exact ha.begun _ hc

theorem Roster.step {e : Event} (h : Roster s) (ha : Accounted sb s.ops s.m) (he : e.OfLog)
    (hs : s.Step sb arena e s') : Roster s' := by
  cases hs with
  | begun hc hadm =>
    refine ⟨fun x hx => List.mem_cons_of_mem _ (h.owned x hx), fun d hd => ?_, fun _ => Or.inl (List.cons_ne_nil _ _)⟩
    obtain ⟨hst, hrun⟩ := h.ended d hd
    refine ⟨List.mem_cons_of_mem _ hst, fun hin => ?_⟩
    rcases List.mem_cons.mp hin with rfl | hin
    · exact hc hst
    · exact hrun hin
  | refused => exact ⟨h.owned, h.ended, h.asleep⟩
  | synced | updated | read | cached => exact he.elim
  | @slept c hc hn =>
    refine h.endOp ha hc rfl rfl rfl (fun d hd => ?_) (Or.inl fun hnil => hn ?_)
    · rcases hd with hin | hin | hin | hin
      · exact (List.mem_cons.mp hin).elim Or.inr fun hin => Or.inl (Or.inl hin)
      · exact Or.inl (Or.inr (Or.inl hin))
      · exact Or.inl (Or.inr (Or.inr (Or.inl hin)))
      · exact Or.inl (Or.inr (Or.inr (Or.inr hin)))
    · -- the last one to run does not sleep
      have hlen := List.length_erase_of_mem hc
      have hpos := List.length_pos_of_mem hc
      have hzero : (s.running.erase c).length = 0 := by
        rw [show s.running.erase c = [] from hnil, List.length_nil]
      have hout : s.m.log.outstanding = s.running.length := ha.outstanding
      omega
  | @closed c hc hn =>
    refine h.endOp ha hc rfl rfl rfl (fun d hd => ?_) (Or.inr rfl)
    rcases hd with hin | hin | hin | ⟨phase, hin⟩
    · exact Or.inl (Or.inl hin)
    · exact Or.inl (Or.inr (Or.inl hin))
    · exact Or.inl (Or.inr (Or.inr (Or.inl hin)))
    · rw [Option.some.injEq, Prod.mk.injEq] at hin
      exact Or.inr hin.1.symm
  | opened hc => exact h.goto hc
  | wrote hc => exact h.goto hc
  | written hc => exact h.goto hc
  | sealed hc => exact h.goto hc
  | installed hc => exact h.goto hc
  | home hc => exact h.goto hc
  | cleared hc => exact h.goto hc
  | emptied hc => exact h.goto hc
  | @finished c hc =>
    refine ⟨h.owned, fun d hd => h.ended d ?_, fun hne => absurd rfl hne⟩
    rcases hd with hin | hin | hin | ⟨phase, hin⟩
    · cases hin
    · exact (List.mem_append.mp hin).elim Or.inl fun hin => Or.inr (Or.inl hin)
    · rcases List.mem_cons.mp hin with rfl | hin
      · exact Or.inr (Or.inr (Or.inr ⟨_, hc⟩))
      · exact Or.inr (Or.inr (Or.inl hin))
    · cases hin
  | @left c hc =>
    refine ⟨h.owned, fun d hd => h.ended d ?_, h.asleep⟩
    rcases hd with hin | hin | hin | hin
    · exact Or.inl hin
    · exact Or.inr (Or.inl (List.mem_of_mem_erase hin))
    · rcases List.mem_cons.mp hin with rfl | hin
      · exact Or.inr (Or.inl hc)
      · exact Or.inr (Or.inr (Or.inl hin))
    · exact Or.inr (Or.inr (Or.inr hin))

/-! ### Blocks that are held -/

namespace LiveWith

theorem acquire (h : LiveWith sb cur held m) (hspare : m.lookup b = none → ∀ q ∈ held, m.Spared q)
    (hrun : (cacheAcquire arena b).run m = .ok p m') : LiveWith sb cur (p :: held) m' ∧ m'.disk = m.disk := by
  have hfree : ∀ q, m.lookup b = some q → q ∉ held := by
    intro q hq hin
    rw [cacheAcquire_held arena hq ((h.cached.locked q (Machine.lookup_some hq).1).mpr hin)] at hrun
    cases hrun
  obtain ⟨p', m'', hrun', ha⟩ := cacheAcquire_spec arena h.cached hfree fun hl q hq =>
    (spared_iff h.cached.nodup (h.cached.linked q hq)).mpr (hspare hl q hq)
  rw [hrun'] at hrun
  cases hrun
  exact ⟨h.acquired ha, ha.frame.disk⟩

theorem sync (h : LiveWith sb cur held m) (hx : m.log.mx = logMx sb) (hp : p ∈ held)
    (hb : OutsideLog sb (m.heap p).blockNo)
    (hrun : (cacheSync (some c) p).run (m.setBlock p fun x => {x with data := d}) = .ok () m') :
    LiveWith sb (update cur (m.heap p).blockNo d) held m' ∧ m'.disk = m.disk := by
  have hs : Synced sb p d m m' := (cacheSync_synced c h.cached (h.cached.linked p hp) h.fits hx).of_ok hrun
  exact ⟨h.synced hp hb hs, hs.disk⟩

theorem release {held' : List Ptr} (h : LiveWith sb cur held m) (hp : p ∈ held)
    (hheld : ∀ q, q ∈ held' ↔ q ∈ held ∧ q ≠ p) : LiveWith sb cur held' (m.released p) := by
  have hsplit : ∀ q, q ∈ p :: held' ↔ q ∈ held := by
    intro q
    rw [List.mem_cons, hheld]
    by_cases hq : q = p
    · simp [hq, hp]
    · simp [hq]
  have h' : LiveWith sb cur (p :: held') m := ⟨h.cached.held_congr hsplit, h.fits, h.view⟩
  exact h'.released fun hin => ((hheld p).mp hin).2 rfl

end LiveWith

/-! ### What is on the disk, phase by phase -/

/-- Each home block holds the old contents or the new ones. -/
def HomeEither (sb : SuperBlock) (old cur disk : UInt64 → BlockData) : Prop :=
  ∀ b, OutsideLog sb b → disk (blockSector b) = old b ∨ disk (blockSector b) = cur b

/-- With everything up to the last commit in `old` and every update in `cur`; blocks are held
only while nobody commits. -/
def OnDisk (sb : SuperBlock) (old cur : UInt64 → BlockData) (held : List Ptr) (m : Machine) :
    Option (Nat × Phase) → Prop
  | none => LiveWith sb cur held m ∧ Settled sb old m.disk
  | some (_, .start) => Live sb cur m ∧ Settled sb old m.disk
  | some (_, .writing t) => Writing sb old cur t m
  | some (_, .sealing) => Writing sb old cur m.header.numBlocks m
  | some (_, .installing t) => Installing sb cur t m ∧ HomeEither sb old cur m.disk
  | some (_, .clearing) => Installing sb cur m.header.numBlocks m
  | some (_, .closing) => Cleared sb cur m
  | some (_, .finishing) => Idle sb cur m

namespace OnDisk
variable {committer : Option (Nat × Phase)}

/-- Whatever the phase, a home block is old or new; it is old while nobody commits. -/
theorem home (h : OnDisk sb old cur held m committer) (hb : OutsideLog sb b) :
    m.disk (blockSector b) = old b ∨ committer.isSome ∧ m.disk (blockSector b) = cur b := by
  cases committer with
  | none => exact Or.inl (h.2.home b hb)
  | some x =>
    obtain ⟨c, phase⟩ := x
    cases phase with
    | start => exact Or.inl (h.2.home b hb)
    | writing t | sealing => exact Or.inl ((Writing.settled h).home b hb)
    | installing t => exact (h.2 b hb).imp id fun he => ⟨rfl, he⟩
    | clearing => exact Or.inr ⟨rfl, (Installing.logged h).all_home (Installing.installed h) hb⟩
    | closing => exact Or.inr ⟨rfl, Cleared.home h b hb⟩
    | finishing => exact Or.inr ⟨rfl, (Idle.settled h).home b hb⟩

theorem wrote (h : OnDisk sb old cur held m (some (c, .writing t))) (ht : t < m.header.numBlocks)
    (hrun : (writeLogBlock sb arena t).run m = .ok () m') : OnDisk sb old cur held m' (some (c, .writing (t + 1))) :=
  ((Writing.step arena h ht).of_ok hrun).1

theorem written (h : OnDisk sb old cur held m (some (c, .writing t))) (ht : m.header.numBlocks ≤ t) :
    OnDisk sb old cur held m (some (c, .sealing)) :=
  ⟨Writing.live h, Writing.settled h, fun i hi hn => Writing.slots h i hi (lt_of_lt_of_le hn ht)⟩

/-- The home blocks are still old when the header is written. -/
theorem sealed (h : OnDisk sb old cur held m (some (c, .sealing))) (hrun : (writeHeader sb).run m = .ok () m') :
    OnDisk sb old cur held m' (some (c, .installing 0)) := by
  refine ⟨((Writing.seal h).of_ok hrun).1, fun b hb => Or.inl ?_⟩
  rw [((writeHeader_spec sb m).of_ok hrun).1.disk, update_of_ne hb.1]
  exact (Writing.settled h).home b hb

theorem installed (h : OnDisk sb old cur held m (some (c, .installing t))) (ht : t < m.header.numBlocks)
    (hrun : (installBlock sb arena false t).run m = .ok () m') :
    OnDisk sb old cur held m' (some (c, .installing (t + 1))) := by
  obtain ⟨hi, hhome⟩ := h
  have hlt := hi.live.fits.lt ht
  refine ⟨((hi.step arena ht).of_ok hrun).1, fun b hb => ?_⟩
  have hwrote := ((installBlock_step arena hi.live hlt ht (hi.logged.slots t hlt ht)).of_ok hrun).2
  rw [hwrote.disk]
  by_cases he : b = m.header.blockNo ⟨t, hlt⟩
  · rw [he, update_self]
    exact Or.inr rfl
  · rw [update_of_ne fun hs => he (blockSector_inj.mp hs)]
    exact hhome b hb

theorem allInstalled (h : OnDisk sb old cur held m (some (c, .installing t))) (ht : m.header.numBlocks ≤ t) :
    OnDisk sb old cur held m (some (c, .clearing)) :=
  ⟨h.1.live, h.1.logged, fun i hi hn => h.1.installed i hi (lt_of_lt_of_le hn ht)⟩

theorem opened (h : OnDisk sb old cur held m (some (c, .start))) :
    OnDisk sb old cur held m (some (c, if 0 < m.header.numBlocks then .writing 0 else .finishing)) := by
  split
  case isTrue => exact ⟨h.1, h.2, fun i _ hi => absurd hi (Nat.not_lt_zero i)⟩
  case isFalse hn => exact h.1.idle h.2 (Nat.eq_zero_of_not_pos hn)

end OnDisk

/-! ### A run -/

/-- The blocks after the first `n` updates. -/
def Protocol.made (S0 : UInt64 → BlockData) (s : Protocol) (n : Nat) : UInt64 → BlockData :=
  contents S0 ((s.updates.take n).map Prod.snd)

variable {S0 : UInt64 → BlockData}

/-- The first `n` updates have been committed. -/
structure Durable (sb : SuperBlock) (S0 : UInt64 → BlockData) (n : Nat) (g : Group) : Prop where
  holders : ∀ x ∈ g.held, x.1 ∈ g.s.running
  bounded : n ≤ g.s.updates.length
  committed : ∀ x ∈ g.s.updates.take n, x.1 ∉ g.s.running
  pending : ∀ x ∈ g.s.updates.drop n, x.1 ∉ g.s.woken ∧ x.1 ∉ g.s.returned
  disk : OnDisk sb (g.s.made S0 n) (g.s.made S0 g.s.updates.length) (g.held.map Prod.snd) g.s.m g.s.committer

namespace Durable

section
variable (h : Durable sb S0 n g)
include h

/-- A step of the committer that changes nothing but the machine. -/
theorem goto {phase : Phase}
    (hd : OnDisk sb (g.s.made S0 n) (g.s.made S0 g.s.updates.length) (g.held.map Prod.snd) m (some (c, phase))) :
    Durable sb S0 n {g with s := g.s.goto c phase m} :=
  ⟨h.holders, h.bounded, h.committed, h.pending, hd⟩

theorem at_phase {phase : Phase} (hc : g.s.committer = some (c, phase)) :
    OnDisk sb (g.s.made S0 n) (g.s.made S0 g.s.updates.length) (g.held.map Prod.snd) g.s.m (some (c, phase)) :=
  hc ▸ h.disk

/-- While nobody commits. -/
theorem idle (hc : g.s.committer = none) : LiveWith sb (g.s.made S0 g.s.updates.length) (g.held.map Prod.snd) g.s.m ∧
      Settled sb (g.s.made S0 n) g.s.m.disk := by
  have hd := h.disk
  rwa [hc] at hd

theorem acquire (ha : Accounted sb g.s.ops g.s.m) (hc : c ∈ g.s.running) (hspare : SparesHeld g (.acquire c b))
    (hrun : (cacheAcquire arena b).run g.s.m = .ok p m) : Durable sb S0 n ⟨{g.s with m}, (c, p) :: g.held⟩ := by
  have hnone : g.s.committer = none := ha.no_committer (ha.committing_zero hc)
  obtain ⟨hhold, hsettled⟩ := h.idle hnone
  obtain ⟨hhold', hdisk⟩ := hhold.acquire (fun hl q hq => by
    obtain ⟨x, hx, rfl⟩ := List.mem_map.mp hq
    exact hspare hl x hx) hrun
  refine ⟨fun x hx => ?_, h.bounded, h.committed, h.pending, ?_⟩
  · rcases List.mem_cons.mp hx with rfl | hx
    · exact hc
    · exact h.holders x hx
  · rw [hnone]
    exact ⟨hhold', show Settled sb _ m.disk from hdisk ▸ hsettled⟩

theorem sync (hr : Roster g.s) (ha : Accounted sb g.s.ops g.s.m) (hp : (c, p) ∈ g.held)
    (hb : OutsideLog sb (g.s.m.heap p).blockNo)
    (hrun : (cacheSync (some c) p).run (g.s.m.setBlock p fun x => {x with data := d}) = .ok () m) :
    Durable sb S0 n {g with s := {g.s with
      m, synced := (c, (g.s.m.heap p).blockNo) :: g.s.synced
      updates := g.s.updates ++ [(c, ⟨(g.s.m.heap p).blockNo, fun _ => d⟩)]}} := by
  have hc := h.holders _ hp
  have hnone : g.s.committer = none := ha.no_committer (ha.committing_zero hc)
  obtain ⟨hhold, hsettled⟩ := h.idle hnone
  obtain ⟨hhold', hdisk⟩ := hhold.sync ha.mx (List.mem_map_of_mem hp) hb hrun
  have hn := h.bounded
  have htake : ∀ y, (g.s.updates ++ [y]).take n = g.s.updates.take n := fun _ => List.take_append_of_le_length hn
  constructor
  case holders => exact h.holders
  case bounded =>
    rw [List.length_append]
    omega
  case committed =>
    rw [htake]
    exact h.committed
  case pending =>
    intro y hy
    rw [List.drop_append_of_le_length hn] at hy
    rcases List.mem_append.mp hy with hy | hy
    · exact h.pending y hy
    · rw [List.mem_singleton.mp hy]
      exact ⟨fun hin => (hr.ended c (Or.inr (Or.inl hin))).2 hc,
        fun hin => (hr.ended c (Or.inr (Or.inr (Or.inl hin)))).2 hc⟩
  case disk =>
    rw [hnone, Protocol.made, Protocol.made]
    refine ⟨?_, ?_⟩
    · rw [List.take_length, List.map_append, List.map_singleton, contents_append]
      rw [Protocol.made, List.take_length] at hhold'
      exact hhold'
    · rw [htake]
      show Settled sb _ m.disk
      rw [hdisk]
      exact hsettled

theorem release (ha : Accounted sb g.s.ops g.s.m) (hp : (c, p) ∈ g.held) :
    Durable sb S0 n ⟨{g.s with m := g.s.m.released p}, g.held.filter fun x => x.2 ≠ p⟩ := by
  have hnone : g.s.committer = none := ha.no_committer (ha.committing_zero (h.holders _ hp))
  obtain ⟨hhold, hsettled⟩ := h.idle hnone
  refine ⟨fun x hx => h.holders x (List.mem_filter.mp hx).1, h.bounded, h.committed, h.pending, ?_⟩
  rw [hnone]
  refine ⟨hhold.release (List.mem_map_of_mem hp) fun q => ?_, hsettled⟩
  simp only [List.mem_map, List.mem_filter, decide_eq_true_eq]
  constructor
  · intro ⟨x, ⟨hx, hne⟩, hq⟩
    exact ⟨⟨x, hx, hq⟩, hq ▸ hne⟩
  · intro ⟨⟨x, hx, hq⟩, hne⟩
    exact ⟨x, ⟨hx, hq ▸ hne⟩, hq⟩

/-- The end of a commit makes every update so far count as committed. -/
theorem finish (hr : g.s.running = []) (hc : g.s.committer = some (c, .finishing)) :
    Durable sb S0 g.s.updates.length {g with s := {g.s with
      m := {g.s.m with log := {g.s.m.log with committing := 0}}, committer := none, returned := c :: g.s.returned
      woken := g.s.sleeping ++ g.s.woken, sleeping := [], waiting := []}} := by
  have hidle : Idle sb _ g.s.m := h.at_phase hc
  have hheld : g.held = [] := List.eq_nil_iff_forall_not_mem.mpr fun x hx =>
    List.not_mem_nil (hr ▸ h.holders x hx)
  constructor
  case holders => exact h.holders
  case bounded => exact le_rfl
  case committed =>
    intro x _
    show x.1 ∉ g.s.running
    rw [hr]
    exact List.not_mem_nil
  case pending =>
    intro x hx
    rw [List.drop_length] at hx
    cases hx
  case disk =>
    rw [hheld]
    exact ⟨hidle.live.congr rfl rfl rfl rfl, hidle.settled⟩

/-- The last operation to end leaves no block held behind. -/
theorem held_closed (ha : Accounted sb g.s.ops g.s.m) (hc : c ∈ g.s.running) (hn : g.s.m.log.outstanding = 1)
    (hfree : g.LetsGo (.endOp c)) : g.held = [] := by
  have hlen : g.s.m.log.outstanding = g.s.running.length := ha.outstanding
  obtain ⟨a, hone⟩ := List.length_eq_one_iff.mp (show g.s.running.length = 1 by omega)
  rw [hone, List.mem_singleton] at hc
  refine List.eq_nil_iff_forall_not_mem.mpr fun x hx => hfree x hx ?_
  have hin := h.holders x hx
  rw [hone, List.mem_singleton] at hin
  rw [hin, hc]

theorem log {e : Event} (hr : Roster g.s) (ha : Accounted sb g.s.ops g.s.m) (he : e.OfLog) (hfree : g.LetsGo e)
    (hs : g.s.Step sb arena e s') : ∃ n', Durable sb S0 n' {g with s := s'} := by
  cases hs with
  | begun hc hadm =>
    have hnone : g.s.committer = none := ha.no_committer hadm.1
    obtain ⟨hhold, hsettled⟩ := h.idle hnone
    refine ⟨n, fun x hx => List.mem_cons_of_mem _ (h.holders x hx), h.bounded, fun x hx hin => ?_, h.pending, ?_⟩
    · rcases List.mem_cons.mp hin with rfl | hin
      · exact hc (hr.owned x (List.mem_of_mem_take hx))
      · exact h.committed x hx hin
    · rw [hnone]
      exact ⟨hhold.congr rfl rfl rfl rfl, hsettled⟩
  | refused => exact ⟨n, h.holders, h.bounded, h.committed, h.pending, h.disk⟩
  | synced | updated | read | cached => exact he.elim
  | @slept c hc hn =>
    have hnone : g.s.committer = none := ha.no_committer (ha.committing_zero hc)
    obtain ⟨hhold, hsettled⟩ := h.idle hnone
    refine ⟨n, fun x hx => (List.mem_erase_of_ne (hfree x hx)).mpr (h.holders x hx), h.bounded,
      fun x hx hin => h.committed x hx (List.mem_of_mem_erase hin), h.pending, ?_⟩
    rw [hnone]
    exact ⟨hhold.congr rfl rfl rfl rfl, hsettled⟩
  | @closed c hc hn =>
    have hheld := h.held_closed ha hc hn hfree
    obtain ⟨hhold, hsettled⟩ := h.idle (ha.no_committer (ha.committing_zero hc))
    rw [hheld] at hhold
    refine ⟨n, fun x hx => ?_, h.bounded, fun x hx hin => h.committed x hx (List.mem_of_mem_erase hin), h.pending,
      hhold.congr rfl rfl rfl rfl, hsettled⟩
    exact absurd (hheld ▸ hx) List.not_mem_nil
  | opened hc => exact ⟨n, h.goto (h.at_phase hc).opened⟩
  | wrote hc ht hrun => exact ⟨n, h.goto ((h.at_phase hc).wrote ht hrun)⟩
  | written hc ht => exact ⟨n, h.goto ((h.at_phase hc).written ht)⟩
  | sealed hc hrun => exact ⟨n, h.goto ((h.at_phase hc).sealed hrun)⟩
  | installed hc ht hrun => exact ⟨n, h.goto ((h.at_phase hc).installed ht hrun)⟩
  | home hc ht => exact ⟨n, h.goto ((h.at_phase hc).allInstalled ht)⟩
  | cleared hc => exact ⟨n, h.goto (Installing.clear (h.at_phase hc))⟩
  | emptied hc hrun => exact ⟨n, h.goto ((Cleared.finish (h.at_phase hc)).of_ok hrun).1⟩
  | finished hc =>
    have hnil : g.s.running = [] := ha.alone (by rw [Protocol.ops, hc]; rfl)
    exact ⟨_, h.finish hnil hc⟩
  | @left c hc =>
    refine ⟨n, h.holders, h.bounded, h.committed, fun x hx => ?_, h.disk⟩
    obtain ⟨hw, hret⟩ := h.pending x hx
    refine ⟨fun hin => hw (List.mem_of_mem_erase hin), fun hin => ?_⟩
    rcases List.mem_cons.mp hin with he | hin
    · exact hw (he ▸ hc)
    · exact hret hin

end

end Durable

/-- What a step does to the log, seen from a log within its limits. -/
theorem Group.Step.logStep {a : GroupCall} (h : g.Step sb arena a g') (hheld : ∀ x ∈ g.held, x.1 ∈ g.s.running)
    (ha : Accounted sb g.s.ops g.s.m) : LogStep g.s g'.s := by
  cases h with
  | log _ _ hs => exact hs.logStep ha.sized ha.mx_le
  | acquired _ hrun => exact .quiet ((cacheOnly_acquire arena _).of_ok hrun).toSameLog rfl
  | @synced c p d m hp _ hrun =>
    have hlog := cacheSync_log (m := g.s.m.setBlock p fun x => {x with data := d}) ha.sized ha.mx_le hrun
    rw [Machine.setBlock_self] at hlog
    exact .synced c _ (hheld _ hp) (hlog.congr ⟨rfl, rfl, rfl⟩ ⟨rfl, rfl, rfl⟩) rfl
  | released => exact .quiet ⟨rfl, rfl, rfl⟩ rfl

/-- What every state satisfies that is reached without evicting a block that is held. -/
theorem groupCommit_reach {disk : UInt64 → BlockData} {power : Nat} {m0 : Machine}
    (hboot : (initBcache sb arena).run (boot disk power) = .ok () m0)
    (hrun : Reach (fun g a g' => g.exec sb arena a = some g') SparesHeld (.start m0) g) :
    Accounted sb g.s.ops g.s.m ∧ Roster g.s ∧ ∃ n, Durable sb (fun b => m0.disk (blockSector b)) n g := by
  induction hrun with
  | start =>
    obtain ⟨hidle, -, -⟩ := initBcache_returns hboot
    refine ⟨Accounted.start hboot, ⟨nofun, fun c hc => ?_, fun hne => absurd rfl hne⟩,
      0, nofun, le_rfl, nofun, nofun, hidle.live, hidle.settled⟩
    rcases hc with hin | hin | hin | ⟨_, hin⟩ <;> cases hin
  | next hreach hspare hs ih =>
    obtain ⟨ha, hroster, n, hdur⟩ := ih
    have hstep := Group.exec_step hs
    refine ⟨ha.step (hstep.logStep hdur.holders ha), ?_⟩
    cases hstep with
    | log he hfree hlog => exact ⟨hroster.step ha he hlog, hdur.log hroster ha he hfree hlog⟩
    | acquired hc hrun => exact ⟨⟨hroster.owned, hroster.ended, hroster.asleep⟩, n, hdur.acquire ha hc hspare hrun⟩
    | @synced c p d m hp hb hrun =>
      exact ⟨hroster.updated ⟨_, fun _ => d⟩ ha (hdur.holders _ hp), n, hdur.sync hroster ha hp hb hrun⟩
    | released hp => exact ⟨⟨hroster.owned, hroster.ended, hroster.asleep⟩, n, hdur.release ha hp⟩

/-- A commit adds no entry to the header, and nobody else can. -/
theorem LogStep.entries_subset (h : LogStep s s') (ha : Accounted sb s.ops s.m)
    (hc : s.m.log.committing = 1) : s'.m.header.entries ⊆ s.m.header.entries := by
  have hnil : s.running = [] := ha.alone (ha.committer_of_committing hc)
  cases h with
  | begun c _ hadm => exact absurd (hadm.1.symm.trans hc) (by decide)
  | synced c b hin | ended c hin | closed c hin => exact absurd (hnil ▸ hin) List.not_mem_nil
  | worked c _ _ _ hm | finished c _ hm | quiet hm => exact hm.header ▸ List.Subset.refl _
  | cleared c _ hm => exact hm.header ▸ List.nil_subset _

/-- **Group commit**, as long as no block is evicted while it is held. Every home block
holds what some first part of the updates makes of it: no update in that part belongs to
an operation that still runs, and no update outside it to one that has returned from
`end_op`. During a commit no operation is open and no entry is added. Whoever sleeps in
`end_op` will be woken. -/
theorem group_commit (sb : SuperBlock) (arena : Arena) {disk : UInt64 → BlockData} {power : Nat}
    {m0 : Machine} {g : Group} (hboot : (initBcache sb arena).run (boot disk power) = .ok () m0)
    (hrun : Reach (fun g a g' => g.exec sb arena a = some g') SparesHeld (.start m0) g) :
    (∀ b, OutsideLog sb b → ∃ n ≤ g.s.updates.length,
      g.s.m.disk (blockSector b) = g.s.made (fun b => m0.disk (blockSector b)) n b ∧
      (∀ x ∈ g.s.updates.take n, x.1 ∉ g.s.running) ∧ ∀ x ∈ g.s.updates.drop n, x.1 ∉ g.s.returned) ∧
    (g.s.m.log.committing = 1 → g.s.running = [] ∧ g.s.m.log.outstanding = 0 ∧
      ∀ a g', g.exec sb arena a = some g' → g'.s.m.header.entries ⊆ g.s.m.header.entries) ∧
    ∀ c ∈ g.s.sleeping, 0 < g.s.m.log.outstanding ∨ g.s.m.log.committing = 1 := by
  obtain ⟨ha, hroster, n, hdur⟩ := groupCommit_reach hboot hrun
  have hout : g.s.m.log.outstanding = g.s.running.length := ha.outstanding
  refine ⟨fun b hb => ?_, fun hc => ?_, fun c hc => ?_⟩
  · rcases hdur.disk.home hb with hold | ⟨hsome, hnew⟩
    · exact ⟨n, hdur.bounded, hold, hdur.committed, fun x hx => (hdur.pending x hx).2⟩
    · -- the committer has brought this block home for the whole group
      have hnil : g.s.running = [] := ha.alone hsome
      refine ⟨_, le_rfl, hnew, fun x _ => ?_, fun x hx => ?_⟩
      · rw [hnil]
        exact List.not_mem_nil
      · rw [List.drop_length] at hx
        cases hx
  · have hnil : g.s.running = [] := ha.alone (ha.committer_of_committing hc)
    refine ⟨hnil, by rw [hout, hnil]; rfl, fun a g' hs => ?_⟩
    exact ((Group.exec_step hs).logStep hdur.holders ha).entries_subset ha hc
  · rcases hroster.asleep (List.ne_nil_of_mem hc) with hne | hsome
    · left
      have := List.length_pos_iff.mpr hne
      omega
    · right
      rw [ha.committing, if_pos (show g.s.ops.committer.isSome from hsome)]

/-- Two operations sync one block; the first to end returns after the other has
committed for both. -/
theorem group_commit_two_operations : ∃ (m0 : Machine) (g : Group),
    (initBcache .mkfs .next).run (boot (fun _ _ => 0) 9) = .ok () m0 ∧
    Reach (fun g a g' => g.exec .mkfs .next a = some g') SparesHeld (.start m0) g ∧
    g.s.returned = [0, 1] ∧ g.s.updates.map Prod.fst = [0, 1] ∧ OutsideLog .mkfs 100 ∧
    ∃ n ≤ g.s.updates.length, g.s.m.disk (blockSector 100) = g.s.made (fun b => m0.disk (blockSector b)) n 100 ∧
      (∀ x ∈ g.s.updates.take n, x.1 ∉ g.s.running) ∧ ∀ x ∈ g.s.updates.drop n, x.1 ∉ g.s.returned := by
  obtain ⟨g, hreach, hg⟩ := Reach.exists_of_any (show
    (runAll (Group.exec .mkfs .next) SparesHeld (.start booted)
      ([.log (.beginOp 0), .log (.beginOp 1), .acquire 0 100, .sync 0 1 fun _ => 1, .release 0 1, .acquire 1 100,
        .sync 1 1 fun _ => 2, .release 1 1, .log (.endOp 0), .log (.endOp 1)] ++
        List.replicate 9 (.log .commit) ++ [.log (.leave 0)])).any (fun g : Group =>
        decide (g.s.returned = [0, 1] ∧ g.s.updates.map Prod.fst = [0, 1])) = true by decide +kernel)
  obtain ⟨hret, hups⟩ := of_decide_eq_true hg
  have hout : OutsideLog .mkfs 100 := by decide +kernel
  exact ⟨_, g, booted_run, hreach, hret, hups, hout, (group_commit .mkfs .next booted_run hreach).1 100 hout⟩

/-- Operation 0 reads block 100 and acquires it again, which does not flag it; operation 1
then reads twenty others, and block 100 is evicted. What operation 0 syncs is not what the
commit acquires. -/
def evictedCalls : List GroupCall :=
  [.log (.beginOp 0), .log (.beginOp 1), .acquire 0 100, .release 0 1, .acquire 0 100] ++
    (List.range 20).flatMap (fun i => [.acquire 1 (200 + i.toUInt64), .release 1 (2 + i)]) ++
    [.sync 0 1 fun _ => 7, .release 0 1, .log (.endOp 1), .log (.endOp 0)] ++ List.replicate 9 (.log .commit)

/-- `end_op` has returned, and the block that was synced with sevens is zero at home. -/
theorem synced_block_lost : ∃ (m0 : Machine) (g : Group),
    (initBcache .mkfs .next).run (boot (fun _ _ => 0) 9) = .ok () m0 ∧
    Reach (fun g a g' => g.exec .mkfs .next a = some g') (fun _ _ => True) (.start m0) g ∧
    g.s.returned = [0] ∧
    g.s.updates.map (fun x => (x.1, x.2.block, x.2.change (fun _ => 0) 0)) = [(0, 100, 7)] ∧
    g.s.m.disk (blockSector 100) 0 = 0 := by
  obtain ⟨g, hreach, hg⟩ := Reach.exists_of_any (show
    (runAll (Group.exec .mkfs .next) (fun _ _ => True) (.start booted) evictedCalls).any (fun g : Group =>
      decide (g.s.returned = [0] ∧
        g.s.updates.map (fun x => (x.1, x.2.block, x.2.change (fun _ => 0) 0)) = [(0, 100, 7)] ∧
        g.s.m.disk (blockSector 100) 0 = 0)) = true by decide +kernel)
  exact ⟨_, g, booted_run, hreach, of_decide_eq_true hg⟩

end OS2021.Fs
