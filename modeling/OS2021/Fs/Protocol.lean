import OS2021.Fs.Calls
import OS2021.Lib.Runs

/-! The log's protocol between operations, at the granularity of `log.lock`.

An operation that is refused in `begin_op` sleeps on `&log`; one that ends while
others are open sleeps on `&log.outstanding`; the last one commits, outside the
lock, one block at a time. Waking up a channel makes its sleepers runnable. The
machine runs the code; what stands beside it is where each operation is, and
what the operations have done. -/
namespace OS2021.Fs
open Lib

/-- Where the operation that commits has got to in `cache_end_op`. -/
inductive Phase where
  | start
  | writing (t : Nat)
  | sealing
  | installing (t : Nat)
  | clearing
  | closing
  | finishing
  deriving DecidableEq

structure Protocol where
  m : Machine
  /-- The operations that have begun. -/
  started : List Nat
  /-- Those that have not called `end_op` yet. -/
  running : List Nat
  /-- Asleep in `begin_op`. -/
  waiting : List Nat
  /-- Asleep in `end_op`. -/
  sleeping : List Nat
  /-- Woken from that sleep and yet to return. -/
  woken : List Nat
  committer : Option (Nat × Phase)
  /-- Returned from `end_op`. -/
  returned : List Nat
  /-- Every block number passed to `cache_sync`, and by whom. -/
  synced : List (Nat × UInt64)
  /-- Every update made through `Event.update`, and by whom. -/
  updates : List (Nat × Update)

inductive Event where
  | beginOp (c : Nat)
  /-- `cache_sync` of a block somebody holds. -/
  | sync (c : Nat) (p : Ptr)
  /-- Acquire, modify, `cache_sync` and release one block outside the log. -/
  | update (c : Nat) (u : Update)
  | endOp (c : Nat)
  | commit
  /-- A woken operation returns from `end_op`. -/
  | leave (c : Nat)
  | read (b : UInt64)
  /-- Whatever else the threads do to the cache and the device. -/
  | cache (disk : UInt64 → BlockData) (power : Nat) (accesses : List Access) (heap : Ptr → Block)
      (head : List Ptr) (allocs : Nat) (frees : Ptr → Nat)

namespace Protocol

def start (m : Machine) : Protocol := ⟨m, [], [], [], [], [], none, [], [], []⟩

/-- The protocol after a routine has returned. -/
def after {α : Type} (s : Protocol) (x : M α) (k : Machine → Protocol) : Option Protocol :=
  match x.run s.m with
  | .ok _ m => some (k m)
  | .error _ _ => none

def goto (s : Protocol) (c : Nat) (phase : Phase) (m : Machine) : Protocol :=
  {s with m, committer := some (c, phase)}

/-- One step of `commit()` and of what `cache_end_op` does after it. -/
def commitStep (sb : SuperBlock) (arena : Arena) (s : Protocol) (c : Nat) : Phase → Option Protocol
  | .start => some (s.goto c (if 0 < s.m.header.numBlocks then .writing 0 else .finishing) s.m)
  | .writing t =>
    if t < s.m.header.numBlocks then s.after (writeLogBlock sb arena t) (s.goto c (.writing (t + 1)))
    else some (s.goto c .sealing s.m)
  | .sealing => s.after (writeHeader sb) (s.goto c (.installing 0))
  | .installing t =>
    if t < s.m.header.numBlocks then s.after (installBlock sb arena false t) (s.goto c (.installing (t + 1)))
    else some (s.goto c .clearing s.m)
  | .clearing => s.after clearHeader (s.goto c .closing)
  | .closing => s.after (writeHeader sb) (s.goto c .finishing)
  | .finishing =>
    s.after cacheEndOpFinish fun m => {s with
      m, committer := none, returned := c :: s.returned
      woken := s.sleeping ++ s.woken, sleeping := [], waiting := []}

/-- One step of one operation, if it can be taken. A panic ends the run. -/
def exec (sb : SuperBlock) (arena : Arena) (s : Protocol) : Event → Option Protocol
  | .beginOp c =>
    if c ∈ s.started ∨ c ∈ s.waiting then none
    else
      match (cacheBeginOp c).run s.m with
      | .ok _ m => some {s with m, started := c :: s.started, running := c :: s.running}
      | .error _ m => some {s with m, waiting := c :: s.waiting}
  | .sync c p =>
    if c ∈ s.running then
      s.after (cacheSync (some c) p) fun m =>
        {s with m, synced := (c, (s.m.heap p).blockNo) :: s.synced}
    else none
  | .update c u =>
    if c ∈ s.running ∧ OutsideLog sb u.block then
      s.after (cacheUpdate arena (some c) u.block u.change) fun m =>
        {s with m, synced := (c, u.block) :: s.synced, updates := s.updates ++ [(c, u)]}
    else none
  | .endOp c =>
    if c ∈ s.running then
      match (cacheEndOpLocked c).run s.m with
      | .ok _ m => some {s with m, running := s.running.erase c, committer := some (c, .start)}
      | .error (.asleep .outstanding) m =>
        some {s with m, running := s.running.erase c, sleeping := c :: s.sleeping, waiting := []}
      | .error _ _ => none
    else none
  | .commit =>
    match s.committer with
    | some (c, phase) => s.commitStep sb arena c phase
    | none => none
  | .leave c =>
    if c ∈ s.woken then some {s with woken := s.woken.erase c, returned := c :: s.returned} else none
  | .read b => if OutsideLog sb b then s.after (cacheRead arena b) fun m => {s with m} else none
  | .cache disk power accesses heap head allocs frees =>
    some {s with m := {s.m with disk, power, accesses, heap, head, allocs, frees}}

end Protocol

variable {sb : SuperBlock} {arena : Arena} {s s' : Protocol} {m m' : Machine} {b : UInt64} {p : Ptr} {c : Nat}

/-! ### The steps -/

/-- Everything a step can do. -/
inductive Protocol.Step (sb : SuperBlock) (arena : Arena) (s : Protocol) : Event → Protocol → Prop
  | begun {c : Nat} (hc : c ∉ s.started) (ha : s.m.Admits) :
    Step sb arena s (.beginOp c)
      {s with m := s.m.begun c, started := c :: s.started, running := c :: s.running}
  | refused {c : Nat} (ha : ¬ s.m.Admits) : Step sb arena s (.beginOp c) {s with waiting := c :: s.waiting}
  | synced {c : Nat} {p : Ptr} {m : Machine} (hc : c ∈ s.running)
      (hrun : (cacheSync (some c) p).run s.m = .ok () m) :
    Step sb arena s (.sync c p) {s with m, synced := (c, (s.m.heap p).blockNo) :: s.synced}
  | updated {c : Nat} {u : Update} {x : Block} {m : Machine} (hc : c ∈ s.running) (hb : OutsideLog sb u.block)
      (hrun : (cacheUpdate arena (some c) u.block u.change).run s.m = .ok x m) :
    Step sb arena s (.update c u)
      {s with m, synced := (c, u.block) :: s.synced, updates := s.updates ++ [(c, u)]}
  | slept {c : Nat} (hc : c ∈ s.running) (hn : s.m.log.outstanding ≠ 1) :
    Step sb arena s (.endOp c)
      {s with m := s.m.ended c, running := s.running.erase c, sleeping := c :: s.sleeping, waiting := []}
  | closed {c : Nat} (hc : c ∈ s.running) (hn : s.m.log.outstanding = 1) :
    Step sb arena s (.endOp c)
      {s with m := (s.m.ended c).closed, running := s.running.erase c, committer := some (c, .start)}
  | opened {c : Nat} (hc : s.committer = some (c, .start)) :
    Step sb arena s .commit (s.goto c (if 0 < s.m.header.numBlocks then .writing 0 else .finishing) s.m)
  | wrote {c t : Nat} {m : Machine} (hc : s.committer = some (c, .writing t)) (ht : t < s.m.header.numBlocks)
      (hrun : (writeLogBlock sb arena t).run s.m = .ok () m) :
    Step sb arena s .commit (s.goto c (.writing (t + 1)) m)
  | written {c t : Nat} (hc : s.committer = some (c, .writing t)) (ht : s.m.header.numBlocks ≤ t) :
    Step sb arena s .commit (s.goto c .sealing s.m)
  | sealed {c : Nat} {m : Machine} (hc : s.committer = some (c, .sealing))
      (hrun : (writeHeader sb).run s.m = .ok () m) : Step sb arena s .commit (s.goto c (.installing 0) m)
  | installed {c t : Nat} {m : Machine} (hc : s.committer = some (c, .installing t))
      (ht : t < s.m.header.numBlocks) (hrun : (installBlock sb arena false t).run s.m = .ok () m) :
    Step sb arena s .commit (s.goto c (.installing (t + 1)) m)
  | home {c t : Nat} (hc : s.committer = some (c, .installing t)) (ht : s.m.header.numBlocks ≤ t) :
    Step sb arena s .commit (s.goto c .clearing s.m)
  | cleared {c : Nat} (hc : s.committer = some (c, .clearing)) :
    Step sb arena s .commit (s.goto c .closing {s.m with header := {s.m.header with numBlocks := 0}})
  | emptied {c : Nat} {m : Machine} (hc : s.committer = some (c, .closing))
      (hrun : (writeHeader sb).run s.m = .ok () m) : Step sb arena s .commit (s.goto c .finishing m)
  | finished {c : Nat} (hc : s.committer = some (c, .finishing)) :
    Step sb arena s .commit {s with
      m := {s.m with log := {s.m.log with committing := 0}}, committer := none, returned := c :: s.returned
      woken := s.sleeping ++ s.woken, sleeping := [], waiting := []}
  | left {c : Nat} (hc : c ∈ s.woken) :
    Step sb arena s (.leave c) {s with woken := s.woken.erase c, returned := c :: s.returned}
  | read {b : UInt64} {x : Block} {m : Machine} (hb : OutsideLog sb b)
      (hrun : (cacheRead arena b).run s.m = .ok x m) : Step sb arena s (.read b) {s with m}
  | cached {disk : UInt64 → BlockData} {power : Nat} {accesses : List Access} {heap : Ptr → Block}
      {head : List Ptr} {allocs : Nat} {frees : Ptr → Nat} :
    Step sb arena s (.cache disk power accesses heap head allocs frees)
      {s with m := {s.m with disk, power, accesses, heap, head, allocs, frees}}

theorem Protocol.after_some {α : Type} {x : M α} {k : Machine → Protocol} (h : s.after x k = some s') :
    ∃ a m, x.run s.m = .ok a m ∧ s' = k m := by
  rw [Protocol.after] at h
  split at h
  case h_1 a m hrun => exact ⟨a, m, hrun, (Option.some.inj h).symm⟩
  case h_2 => cases h

theorem Protocol.commitStep_step {phase : Phase} (hc : s.committer = some (c, phase))
    (h : s.commitStep sb arena c phase = some s') : s.Step sb arena .commit s' := by
  cases phase with
  | start =>
    cases h
    exact .opened hc
  | writing t =>
    rw [Protocol.commitStep] at h
    split at h
    case isTrue ht =>
      obtain ⟨_, m, hrun, rfl⟩ := Protocol.after_some h
      exact .wrote hc ht hrun
    case isFalse ht =>
      cases h
      exact .written hc (not_lt.mp ht)
  | sealing =>
    rw [Protocol.commitStep] at h
    obtain ⟨_, m, hrun, rfl⟩ := Protocol.after_some h
    exact .sealed hc hrun
  | installing t =>
    rw [Protocol.commitStep] at h
    split at h
    case isTrue ht =>
      obtain ⟨_, m, hrun, rfl⟩ := Protocol.after_some h
      exact .installed hc ht hrun
    case isFalse ht =>
      cases h
      exact .home hc (not_lt.mp ht)
  | clearing =>
    cases h
    exact .cleared hc
  | closing =>
    rw [Protocol.commitStep] at h
    obtain ⟨_, m, hrun, rfl⟩ := Protocol.after_some h
    exact .emptied hc hrun
  | finishing =>
    cases h
    exact .finished hc

/-- The inversion of `exec`. -/
theorem Protocol.exec_step {e : Event} (h : s.exec sb arena e = some s') : s.Step sb arena e s' := by
  cases e with
  | beginOp c =>
    obtain ⟨hc, h⟩ := Option.ite_none_left_eq_some.mp h
    rcases cacheBeginOp_run (c := c) (m := s.m) with ⟨hrun, ha⟩ | ⟨hrun, ha⟩
    · rw [hrun] at h
      cases h
      exact .begun (fun hin => hc (Or.inl hin)) ha
    · rw [hrun] at h
      cases h
      exact .refused ha
  | sync c p =>
    obtain ⟨hc, h⟩ := Option.ite_none_right_eq_some.mp h
    obtain ⟨_, m, hrun, rfl⟩ := Protocol.after_some h
    exact .synced hc hrun
  | update c u =>
    obtain ⟨hc, h⟩ := Option.ite_none_right_eq_some.mp h
    obtain ⟨_, m, hrun, rfl⟩ := Protocol.after_some h
    exact .updated hc.1 hc.2 hrun
  | endOp c =>
    obtain ⟨hc, h⟩ := Option.ite_none_right_eq_some.mp h
    have hrun := cacheEndOpLocked_run (c := c) (m := s.m)
    split at hrun
    case isTrue =>
      rw [hrun] at h
      cases h
    case isFalse =>
      split at hrun
      case isTrue hn =>
        rw [hrun] at h
        cases h
        exact .closed hc hn
      case isFalse hn =>
        rw [hrun] at h
        cases h
        exact .slept hc hn
  | commit =>
    rw [Protocol.exec] at h
    split at h
    case h_1 c phase hc => exact Protocol.commitStep_step hc h
    case h_2 => cases h
  | leave c =>
    obtain ⟨hc, rfl⟩ := Option.ite_some_none_eq_some.mp h
    exact .left hc
  | read b =>
    rw [Protocol.exec] at h
    obtain ⟨hb, h⟩ := Option.ite_none_right_eq_some.mp h
    obtain ⟨_, m, hrun, rfl⟩ := Protocol.after_some h
    exact .read hb hrun
  | cache disk power accesses heap head allocs frees =>
    cases h
    exact .cached

/-! ### What a step does to the log -/

/-- Operation `c` has passed block `b` to `cache_sync`, and it returned. -/
def SyncedLog (c : Nat) (b : UInt64) (m m' : Machine) : Prop :=
  m.header.numBlocks < m.log.mx ∧
    (b ∈ m.header.entries ∧ SameLog m m' ∨
      ∃ hn, b ∉ m.header.entries ∧ 0 < (m.ctx c).rm ∧ m'.header = m.header.append hn b ∧
        m'.log = {m.log with mu := m.log.mu - 1} ∧
        m'.ctx = Function.update m.ctx c {m.ctx c with rm := (m.ctx c).rm - 1})

theorem cacheSync_log (hs : m.header.numBlocks ≤ logMaxSize) (hx : m.log.mx ≤ logMaxSize)
    (hrun : (cacheSync (some c) p).run m = .ok () m') : SyncedLog c (m.heap p).blockNo m m' := by
  obtain ⟨hroom, -, ⟨rfl, hmem⟩ | ⟨hn, hnot, hrm, rfl⟩⟩ := cacheSync_ok hs hx hrun
  · exact ⟨hroom, Or.inl ⟨hmem, rfl, rfl, rfl⟩⟩
  · exact ⟨hroom, Or.inr ⟨hn, hnot, hrm, rfl, rfl, rfl⟩⟩

theorem SyncedLog.congr {m1 m2 m3 : Machine} (h : SyncedLog c b m1 m2) (h1 : SameLog m m1) (h2 : SameLog m2 m3) :
    SyncedLog c b m m3 := by
  obtain ⟨hroom, hcases⟩ := h
  rw [h1.header, h1.log] at hroom
  refine ⟨hroom, ?_⟩
  rcases hcases with ⟨hmem, hsame⟩ | ⟨hn, hnot, hrm, hh, hl, hc⟩
  · exact Or.inl ⟨h1.header ▸ hmem, (h1.trans hsame).trans h2⟩
  · right
    rw [h1.ctx] at hrm hc
    rw [h1.log] at hl
    obtain ⟨hd, -, -⟩ := h1
    have hn' : m.header.numBlocks < logMaxSize := hd ▸ hn
    refine ⟨hn', hd ▸ hnot, hrm, ?_, h2.log.trans hl, h2.ctx.trans hc⟩
    rw [h2.header, hh]
    simp only [hd]

/-- The block that `cache_acquire` returns has the number asked for. -/
theorem cacheAcquire_blockNo (hrun : (cacheAcquire arena b).run m = .ok p m') : (m'.heap p).blockNo = b := by
  rcases cacheAcquire_cases arena b m with ⟨q, hl, hq⟩ | ⟨q, -, -, hq⟩ | ⟨-, q, -, hq⟩
  all_goals rw [hq] at hrun
  case inl =>
    cases hrun
    rw [hit_heap]
    exact (Machine.lookup_some hl).2
  case inr.inl => cases hrun
  case inr.inr =>
    cases hrun
    rw [missed_self]

theorem cacheUpdate_log {f : BlockData → BlockData} {x : Block} (hs : m.header.numBlocks ≤ logMaxSize)
    (hx : m.log.mx ≤ logMaxSize) (hrun : (cacheUpdate arena (some c) b f).run m = .ok x m') : SyncedLog c b m m' := by
  obtain ⟨p, m1, hacq, hrun⟩ := bind_eq_ok hrun
  have hframe := (cacheOnly_acquire arena b).of_ok hacq
  rw [bind_ok (get_run m1), bind_assoc, modifyData, bind_ok (modify_run _ m1)] at hrun
  obtain ⟨_, m3, hsync, hrun⟩ := bind_eq_ok hrun
  rw [bind_ok cacheRelease_run, pure_run] at hrun
  cases hrun
  have hno : ((m1.setBlock p fun x => {x with data := f x.data}).heap p).blockNo = b := by
    rw [Machine.setBlock_self]
    exact cacheAcquire_blockNo hacq
  have hlog := cacheSync_log (hframe.header ▸ hs) (hframe.log ▸ hx) hsync
  rw [hno] at hlog
  exact hlog.congr ⟨hframe.header, hframe.log, hframe.ctx⟩ ⟨rfl, rfl, rfl⟩

/-- The operations, as far as the log's accounts go. -/
structure Protocol.Ops where
  running : List Nat
  started : List Nat
  committer : Option (Nat × Phase)
  synced : List (Nat × UInt64)

def Protocol.ops (s : Protocol) : Protocol.Ops := ⟨s.running, s.started, s.committer, s.synced⟩

/-- What a step can do to the log and its operations. -/
inductive LogStep (s s' : Protocol) : Prop
  | begun (c : Nat) (hc : c ∉ s.started) (ha : s.m.Admits) (hm : SameLog (s.m.begun c) s'.m)
      (ho : s'.ops = ⟨c :: s.running, c :: s.started, s.committer, s.synced⟩)
  | synced (c : Nat) (b : UInt64) (hc : c ∈ s.running) (hm : SyncedLog c b s.m s'.m)
      (ho : s'.ops = ⟨s.running, s.started, s.committer, (c, b) :: s.synced⟩)
  | ended (c : Nat) (hc : c ∈ s.running) (hn : s.m.log.outstanding ≠ 1)
      (hm : SameLog (s.m.ended c) s'.m)
      (ho : s'.ops = ⟨s.running.erase c, s.started, s.committer, s.synced⟩)
  | closed (c : Nat) (hc : c ∈ s.running) (hn : s.m.log.outstanding = 1)
      (hm : SameLog (s.m.ended c).closed s'.m)
      (ho : s'.ops = ⟨s.running.erase c, s.started, some (c, .start), s.synced⟩)
  | worked (c : Nat) (phase phase' : Phase) (hc : s.committer = some (c, phase)) (hm : SameLog s.m s'.m)
      (ho : s'.ops = ⟨s.running, s.started, some (c, phase'), s.synced⟩)
  | cleared (c : Nat) (hc : s.committer = some (c, .clearing))
      (hm : SameLog {s.m with header := {s.m.header with numBlocks := 0}} s'.m)
      (ho : s'.ops = ⟨s.running, s.started, some (c, .closing), s.synced⟩)
  | finished (c : Nat) (hc : s.committer = some (c, .finishing))
      (hm : SameLog {s.m with log := {s.m.log with committing := 0}} s'.m)
      (ho : s'.ops = ⟨s.running, s.started, none, s.synced⟩)
  | quiet (hm : SameLog s.m s'.m) (ho : s'.ops = s.ops)

theorem cacheOnly_read (arena : Arena) (b : UInt64) : Respects CacheOnly (cacheRead arena b) := by
  refine (cacheOnly_acquire arena b).bind fun p m => ?_
  rw [bind_ok (get_run m), bind_ok (pure_run _ m)]
  exact ((cacheOnly_release p).bind fun _ => Respects.pure _) m

/-- What a step does, seen from a log within its limits. -/
theorem Protocol.Step.logStep {e : Event} (h : s.Step sb arena e s') (hs : s.m.header.numBlocks ≤ logMaxSize)
    (hx : s.m.log.mx ≤ logMaxSize) : LogStep s s' := by
  cases h with
  | begun hc ha => exact .begun _ hc ha ⟨rfl, rfl, rfl⟩ rfl
  | refused | left | cached => exact .quiet ⟨rfl, rfl, rfl⟩ rfl
  | synced hc hrun => exact .synced _ _ hc (cacheSync_log hs hx hrun) rfl
  | updated hc _ hrun => exact .synced _ _ hc (cacheUpdate_log hs hx hrun) rfl
  | slept hc hn => exact .ended _ hc hn ⟨rfl, rfl, rfl⟩ rfl
  | closed hc hn => exact .closed _ hc hn ⟨rfl, rfl, rfl⟩ rfl
  | opened hc | written hc | home hc => exact .worked _ _ _ hc ⟨rfl, rfl, rfl⟩ rfl
  | wrote hc _ hrun => exact .worked _ _ _ hc ((cacheOnly_writeLogBlock sb arena _).of_ok hrun).toSameLog rfl
  | sealed hc hrun | emptied hc hrun => exact .worked _ _ _ hc ((cacheOnly_writeHeader sb).of_ok hrun).toSameLog rfl
  | installed hc _ hrun =>
    exact .worked _ _ _ hc ((cacheOnly_installBlock sb arena false _).of_ok hrun).toSameLog rfl
  | cleared hc => exact .cleared _ hc ⟨rfl, rfl, rfl⟩ rfl
  | finished hc => exact .finished _ hc ⟨rfl, rfl, rfl⟩ rfl
  | read _ hrun => exact .quiet ((cacheOnly_read arena _).of_ok hrun).toSameLog rfl

end OS2021.Fs
