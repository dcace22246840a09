import OS2021.Fs.Calls

/-! Whole runs of the cache's users.

A session is a machine with the operations that are open on it and the updates
made so far, cut into the groups that were committed and the one that is open.
`crash_atomic` is about the disk wherever a session is cut short;
`acquire_refines` is about the blocks its users see. -/
namespace OS2021.Fs
open Lib

attribute [local irreducible] blockSector

structure Session where
  m : Machine
  /-- The operations that have begun and not ended. -/
  running : List Nat
  /-- The groups whose commit has returned. -/
  committed : List (List Update)
  /-- The updates since. -/
  pending : List Update

/-- All updates so far. -/
def Session.updates (s : Session) : List Update := s.committed.flatten ++ s.pending

def Session.start (m : Machine) : Session := ⟨m, [], [], []⟩

inductive Call where
  | beginOp (c : Nat)
  | endOp (c : Nat)
  | update (c : Option Nat) (u : Update)
  | read (b : UInt64)

/-- Not an update that goes past the log. -/
def Call.InLog : Call → Prop
  | .update none _ => False
  | _ => True

section Runs
variable (sb : SuperBlock) (arena : Arena)

/-- The calls that may be made: operations are begun once and ended once, and blocks
of the log are left to the log. -/
def Session.Legal (s : Session) : Call → Prop
  | .beginOp c => c ∉ s.running
  | .endOp c => c ∈ s.running
  | .update c u => (∀ o ∈ c, o ∈ s.running) ∧ OutsideLog sb u.block
  | .read b => OutsideLog sb b

instance (s : Session) : (k : Call) → Decidable (s.Legal sb k)
  | .beginOp c => inferInstanceAs (Decidable (c ∉ s.running))
  | .endOp c => inferInstanceAs (Decidable (c ∈ s.running))
  | .update c u => inferInstanceAs (Decidable ((∀ o ∈ c, o ∈ s.running) ∧ OutsideLog sb u.block))
  | .read b => inferInstanceAs (Decidable (OutsideLog sb b))

/-- An operation asleep in `begin_op` has not begun and will try again; one asleep in
`end_op` has ended. Any other stop is the end of the run. -/
def Session.perform (s : Session) : Call → EStateM.Result Halt Session Unit
  | .beginOp c =>
    match (cacheBeginOp c).run s.m with
    | .ok _ m => .ok () {s with m, running := c :: s.running}
    | .error _ m => .ok () {s with m}
  | .endOp c =>
    match (cacheEndOp sb arena c).run s.m with
    | .ok _ m =>
      .ok () {s with m, running := s.running.erase c, committed := s.committed ++ [s.pending], pending := []}
    | .error (.asleep .outstanding) m => .ok () {s with m, running := s.running.erase c}
    | .error e m => .error e {s with m}
  | .update c u =>
    match (cacheUpdate arena c u.block u.change).run s.m with
    | .ok _ m => .ok () {s with m, pending := s.pending ++ [u]}
    | .error e m => .error e {s with m}
  | .read b =>
    match (cacheRead arena b).run s.m with
    | .ok _ m => .ok () {s with m}
    | .error e m => .error e {s with m}

/-- A call that may not be made is left out of the run. -/
def call (k : Call) : EStateM Halt Session Unit :=
  fun s => if s.Legal sb k then s.perform sb arena k else .ok () s

def runCalls (ks : List Call) : EStateM Halt Session Unit := ks.forM (call sb arena)

/-- The disk after boots cut short by the given amounts of power. -/
def reboots : List Nat → (UInt64 → BlockData) → UInt64 → BlockData
  | [], disk => disk
  | power :: rest, disk => reboots rest (final ((initBcache sb arena).run (boot disk power))).disk

end Runs

variable {sb : SuperBlock} {arena : Arena} {s s' : Session} {k : Call} {S0 stable : UInt64 → BlockData}

/-! ### What every call keeps -/

/-- The users see the updates made so far; the disk holds `stable`. -/
structure Sound (sb : SuperBlock) (S0 stable : UInt64 → BlockData) (s : Session) : Prop where
  live : Live sb (contents S0 s.updates) s.m
  settled : Settled sb stable s.m.disk
  mx : s.m.log.mx = logMx sb

/-- The disk is as it was, or it has been brought up to date by a commit. -/
def Advanced (S0 stable stable' : UInt64 → BlockData) (s s' : Session) : Prop :=
  s'.committed = s.committed ∧ stable' = stable ∨
    s'.committed = s.committed ++ [s.pending] ∧ s'.pending = [] ∧ stable' = contents S0 s.updates

/-- The run has stopped; what a reboot will find. -/
structure Stopped (sb : SuperBlock) (S0 stable : UInt64 → BlockData) (s : Session) (e : Halt) (s' : Session) :
    Prop where
  committed : s'.committed = s.committed
  pending : s'.pending = s.pending
  disk : Recoverable sb stable s'.m.disk ∨ e = .offline ∧ Recoverable sb (contents S0 s.updates) s'.m.disk

theorem updates_push (s : Session) (m : Machine) (u : Update) :
    ({s with m, pending := s.pending ++ [u]} : Session).updates = s.updates ++ [u] :=
  (List.append_assoc ..).symm

theorem updates_commit (s : Session) (m : Machine) (running : List Nat) :
    (⟨m, running, s.committed ++ [s.pending], []⟩ : Session).updates = s.updates := by
  simp [Session.updates]

section
variable (hs : Sound sb S0 stable s)
include hs

theorem Sound.stopped {e : Halt} {m : Machine} (hd : m.disk = s.m.disk) : Stopped sb S0 stable s e {s with m} :=
  ⟨rfl, rfl, Or.inl (by rw [hd]; exact hs.settled.recoverable)⟩

/-- The call has left the disk alone. -/
def Unwritten (sb : SuperBlock) (S0 stable : UInt64 → BlockData) (s s' : Session) : Prop :=
  Sound sb S0 stable s' ∧ s'.committed = s.committed

theorem perform_beginOp (c : Nat) :
    Ends (fun _ => Unwritten sb S0 stable s) (Stopped sb S0 stable s) (s.perform sb arena (.beginOp c)) := by
  rcases cacheBeginOp_run (c := c) (m := s.m) with ⟨hrun, -⟩ | ⟨hrun, -⟩
  · simp only [Session.perform, hrun]
    exact .ok ⟨⟨hs.live.congr rfl rfl rfl rfl, hs.settled, hs.mx⟩, rfl⟩
  · simp only [Session.perform, hrun]
    exact .ok ⟨hs, rfl⟩

theorem perform_read {b : UInt64} (hb : OutsideLog sb b) :
    Ends (fun _ => Unwritten sb S0 stable s) (Stopped sb S0 stable s) (s.perform sb arena (.read b)) := by
  obtain ⟨x, m', hrun, -, hlive, hframe⟩ := cacheRead_spec arena hs.live hb
  simp only [Session.perform, hrun]
  refine .ok ⟨⟨hlive, ?_, ?_⟩, rfl⟩
  · rw [hframe.disk]
    exact hs.settled
  · rw [hframe.log]
    exact hs.mx

theorem perform_update (c : Nat) {u : Update} (hb : OutsideLog sb u.block) :
    Ends (fun _ => Unwritten sb S0 stable s) (Stopped sb S0 stable s)
      (s.perform sb arena (.update (some c) u)) := by
  have hspec := cacheUpdate_spec arena c u.change hs.live hb hs.mx
  cases hrun : (cacheUpdate arena (some c) u.block u.change).run s.m with
  | ok x m' =>
    obtain ⟨-, hlive, hdisk, hmx⟩ := hspec.of_ok hrun
    simp only [Session.perform, hrun]
    refine .ok ⟨⟨?_, ?_, hmx.trans hs.mx⟩, rfl⟩
    · rw [updates_push, contents_append]
      exact hlive
    · rw [hdisk]
      exact hs.settled
  | error e m' =>
    simp only [Session.perform, hrun]
    exact .error (hs.stopped (hspec.of_error hrun).2)

theorem perform_store {u : Update} (hb : OutsideLog sb u.block) :
    Ends (fun _ s' => ∃ stable', Sound sb S0 stable' s') (Stopped sb S0 stable s)
      (s.perform sb arena (.update none u)) := by
  have hspec := cacheUpdate_through arena u.change hs.live hb
  cases hrun : (cacheUpdate arena none u.block u.change).run s.m with
  | ok x m' =>
    obtain ⟨-, hlive, hdisk, hlog⟩ := hspec.of_ok hrun
    simp only [Session.perform, hrun]
    refine .ok ⟨fun b => m'.disk (blockSector b), ?_, ⟨?_, fun _ _ => rfl⟩, ?_⟩
    · rw [updates_push, contents_append]
      exact hlive
    · rw [hdisk, Function.update_of_ne hb.1.symm]
      exact hs.settled.header
    · rw [hlog]
      exact hs.mx
  | error e m' =>
    simp only [Session.perform, hrun]
    exact .error (hs.stopped (hspec.of_error hrun).2.2)

theorem perform_endOp (c : Nat) :
    Ends (fun _ s' => ∃ stable', Sound sb S0 stable' s' ∧ Advanced S0 stable stable' s s')
      (Stopped sb S0 stable s) (s.perform sb arena (.endOp c)) := by
  have hspec := cacheEndOp_spec arena c hs.live hs.settled
  cases hrun : (cacheEndOp sb arena c).run s.m with
  | ok x m' =>
    obtain ⟨hidle, -, hlog, -⟩ := hspec.of_ok hrun
    simp only [Session.perform, hrun]
    refine .ok ⟨contents S0 s.updates, ⟨?_, hidle.settled, ?_⟩, Or.inr ⟨rfl, rfl, rfl⟩⟩
    · rw [updates_commit]
      exact hidle.live
    · rw [hlog]
      exact hs.mx
  | error e m' =>
    rcases hspec.of_error hrun with ⟨rfl, rfl⟩ | ⟨⟨msg, rfl⟩, hdisk⟩ | ⟨rfl, hdisk⟩
    · simp only [Session.perform, hrun]
      exact .ok ⟨stable, ⟨hs.live.congr rfl rfl rfl rfl, hs.settled, hs.mx⟩, Or.inl ⟨rfl, rfl⟩⟩
    · simp only [Session.perform, hrun]
      exact .error (hs.stopped hdisk)
    · simp only [Session.perform, hrun]
      exact .error ⟨rfl, rfl, hdisk.imp id fun hd => ⟨rfl, hd⟩⟩

end

/-- One call of a run. -/
theorem call_spec (arena : Arena) (hs : Sound sb S0 stable s) (k : Call) :
    Ends (fun _ s' => ∃ stable', Sound sb S0 stable' s' ∧ (k.InLog → Advanced S0 stable stable' s s'))
      (Stopped sb S0 stable s) ((call sb arena k).run s) := by
  show Ends _ _ (if s.Legal sb k then s.perform sb arena k else .ok () s)
  have hquiet : ∀ s', Unwritten sb S0 stable s s' →
      ∃ stable', Sound sb S0 stable' s' ∧ (k.InLog → Advanced S0 stable stable' s s') :=
    fun s' hu => ⟨stable, hu.1, fun _ => Or.inl ⟨hu.2, rfl⟩⟩
  split
  case isFalse => exact .ok (hquiet s ⟨hs, rfl⟩)
  case isTrue hlegal =>
    match k, hlegal with
    | .beginOp c, _ => exact (perform_beginOp hs c).mono (fun _ => hquiet) fun _ _ he => he
    | .endOp c, _ =>
      exact (perform_endOp hs c).mono (fun _ _ ⟨st, h, ha⟩ => ⟨st, h, fun _ => ha⟩) fun _ _ he => he
    | .update (some c) u, hb => exact (perform_update hs c hb.2).mono (fun _ => hquiet) fun _ _ he => he
    | .update none u, hb =>
      exact (perform_store hs hb.2).mono (fun _ _ ⟨st, h⟩ => ⟨st, h, nofun⟩) fun _ _ he => he
    | .read b, hb => exact (perform_read hs hb).mono (fun _ => hquiet) fun _ _ he => he

/-! ### Crashes -/

theorem Advanced.stable_eq {stable' : UInt64 → BlockData} (ha : Advanced S0 stable stable' s s')
    (hst : stable = contents S0 s.committed.flatten) : stable' = contents S0 s'.committed.flatten := by
  rcases ha with ⟨hc, hs⟩ | ⟨hc, -, hs⟩
  · rw [hs, hc, hst]
  · rw [hs, hc, List.flatten_append, List.flatten_singleton]
    rfl

/-- Whenever a run stops, a reboot finds the committed groups, or those and the open
one if the power went out. -/
theorem runCalls_crash (arena : Arena) (ks : List Call) (hks : ∀ k ∈ ks, k.InLog)
    (hs : Sound sb S0 (contents S0 s.committed.flatten) s) :
    Ends (fun _ s' => Recoverable sb (contents S0 s'.committed.flatten) s'.m.disk)
      (fun e s' => Recoverable sb (contents S0 s'.committed.flatten) s'.m.disk ∨
        e = .offline ∧ Recoverable sb (contents S0 s'.updates) s'.m.disk)
      ((runCalls sb arena ks).run s) := by
  have hloop := Triple.forM ks (call sb arena)
    (fun _ s' => Sound sb S0 (contents S0 s'.committed.flatten) s')
    (fun e s' => Recoverable sb (contents S0 s'.committed.flatten) s'.m.disk ∨
        e = .offline ∧ Recoverable sb (contents S0 s'.updates) s'.m.disk) ?_
  · exact (hloop s hs).mono (fun _ s' h => h.settled.recoverable) fun _ _ he => he
  · intro i hi s' hs'
    refine (call_spec arena hs' ks[i]).mono ?_ ?_
    · intro _ s'' hres
      obtain ⟨stable', hsound, hadv⟩ := hres
      rw [← (hadv (hks _ (List.getElem_mem hi))).stable_eq rfl]
      exact hsound
    · intro e s'' hstop
      rw [Session.updates, hstop.committed, hstop.pending]
      exact hstop.disk

theorem reboots_recoverable (arena : Arena) (attempts : List Nat) {S disk : UInt64 → BlockData}
    (hr : Recoverable sb S disk) : Recoverable sb S (reboots sb arena attempts disk) := by
  induction attempts generalizing disk with
  | nil => exact hr
  | cons power rest ih =>
    have hend : Ends (fun _ (m : Machine) => Recoverable sb S m.disk) (fun _ m => Recoverable sb S m.disk)
        ((initBcache sb arena).run (boot disk power)) :=
      (initBcache_recovers arena power hr).mono (fun _ _ h => h.1.settled.recoverable) fun _ _ h => h.2.2
    exact ih hend.final

/-- **Crash atomicity.** Boot, run any calls, lose power anywhere, and lose it again in
any number of recoveries: the recovery that completes restores the updates of the
first `k` groups and no others, and empties the log. Here `k` counts the groups whose
commit had returned, and one more only if the power went out in a commit. -/
theorem crash_atomic (sb : SuperBlock) (arena : Arena) {disk : UInt64 → BlockData} {power : Nat} {m0 : Machine}
    (hboot : (initBcache sb arena).run (boot disk power) = .ok () m0) (ks : List Call)
    (hks : ∀ k ∈ ks, k.InLog) {r : EStateM.Result Halt Session Unit}
    (hrun : (runCalls sb arena ks).run (.start m0) = r) :
    ∃ k, ((final r).committed.length = k ∨
        (final r).committed.length + 1 = k ∧ r = .error .offline (final r)) ∧
      ∀ (attempts : List Nat) (last : Nat),
        Ends (fun _ m => Settled sb (contents (fun b => m0.disk (blockSector b))
            (((final r).committed ++ [(final r).pending]).take k).flatten) m.disk)
          (fun e _ => e = .offline ∧ last ≤ logMx sb)
          ((initBcache sb arena).run (boot (reboots sb arena attempts (final r).m.disk) last)) := by
  obtain ⟨hidle, -, hlog⟩ := initBcache_returns hboot
  have hsound : Sound sb (fun b => m0.disk (blockSector b))
      (contents (fun b => m0.disk (blockSector b)) (Session.start m0).committed.flatten) (.start m0) :=
    ⟨hidle.live, hidle.settled, by rw [Session.start, hlog]⟩
  have hcrash := runCalls_crash arena ks hks hsound
  rw [hrun] at hcrash
  have hrecover : ∀ {S}, Recoverable sb S (final r).m.disk → ∀ attempts last,
      Ends (fun _ m => Settled sb S m.disk) (fun e _ => e = .offline ∧ last ≤ logMx sb)
        ((initBcache sb arena).run (boot (reboots sb arena attempts (final r).m.disk) last)) :=
    fun hr attempts last => (initBcache_recovers arena last (reboots_recoverable arena attempts hr)).mono
      (fun _ _ h => h.1.settled) fun _ _ h => ⟨h.1, h.2.1⟩
  have hold : Recoverable sb (contents (fun b => m0.disk (blockSector b)) (final r).committed.flatten)
      (final r).m.disk ∨ r = .error .offline (final r) ∧
        Recoverable sb (contents (fun b => m0.disk (blockSector b)) (final r).updates) (final r).m.disk := by
    cases hcrash with
    | ok h => exact Or.inl h
    | error h => exact h.imp id fun h => ⟨by rw [h.1]; rfl, h.2⟩
  rcases hold with hr | ⟨hoff, hr⟩
  · refine ⟨_, Or.inl rfl, ?_⟩
    rw [List.take_left]
    exact hrecover hr
  · refine ⟨_, Or.inr ⟨rfl, hoff⟩, ?_⟩
    rw [List.take_of_length_le (by simp), List.flatten_append, List.flatten_singleton]
    exact hrecover hr

/-- A fresh disk with power for three writes: one for the boot, and two for a commit that
needs four. -/
theorem crash_atomic_second_write :
    ∃ (m0 : Machine) (r : EStateM.Result Halt Session Unit),
      (initBcache .mkfs .next).run (boot (fun _ _ => 0) 3) = .ok () m0 ∧
      (runCalls .mkfs .next [.beginOp 0, .update (some 0) ⟨100, fun _ _ => 7⟩, .endOp 0]).run (.start m0) = r ∧
      returned r = false ∧
      ∃ k, ((final r).committed.length = k ∨
          (final r).committed.length + 1 = k ∧ r = .error .offline (final r)) ∧
        ∀ (attempts : List Nat) (last : Nat),
          Ends (fun _ m => Settled .mkfs (contents (fun b => m0.disk (blockSector b))
              (((final r).committed ++ [(final r).pending]).take k).flatten) m.disk)
            (fun e _ => e = .offline ∧ last ≤ logMx .mkfs)
            ((initBcache .mkfs .next).run (boot (reboots .mkfs .next attempts (final r).m.disk) last)) := by
  have hboot := eq_ok_of_returned
    (show returned ((initBcache .mkfs .next).run (boot (fun _ _ => 0) 3)) = true by decide +kernel)
  have hks : ∀ k ∈ [Call.beginOp 0, .update (some 0) ⟨100, fun _ _ => 7⟩, .endOp 0], k.InLog := by
    simp [Call.InLog]
  exact ⟨_, _, hboot, rfl, by decide +kernel, crash_atomic .mkfs .next hboot _ hks rfl⟩

/-! ### Reads -/

/-- **The cache refines an array of blocks.** Wherever a run has got to, acquiring a block
returns it with the contents the updates so far have given it. -/
theorem acquire_refines (sb : SuperBlock) (arena : Arena) {disk : UInt64 → BlockData} {power : Nat}
    {m0 : Machine} (hboot : (initBcache sb arena).run (boot disk power) = .ok () m0) (ks : List Call)
    {s : Session} (hrun : (runCalls sb arena ks).run (.start m0) = .ok () s) {b : UInt64}
    (hb : OutsideLog sb b) :
    ∃ p m', (cacheAcquire arena b).run s.m = .ok p m' ∧
      Shows b (contents (fun b => m0.disk (blockSector b)) s.updates b) (m'.heap p) := by
  obtain ⟨hidle, -, hlog⟩ := initBcache_returns hboot
  have hloop := Triple.forM ks (call sb arena)
    (fun _ s' => ∃ stable, Sound sb (fun b => m0.disk (blockSector b)) stable s') (fun _ _ => True) ?_
  · obtain ⟨stable, hs⟩ := (hloop (.start m0) ⟨_, hidle.live, hidle.settled, by rw [Session.start, hlog]⟩).of_ok hrun
    obtain ⟨p, m', hacq, -, hshow⟩ := hs.live.acquire arena hb
    exact ⟨p, m', hacq, hshow⟩
  · intro i hi s' hres
    obtain ⟨stable, hs⟩ := hres
    exact (call_spec arena hs ks[i]).mono (fun _ _ ⟨st, h, _⟩ => ⟨st, h⟩) fun _ _ _ => trivial

/-- A logged update, a commit, and an update that goes past the log. -/
theorem acquire_refines_two_updates :
    ∃ (m0 : Machine) (s : Session),
      (initBcache .mkfs .next).run (boot (fun _ _ => 0) 9) = .ok () m0 ∧
      (runCalls .mkfs .next [.beginOp 0, .update (some 0) ⟨100, fun _ _ => 7⟩, .endOp 0, .read 100,
        .update none ⟨100, fun d i => d i + 1⟩]).run (.start m0) = .ok () s ∧
      ∃ p m', (cacheAcquire .next 100).run s.m = .ok p m' ∧
        Shows 100 (contents (fun b => m0.disk (blockSector b)) s.updates 100) (m'.heap p) := by
  have hrun := eq_ok_of_returned
    (show returned ((runCalls .mkfs .next [.beginOp 0, .update (some 0) ⟨100, fun _ _ => 7⟩, .endOp 0, .read 100,
      .update none ⟨100, fun d i => d i + 1⟩]).run
        (.start booted)) = true by decide +kernel)
  exact ⟨_, _, booted_run, hrun, acquire_refines .mkfs .next booted_run _ hrun (by decide +kernel)⟩

end OS2021.Fs
