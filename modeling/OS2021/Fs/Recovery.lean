import OS2021.Fs.Commit

/-! Recovery: `init_bcache` on the disk a crash left.

Recovery may itself be cut short, and then again. Each attempt starts from a
disk that will be recovered to `S` and leaves one (`initBcache_recovers`), so
any number of attempts does (`reboots_recoverable`). -/
namespace OS2021.Fs
open Lib

attribute [local irreducible] blockSector

variable {sb : SuperBlock} {arena : Arena} {m m' : Machine} {b : UInt64} {t : Nat}
  {disk S : UInt64 → BlockData} {h : LogHeader}

/-! ### One iteration -/

/-- During recovery no cached block is dirty or pinned. -/
structure Replaying (sb : SuperBlock) (m : Machine) : Prop where
  cached : Cached sb [] [] m
  unpinned : Unpinned m

theorem replayBlock_step (arena : Arena) (hr : Replaying sb m) (ht : t < logMaxSize)
    (hne : logBlock sb t ≠ m.header.blockNo ⟨t, ht⟩) :
    Ends (fun _ m' => Replaying sb m' ∧
        Wrote (blockSector (m.header.blockNo ⟨t, ht⟩)) (m.disk (blockSector (logBlock sb t))) m m')
      (Offline m) ((installBlock sb arena true t).run m) := by
  rw [installBlock_run arena true ht, ← hr.cached.view_clean List.not_mem_nil (logBlock_ne_header ht)]
  refine (copyBlock_spec arena true hr.cached hne (Or.inr (Or.inr hr.unpinned)) fun _ => List.not_mem_nil).mono
    ?_ fun _ _ he => he
  exact fun _ m' hc => ⟨⟨hc.cached, hc.unpinned hr.unpinned⟩, hc.wrote⟩

/-- Copying a block onto itself waits for a lock its own thread holds. -/
theorem copyBlock_same (arena : Arena) {dirty : List UInt64} (unpin : Bool) (hc : Cached sb dirty [] m) :
    ∃ e m', (copyBlock arena unpin b b).run m = .error e m' := by
  obtain ⟨p, m1, hrun, ha⟩ := cacheAcquire_idle arena hc b
  have hp : p ∈ m1.head := ha.cached.linked p (List.mem_singleton_self p)
  have hlock : (m1.heap p).locked = true := (ha.cached.locked p hp).mpr (List.mem_singleton_self p)
  have hl : m1.lookup b = some p := ha.blockNo ▸ ha.cached.lookup hp
  rw [copyBlock, bind_ok hrun, bind_error (cacheAcquire_held arena hl hlock)]
  exact ⟨_, _, rfl⟩

/-- An iteration that returns leaves a machine that can do the next. -/
theorem replayBlock_returns (arena : Arena) (hr : Replaying sb m) (t : Nat) :
    Ends (fun _ m' => Replaying sb m' ∧ m'.header = m.header ∧ m'.log = m.log ∧ m'.ctx = m.ctx)
      (fun _ _ => True) ((installBlock sb arena true t).run m) := by
  by_cases ht : t < logMaxSize
  · by_cases hne : logBlock sb t = m.header.blockNo ⟨t, ht⟩
    · obtain ⟨e, m', hrun⟩ := copyBlock_same arena (b := logBlock sb t) true hr.cached
      rw [installBlock_run arena true ht, ← hne, hrun]
      exact .error trivial
    · exact (replayBlock_step arena hr ht hne).mono
        (fun _ _ ⟨hr', hw⟩ => ⟨hr', hw.header, hw.log, hw.ctx⟩) fun _ _ _ => trivial
  · obtain ⟨p, m1, hrun, -⟩ := cacheAcquire_idle arena hr.cached (logBlock sb t)
    have hfault : (headerEntry t).run m1 = .error .fault m1 := by
      rw [headerEntry, bind_ok (get_run m1), dif_neg ht, throw_run]
    rw [installBlock, bind_ok hrun, bind_error hfault]
    exact .error trivial

/-- The replay of a whole transaction has done `t` iterations. -/
structure Replayed (sb : SuperBlock) (S : UInt64 → BlockData) (t : Nat) (m : Machine) : Prop
    extends Replaying sb m where
  logged : Logged sb S m.header m.disk
  installed : Installed S m.header t m.disk

theorem Replayed.step (arena : Arena) (hr : Replayed sb S t m) (hn : t < m.header.numBlocks) :
    Ends (fun _ m' => Replayed sb S (t + 1) m' ∧ Kept m m') (Offline m)
      ((installBlock sb arena true t).run m) := by
  have hfits := hr.logged.fits
  have ht := hfits.lt hn
  have hmem := m.header.mem_entries ht hn
  have hne : logBlock sb t ≠ m.header.blockNo ⟨t, ht⟩ :=
    ((hfits.outside _ hmem).2 t (lt_of_lt_of_le hn hfits.sized)).symm
  refine (replayBlock_step arena hr.toReplaying ht hne).mono ?_ fun _ _ he => he
  intro _ m' hres
  obtain ⟨hr', hw⟩ := hres
  rw [hr.logged.slots t ht hn] at hw
  refine ⟨⟨hr', ?_, ?_⟩, hw.kept⟩
  · rw [hw.disk, hw.header]
    exact hr.logged.write_home hmem _
  · rw [hw.disk, hw.header]
    exact hr.installed.write_home ht

/-! ### `init_bcache` -/

theorem installTrans_returns (arena : Arena) (hr : Replaying sb m) :
    Ends (fun _ m' => Replaying sb m' ∧ m'.log = m.log) (fun _ _ => True)
      ((installTrans sb arena true).run m) := by
  rw [installTrans, bind_ok (get_run m)]
  refine Triple.forM_range (I := fun _ m' => Replaying sb m' ∧ m'.log = m.log) (fun i _ m' hres => ?_) m ⟨hr, rfl⟩
  obtain ⟨hr', hlog⟩ := hres
  refine (replayBlock_returns arena hr' _).mono ?_ fun _ _ _ => trivial
  exact fun _ _ hq => ⟨hq.1, hq.2.2.1.trans hlog⟩

theorem installTrans_replays (arena : Arena) (hr : Replayed sb S 0 m) :
    Ends (fun _ m' => Replayed sb S m'.header.numBlocks m' ∧ m'.log = m.log ∧ m.power ≤ m'.power + logMx sb)
      (fun e m' => e = .offline ∧ m.power ≤ logMx sb ∧ Recoverable sb S m'.disk)
      ((installTrans sb arena true).run m) := by
  have hsized := hr.logged.fits.sized
  rw [installTrans, bind_ok (get_run m)]
  refine (Triple.forM_range
    (I := fun t m' => Replayed sb S t m' ∧ m'.header = m.header ∧ m'.log = m.log ∧ m'.power + t = m.power)
    (fun i hi m' hres => ?_) m ⟨hr, rfl, rfl, rfl⟩).mono ?_ fun _ _ he => he
  case refine_2 =>
    intro _ m' hres
    obtain ⟨hr', hh, hlog, hpower⟩ := hres
    exact ⟨hh ▸ hr', hlog, by omega⟩
  · obtain ⟨hr', hh, hlog, hpower⟩ := hres
    refine (hr'.step arena (by rw [hh]; exact hi)).mono ?_ ?_
    · intro _ m'' hres
      obtain ⟨hr'', hk⟩ := hres
      have := hk.power
      exact ⟨hr'', hk.header.trans hh, hk.log.trans hlog, by omega⟩
    · intro e m'' hres
      obtain ⟨rfl, hzero, hdisk⟩ := hres
      exact ⟨rfl, by omega, ⟨_, hdisk ▸ hr'.logged⟩⟩

/-- With the replay done the header is emptied, first in memory. -/
theorem Replaying.clear (hr : Replaying sb m) (hhome : ∀ b, OutsideLog sb b → m.disk (blockSector b) = S b) :
    Cleared sb S {m with header := {m.header with numBlocks := 0}} := by
  refine ⟨⟨hr.cached.congr rfl rfl rfl, ⟨Nat.zero_le _, nofun⟩, fun b hb => ?_⟩, rfl, hhome⟩
  rw [← hhome b hb, ← hr.cached.view_clean List.not_mem_nil hb.1]
  exact view_congr rfl rfl rfl

/-- `recover_from_log` after it has read the header. -/
def replay (sb : SuperBlock) (arena : Arena) : M Unit := do
  installTrans sb arena true
  clearHeader
  writeHeader sb

theorem replay_spec (arena : Arena) (hr : Replayed sb S 0 m) :
    Ends (fun _ m' => Idle sb S m' ∧ m'.log = m.log)
      (fun e m' => e = .offline ∧ m.power ≤ logMx sb ∧ Recoverable sb S m'.disk)
      ((replay sb arena).run m) := by
  refine (installTrans_replays arena hr).bind ?_
  intro _ m1 _ hres
  obtain ⟨hr1, hlog, hpower⟩ := hres
  rw [clearHeader, bind_ok (modify_run _ m1)]
  refine (hr1.clear fun b => hr1.logged.all_home hr1.installed).finish.mono ?_ ?_
  · intro _ m' hres
    exact ⟨hres.1, hres.2.1.log.trans hlog⟩
  · intro e m' hres
    obtain ⟨rfl, hzero, hdisk⟩ := hres
    have hzero' : m1.power = 0 := hzero
    exact ⟨rfl, by omega, ⟨_, hdisk ▸ hr1.logged⟩⟩

/-- A replay that returns leaves an idle machine that shows the disk. -/
theorem replay_returns (hr : Replaying sb m) (hrun : (replay sb arena).run m = .ok () m') :
    Idle sb (fun b => m'.disk (blockSector b)) m' ∧ Unpinned m' ∧ m'.log = m.log := by
  obtain ⟨_, m1, hloop, hrest⟩ := bind_eq_ok hrun
  obtain ⟨hr1, hlog⟩ := (installTrans_returns arena hr).of_ok hloop
  rw [clearHeader, bind_ok (modify_run _ m1)] at hrest
  obtain ⟨hidle, hk, hhead, hheap⟩ := (hr1.clear fun _ _ => rfl).finish.of_ok hrest
  refine ⟨⟨⟨hidle.live.cached, hidle.live.fits, fun b hb => ?_⟩, hidle.empty, hidle.settled.header,
    fun _ _ => rfl⟩, ?_, hk.log.trans hlog⟩
  · rw [hidle.live.view b hb, hidle.settled.home b hb]
  · intro p hp
    rw [hheap]
    exact hr1.unpinned p (hhead ▸ hp)

/-- The machine when `recover_from_log` has read the header. -/
def replayStart (sb : SuperBlock) (disk : UInt64 → BlockData) (power : Nat) : Machine :=
  { boot disk power with
    accesses := [⟨false, .header, headerSector sb⟩]
    header := LogHeader.ofBytes (disk (headerSector sb))
    log := ⟨0, 0, 0, logMx sb⟩ }

theorem initBcache_run (arena : Arena) (power : Nat) :
    (initBcache sb arena).run (boot disk power) = (replay sb arena).run (replayStart sb disk power) := by
  rw [initBcache, bind_ok (modify_run _ _), recoverFromLog, readHeader, bind_ok (modify_run _ _)]
  rfl

theorem replayStart_replaying (sb : SuperBlock) (disk : UInt64 → BlockData) (power : Nat) :
    Replaying sb (replayStart sb disk power) := by
  refine ⟨⟨List.nodup_nil, ?_, ?_, ?_, ?_, ?_, ?_, ?_, ?_⟩, ?_⟩ <;> intro _ hp <;> cases hp

theorem initBcache_returns {power : Nat} (hrun : (initBcache sb arena).run (boot disk power) = .ok () m) :
    Idle sb (fun b => m.disk (blockSector b)) m ∧ Unpinned m ∧ m.log = ⟨0, 0, 0, logMx sb⟩ := by
  rw [initBcache_run] at hrun
  exact replay_returns (replayStart_replaying sb disk power) hrun

theorem replayStart_replayed (power : Nat) (hl : Logged sb S h disk) :
    Replayed sb S 0 (replayStart sb disk power) := by
  have hheader : (replayStart sb disk power).header = h := hl.header
  refine ⟨replayStart_replaying sb disk power, ?_, ?_⟩
  · rw [hheader]
    exact hl
  · exact fun i _ hi => absurd hi (Nat.not_lt_zero i)

/-- **Recovery.** On a disk that is to be recovered to `S`, `init_bcache` restores `S` and
empties the log, or loses power and leaves such a disk; with power for one write
per slot of the log and one for the header it returns. -/
theorem initBcache_recovers (arena : Arena) (power : Nat) (hr : Recoverable sb S disk) :
    Ends (fun _ m' => Idle sb S m' ∧ m'.log = ⟨0, 0, 0, logMx sb⟩)
      (fun e m' => e = .offline ∧ power ≤ logMx sb ∧ Recoverable sb S m'.disk)
      ((initBcache sb arena).run (boot disk power)) := by
  obtain ⟨h, hl⟩ := hr
  rw [initBcache_run]
  exact replay_spec arena (replayStart_replayed power hl)

/-- A machine that has booted from a disk of zeros. -/
def booted : Machine := final ((initBcache .mkfs .next).run (boot (fun _ _ => 0) 9))

theorem booted_run : (initBcache .mkfs .next).run (boot (fun _ _ => 0) 9) = .ok () booted :=
  eq_ok_of_returned (by decide +kernel)

end OS2021.Fs
