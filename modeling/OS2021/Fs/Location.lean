import OS2021.Fs.Client

/-! Where on the device the cache looks.

The partition starts at sector `0x20800`, and `device_read` and `device_write` add
that to a block number. `read_header` and `write_header` do not: the log header is
kept outside the partition, at sector `log_start` of the device. -/
namespace OS2021.Fs
open Lib

/-- The sector of an access, as `sd_read` and `sd_write` pass it on. -/
def Access.sector (a : Access) : UInt32 := a.number.toUInt32

/-- The access is to a block of the partition, and to block `log_start` if it is for the header. -/
structure Access.Located (sb : SuperBlock) (a : Access) : Prop where
  inside : ∃ k : UInt32, k < sb.numBlocks ∧ a.sector = 0x20800 + k
  header : a.target = .header → a.sector = 0x20800 + sb.logStart

/-- A run of the cache: a boot, and any calls if it returns. -/
inductive CacheRun (sb : SuperBlock) (arena : Arena) (disk : UInt64 → BlockData) (power : Nat) : Machine → Prop
  | booted : CacheRun sb arena disk power (final ((initBcache sb arena).run (boot disk power)))
  | calls {m0 : Machine} {s : Client} (hboot : (initBcache sb arena).run (boot disk power) = .ok () m0)
      (hreach : Reach (fun s op s' => s.exec sb arena op = some s') (fun _ _ => True) (.start m0) s) :
      CacheRun sb arena disk power s.m

/-! ### Accesses are never forgotten -/

/-- Every access of the one machine is one of the other. -/
def Extends (m m' : Machine) : Prop := m.accesses ⊆ m'.accesses

instance : Std.Refl Extends := ⟨fun _ => List.Subset.refl _⟩

instance : IsTrans Machine Extends := ⟨fun _ _ _ => List.Subset.trans⟩

theorem CacheOnly.extends {m m' : Machine} (h : CacheOnly m m') : Extends m m' := h.accesses

section Routines
variable (sb : SuperBlock) (arena : Arena)

theorem extends_acquire (b : UInt64) : Respects Extends (cacheAcquire arena b) :=
  (cacheOnly_acquire arena b).mono fun _ _ => CacheOnly.extends

theorem extends_release (p : Ptr) : Respects Extends (cacheRelease p) :=
  (cacheOnly_release p).mono fun _ _ => CacheOnly.extends

theorem extends_deviceWrite (p : Ptr) : Respects Extends (deviceWrite p) :=
  (cacheOnly_deviceWrite p).mono fun _ _ => CacheOnly.extends

theorem extends_modifyData (p : Ptr) (f : BlockData → BlockData) : Respects Extends (modifyData p f) :=
  .modify fun _ => List.Subset.refl _

theorem extends_writeHeader : Respects Extends (writeHeader sb) :=
  (cacheOnly_writeHeader sb).mono fun _ _ => CacheOnly.extends

theorem extends_installTrans (r : Bool) : Respects Extends (installTrans sb arena r) := fun m => by
  rw [installTrans, bind_ok (get_run m)]
  exact Respects.forM _ (fun t => (cacheOnly_installBlock sb arena r t).mono fun _ _ => CacheOnly.extends) m

theorem extends_clearHeader : Respects Extends clearHeader := .modify fun _ => List.Subset.refl _

theorem extends_commit : Respects Extends (commit sb arena) := fun m => by
  have hlog : Respects Extends (writeLog sb arena) := fun m => by
    rw [writeLog, bind_ok (get_run m)]
    exact Respects.forM _ (fun t => (cacheOnly_writeLogBlock sb arena t).mono fun _ _ => CacheOnly.extends) m
  rw [commit, bind_ok (get_run m)]
  split
  · exact (hlog.bind fun _ => (extends_writeHeader sb).bind fun _ => (extends_installTrans sb arena false).bind
      fun _ => extends_clearHeader.bind fun _ => extends_writeHeader sb) m
  · exact List.Subset.refl _

theorem extends_beginOp (c : Nat) : Respects Extends (cacheBeginOp c) := fun m => by
  rcases cacheBeginOp_run with ⟨hrun, -⟩ | ⟨hrun, -⟩
  all_goals rw [hrun]
  all_goals exact List.Subset.refl _

theorem extends_endOpLocked (c : Nat) : Respects Extends (cacheEndOpLocked c) := fun m => by
  rw [cacheEndOpLocked_run]
  split
  · exact List.Subset.refl _
  · split
    · exact List.Subset.refl _
    · exact List.Subset.refl _

theorem extends_endOp (c : Nat) : Respects Extends (cacheEndOp sb arena c) :=
  (extends_endOpLocked c).bind fun _ => (extends_commit sb arena).bind fun _ =>
    Respects.modify fun _ => List.Subset.refl _

theorem extends_chargeEntry (c : Nat) (p : Ptr) : Respects Extends (chargeEntry c p) := fun m => by
  rw [chargeEntry, bind_ok (modify_run _ m), bind_ok (get_run _)]
  split
  · exact List.Subset.refl _
  · exact List.Subset.refl _

section
variable (c : Option Nat)

theorem extends_sync (p : Ptr) : Respects Extends (cacheSync c p) := by
  cases c with
  | none => exact extends_deviceWrite p
  | some c =>
    intro m
    rw [cacheSync, bind_ok (get_run m)]
    dsimp only
    split
    · exact List.Subset.refl _
    split
    · exact List.Subset.refl _
    split
    · rw [bind_ok (set_run _ _)]
      split
      · refine trans_of Extends ?_ (extends_chargeEntry c p _)
        exact List.Subset.refl _
      · exact List.Subset.refl _
    · exact List.Subset.refl _

theorem extends_bzero (b : UInt64) : Respects Extends (bzero arena c b) :=
  (extends_acquire arena b).bind fun p => (extends_modifyData p _).bind fun _ =>
    (extends_sync c p).bind fun _ => extends_release p

theorem extends_allocIn (b : Nat) : Respects Extends (allocIn sb arena c b) := by
  refine (extends_acquire arena _).bind fun p m => ?_
  rw [bind_ok (get_run m)]
  split
  · exact ((extends_modifyData p _).bind fun _ => (extends_sync c p).bind fun _ =>
      (extends_release p).bind fun _ => (extends_bzero arena c _).bind fun _ => .pure _) m
  · exact ((extends_release p).bind fun _ => .pure _) m

theorem extends_alloc : Respects Extends (cacheAlloc sb arena c) := by
  suffices h : ∀ bs, Respects Extends (allocFrom sb arena c bs) from h _
  intro bs
  induction bs with
  | nil =>
    rw [allocFrom]
    split
    · exact .throw _
    · exact .throw _
  | cons b rest ih =>
    refine (extends_allocIn sb arena c b).bind fun r => ?_
    cases r with
    | some x => exact .pure x
    | none => exact ih

theorem extends_free (b : UInt64) : Respects Extends (cacheFree sb arena c b) := by
  refine (extends_acquire arena _).bind fun p m => ?_
  rw [bind_ok (get_run m)]
  dsimp only
  split
  · exact ((extends_modifyData p _).bind fun _ => (extends_sync c p).bind fun _ => extends_release p) m
  · exact List.Subset.refl _

end

theorem extends_replay : Respects Extends (replay sb arena) :=
  (extends_installTrans sb arena true).bind fun _ => extends_clearHeader.bind fun _ => extends_writeHeader sb

end Routines

variable {sb : SuperBlock} {arena : Arena}

theorem Client.Step.extends {s s' : Client} {op : Op} (hs : Client.Step sb arena s op s') :
    s.m.accesses ⊆ s'.m.accesses := by
  have hend : ∀ {α : Type} {x : M α}, Respects Extends x → ∀ r, x.run s.m = r →
      s.m.accesses ⊆ (final r).accesses := fun hx r hr => hr ▸ hx s.m
  cases hs with
  | acquired h | waits h => exact hend (extends_acquire arena _) _ h
  | resumed _ h => exact hend ((cacheOnly_lock _).mono fun _ _ => CacheOnly.extends) _ h
  | released _ h => exact hend (extends_release _) _ h
  | wrote _ h => exact hend (extends_modifyData _ _) _ h
  | began _ h => exact hend (extends_beginOp _) _ h
  | synced _ _ h => exact hend (extends_sync _ _) _ h
  | ended _ h | left _ h => exact hend (extends_endOp sb arena _) _ h
  | allocated _ h => exact hend (extends_alloc sb arena _) _ h
  | freed _ h => exact hend (extends_free sb arena _ _) _ h

/-! ### The header -/

theorem boot_reads_header (sb : SuperBlock) (arena : Arena) (disk : UInt64 → BlockData) (power : Nat) :
    ⟨false, .header, headerSector sb⟩ ∈ (final ((initBcache sb arena).run (boot disk power))).accesses := by
  have hstart : ⟨false, .header, headerSector sb⟩ ∈ (replayStart sb disk power).accesses :=
    List.mem_singleton_self _
  have hgrow := extends_replay sb arena (replayStart sb disk power)
  rw [initBcache_run]
  exact hgrow hstart

/-- Every run begins by reading the header at sector `log_start`. -/
theorem CacheRun.reads_header {disk : UInt64 → BlockData} {power : Nat} {m : Machine}
    (h : CacheRun sb arena disk power m) : ⟨false, .header, headerSector sb⟩ ∈ m.accesses := by
  have hfirst := boot_reads_header sb arena disk power
  cases h with
  | booted => exact hfirst
  | @calls m0 s hboot hreach =>
    rw [hboot] at hfirst
    exact hreach.invariant (I := fun s => ⟨false, .header, headerSector sb⟩ ∈ s.m.accesses) hfirst
      fun _ _ _ h _ hs => (Client.exec_step hs).extends h

theorem logStart_ne (sb : SuperBlock) : sb.logStart ≠ 0x20800 + sb.logStart := by
  intro h
  have hnat := congrArg UInt32.toNat h
  rw [UInt32.toNat_add] at hnat
  have hoff : (0x20800 : UInt32).toNat = 0x20800 := rfl
  omega

/-- **The log header is never where it belongs**: no run of the cache keeps to the partition. -/
theorem header_misplaced (sb : SuperBlock) (arena : Arena) (disk : UInt64 → BlockData) (power : Nat)
    {m : Machine} (h : CacheRun sb arena disk power m) : ¬ ∀ a ∈ m.accesses, a.Located sb := by
  intro hall
  have hheader := (hall _ h.reads_header).header rfl
  have hsector : (⟨false, .header, headerSector sb⟩ : Access).sector = sb.logStart :=
    UInt32.toUInt32_toUInt64 sb.logStart
  rw [hsector] at hheader
  exact logStart_ne sb hheader

/-- Booting from a disk of zeros. -/
theorem header_misplaced_fresh : CacheRun .mkfs .next (fun _ _ => 0) 9
      (final ((initBcache .mkfs .next).run (boot (fun _ _ => 0) 9))) ∧
    ¬ ∀ a ∈ (final ((initBcache .mkfs .next).run (boot (fun _ _ => 0) 9))).accesses, a.Located .mkfs :=
  ⟨.booted, header_misplaced .mkfs .next _ 9 .booted⟩

/-- A freshly made partition, with one file block of sevens at block 500; sector 2 of the
device, outside the partition, has bytes that read as a header with one entry. -/
def strayDisk (n : UInt64) : BlockData :=
  if n = 2 then LogHeader.toBytes ⟨1, fun _ => 500⟩
  else if n = blockSector 500 then fun _ => 7
  else fun _ => 0

/-- The block reserved for the header is zero, and yet recovery reads a transaction, from
outside the partition, and overwrites the file block. -/
theorem stray_header_replayed : strayDisk (0x20800 + 2) = (fun _ => 0) ∧ ∃ m,
    (initBcache .mkfs .next).run (boot strayDisk 9) = .ok () m ∧
    (∃ a ∈ m.accesses, ¬ a.Located .mkfs) ∧ m.disk (blockSector 500) 0 = 0 ∧
    strayDisk (blockSector 500) 0 = 7 := by
  have hboot := eq_ok_of_returned
    (show returned ((initBcache .mkfs .next).run (boot strayDisk 9)) = true by decide +kernel)
  have hzero : strayDisk (0x20800 + 2) = fun _ => 0 := by
    rw [strayDisk, if_neg (by decide), if_neg (by decide)]
  have hread := boot_reads_header .mkfs .next strayDisk 9
  refine ⟨hzero, _, hboot, ⟨_, hread, fun ha => ?_⟩, by decide +kernel, by decide +kernel⟩
  exact logStart_ne .mkfs (ha.header rfl)

end OS2021.Fs
