import OS2021.Fs.CacheSpec

/-! What one iteration of the log's loops does.

`write_log` copies a home block to its log slot and `install_trans` copies it
back; both acquire the source, acquire the destination, copy and write. That is
`copyBlock`, and `copyBlock_spec` says what it leaves, on either way out. -/
namespace OS2021.Fs
open Lib

-- comparing sector numbers by unfolding them takes the addition apart
attribute [local irreducible] blockSector

variable {sb : SuperBlock} {dirty : List UInt64} {held held' : List Ptr} {m m' : Machine} {p : Ptr} {b : UInt64}

/-- The body of both loops; `unpin` is what recovery does to the destination. -/
def copyBlock (arena : Arena) (unpin : Bool) (src dst : UInt64) : M Unit := do
  let p ← cacheAcquire arena src
  let q ← cacheAcquire arena dst
  copyData q p
  deviceWrite q
  modify fun m => if unpin then m.unpin q else m
  cacheRelease p
  cacheRelease q

/-- Acquiring the destination cannot push the source out of the cache. -/
def Keeps (dirty : List UInt64) (src dst : UInt64) (m : Machine) : Prop :=
  src ∈ dirty ∨ dst ∈ dirty ∨ Unpinned m

structure Copied (sb : SuperBlock) (dirty : List UInt64) (src dst : UInt64) (m m' : Machine) : Prop where
  cached : Cached sb dirty [] m'
  disk : m'.disk = Function.update m.disk (blockSector dst) (m.view src)
  view : ∀ b, blockSector b ≠ headerSector sb → m'.view b = if b = dst then m.view src else m.view b
  power : m'.power + 1 = m.power
  header : m'.header = m.header
  log : m'.log = m.log
  ctx : m'.ctx = m.ctx
  unpinned : Unpinned m → Unpinned m'

theorem Cached.held_congr (h : Cached sb dirty held m) (hh : ∀ q, q ∈ held' ↔ q ∈ held) :
    Cached sb dirty held' m :=
  ⟨h.nodup, h.unique, fun q hq => h.linked q ((hh q).mp hq),
    fun q hq => (h.locked q hq).trans (hh q).symm, fun q hq ha => (hh q).mpr (h.acquired q hq ha),
    h.valid, h.clean, h.pinned, h.cached⟩

theorem deviceWrite_offline (hp : m.power = 0) : (deviceWrite p).run m = .error .offline m := by
  rw [deviceWrite, bind_ok (get_run m), diskWrite_offline hp]

theorem deviceWrite_run (hp : m.power ≠ 0) : (deviceWrite p).run m =
    .ok () {m.record ⟨true, .block (m.heap p).blockNo, blockSector (m.heap p).blockNo⟩ with
      disk := Function.update m.disk (blockSector (m.heap p).blockNo) (m.heap p).data
      power := m.power - 1} := by
  rw [deviceWrite, bind_ok (get_run m), diskWrite_run hp]

theorem unpin_heap (q : Ptr) :
    (m.unpin p).heap q = {m.heap q with pinned := !decide (q = p) && (m.heap q).pinned} := by
  by_cases h : q = p
  · subst h
    simp [Machine.unpin]
  · rw [Machine.unpin, Machine.setBlock_of_ne h]
    simp [h]

theorem Frame.trans {m1 m2 m3 : Machine} (h : Frame m1 m2) (h' : Frame m2 m3) : Frame m1 m3 :=
  ⟨h'.disk.trans h.disk, h'.power.trans h.power, h'.header.trans h.header, h'.log.trans h.log,
    h'.ctx.trans h.ctx⟩

/-- At most flags of blocks differ, and none got pinned. -/
structure Machine.Flags (m' m : Machine) : Prop extends Frame m m' where
  head : m'.head = m.head
  pinned : ∀ q, (m'.heap q).pinned = true → (m.heap q).pinned = true

theorem Machine.Flags.refl (m : Machine) : m.Flags m := ⟨⟨rfl, rfl, rfl, rfl, rfl⟩, rfl, fun _ h => h⟩

theorem Machine.Flags.trans {m'' : Machine} (h : m''.Flags m') (h' : m'.Flags m) : m''.Flags m :=
  ⟨h'.toFrame.trans h.toFrame, h.head.trans h'.head, fun q hq => h'.pinned q (h.pinned q hq)⟩

theorem Machine.Flags.unpinned (h : m'.Flags m) (hu : Unpinned m) : Unpinned m' := fun q hq => by
  rw [← Bool.not_eq_true]
  intro hp
  have := h.pinned q hp
  rw [hu q (h.head ▸ hq)] at this
  exact Bool.false_ne_true this

theorem Machine.unpin_flags (m : Machine) (p : Ptr) : (m.unpin p).Flags m :=
  ⟨⟨rfl, rfl, rfl, rfl, rfl⟩, rfl, fun q h => by
    rw [unpin_heap] at h
    exact (Bool.and_eq_true_iff.mp h).2⟩

theorem Machine.released_flags (m : Machine) (p : Ptr) : (m.released p).Flags m :=
  ⟨⟨rfl, rfl, rfl, rfl, rfl⟩, rfl, fun q h => by
    rw [released_heap] at h
    exact h⟩

theorem Cached.unpin (h : Cached sb dirty held m) (hp : (m.heap p).blockNo ∉ dirty) :
    Cached sb dirty held (m.unpin p) := by
  refine h.rewrite rfl (fun q => by rw [unpin_heap]; exact ⟨rfl, rfl, rfl, rfl⟩) (fun q hq hd hs => ?clean)
    (fun q hq hd => ?pinned) h.cached
  case clean =>
    rw [Machine.Clean, unpin_heap]
    exact h.clean q hq hd hs
  case pinned =>
    have hne : q ≠ p := fun he => hp (he ▸ hd)
    rw [unpin_heap, decide_eq_false hne]
    exact h.pinned q hq hd

theorem view_unpin : (m.unpin p).view b = m.view b := by
  have hlookup : (m.unpin p).lookup b = m.lookup b := lookup_congr rfl fun q => by rw [unpin_heap]
  cases hl : m.lookup b with
  | none =>
    rw [view_of_none hl, view_of_none (hlookup.trans hl)]
    rfl
  | some q => rw [view_of_lookup hl, view_of_lookup (hlookup.trans hl), unpin_heap]

/-- Both blocks of a copy are held. -/
structure Both (sb : SuperBlock) (dirty : List UInt64) (src dst : UInt64) (m : Machine) (p q : Ptr)
    (m' : Machine) : Prop where
  cached : Cached sb dirty [q, p] m'
  ne : q ≠ p
  data : (m'.heap p).data = m.view src
  blockNo : (m'.heap q).blockNo = dst
  view : ∀ b, blockSector b ≠ headerSector sb → m'.view b = m.view b
  frame : Frame m m'
  unpinned : Unpinned m → Unpinned m'

theorem acquire_both (arena : Arena) {src dst : UInt64} (h : Cached sb dirty [] m) (hne : src ≠ dst)
    (hk : Keeps dirty src dst m) :
    ∃ p m1 q m2, (cacheAcquire arena src).run m = .ok p m1 ∧ Frame m m1 ∧
      (cacheAcquire arena dst).run m1 = .ok q m2 ∧ Both sb dirty src dst m p q m2 := by
  obtain ⟨p, m1, hrun1, h1⟩ := cacheAcquire_idle arena h src
  have hp1 : p ∈ m1.head := h1.cached.linked p (List.mem_singleton_self p)
  have hfree : ∀ q, m1.lookup dst = some q → q ∉ [p] := fun q hl hq => by
    rw [List.mem_singleton.mp hq] at hl
    exact hne (h1.blockNo.symm.trans (Machine.lookup_some hl).2)
  have hkept : m1.lookup dst = none → ∀ q ∈ [p], q ∈ m1.evict.head := fun hl q hq => by
    obtain rfl := List.mem_singleton.mp hq
    rcases hk with hs | hd | hu
    · have hr : m1.removable q = false := by
        simp [Machine.removable, h1.cached.pinned q hp1 (h1.blockNo ▸ hs)]
      exact mem_evict h1.cached.nodup hp1 hr
    · obtain ⟨r, hr, hrb⟩ := h1.cached.cached dst hd
      exact absurd hrb (Machine.lookup_none.mp hl r hr)
    · exact front_kept h1.cached (h1.unpinned hu) h1.first
  obtain ⟨q, m2, hrun2, h2⟩ := cacheAcquire_spec arena h1.cached hfree hkept
  refine ⟨p, m1, q, m2, hrun1, h1.frame, hrun2, h2.cached, ?_, ?_, h2.blockNo, ?_,
    h1.frame.trans h2.frame, h2.unpinned ∘ h1.unpinned⟩
  · exact fun he => h2.new (he ▸ List.mem_singleton_self p)
  · rw [h2.others p (List.mem_singleton_self p), h1.data]
  · exact fun b hb => (h2.view b hb).trans (h1.view b hb)

/-- A block written back right after it was given new contents. -/
theorem deviceWrite_copied {q : Ptr} {d : BlockData} (hp : m.power ≠ 0) :
    ∃ w, (deviceWrite q).run (m.setBlock q fun b => {b with data := d}) = .ok () w ∧
      w.head = m.head ∧ w.heap = (m.stored q d).heap ∧ w.disk = (m.stored q d).disk ∧
      w.power = m.power - 1 ∧ w.header = m.header ∧ w.log = m.log ∧ w.ctx = m.ctx := by
  have hp' : (m.setBlock q fun b => {b with data := d}).power ≠ 0 := hp
  refine ⟨_, deviceWrite_run hp', rfl, rfl, ?_, rfl, rfl, rfl, rfl⟩
  rw [Machine.setBlock_self, stored_disk]
  rfl

/-- How a routine that writes to the device fails: the power was out. -/
def Offline (m : Machine) (e : Halt) (m' : Machine) : Prop := e = .offline ∧ m.power = 0 ∧ m'.disk = m.disk

/-- The copy is on the disk and both blocks are free again, or the disk is as it was. -/
theorem copyBlock_spec (arena : Arena) (unpin : Bool) {src dst : UInt64} (h : Cached sb dirty [] m)
    (hne : src ≠ dst) (hk : Keeps dirty src dst m) (hun : unpin = true → dst ∉ dirty) :
    Ends (fun _ => Copied sb dirty src dst m) (Offline m) ((copyBlock arena unpin src dst).run m) := by
  obtain ⟨p, m1, q, m2, hrun1, -, hrun2, hb⟩ := acquire_both arena h hne hk
  rw [copyBlock, bind_ok hrun1, bind_ok hrun2, copyData, bind_ok (modify_run _ m2)]
  by_cases hp : m.power = 0
  · have hp2 : (m2.setBlock q fun b => {b with data := (m2.heap p).data}).power = 0 :=
      hb.frame.power.trans hp
    rw [bind_error (deviceWrite_offline hp2)]
    exact .error ⟨rfl, hp, hb.frame.disk⟩
  · have hp2 : m2.power ≠ 0 := hb.frame.power ▸ hp
    obtain ⟨w, hwrun, hwhead, hwheap, hwdisk, hwpower, hwheader, hwlog, hwctx⟩ :=
      deviceWrite_copied (q := q) (d := (m2.heap p).data) hp2
    have hq : q ∈ m2.head := hb.cached.linked q (List.mem_cons_self ..)
    have hwc : Cached sb dirty [q, p] w := (hb.cached.stored hq).congr hwhead hwheap hwdisk
    have hwview : ∀ b, w.view b = if b = dst then m.view src else m2.view b := fun b => by
      rw [← hb.data, ← hb.blockNo, ← view_stored hb.cached hq]
      exact view_congr hwhead hwheap hwdisk
    rw [bind_ok hwrun, bind_ok (modify_run _ w), bind_ok cacheRelease_run, cacheRelease_run]
    generalize hu : (if unpin = true then w.unpin q else w) = u
    obtain ⟨huc, huview, hukeep⟩ : Cached sb dirty [q, p] u ∧ (∀ b, u.view b = w.view b) ∧ u.Flags w := by
      rw [← hu]
      split
      case isTrue ht =>
        refine ⟨hwc.unpin ?_, fun b => view_unpin, w.unpin_flags q⟩
        rw [hwheap, stored_blockNo, hb.blockNo]
        exact hun ht
      case isFalse => exact ⟨hwc, fun _ => rfl, .refl w⟩
    have hflags : ((u.released p).released q).Flags w :=
      ((u.released p).released_flags q).trans ((u.released_flags p).trans hukeep)
    have hfinal : Cached sb dirty [] ((u.released p).released q) := by
      have hcomm : Cached sb dirty [p, q] u := huc.held_congr fun r => by simp [or_comm]
      exact (hcomm.released (by simpa using hb.ne.symm)).released List.not_mem_nil
    have hwpinned : Unpinned m → Unpinned w := fun hm r hr => by
      rw [hwheap, stored_pinned]
      exact hb.unpinned hm r (hwhead ▸ hr)
    refine .ok ⟨hfinal, ?_, ?_, ?_, ?_, ?_, ?_, hflags.unpinned ∘ hwpinned⟩
    · rw [hflags.disk, hwdisk, stored_disk, hb.blockNo, hb.data, hb.frame.disk]
    · intro b hs
      rw [view_released, view_released, huview, hwview, hb.view b hs]
    · rw [hflags.power, hwpower, hb.frame.power]
      omega
    · rw [hflags.header, hwheader, hb.frame.header]
    · rw [hflags.log, hwlog, hb.frame.log]
    · rw [hflags.ctx, hwctx, hb.frame.ctx]

/-! ### What the loops leave alone -/

/-- The log's variables and the operations' contexts are as they were. -/
structure SameLog (m m' : Machine) : Prop where
  header : m'.header = m.header
  log : m'.log = m.log
  ctx : m'.ctx = m.ctx

/-- Only the cache and the device have been at work. -/
structure CacheOnly (m m' : Machine) : Prop extends SameLog m m' where
  accesses : m.accesses ⊆ m'.accesses

theorem SameLog.trans {m1 m2 m3 : Machine} (h : SameLog m1 m2) (h' : SameLog m2 m3) : SameLog m1 m3 :=
  ⟨h'.header.trans h.header, h'.log.trans h.log, h'.ctx.trans h.ctx⟩

theorem CacheOnly.refl (m : Machine) : CacheOnly m m := ⟨⟨rfl, rfl, rfl⟩, List.Subset.refl _⟩

instance : Std.Refl CacheOnly := ⟨CacheOnly.refl⟩

instance : IsTrans Machine CacheOnly :=
  ⟨fun _ _ _ h h' => ⟨h.toSameLog.trans h'.toSameLog, List.Subset.trans h.accesses h'.accesses⟩⟩

section Respects
variable (sb : SuperBlock) (arena : Arena)

theorem cacheOnly_acquire (b : UInt64) : Respects CacheOnly (cacheAcquire arena b) := fun m => by
  rcases cacheAcquire_cases arena b m with ⟨p, -, hrun⟩ | ⟨p, -, -, hrun⟩ | ⟨-, p, -, hrun⟩
  all_goals rw [hrun]
  case inl | inr.inl => exact ⟨⟨rfl, rfl, rfl⟩, List.Subset.refl _⟩
  case inr.inr => exact ⟨⟨rfl, rfl, rfl⟩, List.subset_append_left ..⟩

theorem cacheOnly_lock (p : Ptr) : Respects CacheOnly (acquireSleeplock p) := fun m => by
  rw [acquireSleeplock, bind_ok (get_run m)]
  split
  · exact .refl m
  · exact ⟨⟨rfl, rfl, rfl⟩, List.Subset.refl _⟩

theorem cacheOnly_release (p : Ptr) : Respects CacheOnly (cacheRelease p) := fun m => by
  rw [cacheRelease_run]
  exact ⟨⟨rfl, rfl, rfl⟩, List.Subset.refl _⟩

theorem cacheOnly_diskWrite (t : Target) (n : UInt64) (d : BlockData) :
    Respects CacheOnly (diskWrite t n d) := fun m => by
  rw [diskWrite, bind_ok (get_run m)]
  split
  · exact .refl m
  · exact ⟨⟨rfl, rfl, rfl⟩, List.subset_append_left ..⟩

theorem cacheOnly_deviceWrite (p : Ptr) : Respects CacheOnly (deviceWrite p) := fun m => by
  rw [deviceWrite, bind_ok (get_run m)]
  exact cacheOnly_diskWrite _ _ _ m

theorem cacheOnly_writeHeader : Respects CacheOnly (writeHeader sb) := fun m => by
  rw [writeHeader, bind_ok (get_run m)]
  exact cacheOnly_diskWrite _ _ _ m

theorem cacheOnly_headerEntry (t : Nat) : Respects CacheOnly (headerEntry t) := fun m => by
  rw [headerEntry, bind_ok (get_run m)]
  split
  · exact .refl m
  · exact .refl m

theorem cacheOnly_copyData (q p : Ptr) : Respects CacheOnly (copyData q p) :=
  .modify fun _ => ⟨⟨rfl, rfl, rfl⟩, List.Subset.refl _⟩

theorem cacheOnly_unpin (r : Bool) (q : Ptr) :
    Respects CacheOnly (modify fun m => if r then m.unpin q else m : M Unit) := .modify fun m => by
  split
  · exact ⟨⟨rfl, rfl, rfl⟩, List.Subset.refl _⟩
  · exact .refl m

theorem cacheOnly_installBlock (r : Bool) (t : Nat) : Respects CacheOnly (installBlock sb arena r t) :=
  (cacheOnly_acquire arena _).bind fun p => (cacheOnly_headerEntry t).bind fun b =>
    (cacheOnly_acquire arena b).bind fun q => (cacheOnly_copyData q p).bind fun _ =>
      (cacheOnly_deviceWrite q).bind fun _ => (cacheOnly_unpin r q).bind fun _ =>
        (cacheOnly_release p).bind fun _ => cacheOnly_release q

theorem cacheOnly_writeLogBlock (t : Nat) : Respects CacheOnly (writeLogBlock sb arena t) :=
  (cacheOnly_headerEntry t).bind fun b => (cacheOnly_acquire arena b).bind fun p =>
    (cacheOnly_acquire arena _).bind fun q => (cacheOnly_copyData q p).bind fun _ =>
      (cacheOnly_deviceWrite q).bind fun _ => (cacheOnly_release p).bind fun _ => cacheOnly_release q

end Respects

/-! ### The bodies of the two loops -/

variable {t : Nat}

theorem headerEntry_run (ht : t < logMaxSize) :
    (headerEntry t).run m = .ok (m.header.blockNo ⟨t, ht⟩) m := by
  rw [headerEntry, bind_ok (get_run m), dif_pos ht, pure_run]

theorem writeLogBlock_run (arena : Arena) (ht : t < logMaxSize) :
    (writeLogBlock sb arena t).run m =
      (copyBlock arena false (m.header.blockNo ⟨t, ht⟩) (logBlock sb t)).run m := by
  have hskip : (modify fun m => m : M Unit) = pure () := rfl
  rw [writeLogBlock, bind_ok (headerEntry_run ht), copyBlock]
  simp only [Bool.false_eq_true, if_false, hskip, pure_bind]

theorem installBlock_run (arena : Arena) (r : Bool) (ht : t < logMaxSize) :
    (installBlock sb arena r t).run m =
      (copyBlock arena r (logBlock sb t) (m.header.blockNo ⟨t, ht⟩)).run m := by
  rw [installBlock, copyBlock]
  cases hrun : (cacheAcquire arena (logBlock sb t)).run m with
  | error e m1 => rw [bind_error hrun, bind_error hrun]
  | ok p m1 =>
    rw [bind_ok hrun, bind_ok hrun, bind_ok (headerEntry_run ht), ((cacheOnly_acquire arena _).of_ok hrun).header]

end OS2021.Fs
