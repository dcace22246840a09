import OS2021.Fs.LogSpec

/-! What `commit` and `recover_from_log` leave on the disk, wherever they stop.

A disk is read at two levels. `Settled S` is a disk with no transaction in its
log, whose home blocks hold `S`; `Logged S` is one whose log holds a whole
transaction, so that the home blocks hold `S` once it is replayed. A commit goes
from `Settled` old contents to `Logged` new ones in one header write, and from
there to `Settled` new ones in another; every other write keeps the predicate it
starts from. Recovery takes either to `Settled`. -/
namespace OS2021.Fs
open Lib Function

attribute [local irreducible] blockSector

variable {sb : SuperBlock} {arena : Arena} {m m' : Machine} {b : UInt64} {t : Nat}
  {disk S stable cur : UInt64 → BlockData} {dirty : List UInt64} {d : BlockData}

/-! ### The log area -/

/-- The block is neither where the header is kept nor a slot of the log. -/
def OutsideLog (sb : SuperBlock) (b : UInt64) : Prop :=
  blockSector b ≠ headerSector sb ∧ ∀ t < logMx sb, b ≠ logBlock sb t

instance (sb : SuperBlock) (b : UInt64) : Decidable (OutsideLog sb b) :=
  inferInstanceAs (Decidable (_ ∧ ∀ t < _, _))

theorem logMx_le (sb : SuperBlock) : logMx sb ≤ logMaxSize := Nat.min_le_right ..

theorem logBlock_toNat : (logBlock sb t).toNat = (sb.logStart.toNat + t + 1) % 2 ^ 32 := by
  simp only [logBlock, UInt32.toNat_toUInt64, UInt32.toNat_add, UInt32.toNat_ofNat']
  show ((sb.logStart.toNat + t % 2 ^ 32) % 2 ^ 32 + 1) % 2 ^ 32 = _
  omega

theorem logBlock_inj {i j : Nat} (hi : i < logMaxSize) (hj : j < logMaxSize)
    (h : logBlock sb i = logBlock sb j) : i = j := by
  have hi' : i < 63 := hi
  have hj' : j < 63 := hj
  have hnat := congrArg UInt64.toNat h
  rw [logBlock_toNat, logBlock_toNat] at hnat
  omega

/-- A slot of the log is not where the header is: the slots are past the start of the
partition, the header is not. -/
theorem logBlock_ne_header (ht : t < logMaxSize) : blockSector (logBlock sb t) ≠ headerSector sb := by
  intro h
  have ht' : t < 63 := ht
  have hnat := congrArg UInt64.toNat h
  rw [blockSector, headerSector, UInt64.toNat_add, logBlock_toNat, UInt32.toNat_toUInt64] at hnat
  have hoff : (0x20800 : UInt64).toNat = 0x20800 := rfl
  rw [hoff] at hnat
  omega

/-! ### The disk, as recovery will read it -/

/-- The log is empty and the home blocks hold `S`. -/
structure Settled (sb : SuperBlock) (S disk : UInt64 → BlockData) : Prop where
  header : (LogHeader.ofBytes (disk (headerSector sb))).numBlocks = 0
  home : ∀ b, OutsideLog sb b → disk (blockSector b) = S b

/-- A header the log can carry out. -/
structure LogHeader.Fits (sb : SuperBlock) (h : LogHeader) : Prop where
  sized : h.numBlocks ≤ logMx sb
  outside : ∀ b ∈ h.entries, OutsideLog sb b

/-- The first `t` slots of the log hold the contents `S` of the header's entries. -/
def Slots (sb : SuperBlock) (S : UInt64 → BlockData) (h : LogHeader) (t : Nat) (disk : UInt64 → BlockData) :
    Prop :=
  ∀ i (hi : i < logMaxSize), i < t → disk (blockSector (logBlock sb i)) = S (h.blockNo ⟨i, hi⟩)

/-- The log holds a whole transaction, and with it the home blocks hold `S`. -/
structure Logged (sb : SuperBlock) (S : UInt64 → BlockData) (h : LogHeader) (disk : UInt64 → BlockData) :
    Prop where
  header : LogHeader.ofBytes (disk (headerSector sb)) = h
  fits : h.Fits sb
  slots : Slots sb S h h.numBlocks disk
  home : ∀ b, OutsideLog sb b → b ∉ h.entries → disk (blockSector b) = S b

/-- The first `t` entries of the header have been installed. -/
def Installed (S : UInt64 → BlockData) (h : LogHeader) (t : Nat) (disk : UInt64 → BlockData) : Prop :=
  ∀ i (hi : i < logMaxSize), i < t → disk (blockSector (h.blockNo ⟨i, hi⟩)) = S (h.blockNo ⟨i, hi⟩)

/-- Recovery will restore `S`. -/
def Recoverable (sb : SuperBlock) (S disk : UInt64 → BlockData) : Prop := ∃ h, Logged sb S h disk

variable {h : LogHeader}

theorem LogHeader.Fits.lt (hf : h.Fits sb) (ht : t < h.numBlocks) : t < logMaxSize :=
  lt_of_lt_of_le ht (hf.sized.trans (logMx_le sb))

theorem LogHeader.mem_entries (ht : t < logMaxSize) (hn : t < h.numBlocks) : h.blockNo ⟨t, ht⟩ ∈ h.entries :=
  List.mem_of_getElem? (h.entries_get ht hn)

theorem LogHeader.mem_entries_iff : b ∈ h.entries ↔ ∃ t, ∃ ht : t < logMaxSize, t < h.numBlocks ∧
    h.blockNo ⟨t, ht⟩ = b := by
  constructor
  · intro hb
    obtain ⟨t, ht, he⟩ := List.mem_iff_getElem.mp hb
    have hlt : t < logMaxSize ∧ t < h.numBlocks := by
      simp only [LogHeader.entries, List.length_take, List.length_ofFn] at ht
      omega
    refine ⟨t, hlt.1, hlt.2, ?_⟩
    have := h.entries_get hlt.1 hlt.2
    rw [List.getElem?_eq_getElem ht, he] at this
    exact (Option.some.inj this).symm
  · intro hex
    obtain ⟨t, ht, hn, rfl⟩ := hex
    exact h.mem_entries ht hn

/-- A log without a transaction is one with an empty transaction. -/
theorem Settled.recoverable (hs : Settled sb S disk) : Recoverable sb S disk := by
  refine ⟨_, rfl, ⟨by rw [hs.header]; exact Nat.zero_le _, fun b hb => ?_⟩, fun i _ hi => ?_,
    fun b hb _ => hs.home b hb⟩
  · obtain ⟨t, _, ht, _⟩ := LogHeader.mem_entries_iff.mp hb
    rw [hs.header] at ht
    exact absurd ht (Nat.not_lt_zero t)
  · rw [hs.header] at hi
    exact absurd hi (Nat.not_lt_zero i)

theorem OutsideLog.sector_ne (hb : OutsideLog sb b) (ht : t < logMx sb) :
    blockSector b ≠ blockSector (logBlock sb t) := fun he => hb.2 t ht (blockSector_inj.mp he)

/-- Writing a slot changes no home block. -/
theorem Settled.write_slot (hs : Settled sb S disk) (ht : t < logMx sb) (d : BlockData) :
    Settled sb S (update disk (blockSector (logBlock sb t)) d) := by
  have hlt : t < logMaxSize := lt_of_lt_of_le ht (logMx_le sb)
  constructor
  · rw [update_of_ne (logBlock_ne_header hlt).symm]
    exact hs.header
  · intro b hb
    rw [update_of_ne (hb.sector_ne ht)]
    exact hs.home b hb

theorem Slots.write_slot (hs : Slots sb S h t disk) (ht : t < logMaxSize) :
    Slots sb S h (t + 1) (update disk (blockSector (logBlock sb t)) (S (h.blockNo ⟨t, ht⟩))) := by
  intro i hi hlt
  by_cases he : i = t
  · subst he
    rw [update_self]
  · have hne : blockSector (logBlock sb i) ≠ blockSector (logBlock sb t) := fun heq =>
      he (logBlock_inj hi ht (blockSector_inj.mp heq))
    rw [update_of_ne hne]
    exact hs i hi (by omega)

/-- Writing the home of an entry changes nothing the replay reads. -/
theorem Logged.write_home (hl : Logged sb S h disk) (hb : b ∈ h.entries) (d : BlockData) :
    Logged sb S h (update disk (blockSector b) d) := by
  have hout := hl.fits.outside b hb
  refine ⟨?_, hl.fits, ?_, ?_⟩
  · rw [update_of_ne hout.1.symm]
    exact hl.header
  · intro i hi hn
    rw [update_of_ne (hout.sector_ne (lt_of_lt_of_le hn hl.fits.sized)).symm]
    exact hl.slots i hi hn
  · intro c hc hnot
    have hne : blockSector c ≠ blockSector b := fun he => hnot (blockSector_inj.mp he ▸ hb)
    rw [update_of_ne hne]
    exact hl.home c hc hnot

theorem Installed.write_home (hi : Installed S h t disk) (ht : t < logMaxSize) :
    Installed S h (t + 1) (update disk (blockSector (h.blockNo ⟨t, ht⟩)) (S (h.blockNo ⟨t, ht⟩))) := by
  intro i hlt hit
  rw [update_apply]
  split
  case isTrue he => rw [blockSector_inj.mp he]
  case isFalse he =>
    have hne : i ≠ t := fun heq => he (by subst heq; rfl)
    exact hi i hlt (by omega)

theorem Logged.all_home (hl : Logged sb S h disk) (hi : Installed S h h.numBlocks disk)
    (hb : OutsideLog sb b) : disk (blockSector b) = S b := by
  by_cases hmem : b ∈ h.entries
  · obtain ⟨i, hlt, hn, rfl⟩ := LogHeader.mem_entries_iff.mp hmem
    exact hi i hlt hn
  · exact hl.home b hb hmem

/-! ### The machine -/

/-- The blocks of `held` are held, a cached block differs from the disk only if the header
lists it, and who acquires a block sees `cur`. -/
structure LiveWith (sb : SuperBlock) (cur : UInt64 → BlockData) (held : List Ptr) (m : Machine) : Prop where
  cached : Cached sb m.header.entries held m
  fits : m.header.Fits sb
  view : ∀ b, OutsideLog sb b → m.view b = cur b

/-- Nothing is held. -/
abbrev Live (sb : SuperBlock) (cur : UInt64 → BlockData) (m : Machine) : Prop := LiveWith sb cur [] m

/-- The header is as it was. -/
theorem LiveWith.of_header {held held' : List Ptr} {cur' : UInt64 → BlockData} (hl : LiveWith sb cur held m)
    (hr : m'.header = m.header) (hc : Cached sb m.header.entries held' m')
    (hv : ∀ b, OutsideLog sb b → m'.view b = cur' b) : LiveWith sb cur' held' m' := by
  rw [← hr] at hc
  exact ⟨hc, hr ▸ hl.fits, hv⟩

theorem LiveWith.congr {held : List Ptr} (hl : LiveWith sb cur held m) (hh : m'.head = m.head)
    (hp : m'.heap = m.heap) (hd : m'.disk = m.disk) (hr : m'.header = m.header) : LiveWith sb cur held m' :=
  hl.of_header hr (hl.cached.congr hh hp hd) fun b hb => by rw [view_congr hh hp hd, hl.view b hb]

/-- One more device write: block `d` to sector `n`. -/
structure Wrote (n : UInt64) (d : BlockData) (m m' : Machine) : Prop where
  disk : m'.disk = update m.disk n d
  power : m'.power + 1 = m.power
  header : m'.header = m.header
  log : m'.log = m.log
  ctx : m'.ctx = m.ctx

theorem Copied.wrote {src dst : UInt64} (hc : Copied sb dirty src dst m m') :
    Wrote (blockSector dst) (m.view src) m m' :=
  ⟨hc.disk, hc.power, hc.header, hc.log, hc.ctx⟩

/-- A block that is not listed is the disk's. -/
theorem Live.cur_of_not_mem (hl : Live sb cur m) (hs : Settled sb stable m.disk) (hb : OutsideLog sb b)
    (hn : b ∉ m.header.entries) : cur b = stable b := by
  rw [← hl.view b hb, hl.cached.view_clean hn hb.1, hs.home b hb]

theorem Live.slot_not_mem (hl : Live sb cur m) (ht : t < logMx sb) : logBlock sb t ∉ m.header.entries :=
  fun hmem => (hl.fits.outside _ hmem).2 t ht rfl

section
variable (arena : Arena)

theorem writeLogBlock_step (hl : Live sb cur m) (ht : t < logMaxSize) (hn : t < m.header.numBlocks) :
    Ends (fun _ m' => Live sb cur m' ∧ Wrote (blockSector (logBlock sb t)) (cur (m.header.blockNo ⟨t, ht⟩)) m m')
      (Offline m) ((writeLogBlock sb arena t).run m) := by
  have hmem := m.header.mem_entries ht hn
  have hout := hl.fits.outside _ hmem
  have hslot : t < logMx sb := lt_of_lt_of_le hn hl.fits.sized
  rw [writeLogBlock_run arena ht]
  refine (copyBlock_spec arena false hl.cached (hout.2 t hslot) (Or.inl hmem) nofun).mono ?_ fun _ _ he => he
  intro _ m' hc
  refine ⟨hl.of_header hc.header hc.cached fun b hb => ?_, ?_⟩
  · rw [hc.view b hb.1, if_neg (hb.2 t hslot), hl.view b hb]
  · rw [← hl.view _ hout]
    exact hc.wrote

/-- Installing an entry whose slot has been written gives its home the current contents. -/
theorem installBlock_step (hl : Live sb cur m) (ht : t < logMaxSize) (hn : t < m.header.numBlocks)
    (hd : m.disk (blockSector (logBlock sb t)) = cur (m.header.blockNo ⟨t, ht⟩)) : Ends (fun _ m' => Live sb cur m' ∧
        Wrote (blockSector (m.header.blockNo ⟨t, ht⟩)) (cur (m.header.blockNo ⟨t, ht⟩)) m m')
      (Offline m) ((installBlock sb arena false t).run m) := by
  have hmem := m.header.mem_entries ht hn
  have hout := hl.fits.outside _ hmem
  have hslot : t < logMx sb := lt_of_lt_of_le hn hl.fits.sized
  have hview : m.view (logBlock sb t) = cur (m.header.blockNo ⟨t, ht⟩) := by
    rw [hl.cached.view_clean (hl.slot_not_mem hslot) (logBlock_ne_header ht), hd]
  rw [installBlock_run arena false ht]
  refine (copyBlock_spec arena false hl.cached (hout.2 t hslot).symm (Or.inr (Or.inl hmem)) nofun).mono ?_
    fun _ _ he => he
  intro _ m' hc
  refine ⟨hl.of_header hc.header hc.cached fun b hb => ?_, ?_⟩
  · rw [hc.view b hb.1]
    split
    case isTrue he => rw [hview, he]
    case isFalse => exact hl.view b hb
  · rw [← hview]
    exact hc.wrote

/-! ### The header -/

/-- A write to the header's sector reaches no cached block. -/
theorem Cached.write_header {held : List Ptr} (h : Cached sb dirty held m) (hl : m'.head = m.head)
    (hh : m'.heap = m.heap) (hd : m'.disk = update m.disk (headerSector sb) d) : Cached sb dirty held m' :=
  h.congr_off_header hl hh fun x hx => by rw [hd, update_of_ne hx]

theorem view_write_header (hl : m'.head = m.head) (hh : m'.heap = m.heap)
    (hd : m'.disk = update m.disk (headerSector sb) d) (hb : blockSector b ≠ headerSector sb) :
    m'.view b = m.view b := by
  simp only [Machine.view, Machine.lookup, hl, hh, hd, update_of_ne hb]

theorem LiveWith.write_header {held : List Ptr} (hl : LiveWith sb cur held m) (hhead : m'.head = m.head)
    (hheap : m'.heap = m.heap) (hd : m'.disk = update m.disk (headerSector sb) d) (hr : m'.header = m.header) :
    LiveWith sb cur held m' :=
  hl.of_header hr (hl.cached.write_header hhead hheap hd) fun b hb => by
    rw [view_write_header hhead hheap hd hb.1, hl.view b hb]

/-- Blocks whose cached copies have all reached the disk are no longer dirty. -/
theorem Cached.flushed {held : List Ptr} (h : Cached sb dirty held m)
    (hd : ∀ b ∈ dirty, m.view b = m.disk (blockSector b)) : Cached sb [] held m :=
  ⟨h.nodup, h.unique, h.linked, h.locked, h.acquired, h.valid,
    fun p hp _ hs => by
      rw [Machine.Clean, ← h.view hp]
      by_cases hmem : (m.heap p).blockNo ∈ dirty
      · exact hd _ hmem
      · exact h.view_clean hmem hs,
    fun _ _ hb => absurd hb List.not_mem_nil, fun _ hb => absurd hb List.not_mem_nil⟩

theorem writeHeader_spec (sb : SuperBlock) (m : Machine) :
    Ends (fun _ m' => Wrote (headerSector sb) m.header.toBytes m m' ∧ m'.head = m.head ∧ m'.heap = m.heap)
      (Offline m) ((writeHeader sb).run m) := by
  rw [writeHeader, bind_ok (get_run m)]
  by_cases hp : m.power = 0
  · rw [diskWrite_offline hp]
    exact .error ⟨rfl, hp, rfl⟩
  · rw [diskWrite_run hp]
    exact .ok ⟨⟨rfl, Nat.succ_pred_eq_of_ne_zero hp, rfl, rfl, rfl⟩, rfl, rfl⟩

/-! ### The phases of a commit -/

/-- `write_log` has done `t` iterations. -/
structure Writing (sb : SuperBlock) (stable cur : UInt64 → BlockData) (t : Nat) (m : Machine) : Prop where
  live : Live sb cur m
  settled : Settled sb stable m.disk
  slots : Slots sb cur m.header t m.disk

/-- The transaction is on the disk and `install_trans` has done `t` iterations. -/
structure Installing (sb : SuperBlock) (cur : UInt64 → BlockData) (t : Nat) (m : Machine) : Prop where
  live : Live sb cur m
  logged : Logged sb cur m.header m.disk
  installed : Installed cur m.header t m.disk

/-- Everything is home and the header in memory is empty; the one on the disk may not be yet. -/
structure Cleared (sb : SuperBlock) (cur : UInt64 → BlockData) (m : Machine) : Prop where
  live : Live sb cur m
  empty : m.header.numBlocks = 0
  home : ∀ b, OutsideLog sb b → m.disk (blockSector b) = cur b

/-- What one step of a commit leaves alone. -/
structure Kept (m m' : Machine) : Prop where
  header : m'.header = m.header
  log : m'.log = m.log
  ctx : m'.ctx = m.ctx
  power : m'.power + 1 = m.power

theorem Wrote.kept {n : UInt64} (h : Wrote n d m m') : Kept m m' :=
  ⟨h.header, h.log, h.ctx, h.power⟩

theorem Writing.step (h : Writing sb stable cur t m) (hn : t < m.header.numBlocks) :
    Ends (fun _ m' => Writing sb stable cur (t + 1) m' ∧ Kept m m') (Offline m)
      ((writeLogBlock sb arena t).run m) := by
  have ht := h.live.fits.lt hn
  refine (writeLogBlock_step arena h.live ht hn).mono ?_ fun _ _ he => he
  intro _ m' hres
  obtain ⟨hlive, hw⟩ := hres
  refine ⟨⟨hlive, ?_, ?_⟩, hw.kept⟩
  · rw [hw.disk]
    exact h.settled.write_slot (lt_of_lt_of_le hn h.live.fits.sized) _
  · rw [hw.disk, hw.header]
    exact h.slots.write_slot ht

/-- Writing the header is the step that commits. -/
theorem Writing.seal (h : Writing sb stable cur m.header.numBlocks m) :
    Ends (fun _ m' => Installing sb cur 0 m' ∧ Kept m m') (Offline m) ((writeHeader sb).run m) := by
  refine (writeHeader_spec sb m).mono ?_ fun _ _ he => he
  intro _ m' hres
  obtain ⟨hw, hhead, hheap⟩ := hres
  have hlive := h.live.write_header hhead hheap hw.disk hw.header
  have hcount : m.header.numBlocks < 2 ^ 64 :=
    lt_of_le_of_lt (h.live.fits.sized.trans (logMx_le sb)) (by decide)
  refine ⟨⟨hlive, ?_, fun i _ hi => absurd hi (Nat.not_lt_zero i)⟩, hw.kept⟩
  rw [hw.header, hw.disk]
  refine ⟨?_, h.live.fits, ?_, ?_⟩
  · rw [update_self, LogHeader.ofBytes_toBytes _ hcount]
  · intro i hi hn
    rw [update_of_ne (logBlock_ne_header hi)]
    exact h.slots i hi hn
  · intro b hb hnot
    rw [update_of_ne hb.1, h.settled.home b hb, h.live.cur_of_not_mem h.settled hb hnot]

theorem Installing.step (h : Installing sb cur t m) (hn : t < m.header.numBlocks) :
    Ends (fun _ m' => Installing sb cur (t + 1) m' ∧ Kept m m') (Offline m)
      ((installBlock sb arena false t).run m) := by
  have ht := h.live.fits.lt hn
  refine (installBlock_step arena h.live ht hn (h.logged.slots t ht hn)).mono ?_ fun _ _ he => he
  intro _ m' hres
  obtain ⟨hlive, hw⟩ := hres
  refine ⟨⟨hlive, ?_, ?_⟩, hw.kept⟩
  · rw [hw.disk, hw.header]
    exact h.logged.write_home (m.header.mem_entries ht hn) _
  · rw [hw.disk, hw.header]
    exact h.installed.write_home ht

/-- With every block home the header in memory can be emptied. -/
theorem Installing.clear (h : Installing sb cur m.header.numBlocks m) :
    Cleared sb cur {m with header := {m.header with numBlocks := 0}} := by
  have hclean : Cached sb [] [] m := h.live.cached.flushed fun b hmem => by
    have hb := h.live.fits.outside b hmem
    rw [h.live.view b hb, h.logged.all_home h.installed hb]
  refine ⟨⟨hclean.congr rfl rfl rfl, ⟨Nat.zero_le _, nofun⟩, ?_⟩, rfl, fun b => h.logged.all_home h.installed⟩
  exact fun b hb => (view_congr rfl rfl rfl).trans (h.live.view b hb)

/-- A machine between transactions: the log is empty on both sides. -/
structure Idle (sb : SuperBlock) (cur : UInt64 → BlockData) (m : Machine) : Prop where
  live : Live sb cur m
  empty : m.header.numBlocks = 0
  settled : Settled sb cur m.disk

theorem Idle.congr (h : Idle sb cur m) (hh : m'.head = m.head) (hp : m'.heap = m.heap)
    (hd : m'.disk = m.disk) (hr : m'.header = m.header) : Idle sb cur m' := by
  refine ⟨h.live.congr hh hp hd hr, ?_, ?_⟩
  · rw [hr, h.empty]
  · rw [hd]
    exact h.settled

/-- With nothing listed what is seen is what is home. -/
theorem Live.idle (hl : Live sb cur m) (hs : Settled sb stable m.disk) (hz : m.header.numBlocks = 0) :
    Idle sb cur m := by
  have hnone : ∀ b, b ∉ m.header.entries := fun b hb => by
    obtain ⟨t, _, ht, _⟩ := LogHeader.mem_entries_iff.mp hb
    omega
  refine ⟨hl, hz, hs.header, fun b hb => ?_⟩
  rw [hs.home b hb, hl.cur_of_not_mem hs hb (hnone b)]

theorem Cleared.finish (h : Cleared sb cur m) :
    Ends (fun _ m' => Idle sb cur m' ∧ Kept m m' ∧ m'.head = m.head ∧ m'.heap = m.heap) (Offline m)
      ((writeHeader sb).run m) := by
  refine (writeHeader_spec sb m).mono ?_ fun _ _ he => he
  intro _ m' hres
  obtain ⟨hw, hhead, hheap⟩ := hres
  have hcount : m.header.numBlocks < 2 ^ 64 := by
    rw [h.empty]
    decide
  refine ⟨⟨h.live.write_header hhead hheap hw.disk hw.header, ?_, ?_, ?_⟩, hw.kept, hhead, hheap⟩
  · rw [hw.header, h.empty]
  · rw [hw.disk, update_self, LogHeader.ofBytes_toBytes _ hcount, h.empty]
  · intro b hb
    rw [hw.disk, update_of_ne hb.1, h.home b hb]

/-! ### A whole commit -/

/-- Where a commit can stop: before the header is written the old contents are
recovered, after it the new ones. -/
def Interrupted (sb : SuperBlock) (stable cur : UInt64 → BlockData) (e : Halt) (m : Machine) : Prop :=
  e = .offline ∧ (Recoverable sb stable m.disk ∨ Recoverable sb cur m.disk)

theorem Interrupted.old {e : Halt} (hs : Settled sb stable m.disk) (he : Offline m e m') :
    Interrupted sb stable cur e m' := ⟨he.1, Or.inl (by rw [he.2.2]; exact hs.recoverable)⟩

theorem Interrupted.new {e : Halt} {h : LogHeader} (hs : Logged sb cur h m.disk) (he : Offline m e m') :
    Interrupted sb stable cur e m' := ⟨he.1, Or.inr ⟨h, by rw [he.2.2]; exact hs⟩⟩

theorem writeLog_spec (h : Writing sb stable cur 0 m) :
    Ends (fun _ m' => Writing sb stable cur m'.header.numBlocks m' ∧ m'.header = m.header ∧
        m'.log = m.log ∧ m'.ctx = m.ctx)
      (Interrupted sb stable cur) ((writeLog sb arena).run m) := by
  rw [writeLog, bind_ok (get_run m)]
  refine (Triple.forM_range
    (I := fun t m' => Writing sb stable cur t m' ∧ m'.header = m.header ∧ m'.log = m.log ∧ m'.ctx = m.ctx)
    (fun i hi m' hres => ?_) m ⟨h, rfl, rfl, rfl⟩).mono ?_ fun _ _ he => he
  case refine_2 => exact fun _ m' hres => ⟨hres.2.1 ▸ hres.1, hres.2⟩
  · obtain ⟨hw, hh, hlog, hctx⟩ := hres
    refine (hw.step arena (by rw [hh]; exact hi)).mono ?_ fun _ _ he => .old hw.settled he
    intro _ m'' hres
    obtain ⟨hw', hk⟩ := hres
    exact ⟨hw', hk.header.trans hh, hk.log.trans hlog, hk.ctx.trans hctx⟩

theorem installTrans_spec (h : Installing sb cur 0 m) :
    Ends (fun _ m' => Installing sb cur m'.header.numBlocks m' ∧ m'.log = m.log ∧ m'.ctx = m.ctx)
      (Interrupted sb stable cur) ((installTrans sb arena false).run m) := by
  rw [installTrans, bind_ok (get_run m)]
  refine (Triple.forM_range
    (I := fun t m' => Installing sb cur t m' ∧ m'.header = m.header ∧ m'.log = m.log ∧ m'.ctx = m.ctx)
    (fun i hi m' hres => ?_) m ⟨h, rfl, rfl, rfl⟩).mono ?_ fun _ _ he => he
  case refine_2 => exact fun _ m' hres => ⟨hres.2.1 ▸ hres.1, hres.2.2⟩
  · obtain ⟨hw, hh, hlog, hctx⟩ := hres
    refine (hw.step arena (by rw [hh]; exact hi)).mono ?_ fun _ _ he => .new hw.logged he
    intro _ m'' hres
    obtain ⟨hw', hk⟩ := hres
    exact ⟨hw', hk.header.trans hh, hk.log.trans hlog, hk.ctx.trans hctx⟩

/-- **A commit is atomic.** It returns with the new contents home and an empty log,
or it stops where recovery will find the old contents or the new ones. -/
theorem commit_spec (hl : Live sb cur m) (hs : Settled sb stable m.disk) :
    Ends (fun _ m' => Idle sb cur m' ∧ m'.log = m.log ∧ m'.ctx = m.ctx)
      (Interrupted sb stable cur) ((commit sb arena).run m) := by
  rw [commit, bind_ok (get_run m)]
  by_cases hn : 0 < m.header.numBlocks
  · rw [if_pos hn]
    have hstart : Writing sb stable cur 0 m := ⟨hl, hs, fun i _ hi => absurd hi (Nat.not_lt_zero i)⟩
    refine (writeLog_spec arena hstart).bind ?_
    intro _ m1 _ hres
    obtain ⟨hw, -, hlog1, hctx1⟩ := hres
    refine (hw.seal.mono (fun _ _ hq => hq) fun _ _ he => .old hw.settled he).bind ?_
    intro _ m2 _ hres
    obtain ⟨hi, hk2⟩ := hres
    refine (installTrans_spec arena hi).bind ?_
    intro _ m3 _ hres
    obtain ⟨hi3, hlog3, hctx3⟩ := hres
    rw [clearHeader, bind_ok (modify_run _ m3)]
    refine hi3.clear.finish.mono ?_ fun _ _ he => ?_
    case refine_2 =>
      have hlogged : Logged sb cur m3.header m3.disk := hi3.logged
      exact .new hlogged he
    intro _ m4 hres
    obtain ⟨hidle, hk4, -⟩ := hres
    exact ⟨hidle, hk4.log.trans (hlog3.trans (hk2.log.trans hlog1)),
      hk4.ctx.trans (hctx3.trans (hk2.ctx.trans hctx1))⟩
  · rw [if_neg hn, pure_run]
    exact .ok ⟨hl.idle hs (Nat.eq_zero_of_not_pos hn), rfl, rfl⟩

end

end OS2021.Fs
