import OS2021.Fs.Recovery
import OS2021.Fs.SyncSpec

/-! The calls a user of the cache makes, on a live machine.

A block is visited: acquired, worked on, released. Reading it changes nothing;
an update on behalf of an operation changes the view and not the disk; an update
without one changes both; the end of the last operation brings the disk up to
the view. -/
namespace OS2021.Fs
open Lib Function

attribute [local irreducible] blockSector

variable {sb : SuperBlock} {m m' : Machine} {c : Nat} {p : Ptr} {b : UInt64} {d : BlockData}
  {stable cur : UInt64 → BlockData} {f : BlockData → BlockData}

/-- A caller acquires a block, works on it and releases it; it sees the block as acquired. -/
def visit (arena : Arena) (b : UInt64) (body : Ptr → M Unit) : M Block := do
  let p ← cacheAcquire arena b
  let m ← get
  body p
  cacheRelease p
  return m.heap p

def cacheRead (arena : Arena) (b : UInt64) : M Block := visit arena b fun _ => pure ()

/-- An update: modify the block, then `cache_sync(ctx, block)`. -/
def cacheUpdate (arena : Arena) (c : Option Nat) (b : UInt64) (f : BlockData → BlockData) : M Block :=
  visit arena b fun p => do
    modifyData p f
    cacheSync c p

/-- One update of a block. -/
structure Update where
  block : UInt64
  change : BlockData → BlockData

/-- A plain array of blocks after some updates. -/
def contents (S : UInt64 → BlockData) (us : List Update) : UInt64 → BlockData :=
  us.foldl (fun S u => update S u.block (u.change (S u.block))) S

theorem contents_append (S : UInt64 → BlockData) (us : List Update) (u : Update) :
    contents S (us ++ [u]) =
      update (contents S us) u.block (u.change (contents S us u.block)) := by
  simp only [contents, List.foldl_append, List.foldl_cons, List.foldl_nil]

/-- What a holder of block `b` is owed. -/
structure Shows (b : UInt64) (d : BlockData) (x : Block) : Prop where
  blockNo : x.blockNo = b
  valid : x.valid = true
  data : x.data = d

/-! ### Acquiring on a live machine -/

section
variable (arena : Arena)

theorem Live.acquire (hl : Live sb cur m) (hb : OutsideLog sb b) :
    ∃ p m', (cacheAcquire arena b).run m = .ok p m' ∧ Acquired sb m.header.entries [] b m p m' ∧
      Shows b (cur b) (m'.heap p) := by
  obtain ⟨p, m', hrun, ha⟩ := cacheAcquire_idle arena hl.cached b
  refine ⟨p, m', hrun, ha, ha.blockNo, ha.valid, ?_⟩
  rw [ha.data, hl.view b hb]

theorem LiveWith.acquired {held : List Ptr} (hl : LiveWith sb cur held m)
    (ha : Acquired sb m.header.entries held b m p m') : LiveWith sb cur (p :: held) m' :=
  hl.of_header ha.frame.header ha.cached fun x hx => by rw [ha.view x hx.1, hl.view x hx]

theorem LiveWith.released {held : List Ptr} (hl : LiveWith sb cur (p :: held) m) (hp : p ∉ held) :
    LiveWith sb cur held (m.released p) :=
  ⟨hl.cached.released hp, hl.fits, fun x hx => by rw [view_released, hl.view x hx]⟩

theorem cacheRead_spec (hl : Live sb cur m) (hb : OutsideLog sb b) :
    ∃ x m', (cacheRead arena b).run m = .ok x m' ∧ Shows b (cur b) x ∧ Live sb cur m' ∧ Frame m m' := by
  obtain ⟨p, m1, hrun, ha, hshow⟩ := hl.acquire arena hb
  refine ⟨m1.heap p, m1.released p, ?_, hshow, (hl.acquired ha).released List.not_mem_nil,
    ha.frame.trans (m1.released_flags p).toFrame⟩
  rw [cacheRead, visit, bind_ok hrun, bind_ok (get_run m1), bind_ok (pure_run _ m1), bind_ok cacheRelease_run,
    pure_run]

/-! ### `cache_sync` by a holder -/

/-- The held block was modified and synced on behalf of an operation. -/
structure Synced (sb : SuperBlock) (p : Ptr) (d : BlockData) (m m' : Machine) : Prop where
  head : m'.head = m.head
  heap : m'.heap = (m.logged p d).heap
  disk : m'.disk = m.disk
  power : m'.power = m.power
  mx : m'.log.mx = m.log.mx
  sized : m'.header.numBlocks ≤ logMx sb
  entries : ∀ x, x ∈ m'.header.entries ↔ x ∈ m.header.entries ∨ x = (m.heap p).blockNo

theorem cacheSync_synced {held : List Ptr} (c : Nat) (hc : Cached sb m.header.entries held m) (hp : p ∈ m.head)
    (hf : m.header.Fits sb) (hx : m.log.mx = logMx sb) :
    Ends (fun _ => Synced sb p d m) (fun e m' => (∃ msg, e = .panic msg) ∧ m'.disk = m.disk)
      ((cacheSync (some c) p).run (m.setBlock p fun x => {x with data := d})) := by
  have hsize : m.header.numBlocks ≤ logMaxSize := hf.sized.trans (logMx_le sb)
  generalize hm2 : (m.setBlock p fun x => {x with data := d}) = m2
  have hheader : m2.header = m.header := by rw [← hm2]; rfl
  have hlog : m2.log = m.log := by rw [← hm2]; rfl
  have hno : (m2.heap p).blockNo = (m.heap p).blockNo := by rw [← hm2, Machine.setBlock_self]
  have hdisk : m2.disk = m.disk := by rw [← hm2]; rfl
  have hhead : m2.head = m.head := by rw [← hm2]; rfl
  have hpower : m2.power = m.power := by rw [← hm2]; rfl
  by_cases hfull : m2.log.mx ≤ m2.header.numBlocks
  · rw [cacheSync_full hfull]
    exact .error ⟨⟨_, rfl⟩, hdisk⟩
  rw [not_le] at hfull
  by_cases hout : m2.log.outstanding < 1
  · rw [cacheSync_outside hfull hout]
    exact .error ⟨⟨_, rfl⟩, hdisk⟩
  rw [not_lt] at hout
  have hroom : m.header.numBlocks < logMx sb := by
    rw [hlog, hheader, hx] at hfull
    exact_mod_cast hfull
  by_cases hmem : (m.heap p).blockNo ∈ m.header.entries
  · -- absorbed: the block is pinned already
    rw [cacheSync_absorbed hfull hout (by rw [hheader]; exact hsize) (by rw [hno, hheader]; exact hmem)]
    refine .ok ⟨hhead, ?_, hdisk, hpower, by rw [hlog], by rw [hheader]; exact hf.sized, ?_⟩
    · funext q
      by_cases hq : q = p
      · rw [hq, logged_self, ← hc.pinned p hp hmem, ← hm2, Machine.setBlock_self]
      · rw [logged_of_ne hq, ← hm2, Machine.setBlock_of_ne hq]
    · intro x
      rw [hheader]
      exact ⟨Or.inl, fun h => h.elim id fun he => he ▸ hmem⟩
  · have hs : m2.header.numBlocks < logMaxSize := by
      rw [hheader]
      exact lt_of_lt_of_le hroom (logMx_le sb)
    rw [cacheSync_new hfull hout hs (by rw [hno, hheader]; exact hmem)]
    split
    case isFalse => exact .error ⟨⟨_, rfl⟩, hdisk⟩
    case isTrue =>
      refine .ok ⟨hhead, ?_, hdisk, hpower, ?_, ?_, ?_⟩
      · funext q
        show (m2.setBlock p fun x => {x with pinned := true}).heap q = _
        by_cases hq : q = p
        · rw [hq, logged_self, Machine.setBlock_self, ← hm2, Machine.setBlock_self]
        · rw [logged_of_ne hq, Machine.setBlock_of_ne hq, ← hm2, Machine.setBlock_of_ne hq]
      · show m2.log.mx = m.log.mx
        rw [hlog]
      · show m2.header.numBlocks + 1 ≤ logMx sb
        rw [hheader]
        exact hroom
      · intro x
        show x ∈ (m2.header.append hs (m2.heap p).blockNo).entries ↔ _
        rw [LogHeader.entries_append, List.mem_append, List.mem_singleton, hheader, hno]

theorem LiveWith.synced {held : List Ptr} (hl : LiveWith sb cur held m) (hp : p ∈ held)
    (hb : OutsideLog sb (m.heap p).blockNo) (hs : Synced sb p d m m') :
    LiveWith sb (update cur (m.heap p).blockNo d) held m' := by
  have hlinked := hl.cached.linked p hp
  refine ⟨(hl.cached.logged hlinked hs.entries).congr hs.head hs.heap hs.disk, ⟨hs.sized, fun x hin => ?_⟩,
    fun x hout => ?_⟩
  · rcases (hs.entries x).mp hin with hin | rfl
    · exact hl.fits.outside x hin
    · exact hb
  · rw [view_congr (m := m.logged p d) hs.head hs.heap hs.disk, view_logged hl.cached hlinked, update_apply]
    split
    case isTrue => rfl
    case isFalse => exact hl.view x hout

/-- An update on behalf of an operation changes what is seen of its block, not the disk. -/
theorem cacheUpdate_spec (c : Nat) (f : BlockData → BlockData) (hl : Live sb cur m) (hb : OutsideLog sb b)
    (hx : m.log.mx = logMx sb) : Ends (fun x m' => Shows b (cur b) x ∧ Live sb (update cur b (f (cur b))) m' ∧
        m'.disk = m.disk ∧ m'.log.mx = m.log.mx)
      (fun e m' => (∃ msg, e = .panic msg) ∧ m'.disk = m.disk)
      ((cacheUpdate arena (some c) b f).run m) := by
  obtain ⟨p, m1, hrun, ha, hshow⟩ := hl.acquire arena hb
  have hl1 := hl.acquired ha
  rw [cacheUpdate, visit, bind_ok hrun, bind_ok (get_run m1), bind_assoc, modifyData, bind_ok (modify_run _ m1)]
  have hsync := cacheSync_synced (d := f (m1.heap p).data) c hl1.cached
    (ha.cached.linked p (List.mem_singleton_self p)) hl1.fits (ha.frame.log ▸ hx)
  refine (hsync.mono (fun _ _ hq => hq) fun e m' he => ⟨he.1, he.2.trans ha.frame.disk⟩).bind ?_
  intro _ m3 _ hs
  rw [bind_ok cacheRelease_run, pure_run]
  have hl3 := hl1.synced (List.mem_singleton_self p) (by rw [ha.blockNo]; exact hb) hs
  rw [ha.blockNo, hshow.data] at hl3
  exact .ok ⟨hshow, hl3.released List.not_mem_nil, hs.disk.trans ha.frame.disk, hs.mx.trans (by rw [ha.frame.log])⟩

/-- An update without an operation goes through to the disk. -/
theorem cacheUpdate_through (f : BlockData → BlockData) (hl : Live sb cur m) (hb : OutsideLog sb b) :
    Ends (fun x m' => Shows b (cur b) x ∧ Live sb (update cur b (f (cur b))) m' ∧
        m'.disk = update m.disk (blockSector b) (f (cur b)) ∧ m'.log = m.log)
      (Offline m) ((cacheUpdate arena none b f).run m) := by
  obtain ⟨p, m1, hrun, ha, hshow⟩ := hl.acquire arena hb
  have hp : p ∈ m1.head := ha.cached.linked p (List.mem_singleton_self p)
  rw [cacheUpdate, visit, bind_ok hrun, bind_ok (get_run m1), bind_assoc, modifyData, bind_ok (modify_run _ m1),
    cacheSync]
  by_cases hpow : m.power = 0
  · have hpow1 : (m1.setBlock p fun x => {x with data := f x.data}).power = 0 := ha.frame.power.trans hpow
    rw [bind_error (deviceWrite_offline hpow1)]
    exact .error ⟨rfl, hpow, ha.frame.disk⟩
  · have hpow1 : m1.power ≠ 0 := ha.frame.power ▸ hpow
    obtain ⟨w, hwrun, hwhead, hwheap, hwdisk, -, hwheader, hwlog, -⟩ :=
      deviceWrite_copied (q := p) (d := f (m1.heap p).data) hpow1
    have hheader : w.header = m.header := hwheader.trans ha.frame.header
    have hcw : Cached sb m.header.entries [p] w := (ha.cached.stored hp).congr hwhead hwheap hwdisk
    have hset : (m1.setBlock p fun x => {x with data := f x.data}) =
        m1.setBlock p fun x => {x with data := f (m1.heap p).data} := rfl
    rw [hset, bind_ok hwrun, bind_ok cacheRelease_run, pure_run]
    refine .ok ⟨hshow, hl.of_header hheader (hcw.released List.not_mem_nil) fun x hout => ?_, ?_,
      hwlog.trans ha.frame.log⟩
    · rw [view_released, view_congr (m := m1.stored p _) hwhead hwheap hwdisk, view_stored ha.cached hp,
        ha.blockNo, hshow.data, update_apply]
      split
      case isTrue => rfl
      case isFalse => rw [ha.view x hout.1, hl.view x hout]
    · show w.disk = _
      rw [hwdisk, stored_disk, ha.blockNo, hshow.data, ha.frame.disk]

/-! ### The end of an operation -/

/-- An operation that is not the last one sleeps; the last one commits. -/
theorem cacheEndOp_spec (c : Nat) (hl : Live sb cur m) (hs : Settled sb stable m.disk) :
    Ends (fun _ m' => Idle sb cur m' ∧ m.log.outstanding = 1 ∧
        m'.log = {(m.ended c).log with committing := 0} ∧ m'.ctx = m.ctx)
      (fun e m' => e = .asleep .outstanding ∧ m' = m.ended c ∨
        (∃ msg, e = .panic msg) ∧ m'.disk = m.disk ∨ Interrupted sb stable cur e m')
      ((cacheEndOp sb arena c).run m) := by
  rw [cacheEndOp]
  have hlocked := cacheEndOpLocked_run (c := c) (m := m)
  split at hlocked
  case isTrue =>
    rw [bind_error hlocked]
    exact .error (Or.inr (Or.inl ⟨⟨_, rfl⟩, rfl⟩))
  case isFalse =>
    split at hlocked
    case isFalse =>
      rw [bind_error hlocked]
      exact .error (Or.inl ⟨rfl, rfl⟩)
    case isTrue hone =>
      rw [bind_ok hlocked]
      have hl' : Live sb cur (m.ended c).closed := hl.congr rfl rfl rfl rfl
      refine ((commit_spec arena hl' hs).mono (fun _ _ hq => hq) fun _ _ he => Or.inr (Or.inr he)).bind ?_
      intro _ m1 _ hres
      obtain ⟨hidle, hlog, hctx⟩ := hres
      rw [cacheEndOpFinish, modify_run]
      refine .ok ⟨hidle.congr rfl rfl rfl rfl, hone, ?_, hctx⟩
      show {m1.log with committing := 0} = _
      rw [hlog]
      rfl

end

end OS2021.Fs
