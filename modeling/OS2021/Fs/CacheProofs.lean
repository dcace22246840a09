import OS2021.Fs.Log

/-! What the block cache keeps.

`Cached dirty held m` is the invariant of the list of cached blocks: no block is
linked twice, the blocks that are not `held` are unlocked and not flagged, a
block whose number is not `dirty` has the contents of its sector, and a `dirty`
one is cached and pinned. `view m b` is what a holder of block `b` would see. Acquiring and releasing
blocks keep the invariant and the view; what changes the view is a write to a
held block. -/
namespace OS2021.Fs
open Lib Function

namespace Machine

variable {m : Machine} {p q : Ptr} {b : UInt64} {f : Block → Block}

@[simp] theorem setBlock_self : (m.setBlock p f).heap p = f (m.heap p) := update_self ..

theorem setBlock_of_ne (h : q ≠ p) : (m.setBlock p f).heap q = m.heap q := update_of_ne h ..

/-- A field that is kept. -/
theorem setBlock_field {α : Type} {g : Block → α} (h : ∀ b, g (f b) = g b) :
    g ((m.setBlock p f).heap q) = g (m.heap q) := by
  by_cases hq : q = p
  · rw [hq, setBlock_self, h]
  · rw [setBlock_of_ne hq]

theorem lookup_some (h : m.lookup b = some p) : p ∈ m.head ∧ (m.heap p).blockNo = b :=
  ⟨List.mem_of_find?_eq_some h, by simpa using List.find?_some h⟩

theorem lookup_none : m.lookup b = none ↔ ∀ p ∈ m.head, (m.heap p).blockNo ≠ b := by
  simp [lookup]

/-- What a holder of block `b` sees: the cached copy if there is one, else the disk. -/
def view (m : Machine) (b : UInt64) : BlockData :=
  match m.lookup b with
  | some p => (m.heap p).data
  | none => m.disk (blockSector b)

/-- The cached copy is the disk's. -/
def Clean (m : Machine) (p : Ptr) : Prop :=
  (m.heap p).data = m.disk (blockSector (m.heap p).blockNo)

/-- `cache_acquire` of a cached block that is not locked. -/
def hit (m : Machine) (p : Ptr) : Machine := (m.touch p).setBlock p fun b => {b with locked := true}

/-- `cache_acquire` of a block that is not cached, which becomes object `p`. -/
def missed (m : Machine) (p : Ptr) (b : UInt64) : Machine :=
  { m.evict.record ⟨false, .block b, blockSector b⟩ with
    head := p :: m.evict.head, allocs := m.allocs + 1
    heap := update m.heap p ⟨b, true, false, true, true, m.disk (blockSector b)⟩ }

def released (m : Machine) (p : Ptr) : Machine :=
  m.setBlock p fun b => {b with acquired := false, locked := false}

end Machine

theorem blockSector_inj {a b : UInt64} : blockSector a = blockSector b ↔ a = b := by
  unfold blockSector
  exact UInt64.add_left_inj ..

/-! ### Running the routines -/

section Runs
variable (arena : Arena) {m : Machine} {b : UInt64} {p : Ptr}

theorem acquireSleeplock_free (hl : (m.heap p).locked = false) :
    (acquireSleeplock p).run m = .ok () (m.setBlock p fun b => {b with locked := true}) := by
  rw [acquireSleeplock, bind_ok (get_run m)]
  simp only [hl, Bool.false_eq_true, if_false, set_run]

theorem acquireSleeplock_taken (hl : (m.heap p).locked = true) :
    (acquireSleeplock p).run m = .error (.asleep (.block p)) m := by
  rw [acquireSleeplock, bind_ok (get_run m)]
  simp only [hl, if_true, throw_run]

theorem cacheLoad_run : (cacheLoad p).run m =
    .ok () ((m.record ⟨false, .block (m.heap p).blockNo, blockSector (m.heap p).blockNo⟩).setBlock p
      fun b => {b with valid := true, acquired := true, data := m.disk (blockSector b.blockNo)}) := by
  rw [cacheLoad, deviceRead, bind_ok (modify_run _ m), modify_run]
  simp [Machine.setBlock, Machine.record]

theorem cacheFind_hit (h : m.lookup b = some p) :
    (cacheFind arena b).run m = .ok (p, true) (m.touch p) := by
  rw [cacheFind, bind_ok (get_run m)]
  simp only [h]
  rfl

theorem cacheFind_miss (h : m.lookup b = none) :
    (cacheFind arena b).run m = .ok (arena.pick m.allocs m.evict.head, false)
      (m.evict.link (arena.pick m.allocs m.evict.head) b) := by
  rw [cacheFind, bind_ok (get_run m)]
  simp only [h]
  rfl

theorem cacheAcquire_hit (h : m.lookup b = some p) (hl : (m.heap p).locked = false) :
    (cacheAcquire arena b).run m = .ok p (m.hit p) := by
  have hl' : ((m.touch p).heap p).locked = false := hl
  rw [cacheAcquire, bind_ok (cacheFind_hit arena h)]
  dsimp only
  rw [bind_ok (acquireSleeplock_free hl')]
  rfl

/-- A block somebody holds is waited for. -/
theorem cacheAcquire_held (h : m.lookup b = some p) (hl : (m.heap p).locked = true) :
    (cacheAcquire arena b).run m = .error (.asleep (.block p)) (m.touch p) := by
  have hl' : ((m.touch p).heap p).locked = true := hl
  rw [cacheAcquire, bind_ok (cacheFind_hit arena h), bind_error (acquireSleeplock_taken hl')]

theorem cacheAcquire_miss (h : m.lookup b = none) :
    (cacheAcquire arena b).run m = .ok (arena.pick m.allocs m.evict.head)
      (m.missed (arena.pick m.allocs m.evict.head) b) := by
  have hl : ((m.evict.link (arena.pick m.allocs m.evict.head) b).heap
      (arena.pick m.allocs m.evict.head)).locked = false := by
    simp [Machine.link, initBlock]
  rw [cacheAcquire, bind_ok (cacheFind_miss arena h)]
  dsimp only
  rw [bind_ok (acquireSleeplock_free hl), if_neg Bool.false_ne_true, bind_ok cacheLoad_run, pure_run]
  simp [Machine.missed, Machine.link, Machine.setBlock, Machine.record, Machine.evict, initBlock]

/-- The three things `cache_acquire` can do. -/
theorem cacheAcquire_cases (b : UInt64) (m : Machine) :
    (∃ p, m.lookup b = some p ∧ (cacheAcquire arena b).run m = .ok p (m.hit p)) ∨
    (∃ p, m.lookup b = some p ∧ (m.heap p).locked = true ∧
      (cacheAcquire arena b).run m = .error (.asleep (.block p)) (m.touch p)) ∨
    (m.lookup b = none ∧ ∃ p, p ∉ m.evict.head ∧ (cacheAcquire arena b).run m = .ok p (m.missed p b)) := by
  cases hl : m.lookup b with
  | none => exact Or.inr (Or.inr ⟨rfl, _, arena.fresh _ _, cacheAcquire_miss arena hl⟩)
  | some p =>
    cases hlock : (m.heap p).locked with
    | false => exact Or.inl ⟨p, rfl, cacheAcquire_hit arena hl hlock⟩
    | true => exact Or.inr (Or.inl ⟨p, rfl, hlock, cacheAcquire_held arena hl hlock⟩)

theorem cacheRelease_run : (cacheRelease p).run m = .ok () (m.released p) := by
  rw [cacheRelease, bind_ok (modify_run _ m), releaseSleeplock, modify_run]
  simp [Machine.released, Machine.setBlock]

theorem diskWrite_offline {t : Target} {n : UInt64} {d : BlockData} (hp : m.power = 0) :
    (diskWrite t n d).run m = .error .offline m := by
  rw [diskWrite, bind_ok (get_run m), if_pos hp, throw_run]

theorem diskWrite_run {t : Target} {n : UInt64} {d : BlockData} (hp : m.power ≠ 0) :
    (diskWrite t n d).run m = .ok () {m.record ⟨true, t, n⟩ with
      disk := update m.disk n d, power := m.power - 1} := by
  rw [diskWrite, bind_ok (get_run m), if_neg hp, set_run]

end Runs

/-! ### The list -/

section List
variable {m : Machine} {p q : Ptr} {b : UInt64}

theorem mem_touch (hp : p ∈ m.head) : q ∈ (m.touch p).head ↔ q ∈ m.head := by
  show q ∈ p :: m.head.erase p ↔ q ∈ m.head
  by_cases h : q = p
  · simp [h, hp]
  · simp [h, List.mem_erase_of_ne h]

theorem nodup_touch (h : m.head.Nodup) : (m.touch p).head.Nodup :=
  List.nodup_cons.mpr ⟨h.not_mem_erase, h.erase p⟩

theorem evict_subset (hq : q ∈ m.evict.head) : q ∈ m.head := (sweep_sublist m.head).subset hq

theorem evict_nodup (h : m.head.Nodup) : m.evict.head.Nodup := (sweep_sublist m.head).nodup h

theorem mem_evict (h : m.head.Nodup) (hq : q ∈ m.head) (hr : m.removable q = false) : q ∈ m.evict.head :=
  mem_sweep_of_kept (by decide) hq hr h

theorem hit_heap (q : Ptr) :
    (m.hit p).heap q = {m.heap q with locked := decide (q = p) || (m.heap q).locked} := by
  by_cases h : q = p
  · subst h
    simp [Machine.hit, Machine.touch]
  · rw [Machine.hit, Machine.setBlock_of_ne h]
    simp [h, Machine.touch]

theorem missed_self : (m.missed p b).heap p = ⟨b, true, false, true, true, m.disk (blockSector b)⟩ :=
  update_self ..

theorem missed_of_ne (h : q ≠ p) : (m.missed p b).heap q = m.heap q := update_of_ne h ..

theorem released_heap (q : Ptr) : (m.released p).heap q =
    {m.heap q with
      acquired := !decide (q = p) && (m.heap q).acquired
      locked := !decide (q = p) && (m.heap q).locked} := by
  by_cases h : q = p
  · subst h
    simp [Machine.released]
  · rw [Machine.released, Machine.setBlock_of_ne h]
    simp [h]

end List

/-! ### The invariant -/

/-- The blocks of `held` are locked, all others are free; a cached block differs from
the disk only if it is `dirty`, and a dirty one cannot be evicted. The block
that shares the sector of the log header, if there is one, is left out. -/
structure Cached (sb : SuperBlock) (dirty : List UInt64) (held : List Ptr) (m : Machine) : Prop where
  nodup : m.head.Nodup
  unique : ∀ p ∈ m.head, ∀ q ∈ m.head, (m.heap p).blockNo = (m.heap q).blockNo → p = q
  linked : ∀ p ∈ held, p ∈ m.head
  locked : ∀ p ∈ m.head, (m.heap p).locked = true ↔ p ∈ held
  acquired : ∀ p ∈ m.head, (m.heap p).acquired = true → p ∈ held
  valid : ∀ p ∈ m.head, (m.heap p).valid = true
  clean : ∀ p ∈ m.head, (m.heap p).blockNo ∉ dirty → blockSector (m.heap p).blockNo ≠ headerSector sb →
    m.Clean p
  pinned : ∀ p ∈ m.head, (m.heap p).blockNo ∈ dirty → (m.heap p).pinned = true
  cached : ∀ b ∈ dirty, ∃ p ∈ m.head, (m.heap p).blockNo = b

section View
variable {m : Machine} {p : Ptr} {b : UInt64}

theorem lookup_of_mem (hu : ∀ p ∈ m.head, ∀ q ∈ m.head, (m.heap p).blockNo = (m.heap q).blockNo → p = q)
    (hp : p ∈ m.head) (hb : (m.heap p).blockNo = b) : m.lookup b = some p := by
  cases h : m.lookup b with
  | none => exact absurd hb (Machine.lookup_none.mp h p hp)
  | some q =>
    obtain ⟨hq, hbq⟩ := Machine.lookup_some h
    rw [hu p hp q hq (hb.trans hbq.symm)]

theorem view_of_lookup (h : m.lookup b = some p) : m.view b = (m.heap p).data := by
  rw [Machine.view, h]

theorem view_of_none (h : m.lookup b = none) : m.view b = m.disk (blockSector b) := by
  rw [Machine.view, h]

theorem Cached.lookup (h : Cached sb dirty held m) (hp : p ∈ m.head) : m.lookup (m.heap p).blockNo = some p :=
  lookup_of_mem h.unique hp rfl

theorem Cached.view (h : Cached sb dirty held m) (hp : p ∈ m.head) : m.view (m.heap p).blockNo = (m.heap p).data :=
  view_of_lookup (h.lookup hp)

/-- The view of a block that is not dirty is the disk's. -/
theorem Cached.view_clean (h : Cached sb dirty held m) (hb : b ∉ dirty) (hs : blockSector b ≠ headerSector sb) :
    m.view b = m.disk (blockSector b) := by
  cases hl : m.lookup b with
  | none => exact view_of_none hl
  | some p =>
    obtain ⟨hp, rfl⟩ := Machine.lookup_some hl
    rw [view_of_lookup hl]
    exact h.clean p hp hb hs

end View

/-! ### Keeping it -/

section Keeping
variable {sb : SuperBlock} {dirty : List UInt64} {held : List Ptr} {m m' : Machine} {p : Ptr} {b : UInt64}

/-- The blocks differ in their contents and pins at most. -/
structure Block.SameBut (x y : Block) : Prop where
  blockNo : x.blockNo = y.blockNo
  locked : x.locked = y.locked
  acquired : x.acquired = y.acquired
  valid : x.valid = y.valid

section
variable (h : Cached sb dirty held m)
include h

/-- New contents and pins, and with them other dirty blocks. -/
theorem Cached.rewrite {dirty' : List UInt64} (hl : m'.head = m.head) (hh : ∀ q, (m'.heap q).SameBut (m.heap q))
    (clean : ∀ q ∈ m.head, (m.heap q).blockNo ∉ dirty' → blockSector (m.heap q).blockNo ≠ headerSector sb →
      m'.Clean q) (pinned : ∀ q ∈ m.head, (m.heap q).blockNo ∈ dirty' → (m'.heap q).pinned = true)
    (cached : ∀ b ∈ dirty', ∃ q ∈ m.head, (m.heap q).blockNo = b) : Cached sb dirty' held m' := by
  constructor
  all_goals simp only [hl, (hh _).blockNo, (hh _).locked, (hh _).acquired, (hh _).valid]
  exacts [h.nodup, h.unique, h.linked, h.locked, h.acquired, h.valid, clean, pinned, cached]

section
variable (hl : m'.head = m.head) (hh : m'.heap = m.heap)
include hl hh

/-- The invariant reads the list, the blocks and the disk, but not the sector of the log header. -/
theorem Cached.congr_off_header (hd : ∀ x ≠ headerSector sb, m'.disk x = m.disk x) : Cached sb dirty held m' := by
  refine h.rewrite hl (fun q => by rw [hh]; exact ⟨rfl, rfl, rfl, rfl⟩) (fun q hq hnd hs => ?clean)
    (fun q hq hin => ?pinned) h.cached
  case clean =>
    rw [Machine.Clean, hh, hd _ hs]
    exact h.clean q hq hnd hs
  case pinned =>
    rw [hh]
    exact h.pinned q hq hin

theorem Cached.congr (hd : m'.disk = m.disk) : Cached sb dirty held m' :=
  h.congr_off_header hl hh fun _ _ => by rw [hd]

omit h in
theorem view_congr (hd : m'.disk = m.disk) : m'.view b = m.view b := by
  simp only [Machine.view, Machine.lookup, hl, hh, hd]

end

theorem Cached.hit (hp : p ∈ m.head) : Cached sb dirty (p :: held) (m.hit p) where
  nodup := nodup_touch h.nodup
  unique q hq r hr := by
    rw [hit_heap, hit_heap]
    exact h.unique q ((mem_touch hp).mp hq) r ((mem_touch hp).mp hr)
  linked q hq := by
    rcases List.mem_cons.mp hq with rfl | hq
    · exact (mem_touch hp).mpr hp
    · exact (mem_touch hp).mpr (h.linked q hq)
  locked q hq := by
    have := h.locked q ((mem_touch hp).mp hq)
    simp only [hit_heap, Bool.or_eq_true, decide_eq_true_eq, this, List.mem_cons]
  acquired q hq ha := by
    rw [hit_heap] at ha
    exact List.mem_cons_of_mem p (h.acquired q ((mem_touch hp).mp hq) ha)
  valid q hq := by
    rw [hit_heap]
    exact h.valid q ((mem_touch hp).mp hq)
  clean q hq := by
    rw [Machine.Clean, hit_heap]
    exact h.clean q ((mem_touch hp).mp hq)
  pinned q hq := by
    rw [hit_heap]
    exact h.pinned q ((mem_touch hp).mp hq)
  cached b hb := by
    obtain ⟨q, hq, hqb⟩ := h.cached b hb
    exact ⟨q, (mem_touch hp).mpr hq, by rw [hit_heap]; exact hqb⟩

/-- A dirty block is not a victim of the eviction loop. -/
theorem Cached.dirty_kept (hb : b ∈ dirty) : ∃ q ∈ m.evict.head, (m.heap q).blockNo = b := by
  obtain ⟨q, hq, rfl⟩ := h.cached b hb
  have hr : m.removable q = false := by simp [Machine.removable, h.pinned q hq hb]
  exact ⟨q, mem_evict h.nodup hq hr, rfl⟩

theorem Cached.missed (hb : m.lookup b = none) (hk : ∀ q ∈ held, q ∈ m.evict.head) (hp : p ∉ m.evict.head) :
    Cached sb dirty (p :: held) (m.missed p b) := by
  have hne : ∀ q ∈ m.evict.head, q ≠ p := fun q hq he => hp (he ▸ hq)
  have hnew := Machine.lookup_none.mp hb
  have hdirty : b ∉ dirty := fun hd => by
    obtain ⟨q, hq, hqb⟩ := h.cached b hd
    exact hnew q hq hqb
  -- every field is the new block's own, or the old one's of a block that was kept
  have hcases : ∀ q ∈ (m.missed p b).head, q = p ∨ q ∈ m.evict.head ∧ q ∈ m.head ∧
      (m.missed p b).heap q = m.heap q := fun q hq => by
    rcases List.mem_cons.mp hq with rfl | hq
    · exact Or.inl rfl
    · exact Or.inr ⟨hq, evict_subset hq, missed_of_ne (hne q hq)⟩
  refine ⟨List.nodup_cons.mpr ⟨hp, evict_nodup h.nodup⟩, ?_, ?_, ?_, ?_, ?_, ?_, ?_, ?_⟩
  · intro q hq r hr he
    rcases hcases q hq with rfl | ⟨_, hqm, hqh⟩ <;> rcases hcases r hr with rfl | ⟨_, hrm, hrh⟩
    · rfl
    · rw [missed_self, hrh] at he
      exact absurd he.symm (hnew r hrm)
    · rw [missed_self, hqh] at he
      exact absurd he (hnew q hqm)
    · rw [hqh, hrh] at he
      exact h.unique q hqm r hrm he
  · intro q hq
    rcases List.mem_cons.mp hq with rfl | hq
    · exact List.mem_cons_self ..
    · exact List.mem_cons_of_mem p (hk q hq)
  · intro q hq
    rcases hcases q hq with rfl | ⟨hqe, hqm, hqh⟩
    · simp [missed_self]
    · rw [hqh, h.locked q hqm, List.mem_cons, or_iff_right (hne q hqe)]
  · intro q hq ha
    rcases hcases q hq with rfl | ⟨_, hqm, hqh⟩
    · exact List.mem_cons_self ..
    · rw [hqh] at ha
      exact List.mem_cons_of_mem p (h.acquired q hqm ha)
  · intro q hq
    rcases hcases q hq with rfl | ⟨_, hqm, hqh⟩
    · rw [missed_self]
    · rw [hqh]
      exact h.valid q hqm
  · intro q hq hd hs
    rcases hcases q hq with rfl | ⟨_, hqm, hqh⟩
    · rw [Machine.Clean, missed_self]
      rfl
    · rw [Machine.Clean, hqh]
      rw [hqh] at hd hs
      exact h.clean q hqm hd hs
  · intro q hq hd
    rcases hcases q hq with rfl | ⟨_, hqm, hqh⟩
    · rw [missed_self] at hd
      exact absurd hd hdirty
    · rw [hqh] at hd ⊢
      exact h.pinned q hqm hd
  · intro d hd
    obtain ⟨q, hq, hqb⟩ := h.dirty_kept hd
    exact ⟨q, List.mem_cons_of_mem p hq, by rw [missed_of_ne (hne q hq)]; exact hqb⟩

omit h in
theorem Cached.released (h : Cached sb dirty (p :: held) m) (hp : p ∉ held) :
    Cached sb dirty held (m.released p) where
  nodup := h.nodup
  unique q hq r hr := by
    rw [released_heap, released_heap]
    exact h.unique q hq r hr
  linked q hq := h.linked q (List.mem_cons_of_mem p hq)
  locked q hq := by
    rw [released_heap]
    simp only [Bool.and_eq_true, Bool.not_eq_true', decide_eq_false_iff_not, h.locked q hq, List.mem_cons]
    constructor
    · intro hex
      rcases hex with ⟨hne, rfl | hq'⟩
      · exact absurd rfl hne
      · exact hq'
    · exact fun hq' => ⟨fun he => hp (he ▸ hq'), Or.inr hq'⟩
  acquired q hq ha := by
    rw [released_heap] at ha
    simp only [Bool.and_eq_true, Bool.not_eq_true', decide_eq_false_iff_not] at ha
    rcases List.mem_cons.mp (h.acquired q hq ha.2) with rfl | hq'
    · exact absurd rfl ha.1
    · exact hq'
  valid q hq := by
    rw [released_heap]
    exact h.valid q hq
  clean q hq := by
    rw [Machine.Clean, released_heap]
    exact h.clean q hq
  pinned q hq := by
    rw [released_heap]
    exact h.pinned q hq
  cached b hb := by
    obtain ⟨q, hq, hqb⟩ := h.cached b hb
    exact ⟨q, hq, by rw [released_heap]; exact hqb⟩

theorem view_hit (hp : p ∈ m.head) : (m.hit p).view b = m.view b := by
  cases hl : m.lookup b with
  | none =>
    have hnone : (m.hit p).lookup b = none := Machine.lookup_none.mpr fun q hq => by
      rw [hit_heap]
      exact Machine.lookup_none.mp hl q ((mem_touch hp).mp hq)
    rw [view_of_none hl, view_of_none hnone]
    rfl
  | some q =>
    obtain ⟨hq, hqb⟩ := Machine.lookup_some hl
    have hsome : (m.hit p).lookup b = some q :=
      lookup_of_mem (h.hit hp).unique ((mem_touch hp).mpr hq) (by rw [hit_heap]; exact hqb)
    rw [view_of_lookup hl, view_of_lookup hsome, hit_heap]

/-- What the eviction loop drops is on the disk. -/
theorem view_missed (hb : m.lookup b = none) (hk : ∀ q ∈ held, q ∈ m.evict.head) (hp : p ∉ m.evict.head) {b' : UInt64}
    (hs : blockSector b' ≠ headerSector sb) : (m.missed p b).view b' = m.view b' := by
  have hc := h.missed hb hk hp
  cases hl : (m.missed p b).lookup b' with
  | some q =>
    obtain ⟨hq, hqb⟩ := Machine.lookup_some hl
    rw [view_of_lookup hl]
    rcases List.mem_cons.mp hq with rfl | hq
    · rw [missed_self] at hqb ⊢
      rw [← show b = b' from hqb, view_of_none hb]
    · have hne : q ≠ p := fun he => hp (he ▸ hq)
      rw [missed_of_ne hne] at hqb ⊢
      rw [view_of_lookup (lookup_of_mem h.unique (evict_subset hq) hqb)]
  | none =>
    have hnot : b' ∉ dirty := fun hd => by
      obtain ⟨q, hq, hqb⟩ := hc.cached b' hd
      exact Machine.lookup_none.mp hl q hq hqb
    rw [view_of_none hl, h.view_clean hnot hs]
    rfl

end

theorem lookup_congr (hl : m'.head = m.head) (hh : ∀ q, (m'.heap q).blockNo = (m.heap q).blockNo) :
    m'.lookup b = m.lookup b := by
  simp only [Machine.lookup, hl, hh]

theorem view_released : (m.released p).view b = m.view b := by
  have hlookup : (m.released p).lookup b = m.lookup b :=
    lookup_congr rfl fun q => by rw [released_heap]
  cases hl : m.lookup b with
  | none =>
    rw [view_of_none hl, view_of_none (hlookup.trans hl)]
    rfl
  | some q => rw [view_of_lookup hl, view_of_lookup (hlookup.trans hl), released_heap]

end Keeping

end OS2021.Fs
