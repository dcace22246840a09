import OS2021.Fs.CacheProofs

/-! One specification for each routine of the block cache, in terms of the view. -/
namespace OS2021.Fs
open Lib Function

variable {sb : SuperBlock} {dirty dirty' : List UInt64} {held : List Ptr} {m m' : Machine} {p : Ptr}
  {b b' : UInt64} {d : BlockData}

/-! ### Writing to a held block -/

/-- The block gets new contents, and so does its sector. -/
def Machine.stored (m : Machine) (p : Ptr) (d : BlockData) : Machine :=
  {m.setBlock p fun b => {b with data := d} with
    disk := update m.disk (blockSector (m.heap p).blockNo) d}

/-- The block gets new contents, which the log will write. -/
def Machine.logged (m : Machine) (p : Ptr) (d : BlockData) : Machine :=
  m.setBlock p fun b => {b with data := d, pinned := true}

theorem stored_of_ne {q : Ptr} (h : q ≠ p) : (m.stored p d).heap q = m.heap q := update_of_ne h ..

theorem stored_self : (m.stored p d).heap p = {m.heap p with data := d} := update_self ..

theorem stored_disk :
    (m.stored p d).disk = update m.disk (blockSector (m.heap p).blockNo) d := rfl

theorem stored_blockNo (q : Ptr) : ((m.stored p d).heap q).blockNo = (m.heap q).blockNo := by
  by_cases h : q = p
  · rw [h, stored_self]
  · rw [stored_of_ne h]

theorem stored_pinned (q : Ptr) : ((m.stored p d).heap q).pinned = (m.heap q).pinned := by
  by_cases h : q = p
  · rw [h, stored_self]
  · rw [stored_of_ne h]

theorem logged_of_ne {q : Ptr} (h : q ≠ p) : (m.logged p d).heap q = m.heap q := Machine.setBlock_of_ne h

theorem logged_self : (m.logged p d).heap p = {m.heap p with data := d, pinned := true} :=
  Machine.setBlock_self

theorem logged_blockNo (q : Ptr) : ((m.logged p d).heap q).blockNo = (m.heap q).blockNo := by
  by_cases h : q = p
  · rw [h, logged_self]
  · rw [logged_of_ne h]

theorem stored_flags (q : Ptr) : ((m.stored p d).heap q).SameBut (m.heap q) := by
  by_cases h : q = p
  · rw [h, stored_self]
    exact ⟨rfl, rfl, rfl, rfl⟩
  · rw [stored_of_ne h]
    exact ⟨rfl, rfl, rfl, rfl⟩

theorem logged_flags (q : Ptr) : ((m.logged p d).heap q).SameBut (m.heap q) := by
  by_cases h : q = p
  · rw [h, logged_self]
    exact ⟨rfl, rfl, rfl, rfl⟩
  · rw [logged_of_ne h]
    exact ⟨rfl, rfl, rfl, rfl⟩

section
variable (h : Cached sb dirty held m) (hp : p ∈ m.head)
include h hp

theorem Cached.stored : Cached sb dirty held (m.stored p d) := by
  refine h.rewrite rfl stored_flags (fun q hq hd hs => ?clean) (fun q hq hd => ?pinned) h.cached
  case clean =>
    by_cases hqp : q = p
    · rw [Machine.Clean, hqp, stored_self, stored_disk, update_self]
    · have hne : blockSector (m.heap q).blockNo ≠ blockSector (m.heap p).blockNo := fun he =>
        hqp (h.unique q hq p hp (blockSector_inj.mp he))
      rw [Machine.Clean, stored_of_ne hqp, stored_disk, update_of_ne hne]
      exact h.clean q hq hd hs
  case pinned =>
    rw [stored_pinned]
    exact h.pinned q hq hd

theorem Cached.logged (hd : ∀ c, c ∈ dirty' ↔ c ∈ dirty ∨ c = (m.heap p).blockNo) :
    Cached sb dirty' held (m.logged p d) := by
  refine h.rewrite rfl logged_flags (fun q hq hnd hs => ?clean) (fun q hq hin => ?pinned) fun c hc => ?cached
  case clean =>
    have hqp : q ≠ p := fun he => hnd ((hd _).mpr (Or.inr (by rw [he])))
    rw [Machine.Clean, logged_of_ne hqp]
    exact h.clean q hq (fun hin => hnd ((hd _).mpr (Or.inl hin))) hs
  case pinned =>
    by_cases hqp : q = p
    · rw [hqp, logged_self]
    · rw [logged_of_ne hqp]
      rcases (hd _).mp hin with hin | he
      · exact h.pinned q hq hin
      · exact absurd (h.unique q hq p hp he) hqp
  case cached =>
    rcases (hd c).mp hc with hc | rfl
    · exact h.cached c hc
    · exact ⟨p, hp, rfl⟩

/-- Writing a held block changes the view of that block alone. -/
theorem view_changed (hl : m'.head = m.head) (hself : (m'.heap p).data = d)
    (hother : ∀ q, q ≠ p → m'.heap q = m.heap q) (hno : ∀ q, (m'.heap q).blockNo = (m.heap q).blockNo)
    (hdisk : ∀ c, c ≠ (m.heap p).blockNo → m'.disk (blockSector c) = m.disk (blockSector c)) :
    m'.view b = if b = (m.heap p).blockNo then d else m.view b := by
  have hlookup : m'.lookup b = m.lookup b := lookup_congr hl hno
  split
  case isTrue hb =>
    rw [hb] at hlookup ⊢
    rw [view_of_lookup (hlookup.trans (h.lookup hp)), hself]
  case isFalse hb =>
    cases hm : m.lookup b with
    | none => rw [view_of_none hm, view_of_none (hlookup.trans hm), hdisk b hb]
    | some q =>
      have hqp : q ≠ p := fun he => hb (by rw [← (Machine.lookup_some hm).2, he])
      rw [view_of_lookup hm, view_of_lookup (hlookup.trans hm), hother q hqp]

theorem view_stored : (m.stored p d).view b = if b = (m.heap p).blockNo then d else m.view b :=
  view_changed h hp rfl (by rw [stored_self]) (fun _ hq => stored_of_ne hq) stored_blockNo
    fun _ hc => by rw [stored_disk, update_of_ne (fun he => hc (blockSector_inj.mp he))]

theorem view_logged : (m.logged p d).view b = if b = (m.heap p).blockNo then d else m.view b :=
  view_changed h hp rfl (by rw [logged_self]) (fun _ hq => logged_of_ne hq) logged_blockNo fun _ _ => rfl

end

/-! ### Acquiring -/

/-- What acquiring and releasing blocks leave alone. -/
structure Frame (m m' : Machine) : Prop where
  disk : m'.disk = m.disk
  power : m'.power = m.power
  header : m'.header = m.header
  log : m'.log = m.log
  ctx : m'.ctx = m.ctx

/-- No cached block is pinned. -/
def Unpinned (m : Machine) : Prop := ∀ q ∈ m.head, (m.heap q).pinned = false

/-- `cache_acquire(b)` returned `p`, with the blocks of `held` already locked. -/
structure Acquired (sb : SuperBlock) (dirty : List UInt64) (held : List Ptr) (b : UInt64) (m : Machine)
    (p : Ptr) (m' : Machine) : Prop where
  cached : Cached sb dirty (p :: held) m'
  new : p ∉ held
  first : m'.head.head? = some p
  blockNo : (m'.heap p).blockNo = b
  valid : (m'.heap p).valid = true
  data : (m'.heap p).data = m.view b
  view : ∀ b', blockSector b' ≠ headerSector sb → m'.view b' = m.view b'
  others : ∀ q ∈ held, m'.heap q = m.heap q
  frame : Frame m m'
  unpinned : Unpinned m → Unpinned m'

theorem acquired_hit (h : Cached sb dirty held m) (hl : m.lookup b = some p) (hp : p ∉ held) :
    Acquired sb dirty held b m p (m.hit p) := by
  obtain ⟨hmem, hb⟩ := Machine.lookup_some hl
  refine ⟨h.hit hmem, hp, rfl, ?_, ?_, ?_, fun b' _ => view_hit h hmem, ?_, ⟨rfl, rfl, rfl, rfl, rfl⟩, ?_⟩
  · rw [hit_heap]
    exact hb
  · rw [hit_heap]
    exact h.valid p hmem
  · rw [hit_heap, view_of_lookup hl]
  · intro q hq
    have hne : q ≠ p := fun he => hp (he ▸ hq)
    rw [hit_heap]
    simp [hne]
  · intro hu q hq
    rw [hit_heap]
    exact hu q ((mem_touch hmem).mp hq)

theorem acquired_missed (h : Cached sb dirty held m) (hl : m.lookup b = none)
    (hk : ∀ q ∈ held, q ∈ m.evict.head) (hp : p ∉ m.evict.head) :
    Acquired sb dirty held b m p (m.missed p b) := by
  have hnew : p ∉ held := fun hq => hp (hk p hq)
  refine ⟨h.missed hl hk hp, hnew, rfl, ?_, ?_, ?_, fun b' hs => view_missed h hl hk hp hs, ?_,
    ⟨rfl, rfl, rfl, rfl, rfl⟩, ?_⟩
  · rw [missed_self]
  · rw [missed_self]
  · rw [missed_self, view_of_none hl]
  · exact fun q hq => missed_of_ne fun he => hnew (he ▸ hq)
  · intro hu q hq
    rcases List.mem_cons.mp hq with rfl | hq
    · rw [missed_self]
    · have hne : q ≠ p := fun he => hp (he ▸ hq)
      rw [missed_of_ne hne]
      exact hu q (evict_subset hq)

/-- `cache_acquire` returns unless the block is held; the blocks held before it
must be ones the eviction loop keeps. -/
theorem cacheAcquire_spec (arena : Arena) (h : Cached sb dirty held m)
    (hfree : ∀ p, m.lookup b = some p → p ∉ held)
    (hk : m.lookup b = none → ∀ q ∈ held, q ∈ m.evict.head) :
    ∃ p m', (cacheAcquire arena b).run m = .ok p m' ∧ Acquired sb dirty held b m p m' := by
  cases hl : m.lookup b with
  | none =>
    exact ⟨_, _, cacheAcquire_miss arena hl, acquired_missed h hl (hk hl) (arena.fresh _ _)⟩
  | some p =>
    have hp := hfree p hl
    have hfreep : (m.heap p).locked = false := by
      rw [← Bool.not_eq_true, h.locked p (Machine.lookup_some hl).1]
      exact hp
    exact ⟨p, _, cacheAcquire_hit arena hl hfreep, acquired_hit h hl hp⟩

/-- With nothing held every block can be acquired. -/
theorem cacheAcquire_idle (arena : Arena) (h : Cached sb dirty [] m) (b : UInt64) :
    ∃ p m', (cacheAcquire arena b).run m = .ok p m' ∧ Acquired sb dirty [] b m p m' :=
  cacheAcquire_spec arena h (fun _ _ => List.not_mem_nil) fun _ _ hq => absurd hq List.not_mem_nil

/-- The block acquired last is kept when nothing is pinned: the loop stops before it gets to the front. -/
theorem front_kept (h : Cached sb dirty [p] m) (hu : Unpinned m) (hf : m.head.head? = some p) :
    p ∈ m.evict.head := by
  obtain ⟨rest, hrest⟩ : ∃ rest, m.head = p :: rest := by
    cases hh : m.head with
    | nil => simp [hh] at hf
    | cons q rest =>
      simp only [hh, List.head?_cons, Option.some.injEq] at hf
      exact ⟨rest, by rw [hf]⟩
  have hnd := h.nodup
  rw [hrest] at hnd
  have hnot : p ∉ rest := (List.nodup_cons.mp hnd).1
  have hall : rest.filter m.removable = rest := by
    apply List.filter_eq_self.mpr
    intro q hq
    have hmem : q ∈ m.head := hrest ▸ List.mem_cons_of_mem p hq
    have hacq : (m.heap q).acquired = false := by
      rw [← Bool.not_eq_true]
      exact fun ha => hnot (List.mem_singleton.mp (h.acquired q hmem ha) ▸ hq)
    simp [Machine.removable, hu q hmem, hacq]
  show p ∈ sweep evictionThreshold m.removable m.head
  rw [hrest, ← List.nil_append (p :: rest)]
  refine (mem_sweep (by decide) List.not_mem_nil hnot).mpr (Or.inr ?_)
  rw [hall, List.nil_append, List.length_cons, evictionThreshold]
  omega

end OS2021.Fs
