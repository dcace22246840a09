import OS2021.Fs.Syncs
import OS2021.Fs.Tree

/-! The inode table: which entry `inode_alloc` takes, which one `inode_sync` writes.

`inode_alloc` looks for a free entry up to and including number `num_inodes`, while
`inode_get` asserts that a number is below `num_inodes`. As long as an entry below is
free, or the one at the bound is taken, the two agree: the first free entry is taken,
it is cleared, and no other byte of the disk changes. `inode_sync` copies an inode to
its entry or loads it from there (`inodeSync_slots`). -/
namespace OS2021.Fs
open Lib

variable {sb : SuperBlock} {s : Volume} {i : Nat} {type : InodeType} {inums : List Nat}

/-- Entry `i` is free on the disk. -/
def Volume.FreeEntry (sb : SuperBlock) (s : Volume) (i : Nat) : Prop := (s.diskEntry sb i).type = inodeInvalid

instance (sb : SuperBlock) (s : Volume) (i : Nat) : Decidable (s.FreeEntry sb i) :=
  inferInstanceAs (Decidable ((s.diskEntry sb i).type = inodeInvalid))

/-- Entry `i` is the first of the table that is free. -/
structure Volume.FirstFreeEntry (sb : SuperBlock) (s : Volume) (i : Nat) : Prop where
  pos : 1 ≤ i
  lt : i < sb.numInodes.toNat
  free : s.FreeEntry sb i
  below : ∀ j, 1 ≤ j → j < i → ¬ s.FreeEntry sb j

theorem exists_firstFreeEntry (hpos : 1 ≤ i) (hlt : i < sb.numInodes.toNat) (hfree : s.FreeEntry sb i) :
    ∃ j, s.FirstFreeEntry sb j := by
  have hex : ∃ j, 1 ≤ j ∧ s.FreeEntry sb j := ⟨i, hpos, hfree⟩
  have hle : Nat.find hex ≤ i := Nat.find_min' hex ⟨hpos, hfree⟩
  refine ⟨Nat.find hex, (Nat.find_spec hex).1, hle.trans_lt hlt, (Nat.find_spec hex).2, fun j hj hlt' hfree' => ?_⟩
  exact Nat.find_min hex hlt' ⟨hj, hfree'⟩

/-! ### The search -/

/-- The loop skips entries that are taken. -/
theorem inodeAllocFrom_append {rest : List Nat} (h : ∀ j ∈ inums, ¬ s.FreeEntry sb j) :
    (inodeAllocFrom sb type (inums ++ rest)).run s = (inodeAllocFrom sb type rest).run s := by
  induction inums with
  | nil => rfl
  | cons inum inums ih =>
    have htaken : ¬ (getEntry (s.blocks (toBlockNo sb inum)) inum).type = inodeInvalid :=
      h inum (List.mem_cons_self ..)
    rw [List.cons_append, inodeAllocFrom, bind_ok (get_run s)]
    dsimp only
    rw [if_neg htaken]
    exact ih fun j hj => h j (List.mem_cons_of_mem _ hj)

theorem inodeAllocFrom_free (h : s.FreeEntry sb i) :
    (inodeAllocFrom sb type (i :: inums)).run s = .ok i (s.storeEntry sb i {InodeEntry.zero with type}) := by
  have hfree : (getEntry (s.blocks (toBlockNo sb i)) i).type = inodeInvalid := h
  rw [inodeAllocFrom, bind_ok (get_run s)]
  dsimp only
  rw [if_pos hfree, bind_ok (set_run _ _), pure_run]
  rfl

/-- The first free entry that the counter comes to is taken, the one at the bound included. -/
theorem inodeAlloc_first (htype : type ≠ inodeInvalid) (hpos : 1 ≤ i) (hle : i ≤ sb.numInodes.toNat)
    (hfree : s.FreeEntry sb i) (hbelow : ∀ j, 1 ≤ j → j < i → ¬ s.FreeEntry sb j) :
    (inodeAlloc sb type).run s = .ok i (s.storeEntry sb i {InodeEntry.zero with type}) := by
  obtain ⟨k, rfl⟩ : ∃ k, i = k + 1 := ⟨i - 1, (Nat.sub_add_cancel hpos).symm⟩
  obtain ⟨d, hd⟩ : ∃ d, sb.numInodes.toNat = k + (d + 1) := ⟨sb.numInodes.toNat - (k + 1), by omega⟩
  have hrange : List.range (k + (d + 1)) = List.range k ++ k :: List.range' (k + 1) d := by
    rw [List.range_eq_range', List.range_eq_range', ← List.range'_append_1, Nat.zero_add, List.range'_succ]
  rw [inodeAlloc, bind_ok (assertThat_run htype), hd, hrange, List.map_append, List.append_assoc,
    inodeAllocFrom_append, List.map_cons, List.cons_append, inodeAllocFrom_free hfree]
  intro j hj
  obtain ⟨n, hn, rfl⟩ := List.mem_map.mp hj
  exact hbelow (n + 1) (Nat.succ_pos n) (Nat.succ_lt_succ (List.mem_range.mp hn))

/-- With all entries taken the search panics, unless its counter wraps. -/
theorem inodeAlloc_full (htype : type ≠ inodeInvalid)
    (hfull : ∀ j, 1 ≤ j → j ≤ sb.numInodes.toNat → ¬ s.FreeEntry sb j) :
    (∃ msg s', (inodeAlloc sb type).run s = .error (.panic msg) s') ↔ sb.numInodes.toNat + 1 < 2 ^ 32 := by
  rw [inodeAlloc, bind_ok (assertThat_run htype), inodeAllocFrom_append]
  · by_cases hcounter : sb.numInodes.toNat + 1 < 2 ^ 32
    · rw [if_pos hcounter, inodeAllocFrom, if_pos hcounter, throw_run]
      exact ⟨fun _ => hcounter, fun _ => ⟨_, _, rfl⟩⟩
    -- the counter is 0 again, which is no entry of the table
    · rw [if_neg hcounter]
      refine ⟨fun hpanics => ?_, fun h => absurd h hcounter⟩
      obtain ⟨msg, s', hpanic⟩ := hpanics
      by_cases hfree : s.FreeEntry sb 0
      · rw [inodeAllocFrom_free hfree] at hpanic
        cases hpanic
      · rw [← List.append_nil [0], inodeAllocFrom_append (by simpa using hfree), inodeAllocFrom, if_neg hcounter,
          throw_run] at hpanic
        cases hpanic
  intro j hj
  obtain ⟨k, hk, rfl⟩ := List.mem_map.mp hj
  rw [List.mem_range] at hk
  exact hfull (k + 1) (Nat.succ_pos k) hk

/-- Only the bytes of entry `i` change when it is stored. -/
theorem storeEntry_blocks {e : InodeEntry} {b : Nat} {k : Fin blockSize}
    (h : ¬ (b = toBlockNo sb i ∧ (k : Nat) / inodeEntrySize = i % inodePerBlock)) :
    (s.storeEntry sb i e).blocks b k = s.blocks b k := by
  rw [Volume.storeEntry]
  by_cases hb : b = toBlockNo sb i
  · rw [hb, setBlock_self, setEntry, if_neg fun hk => h ⟨hb, hk⟩]
  · rw [setBlock_of_ne hb]

/-! ### Agreement with `inode_get` -/

/-- An inode of the list that nobody references is not locked. -/
def Volume.Unlocked (s : Volume) : Prop := ∀ p ∈ s.head, (s.heap p).rc = 0 → (s.heap p).locked = false

theorem inodeGet_accepts (arena : Arena) (hs : s.Unlocked) (hpos : 0 < i) (hlt : i < sb.numInodes.toNat) :
    ∃ p s', (inodeGet sb arena i).run s = .ok p s' := by
  cases hfind : s.head.find? fun p => 0 < (s.heap p).rc && (s.heap p).inodeNo == i with
  | some p =>
    rw [inodeGet, bind_ok (assertThat_run hpos), bind_ok (assertThat_run hlt), bind_ok (get_run s), hfind]
    exact ⟨_, _, rfl⟩
  | none => exact ⟨_, _, inodeGet_fresh arena hs hpos hlt hfind⟩

/-- **`inode_alloc` stays inside the table**, exactly if an entry is free, or the entry at
`num_inodes`, behind the end of the table, does not look free and the counter does not wrap.
It returns the first free entry, cleared but for its type, with no other byte changed, and
`inode_get` accepts the number; it panics exactly if no entry is free. -/
theorem inodeAlloc_inside_table (sb : SuperBlock) (s : Volume) (type : InodeType) (htype : type ≠ inodeInvalid)
    (hnum : 2 ≤ sb.numInodes.toNat) :
    ((∀ i, s.FirstFreeEntry sb i → ∃ s', (inodeAlloc sb type).run s = .ok i s' ∧
      s'.diskEntry sb i = {InodeEntry.zero with type} ∧
      (∀ (b : Nat) (k : Fin blockSize), ¬ (b = toBlockNo sb i ∧ (k : Nat) / inodeEntrySize = i % inodePerBlock) →
        s'.blocks b k = s.blocks b k) ∧
      s'.heap = s.heap ∧ s'.head = s.head ∧
      ∀ (arena : Arena) (v : Volume), v.Unlocked → ∃ p v', (inodeGet sb arena i).run v = .ok p v') ∧
    ((∃ msg s', (inodeAlloc sb type).run s = .error (.panic msg) s') ↔ ¬ ∃ i, s.FirstFreeEntry sb i)) ↔
    (∃ i, s.FirstFreeEntry sb i) ∨ sb.numInodes.toNat + 1 < 2 ^ 32 ∧ ¬ s.FreeEntry sb sb.numInodes.toNat := by
  have hrun : ∀ i, s.FirstFreeEntry sb i →
      (inodeAlloc sb type).run s = .ok i (s.storeEntry sb i {InodeEntry.zero with type}) :=
    fun i h => inodeAlloc_first htype h.pos h.lt.le h.free h.below
  have hnoFree : (¬ ∃ i, s.FirstFreeEntry sb i) → ∀ j, 1 ≤ j → j < sb.numInodes.toNat → ¬ s.FreeEntry sb j :=
    fun hnone j hpos hlt hfree => hnone (exists_firstFreeEntry hpos hlt hfree)
  have hfull : (¬ ∃ i, s.FirstFreeEntry sb i) → ¬ s.FreeEntry sb sb.numInodes.toNat →
      ∀ j, 1 ≤ j → j ≤ sb.numInodes.toNat → ¬ s.FreeEntry sb j := by
    intro hnone hlast j hpos hle
    rcases hle.lt_or_eq with hlt | rfl
    · exact hnoFree hnone j hpos hlt
    · exact hlast
  constructor
  · intro h
    by_cases hex : ∃ i, s.FirstFreeEntry sb i
    · exact Or.inl hex
    have hpanic := h.2.mpr hex
    have hlast : ¬ s.FreeEntry sb sb.numInodes.toNat := by
      intro hfree
      obtain ⟨msg, s', hpanic⟩ := hpanic
      rw [inodeAlloc_first htype (by omega) le_rfl hfree (hnoFree hex)] at hpanic
      cases hpanic
    exact Or.inr ⟨(inodeAlloc_full htype (hfull hex hlast)).mp hpanic, hlast⟩
  intro hbound
  refine ⟨fun i h => ⟨_, hrun i h, ?_, fun b k => storeEntry_blocks, rfl, rfl, fun arena v hv => ?_⟩, ?_, ?_⟩
  · rw [diskEntry_storeEntry, if_pos rfl]
  · exact inodeGet_accepts arena hv h.pos h.lt
  · intro hpanic hex
    obtain ⟨msg, s', hpanic⟩ := hpanic
    obtain ⟨i, h⟩ := hex
    rw [hrun i h] at hpanic
    cases hpanic
  · intro hnone
    obtain ⟨hcounter, hlast⟩ := hbound.resolve_left hnone
    exact (inodeAlloc_full htype (hfull hnone hlast)).mpr hcounter

/-- On a disk of zeros the first entry is taken. -/
theorem inodeAlloc_inside_table_blank : ∃ s', (inodeAlloc .mkfs inodeDirectory).run
    ⟨fun _ => zeroBlock, fun _ => ⟨false, 0, 0, false, .zero⟩, [], 0⟩ = .ok 1 s' := by
  have hfirst : Volume.FirstFreeEntry .mkfs ⟨fun _ => zeroBlock, fun _ => ⟨false, 0, 0, false, .zero⟩, [], 0⟩ 1 :=
    ⟨le_rfl, by decide, rfl, fun j hj hlt => absurd hlt (not_lt.mpr hj)⟩
  obtain ⟨s', hrun, -⟩ := ((inodeAlloc_inside_table .mkfs _ inodeDirectory (by decide) (by decide)).mpr
    (Or.inl ⟨1, hfirst⟩)).1 1 hfirst
  exact ⟨s', hrun⟩

/-- A table of one inode, which is taken; the rest of its block is zero. -/
def fullTable : Volume where
  blocks := fun _ => setEntry zeroBlock 1 {InodeEntry.zero with type := inodeRegular}
  heap := fun _ => ⟨false, 0, 0, false, .zero⟩
  head := []
  allocs := 0

/-- The super block of that table. -/
def SuperBlock.oneInode : SuperBlock := {SuperBlock.mkfs with numInodes := 2}

theorem fullTable_entry (i : Nat) : (fullTable.diskEntry .oneInode i).type =
    if i % inodePerBlock = 1 % inodePerBlock then inodeRegular else (getEntry zeroBlock i).type := by
  show (getEntry (setEntry zeroBlock 1 _) i).type = _
  rw [getEntry_setEntry, apply_ite InodeEntry.type]

/-- The search goes on at the bound: it returns 2 there, which `inode_get` refuses. -/
theorem inodeAlloc_beyond_table : ∃ s', (inodeAlloc .oneInode inodeRegular).run fullTable = .ok 2 s' ∧
    (∀ i, ¬ fullTable.FirstFreeEntry .oneInode i) ∧
    ∀ arena, (inodeGet .oneInode arena 2).run s' =
      .error (.panic "assertion failed: \"inode_no < sblock->num_inodes\"") s' := by
  have htaken : ∀ j, 1 ≤ j → j < 2 → ¬ fullTable.FreeEntry .oneInode j := by
    intro j hj hlt hfree
    obtain rfl : j = 1 := by omega
    rw [Volume.FreeEntry, fullTable_entry, if_pos rfl] at hfree
    exact absurd hfree (by decide)
  have hfree : fullTable.FreeEntry .oneInode 2 := by
    rw [Volume.FreeEntry, fullTable_entry, if_neg (by decide)]
    rfl
  refine ⟨_, inodeAlloc_first (by decide) (by decide) (by decide) hfree htaken, fun i h => ?_, fun arena => ?_⟩
  · exact htaken i h.pos h.lt h.free
  · rw [inodeGet, bind_ok (assertThat_run (by decide)), bind_error (assertThat_fails (by decide))]
    rfl

/-! ### The slots of the table -/

/-- Byte `k` of block `b` is in the slot of entry `i`. -/
def InSlot (sb : SuperBlock) (i b : Nat) (k : Fin blockSize) : Prop :=
  b = toBlockNo sb i ∧ (k : Nat) / inodeEntrySize = i % inodePerBlock

/-- The entry is in its slot. -/
theorem diskEntry_of_slot {t : Volume} (h : ∀ b k, InSlot sb i b k → t.blocks b k = s.blocks b k) :
    t.diskEntry sb i = s.diskEntry sb i := by
  rw [Volume.diskEntry, Volume.diskEntry, getEntry, getEntry]
  refine InodeEntry.ofBytes_congr fun k hk => ?_
  have hk' : k < 64 := hk
  have hmod : i % 8 < 8 := Nat.mod_lt i (by decide)
  have hlt : inodeEntrySize * (i % inodePerBlock) + k < blockSize := by
    show 64 * (i % 8) + k < 512
    omega
  have hdiv : (64 * (i % 8) + k) / 64 = i % 8 := by omega
  rw [bytes_of_lt hlt, bytes_of_lt hlt]
  exact h _ _ ⟨rfl, hdiv⟩

/-- No inode of the list is in use for number `i`, so `inode_get` has to load it. -/
def Volume.NotInMemory (s : Volume) (i : Nat) : Prop :=
  s.head.find? (fun p => 0 < (s.heap p).rc && (s.heap p).inodeNo == i) = none

/-- **The slots of the table do not interfere.** `inode_sync` makes the entry on the disk that of the
inode, in all fields, and changes nothing else, on the disk or in memory. While the slot stays as it
was left, loading the inode yields that entry, with `inode_get` or with `inode_sync` when the inode is
not valid; that never writes to the disk. -/
theorem inodeSync_slots (sb : SuperBlock) (s : Volume) (p : Ptr) :
    ((s.heap p).valid = true → ∃ s', (inodeSync sb p true).run s = .ok () s' ∧
      s'.diskEntry sb (s.heap p).inodeNo = (s.heap p).entry ∧
      (∀ j, j ≠ (s.heap p).inodeNo → s'.diskEntry sb j = s.diskEntry sb j) ∧
      (∀ b k, ¬ InSlot sb (s.heap p).inodeNo b k → s'.blocks b k = s.blocks b k) ∧
      s'.heap = s.heap ∧ s'.head = s.head ∧ s'.allocs = s.allocs ∧
      ∀ t : Volume, (∀ b k, InSlot sb (s.heap p).inodeNo b k → t.blocks b k = s'.blocks b k) →
        (∀ arena, t.Unlocked → t.NotInMemory (s.heap p).inodeNo → 0 < (s.heap p).inodeNo →
          (s.heap p).inodeNo < sb.numInodes.toNat →
          ∃ q t', (inodeGet sb arena (s.heap p).inodeNo).run t = .ok q t' ∧
            t'.heap q = ⟨false, 1, (s.heap p).inodeNo, true, (s.heap p).entry⟩ ∧ t'.blocks = t.blocks) ∧
        ∀ q doWrite, (t.heap q).valid = false → (t.heap q).inodeNo = (s.heap p).inodeNo →
          ∃ t', (inodeSync sb q doWrite).run t = .ok () t' ∧
            t'.heap q = {t.heap q with valid := true, entry := (s.heap p).entry} ∧ t'.blocks = t.blocks) ∧
    ((s.heap p).valid = false → ∃ s', s'.blocks = s.blocks ∧ (∀ doWrite, (inodeSync sb p doWrite).run s = .ok () s') ∧
      (inodeSyncSyncs sb p).run s = .ok ((), []) s') := by
  refine ⟨fun hvalid => ?write, fun hvalid => ?load⟩
  case write =>
    refine ⟨s.synced sb p, inodeSync_write hvalid, ?_, fun j hj => ?_, fun b k hk => storeEntry_blocks hk, rfl, rfl,
      rfl, fun t ht => ?later⟩
    · rw [diskEntry_synced, if_pos rfl]
    · rw [diskEntry_synced, if_neg hj]
    case later =>
      have hentry : t.diskEntry sb (s.heap p).inodeNo = (s.heap p).entry := by
        rw [diskEntry_of_slot ht, diskEntry_synced, if_pos rfl]
      refine ⟨fun arena hu hnone hpos hlt => ?_, fun q doWrite hq hno => ?_⟩
      · exact ⟨_, _, inodeGet_fresh arena hu hpos hlt hnone, hentry ▸ setInode_self, (slotFor_free arena hu).2.2⟩
      · refine ⟨_, inodeSync_load hq, ?_, rfl⟩
        rw [setInode_self, ← hentry, ← hno]
  case load =>
    refine ⟨_, ?_, fun doWrite => inodeSync_load hvalid, ?_⟩
    · rfl
    · rw [inodeSyncSyncs, bind_ok (get_run s), bind_ok (inodeSync_load hvalid), hvalid]
      rfl

/-- A file of five bytes, number 9, that has grown in memory only. -/
def grownInode : Volume :=
  {fullTable with heap := fun _ => ⟨false, 1, 9, true, {InodeEntry.zero with type := inodeRegular, numBytes := 5}⟩}

theorem inodeSync_slots_grown : ∃ s', (inodeSync .mkfs 0 true).run grownInode = .ok () s' ∧
    s'.diskEntry .mkfs 9 = (grownInode.heap 0).entry ∧ s'.diskEntry .mkfs 10 = grownInode.diskEntry .mkfs 10 ∧
    ∀ arena, ∃ q t', (inodeGet .mkfs arena 9).run s' = .ok q t' ∧ (t'.heap q).entry.numBytes = 5 := by
  obtain ⟨s', hrun, hentry, hothers, -, -, hhead, -, hlater⟩ := (inodeSync_slots .mkfs grownInode 0).1 rfl
  have hnone : s'.NotInMemory 9 := by
    rw [Volume.NotInMemory, hhead]
    rfl
  have hunlocked : s'.Unlocked := fun q hq => absurd (hhead ▸ hq) List.not_mem_nil
  refine ⟨s', hrun, hentry, hothers 10 (by decide), fun arena => ?_⟩
  obtain ⟨q, t', hget, hq, -⟩ := (hlater s' fun _ _ _ => rfl).1 arena hunlocked hnone (by decide) (by decide)
  exact ⟨q, t', hget, by rw [hq]; rfl⟩

end OS2021.Fs
