import OS2021.Fs.Consistent

/-! How a file gets its blocks: `cache->alloc`, `cache->free` and `inode_map` on volumes
whose slots and bitmap agree. -/
namespace OS2021.Fs
open Lib Function

variable {sb : SuperBlock} {s s' s1 s2 : Volume} {p q : Ptr} {i b x : Nat} {f : InodeEntry → InodeEntry} {idx : Nat}
  {k : Nat × Slot} {blocks : Nat → BlockData}

/-! ### In-memory inodes but for their entries -/

structure SameInodes (s s' : Volume) : Prop where
  head : s'.head = s.head
  rc : ∀ q, (s'.heap q).rc = (s.heap q).rc
  inodeNo : ∀ q, (s'.heap q).inodeNo = (s.heap q).inodeNo
  valid : ∀ q, (s'.heap q).valid = (s.heap q).valid
  locked : ∀ q, (s'.heap q).locked = (s.heap q).locked

namespace SameInodes

theorem refl (s : Volume) : SameInodes s s := ⟨rfl, fun _ => rfl, fun _ => rfl, fun _ => rfl, fun _ => rfl⟩

theorem of_heap (hl : s'.head = s.head) (hh : s'.heap = s.heap) : SameInodes s s' :=
  ⟨hl, fun _ => by rw [hh], fun _ => by rw [hh], fun _ => by rw [hh], fun _ => by rw [hh]⟩

theorem trans (h : SameInodes s s1) (h' : SameInodes s1 s2) : SameInodes s s2 :=
  ⟨h'.head.trans h.head, fun q => (h'.rc q).trans (h.rc q), fun q => (h'.inodeNo q).trans (h.inodeNo q),
    fun q => (h'.valid q).trans (h.valid q), fun q => (h'.locked q).trans (h.locked q)⟩

theorem editEntry (s : Volume) (p : Ptr) (f : InodeEntry → InodeEntry) : SameInodes s (s.editEntry p f) := by
  refine ⟨rfl, fun q => (editEntry_flags q).1, fun q => (editEntry_flags q).2.1,
    fun q => (editEntry_flags q).2.2, fun q => ?_⟩
  by_cases h : q = p
  · rw [h, editEntry_self]
  · rw [editEntry_of_ne h]

theorem live (h : SameInodes s s') : s'.Live p ↔ s.Live p := by
  rw [Volume.Live, Volume.Live, h.head, h.rc]

theorem loaded (h : SameInodes s s') : s'.Loaded p ↔ s.Loaded p := by
  rw [Volume.Loaded, Volume.Loaded, h.live, h.valid]

theorem holder (h : SameInodes s s') : s'.holder i = s.holder i :=
  holder_congr h.head fun q => ⟨h.rc q, h.inodeNo q, h.valid q⟩

/-- Where only the inode at `p` has changed, only one inode can have another entry. -/
theorem entryOf (h : SameInodes s s') (others : ∀ q ≠ p, s'.heap q = s.heap q)
    (inodes : ∀ x < sb.bitmapStart.toNat, s'.blocks x = s.blocks x) (hl : Layout sb) (hw : Listed sb s)
    (hp : s.Loaded p) (hi : i ≤ sb.numInodes.toNat) :
    s'.entryOf sb i = if i = (s.heap p).inodeNo then (s'.heap p).entry else s.entryOf sb i := by
  have hholder : s'.holder i = s.holder i := h.holder
  by_cases he : i = (s.heap p).inodeNo
  · rw [if_pos he, Volume.entryOf_held (hholder.trans (he ▸ hw.holder hp))]
  · rw [if_neg he]
    cases hq : s.holder i with
    | none =>
      rw [Volume.entryOf_free (hholder.trans hq), Volume.entryOf_free hq, Volume.diskEntry,
        inodes _ (hl.toBlockNo_lt hi)]
      rfl
    | some q =>
      have hne : q ≠ p := fun h => he (by rw [← (Volume.holder_some hq).2, h])
      rw [Volume.entryOf_held (hholder.trans hq), Volume.entryOf_held hq, others q hne]

end SameInodes

theorem Listed.congr (hw : Listed sb s) (h : SameInodes s s')
    (ha : ∀ i, s.Allocated sb i → s'.Allocated sb i) : Listed sb s' := by
  constructor
  case nodup => rw [h.head]; exact hw.nodup
  case unique =>
    intro p q hp hq hno
    rw [h.inodeNo, h.inodeNo] at hno
    exact hw.unique p q (h.live.mp hp) (h.live.mp hq) hno
  case numbered => intro p hp; rw [h.inodeNo]; exact hw.numbered p (h.live.mp hp)
  case allocated => intro p hp; rw [h.inodeNo]; exact ha _ (hw.allocated p (h.live.mp hp))
  case unlocked =>
    intro p hp hrc
    rw [h.head] at hp
    rw [h.rc] at hrc
    rw [h.locked]
    exact hw.unlocked p hp hrc

/-! ### The allocator -/

/-- Block `b` has been allocated. -/
def Volume.taken (sb : SuperBlock) (s : Volume) (b : Nat) : Volume := (s.setUsed sb b).setBlock b zeroBlock

/-- `cache->alloc` gives out a free block, or there is none. -/
theorem blockAlloc_cases (sb : SuperBlock) (s : Volume) :
    (∃ b < sb.numBlocks.toNat, b ∉ s.used sb ∧ (blockAlloc sb).run s = .ok b (s.taken sb b)) ∨
    (∀ b < sb.numBlocks.toNat, b ∈ s.used sb) ∧
      (blockAlloc sb).run s = .error (.panic "cache_alloc: no free block") s := by
  rw [blockAlloc, bind_ok (get_run s)]
  cases hfind : (List.range sb.numBlocks.toNat).find? fun b => !s.isUsed sb b with
  | none =>
    right
    rw [List.find?_eq_none] at hfind
    refine ⟨fun b hb => ?_, rfl⟩
    have := hfind b (List.mem_range.mpr hb)
    show s.isUsed sb b = true
    simpa using this
  | some b =>
    left
    have htest := List.find?_some hfind
    refine ⟨b, List.mem_range.mp (List.mem_of_find?_eq_some hfind), fun hused => ?_, rfl⟩
    have hbit : s.isUsed sb b = true := hused
    rw [hbit] at htest
    cases htest

section Taken
variable (hl : Layout sb) (ho : Owned sb.dataStart sb.numBlocks.toNat (s.addr sb) (s.used sb))
  (hb : b ∉ s.used sb) (hlt : b < sb.numBlocks.toNat)
include hl ho hb hlt

theorem taken_blocks (hx : x < sb.bitmapStart.toNat ∨ sb.dataStart ≤ x ∧ x ≠ b) :
    (s.taken sb b).blocks x = s.blocks x := by
  have hge := ho.free_ge hb
  have hbm := hl.bitmapBlock_lt hlt
  have hbl := Layout.le_bitmapBlock sb b
  rw [Volume.taken, setBlock_of_ne (by omega), Volume.setUsed, setBlock_of_ne (by omega)]

omit hlt in
theorem mem_used_taken (hx : x < sb.numBlocks.toNat) :
    x ∈ (s.taken sb b).used sb ↔ x = b ∨ x ∈ s.used sb := by
  have hge := ho.free_ge hb
  have hbm := hl.bitmapBlock_lt hx
  have hkeep : x ∈ (s.taken sb b).used sb ↔ x ∈ (s.setUsed sb b).used sb :=
    mem_used_congr (setBlock_of_ne (by omega))
  rw [hkeep]
  show (s.setUsed sb b).isUsed sb x = true ↔ x = b ∨ s.isUsed sb x = true
  rw [isUsed_setUsed, Bool.or_eq_true, decide_eq_true_eq]

theorem taken_entryOf (hi : i ≤ sb.numInodes.toNat) : (s.taken sb b).entryOf sb i = s.entryOf sb i :=
  entryOf_congr rfl rfl (taken_blocks hl ho hb hlt (Or.inl (hl.toBlockNo_lt hi)))

theorem taken_allocated : (s.taken sb b).Allocated sb i ↔ s.Allocated sb i :=
  allocated_congr fun hi => by rw [taken_entryOf hl ho hb hlt hi]

/-- An owned block is not touched. -/
theorem taken_owned (hk : s.addr sb k ≠ 0) : (s.taken sb b).blocks (s.addr sb k) = s.blocks (s.addr sb k) :=
  taken_blocks hl ho hb hlt (Or.inr ⟨(ho.range k hk).1, ho.free_ne hb hk⟩)

theorem taken_addr (k : Nat × Slot) : (s.taken sb b).addr sb k = s.addr sb k :=
  addr_congr (taken_entryOf hl ho hb hlt) fun _ hne => taken_owned hl ho hb hlt hne

end Taken

/-! ### Giving a block to a slot -/

/-- The inode at `p` may have more blocks; the other inodes, the sizes and the inode
area are as they were. -/
structure Extended (sb : SuperBlock) (p : Ptr) (s s' : Volume) : Prop where
  same : SameInodes s s'
  others : ∀ q ≠ p, s'.heap q = s.heap q
  fields : (s'.heap p).entry =
    {(s.heap p).entry with addrs := (s'.heap p).entry.addrs, indirect := (s'.heap p).entry.indirect}
  inodes : ∀ x < sb.bitmapStart.toNat, s'.blocks x = s.blocks x
  owned : Owned sb.dataStart sb.numBlocks.toNat (s'.addr sb) (s'.used sb)
  exact : Exact sb.dataStart sb.numBlocks.toNat (s.addr sb) (s.used sb) →
    Exact sb.dataStart sb.numBlocks.toNat (s'.addr sb) (s'.used sb)
  kept : ∀ k, s.addr sb k ≠ 0 → s'.addr sb k = s.addr sb k
  only : ∀ k, k.1 ≠ (s.heap p).inodeNo → s'.addr sb k = s.addr sb k

namespace Extended

theorem refl (ho : Owned sb.dataStart sb.numBlocks.toNat (s.addr sb) (s.used sb)) : Extended sb p s s :=
  ⟨.refl s, fun _ _ => rfl, rfl, fun _ _ => rfl, ho, id, fun _ _ => rfl, fun _ _ => rfl⟩

theorem trans (h : Extended sb p s s1) (h' : Extended sb p s1 s2) : Extended sb p s s2 := by
  constructor
  case same => exact h.same.trans h'.same
  case others => exact fun q hq => (h'.others q hq).trans (h.others q hq)
  case fields => rw [h'.fields, h.fields]
  case inodes => exact fun x hx => (h'.inodes x hx).trans (h.inodes x hx)
  case owned => exact h'.owned
  case exact => exact fun he => h'.exact (h.exact he)
  case kept =>
    intro k hk
    rw [h'.kept k (by rw [h.kept k hk]; exact hk), h.kept k hk]
  case only =>
    intro k hk
    rw [h'.only k (by rw [h.same.inodeNo]; exact hk), h.only k hk]

section
variable (h : Extended sb p s s') (hl : Layout sb) (hw : Listed sb s) (hp : s.Loaded p)
include h hl hw hp

theorem entryOf (hi : i ≤ sb.numInodes.toNat) :
    s'.entryOf sb i = if i = (s.heap p).inodeNo then (s'.heap p).entry else s.entryOf sb i :=
  h.same.entryOf h.others h.inodes hl hw hp hi

theorem allocated : s'.Allocated sb i ↔ s.Allocated sb i := by
  apply allocated_congr
  intro hi
  rw [h.entryOf hl hw hp hi]
  by_cases he : i = (s.heap p).inodeNo
  · rw [if_pos he, h.fields, he, hw.entryOf hp]
  · rw [if_neg he]

theorem listed : Listed sb s' :=
  hw.congr h.same fun _ ha => (h.allocated hl hw hp).mpr ha

end

end Extended

/-- Blocks have been added to the inode at `p`, and no file's blocks have changed. -/
structure Grown (sb : SuperBlock) (p : Ptr) (s s' : Volume) : Prop extends Extended sb p s s' where
  data : ∀ i idx, s.addr sb (i, blockSlot idx) ≠ 0 →
    s'.blocks (s.addr sb (i, blockSlot idx)) = s.blocks (s.addr sb (i, blockSlot idx))

theorem Grown.refl (ho : Owned sb.dataStart sb.numBlocks.toNat (s.addr sb) (s.used sb)) : Grown sb p s s :=
  ⟨.refl ho, fun _ _ _ => rfl⟩

theorem Grown.trans (h : Grown sb p s s1) (h' : Grown sb p s1 s2) : Grown sb p s s2 := by
  refine ⟨h.toExtended.trans h'.toExtended, fun i idx hne => ?_⟩
  have hkeep := h.kept _ hne
  rw [← hkeep, h'.data i idx (by rw [hkeep]; exact hne), hkeep, h.data i idx hne]

/-! ### Slots after one has been filled -/

theorem addrOf_setDirect (blocks : Nat → BlockData) (e : InodeEntry) (a : Fin inodeNumDirect) (v : UInt32)
    (σ : Slot) :
    addrOf blocks {e with addrs := update e.addrs a v} σ =
      if σ = .direct a then v.toNat else addrOf blocks e σ := by
  cases σ with
  | direct j =>
    rw [addrOf, addrOf]
    dsimp only
    by_cases h : j = a
    · rw [h, update_self, if_pos rfl]
    · rw [update_of_ne h, if_neg fun he => h (Slot.direct.inj he)]
  | table => rfl
  | indirect j => rfl

/-- A new indirect block is zero, so it adds no slot but its own. -/
theorem addrOf_setTable {e : InodeEntry} {v : UInt32} (hz : e.indirect = 0) (hb : blocks v.toNat = zeroBlock)
    (σ : Slot) : addrOf blocks {e with indirect := v} σ = if σ = .table then v.toNat else addrOf blocks e σ := by
  cases σ with
  | direct j => rfl
  | table => rw [if_pos rfl, addrOf]
  | indirect j =>
    rw [if_neg (by simp), addrOf, addrOf, if_pos hz]
    split
    case isTrue => rfl
    case isFalse => rw [hb, getAddr_zeroBlock]; rfl

theorem addrOf_setAddr {e : InodeEntry} {v : UInt32} (hne : e.indirect ≠ 0) (j : Fin inodeNumIndirect) (σ : Slot) :
    addrOf (update blocks e.indirect.toNat (setAddr (blocks e.indirect.toNat) j v)) e σ =
      if σ = .indirect j then v.toNat else addrOf blocks e σ := by
  cases σ with
  | direct a => rfl
  | table => rfl
  | indirect l =>
    rw [addrOf, addrOf, if_neg hne, if_neg hne, update_self, getAddr_setAddr _ _ _ _ l.isLt]
    by_cases h : l = j
    · rw [if_pos (congrArg Fin.val h), if_pos (by rw [h])]
    · rw [if_neg fun he => h (Fin.ext he), if_neg fun he => h (Slot.indirect.inj he)]

/-- What the slots of a loaded inode own can be read off its entry. -/
theorem addr_loaded (hw : Listed sb s) (hp : s.Loaded p) (σ : Slot) :
    s.addr sb ((s.heap p).inodeNo, σ) = addrOf s.blocks (s.heap p).entry σ := by
  rw [addr_of_allocated (hw.allocated p hp.1), hw.entryOf hp]

theorem addr_editEntry (hw : Listed sb s) (hp : s.Loaded p) (ht : (f (s.heap p).entry).type = (s.heap p).entry.type)
    (k : Nat × Slot) : (s.editEntry p f).addr sb k =
      if k.1 = (s.heap p).inodeNo then addrOf s.blocks (f (s.heap p).entry) k.2 else s.addr sb k := by
  have hent : ∀ i, (s.editEntry p f).entryOf sb i =
      if i = (s.heap p).inodeNo then f (s.heap p).entry else s.entryOf sb i := fun i => entryOf_editEntry hw hp
  by_cases h : k.1 = (s.heap p).inodeNo
  · have ha : (s.editEntry p f).Allocated sb k.1 := by
      obtain ⟨hpos, hle, htype⟩ := hw.allocated p hp.1
      rw [hw.entryOf hp, ← ht] at htype
      rw [Volume.Allocated, hent, if_pos h, h]
      exact ⟨hpos, hle, htype⟩
    rw [if_pos h, Volume.addr, if_pos ha, hent, if_pos h]
    rfl
  · rw [if_neg h]
    refine addr_congr (fun _ => ?_) fun _ _ => rfl
    rw [hent, if_neg h]

/-! ### A free block becomes a slot's -/

/-- The general case: an empty slot of the inode at `p` now owns the block. -/
theorem Grown.of_assign {σ : Slot} (hl : Layout sb)
    (ho : Owned sb.dataStart sb.numBlocks.toNat (s.addr sb) (s.used sb)) (hb : b ∉ s.used sb)
    (hlt : b < sb.numBlocks.toNat) (hz : s.addr sb ((s.heap p).inodeNo, σ) = 0) (same : SameInodes s s')
    (others : ∀ q ≠ p, s'.heap q = s.heap q)
    (fields : (s'.heap p).entry =
      {(s.heap p).entry with addrs := (s'.heap p).entry.addrs, indirect := (s'.heap p).entry.indirect})
    (blocks : ∀ x, x ≠ s.addr sb ((s.heap p).inodeNo, .table) ∨ x < sb.dataStart →
      s'.blocks x = (s.taken sb b).blocks x)
    (haddr : ∀ k, s'.addr sb k = update (s.addr sb) ((s.heap p).inodeNo, σ) b k) :
    Grown sb p s s' := by
  have hst := hl.bitmapStart_le
  have hused : ∀ x < sb.numBlocks.toNat, x ∈ s'.used sb ↔ x ∈ insert b (s.used sb) := fun x hx => by
    have hsame : x ∈ s'.used sb ↔ x ∈ (s.taken sb b).used sb :=
      mem_used_congr (blocks _ (Or.inr (hl.bitmapBlock_lt hx)))
    rw [hsame, mem_used_taken hl ho hb hx, Set.mem_insert_iff]
  refine ⟨⟨same, others, fields, ?inodes, ?owned, ?exact, ?kept, ?only⟩, ?data⟩
  case inodes =>
    intro x hx
    rw [blocks x (Or.inr (by omega)), taken_blocks hl ho hb hlt (Or.inl hx)]
  case owned => exact (ho.assign hb hlt).congr haddr hused
  case exact => exact fun he => (he.assign ho.pos hz).congr haddr hused
  case kept =>
    intro k hk
    rw [haddr, update_of_ne fun he => hk (by rw [he, hz])]
  case only =>
    intro k hk
    rw [haddr, update_of_ne fun he => hk (by rw [he])]
  case data =>
    intro i idx hne
    have hslot : ((i, blockSlot idx) : Nat × Slot) ≠ ((s.heap p).inodeNo, .table) := fun he => by
      have h2 := (Prod.mk.inj he).2
      rw [blockSlot] at h2
      split at h2 <;> cases h2
    rw [blocks _ (Or.inl (ho.ne_of_ne hne hslot)), taken_owned hl ho hb hlt hne]

theorem toNat_ofNat_of_lt (hlt : b < sb.numBlocks.toNat) : (UInt32.ofNat b).toNat = b :=
  UInt32.toNat_ofNat_of_lt' (hlt.trans sb.numBlocks.toNat_lt)

section Assign
variable (hl : Layout sb) (hw : Listed sb s) (hp : s.Loaded p)
  (ho : Owned sb.dataStart sb.numBlocks.toNat (s.addr sb) (s.used sb))
  (hb : b ∉ s.used sb) (hlt : b < sb.numBlocks.toNat)
include hl hw hp ho hb hlt

omit hp in
theorem Listed.taken : Listed sb (s.taken sb b) :=
  hw.congr (.of_heap rfl rfl) fun _ ha => (taken_allocated hl ho hb hlt).mpr ha

/-- The slots of the inode at `p` after the allocation, and after one of them has got the block. -/
theorem taken_addrOf (hk : k.1 = (s.heap p).inodeNo) :
    addrOf (s.taken sb b).blocks (s.heap p).entry k.2 = s.addr sb k := by
  have hp' : (s.taken sb b).Loaded p := hp
  rw [← taken_addr hl ho hb hlt k, show k = ((s.heap p).inodeNo, k.2) from Prod.ext hk rfl]
  exact (addr_loaded (hw.taken hl ho hb hlt) hp' k.2).symm

theorem assigned_slot {σ : Slot} (hk : k.1 = (s.heap p).inodeNo) :
    (if k.2 = σ then b else addrOf (s.taken sb b).blocks (s.heap p).entry k.2) =
      update (s.addr sb) ((s.heap p).inodeNo, σ) b k := by
  by_cases hσ : k.2 = σ
  · rw [if_pos hσ, show k = ((s.heap p).inodeNo, σ) from Prod.ext hk hσ, update_self]
  · rw [if_neg hσ, taken_addrOf hl hw hp ho hb hlt hk, update_of_ne fun he => hσ (congrArg Prod.snd he)]

/-- The block goes to a slot in the entry. -/
theorem assign_edit {σ : Slot} (hz : s.addr sb ((s.heap p).inodeNo, σ) = 0)
    (hf : f (s.heap p).entry = {(s.heap p).entry with
      addrs := (f (s.heap p).entry).addrs, indirect := (f (s.heap p).entry).indirect})
    (hself : ∀ τ, addrOf (s.taken sb b).blocks (f (s.heap p).entry) τ =
      if τ = σ then b else addrOf (s.taken sb b).blocks (s.heap p).entry τ) :
    Grown sb p s ((s.taken sb b).editEntry p f) ∧
      ∀ k, ((s.taken sb b).editEntry p f).addr sb k =
        update (s.addr sb) ((s.heap p).inodeNo, σ) b k := by
  have hw' := hw.taken hl ho hb hlt
  have hp' : (s.taken sb b).Loaded p := hp
  have ht : (f (s.heap p).entry).type = (s.heap p).entry.type := by rw [hf]
  have hedit : ∀ k, ((s.taken sb b).editEntry p f).addr sb k = if k.1 = (s.heap p).inodeNo
      then addrOf (s.taken sb b).blocks (f (s.heap p).entry) k.2 else (s.taken sb b).addr sb k :=
    addr_editEntry hw' hp' ht
  have haddr : ∀ k, ((s.taken sb b).editEntry p f).addr sb k =
      update (s.addr sb) ((s.heap p).inodeNo, σ) b k := by
    intro k
    rw [hedit]
    by_cases hk : k.1 = (s.heap p).inodeNo
    · rw [if_pos hk, hself, assigned_slot hl hw hp ho hb hlt hk]
    · rw [if_neg hk, taken_addr hl ho hb hlt, update_of_ne fun he => hk (congrArg Prod.fst he)]
  have htaken : SameInodes s (s.taken sb b) := .of_heap rfl rfl
  have hsame := htaken.trans (.editEntry (s.taken sb b) p f)
  refine ⟨Grown.of_assign hl ho hb hlt hz hsame ?_ ?_ (fun _ _ => rfl) haddr, haddr⟩
  · exact fun q hq => editEntry_of_ne hq
  · rw [editEntry_self]
    exact hf

/-- The block goes to an address in the indirect block. -/
theorem assign_indirect (j : Fin inodeNumIndirect) (hne : (s.heap p).entry.indirect ≠ 0)
    (hz : s.addr sb ((s.heap p).inodeNo, .indirect j) = 0) :
    Grown sb p s ((s.taken sb b).setBlock (s.heap p).entry.indirect.toNat
        (setAddr ((s.taken sb b).blocks (s.heap p).entry.indirect.toNat) j (UInt32.ofNat b))) ∧
      ∀ k, ((s.taken sb b).setBlock (s.heap p).entry.indirect.toNat
        (setAddr ((s.taken sb b).blocks (s.heap p).entry.indirect.toNat) j (UInt32.ofNat b))).addr sb k =
          update (s.addr sb) ((s.heap p).inodeNo, .indirect j) b k := by
  have hw' := hw.taken hl ho hb hlt
  have hp' : (s.taken sb b).Loaded p := hp
  have hall := hw.allocated p hp.1
  have htable : s.addr sb ((s.heap p).inodeNo, .table) = (s.heap p).entry.indirect.toNat := by
    rw [addr_table hall, hw.entryOf hp]
  have htne : s.addr sb ((s.heap p).inodeNo, .table) ≠ 0 := by
    rw [htable]
    exact toNat_ne_zero.mpr hne
  rw [← htable]
  have hge := (ho.range _ htne).1
  have hst := hl.bitmapStart_le
  have hent : ∀ i ≤ sb.numInodes.toNat, ∀ d,
      ((s.taken sb b).setBlock (s.addr sb ((s.heap p).inodeNo, .table)) d).entryOf sb i =
        (s.taken sb b).entryOf sb i := fun i hi d => entryOf_setBlock hl (by omega) hi
  have haddr : ∀ k, ((s.taken sb b).setBlock (s.addr sb ((s.heap p).inodeNo, .table))
      (setAddr ((s.taken sb b).blocks (s.addr sb ((s.heap p).inodeNo, .table))) j (UInt32.ofNat b))).addr sb k =
        update (s.addr sb) ((s.heap p).inodeNo, .indirect j) b k := by
    intro k
    by_cases hk : k.1 = (s.heap p).inodeNo
    · have hall' : (s.taken sb b).Allocated sb k.1 := by
        rw [hk]
        exact hw'.allocated p hp.1
      have hentry : (s.taken sb b).entryOf sb k.1 = (s.heap p).entry := by
        rw [hk]
        exact hw'.entryOf hp'
      rw [Volume.addr, if_pos ((allocated_congr fun hi => by rw [hent k.1 hi]).mpr hall'), hent k.1 hall'.2.1,
        hentry, htable]
      refine (addrOf_setAddr hne j k.2).trans ?_
      rw [toNat_ofNat_of_lt hlt, assigned_slot hl hw hp ho hb hlt hk]
    · rw [update_of_ne fun he => hk (congrArg Prod.fst he), ← taken_addr hl ho hb hlt k]
      refine addr_congr (fun hi => hent k.1 hi _) fun _ hne' => setBlock_of_ne ?_
      rw [taken_addr hl ho hb hlt] at hne' ⊢
      exact ho.ne_of_ne hne' fun he => hk (congrArg Prod.fst he)
  refine ⟨Grown.of_assign hl ho hb hlt hz (.of_heap rfl rfl) (fun _ _ => rfl) rfl (fun x hx => ?_) haddr, haddr⟩
  exact setBlock_of_ne (by omega)

end Assign

/-! ### `inode_map` -/

/-- Block `idx` of the file at `p` is at `a`; a block it had before stays where it is. -/
structure Mapped (sb : SuperBlock) (p : Ptr) (idx a : Nat) (s s' : Volume) : Prop extends Grown sb p s s' where
  got : s'.addr sb ((s.heap p).inodeNo, blockSlot idx) = a
  ne : a ≠ 0
  rest : ∀ idx' < inodeNumDirect + inodeNumIndirect, idx' ≠ idx →
    s'.addr sb ((s.heap p).inodeNo, blockSlot idx') = s.addr sb ((s.heap p).inodeNo, blockSlot idx')
  stays : s.addr sb ((s.heap p).inodeNo, blockSlot idx) ≠ 0 → s' = s

/-- Every block is in use. -/
def Full (sb : SuperBlock) (s : Volume) : Prop := ∀ b < sb.numBlocks.toNat, b ∈ s.used sb

/-- How a call stops that needs a block when there is none. -/
def NoBlock (sb : SuperBlock) (e : Halt) (s : Volume) : Prop :=
  e = .panic "cache_alloc: no free block" ∧ Full sb s

theorem blockSlot_inj {idx idx' : Nat} (h : idx < inodeNumDirect + inodeNumIndirect)
    (h' : idx' < inodeNumDirect + inodeNumIndirect) (he : blockSlot idx = blockSlot idx') : idx = idx' := by
  rw [blockSlot, blockSlot] at he
  split at he
  case isTrue =>
    split at he
    case isTrue => exact Fin.mk.inj (Slot.direct.inj he)
    case isFalse => cases he
  case isFalse hn =>
    split at he
    case isTrue => cases he
    case isFalse hn' =>
      have hmod : (idx - 12) % 128 = (idx' - 12) % 128 := Fin.mk.inj (Slot.indirect.inj he)
      have hlt : idx < 140 := h
      have hlt' : idx' < 140 := h'
      have hge : ¬ idx < 12 := hn
      have hge' : ¬ idx' < 12 := hn'
      omega

theorem blockSlot_indirect (hge : ¬ idx < inodeNumDirect) (hlt : idx - inodeNumDirect < inodeNumIndirect) :
    blockSlot idx = .indirect ⟨idx - inodeNumDirect, hlt⟩ := by
  rw [blockSlot, dif_neg hge]
  exact congrArg Slot.indirect (Fin.ext (Nat.mod_eq_of_lt hlt))

theorem blockSlot_ne_table (idx : Nat) : blockSlot idx ≠ .table := by
  rw [blockSlot]
  split <;> nofun

/-- A slot that was empty has been filled with `b`. -/
theorem Grown.mapped (hg : Grown sb p s s') (hidx : idx < inodeNumDirect + inodeNumIndirect)
    (hz : s.addr sb ((s.heap p).inodeNo, blockSlot idx) = 0) (hb : b ≠ 0)
    (haddr : ∀ k, s'.addr sb k = update (s.addr sb) ((s.heap p).inodeNo, blockSlot idx) b k) :
    Mapped sb p idx b s s' := by
  refine ⟨hg, ?_, hb, fun idx' hlt hne => ?_, fun h => absurd hz h⟩
  · rw [haddr, update_self]
  · rw [haddr, update_of_ne fun he => hne (blockSlot_inj hlt hidx (congrArg Prod.snd he))]

theorem Mapped.refl (ho : Owned sb.dataStart sb.numBlocks.toNat (s.addr sb) (s.used sb))
    (hne : s.addr sb ((s.heap p).inodeNo, blockSlot idx) ≠ 0) :
    Mapped sb p idx (s.addr sb ((s.heap p).inodeNo, blockSlot idx)) s s :=
  ⟨.refl ho, rfl, hne, fun _ _ _ => rfl, fun _ => rfl⟩

/-- A slot filled after the inode has got its indirect block. -/
theorem Mapped.after (hm : Mapped sb p idx b s1 s2) (hg : Grown sb p s s1)
    (hsame : ∀ idx, s1.addr sb ((s.heap p).inodeNo, blockSlot idx) = s.addr sb ((s.heap p).inodeNo, blockSlot idx))
    (hz : s.addr sb ((s.heap p).inodeNo, blockSlot idx) = 0) : Mapped sb p idx b s s2 := by
  have hno := hg.same.inodeNo p
  refine ⟨hg.trans hm.toGrown, ?_, hm.ne, fun idx' hlt hne => ?_, fun h => absurd hz h⟩
  · rw [← hno]
    exact hm.got
  · rw [← hsame, ← hno]
    exact hm.rest idx' hlt hne

section Map
variable (hl : Layout sb) (hw : Listed sb s) (hp : s.Loaded p)
  (ho : Owned sb.dataStart sb.numBlocks.toNat (s.addr sb) (s.used sb))
include hl hw hp ho

omit hl hw hp in
theorem blockAlloc_ends : Ends (fun b s' => b < sb.numBlocks.toNat ∧ b ∉ s.used sb ∧ b ≠ 0 ∧ s' = s.taken sb b)
    (NoBlock sb) ((blockAlloc sb).run s) := by
  rcases blockAlloc_cases sb s with ⟨b, hlt, hb, hrun⟩ | ⟨hfull, hrun⟩
  · have hpos := ho.pos
    have hge := ho.free_ge hb
    rw [hrun]
    exact .ok ⟨hlt, hb, by omega, rfl⟩
  · rw [hrun]
    exact .error ⟨rfl, hfull⟩

/-- A block within the direct addresses. -/
theorem inodeMap_direct (h : idx < inodeNumDirect) (hzero : s.addr sb ((s.heap p).inodeNo, blockSlot idx) = 0) :
    Ends (fun r => Mapped sb p idx r.1 s) (NoBlock sb) ((inodeMap sb p idx).run s) := by
  have hslot : blockSlot idx = .direct ⟨idx, h⟩ := dif_pos h
  have hz : (s.heap p).entry.addrs ⟨idx, h⟩ = 0 := by
    rw [addr_loaded hw hp, hslot, addrOf] at hzero
    exact toNat_eq_zero.mp hzero
  rw [inodeMap, bind_ok (get_run s), dif_pos h, if_pos hz]
  refine (blockAlloc_ends ho).bind fun b s1 _ hs1 => ?_
  obtain ⟨hlt, hb, hne, rfl⟩ := hs1
  rw [bind_ok (modify_run _ _), pure_run]
  have hset := assign_edit hl hw hp ho hb hlt (σ := blockSlot idx)
    (f := fun e => {e with addrs := update e.addrs ⟨idx, h⟩ (UInt32.ofNat b)}) hzero rfl fun τ => by
      rw [addrOf_setDirect, hslot, toNat_ofNat_of_lt hlt]
  exact .ok (hset.1.mapped (h.trans (by decide)) hzero hne hset.2)

/-- The indirect block, new or old. -/
theorem indirectBlock_spec :
    Ends (fun b s' => Grown sb p s s' ∧ (s'.heap p).entry.indirect.toNat = b ∧ b ≠ 0 ∧
        ∀ idx, s'.addr sb ((s.heap p).inodeNo, blockSlot idx) = s.addr sb ((s.heap p).inodeNo, blockSlot idx))
      (NoBlock sb) ((indirectBlock sb p).run s) := by
  rw [indirectBlock, bind_ok (get_run s)]
  by_cases hz : (s.heap p).entry.indirect = 0
  · have hzero : s.addr sb ((s.heap p).inodeNo, .table) = 0 := by
      rw [addr_loaded hw hp, addrOf, hz]
      rfl
    rw [if_pos hz]
    refine (blockAlloc_ends ho).bind fun b s1 _ hs1 => ?_
    obtain ⟨hlt, hb, hne, rfl⟩ := hs1
    rw [bind_ok (modify_run _ _), pure_run]
    have hnat := toNat_ofNat_of_lt hlt
    have hset := assign_edit hl hw hp ho hb hlt (f := fun e => {e with indirect := UInt32.ofNat b}) hzero rfl
      fun τ => by
        rw [addrOf_setTable hz, hnat]
        rw [hnat]
        exact setBlock_self
    refine .ok ⟨hset.1, ?_, hne, fun idx => ?_⟩
    · rw [editEntry_self]
      exact hnat
    · rw [hset.2, update_of_ne fun he => blockSlot_ne_table idx (congrArg Prod.snd he)]
  · rw [if_neg hz, pure_run]
    exact .ok ⟨.refl ho, rfl, toNat_ne_zero.mpr hz, fun _ => rfl⟩

/-- A block whose address is in the indirect block. -/
theorem inodeMap_indirect (hge : ¬ idx < inodeNumDirect) (h : idx < inodeNumDirect + inodeNumIndirect)
    (hold : s.addr sb ((s.heap p).inodeNo, blockSlot idx) = 0) :
    Ends (fun r => Mapped sb p idx r.1 s) (NoBlock sb) ((inodeMap sb p idx).run s) := by
  have hlt : idx - inodeNumDirect < inodeNumIndirect := by omega
  have hslot := blockSlot_indirect hge hlt
  rw [inodeMap, bind_ok (get_run s), dif_neg hge, if_pos hlt]
  refine (indirectBlock_spec hl hw hp ho).bind fun bp s1 _ hs1 => ?_
  obtain ⟨hg, hbp, hne, hsame⟩ := hs1
  have hw1 := hg.listed hl hw hp
  have hp1 := hg.same.loaded.mpr hp
  have hno := hg.same.inodeNo p
  have hind : (s1.heap p).entry.indirect ≠ 0 := toNat_ne_zero.mp (by rw [hbp]; exact hne)
  have hzero : s1.addr sb ((s1.heap p).inodeNo, blockSlot idx) = 0 := by rw [hno, hsame, hold]
  have hz : getAddr (s1.blocks bp) (idx - inodeNumDirect) = 0 := by
    rw [addr_loaded hw1 hp1, hslot, addrOf, if_neg hind, hbp] at hzero
    exact toNat_eq_zero.mp hzero
  rw [bind_ok (get_run s1)]
  dsimp only
  rw [if_pos hz]
  refine (blockAlloc_ends hg.owned).bind fun b s2 _ hs2 => ?_
  obtain ⟨hb_lt, hb, hb_ne, rfl⟩ := hs2
  rw [bind_ok (modify_run _ _), pure_run]
  have hset := assign_indirect hl hw1 hp1 hg.owned hb hb_lt ⟨idx - inodeNumDirect, hlt⟩ hind (hslot ▸ hzero)
  rw [hbp, ← hslot] at hset
  exact .ok ((hset.1.mapped h hzero hb_ne hset.2).after hg hsame hold)

omit hl ho in
/-- A block the file has is found, and nothing changes. -/
theorem inodeMap_there (h : idx < inodeNumDirect + inodeNumIndirect)
    (hne : s.addr sb ((s.heap p).inodeNo, blockSlot idx) ≠ 0) :
    (inodeMap sb p idx).run s = .ok (s.addr sb ((s.heap p).inodeNo, blockSlot idx), false) s := by
  rw [addr_loaded hw hp] at hne ⊢
  rw [inodeMap, bind_ok (get_run s)]
  by_cases hd : idx < inodeNumDirect
  · have hslot : blockSlot idx = .direct ⟨idx, hd⟩ := dif_pos hd
    rw [hslot, addrOf] at hne ⊢
    rw [dif_pos hd, if_neg (toNat_ne_zero.mp hne), pure_run]
  · have hlt : idx - inodeNumDirect < inodeNumIndirect := by omega
    rw [blockSlot_indirect hd hlt, addrOf] at hne ⊢
    by_cases hz : (s.heap p).entry.indirect = 0
    · rw [if_pos hz] at hne
      exact absurd rfl hne
    · rw [if_neg hz] at hne ⊢
      have htable : (indirectBlock sb p).run s = .ok (s.heap p).entry.indirect.toNat s := by
        rw [indirectBlock, bind_ok (get_run s), if_neg hz, pure_run]
      rw [dif_neg hd, if_pos hlt, bind_ok htable, bind_ok (get_run s), if_neg (toNat_ne_zero.mp hne), pure_run]

/-- `inode_map` finds the block or gives the file a new one. -/
theorem inodeMap_spec (h : idx < inodeNumDirect + inodeNumIndirect) : Ends (fun r => Mapped sb p idx r.1 s)
      (fun e s' => NoBlock sb e s' ∧ s.addr sb ((s.heap p).inodeNo, blockSlot idx) = 0)
      ((inodeMap sb p idx).run s) := by
  by_cases hz : s.addr sb ((s.heap p).inodeNo, blockSlot idx) = 0
  · have hends : Ends (fun r => Mapped sb p idx r.1 s) (NoBlock sb) ((inodeMap sb p idx).run s) := by
      by_cases hd : idx < inodeNumDirect
      · exact inodeMap_direct hl hw hp ho hd hz
      · exact inodeMap_indirect hl hw hp ho hd h hz
    exact hends.mono (fun _ _ hm => hm) fun _ _ he => ⟨he, hz⟩
  · rw [inodeMap_there hw hp h hz]
    exact .ok (.refl ho hz)

end Map

end OS2021.Fs
