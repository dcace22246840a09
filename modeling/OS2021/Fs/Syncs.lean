import Mathlib.Order.Interval.Finset.Nat
import OS2021.Fs.Intact
import OS2021.Lib.Record

/-! Which blocks a write syncs.

The routines that `inode_write` consists of, once more, with a record of the blocks for
which they call `cache->sync`. A write needs room for the slots of its range that are
empty (`Room`), and what it syncs are the blocks that these slots own when it is done,
the block of the bitmap and the block of the inode. -/
namespace OS2021.Fs
open Lib Function Finset

section Routines
variable (sb : SuperBlock)

/-- `cache->alloc`: the bit is set, and the block cleared (`bzero`). -/
def blockAllocSyncs : V (Nat × List Nat) := do
  let b ← blockAlloc sb
  return (b, [bitmapBlock sb b, b])

def indirectBlockSyncs (p : Ptr) : V (Nat × List Nat) := do
  let s ← get
  let b := (s.heap p).entry.indirect
  if b = 0 then do
    let r ← blockAllocSyncs sb
    modify fun s => s.editEntry p fun e => {e with indirect := UInt32.ofNat r.1}
    return (r.1, r.2)
  else return (b.toNat, [])

def inodeMapSyncs (p : Ptr) (offset : Nat) : V ((Nat × Bool) × List Nat) := do
  let s ← get
  if h : offset < inodeNumDirect then do
    let addr := (s.heap p).entry.addrs ⟨offset, h⟩
    if addr = 0 then do
      let r ← blockAllocSyncs sb
      modify fun s => s.editEntry p fun e =>
        {e with addrs := update e.addrs ⟨offset, h⟩ (UInt32.ofNat r.1)}
      return ((r.1, true), r.2)
    else return ((addr.toNat, false), [])
  else if offset - inodeNumDirect < inodeNumIndirect then do
    let bp ← indirectBlockSyncs sb p
    let s ← get
    let addr := getAddr (s.blocks bp.1) (offset - inodeNumDirect)
    if addr = 0 then do
      let r ← blockAllocSyncs sb
      modify fun s => s.setBlock bp.1 (setAddr (s.blocks bp.1) (offset - inodeNumDirect) (UInt32.ofNat r.1))
      return ((r.1, true), bp.2 ++ r.2 ++ [bp.1])
    else return ((addr.toNat, false), bp.2)
  else throw (.panic "offset out of bound")

def writeLoopSyncs (p : Ptr) : Nat → Nat → List UInt8 → V (Nat × List Nat)
  | 0, offset, src => if src = [] then return (offset, []) else throw .hang
  | fuel + 1, offset, src =>
    if src = [] then return (offset, [])
    else do
      let b ← inodeMapSyncs sb p (offset / blockSize)
      let m := chunk offset src.length
      modify fun s => s.setBlock b.1.1 (overwrite (s.blocks b.1.1) (offset % blockSize) (src.take m))
      let r ← writeLoopSyncs p fuel (offset + m) (src.drop m)
      return (r.1, b.2 ++ [b.1.1] ++ r.2)

/-- `inode_sync` when it is to write. -/
def inodeSyncSyncs (p : Ptr) : V (Unit × List Nat) := do
  let s ← get
  inodeSync sb p true
  return ((), if (s.heap p).valid then [toBlockNo sb (s.heap p).inodeNo] else [])

def inodeWriteSyncs (p : Ptr) (src : List UInt8) (offset : Nat) : V (Nat × List Nat) := do
  let count := src.length
  let stop := (offset + count) % 2 ^ 64
  let s ← get
  let entry := (s.heap p).entry
  if entry.type = inodeDevice then do
    assertThat "inode->entry.major == 1" (entry.major = 1)
    let n ← consoleWrite p count
    return (n, [])
  else do
    assertThat "offset <= entry->num_bytes" (offset ≤ entry.numBytes.toNat)
    assertThat "end <= INODE_MAX_BYTES" (stop ≤ inodeMaxBytes)
    assertThat "offset <= end" (offset ≤ stop)
    let r ← writeLoopSyncs sb p count offset src
    let s ← get
    if 0 < count ∧ (s.heap p).entry.numBytes.toNat < r.1 then do
      modify fun s => s.editEntry p fun e => {e with numBytes := UInt32.ofNat r.1}
      let t ← inodeSyncSyncs sb p
      return (count, r.2 ++ t.2)
    else return (count, r.2)

end Routines

/-! ### Without the record -/

section Erasure
variable {sb : SuperBlock} {p : Ptr}

theorem blockAllocSyncs_erases : Erases (blockAllocSyncs sb) (blockAlloc sb) := by
  have h : Erases (blockAllocSyncs sb) (blockAlloc sb >>= pure) := .seq fun b => .pure b _
  rwa [bind_pure] at h

theorem indirectBlockSyncs_erases : Erases (indirectBlockSyncs sb p) (indirectBlock sb p) :=
  .seq fun _ => .ite (blockAllocSyncs_erases.bind fun r => .seq fun _ => .pure r.1 _) (.pure _ _)

theorem inodeMapSyncs_erases (offset : Nat) : Erases (inodeMapSyncs sb p offset) (inodeMap sb p offset) := by
  refine .seq fun s => ?_
  split
  · exact .ite (blockAllocSyncs_erases.bind fun r => .seq fun _ => .pure (r.1, true) _) (.pure _ _)
  · refine .ite ?_ (.throw _)
    refine indirectBlockSyncs_erases.bind fun bp => .seq fun s => ?_
    exact .ite (blockAllocSyncs_erases.bind fun r => .seq fun _ => .pure (r.1, true) _) (.pure _ _)

theorem writeLoopSyncs_erases (fuel offset : Nat) (src : List UInt8) :
    Erases (writeLoopSyncs sb p fuel offset src) (writeLoop sb p fuel offset src) := by
  induction fuel generalizing offset src with
  | zero => exact .ite (.pure _ _) (.throw _)
  | succ fuel ih =>
    refine .ite (.pure _ _) ((inodeMapSyncs_erases _).bind fun b => .seq fun _ => ?_)
    have h := (ih (offset + chunk offset src.length) (src.drop (chunk offset src.length))).bind
      fun r => Erases.pure r.1 (b.2 ++ [b.1.1] ++ r.2)
    rwa [bind_pure] at h

theorem inodeSyncSyncs_erases : Erases (inodeSyncSyncs sb p) (inodeSync sb p true) := fun s => by
  rw [inodeSyncSyncs, bind_ok (get_run s)]
  have h : Erases
      (do inodeSync sb p true; return ((), if (s.heap p).valid then [toBlockNo sb (s.heap p).inodeNo] else []))
      (inodeSync sb p true >>= pure) := .seq fun u => .pure u _
  rw [bind_pure] at h
  exact h s

theorem inodeWriteSyncs_erases (src : List UInt8) (offset : Nat) :
    Erases (inodeWriteSyncs sb p src offset) (inodeWrite sb p src offset) := by
  refine .seq fun s => .ite (.seq fun _ => ?_) (.seq fun _ => .seq fun _ => .seq fun _ => ?_)
  · have h : Erases (do let n ← consoleWrite p src.length; return (n, ([] : List Nat)))
        (consoleWrite p src.length >>= pure) := .seq fun n => .pure n _
    rwa [bind_pure] at h
  · refine (writeLoopSyncs_erases _ _ _).bind fun r => .seq fun s => .ite (.seq fun _ => ?_) (.pure _ _)
    exact inodeSyncSyncs_erases.bind fun _ => .pure _ _

end Erasure

/-! ### Room -/

variable {sb : SuperBlock} {s s' s1 : Volume} {p : Ptr} {i b idx off : Nat} {σ : Slot} {N : Finset Slot}

/-- The blocks that `cache->alloc` can give out. -/
def Volume.free (sb : SuperBlock) (s : Volume) : Finset Nat :=
  (Finset.range sb.numBlocks.toNat).filter fun b => s.isUsed sb b = false

/-- The slots that own no block. -/
def Volume.lacking (sb : SuperBlock) (s : Volume) (i : Nat) (N : Finset Slot) : Finset Slot :=
  N.filter fun σ => s.addr sb (i, σ) = 0

/-- There is a free block for each of the slots that own none. -/
def Room (sb : SuperBlock) (s : Volume) (i : Nat) (N : Finset Slot) : Prop :=
  (s.lacking sb i N).card ≤ (s.free sb).card

theorem mem_free : b ∈ s.free sb ↔ b < sb.numBlocks.toNat ∧ b ∉ s.used sb := by
  rw [Volume.free, mem_filter, mem_range, ← Bool.not_eq_true]
  rfl

namespace Room

/-- A slot that needs a block gets one. -/
theorem alloc (h : Room sb s i N) (hσ : σ ∈ N) (hz : s.addr sb (i, σ) = 0) :
    ∃ b < sb.numBlocks.toNat, b ∉ s.used sb ∧
      (blockAllocSyncs sb).run s = .ok (b, [bitmapBlock sb b, b]) (s.taken sb b) := by
  rcases blockAlloc_cases sb s with ⟨b, hlt, hb, hrun⟩ | ⟨hfull, -⟩
  · exact ⟨b, hlt, hb, bind_ok hrun⟩
  · have hempty : s.free sb = ∅ := eq_empty_of_forall_notMem fun b hb =>
      (mem_free.mp hb).2 (hfull b (mem_free.mp hb).1)
    have hpos : 0 < (s.lacking sb i N).card := card_pos.mpr ⟨σ, mem_filter.mpr ⟨hσ, hz⟩⟩
    rw [Room, hempty, card_empty] at h
    omega

/-- One slot fewer needs a block, and one block fewer is free. -/
theorem assign (h : Room sb s i N) (hσ : σ ∈ N) (hz : s.addr sb (i, σ) = 0) (hlt : b < sb.numBlocks.toNat)
    (hb : b ∉ s.used sb) (hpos : b ≠ 0)
    (hused : ∀ x < sb.numBlocks.toNat, x ∈ s'.used sb ↔ x = b ∨ x ∈ s.used sb)
    (haddr : ∀ k, s'.addr sb k = update (s.addr sb) (i, σ) b k) : Room sb s' i N := by
  have hlack : s'.lacking sb i N = (s.lacking sb i N).erase σ := by
    ext τ
    rw [Volume.lacking, Volume.lacking, mem_filter, mem_erase, mem_filter, haddr]
    by_cases hτ : τ = σ
    · rw [hτ, update_self]
      exact ⟨fun h => absurd h.2 hpos, fun h => absurd rfl h.1⟩
    · rw [update_of_ne fun he => hτ (congrArg Prod.snd he)]
      exact ⟨fun h => ⟨hτ, h⟩, fun h => h.2⟩
  have hfree : s'.free sb = (s.free sb).erase b := by
    ext x
    rw [mem_erase, mem_free, mem_free]
    constructor
    · intro hx
      rw [hused x hx.1, not_or] at hx
      exact ⟨hx.2.1, hx.1, hx.2.2⟩
    · intro hx
      rw [hused x hx.2.1, not_or]
      exact ⟨hx.2.1, hx.1, hx.2.2⟩
  have hmem : σ ∈ s.lacking sb i N := mem_filter.mpr ⟨hσ, hz⟩
  rw [Room, hlack, hfree, card_erase_of_mem hmem, card_erase_of_mem (mem_free.mpr ⟨hlt, hb⟩)]
  exact Nat.sub_le_sub_right h 1

/-- The bitmap and the slots are as they were. -/
theorem congr (h : Room sb s i N) (hused : ∀ x < sb.numBlocks.toNat, x ∈ s'.used sb ↔ x ∈ s.used sb)
    (haddr : ∀ k, s'.addr sb k = s.addr sb k) : Room sb s' i N := by
  have hlack : s'.lacking sb i N = s.lacking sb i N := filter_congr fun τ _ => by rw [haddr]
  have hfree : s'.free sb = s.free sb := by
    ext x
    rw [mem_free, mem_free]
    exact and_congr_right fun hx => not_congr (hused x hx)
  rw [Room, hlack, hfree]
  exact h

end Room

/-! ### What is synced -/

/-- There is only one block of bits. -/
def OneBitmap (sb : SuperBlock) : Prop := sb.numBlocks.toNat ≤ bitPerBlock

/-- The record holds the block of the bitmap, and blocks that the slots own. -/
def SyncsIn (sb : SuperBlock) (s : Volume) (i : Nat) (N : Finset Slot) (l : List Nat) : Prop :=
  ∀ b ∈ l, b = sb.bitmapStart.toNat ∨ b ≠ 0 ∧ ∃ σ ∈ N, s.addr sb (i, σ) = b

namespace SyncsIn
variable {l l' : List Nat}

theorem nil : SyncsIn sb s i N [] := fun _ hb => absurd hb List.not_mem_nil

theorem append (h : SyncsIn sb s i N l) (h' : SyncsIn sb s i N l') : SyncsIn sb s i N (l ++ l') := fun b hb =>
  (List.mem_append.mp hb).elim (h b) (h' b)

theorem single (hσ : σ ∈ N) (hb : b ≠ 0) (haddr : s.addr sb (i, σ) = b) : SyncsIn sb s i N [b] := fun x hx => by
  obtain rfl := List.mem_singleton.mp hx
  exact Or.inr ⟨hb, σ, hσ, haddr⟩

/-- A block that a slot owns stays its block. -/
theorem mono (h : SyncsIn sb s i N l) (hkept : ∀ k, s.addr sb k ≠ 0 → s'.addr sb k = s.addr sb k) :
    SyncsIn sb s' i N l := fun b hb =>
  (h b hb).imp id fun ⟨hne, τ, hτ, haddr⟩ => ⟨hne, τ, hτ, (hkept _ (haddr ▸ hne)).trans haddr⟩

/-- An allocation, where there is only one block of bits. -/
theorem alloc (hone : OneBitmap sb) (hlt : b < sb.numBlocks.toNat) (hσ : σ ∈ N) (hb : b ≠ 0)
    (haddr : s.addr sb (i, σ) = b) : SyncsIn sb s i N [bitmapBlock sb b, b] := fun x hx => by
  rcases List.mem_cons.mp hx with rfl | hx
  · left
    rw [bitmapBlock, Nat.div_eq_of_lt (lt_of_lt_of_le hlt hone), Nat.zero_add]
  · exact single hσ hb haddr x hx

end SyncsIn

/-- A free block has been given to a slot: the record and the room that is left. -/
theorem Room.grant (h : Room sb s i N)
    (ho : Owned sb.dataStart sb.numBlocks.toNat (s.addr sb) (s.used sb)) (hσ : σ ∈ N) (hz : s.addr sb (i, σ) = 0)
    (hlt : b < sb.numBlocks.toNat) (hb : b ∉ s.used sb)
    (haddr : ∀ k, s'.addr sb k = update (s.addr sb) (i, σ) b k)
    (hused : ∀ x < sb.numBlocks.toNat, x ∈ s'.used sb ↔ x = b ∨ x ∈ s.used sb) :
    Room sb s' i N ∧ (OneBitmap sb → SyncsIn sb s' i N [bitmapBlock sb b, b]) ∧ s'.addr sb (i, σ) = b := by
  have hpos := ho.pos
  have hge := ho.free_ge hb
  have hne : b ≠ 0 := by omega
  have hself : s'.addr sb (i, σ) = b := by rw [haddr, update_self]
  exact ⟨h.assign hσ hz hlt hb hne hused haddr, fun hone => .alloc hone hlt hσ hne hself, hself⟩

/-! ### Running a write -/

section Run
variable (hl : Layout sb) (hw : Listed sb s) (hp : s.Loaded p)
  (ho : Owned sb.dataStart sb.numBlocks.toNat (s.addr sb) (s.used sb)) (hroom : Room sb s (s.heap p).inodeNo N)
include hl hw hp ho hroom

/-- The indirect block is there, or gets allocated. -/
theorem indirectBlockSyncs_run (hT : .table ∈ N) :
    ∃ b l s', (indirectBlockSyncs sb p).run s = .ok (b, l) s' ∧ Room sb s' (s.heap p).inodeNo N ∧
      (OneBitmap sb → SyncsIn sb s' (s.heap p).inodeNo N l) ∧ s'.addr sb ((s.heap p).inodeNo, .table) = b := by
  have haddr : s.addr sb ((s.heap p).inodeNo, .table) = (s.heap p).entry.indirect.toNat := by
    rw [addr_loaded hw hp, addrOf]
  rw [indirectBlockSyncs, bind_ok (get_run s)]
  by_cases hz : (s.heap p).entry.indirect = 0
  · have hzero : s.addr sb ((s.heap p).inodeNo, .table) = 0 := by
      rw [haddr, hz]
      rfl
    obtain ⟨b, hlt, hb, hrun⟩ := hroom.alloc hT hzero
    have hnat := toNat_ofNat_of_lt hlt
    obtain ⟨-, hset⟩ := assign_edit hl hw hp ho hb hlt (f := fun e => {e with indirect := UInt32.ofNat b}) hzero rfl
      fun τ => by
        rw [addrOf_setTable hz, hnat]
        rw [hnat]
        exact setBlock_self
    obtain ⟨hroom', hsyncs, hself⟩ := hroom.grant ho hT hzero hlt hb hset fun x hx => mem_used_taken hl ho hb hx
    refine ⟨b, _, (s.taken sb b).editEntry p fun e => {e with indirect := UInt32.ofNat b}, ?_, hroom', hsyncs, hself⟩
    rw [if_pos hz, bind_ok hrun]
    rfl
  · refine ⟨_, [], s, ?_, hroom, fun _ => .nil, haddr⟩
    rw [if_neg hz]
    rfl

/-- A block within the direct addresses. -/
theorem inodeMapSyncs_direct (h : idx < inodeNumDirect) (hN : blockSlot idx ∈ N)
    (hz : s.addr sb ((s.heap p).inodeNo, blockSlot idx) = 0) :
    ∃ r l s', (inodeMapSyncs sb p idx).run s = .ok (r, l) s' ∧ Room sb s' (s.heap p).inodeNo N ∧
      (OneBitmap sb → SyncsIn sb s' (s.heap p).inodeNo N l) := by
  have hslot : blockSlot idx = .direct ⟨idx, h⟩ := dif_pos h
  have hentry : (s.heap p).entry.addrs ⟨idx, h⟩ = 0 := by
    rw [addr_loaded hw hp, hslot, addrOf] at hz
    exact toNat_eq_zero.mp hz
  obtain ⟨b, hlt, hb, hrun⟩ := hroom.alloc hN hz
  obtain ⟨-, hset⟩ := assign_edit hl hw hp ho hb hlt (σ := blockSlot idx)
    (f := fun e => {e with addrs := update e.addrs ⟨idx, h⟩ (UInt32.ofNat b)}) hz rfl fun τ => by
      rw [addrOf_setDirect, hslot, toNat_ofNat_of_lt hlt]
  obtain ⟨hroom', hsyncs, -⟩ := hroom.grant ho hN hz hlt hb hset fun x hx => mem_used_taken hl ho hb hx
  refine ⟨(b, true), _, (s.taken sb b).editEntry p fun e =>
    {e with addrs := update e.addrs ⟨idx, h⟩ (UInt32.ofNat b)}, ?_, hroom', hsyncs⟩
  rw [inodeMapSyncs, bind_ok (get_run s), dif_pos h, if_pos hentry, bind_ok hrun]
  rfl

/-- A block whose address is in the indirect block. -/
theorem inodeMapSyncs_indirect (hge : ¬ idx < inodeNumDirect) (hidx : idx < inodeNumDirect + inodeNumIndirect)
    (hN : blockSlot idx ∈ N) (hT : .table ∈ N) (hz : s.addr sb ((s.heap p).inodeNo, blockSlot idx) = 0) :
    ∃ r l s', (inodeMapSyncs sb p idx).run s = .ok (r, l) s' ∧ Room sb s' (s.heap p).inodeNo N ∧
      (OneBitmap sb → SyncsIn sb s' (s.heap p).inodeNo N l) := by
  have hlt : idx - inodeNumDirect < inodeNumIndirect := by omega
  have hslot := blockSlot_indirect hge hlt
  obtain ⟨bp, l, s1, hrun, hroom1, hsyncs, htable⟩ := indirectBlockSyncs_run hl hw hp ho hroom hT
  obtain ⟨hg, hbp, hne, hsame⟩ := (indirectBlock_spec hl hw hp ho).of_ok (indirectBlockSyncs_erases.of_ok hrun)
  have hw1 := hg.listed hl hw hp
  have hp1 := hg.same.loaded.mpr hp
  have hno := hg.same.inodeNo p
  have hind : (s1.heap p).entry.indirect ≠ 0 := toNat_ne_zero.mp (by rw [hbp]; exact hne)
  have hzero : s1.addr sb ((s.heap p).inodeNo, blockSlot idx) = 0 := by rw [hsame, hz]
  have hentry : getAddr (s1.blocks bp) (idx - inodeNumDirect) = 0 := by
    rw [← hno, addr_loaded hw1 hp1, hslot, addrOf, if_neg hind, hbp] at hzero
    exact toNat_eq_zero.mp hzero
  obtain ⟨b, hb_lt, hb, halloc⟩ := hroom1.alloc hN hzero
  have hset := assign_indirect hl hw1 hp1 hg.owned hb hb_lt ⟨idx - inodeNumDirect, hlt⟩ hind
    (by rw [← hslot, hno]; exact hzero)
  rw [hbp, ← hslot, hno] at hset
  have hused : ∀ d, ∀ x < sb.numBlocks.toNat, x ∈ ((s1.taken sb b).setBlock bp d).used sb ↔ x = b ∨ x ∈ s1.used sb :=
    fun d x hx => by
      have hbm := hl.bitmapBlock_lt hx
      have hrange := (hg.owned.range _ (by rw [htable]; exact hne)).1
      rw [htable] at hrange
      rw [← mem_used_taken hl hg.owned hb hx]
      exact mem_used_congr (setBlock_of_ne (by omega))
  obtain ⟨hroom2, hsyncs2, -⟩ := hroom1.grant hg.owned hN hzero hb_lt hb hset.2 (hused _)
  refine ⟨(b, true), l ++ [bitmapBlock sb b, b] ++ [bp], _, ?_, hroom2,
    fun hone => (((hsyncs hone).mono hset.1.kept).append (hsyncs2 hone)).append (.single hT hne ?_)⟩
  · rw [inodeMapSyncs, bind_ok (get_run s), dif_neg hge, if_pos hlt, bind_ok hrun, bind_ok (get_run s1)]
    dsimp only
    rw [if_pos hentry, bind_ok halloc]
    rfl
  · exact (hset.1.kept _ (by rw [htable]; exact hne)).trans htable

omit hl ho hroom in
/-- A block that is there. -/
theorem inodeMapSyncs_there (hidx : idx < inodeNumDirect + inodeNumIndirect)
    (hne : s.addr sb ((s.heap p).inodeNo, blockSlot idx) ≠ 0) :
    ∃ r, (inodeMapSyncs sb p idx).run s = .ok (r, []) s := by
  rw [addr_loaded hw hp] at hne
  rw [inodeMapSyncs, bind_ok (get_run s)]
  by_cases h : idx < inodeNumDirect
  · have hslot : blockSlot idx = .direct ⟨idx, h⟩ := dif_pos h
    rw [hslot, addrOf] at hne
    rw [dif_pos h, if_neg (toNat_ne_zero.mp hne)]
    exact ⟨_, rfl⟩
  · have hlt : idx - inodeNumDirect < inodeNumIndirect := by omega
    rw [blockSlot_indirect h hlt, addrOf] at hne
    by_cases hz : (s.heap p).entry.indirect = 0
    · rw [if_pos hz] at hne
      exact absurd rfl hne
    · rw [if_neg hz] at hne
      have htable : (indirectBlockSyncs sb p).run s = .ok ((s.heap p).entry.indirect.toNat, []) s := by
        rw [indirectBlockSyncs, bind_ok (get_run s), if_neg hz]
        rfl
      rw [dif_neg h, if_pos hlt, bind_ok htable, bind_ok (get_run s), if_neg (toNat_ne_zero.mp hne)]
      exact ⟨_, rfl⟩

/-- `inode_map` returns if there is room. -/
theorem inodeMapSyncs_run (hidx : idx < inodeNumDirect + inodeNumIndirect) (hN : blockSlot idx ∈ N)
    (hT : ¬ idx < inodeNumDirect → .table ∈ N) :
    ∃ r l s', (inodeMapSyncs sb p idx).run s = .ok (r, l) s' ∧ Mapped sb p idx r.1 s s' ∧
      Room sb s' (s.heap p).inodeNo N ∧ (OneBitmap sb → SyncsIn sb s' (s.heap p).inodeNo N l) := by
  have hrun : ∃ r l s', (inodeMapSyncs sb p idx).run s = .ok (r, l) s' ∧ Room sb s' (s.heap p).inodeNo N ∧
      (OneBitmap sb → SyncsIn sb s' (s.heap p).inodeNo N l) := by
    by_cases hz : s.addr sb ((s.heap p).inodeNo, blockSlot idx) = 0
    · by_cases h : idx < inodeNumDirect
      · exact inodeMapSyncs_direct hl hw hp ho hroom h hN hz
      · exact inodeMapSyncs_indirect hl hw hp ho hroom h hidx hN (hT h) hz
    · obtain ⟨r, hrun⟩ := inodeMapSyncs_there hw hp hidx hz
      exact ⟨r, [], s, hrun, hroom, fun _ => .nil⟩
  obtain ⟨r, l, s', hrun, hroom', hsyncs⟩ := hrun
  have hspec := (inodeMap_spec hl hw hp ho hidx).of_ok ((inodeMapSyncs_erases idx).of_ok hrun)
  exact ⟨r, l, s', hrun, hspec, hroom', hsyncs⟩

end Run

/-- The slots that a write of `n` bytes at `off` uses. -/
def slotsFor (off n : Nat) : Finset Slot :=
  (Finset.Ico (off / blockSize) (blocksFor (off + n))).biUnion fun idx =>
    if idx < inodeNumDirect then {blockSlot idx} else {.table, blockSlot idx}

theorem mem_slotsFor {n : Nat} (hidx : off / blockSize ≤ idx) (hlt : idx < blocksFor (off + n)) :
    blockSlot idx ∈ slotsFor off n ∧ (¬ idx < inodeNumDirect → .table ∈ slotsFor off n) := by
  have hmem : idx ∈ Finset.Ico (off / blockSize) (blocksFor (off + n)) := mem_Ico.mpr ⟨hidx, hlt⟩
  refine ⟨mem_biUnion.mpr ⟨idx, hmem, ?_⟩, fun h => mem_biUnion.mpr ⟨idx, hmem, ?_⟩⟩
  · split
    · exact mem_singleton_self _
    · exact mem_insert_of_mem (mem_singleton_self _)
  · rw [if_neg h]
    exact mem_insert_self ..

/-- A part of a write uses no other slots. -/
theorem slotsFor_subset {off' n n' : Nat} (hoff : off ≤ off') (hend : off' + n' ≤ off + n) :
    slotsFor off' n' ⊆ slotsFor off n := by
  refine biUnion_subset_biUnion_of_subset_left _ (Finset.Ico_subset_Ico (Nat.div_le_div_right hoff) ?_)
  show (off' + n' + 512 - 1) / 512 ≤ (off + n + 512 - 1) / 512
  omega

/-- A write of three blocks uses five slots at most. -/
theorem card_slotsFor {n : Nat} (hn : n ≤ 3 * blockSize) : (slotsFor off n).card ≤ 5 := by
  have hsub : slotsFor off n ⊆
      insert .table ((Finset.Ico (off / blockSize) (blocksFor (off + n))).image blockSlot) := by
    intro σ hσ
    obtain ⟨idx, hidx, hσ⟩ := mem_biUnion.mp hσ
    have hblock : blockSlot idx ∈ insert Slot.table
        ((Finset.Ico (off / blockSize) (blocksFor (off + n))).image blockSlot) :=
      mem_insert_of_mem (mem_image_of_mem _ hidx)
    split at hσ
    · rw [mem_singleton.mp hσ]
      exact hblock
    · rcases mem_insert.mp hσ with rfl | hσ
      · exact mem_insert_self ..
      · rw [mem_singleton.mp hσ]
        exact hblock
  have hcount : blocksFor (off + n) - off / blockSize ≤ 4 := by
    have hn' : n ≤ 3 * 512 := hn
    show (off + n + 512 - 1) / 512 - off / 512 ≤ 4
    omega
  calc (slotsFor off n).card ≤ _ := card_le_card hsub
    _ ≤ ((Finset.Ico (off / blockSize) (blocksFor (off + n))).image blockSlot).card + 1 := card_insert_le ..
    _ ≤ (Finset.Ico (off / blockSize) (blocksFor (off + n))).card + 1 := Nat.add_le_add_right card_image_le 1
    _ ≤ 5 := by
      rw [Nat.card_Ico]
      omega

theorem writeLoopSyncs_run (hl : Layout sb) (hw : Listed sb s) (hp : s.Loaded p)
    (ho : Owned sb.dataStart sb.numBlocks.toNat (s.addr sb) (s.used sb))
    (hroom : Room sb s (s.heap p).inodeNo N) {fuel : Nat} {src : List UInt8} (hfuel : src.length ≤ fuel)
    (hmax : off + src.length ≤ inodeMaxBytes)
    (hN : ∀ idx, off / blockSize ≤ idx → idx < blocksFor (off + src.length) →
      blockSlot idx ∈ N ∧ (¬ idx < inodeNumDirect → .table ∈ N)) :
    ∃ r l s', (writeLoopSyncs sb p fuel off src).run s = .ok (r, l) s' ∧ Room sb s' (s.heap p).inodeNo N ∧
      (OneBitmap sb → SyncsIn sb s' (s.heap p).inodeNo N l) ∧ ∀ k, s.addr sb k ≠ 0 → s'.addr sb k = s.addr sb k := by
  induction fuel generalizing s off src with
  | zero =>
    obtain rfl : src = [] := List.eq_nil_of_length_eq_zero (Nat.le_zero.mp hfuel)
    exact ⟨off, [], s, rfl, hroom, fun _ => .nil, fun _ _ => rfl⟩
  | succ fuel ih =>
    rw [writeLoopSyncs]
    by_cases hsrc : src = []
    · rw [if_pos hsrc]
      exact ⟨off, [], s, rfl, hroom, fun _ => .nil, fun _ _ => rfl⟩
    · have hpos := List.length_pos_iff.mpr hsrc
      have hchunk := chunk_pos off hpos
      have hle : chunk off src.length ≤ src.length := Nat.min_le_left ..
      have hoff : off < inodeMaxBytes := by omega
      have hidx : off / blockSize < blocksFor (off + src.length) := lt_blocksFor.mpr (by
        have := Nat.div_mul_le_self off blockSize
        omega)
      obtain ⟨hN0, hT0⟩ := hN _ le_rfl hidx
      obtain ⟨b, l, s1, hmap, hm, hroom1, hsyncs1⟩ :=
        inodeMapSyncs_run hl hw hp ho hroom (index_lt hoff) hN0 hT0
      have htake : (src.take (chunk off src.length)).length = chunk off src.length := List.length_take_of_le hle
      have hstep : Written sb p off (src.take (chunk off src.length)) s _ :=
        hm.written hl hoff (fun h => by rw [h, List.length_nil] at htake; omega)
          (by rw [htake]; exact Nat.min_le_right ..)
      have hgot : s1.addr sb ((s.heap p).inodeNo, blockSlot (off / blockSize)) = b.1 := hm.got
      obtain ⟨hstore, haddr⟩ := Extended.store (p := p) hl hm.owned (by rw [hgot]; exact hm.ne)
        (overwrite (s1.blocks b.1) (off % blockSize) (src.take (chunk off src.length)))
      rw [hgot] at hstore haddr
      have hroom2 : Room sb (s1.setBlock b.1 (overwrite (s1.blocks b.1) (off % blockSize)
          (src.take (chunk off src.length)))) (s.heap p).inodeNo N := by
        refine hroom1.congr (fun x hx => mem_used_congr (setBlock_of_ne ?_)) haddr
        have hbm := hl.bitmapBlock_lt hx
        have hrange := (hm.owned.range _ (by rw [hgot]; exact hm.ne)).1
        rw [hgot] at hrange
        omega
      have hdrop : (src.drop (chunk off src.length)).length = src.length - chunk off src.length := List.length_drop
      have hsum : off + chunk off src.length + (src.length - chunk off src.length) = off + src.length := by omega
      have hno := hstep.same.inodeNo p
      have hN' : ∀ idx, (off + chunk off src.length) / blockSize ≤ idx →
          idx < blocksFor (off + chunk off src.length + (src.drop (chunk off src.length)).length) →
          blockSlot idx ∈ N ∧ (¬ idx < inodeNumDirect → .table ∈ N) := fun idx h1 h2 => by
        rw [hdrop, hsum] at h2
        exact hN idx (le_trans (Nat.div_le_div_right (Nat.le_add_right ..)) h1) h2
      obtain ⟨r, l', s3, hloop, hroom3, hsyncs3, hkept⟩ := ih (hstep.listed hl hw hp) (hstep.same.loaded.mpr hp)
        hstep.owned (by rw [hno]; exact hroom2) (by omega) (by omega) hN'
      rw [hno] at hsyncs3 hroom3
      have hkept3 : ∀ k, s1.addr sb k ≠ 0 → s3.addr sb k = s1.addr sb k := fun k hk => by
        rw [hkept k (by rw [haddr]; exact hk), haddr]
      refine ⟨r, l ++ [b.1] ++ l', s3, ?_, hroom3, fun hone =>
        (((hsyncs1 hone).mono hkept3).append (.single hN0 hm.ne ?_)).append (hsyncs3 hone), fun k hk => ?_⟩
      · rw [if_neg hsrc, bind_ok hmap, bind_ok (modify_run _ _), bind_ok hloop]
        rfl
      · rw [hkept3 _ (by rw [hgot]; exact hm.ne), hgot]
      · rw [hkept3 k (by rw [hm.kept k hk]; exact hk), hm.kept k hk]

theorem inodeSyncSyncs_run (hvalid : (s.heap p).valid = true) :
    (inodeSyncSyncs sb p).run s = .ok ((), [toBlockNo sb (s.heap p).inodeNo]) (s.synced sb p) := by
  rw [inodeSyncSyncs, bind_ok (get_run s), bind_ok (inodeSync_write hvalid), if_pos hvalid]
  rfl

/-- How many blocks a record of slots can hold, with one more block. -/
theorem SyncsIn.card {l : List Nat} (h : SyncsIn sb s i N l) (x : Nat) : (l ++ [x]).toFinset.card ≤ N.card + 2 := by
  have hsub : (l ++ [x]).toFinset ⊆ insert sb.bitmapStart.toNat (insert x (N.image fun σ => s.addr sb (i, σ))) := by
    intro b hb
    rw [mem_insert, mem_insert]
    rcases List.mem_append.mp (List.mem_toFinset.mp hb) with hb | hb
    · rcases h b hb with hb | ⟨-, σ, hσ, hb⟩
      · exact Or.inl hb
      · exact Or.inr (Or.inr (mem_image.mpr ⟨σ, hσ, hb⟩))
    · exact Or.inr (Or.inl (List.mem_singleton.mp hb))
  calc (l ++ [x]).toFinset.card ≤ _ := card_le_card hsub
    _ ≤ (insert x (N.image fun σ => s.addr sb (i, σ))).card + 1 := card_insert_le ..
    _ ≤ (N.image fun σ => s.addr sb (i, σ)).card + 1 + 1 := Nat.add_le_add_right (card_insert_le ..) 1
    _ ≤ N.card + 2 := Nat.add_le_add_right card_image_le 2

/-- **A write with room for it returns**, and leaves the room it does not need. Where there is one
block of bits, it syncs at most the blocks of the slots, this block and the block of the inode. -/
theorem inodeWriteSyncs_run {src : List UInt8} (hl : Layout sb) (h : Intact sb s) (hp : s.Loaded p)
    (hdev : (s.heap p).entry.type ≠ inodeDevice) (hoff : off ≤ (s.heap p).entry.numBytes.toNat)
    (hmax : off + src.length ≤ inodeMaxBytes) (hroom : Room sb s (s.heap p).inodeNo N)
    (hN : slotsFor off src.length ⊆ N) :
    ∃ l s', (inodeWriteSyncs sb p src off).run s = .ok (src.length, l) s' ∧
      (OneBitmap sb → l.toFinset.card ≤ N.card + 2) ∧ Room sb s' (s.heap p).inodeNo N ∧
      Rewritten sb p (splice (s.content sb (s.heap p).inodeNo) off src) s s' ∧ Intact sb s' := by
  obtain ⟨r, l, s1, hloop, hroom1, hsyncs, -⟩ := writeLoopSyncs_run hl h.listed hp h.consistent.owned hroom
    le_rfl hmax fun idx h1 h2 => (mem_slotsFor h1 h2).imp (hN ·) fun hT hge => hN (hT hge)
  obtain ⟨hr, hwr⟩ := (writeLoop_spec hl h.listed hp h.consistent.owned le_rfl hmax).of_ok
    ((writeLoopSyncs_erases _ _ _).of_ok hloop)
  have hstop : (off + src.length) % 2 ^ 64 = off + src.length :=
    Nat.mod_eq_of_lt (lt_of_le_of_lt hmax (by decide))
  have hrun : ∃ l' s', (inodeWriteSyncs sb p src off).run s = .ok (src.length, l') s' ∧
      (OneBitmap sb → l'.toFinset.card ≤ N.card + 2) ∧ Room sb s' (s.heap p).inodeNo N := by
    rw [inodeWriteSyncs]
    dsimp only
    rw [bind_ok (get_run s), if_neg hdev, hstop, bind_ok (assertThat_run hoff), bind_ok (assertThat_run hmax),
      bind_ok (assertThat_run (Nat.le_add_right ..)), bind_ok hloop, bind_ok (get_run s1)]
    dsimp only
    by_cases hgrow : 0 < src.length ∧ (s1.heap p).entry.numBytes.toNat < r
    · obtain ⟨s2, hs2⟩ : ∃ s2, s2 = s1.editEntry p fun e => {e with numBytes := UInt32.ofNat r} := ⟨_, rfl⟩
      have hvalid : (s2.heap p).valid = true := by
        rw [hs2, (editEntry_flags p).2.2, hwr.same.valid]
        exact hp.2
      refine ⟨l ++ [toBlockNo sb (s2.heap p).inodeNo], s2.synced sb p, ?_, fun hone => (hsyncs hone).card _, ?_⟩
      · rw [if_pos hgrow, bind_ok (modify_run _ _), ← hs2, bind_ok (inodeSyncSyncs_run hvalid)]
        rfl
      · have hsize : (s1.heap p).entry.numBytes = (s.heap p).entry.numBytes := by rw [hwr.fields]
        rw [hsize] at hgrow
        have hre : Rewritten sb p (splice (s.content sb (s.heap p).inodeNo) off src) s s2 := by
          rw [hs2]
          refine hwr.resized hl h.listed h.consistent.toUnshared hp hdev hoff hmax ?_
          have hmod : r % 2 ^ 32 = r := Nat.mod_eq_of_lt (lt_of_le_of_lt (hr ▸ hmax) (by decide))
          rw [UInt32.toNat_ofNat', hmod]
          omega
        have hw1 := hwr.listed hl h.listed hp
        have hp1 := hwr.same.loaded.mpr hp
        refine hroom1.congr (fun x _ => ?_) fun k => ?_
        · rw [used_synced hl (hre.listed h.listed) (hre.same.loaded.mpr hp), hs2]
          exact mem_used_congr rfl
        · rw [addr_synced hl (hre.listed h.listed) (hre.same.loaded.mpr hp) hre.unshared.owned, hs2]
          exact addr_resized hw1 hp1 k
    · refine ⟨l, s1, by rw [if_neg hgrow]; rfl, fun hone => le_trans (card_le_card ?_) ((hsyncs hone).card 0),
        hroom1⟩
      rw [List.toFinset_append]
      exact subset_union_left
  obtain ⟨l', s', hrun, hcard, hroom'⟩ := hrun
  obtain ⟨-, hre, hcoherent⟩ := (inodeWrite_spec hl h.listed h.consistent.toUnshared hp hdev hoff hmax).of_ok
    ((inodeWriteSyncs_erases src off).of_ok hrun)
  exact ⟨l', s', hrun, hcard, hroom', hre, hre.consistent h.consistent, hre.listed h.listed, hcoherent h.coherent⟩

end OS2021.Fs
