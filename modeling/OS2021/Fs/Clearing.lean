import Mathlib.Data.List.FinRange
import OS2021.Fs.Files

/-! `inode_clear` gives back every block of a file.

It frees the direct blocks one by one, then the blocks whose addresses are in the
indirect block, then the indirect block itself. The addresses in the indirect block
are not erased, so between two iterations the bitmap agrees with no entry; what is
in use is what was, without the blocks of the slots already released, in the order
in which they are (`Slot.rank`). -/
namespace OS2021.Fs
open Lib Function

variable {sb : SuperBlock} {s s' s1 : Volume} {p : Ptr} {i n : Nat} {e : InodeEntry} {A : Slot → Nat} {σ : Slot}
  {gone : Set Nat}

/-! ### The order of releases -/

def Slot.rank : Slot → Nat
  | .direct i => i
  | .indirect j => inodeNumDirect + j
  | .table => inodeNumDirect + inodeNumIndirect

theorem Slot.rank_inj {σ τ : Slot} (h : σ.rank = τ.rank) : σ = τ := by
  cases σ with
  | direct i =>
    cases τ with
    | direct j => exact congrArg Slot.direct (Fin.ext h)
    | indirect j | table => exact absurd h (by have := i.isLt; simp only [rank]; omega)
  | indirect i =>
    cases τ with
    | direct j => exact absurd h (by have := j.isLt; simp only [rank]; omega)
    | indirect j => exact congrArg Slot.indirect (Fin.ext (Nat.add_left_cancel h))
    | table => exact absurd h (by have := i.isLt; simp only [rank]; omega)
  | table =>
    cases τ with
    | direct j | indirect j => exact absurd h (by have := j.isLt; simp only [rank]; omega)
    | table => rfl

theorem Slot.rank_lt (σ : Slot) : σ.rank < inodeNumDirect + inodeNumIndirect + 1 := by
  cases σ with
  | direct i => have := i.isLt; simp only [rank]; omega
  | indirect j => have := j.isLt; simp only [rank]; omega
  | table => exact Nat.lt_succ_self _

/-- The blocks of the first `n` slots. -/
def blocksBelow (A : Slot → Nat) (n : Nat) : Set Nat := {b | b ≠ 0 ∧ ∃ σ : Slot, σ.rank < n ∧ A σ = b}

theorem blocksBelow_zero : blocksBelow A 0 = ∅ := by
  ext b
  simp [blocksBelow]

theorem blocksBelow_succ (h : σ.rank = n) (hne : A σ ≠ 0) :
    blocksBelow A (n + 1) = insert (A σ) (blocksBelow A n) := by
  ext b
  constructor
  · intro hb
    obtain ⟨hb0, τ, hτ, rfl⟩ := hb
    by_cases he : τ.rank = n
    · rw [Slot.rank_inj (he.trans h.symm)]
      exact Set.mem_insert ..
    · exact Or.inr ⟨hb0, τ, by omega, rfl⟩
  · intro hb
    rcases hb with rfl | ⟨hb0, τ, hτ, rfl⟩
    · exact ⟨hne, σ, by omega, rfl⟩
    · exact ⟨hb0, τ, by omega, rfl⟩

/-- Empty slots have no blocks. -/
theorem blocksBelow_of_empty {m : Nat} (hle : n ≤ m) (h : ∀ σ : Slot, n ≤ σ.rank → A σ = 0) :
    blocksBelow A m = blocksBelow A n := by
  ext b
  constructor
  · intro hb
    obtain ⟨hb0, σ, -, rfl⟩ := hb
    exact ⟨hb0, σ, not_le.mp fun hσ => hb0 (h σ hσ), rfl⟩
  · intro hb
    obtain ⟨hb0, σ, hσ, rfl⟩ := hb
    exact ⟨hb0, σ, by omega, rfl⟩

theorem mem_blocksBelow_all {b : Nat} :
    b ∈ blocksBelow A (inodeNumDirect + inodeNumIndirect + 1) ↔ b ≠ 0 ∧ ∃ σ, A σ = b :=
  and_congr_right fun _ => ⟨fun ⟨σ, _, h⟩ => ⟨σ, h⟩, fun ⟨σ, h⟩ => ⟨σ, σ.rank_lt, h⟩⟩

/-! ### Blocks being released -/

/-- The inode at `p` has entry `e`, the blocks in `gone` are no longer in use, and nothing
else has changed. -/
structure Freeing (sb : SuperBlock) (p : Ptr) (e : InodeEntry) (gone : Set Nat) (s s' : Volume) : Prop where
  same : SameInodes s s'
  others : ∀ q ≠ p, s'.heap q = s.heap q
  entry : (s'.heap p).entry = e
  blocks : ∀ x, x < sb.bitmapStart.toNat ∨ sb.dataStart ≤ x → s'.blocks x = s.blocks x
  used : s'.used sb = s.used sb \ gone

namespace Freeing

theorem start : Freeing sb p (s.heap p).entry ∅ s s :=
  ⟨.refl s, fun _ _ => rfl, rfl, fun _ _ => rfl, Set.sdiff_empty.symm⟩

theorem edit (h : Freeing sb p e gone s s') (f : InodeEntry → InodeEntry) :
    Freeing sb p (f e) gone s (s'.editEntry p f) := by
  refine ⟨h.same.trans (.editEntry s' p f), fun q hq => ?_, ?_, h.blocks, h.used⟩
  · rw [editEntry_of_ne hq, h.others q hq]
  · rw [editEntry_self, h.entry]

/-- `cache->free` of a block that is in use. -/
theorem free (h : Freeing sb p e gone s s') (hl : Layout sb) {b : Nat} (hb : b ∈ s.used sb) (hgone : b ∉ gone)
    (hlt : b < sb.numBlocks.toNat) :
    ∃ s'', (blockFree sb b).run s' = .ok () s'' ∧ Freeing sb p e (insert b gone) s s'' := by
  have hused : s'.isUsed sb b = true := by
    show b ∈ s'.used sb
    rw [h.used]
    exact ⟨hb, hgone⟩
  have hbm := hl.bitmapBlock_lt hlt
  have hbl := Layout.le_bitmapBlock sb b
  refine ⟨s'.clearUsed sb b, ?_, h.same.trans (.of_heap rfl rfl), h.others, h.entry, fun x hx => ?_, ?_⟩
  · rw [blockFree, bind_ok (get_run s'), if_pos hused, set_run]
  · rw [Volume.clearUsed, setBlock_of_ne (by omega), h.blocks x hx]
  · have hstep : (s'.clearUsed sb b).used sb = s'.used sb \ {b} := by
      ext x
      show (s'.clearUsed sb b).isUsed sb x = true ↔ s'.isUsed sb x = true ∧ x ≠ b
      rw [isUsed_clearUsed, Bool.and_eq_true, decide_eq_true_eq, and_comm]
    rw [hstep, h.used, Set.sdiff_sdiff, Set.union_singleton]

/-- Releasing the next slot, which owns block `a`. -/
theorem release (h : Freeing sb p e (blocksBelow A n) s s') (hl : Layout sb)
    (ho : Owned sb.dataStart sb.numBlocks.toNat A (s.used sb)) (hσ : σ.rank = n) {a : UInt32} (ha : A σ = a.toNat)
    (hne : a ≠ 0) :
    ∃ s'', (blockFree sb a.toNat).run s' = .ok () s'' ∧ Freeing sb p e (blocksBelow A (n + 1)) s s'' := by
  have hk : A σ ≠ 0 := by
    rw [ha]
    exact toNat_ne_zero.mpr hne
  rw [blocksBelow_succ hσ hk, ← ha]
  refine h.free hl (ho.mem_used σ hk) (fun hgone => ?_) (ho.range σ hk).2
  obtain ⟨-, τ, hτ, he⟩ := hgone
  rw [← hσ, ho.distinct σ τ hk he.symm] at hτ
  exact absurd hτ (Nat.lt_irrefl _)

/-- Releasing the next slot, which owns nothing. -/
theorem skip (h : Freeing sb p e (blocksBelow A n) s s') (hσ : σ.rank = n) (ha : A σ = 0) :
    Freeing sb p e (blocksBelow A (n + 1)) s s' := by
  have hsame : blocksBelow A (n + 1) = blocksBelow A n := by
    ext b
    refine and_congr_right fun hb => ⟨fun ⟨τ, hτ, he⟩ => ⟨τ, ?_, he⟩, fun ⟨τ, hτ, he⟩ => ⟨τ, by omega, he⟩⟩
    have hne : τ.rank ≠ n := fun hτn => hb (by rw [← he, Slot.rank_inj (hτn.trans hσ.symm), ha])
    omega
  rw [hsame]
  exact h

end Freeing

/-! ### The loops -/

/-- The entry without its first `n` direct addresses. -/
def InodeEntry.cleared (e : InodeEntry) (n : Nat) : InodeEntry :=
  {e with addrs := fun i => if (i : Nat) < n then 0 else e.addrs i}

theorem InodeEntry.cleared_next (i : Fin inodeNumDirect) : (e.cleared i).addrs i = e.addrs i :=
  if_neg (Nat.lt_irrefl _)

theorem InodeEntry.cleared_succ (i : Fin inodeNumDirect) :
    e.cleared (i + 1) = {e.cleared i with addrs := update (e.cleared i).addrs i 0} := by
  refine InodeEntry.ext rfl rfl rfl rfl rfl ?_ rfl
  funext j
  by_cases hj : j = i
  · rw [hj]
    dsimp only [cleared]
    rw [update_self, if_pos (Nat.lt_succ_self _)]
  · have hne : (j : Nat) ≠ i := fun h => hj (Fin.ext h)
    dsimp only [cleared]
    rw [update_of_ne hj]
    by_cases hlt : (j : Nat) < i
    · rw [if_pos hlt, if_pos (by omega)]
    · rw [if_neg hlt, if_neg (by omega)]

/-- What the slots of the inode at `p` own. -/
def Volume.slots (s : Volume) (p : Ptr) : Slot → Nat := addrOf s.blocks (s.heap p).entry

/-- Entry and blocks after the direct addresses below `n` have been cleared. -/
def DirectCleared (sb : SuperBlock) (p : Ptr) (s : Volume) (n : Nat) (s' : Volume) : Prop :=
  Freeing sb p ((s.heap p).entry.cleared n) (blocksBelow (s.slots p) n) s s'

/-- Blocks after the first `n` addresses of the indirect block have been freed. -/
def IndirectFreed (sb : SuperBlock) (p : Ptr) (s : Volume) (n : Nat) (s' : Volume) : Prop :=
  Freeing sb p ((s.heap p).entry.cleared inodeNumDirect) (blocksBelow (s.slots p) (inodeNumDirect + n)) s s'

section Loops
variable (hl : Layout sb) (ho : Owned sb.dataStart sb.numBlocks.toNat (s.slots p) (s.used sb))
include hl ho

theorem clearDirect_spec (i : Fin inodeNumDirect) :
    Triple (DirectCleared sb p s i) (clearDirect sb p i) (fun _ => DirectCleared sb p s (i + 1))
      fun _ _ => False := by
  intro s1 h
  have hentry : (s1.heap p).entry.addrs i = (s.heap p).entry.addrs i := by
    rw [h.entry, InodeEntry.cleared_next]
  have haddr : s.slots p (.direct i) = ((s.heap p).entry.addrs i).toNat := rfl
  rw [clearDirect, bind_ok (get_run s1), hentry]
  by_cases hz : (s.heap p).entry.addrs i = 0
  · rw [if_neg (not_not.mpr hz), pure_run]
    refine .ok ?_
    rw [DirectCleared, InodeEntry.cleared_succ, update_eq_self_iff.mpr]
    · exact h.skip (σ := .direct i) rfl (by rw [haddr, hz]; rfl)
    · rw [InodeEntry.cleared_next, hz]
  · obtain ⟨s2, hrun, h2⟩ := h.release hl ho (σ := .direct i) rfl haddr hz
    rw [if_pos hz, bind_ok hrun, modify_run]
    refine .ok ?_
    rw [DirectCleared, InodeEntry.cleared_succ]
    exact h2.edit fun e => {e with addrs := update e.addrs i 0}

theorem freeAddr_spec (hne : (s.heap p).entry.indirect ≠ 0) (j : Fin inodeNumIndirect) :
    Triple (IndirectFreed sb p s j) (freeAddr sb (s.heap p).entry.indirect.toNat j)
      (fun _ => IndirectFreed sb p s (j + 1)) fun _ _ => False := by
  intro s1 h
  have hblock : s1.blocks (s.heap p).entry.indirect.toNat = s.blocks (s.heap p).entry.indirect.toNat := by
    apply h.blocks
    exact Or.inr (ho.range .table (toNat_ne_zero.mpr hne)).1
  have haddr : s.slots p (.indirect j) = (getAddr (s.blocks (s.heap p).entry.indirect.toNat) j).toNat := by
    rw [Volume.slots, addrOf, if_neg hne]
  rw [freeAddr, bind_ok (get_run s1), hblock]
  dsimp only
  by_cases hz : getAddr (s.blocks (s.heap p).entry.indirect.toNat) j = 0
  · rw [if_neg (not_not.mpr hz), pure_run]
    exact .ok (h.skip (σ := .indirect j) rfl (by rw [haddr, hz]; rfl))
  · obtain ⟨s2, hrun, h2⟩ := h.release hl ho (σ := .indirect j) rfl haddr hz
    rw [if_pos hz, hrun]
    exact .ok h2

theorem clearIndirect_spec :
    Triple (DirectCleared sb p s inodeNumDirect) (clearIndirect sb p)
      (fun _ => Freeing sb p {(s.heap p).entry.cleared inodeNumDirect with indirect := 0}
        (blocksBelow (s.slots p) (inodeNumDirect + inodeNumIndirect + 1)) s)
      fun _ _ => False := by
  intro s1 h
  have hentry : (s1.heap p).entry.indirect = (s.heap p).entry.indirect := by
    rw [h.entry]
    rfl
  rw [clearIndirect, bind_ok (get_run s1), hentry]
  by_cases hz : (s.heap p).entry.indirect = 0
  · -- no indirect block: the slots behind the direct ones are empty
    have hempty : ∀ σ : Slot, inodeNumDirect ≤ σ.rank → s.slots p σ = 0 := by
      intro σ hσ
      cases σ with
      | direct i => exact absurd i.isLt (not_lt.mpr hσ)
      | indirect j => rw [Volume.slots, addrOf, if_pos hz]
      | table => rw [Volume.slots, addrOf, hz]; rfl
    rw [if_neg (not_not.mpr hz), pure_run, blocksBelow_of_empty (by decide) hempty]
    have hsame : {(s.heap p).entry.cleared inodeNumDirect with indirect := 0} =
        (s.heap p).entry.cleared inodeNumDirect := InodeEntry.ext rfl rfl rfl rfl rfl rfl hz.symm
    rw [hsame]
    exact .ok h
  · have hloop : Triple (IndirectFreed sb p s 0)
        ((List.range inodeNumIndirect).forM (freeAddr sb (s.heap p).entry.indirect.toNat))
        (fun _ => IndirectFreed sb p s inodeNumIndirect) fun _ _ => False :=
      .forM_range fun j hj => freeAddr_spec hl ho hz ⟨j, hj⟩
    rw [if_pos hz]
    refine (hloop s1 h).bind fun _ s2 _ h2 => ?_
    obtain ⟨s3, hrun, h3⟩ := h2.release hl ho (σ := .table) rfl rfl hz
    rw [bind_ok hrun, modify_run]
    exact .ok (h3.edit fun e => {e with indirect := 0})

end Loops

/-! ### `inode_clear` -/

/-- The entry of an empty file. -/
def InodeEntry.emptied (e : InodeEntry) : InodeEntry := {e with numBytes := 0, addrs := fun _ => 0, indirect := 0}

theorem InodeEntry.cleared_all : {e.cleared inodeNumDirect with indirect := 0, numBytes := 0} = e.emptied :=
  InodeEntry.ext rfl rfl rfl rfl rfl (funext fun i => if_pos i.isLt) rfl

theorem addrOf_emptied (blocks : Nat → BlockData) (σ : Slot) : addrOf blocks e.emptied σ = 0 := by
  cases σ with
  | direct i => rfl
  | table => rfl
  | indirect j =>
    rw [addrOf, if_pos]
    rfl

/-- The blocks of the inode at `p`. -/
def Volume.blocksOf (s : Volume) (p : Ptr) : Set Nat := {b | b ≠ 0 ∧ ∃ σ, s.slots p σ = b}

/-- `inode_clear` frees every block of the inode and stores an empty entry. -/
theorem inodeClear_run (hl : Layout sb) (ho : Owned sb.dataStart sb.numBlocks.toNat (s.slots p) (s.used sb))
    (hvalid : (s.heap p).valid = true) :
    ∃ s1, Freeing sb p (s.heap p).entry.emptied (s.blocksOf p) s s1 ∧
      (inodeClear sb p).run s = .ok () (s1.synced sb p) := by
  have hloop : Triple (DirectCleared sb p s 0) ((List.finRange inodeNumDirect).forM (clearDirect sb p))
      (fun _ => DirectCleared sb p s (List.finRange inodeNumDirect).length) fun _ _ => False := by
    refine Triple.forM _ _ _ _ fun i hi => ?_
    rw [List.length_finRange] at hi
    rw [List.getElem_finRange]
    exact clearDirect_spec hl ho ⟨i, hi⟩
  have hstart : DirectCleared sb p s 0 s := by
    rw [DirectCleared, blocksBelow_zero]
    exact .start
  have hends : Ends (fun _ s' => ∃ s1, Freeing sb p (s.heap p).entry.emptied (s.blocksOf p) s s1 ∧
      s' = s1.synced sb p) (fun _ _ => False) ((inodeClear sb p).run s) := by
    rw [inodeClear]
    refine (hloop s hstart).bind fun _ s1 _ h1 => ?_
    rw [List.length_finRange] at h1
    refine (clearIndirect_spec hl ho s1 h1).bind fun _ s2 _ h2 => ?_
    have h3 := h2.edit fun e => {e with numBytes := 0}
    have hall : blocksBelow (s.slots p) (inodeNumDirect + inodeNumIndirect + 1) = s.blocksOf p :=
      Set.ext fun _ => mem_blocksBelow_all
    rw [InodeEntry.cleared_all, hall] at h3
    rw [bind_ok (modify_run _ _), inodeSync_write ((h3.same.valid p).trans hvalid)]
    exact .ok ⟨_, h3, rfl⟩
  cases hrun : (inodeClear sb p).run s with
  | ok u s' =>
    obtain ⟨s1, h1, rfl⟩ := hends.of_ok hrun
    exact ⟨s1, h1, rfl⟩
  | error e s' => exact (hends.of_error hrun).elim

theorem slots_loaded (hw : Listed sb s) (hp : s.Loaded p) (σ : Slot) :
    s.slots p σ = s.addr sb ((s.heap p).inodeNo, σ) := (addr_loaded hw hp σ).symm

section Clear
variable (hl : Layout sb) (hw : Listed sb s) (hc : Unshared sb s) (hp : s.Loaded p)
include hl hw hc hp

/-- All blocks of the inode are released and its entry is empty: the bitmap agrees with the entries again. -/
theorem Freeing.rewritten (h : Freeing sb p (s.heap p).entry.emptied (s.blocksOf p) s s') :
    Rewritten sb p [] s s' ∧ ∀ σ, s'.addr sb ((s.heap p).inodeNo, σ) = 0 := by
  have hinodes : ∀ x < sb.bitmapStart.toNat, s'.blocks x = s.blocks x := fun x hx => h.blocks x (Or.inl hx)
  have hentry : ∀ i ≤ sb.numInodes.toNat, s'.entryOf sb i =
      if i = (s.heap p).inodeNo then (s.heap p).entry.emptied else s.entryOf sb i := fun i hi => by
    rw [h.same.entryOf h.others hinodes hl hw hp hi, h.entry]
  have htypes : ∀ i ≤ sb.numInodes.toNat, (s'.entryOf sb i).type = (s.entryOf sb i).type := fun i hi => by
    rw [hentry i hi]
    by_cases he : i = (s.heap p).inodeNo
    · rw [if_pos he, he, hw.entryOf hp]
      rfl
    · rw [if_neg he]
  have haddr : ∀ k : Nat × Slot, s'.addr sb k = if k.1 = (s.heap p).inodeNo then 0 else s.addr sb k := by
    intro k
    by_cases hk : k.1 = (s.heap p).inodeNo
    · rw [if_pos hk, Volume.addr]
      by_cases ha : s'.Allocated sb k.1
      · rw [if_pos ha, hentry k.1 ha.2.1, if_pos hk, addrOf_emptied]
      · rw [if_neg ha]
    · rw [if_neg hk]
      refine addr_congr (fun hi => ?_) fun _ hne => h.blocks _ (Or.inr (hc.owned.range _ hne).1)
      rw [hentry k.1 hi, if_neg hk]
  have hempty : ∀ σ, s'.addr sb ((s.heap p).inodeNo, σ) = 0 := fun σ => by rw [haddr, if_pos rfl]
  have helse : Elsewhere sb (s.heap p).inodeNo s s' :=
    ⟨fun i hi hne => by rw [hentry i hi, if_neg hne], fun k hk => by rw [haddr, if_neg hk]⟩
  have hused : s'.used sb = s.used sb \ {b | b ≠ 0 ∧ ∃ k, k.1 = (s.heap p).inodeNo ∧ s.addr sb k = b} := by
    rw [h.used]
    congr 1
    ext b
    refine and_congr_right fun _ => ⟨fun hown => ?_, fun hown => ?_⟩
    · obtain ⟨σ, hσ⟩ := hown
      exact ⟨(_, σ), rfl, by rw [← slots_loaded hw hp, hσ]⟩
    · obtain ⟨k, hk, hb⟩ := hown
      exact ⟨k.2, by rw [slots_loaded hw hp, ← hk, hb]⟩
  have hunshared : Unshared sb s' := by
    refine helse.unshared hc ?_ fun ha => filled_of_empty ?_
    · rw [hused]
      exact hc.owned.drop haddr
    · rw [hentry _ ha.2.1, if_pos rfl]
      rfl
  refine ⟨⟨h.same, h.others, htypes, ?disk, hunshared, ?consistent, ?content⟩, hempty⟩
  case disk =>
    intro i hi _
    rw [Volume.diskEntry, Volume.diskEntry, hinodes _ (hl.toBlockNo_lt hi)]
  case consistent =>
    intro hcs
    refine helse.consistent hcs hunshared ?_ fun _ _ _ _ => hempty _
    rw [hused]
    exact hcs.exact.drop haddr
  case content =>
    intro i hi hd
    rw [Volume.content, hentry i hi.2.1]
    by_cases he : i = (s.heap p).inodeNo
    · rw [if_pos he, if_pos he]
      rfl
    · rw [if_neg he, if_neg he]
      refine elements_congr fun j hj => byteAt_congr ?_ (h.blocks _ (Or.inr ?_))
      · rw [haddr, if_neg he]
      · exact (hc.owned.range _ (hc.byte hi hd hj).2).1

/-- **`inode_clear` leaves an empty file without blocks.** -/
theorem inodeClear_spec :
    Ends (fun _ s' => Rewritten sb p [] s s' ∧ (∀ σ, s'.addr sb ((s.heap p).inodeNo, σ) = 0) ∧
        (Coherent sb s → Coherent sb s'))
      (fun _ _ => False) ((inodeClear sb p).run s) := by
  have ho : Owned sb.dataStart sb.numBlocks.toNat (s.slots p) (s.used sb) := by
    rw [funext (slots_loaded hw hp)]
    exact hc.owned.comp fun σ τ he => congrArg Prod.snd he
  obtain ⟨s1, h1, hrun⟩ := inodeClear_run hl ho hp.2
  obtain ⟨hre, hempty⟩ := h1.rewritten hl hw hc hp
  have hp1 := hre.same.loaded.mpr hp
  have hsync := hre.synced hl hw hp
  rw [hrun]
  refine .ok ⟨hsync, fun σ => ?_, hsync.coherent hw hp ?_⟩
  · rw [addr_synced hl (hre.listed hw) hp1 hre.unshared.owned]
    exact hempty σ
  · rw [diskEntry_synced, hre.same.inodeNo, if_pos rfl]
    rfl

end Clear

end OS2021.Fs
