import OS2021.Fs.Mapping
import OS2021.Lib.Splice

/-! Files are byte arrays: what the loops of `inode_read` and `inode_write` and
`inode_clear` do to the bytes of every file.

One iteration of a write maps a block and overwrites part of it. `Written off src`
says what that does to all files, and composes over adjacent ranges, so the whole
loop is one `Written` again. -/
namespace OS2021.Fs
open Lib

variable {sb : SuperBlock} {s s' s1 s2 : Volume} {p q : Ptr} {i j off idx a : Nat} {src : List UInt8}
  {predicate : String}

/-! ### Bytes of a file -/

/-- Byte `j` of inode `i`. -/
def Volume.byteAt (sb : SuperBlock) (s : Volume) (i j : Nat) : UInt8 :=
  bytes (s.blocks (s.addr sb (i, blockSlot (j / blockSize)))) (j % blockSize)

def Volume.content (sb : SuperBlock) (s : Volume) (i : Nat) : List UInt8 :=
  elements (s.entryOf sb i).numBytes.toNat (s.byteAt sb i)

theorem byteAt_congr (ha : s'.addr sb (i, blockSlot (j / blockSize)) = s.addr sb (i, blockSlot (j / blockSize)))
    (hb : s'.blocks (s.addr sb (i, blockSlot (j / blockSize))) =
      s.blocks (s.addr sb (i, blockSlot (j / blockSize)))) :
    s'.byteAt sb i j = s.byteAt sb i j := by
  rw [Volume.byteAt, Volume.byteAt, ha, hb]

theorem lt_blocksFor {n : Nat} : idx < blocksFor n ↔ idx * blockSize < n := by
  show idx < (n + 512 - 1) / 512 ↔ idx * 512 < n
  omega

theorem index_lt (h : j < inodeMaxBytes) : j / blockSize < inodeNumDirect + inodeNumIndirect :=
  Nat.div_lt_of_lt_mul (lt_of_lt_of_eq h (Nat.mul_comm ..))

/-! ### Writing -/

/-- The bytes `src` have been written at `off` of the file at `p`, and nothing else. -/
structure Written (sb : SuperBlock) (p : Ptr) (off : Nat) (src : List UInt8) (s s' : Volume) : Prop
    extends Extended sb p s s' where
  got : ∀ idx < inodeNumDirect + inodeNumIndirect, s'.addr sb ((s.heap p).inodeNo, blockSlot idx) ≠ 0 ↔
    s.addr sb ((s.heap p).inodeNo, blockSlot idx) ≠ 0 ∨
      ∃ j, off ≤ j ∧ j < off + src.length ∧ j / blockSize = idx
  bytes : ∀ i j, j < inodeMaxBytes → s.addr sb (i, blockSlot (j / blockSize)) ≠ 0 ∨
      i = (s.heap p).inodeNo ∧ off ≤ j ∧ j < off + src.length →
    s'.byteAt sb i j = if i = (s.heap p).inodeNo ∧ off ≤ j ∧ j < off + src.length then src.getD (j - off) 0
      else s.byteAt sb i j
  stays : (∀ j, off ≤ j → j < off + src.length → s.addr sb ((s.heap p).inodeNo, blockSlot (j / blockSize)) ≠ 0) →
    s'.heap = s.heap

namespace Written

theorem refl (ho : Owned sb.dataStart sb.numBlocks.toNat (s.addr sb) (s.used sb)) : Written sb p off [] s s := by
  have hno : ∀ j, ¬ (off ≤ j ∧ j < off + ([] : List UInt8).length) := fun j h => by
    rw [List.length_nil] at h
    omega
  refine ⟨.refl ho, fun idx _ => ⟨Or.inl, ?_⟩, fun i j _ _ => ?_, fun _ => rfl⟩
  · intro hor
    rcases hor with h | ⟨j, h1, h2, -⟩
    · exact h
    · exact absurd ⟨h1, h2⟩ (hno j)
  · rw [if_neg fun h => hno j h.2]

theorem trans {src1 src2 : List UInt8} (h : Written sb p off src1 s s1)
    (h' : Written sb p (off + src1.length) src2 s1 s2) : Written sb p off (src1 ++ src2) s s2 := by
  have hno := h.same.inodeNo p
  have hlen : (src1 ++ src2).length = src1.length + src2.length := List.length_append
  refine ⟨h.toExtended.trans h'.toExtended, fun idx hidx => ?_, fun i j hj hij => ?_, fun hall => ?_⟩
  · rw [← hno, h'.got idx hidx, hno, h.got idx hidx, or_assoc]
    refine or_congr_right ⟨?_, ?_⟩
    · intro hor
      rcases hor with ⟨j, h1, h2, h3⟩ | ⟨j, h1, h2, h3⟩
      · exact ⟨j, h1, by omega, h3⟩
      · exact ⟨j, by omega, by omega, h3⟩
    · intro hex
      obtain ⟨j, h1, h2, h3⟩ := hex
      by_cases hj : j < off + src1.length
      · exact Or.inl ⟨j, h1, hj, h3⟩
      · exact Or.inr ⟨j, not_lt.mp hj, by omega, h3⟩
  · by_cases hsnd : i = (s.heap p).inodeNo ∧ off + src1.length ≤ j ∧ j < off + src1.length + src2.length
    · -- in the second range
      rw [h'.bytes i j hj (Or.inr (by rw [hno]; exact hsnd)), hno, if_pos hsnd, if_pos ⟨hsnd.1, by omega, by omega⟩,
        List.getD_append_right _ _ _ _ (by omega)]
      congr 1
      omega
    · have hfst : s.addr sb (i, blockSlot (j / blockSize)) ≠ 0 ∨
          i = (s.heap p).inodeNo ∧ off ≤ j ∧ j < off + src1.length :=
        hij.imp id fun hr => ⟨hr.1, hr.2.1, by omega⟩
      have hmid : s1.addr sb (i, blockSlot (j / blockSize)) ≠ 0 := by
        rcases hfst with hne | ⟨rfl, h1, h2⟩
        · rw [h.kept _ hne]
          exact hne
        · exact (h.got _ (index_lt hj)).mpr (Or.inr ⟨j, h1, h2, rfl⟩)
      rw [h'.bytes i j hj (Or.inl hmid), hno, if_neg hsnd, h.bytes i j hj hfst]
      by_cases hin : i = (s.heap p).inodeNo ∧ off ≤ j ∧ j < off + src1.length
      · rw [if_pos hin, if_pos ⟨hin.1, hin.2.1, by omega⟩, List.getD_append _ _ _ _ (by omega)]
      · rw [if_neg hin, if_neg fun hr => hin ⟨hr.1, hr.2.1, by omega⟩]
  · have h1 : s1.heap = s.heap := h.stays fun j hle hlt => hall j hle (by omega)
    rw [h'.stays fun j hle hlt => ?_, h1]
    have hne := hall j (by omega) (by omega)
    rw [hno, h.kept _ hne]
    exact hne

end Written

/-- Storing into a file's block changes no slot. -/
theorem Extended.store (hl : Layout sb) (ho : Owned sb.dataStart sb.numBlocks.toNat (s.addr sb) (s.used sb))
    (hne : s.addr sb (i, blockSlot idx) ≠ 0) (d : BlockData) :
    Extended sb p s (s.setBlock (s.addr sb (i, blockSlot idx)) d) ∧
      ∀ k, (s.setBlock (s.addr sb (i, blockSlot idx)) d).addr sb k = s.addr sb k := by
  have hge := (ho.range _ hne).1
  have hst := hl.bitmapStart_le
  have haddr : ∀ k, (s.setBlock (s.addr sb (i, blockSlot idx)) d).addr sb k = s.addr sb k := fun k => by
    refine addr_congr (fun hi => entryOf_setBlock hl (by omega) hi) fun _ hne' => setBlock_of_ne ?_
    exact ho.ne_of_ne hne' fun he => blockSlot_ne_table idx (congrArg Prod.snd he).symm
  have hused : ∀ x < sb.numBlocks.toNat,
      x ∈ (s.setBlock (s.addr sb (i, blockSlot idx)) d).used sb ↔ x ∈ s.used sb := fun x hx => by
    have := hl.bitmapBlock_lt hx
    exact mem_used_congr (setBlock_of_ne (by omega))
  refine ⟨⟨.of_heap rfl rfl, fun _ _ => rfl, rfl, ?_, ho.congr haddr hused, fun he => he.congr haddr hused,
    fun k _ => haddr k, fun k _ => haddr k⟩, haddr⟩
  exact fun x hx => setBlock_of_ne (by omega)

/-- One iteration of a write: a block is mapped, and part of it is overwritten. -/
theorem Mapped.written (hl : Layout sb) (hm : Mapped sb p (off / blockSize) a s s1) (hoff : off < inodeMaxBytes)
    (hsrc : src ≠ []) (hlen : src.length ≤ blockSize - off % blockSize) :
    Written sb p off src s (s1.setBlock a (overwrite (s1.blocks a) (off % blockSize) src)) := by
  have hidx := index_lt hoff
  have hpos := List.length_pos_iff.mpr hsrc
  have hin : ∀ j, off ≤ j → j < off + src.length → j / blockSize = off / blockSize := fun j h1 h2 => by
    show j / 512 = off / 512
    have hlen' : src.length ≤ 512 - off % 512 := hlen
    omega
  have hgot := hm.got
  have hne : s1.addr sb ((s.heap p).inodeNo, blockSlot (off / blockSize)) ≠ 0 := by
    rw [hgot]
    exact hm.ne
  obtain ⟨hext, haddr⟩ := Extended.store (p := p) hl hm.owned hne
    (overwrite (s1.blocks a) (off % blockSize) src)
  rw [hgot] at hext haddr
  refine ⟨hm.toExtended.trans hext, fun idx hlt => ?_, fun i j hj hij => ?_, fun hall => ?_⟩
  · rw [haddr]
    by_cases he : idx = off / blockSize
    · rw [he]
      exact ⟨fun _ => Or.inr ⟨off, le_rfl, by omega, rfl⟩, fun _ => hne⟩
    · rw [hm.rest idx hlt he]
      refine ⟨Or.inl, ?_⟩
      intro hor
      rcases hor with h | ⟨j, h1, h2, h3⟩
      · exact h
      · exact absurd (h3.symm.trans (hin j h1 h2)) he
  · by_cases hhere : i = (s.heap p).inodeNo ∧ j / blockSize = off / blockSize
    · obtain ⟨rfl, hdiv⟩ := hhere
      have hmod : j % blockSize < blockSize := Nat.mod_lt j (by decide)
      have hiff : (off % blockSize ≤ j % blockSize ∧ j % blockSize < off % blockSize + src.length) ↔
          (s.heap p).inodeNo = (s.heap p).inodeNo ∧ off ≤ j ∧ j < off + src.length := by
        have hdiv' : j / 512 = off / 512 := hdiv
        show (off % 512 ≤ j % 512 ∧ j % 512 < off % 512 + src.length) ↔ _
        constructor
        · exact fun h => ⟨rfl, by omega, by omega⟩
        · exact fun h => ⟨by omega, by omega⟩
      rw [Volume.byteAt, haddr, hdiv, hgot, setBlock_self, bytes_overwrite hmod]
      by_cases h : (s.heap p).inodeNo = (s.heap p).inodeNo ∧ off ≤ j ∧ j < off + src.length
      · rw [if_pos (hiff.mpr h), if_pos h]
        congr 1
        have hdiv' : j / 512 = off / 512 := hdiv
        show j % 512 - off % 512 = j - off
        omega
      · -- outside the range the block was there before, so it is not a new one
        have hold := hij.resolve_right h
        rw [hdiv] at hold
        have hs : s1 = s := hm.stays hold
        rw [if_neg (mt hiff.mp h), if_neg h]
        rw [Volume.byteAt, hdiv, ← hgot, hs]
    · have hout : ¬ (i = (s.heap p).inodeNo ∧ off ≤ j ∧ j < off + src.length) :=
        fun h => hhere ⟨h.1, hin j h.2.1 h.2.2⟩
      have hold := hij.resolve_right hout
      have hkeep := hm.kept _ hold
      rw [if_neg hout]
      refine byteAt_congr ((haddr _).trans hkeep) ?_
      rw [setBlock_of_ne, hm.data _ _ hold]
      intro he
      rw [← hkeep, ← hgot] at he
      have hk := hm.owned.distinct _ _ (by rw [hkeep]; exact hold) he
      exact hhere ⟨congrArg Prod.fst hk, blockSlot_inj (index_lt hj) hidx (congrArg Prod.snd hk)⟩
  · have hs : s1 = s := hm.stays (hall off le_rfl (by omega))
    rw [hs]
    rfl

theorem chunk_pos (off : Nat) {n : Nat} (h : 0 < n) : 0 < chunk off n := by
  have : off % 512 < 512 := Nat.mod_lt off (by decide)
  show 0 < min n (512 - off % 512)
  omega

/-- The loop of `inode_write` writes all of `src`, or it needs a block and there is none left. -/
theorem writeLoop_spec (hl : Layout sb) (hw : Listed sb s) (hp : s.Loaded p)
    (ho : Owned sb.dataStart sb.numBlocks.toNat (s.addr sb) (s.used sb)) {fuel : Nat}
    (hfuel : src.length ≤ fuel) (hmax : off + src.length ≤ inodeMaxBytes) :
    Ends (fun r s' => r = off + src.length ∧ Written sb p off src s s')
      (fun e s' => NoBlock sb e s' ∧
        ∃ j, off ≤ j ∧ j < off + src.length ∧ s.addr sb ((s.heap p).inodeNo, blockSlot (j / blockSize)) = 0)
      ((writeLoop sb p fuel off src).run s) := by
  induction fuel generalizing s off src with
  | zero =>
    obtain rfl : src = [] := List.eq_nil_of_length_eq_zero (Nat.le_zero.mp hfuel)
    exact .ok ⟨rfl, .refl ho⟩
  | succ fuel ih =>
    rw [writeLoop]
    by_cases hsrc : src = []
    · rw [if_pos hsrc, hsrc, pure_run]
      exact .ok ⟨rfl, .refl ho⟩
    · have hpos := List.length_pos_iff.mpr hsrc
      have hchunk := chunk_pos off hpos
      have hle : chunk off src.length ≤ src.length := Nat.min_le_left ..
      have hoff : off < inodeMaxBytes := by omega
      rw [if_neg hsrc]
      refine ((inodeMap_spec hl hw hp ho (index_lt hoff)).mono (fun _ _ h => h) ?_).bind fun b s1 _ hm => ?_
      · exact fun e s' he => ⟨he.1, off, le_rfl, by omega, he.2⟩
      rw [bind_ok (modify_run _ _)]
      have htake : (src.take (chunk off src.length)).length = chunk off src.length := List.length_take_of_le hle
      have hstep : Written sb p off (src.take (chunk off src.length)) s _ :=
        hm.written hl hoff (fun h => by rw [h, List.length_nil] at htake; omega)
          (by rw [htake]; exact Nat.min_le_right ..)
      have hdrop : (src.drop (chunk off src.length)).length = src.length - chunk off src.length := List.length_drop
      refine (ih (hstep.listed hl hw hp) (hstep.same.loaded.mpr hp) hstep.owned (by omega) (by omega)).mono ?_ ?_
      case refine_2 =>
        intro e s2 hstop
        obtain ⟨hnone, j, hj, hlt, hz⟩ := hstop
        rw [hstep.same.inodeNo] at hz
        refine ⟨hnone, j, by omega, by omega, ?_⟩
        by_contra hne
        exact (hstep.got _ (index_lt (by omega))).mpr (Or.inl hne) hz
      intro r s2 hres
      obtain ⟨rfl, hrest⟩ := hres
      refine ⟨by omega, ?_⟩
      rw [← htake] at hrest
      have hall := hstep.trans (by rw [htake] at hrest ⊢; exact hrest)
      rwa [List.take_append_drop] at hall

/-! ### Sizes -/

theorem editEntry_eq_self {f : InodeEntry → InodeEntry} (h : f (s.heap p).entry = (s.heap p).entry) :
    s.editEntry p f = s := by
  have hheap : Function.update s.heap p {s.heap p with entry := f (s.heap p).entry} = s.heap := by
    rw [h]
    exact Function.update_eq_self ..
  rw [Volume.editEntry, Volume.setInode, hheap]

section Resized
variable (hw : Listed sb s) (hp : s.Loaded p) {n : UInt32}
include hw hp

theorem entryOf_resized : (s.editEntry p fun e => {e with numBytes := n}).entryOf sb i =
    if i = (s.heap p).inodeNo then {(s.heap p).entry with numBytes := n} else s.entryOf sb i :=
  entryOf_editEntry hw hp

/-- A file's size says nothing about its slots. -/
theorem addr_resized (k : Nat × Slot) : (s.editEntry p fun e => {e with numBytes := n}).addr sb k = s.addr sb k := by
  rw [addr_editEntry hw hp rfl]
  by_cases hk : k.1 = (s.heap p).inodeNo
  · rw [if_pos hk, show k = ((s.heap p).inodeNo, k.2) from Prod.ext hk rfl, addr_loaded hw hp]
    cases k.2 <;> rfl
  · rw [if_neg hk]

theorem byteAt_resized : (s.editEntry p fun e => {e with numBytes := n}).byteAt sb i j = s.byteAt sb i j :=
  byteAt_congr (addr_resized hw hp _) rfl

end Resized

/-- The blocks of a file after a write. -/
theorem blocks_of_write {n : Nat} (h : off ≤ n) :
    idx < blocksFor (max n (off + src.length)) ↔
      idx < blocksFor n ∨ ∃ j, off ≤ j ∧ j < off + src.length ∧ j / blockSize = idx := by
  rw [lt_blocksFor, lt_blocksFor]
  show idx * 512 < max n (off + src.length) ↔ idx * 512 < n ∨ ∃ j, off ≤ j ∧ j < off + src.length ∧ j / 512 = idx
  constructor
  · intro hlt
    by_cases hold : idx * 512 < n
    · exact Or.inl hold
    · exact Or.inr ⟨idx * 512, by omega, by omega, by omega⟩
  · intro hor
    rcases hor with hold | ⟨j, h1, h2, h3⟩
    · omega
    · omega

/-- The file at `p` now has the contents `data`, and no other file has changed. -/
structure Rewritten (sb : SuperBlock) (p : Ptr) (data : List UInt8) (s s' : Volume) : Prop where
  same : SameInodes s s'
  others : ∀ q ≠ p, s'.heap q = s.heap q
  types : ∀ i ≤ sb.numInodes.toNat, (s'.entryOf sb i).type = (s.entryOf sb i).type
  disk : ∀ i ≤ sb.numInodes.toNat, i ≠ (s.heap p).inodeNo → s'.diskEntry sb i = s.diskEntry sb i
  unshared : Unshared sb s'
  consistent : Consistent sb s → Consistent sb s'
  content : ∀ i, s.Allocated sb i → (s.entryOf sb i).type ≠ inodeDevice →
    s'.content sb i = if i = (s.heap p).inodeNo then data else s.content sb i

/-- The blocks of a loaded file. -/
theorem Unshared.loaded (hc : Unshared sb s) (hw : Listed sb s) (hp : s.Loaded p)
    (hdev : (s.heap p).entry.type ≠ inodeDevice) : (s.heap p).entry.numBytes.toNat ≤ inodeMaxBytes ∧
    ∀ idx < blocksFor (s.heap p).entry.numBytes.toNat, s.addr sb ((s.heap p).inodeNo, blockSlot idx) ≠ 0 := by
  have h := hc.filled _ (hw.allocated p hp.1)
  rw [Volume.Filled, hw.entryOf hp] at h
  exact h hdev

/-- Bytes of a file have their block. -/
theorem Unshared.byte (hc : Unshared sb s) (hi : s.Allocated sb i) (hd : (s.entryOf sb i).type ≠ inodeDevice)
    (hj : j < (s.entryOf sb i).numBytes.toNat) :
    j < inodeMaxBytes ∧ s.addr sb (i, blockSlot (j / blockSize)) ≠ 0 := by
  obtain ⟨hmax, hblocks⟩ := hc.filled i hi hd
  refine ⟨lt_of_lt_of_le hj hmax, hblocks _ (lt_blocksFor.mpr ?_)⟩
  exact lt_of_le_of_lt (Nat.div_mul_le_self ..) hj

/-- A write within the size the file gets. -/
theorem Written.resized (h : Written sb p off src s s1) (hl : Layout sb) (hw : Listed sb s) (hc : Unshared sb s)
    (hp : s.Loaded p) (hdev : (s.heap p).entry.type ≠ inodeDevice)
    (hoff : off ≤ (s.heap p).entry.numBytes.toNat) (hmax : off + src.length ≤ inodeMaxBytes) {n : UInt32}
    (hn : n.toNat = max (s.heap p).entry.numBytes.toNat (off + src.length)) :
    Rewritten sb p (splice (s.content sb (s.heap p).inodeNo) off src) s
      (s1.editEntry p fun e => {e with numBytes := n}) := by
  have hno := h.same.inodeNo p
  have hw1 := h.listed hl hw hp
  have hp1 := h.same.loaded.mpr hp
  have hentry : ∀ i ≤ sb.numInodes.toNat, (s1.editEntry p fun e => {e with numBytes := n}).entryOf sb i =
      if i = (s.heap p).inodeNo then {(s1.heap p).entry with numBytes := n} else s.entryOf sb i := by
    intro i hi
    rw [entryOf_resized hw1 hp1, hno, h.entryOf hl hw hp hi]
    split <;> rfl
  have htype : (s1.heap p).entry.type = (s.heap p).entry.type := by rw [h.fields]
  obtain ⟨hle, hblocks⟩ := hc.loaded hw hp hdev
  have helse : Elsewhere sb (s.heap p).inodeNo s (s1.editEntry p fun e => {e with numBytes := n}) :=
    ⟨fun i hi hne => by rw [hentry i hi, if_neg hne], fun k hk => by rw [addr_resized hw1 hp1, h.only k hk]⟩
  have hsize : ((s1.editEntry p fun e => {e with numBytes := n}).entryOf sb (s.heap p).inodeNo).numBytes.toNat =
      max (s.heap p).entry.numBytes.toNat (off + src.length) := by
    rw [hentry _ (hw.allocated p hp.1).2.1, if_pos rfl]
    exact hn
  have hunshared : Unshared sb (s1.editEntry p fun e => {e with numBytes := n}) := by
    refine helse.unshared hc (h.owned.congr (addr_resized hw1 hp1) fun _ _ => mem_used_congr rfl) fun _ => ?_
    rw [Volume.Filled, hsize]
    refine ⟨by omega, fun idx hidx => ?_⟩
    have hlt : idx < inodeNumDirect + inodeNumIndirect := by
      rw [lt_blocksFor] at hidx
      exact Nat.lt_of_mul_lt_mul_right (lt_of_lt_of_le hidx (Nat.max_le.mpr ⟨hle, hmax⟩))
    rw [addr_resized hw1 hp1, h.got idx hlt]
    exact ((blocks_of_write hoff).mp hidx).imp_left (hblocks idx)
  refine ⟨h.same.trans (.editEntry s1 p _), ?others, ?types, ?disk, hunshared, ?consistent, ?content⟩
  case others =>
    intro q hq
    rw [editEntry_of_ne hq, h.others q hq]
  case types =>
    intro i hi
    rw [hentry i hi]
    by_cases he : i = (s.heap p).inodeNo
    · rw [if_pos he, he, hw.entryOf hp]
      exact htype
    · rw [if_neg he]
  case disk =>
    intro i hi _
    show getEntry (s1.blocks _) i = getEntry (s.blocks _) i
    rw [h.inodes _ (hl.toBlockNo_lt hi)]
  case consistent =>
    intro hcs
    refine helse.consistent hcs hunshared
      ((h.exact hcs.exact).congr (addr_resized hw1 hp1) fun _ _ => mem_used_congr rfl) fun _ idx hidx hge => ?_
    have htrim := hcs.trimmed _ (hw.allocated p hp.1)
    rw [Volume.Trimmed, hw.entryOf hp] at htrim
    rw [hsize] at hge
    by_contra hne
    rw [addr_resized hw1 hp1] at hne
    refine absurd ((blocks_of_write hoff).mpr (((h.got idx hidx).mp hne).imp_left fun hold => ?_)) (not_lt.mpr hge)
    exact not_le.mp fun hout => hold (htrim hdev idx hidx hout)
  case content =>
    intro i hi hd
    rw [Volume.content, hentry i hi.2.1]
    by_cases he : i = (s.heap p).inodeNo
    · rw [if_pos he, if_pos he, Volume.content, hw.entryOf hp, splice_elements 0 hoff]
      show elements n.toNat _ = _
      rw [hn]
      refine elements_congr fun j hj => ?_
      rw [byteAt_resized hw1 hp1, he, h.bytes _ j (by omega)]
      · simp only [true_and]
      · by_cases hlt : j < (s.heap p).entry.numBytes.toNat
        · rw [← hw.entryOf hp] at hlt
          rw [he] at hi hd
          exact Or.inl (hc.byte hi hd hlt).2
        · exact Or.inr ⟨rfl, by omega, by omega⟩
    · rw [if_neg he, if_neg he]
      refine elements_congr fun j hj => ?_
      obtain ⟨hlt, hne⟩ := hc.byte hi hd hj
      rw [byteAt_resized hw1 hp1, h.bytes i j hlt (Or.inl hne), if_neg fun hr => he hr.1]

/-! ### Storing an entry on the disk -/

/-- Entry `i` on the disk has been replaced. -/
def Volume.storeEntry (sb : SuperBlock) (s : Volume) (i : Nat) (e : InodeEntry) : Volume :=
  s.setBlock (toBlockNo sb i) (setEntry (s.blocks (toBlockNo sb i)) i e)

@[simp] theorem storeEntry_heap {e : InodeEntry} : (s.storeEntry sb i e).heap = s.heap := rfl

theorem diskEntry_storeEntry {e : InodeEntry} :
    (s.storeEntry sb j e).diskEntry sb i = if i = j then e else s.diskEntry sb i := by
  rw [Volume.diskEntry, Volume.storeEntry]
  by_cases hb : toBlockNo sb i = toBlockNo sb j
  · have hiff : i % inodePerBlock = j % inodePerBlock ↔ i = j :=
      ⟨Nat.ext_div_mod (Nat.add_left_cancel hb), fun he => by rw [he]⟩
    rw [hb, setBlock_self, getEntry_setEntry, Volume.diskEntry, hb]
    simp only [hiff]
  · rw [setBlock_of_ne hb, if_neg fun he => hb (by rw [he])]
    rfl

theorem blocks_storeEntry (hl : Layout sb) (hj : j ≤ sb.numInodes.toNat) {e : InodeEntry} {x : Nat}
    (hx : sb.bitmapStart.toNat ≤ x) : (s.storeEntry sb j e).blocks x = s.blocks x := by
  have := hl.toBlockNo_lt hj
  exact setBlock_of_ne (by omega)

/-- The entry of the inode at `p` has been copied to the disk. -/
def Volume.synced (sb : SuperBlock) (s : Volume) (p : Ptr) : Volume :=
  s.storeEntry sb (s.heap p).inodeNo (s.heap p).entry

theorem inodeSync_write (h : (s.heap p).valid = true) : (inodeSync sb p true).run s = .ok () (s.synced sb p) := by
  rw [inodeSync, bind_ok (get_run s)]
  dsimp only
  rw [h, Bool.and_self, if_pos rfl, set_run]
  rfl

theorem diskEntry_synced : (s.synced sb p).diskEntry sb i =
    if i = (s.heap p).inodeNo then (s.heap p).entry else s.diskEntry sb i :=
  diskEntry_storeEntry

section Synced
variable (hl : Layout sb) (hw : Listed sb s) (hp : s.Loaded p)
include hw hp

theorem entryOf_synced : (s.synced sb p).entryOf sb i = s.entryOf sb i := by
  have hholder : (s.synced sb p).holder i = s.holder i := holder_congr rfl fun _ => ⟨rfl, rfl, rfl⟩
  cases hq : s.holder i with
  | none =>
    have hne : i ≠ (s.heap p).inodeNo := fun he => by
      rw [he, hw.holder hp] at hq
      cases hq
    rw [Volume.entryOf_free (hholder.trans hq), Volume.entryOf_free hq, diskEntry_synced, if_neg hne]
  | some q =>
    rw [Volume.entryOf_held (hholder.trans hq), Volume.entryOf_held hq]
    rfl

include hl

theorem blocks_synced {x : Nat} (hx : sb.bitmapStart.toNat ≤ x) : (s.synced sb p).blocks x = s.blocks x :=
  blocks_storeEntry hl (hw.numbered p hp.1).2.le hx

theorem addr_synced (ho : Owned sb.dataStart sb.numBlocks.toNat (s.addr sb) (s.used sb)) (k : Nat × Slot) :
    (s.synced sb p).addr sb k = s.addr sb k :=
  addr_congr (fun _ => entryOf_synced hw hp) fun _ hne =>
    blocks_synced hl hw hp (hl.bitmapStart_le.trans (ho.range _ hne).1)

theorem used_synced (x : Nat) : x ∈ (s.synced sb p).used sb ↔ x ∈ s.used sb :=
  mem_used_congr (blocks_synced hl hw hp (Layout.le_bitmapBlock sb x))

theorem Unshared.synced (hc : Unshared sb s) : Unshared sb (s.synced sb p) :=
  hc.congr (fun _ _ => entryOf_synced hw hp) (addr_synced hl hw hp hc.owned) fun x _ => used_synced hl hw hp x

theorem Consistent.synced (hc : Consistent sb s) : Consistent sb (s.synced sb p) :=
  hc.congr (fun _ _ => entryOf_synced hw hp) (addr_synced hl hw hp hc.owned) fun x _ => used_synced hl hw hp x

theorem content_synced (hc : Unshared sb s) (hi : s.Allocated sb i) (hd : (s.entryOf sb i).type ≠ inodeDevice) :
    (s.synced sb p).content sb i = s.content sb i := by
  rw [Volume.content, Volume.content, entryOf_synced hw hp]
  refine elements_congr fun j hj => byteAt_congr (addr_synced hl hw hp hc.owned _) (blocks_synced hl hw hp ?_)
  exact hl.bitmapStart_le.trans (hc.owned.range _ (hc.byte hi hd hj).2).1

end Synced

namespace Rewritten
variable {data : List UInt8}

section
variable (h : Rewritten sb p data s s')
include h

theorem allocated : s'.Allocated sb i ↔ s.Allocated sb i := allocated_congr (h.types i)

theorem listed (hw : Listed sb s) : Listed sb s' :=
  hw.congr h.same fun _ ha => h.allocated.mpr ha

theorem synced (hl : Layout sb) (hw : Listed sb s) (hp : s.Loaded p) : Rewritten sb p data s (s'.synced sb p) := by
  have hw' := h.listed hw
  have hp' := h.same.loaded.mpr hp
  refine ⟨h.same.trans (.of_heap rfl rfl), h.others, ?types, ?disk, h.unshared.synced hl hw' hp',
    fun hcs => (h.consistent hcs).synced hl hw' hp', ?content⟩
  case types =>
    intro i hi
    rw [entryOf_synced hw' hp', h.types i hi]
  case disk =>
    intro i hi hne
    rw [diskEntry_synced, h.same.inodeNo, if_neg hne, h.disk i hi hne]
  case content =>
    intro i hi hd
    rw [content_synced hl hw' hp' h.unshared (h.allocated.mpr hi), h.content i hi hd]
    rw [h.types i hi.2.1]
    exact hd

/-- Where entries are as on the disk they stay so, if the changed one does. -/
theorem coherent (hw : Listed sb s) (hp : s.Loaded p) (hself : s'.diskEntry sb (s.heap p).inodeNo = (s'.heap p).entry)
    (hs : Coherent sb s) : Coherent sb s' := by
  intro q hq
  rw [h.same.loaded] at hq
  rw [h.same.inodeNo]
  by_cases he : q = p
  · rw [he]
    exact hself
  · have hne : (s.heap q).inodeNo ≠ (s.heap p).inodeNo := fun hno => he (hw.unique q p hq.1 hp.1 hno)
    rw [h.disk _ (hw.numbered q hq.1).2.le hne, h.others q he]
    exact hs q hq

end

end Rewritten

/-! ### `inode_write` -/

theorem assertThat_run {c : Prop} [Decidable c] (h : c) : (assertThat predicate c).run s = .ok () s := by
  rw [assertThat, if_pos h, pure_run]

theorem assertThat_fails {c : Prop} [Decidable c] (h : ¬ c) : (assertThat predicate c).run s =
    .error (.panic ("assertion failed: \"" ++ predicate ++ "\"")) s := by
  rw [assertThat, if_neg h, throw_run]

/-! ### Locks -/

theorem assertThat_ok {c : Prop} [Decidable c] {u : Unit} (h : (assertThat predicate c).run s = .ok u s') :
    s' = s ∧ c := by
  by_cases hc : c
  · rw [assertThat_run hc] at h
    cases h
    exact ⟨rfl, hc⟩
  · rw [assertThat_fails hc] at h
    cases h

section Write
variable (hl : Layout sb) (hw : Listed sb s) (hc : Unshared sb s) (hp : s.Loaded p)
  (hdev : (s.heap p).entry.type ≠ inodeDevice) (hoff : off ≤ (s.heap p).entry.numBytes.toNat)
  (hmax : off + src.length ≤ inodeMaxBytes)
include hl hw hc hp hdev hoff hmax

/-- The file has become longer: its size is changed and its entry stored. -/
theorem Written.grown (h : Written sb p off src s s1) (hlt : (s.heap p).entry.numBytes.toNat < off + src.length) :
    Rewritten sb p (splice (s.content sb (s.heap p).inodeNo) off src) s
        ((s1.editEntry p fun e => {e with numBytes := UInt32.ofNat (off + src.length)}).synced sb p) ∧
      (Coherent sb s → Coherent sb
        ((s1.editEntry p fun e => {e with numBytes := UInt32.ofNat (off + src.length)}).synced sb p)) := by
  have hn : (UInt32.ofNat (off + src.length)).toNat = max (s.heap p).entry.numBytes.toNat (off + src.length) := by
    rw [Nat.max_eq_right hlt.le]
    exact UInt32.toNat_ofNat_of_lt' (lt_of_le_of_lt hmax (by decide))
  have hre := h.resized hl hw hc hp hdev hoff hmax hn
  have hsync := hre.synced hl hw hp
  refine ⟨hsync, hsync.coherent hw hp ?_⟩
  rw [diskEntry_synced, hre.same.inodeNo, if_pos rfl]
  rfl

/-- The file has kept its length, and with it its blocks and its entry. -/
theorem Written.within (h : Written sb p off src s s1) (hle : off + src.length ≤ (s.heap p).entry.numBytes.toNat) :
    Rewritten sb p (splice (s.content sb (s.heap p).inodeNo) off src) s s1 ∧
      (Coherent sb s → Coherent sb s1) := by
  have hall := hw.allocated p hp.1
  have hheap : s1.heap = s.heap := h.stays fun j _ hj => by
    refine (hc.byte hall ?_ ?_).2
    · rw [hw.entryOf hp]
      exact hdev
    · rw [hw.entryOf hp]
      omega
  have hre := h.resized hl hw hc hp hdev hoff hmax (Nat.max_eq_left hle).symm
  rw [editEntry_eq_self (by rw [hheap])] at hre
  refine ⟨hre, fun hs => hre.coherent hw hp ?_ hs⟩
  rw [Volume.diskEntry, h.inodes _ (hl.toBlockNo_lt hall.2.1), hheap]
  exact hs p hp

/-- **`inode_write` replaces the bytes it is given, or there is no block left to extend the file.** -/
theorem inodeWrite_spec :
    Ends (fun r s' => r = src.length ∧ Rewritten sb p (splice (s.content sb (s.heap p).inodeNo) off src) s s' ∧
        (Coherent sb s → Coherent sb s'))
      (fun e s' => NoBlock sb e s' ∧ (s.heap p).entry.numBytes.toNat < off + src.length)
      ((inodeWrite sb p src off).run s) := by
  have hstop : (off + src.length) % 2 ^ 64 = off + src.length :=
    Nat.mod_eq_of_lt (lt_of_le_of_lt hmax (by decide))
  rw [inodeWrite]
  dsimp only
  rw [bind_ok (get_run s), if_neg hdev, hstop, bind_ok (assertThat_run hoff), bind_ok (assertThat_run hmax),
    bind_ok (assertThat_run (Nat.le_add_right ..))]
  refine ((writeLoop_spec hl hw hp hc.owned le_rfl hmax).mono (fun _ _ h => h) ?_).bind
    fun r s1 _ ⟨hr, hwr⟩ => ?_
  · intro e s' hstop
    obtain ⟨hnone, j, -, hj, hz⟩ := hstop
    refine ⟨hnone, ?_⟩
    by_contra hle
    have hdev' : (s.entryOf sb (s.heap p).inodeNo).type ≠ inodeDevice := by
      rw [hw.entryOf hp]
      exact hdev
    refine (hc.byte (hw.allocated p hp.1) hdev' ?_).2 hz
    rw [hw.entryOf hp]
    omega
  have hsize : (s1.heap p).entry.numBytes = (s.heap p).entry.numBytes := by rw [hwr.fields]
  rw [hr, bind_ok (get_run s1), hsize]
  by_cases hgrow : 0 < src.length ∧ (s.heap p).entry.numBytes.toNat < off + src.length
  · have hvalid : ((s1.editEntry p fun e =>
        {e with numBytes := UInt32.ofNat (off + src.length)}).heap p).valid = true := by
      rw [(editEntry_flags p).2.2, hwr.same.valid]
      exact hp.2
    rw [if_pos hgrow, bind_ok (modify_run _ _), bind_ok (inodeSync_write hvalid), pure_run]
    exact .ok ⟨rfl, hwr.grown hl hw hc hp hdev hoff hmax hgrow.2⟩
  · rw [if_neg hgrow, pure_run]
    exact .ok ⟨rfl, hwr.within hl hw hc hp hdev hoff hmax (by omega)⟩

end Write

end OS2021.Fs
