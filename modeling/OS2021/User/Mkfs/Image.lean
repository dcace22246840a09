import OS2021.User.Mkfs.Append

/-! What `mkfs` has built so far.

Between two calls the image is a file system that a kernel would find intact, if the
bitmap were written (`Holds`). Its files are those that were made: the root directory
and one for every input that was read. An append makes one of them longer and takes as
many blocks as the new size calls for; it stops only if these do not exist. -/
namespace OS2021.User.Mkfs
open Lib Fs Function

variable {m m' : State} {c : Nat → List UInt8} {e : InodeEntry} {no i n : Nat} {src data : List UInt8}

/-- The type of inode `i`. -/
def kind (i : Nat) : InodeType := if i = rootInodeNo then inodeDirectory else inodeRegular

theorem kind_ne_device (i : Nat) : kind i ≠ inodeDevice := by
  rw [kind]
  split <;> decide

theorem kind_ne_invalid (i : Nat) : kind i ≠ inodeInvalid := by
  rw [kind]
  split <;> decide

/-- The image holds the files `c 1` to `c (freeinode - 1)`. -/
structure Holds (m : State) (c : Nat → List UInt8) : Prop where
  ready : Ready m
  intact : Intact sb m.volume
  inodes : m.freeinode ≤ ninodes + 1
  unused : ∀ i, m.freeinode ≤ i → i ≤ ninodes → (m.volume.diskEntry sb i).type = inodeInvalid
  type : ∀ i, 0 < i → i < m.freeinode → (m.volume.diskEntry sb i).type = kind i
  content : ∀ i, 0 < i → i < m.freeinode → m.volume.content sb i = c i
  table : ∀ i, 0 < i → i < m.freeinode →
    ((m.volume.diskEntry sb i).indirect ≠ 0 ↔ inodeNumDirect < blocksFor (c i).length)

/-! ### Inodes on the image -/

theorem iblock_lt (h : i ≤ ninodes) : iblock i < 91 := by
  have hi : i ≤ 200 := h
  rw [iblock, sb_inodeStart]
  show i / 8 + 65 < 91
  omega

theorem le_iblock (i : Nat) : 65 ≤ iblock i := by
  rw [iblock, sb_inodeStart]
  exact Nat.le_add_left ..

theorem toBlockNo_eq (i : Nat) : toBlockNo sb i = iblock i := Nat.add_comm ..

/-- The entry is where the kernel looks for it. -/
theorem diskEntry_eq (h : i ≤ ninodes) : m.volume.diskEntry sb i = getEntry (m.blocks (iblock i)) i := by
  have hlt := iblock_lt h
  rw [Volume.diskEntry, toBlockNo_eq]
  show getEntry (m.image (iblock i)) i = _
  rw [image_of_ne (by omega)]

theorem rinode_run (hr : Ready m) (h : i ≤ ninodes) : (rinode i).run m = .ok (m.volume.diskEntry sb i) m := by
  have hlt : iblock i < fssize := (iblock_lt h).trans (by decide)
  rw [rinode, bind_ok (rsect_run hr.size hlt), pure_run, diskEntry_eq h]

/-- The state with another entry for inode `i`. -/
def State.storeEntry (m : State) (i : Nat) (e : InodeEntry) : State :=
  m.put (iblock i) (setEntry (m.blocks (iblock i)) i e)

theorem winode_run (hr : m.size = fssize) (h : i ≤ ninodes) : (winode i e).run m = .ok () (m.storeEntry i e) := by
  have hlt : iblock i < fssize := (iblock_lt h).trans (by decide)
  rw [winode, bind_ok (rsect_run hr hlt), wsect_run hr hlt]
  rfl

theorem Ready.storeEntry (hr : Ready m) (h : i ≤ ninodes) : Ready (m.storeEntry i e) := by
  have hlt := iblock_lt h
  have hge := le_iblock i
  have hlower := hr.range.1
  exact hr.put (by omega) (by omega)

theorem storeEntry_image (h : i ≤ ninodes) : (m.storeEntry i e).image =
    update m.image (toBlockNo sb i) (setEntry (m.image (toBlockNo sb i)) i e) := by
  have hlt := iblock_lt h
  rw [State.storeEntry, put_image (by omega), toBlockNo_eq, image_of_ne (by omega)]

/-- The kernel's view of it. -/
theorem storeEntry_volume (h : i ≤ ninodes) : (m.storeEntry i e).volume = m.volume.storeEntry sb i e := by
  show (⟨(m.storeEntry i e).image, _, _, _⟩ : Volume) = ⟨update m.image _ _, _, _, _⟩
  rw [storeEntry_image h]
  rfl

theorem storeEntry_held (h : no ≤ ninodes) : (m.storeEntry no e).held no e = (m.held no e).synced sb 0 := by
  rw [Volume.synced, held_heap]
  show (⟨(m.storeEntry no e).image, _, _, _⟩ : Volume) = ⟨update m.image _ _, _, _, _⟩
  rw [storeEntry_image h]
  rfl

/-! ### Holding an inode -/

/-- Taking an inode into memory changes nothing. -/
theorem held_intact (h : Intact sb m.volume) (ha : m.volume.Allocated sb no) (hlt : no < ninodes) :
    Intact sb (m.held no (m.volume.diskEntry sb no)) := by
  have ht : Touched 0 m.volume (m.held no (m.volume.diskEntry sb no)) := by
    refine ⟨rfl, fun q hq => held_heap_of_ne hq, fun q hq => ?_, List.nodup_singleton 0⟩
    exact iff_of_false (fun hmem => hq (List.mem_singleton.mp hmem)) List.not_mem_nil
  refine h.touch ht (fun _ => ?_) (fun _ => ?_) fun _ _ => ?_
  · rw [held_heap]
    exact ⟨ha.1, sb_numInodes ▸ hlt, ha, fun q _ hq => absurd hq.1 List.not_mem_nil⟩
  · rw [held_heap]
  · rw [held_heap]

/-- So does letting it go. -/
theorem volume_intact (h : Intact sb (m.held no e)) : Intact sb m.volume := by
  have ht : Touched 0 (m.held no e) m.volume := by
    refine ⟨rfl, fun q hq => (held_heap_of_ne hq).symm, fun q hq => ?_, List.nodup_nil⟩
    exact iff_of_false List.not_mem_nil fun hmem => hq (List.mem_singleton.mp hmem)
  exact h.touch ht (fun hlive => absurd hlive.1 List.not_mem_nil) (fun hload => absurd hload.1.1 List.not_mem_nil)
    fun hmem => absurd hmem List.not_mem_nil

namespace Holds
variable (h : Holds m c)
include h

section
variable (hpos : 0 < i) (hlt : i < m.freeinode)
include hpos hlt

theorem allocated : m.volume.Allocated sb i := by
  have hle := h.inodes
  refine ⟨hpos, ?_, ?_⟩
  · rw [sb_numInodes]
    exact Nat.le_of_lt_succ (lt_of_lt_of_le hlt hle)
  · rw [h.intact.coherent.entryOf, h.type i hpos hlt]
    exact kind_ne_invalid i

theorem notDevice : (m.volume.entryOf sb i).type ≠ inodeDevice := by
  rw [h.intact.coherent.entryOf, h.type i hpos hlt]
  exact kind_ne_device i

theorem numBytes : (m.volume.diskEntry sb i).numBytes.toNat = (c i).length := by
  rw [← h.content i hpos hlt, Volume.content, elements_length, h.intact.coherent.entryOf]

theorem filled : (c i).length ≤ inodeMaxBytes ∧
    ∀ idx < blocksFor (c i).length, m.volume.addr sb (i, blockSlot idx) ≠ 0 := by
  have hfilled := h.intact.consistent.filled i (h.allocated hpos hlt) (h.notDevice hpos hlt)
  rwa [Volume.Filled, h.intact.coherent.entryOf, h.numBytes hpos hlt] at hfilled

/-- A file has just the blocks its size calls for. -/
theorem blocks {idx : Nat} (hidx : idx < inodeMaxBlocks) :
    m.volume.addr sb (i, blockSlot idx) ≠ 0 ↔ idx < blocksFor (c i).length := by
  have htrimmed := h.intact.consistent.trimmed i (h.allocated hpos hlt) (h.notDevice hpos hlt)
  rw [Volume.Trimmed, h.intact.coherent.entryOf, h.numBytes hpos hlt] at htrimmed
  refine ⟨fun hne => ?_, (h.filled hpos hlt).2 idx⟩
  by_contra hge
  exact hne (htrimmed idx hidx (not_lt.mp hge))

end

end Holds

/-! ### Appending -/

theorem splice_end {l : List UInt8} : splice l l.length src = l ++ src := by
  rw [splice, List.take_length, List.drop_of_length_le (Nat.le_add_right ..), List.append_nil]

section
variable (h : Holds m c) (hpos : 0 < no) (hlt : no < m.freeinode)
include h hpos hlt

/-- What the files are when the kernel has written to the one it holds. -/
theorem Holds.rewritten (hno : no < ninodes)
    (hre : Rewritten sb 0 data (m.held no (m.volume.diskEntry sb no)) (m'.held no e))
    (hco : Coherent sb (m'.held no e)) (hready : Ready m') (hino : m'.freeinode = m.freeinode)
    (htable : e.indirect ≠ 0 ↔ inodeNumDirect < blocksFor data.length) : Holds m' (update c no data) := by
  have ha := h.allocated hpos hlt
  have hheld := held_intact h.intact ha hno
  have hintact : Intact sb (m'.held no e) :=
    ⟨hre.consistent hheld.consistent, hre.listed hheld.listed, hco⟩
  have hvolume := volume_intact hintact
  have hself : m'.volume.diskEntry sb no = e := by
    have hload := hco 0 held_loaded
    rw [held_heap] at hload
    exact hload
  have hother : ∀ i ≤ ninodes, i ≠ no → m'.volume.diskEntry sb i = m.volume.diskEntry sb i := fun i hi hne =>
    hre.disk i (sb_numInodes ▸ hi) (by rw [held_heap]; exact hne)
  have htype : ∀ i ≤ ninodes, (m'.volume.diskEntry sb i).type = (m.volume.diskEntry sb i).type := fun i hi => by
    have hsame := hre.types i (sb_numInodes ▸ hi)
    rw [hco.entryOf, hheld.coherent.entryOf] at hsame
    exact hsame
  have hle := h.inodes
  refine ⟨hready, hvolume, hino ▸ hle, fun i hge hi => ?_, fun i hi hlt' => ?_, fun i hi hlt' => ?_,
    fun i hi hlt' => ?_⟩
  · rw [htype i hi]
    exact h.unused i (hino ▸ hge) hi
  · rw [hino] at hlt'
    rw [htype i (by omega)]
    exact h.type i hi hlt'
  · rw [hino] at hlt'
    have hentry : (m.held no (m.volume.diskEntry sb no)).entryOf sb i = m.volume.entryOf sb i :=
      h.intact.coherent.entryOf_eq hheld.coherent rfl i
    have hdev : ((m.held no (m.volume.diskEntry sb no)).entryOf sb i).type ≠ inodeDevice := by
      rw [hentry]
      exact h.notDevice hi hlt'
    have hcontent := hre.content i ((allocated_congr fun _ => by rw [hentry]).mpr (h.allocated hi hlt')) hdev
    rw [held_heap, h.intact.coherent.content_eq hheld.coherent rfl, h.content i hi hlt'] at hcontent
    rw [hco.content_eq hvolume.coherent rfl, hcontent, update_apply]
  · rw [hino] at hlt'
    by_cases he : i = no
    · rw [he, hself, update_self]
      exact htable
    · rw [hother i (by omega) he, update_of_ne he]
      exact h.table i hi hlt'

/-- **What an append does.** The file is longer, and it has the blocks its size calls for;
or there are not blocks enough, or the file would be too long. -/
theorem iappend_spec (hno : no < ninodes) (hsrc : src ≠ []) :
    Ends (fun _ m' => Holds m' (update c no (c no ++ src)) ∧ m'.freeinode = m.freeinode ∧
        m'.freeblock + need (c no).length = m.freeblock + need (c no ++ src).length)
      (fun _ _ => inodeMaxBytes < (c no ++ src).length ∨
        fssize + need (c no).length < m.freeblock + need (c no ++ src).length)
      ((iappend no src).run m) := by
  have ha := h.allocated hpos hlt
  have hheld := held_intact h.intact ha hno
  have hsize := h.numBytes hpos hlt
  have haddr : ∀ idx < inodeMaxBlocks, addrOf m.image (m.volume.diskEntry sb no) (blockSlot idx) ≠ 0 ↔
      idx < blocksFor (c no).length := fun idx hidx => by
    rw [← h.blocks hpos hlt hidx, ← held_addr hheld.listed, h.intact.coherent.addr_eq hheld.coherent rfl]
  have hlen : (c no ++ src).length = (c no).length + src.length := List.length_append
  rw [iappend, bind_ok (rinode_run h.ready hno.le), xint_eq, hsize, hlen]
  refine ((appendLoop_spec h.ready hheld.listed hheld.consistent.owned le_rfl (h.filled hpos hlt).1 haddr
    (h.table no hpos hlt)).mono (fun _ _ hq => hq) fun _ _ hstop => hstop).bind ?_
  intro r m1 _ hres
  obtain ⟨hend, hr, hloop, hready, hino, hfree, htable⟩ := hres
  have hdev : ((m.held no (m.volume.diskEntry sb no)).heap 0).entry.type ≠ inodeDevice := by
    rw [held_heap]
    show (m.volume.diskEntry sb no).type ≠ inodeDevice
    rw [h.type no hpos hlt]
    exact kind_ne_device no
  have hbytes : ((m.held no (m.volume.diskEntry sb no)).heap 0).entry.numBytes.toNat = (c no).length := by
    rw [held_heap]
    exact hsize
  have hgrows := List.length_pos_iff.mpr hsrc
  have hwritten := ((writeLoop_spec sb_layout hheld.listed held_loaded hheld.consistent.owned le_rfl
    hend).of_ok hloop).2
  have hgrown := hwritten.grown sb_layout hheld.listed hheld.consistent.toUnshared held_loaded hdev hbytes.ge hend
    (by omega)
  rw [held_editEntry, ← storeEntry_held hno.le, held_heap, h.intact.coherent.content_eq hheld.coherent rfl,
    h.content no hpos hlt, splice_end] at hgrown
  dsimp only
  rw [hr, xint_eq, winode_run hready.size hno.le]
  refine .ok ⟨h.rewritten hpos hlt hno hgrown.1 (hgrown.2 hheld.coherent) (hready.storeEntry hno.le) hino ?_,
    hino, hfree⟩
  rw [hlen]
  exact htable

omit h hpos hlt in
theorem Holds.append_nil (h : Holds m c) : Holds m (update c no (c no ++ [])) ∧
    m.freeinode = m.freeinode ∧ m.freeblock + need (c no).length = m.freeblock + need (c no ++ []).length := by
  rw [List.append_nil, update_eq_self]
  exact ⟨h, rfl, rfl⟩

/-- The bytes of a file are appended block by block. -/
theorem appendFile_spec {fuel : Nat} (hno : no < ninodes ∨ data = []) (hfuel : data.length ≤ fuel) :
    Ends (fun _ m' => Holds m' (update c no (c no ++ data)) ∧ m'.freeinode = m.freeinode ∧
        m'.freeblock + need (c no).length = m.freeblock + need (c no ++ data).length)
      (fun _ _ => inodeMaxBytes < (c no ++ data).length ∨
        fssize + need (c no).length < m.freeblock + need (c no ++ data).length)
      ((appendFile no fuel data).run m) := by
  induction fuel generalizing m c data with
  | zero =>
    obtain rfl : data = [] := List.eq_nil_of_length_eq_zero (Nat.le_zero.mp hfuel)
    exact .ok h.append_nil
  | succ fuel ih =>
    rw [appendFile]
    by_cases hdata : data = []
    · rw [if_pos hdata, hdata, pure_run]
      exact .ok h.append_nil
    · have hpart : data.take blockSize ≠ [] := by
        rw [ne_eq, List.take_eq_nil_iff, not_or]
        exact ⟨by decide, hdata⟩
      have hsplit : c no ++ data.take blockSize ++ data.drop blockSize = c no ++ data := by
        rw [List.append_assoc, List.take_append_drop]
      have hshort : (c no ++ data.take blockSize).length ≤ (c no ++ data).length := by
        rw [List.length_append, List.length_append]
        exact Nat.add_le_add_left (List.length_take_le' ..) _
      rw [if_neg hdata]
      refine ((iappend_spec h hpos hlt (hno.resolve_right hdata) hpart).mono (fun _ _ hq => hq) ?_).bind ?_
      · intro _ _ hstop
        have hmono := need_mono hshort
        exact hstop.imp (fun hmax => lt_of_lt_of_le hmax hshort) fun hfull => by omega
      · intro _ m1 _ hres
        obtain ⟨h1, hino, hfree⟩ := hres
        have hdrop : (data.drop blockSize).length ≤ fuel := by
          rw [List.length_drop]
          show data.length - 512 ≤ fuel
          omega
        have hrest := ih h1 (hino ▸ hlt) (hno.imp_right fun he => absurd he hdata) hdrop
        rw [update_self, update_idem, hsplit] at hrest
        refine hrest.mono (fun _ m2 hres => ?_) fun _ _ hstop => ?_
        · obtain ⟨h2, hino2, hfree2⟩ := hres
          exact ⟨h2, hino2.trans hino, by omega⟩
        · exact hstop.imp id fun hfull => by omega

end

/-! ### New inodes -/

/-- The entry that `ialloc` writes. -/
def newEntry (type : InodeType) : InodeEntry := {InodeEntry.zero with type, numLinks := 1}

theorem newEntry_bare (type : InodeType) : (newEntry type).Bare :=
  fun _ => ⟨rfl, addrOf_emptied (e := newEntry type)⟩

/-- Another entry for an inode that is not in use leaves the files as they are. -/
theorem Holds.content_storeEntry (h : Holds m c) (hno : no ≤ ninodes)
    (hco : Coherent sb (m.volume.storeEntry sb no e)) (hpos : 0 < i) (hlt : i < m.freeinode) (hne : i ≠ no) :
    (m.volume.storeEntry sb no e).content sb i = m.volume.content sb i := by
  have hentry : (m.volume.storeEntry sb no e).entryOf sb i = m.volume.entryOf sb i := by
    rw [hco.entryOf, diskEntry_storeEntry, if_neg hne, h.intact.coherent.entryOf]
  have hblocks : ∀ σ, m.volume.addr sb (i, σ) ≠ 0 →
      (m.volume.storeEntry sb no e).blocks (m.volume.addr sb (i, σ)) = m.volume.blocks (m.volume.addr sb (i, σ)) :=
    fun σ haddr => blocks_storeEntry sb_layout (sb_numInodes ▸ hno)
      (sb_layout.bitmapStart_le.trans (h.intact.consistent.owned.range _ haddr).1)
  rw [Volume.content, Volume.content, hentry]
  refine elements_congr fun j hj => byteAt_congr ?_ ?_
  · exact addr_congr (fun _ => hentry) fun _ htable => hblocks .table htable
  · exact hblocks _ (h.intact.consistent.toUnshared.byte (h.allocated hpos hlt) (h.notDevice hpos hlt) hj).2

theorem ialloc_spec (h : Holds m c) (hle : m.freeinode ≤ ninodes) :
    ∃ m', (ialloc (kind m.freeinode)).run m = .ok m.freeinode m' ∧ Holds m' (update c m.freeinode []) ∧
      m'.freeinode = m.freeinode + 1 ∧ m'.freeblock = m.freeblock := by
  have hfree := h.unused _ le_rfl hle
  have hnot : ¬ m.volume.Allocated sb m.freeinode := fun ha => by
    have htype := ha.2.2
    rw [h.intact.coherent.entryOf] at htype
    exact htype hfree
  have hintact : Intact sb (m.volume.storeEntry sb m.freeinode (newEntry (kind m.freeinode))) :=
    h.intact.replace sb_layout (sb_numInodes ▸ hle) (fun q hq => absurd hq.1 List.not_mem_nil) (fun σ => if_neg hnot)
      (newEntry_bare _)
  have hvolume : ({m with freeinode := m.freeinode + 1}.storeEntry m.freeinode (newEntry (kind m.freeinode))).volume =
      m.volume.storeEntry sb m.freeinode (newEntry (kind m.freeinode)) := storeEntry_volume hle
  have hready : Ready {m with freeinode := m.freeinode + 1} :=
    ⟨h.ready.size, h.ready.superBlock, h.ready.lower, h.ready.upper, h.ready.blank⟩
  refine ⟨{m with freeinode := m.freeinode + 1}.storeEntry m.freeinode (newEntry (kind m.freeinode)), ?run,
    ⟨hready.storeEntry hle, hvolume ▸ hintact, Nat.succ_le_succ hle, fun i hge hi => ?unused, fun i hpos hlt => ?type,
      fun i hpos hlt => ?content, fun i hpos hlt => ?table⟩, rfl, rfl⟩
  case run =>
    rw [ialloc, bind_ok (get_run m), bind_ok (set_run _ _)]
    simp only [xshort_eq, xint_eq]
    rw [bind_ok (winode_run hready.size hle), pure_run]
    rfl
  case unused =>
    have hne : i ≠ m.freeinode := Nat.ne_of_gt hge
    rw [hvolume, diskEntry_storeEntry, if_neg hne]
    exact h.unused i (Nat.le_of_succ_le hge) hi
  case type =>
    rw [hvolume, diskEntry_storeEntry]
    by_cases he : i = m.freeinode
    · rw [if_pos he, he]
      rfl
    · rw [if_neg he]
      exact h.type i hpos (Nat.lt_of_le_of_ne (Nat.le_of_lt_succ hlt) he)
  case content =>
    rw [hvolume]
    by_cases he : i = m.freeinode
    · rw [he, update_self, Volume.content, hintact.coherent.entryOf, diskEntry_storeEntry, if_pos rfl]
      rfl
    · have hold := Nat.lt_of_le_of_ne (Nat.le_of_lt_succ hlt) he
      rw [h.content_storeEntry hle hintact.coherent hpos hold he, update_of_ne he]
      exact h.content i hpos hold
  case table =>
    rw [hvolume, diskEntry_storeEntry]
    by_cases he : i = m.freeinode
    · rw [if_pos he, he, update_self]
      exact iff_of_false (fun hne => hne rfl) (by decide)
    · rw [if_neg he, update_of_ne he]
      exact h.table i hpos (Nat.lt_of_le_of_ne (Nat.le_of_lt_succ hlt) he)

/-! ### Input files -/

/-- The files with one more, for which inode `n` is used. -/
def added (c : Nat → List UInt8) (n : Nat) (f : Input) : Nat → List UInt8 :=
  update (update c rootInodeNo (c rootInodeNo ++ direntBytes n f.name)) n f.data

/-- The files with all inputs, for which inodes from `n` on are used. -/
def filled (c : Nat → List UInt8) (n : Nat) : List Input → Nat → List UInt8
  | [] => c
  | f :: files => filled (added c n f) (n + 1) files

/-- Their directory entries. -/
def entriesFrom : Nat → List Input → List UInt8
  | _, [] => []
  | n, f :: files => direntBytes n f.name ++ entriesFrom (n + 1) files

theorem entriesFrom_length (n : Nat) (files : List Input) :
    (entriesFrom n files).length = dirEntrySize * files.length := by
  induction files generalizing n with
  | nil => rfl
  | cons f files ih =>
    rw [entriesFrom, List.length_append, direntBytes_length, ih, List.length_cons, Nat.mul_succ, Nat.add_comm]

theorem added_root (hne : n ≠ rootInodeNo) (f : Input) :
    added c n f rootInodeNo = c rootInodeNo ++ direntBytes n f.name := by
  rw [added, update_of_ne hne.symm, update_self]

theorem filled_root (hn : rootInodeNo < n) (files : List Input) :
    filled c n files rootInodeNo = c rootInodeNo ++ entriesFrom n files := by
  induction files generalizing n c with
  | nil => rw [filled, entriesFrom, List.append_nil]
  | cons f files ih =>
    rw [filled, ih (Nat.lt_succ_of_lt hn), added_root (Nat.ne_of_gt hn), List.append_assoc, entriesFrom]

theorem filled_of_lt (hi : i < n) (hne : i ≠ rootInodeNo) (files : List Input) : filled c n files i = c i := by
  induction files generalizing n c with
  | nil => rfl
  | cons f files ih =>
    rw [filled, ih (Nat.lt_succ_of_lt hi), added, update_of_ne (Nat.ne_of_lt hi), update_of_ne hne]

theorem filled_file (hn : rootInodeNo < n) {files : List Input} {k : Nat} {f : Input} (hf : files[k]? = some f) :
    filled c n files (n + k) = f.data := by
  induction files generalizing n c k with
  | nil => cases hf
  | cons g files ih =>
    rw [filled]
    cases k with
    | zero =>
      obtain rfl : g = f := Option.some.inj hf
      show filled (added c n g) (n + 1) files n = g.data
      rw [filled_of_lt (Nat.lt_succ_self n) (Nat.ne_of_gt hn), added, update_self]
    | succ k =>
      rw [Nat.add_comm k, ← Nat.add_assoc]
      exact ih (Nat.lt_succ_of_lt hn) hf

section
variable (h : Holds m c) (hroot : rootInodeNo < m.freeinode)
include h hroot

/-- A directory entry is appended to the root directory. -/
theorem appendEntry_spec (n : Nat) (name : List UInt8) :
    Ends (fun _ m' => Holds m' (update c rootInodeNo (c rootInodeNo ++ direntBytes n name)) ∧
        m'.freeinode = m.freeinode ∧
        m'.freeblock + need (c rootInodeNo).length = m.freeblock + need ((c rootInodeNo).length + dirEntrySize))
      (fun _ _ => inodeMaxBytes < (c rootInodeNo).length + dirEntrySize ∨
        fssize + need (c rootInodeNo).length < m.freeblock + need ((c rootInodeNo).length + dirEntrySize))
      ((iappend rootInodeNo (direntBytes n name)).run m) := by
  have hlen : (c rootInodeNo ++ direntBytes n name).length = (c rootInodeNo).length + dirEntrySize := by
    rw [List.length_append, direntBytes_length]
  have hne : direntBytes n name ≠ [] := List.cons_ne_nil _ _
  have hspec := iappend_spec h (by decide) hroot (by decide) hne
  rwa [hlen] at hspec

/-- One more input: an inode, an entry for it in the root directory, and its bytes. An
inode past the last one will do for a file without any. -/
theorem addFile_spec (f : Input) (hno : m.freeinode < ninodes ∨ m.freeinode = ninodes ∧ f.data = []) :
    Ends (fun _ m' => Holds m' (added c m.freeinode f) ∧ m'.freeinode = m.freeinode + 1 ∧
        m'.freeblock + need (c rootInodeNo).length =
          m.freeblock + need ((c rootInodeNo).length + dirEntrySize) + need f.data.length)
      (fun _ _ => f.contents = none ∨ inodeMaxBytes < (c rootInodeNo).length + dirEntrySize ∨
        inodeMaxBytes < f.data.length ∨ fssize + need (c rootInodeNo).length <
          m.freeblock + need ((c rootInodeNo).length + dirEntrySize) + need f.data.length)
      ((addFile rootInodeNo f).run m) := by
  have hcheck : (check "index(argv[i], '/') == 0" (slash ∉ baseName f.path)).run m = .ok () m := by
    rw [check, if_pos (slash_not_mem_baseName f.path), pure_run]
  rw [addFile, bind_ok hcheck]
  cases hf : f.contents with
  | none => exact .error (Or.inl rfl)
  | some data =>
    have hdata : f.data = data := by rw [Input.data, hf, Option.getD_some]
    have hkind : kind m.freeinode = inodeRegular := if_neg (Nat.ne_of_gt hroot)
    have hne : rootInodeNo ≠ m.freeinode := Nat.ne_of_lt hroot
    obtain ⟨m1, hialloc, h1, hino, hblock⟩ := ialloc_spec h (by omega)
    rw [hkind] at hialloc
    dsimp only
    rw [bind_ok hialloc]
    have hentry := appendEntry_spec h1 (by omega) m.freeinode f.name
    rw [update_of_ne hne, hblock] at hentry
    refine (hentry.mono (fun _ _ hq => hq) fun _ _ hstop => ?_).bind ?_
    · exact Or.inr (hstop.imp id fun hfull => Or.inr (by omega))
    · intro _ m2 _ hres
      obtain ⟨h2, hino2, hblock2⟩ := hres
      have hnew : m.freeinode < m2.freeinode := by omega
      have hbytes : m.freeinode < ninodes ∨ data = [] := hno.imp id fun hlast => hdata ▸ hlast.2
      have hrest := appendFile_spec h2 (Nat.zero_lt_of_lt hroot) hnew hbytes le_rfl
      have hempty : update (update c m.freeinode []) rootInodeNo
          (c rootInodeNo ++ direntBytes m.freeinode f.name) m.freeinode = [] := by
        rw [update_of_ne hne.symm, update_self]
      have hadd : update (update (update c m.freeinode []) rootInodeNo
          (c rootInodeNo ++ direntBytes m.freeinode f.name)) m.freeinode data = added c m.freeinode f := by
        rw [added, update_comm hne.symm, update_idem, hdata]
      have hzero : need ([] : List UInt8).length = 0 := by decide
      rw [hempty, List.nil_append, hadd, hzero] at hrest
      rw [hdata]
      refine hrest.mono (fun _ m3 hres => ?_) fun _ _ hstop => ?_
      · obtain ⟨h3, hino3, hblock3⟩ := hres
        exact ⟨h3, by omega, by omega⟩
      · exact Or.inr (Or.inr (hstop.imp id fun hfull => by omega))

/-- How many blocks the inputs take, without the directory. -/
def dataBlocks (files : List Input) : Nat := (files.map fun f => need f.data.length).sum

/-- What can go wrong with the inputs: one cannot be opened or is too long, the root
directory would be too long, or there are not blocks enough. -/
def Unfit (size freeblock : Nat) (files : List Input) : Prop :=
  (∃ f ∈ files, f.contents = none ∨ inodeMaxBytes < f.data.length) ∨
    inodeMaxBytes < size + dirEntrySize * files.length ∨
    fssize + need size < freeblock + need (size + dirEntrySize * files.length) + dataBlocks files

/-- The loop over the arguments. -/
theorem addFiles_spec (files : List Input)
    (hno : m.freeinode + files.length ≤ ninodes ∨
      m.freeinode + files.length = ninodes + 1 ∧ ∀ f ∈ files, f.data = []) :
    Ends (fun _ m' => Holds m' (filled c m.freeinode files) ∧ m'.freeinode = m.freeinode + files.length ∧
        m'.freeblock + need (c rootInodeNo).length =
          m.freeblock + need ((c rootInodeNo).length + dirEntrySize * files.length) + dataBlocks files)
      (fun _ _ => Unfit (c rootInodeNo).length m.freeblock files)
      ((files.forM (addFile rootInodeNo)).run m) := by
  induction files generalizing m c with
  | nil => exact .ok ⟨h, rfl, rfl⟩
  | cons f files ih =>
    rw [List.length_cons] at hno
    have hlen : (added c m.freeinode f rootInodeNo).length = (c rootInodeNo).length + dirEntrySize := by
      rw [added_root (Nat.ne_of_gt hroot), List.length_append, direntBytes_length]
    have hsum : (c rootInodeNo).length + dirEntrySize * (f :: files).length =
        (c rootInodeNo).length + dirEntrySize + dirEntrySize * files.length := by
      rw [List.length_cons, Nat.mul_succ]
      omega
    have hblocks : dataBlocks (f :: files) = need f.data.length + dataBlocks files := List.sum_cons
    have hmono := need_mono (Nat.le_add_right ((c rootInodeNo).length + dirEntrySize) (dirEntrySize * files.length))
    have hfirst : m.freeinode < ninodes ∨ m.freeinode = ninodes ∧ f.data = [] := by
      rcases hno with hlt | ⟨hlast, hnil⟩
      · exact Or.inl (by omega)
      · exact (Nat.lt_or_eq_of_le (by omega)).imp id fun he => ⟨he, hnil f (List.mem_cons_self ..)⟩
    rw [Unfit, hsum, hblocks]
    show Ends _ _ ((addFile rootInodeNo f >>= fun _ => files.forM (addFile rootInodeNo)).run m)
    refine ((addFile_spec h hroot f hfirst).mono (fun _ _ hq => hq) fun _ _ hstop => ?_).bind ?_
    · rcases hstop with hnone | hroot' | hlong | hfull
      · exact Or.inl ⟨f, List.mem_cons_self .., Or.inl hnone⟩
      · exact Or.inr (Or.inl (by omega))
      · exact Or.inl ⟨f, List.mem_cons_self .., Or.inr hlong⟩
      · exact Or.inr (Or.inr (by omega))
    · intro _ m1 _ hres
      obtain ⟨h1, hino, hblock⟩ := hres
      have hrest := ih h1 (by omega) (hno.imp (fun hlt => by omega) fun hlast =>
        ⟨by omega, fun g hg => hlast.2 g (List.mem_cons_of_mem f hg)⟩)
      rw [hlen, hino] at hrest
      refine hrest.mono (fun _ m2 hres => ?_) fun _ _ hstop => ?_
      · obtain ⟨h2, hino2, hblock2⟩ := hres
        exact ⟨h2, by rw [hino2, List.length_cons]; omega, by omega⟩
      · rcases hstop with ⟨g, hg, hbad⟩ | hroot' | hfull
        · exact Or.inl ⟨g, List.mem_cons_of_mem f hg, hbad⟩
        · exact Or.inr (Or.inl hroot')
        · exact Or.inr (Or.inr (by omega))

end

end OS2021.User.Mkfs
