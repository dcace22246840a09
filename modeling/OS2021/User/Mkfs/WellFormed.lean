import OS2021.User.Mkfs.Image

/-! The image that `mkfs` leaves.

When every file is there, `mkfs` rounds the size of the root directory to whole blocks and
writes the bitmap. The image is well-formed then, unless the entries of the root
directory fill their blocks to the last byte, when the rounding adds a block that the
directory does not have, or inode numbers ran past the last one, which nothing checks. -/
namespace OS2021.User.Mkfs
open Lib Fs Function

variable {m m' : State} {c : Nat → List UInt8} {e : InodeEntry} {i b n : Nat} {files : List Input}

/-! ### The image without files -/

/-- The zero blocks and the super block are written. -/
def blankImage : State := ⟨update (fun _ => zeroBlock) 1 (superBlockBytes sb), fssize, rootInodeNo, nmeta⟩

theorem zeroBlocks_run {size : Nat} (h : n ≤ fssize) :
    ((List.range n).forM fun i => wsect i zeroBlock).run ⟨fun _ => zeroBlock, size, i, b⟩ =
      .ok () ⟨fun _ => zeroBlock, max size n, i, b⟩ := by
  induction n with
  | zero => rw [Nat.max_zero]; rfl
  | succ n ih =>
    have hplace := place_eq (Nat.le_of_succ_le h)
    have hsame : update (fun _ => zeroBlock) n zeroBlock = fun _ => zeroBlock := update_eq_self n _
    have hmax : max (max size n) (n + 1) = max size (n + 1) := by omega
    have hlast : (List.range (n + 1)).forM (fun i => wsect i zeroBlock) =
        ((List.range n).forM fun i => wsect i zeroBlock) >>= fun _ => wsect n zeroBlock := by
      simp only [List.range_succ, List.forM_eq_forM, List.forM_append, List.forM_cons, List.forM_nil, bind_pure_unit]
    rw [hlast, bind_ok (ih (Nat.le_of_succ_le h)), wsect, modify_run, hplace, hsame, hmax]

theorem blank_block (hne : b ≠ 1) : blankImage.blocks b = zeroBlock := by
  dsimp only [blankImage]
  rw [update_of_ne hne]

theorem blank_type (hle : i ≤ ninodes) : (blankImage.volume.diskEntry sb i).type = inodeInvalid := by
  have hge := le_iblock i
  rw [diskEntry_eq hle, blank_block (by omega), getEntry, bytes_zeroBlock]
  rfl

theorem volume_isUsed (h : Ready m) (hb : b < fssize) : m.volume.isUsed sb b = decide (b < m.freeblock) :=
  (held_isUsed h hb : (m.held 0 .zero).isUsed sb b = _)

theorem volume_coherent : Coherent sb m.volume := coherent_nil rfl

theorem volume_listed : Listed sb m.volume := listed_nil rfl

theorem blank_ready : Ready blankImage := by
  refine ⟨rfl, ?_, le_rfl, by decide, fun b hb => ?_⟩
  · dsimp only [blankImage]
    rw [update_self]
  · have hb' : 92 ≤ b := hb
    clear hb
    exact blank_block (by omega)

theorem blank_holds : Holds blankImage fun _ => [] := by
  have hnot : ∀ i, ¬ blankImage.volume.Allocated sb i := by
    intro i ha
    have hle := ha.2.1
    have htype := ha.2.2
    rw [sb_numInodes] at hle
    rw [volume_coherent.entryOf, blank_type hle] at htype
    exact htype rfl
  have haddr : ∀ k, blankImage.volume.addr sb k = 0 := fun k => if_neg (hnot k.1)
  have hused : ∀ b < fssize, b ∈ blankImage.volume.used sb ↔ b < nmeta := fun b hb => by
    show blankImage.volume.isUsed sb b = true ↔ _
    rw [volume_isUsed blank_ready hb, decide_eq_true_iff]
    rfl
  have howned : Owned sb.dataStart sb.numBlocks.toNat (blankImage.volume.addr sb) (blankImage.volume.used sb) := by
    refine ⟨by decide, by decide, fun k _ hne => absurd (haddr k) hne, fun k hne => absurd (haddr k) hne,
      fun b hb => ?_, fun k hne => absurd (haddr k) hne⟩
    rw [sb_dataStart] at hb
    exact (hused b (hb.trans (by decide))).mpr hb
  refine ⟨blank_ready, ⟨⟨⟨howned, fun i ha => absurd ha (hnot i)⟩, fun b hb hge hlt => ?_,
    fun i ha => absurd ha (hnot i)⟩,
    volume_listed, volume_coherent⟩, by decide, fun i _ hle => blank_type hle, ?_, ?_, ?_⟩
  · rw [sb_numBlocks] at hlt
    have hbelow : b < 92 := (hused b hlt).mp hb
    rw [sb_dataStart] at hge
    omega
  all_goals
    intro i hpos hlt
    have hlt' : i < 1 := hlt
    omega

theorem check_run {predicate : String} {P : Prop} [Decidable P] (h : P) : (check predicate P).run m = .ok () m := by
  rw [check, if_pos h, pure_run]

/-- The root directory before there are files. -/
def rootEntries : List UInt8 := direntBytes rootInodeNo dot ++ direntBytes rootInodeNo dotdot

def rootOnly : Nat → List UInt8 := update (fun _ => []) rootInodeNo rootEntries

/-- What `main` does once the root directory is there. -/
def addAll (files : List Input) : W Unit := do
  files.forM (addFile rootInodeNo)
  fixRoot rootInodeNo
  let m ← get
  balloc m.freeblock

/-- `mkfs` gets that far for any arguments. -/
theorem main_run : ∃ m, Holds m rootOnly ∧ m.freeinode = rootInodeNo + 1 ∧ m.freeblock = nmeta + 1 ∧
    ∀ files, (main files).run start = (addAll files).run m := by
  have hkind : kind blankImage.freeinode = inodeDirectory := if_pos rfl
  have hempty : update (fun _ => []) blankImage.freeinode [] = (fun _ => [] : Nat → List UInt8) :=
    update_eq_self ..
  have hneed : need 0 = 0 ∧ need dirEntrySize = 1 ∧ need (dirEntrySize + dirEntrySize) = 1 := by decide
  obtain ⟨m1, hialloc, h1, hino1, hblock1⟩ := ialloc_spec blank_holds (by decide)
  rw [hkind] at hialloc
  rw [hempty] at h1
  replace hialloc : (ialloc inodeDirectory).run blankImage = .ok rootInodeNo m1 := hialloc
  replace hino1 : m1.freeinode = rootInodeNo + 1 := hino1
  replace hblock1 : m1.freeblock = 92 := hblock1
  -- the first entry takes a block, the second one is in it
  obtain ⟨_, m2, hdot, h2, hino2, hblock2⟩ :=
    (appendEntry_spec h1 (hino1 ▸ Nat.lt_succ_self _) rootInodeNo dot).returns fun _ _ hstop => by
      rw [List.length_nil, Nat.zero_add, hneed.1, hneed.2.1, hblock1] at hstop
      exact absurd hstop (by decide)
  rw [List.length_nil, Nat.zero_add, hneed.1, hneed.2.1, hblock1, Nat.add_zero] at hblock2
  rw [List.nil_append] at h2
  have hlen : (update (fun _ => []) rootInodeNo (direntBytes rootInodeNo dot) rootInodeNo).length =
      dirEntrySize := by
    rw [update_self, direntBytes_length]
  obtain ⟨_, m3, hdotdot, h3, hino3, hblock3⟩ :=
    (appendEntry_spec h2 (by omega) rootInodeNo dotdot).returns fun _ _ hstop => by
      rw [hlen, hneed.2.1, hneed.2.2, hblock2] at hstop
      exact absurd hstop (by decide)
  rw [hlen, hneed.2.1, hneed.2.2, hblock2] at hblock3
  rw [update_self, update_idem] at h3
  refine ⟨m3, h3, by omega, Nat.add_right_cancel hblock3, fun files => ?_⟩
  have hzeros : ((List.range fssize).forM fun i => wsect i zeroBlock).run {start with freeblock := nmeta} =
      .ok () ⟨fun _ => zeroBlock, max 0 fssize, rootInodeNo, nmeta⟩ := zeroBlocks_run le_rfl
  have hsuper : (wsect 1 (superBlockBytes sb)).run ⟨fun _ => zeroBlock, max 0 fssize, rootInodeNo, nmeta⟩ =
      .ok () blankImage := wsect_run rfl (by decide)
  rw [main, bind_ok (check_run (by decide)), bind_ok (check_run (by decide)), bind_ok (modify_run _ _),
    bind_ok hzeros,
    bind_ok hsuper, bind_ok hialloc, bind_ok (check_run rfl), bind_ok hdot, bind_ok hdotdot]
  rfl

/-! ### Inode numbers -/

/-- No inode number is given back. -/
def NoneBack (m m' : State) : Prop := m.freeinode ≤ m'.freeinode

instance : Std.Refl NoneBack := ⟨fun _ => le_rfl⟩

instance : IsTrans State NoneBack := ⟨fun _ _ _ => Nat.le_trans⟩

theorem noneBack_wsect (sec : Nat) (buf : BlockData) : Respects NoneBack (wsect sec buf) :=
  .modify fun _ => le_rfl

theorem noneBack_rsect (sec : Nat) : Respects NoneBack (rsect sec) :=
  Respects.get.bind fun _ => .ite (.pure _) (.throw _)

theorem noneBack_winode (inum : Nat) (ip : InodeEntry) : Respects NoneBack (winode inum ip) :=
  (noneBack_rsect _).bind fun _ => noneBack_wsect _ _

theorem noneBack_nextBlock : Respects NoneBack nextBlock := fun _ => le_rfl

theorem noneBack_fileAddr (din : InodeEntry) (fbn : Nat) : Respects NoneBack (fileAddr din fbn) := by
  have hnext {α : Type} (f : UInt32 → α) : Respects NoneBack (nextBlock >>= fun b => pure (f b)) :=
    Respects.bind (fun _ => le_rfl) fun _ => .pure _
  rw [fileAddr]
  split
  · exact .ite (hnext _) (.pure _)
  · refine (Respects.ite (hnext _) (.pure _)).bind fun din => Respects.bind ?_ fun x => .pure _
    refine (noneBack_rsect _).bind fun indirect => .ite ?_ (.pure _)
    exact noneBack_nextBlock.bind fun b => (noneBack_wsect _ _).bind fun _ => .pure _

theorem noneBack_appendLoop (fuel off : Nat) (p : List UInt8) (din : InodeEntry) :
    Respects NoneBack (appendLoop fuel off p din) := by
  induction fuel generalizing off p din with
  | zero => exact .ite (.pure _) (.throw _)
  | succ fuel ih =>
    refine .ite (.pure _) (Respects.bind (.ite (.pure _) (.throw _)) fun _ => Respects.bind ?_ fun r => ?_)
    · exact (noneBack_fileAddr _ _).bind fun r => (noneBack_rsect _).bind fun buf => .pure _
    · exact (noneBack_wsect _ _).bind fun _ => ih _ _ _

theorem noneBack_iappend (inum : Nat) (p : List UInt8) : Respects NoneBack (iappend inum p) :=
  ((noneBack_rsect _).bind fun _ => .pure _).bind fun _ =>
    (noneBack_appendLoop _ _ _ _).bind fun _ => noneBack_winode _ _

theorem noneBack_appendFile (inum fuel : Nat) (data : List UInt8) :
    Respects NoneBack (appendFile inum fuel data) := by
  induction fuel generalizing data with
  | zero => exact .pure _
  | succ fuel ih => exact .ite (.pure _) ((noneBack_iappend _ _).bind fun _ => ih _)

/-- `ialloc` counts up, and every file that is added takes a number. -/
theorem addFiles_numbered {u : Unit} (h : (files.forM (addFile rootInodeNo)).run m = .ok u m') :
    m.freeinode + files.length ≤ m'.freeinode := by
  induction files generalizing m with
  | nil =>
    cases h
    exact le_rfl
  | cons f files ih =>
    obtain ⟨_, m1, hadd, hrest⟩ := bind_eq_ok h
    have hlater := ih hrest
    rw [addFile, bind_ok (check_run (slash_not_mem_baseName _))] at hadd
    cases hc : f.contents with
    | none =>
      rw [hc] at hadd
      cases hadd
    | some data =>
      rw [hc] at hadd
      obtain ⟨inum, m2, hialloc, hadd⟩ := bind_eq_ok hadd
      rw [ialloc, bind_ok (get_run m), bind_ok (set_run ..)] at hialloc
      have hone : m.freeinode + 1 ≤ m2.freeinode := ((noneBack_winode _ _).bind fun _ => .pure _).of_ok hialloc
      have hmore : m2.freeinode ≤ m1.freeinode :=
        ((noneBack_iappend _ _).bind fun _ => noneBack_appendFile _ _ _).of_ok hadd
      rw [List.length_cons]
      omega

/-- Nothing checks that the number is one of the table. -/
theorem main_numbered {u : Unit} (h : (main files).run start = .ok u m) : files.length + 2 ≤ m.freeinode := by
  obtain ⟨m0, -, hino, -, hmain⟩ := main_run
  rw [hmain, addAll] at h
  obtain ⟨_, m1, hadd, hrest⟩ := bind_eq_ok h
  have hcount := addFiles_numbered hadd
  have hend : m1.freeinode ≤ m.freeinode := by
    refine Respects.of_ok (R := NoneBack) (.bind ?_ fun _ => Respects.get.bind fun m => ?_) hrest
    · exact ((noneBack_rsect _).bind fun _ => .pure _).bind fun _ => noneBack_winode _ _
    · exact Respects.bind (.ite (.pure _) (.throw _)) fun _ => noneBack_wsect _ _
  have hroot : rootInodeNo = 1 := rfl
  omega

/-! ### The end of `main` -/

/-- The size that `main` gives the root directory. -/
def roundUp (off : Nat) : Nat := (off / blockSize + 1) * blockSize

namespace State

/-- The entry of the root directory with that size. -/
def roundedRoot (m : State) : InodeEntry :=
  {m.volume.diskEntry sb rootInodeNo with
    numBytes := UInt32.ofNat (roundUp (m.volume.diskEntry sb rootInodeNo).numBytes.toNat)}

def rounded (m : State) : State := m.storeEntry rootInodeNo m.roundedRoot

/-- The bitmap is written. -/
def mapped (m : State) : State := {m with blocks := m.image}

end State

theorem mapped_volume : m.mapped.volume = m.volume := by
  show (⟨update m.image _ (firstBits m.freeblock), _, _, _⟩ : Volume) = ⟨m.image, _, _, _⟩
  rw [State.image, update_idem]

theorem balloc_run (h : Ready m) : (balloc m.freeblock).run m = .ok () m.mapped := by
  have hr := h.range
  have hlt : m.freeblock < blockSize * 8 := by
    show m.freeblock < 4096
    omega
  rw [balloc, bind_ok (check_run hlt), wsect_run h.size (by decide)]
  rfl

theorem fixRoot_run (h : Ready m) : (fixRoot rootInodeNo).run m = .ok () m.rounded := by
  rw [fixRoot, bind_ok (rinode_run h (by decide))]
  simp only [xint_eq]
  rw [winode_run h.size (by decide)]
  rfl

/-- The image has the inputs, and no more than they call for. -/
structure Built (m : State) (files : List Input) : Prop where
  holds : Holds m (filled rootOnly (rootInodeNo + 1) files)
  freeinode : m.freeinode = files.length + 2
  freeblock : m.freeblock = nmeta + need (dirEntrySize * (files.length + 2)) + dataBlocks files

/-- **What `mkfs` does.** It builds the image, or the inputs do not fit. -/
theorem main_spec (hno : files.length + 1 < ninodes ∨ files.length + 1 = ninodes ∧ ∀ f ∈ files, f.data = []) :
    Ends (fun _ m' => ∃ m, Built m files ∧ m' = m.rounded.mapped)
      (fun _ _ => Unfit (dirEntrySize * 2) (nmeta + 1) files) ((main files).run start) := by
  obtain ⟨m, h, hino, hblock, hmain⟩ := main_run
  have hlen : (rootOnly rootInodeNo).length = dirEntrySize * 2 := by
    rw [rootOnly, update_self, rootEntries, List.length_append, direntBytes_length, direntBytes_length]
    rfl
  have hadd := addFiles_spec h (hino ▸ Nat.lt_succ_self _) files <| by
    have htwo : rootInodeNo + 1 = 2 := rfl
    rw [hino, htwo]
    exact hno.imp (fun hlt => by omega) fun hlast => ⟨by omega, hlast.2⟩
  rw [hino, hblock, hlen] at hadd
  rw [hmain, addAll]
  refine hadd.bind fun _ m1 _ hres => ?_
  obtain ⟨h1, hino1, hblock1⟩ := hres
  have hready : Ready m1.rounded := h1.ready.storeEntry (by decide)
  have hneed : need (dirEntrySize * 2) = 1 := by decide
  have hsize : dirEntrySize * (files.length + 2) = dirEntrySize * 2 + dirEntrySize * files.length := by
    rw [Nat.mul_add, Nat.add_comm]
  rw [hneed] at hblock1
  rw [bind_ok (fixRoot_run h1.ready), bind_ok (get_run _), balloc_run hready]
  exact .ok ⟨m1, ⟨h1, hino1.trans (Nat.add_comm ..), by rw [hsize]; omega⟩, rfl⟩

/-- The inputs fit the partition. -/
structure Fits (files : List Input) : Prop where
  opened : ∀ f ∈ files, f.contents ≠ none
  sizes : ∀ f ∈ files, f.data.length ≤ inodeMaxBytes
  blocks : nmeta + need (dirEntrySize * (files.length + 2)) + dataBlocks files ≤ fssize
  inodes : files.length + 1 < ninodes

theorem not_unfit (opened : ∀ f ∈ files, f.contents ≠ none) (sizes : ∀ f ∈ files, f.data.length ≤ inodeMaxBytes)
    (blocks : nmeta + need (dirEntrySize * (files.length + 2)) + dataBlocks files ≤ fssize)
    (hcount : files.length + 1 ≤ ninodes) : ¬ Unfit (dirEntrySize * 2) (nmeta + 1) files := by
  have hneed : need (dirEntrySize * 2) = 1 := by decide
  have hsize : dirEntrySize * (files.length + 2) = dirEntrySize * 2 + dirEntrySize * files.length := by
    rw [Nat.mul_add, Nat.add_comm]
  rw [hsize] at blocks
  intro hstop
  rcases hstop with ⟨f, hf, hnone | hlong⟩ | hroot | hfull
  · exact opened f hf hnone
  · exact absurd (sizes f hf) (not_le.mpr hlong)
  · have hroot' : 71680 < 16 * 2 + 16 * files.length := hroot
    have hcount' : files.length + 1 ≤ 200 := hcount
    omega
  · omega

/-- Inputs that fit are all there is to it. -/
theorem main_fits (h : Fits files) : ∃ m, (main files).run start = .ok () m.rounded.mapped ∧ Built m files := by
  obtain ⟨_, m', hrun, m, hbuilt, hm⟩ :=
    (main_spec (Or.inl h.inodes)).returns fun _ _ => not_unfit h.opened h.sizes h.blocks h.inodes.le
  exact ⟨m, hm ▸ hrun, hbuilt⟩

/-! ### The rounded root directory -/

theorem rounded_entry (i : Nat) :
    m.rounded.volume.entryOf sb i = if i = rootInodeNo then m.roundedRoot else m.volume.entryOf sb i := by
  rw [volume_coherent.entryOf, volume_coherent.entryOf, State.rounded, storeEntry_volume (by decide),
    diskEntry_storeEntry]

/-- Only a size has changed. -/
theorem rounded_entry_eq (i : Nat) :
    ∃ n, m.rounded.volume.entryOf sb i = {m.volume.entryOf sb i with numBytes := n} := by
  rw [rounded_entry]
  by_cases he : i = rootInodeNo
  · rw [if_pos he, he, volume_coherent.entryOf]
    exact ⟨_, rfl⟩
  · rw [if_neg he]
    exact ⟨_, rfl⟩

theorem rounded_type (i : Nat) : (m.rounded.volume.entryOf sb i).type = (m.volume.entryOf sb i).type := by
  obtain ⟨n, he⟩ := rounded_entry_eq (m := m) i
  rw [he]

theorem rounded_allocated : m.rounded.volume.Allocated sb i ↔ m.volume.Allocated sb i :=
  allocated_congr fun _ => rounded_type i

theorem rounded_blocks (hb : sb.bitmapStart.toNat ≤ b) : m.rounded.volume.blocks b = m.volume.blocks b := by
  rw [State.rounded, storeEntry_volume (by decide)]
  exact blocks_storeEntry sb_layout (by decide) hb

theorem rounded_used : b ∈ m.rounded.volume.used sb ↔ b ∈ m.volume.used sb :=
  mem_used_congr (rounded_blocks (Layout.le_bitmapBlock sb b))

theorem addrOf_resize {blocks : Nat → BlockData} {size : UInt32} (σ : Slot) :
    addrOf blocks {e with numBytes := size} σ = addrOf blocks e σ := by
  cases σ <;> rfl

namespace Holds
variable (h : Holds m c)
include h

theorem allocated_iff : m.volume.Allocated sb i ↔ 0 < i ∧ i < m.freeinode := by
  refine ⟨fun ha => ⟨ha.1, ?_⟩, fun hi => h.allocated hi.1 hi.2⟩
  by_contra hge
  have hle := ha.2.1
  have htype := ha.2.2
  rw [sb_numInodes] at hle
  rw [volume_coherent.entryOf] at htype
  exact htype (h.unused i (not_lt.mp hge) hle)

theorem rounded_addr (k : Nat × Slot) : m.rounded.volume.addr sb k = m.volume.addr sb k := by
  rw [Volume.addr, Volume.addr]
  by_cases ha : m.volume.Allocated sb k.1
  · obtain ⟨n, he⟩ := rounded_entry_eq (m := m) k.1
    have htable := addr_table ha
    rw [if_pos ha, if_pos (rounded_allocated.mpr ha), he, addrOf_resize]
    refine addrOf_congr _ fun hne => rounded_blocks ?_
    rw [← htable]
    exact sb_layout.bitmapStart_le.trans
      (h.intact.consistent.owned.range _ (by rw [htable]; exact toNat_ne_zero.mpr hne)).1
  · rw [if_neg ha, if_neg (mt rounded_allocated.mp ha)]

theorem rounded_owned :
    Owned sb.dataStart sb.numBlocks.toNat (m.rounded.volume.addr sb) (m.rounded.volume.used sb) :=
  h.intact.consistent.owned.congr h.rounded_addr fun _ _ => rounded_used

theorem rounded_exact :
    Exact sb.dataStart sb.numBlocks.toNat (m.rounded.volume.addr sb) (m.rounded.volume.used sb) :=
  h.intact.consistent.exact.congr h.rounded_addr fun _ _ => rounded_used

theorem rounded_size (hroot : rootInodeNo < m.freeinode) :
    (m.rounded.volume.entryOf sb rootInodeNo).numBytes.toNat = roundUp (c rootInodeNo).length := by
  have hmax : (c rootInodeNo).length ≤ 71680 := (h.filled (by decide) hroot).1
  have hup : roundUp (c rootInodeNo).length ≤ 71680 + 512 := by
    show ((c rootInodeNo).length / 512 + 1) * 512 ≤ _
    omega
  rw [rounded_entry, if_pos rfl]
  show (UInt32.ofNat (roundUp (m.volume.diskEntry sb rootInodeNo).numBytes.toNat)).toNat = _
  rw [h.numBytes (by decide) hroot]
  exact UInt32.toNat_ofNat_of_lt' (lt_of_le_of_lt hup (by decide))

theorem rounded_size_of_ne (hpos : 0 < i) (hlt : i < m.freeinode) (hne : i ≠ rootInodeNo) :
    (m.rounded.volume.entryOf sb i).numBytes.toNat = (c i).length := by
  rw [rounded_entry, if_neg hne, volume_coherent.entryOf, h.numBytes hpos hlt]

theorem rounded_not_device (ha : m.rounded.volume.Allocated sb i) :
    (m.rounded.volume.entryOf sb i).type ≠ inodeDevice := by
  obtain ⟨hpos, hlt⟩ := h.allocated_iff.mp (rounded_allocated.mp ha)
  rw [rounded_type]
  exact h.notDevice hpos hlt

/-- If its last block is not full, the root directory needs no more blocks. -/
theorem rounded_intact (hroot : rootInodeNo < m.freeinode) (hround : (c rootInodeNo).length % blockSize ≠ 0) :
    Intact sb m.rounded.volume := by
  obtain ⟨hmax, hfilled⟩ := h.filled (by decide) hroot
  have hfor : blocksFor (roundUp (c rootInodeNo).length) = blocksFor (c rootInodeNo).length := by
    have hround' : (c rootInodeNo).length % 512 ≠ 0 := hround
    show (((c rootInodeNo).length / 512 + 1) * 512 + 512 - 1) / 512 = ((c rootInodeNo).length + 512 - 1) / 512
    omega
  have helse : Elsewhere sb rootInodeNo m.volume m.rounded.volume :=
    ⟨fun i _ hne => by rw [rounded_entry, if_neg hne], fun k _ => h.rounded_addr k⟩
  have hunshared : Unshared sb m.rounded.volume := by
    refine helse.unshared h.intact.consistent.toUnshared h.rounded_owned fun _ => ?_
    rw [Volume.Filled, h.rounded_size hroot, hfor]
    refine ⟨?_, fun idx hidx => ?_⟩
    · have hround' : (c rootInodeNo).length % 512 ≠ 0 := hround
      have hmax' : (c rootInodeNo).length ≤ 71680 := hmax
      show ((c rootInodeNo).length / 512 + 1) * 512 ≤ 71680
      omega
    · rw [h.rounded_addr]
      exact hfilled idx hidx
  refine ⟨helse.consistent h.intact.consistent hunshared h.rounded_exact fun _ idx hidx hge => ?_, volume_listed,
    volume_coherent⟩
  rw [h.rounded_size hroot, hfor] at hge
  rw [h.rounded_addr]
  by_contra hne
  exact absurd ((h.blocks (by decide) hroot hidx).mp hne) (not_lt.mpr hge)

end Holds

/-! ### Well-formed images -/

namespace State

/-- The inode numbers that `ialloc` has handed out. -/
def Used (m : State) (i : Nat) : Prop := 0 < i ∧ i < m.freeinode

instance (m : State) (i : Nat) : Decidable (m.Used i) := inferInstanceAs (Decidable (_ ∧ _))

/-- The entry of inode `i` on the image. -/
def entry (m : State) (i : Nat) : InodeEntry := getEntry (m.blocks (iblock i)) i

/-- The block address recorded in a slot of an inode, 0 for none. -/
def recorded (m : State) (k : Nat × Slot) : Nat := if m.Used k.1 then addrOf m.blocks (m.entry k.1) k.2 else 0

end State

structure WellFormed (m : State) : Prop where
  numbered : ∀ i, m.Used i → i < sb.numInodes.toNat ∧ sb.inodeStart.toNat ≤ iblock i ∧ iblock i < sb.bitmapStart.toNat
  range : ∀ k, m.recorded k ≠ 0 → nmeta ≤ m.recorded k ∧ m.recorded k < sb.numBlocks.toNat
  distinct : ∀ k k', m.recorded k ≠ 0 → m.recorded k = m.recorded k' → k = k'
  /-- The bitmap has just the bits of the blocks below `freeblock`. -/
  bitmap : ∀ b < bitPerBlock, bitIsSet (m.blocks sb.bitmapStart.toNat) b = decide (b < m.freeblock)
  /-- These are the metadata blocks and the recorded ones. -/
  owned : ∀ b, b < m.freeblock ↔ b < nmeta ∨ ∃ k, m.recorded k = b
  /-- No file has holes. -/
  filled : ∀ i, m.Used i → (m.entry i).numBytes.toNat ≤ inodeMaxBytes ∧
    ∀ idx < blocksFor (m.entry i).numBytes.toNat, m.recorded (i, blockSlot idx) ≠ 0

theorem final_entry (hle : i ≤ ninodes) : m.rounded.mapped.entry i = m.rounded.volume.entryOf sb i := by
  rw [volume_coherent.entryOf, ← mapped_volume, diskEntry_eq hle]
  rfl

/-- What is recorded is what a kernel finds. -/
theorem Holds.final_recorded (h : Holds m c) (k : Nat × Slot) :
    m.rounded.mapped.recorded k = m.rounded.volume.addr sb k := by
  have hiff : m.rounded.mapped.Used k.1 ↔ m.rounded.volume.Allocated sb k.1 :=
    (rounded_allocated.trans h.allocated_iff).symm
  rw [State.recorded, Volume.addr]
  by_cases ha : m.rounded.volume.Allocated sb k.1
  · rw [if_pos ha, if_pos (hiff.mpr ha), final_entry (Nat.le_of_lt_succ (lt_of_lt_of_le (hiff.mpr ha).2 h.inodes))]
    rfl
  · rw [if_neg ha, if_neg (mt hiff.mp ha)]

theorem root_length (files : List Input) :
    (filled rootOnly (rootInodeNo + 1) files rootInodeNo).length = dirEntrySize * (files.length + 2) := by
  rw [filled_root (Nat.lt_succ_self _), List.length_append, entriesFrom_length, rootOnly, update_self,
    rootEntries,
    List.length_append, direntBytes_length, direntBytes_length, Nat.mul_add, Nat.add_comm]
  rfl

/-- A kernel in step with the image finds the files there. -/
theorem Holds.kernel_intact (h : Holds m c) (hroot : rootInodeNo < m.freeinode)
    (hround : (c rootInodeNo).length % blockSize ≠ 0) {s : Volume} (hs : s.blocks = m.rounded.mapped.blocks)
    (hw : Listed sb s) (hco : Coherent sb s) : Intact sb s := by
  have hfinal := h.rounded_intact hroot hround
  have hs' : s.blocks = m.rounded.volume.blocks := hs
  refine ⟨hfinal.consistent.congr (fun i _ => volume_coherent.entryOf_eq hco hs' i)
    (volume_coherent.addr_eq hco hs') fun x _ => mem_used_congr (by rw [hs']), hw, hco⟩

/-- The slots of a finished image own different data blocks, and just the blocks below
`freeblock` are in use. -/
theorem Holds.final_used (h : Holds m c) (b : Nat) :
    b < m.freeblock ↔ b < nmeta ∨ ∃ k, m.rounded.mapped.recorded k = b := by
  simp only [h.final_recorded]
  have hlower : 92 ≤ m.freeblock := h.ready.lower
  have hupper : m.freeblock ≤ 1000 := h.ready.upper
  have hused : ∀ b < 1000, b ∈ m.rounded.volume.used sb ↔ b < m.freeblock := fun b hb => by
    rw [rounded_used]
    show m.volume.isUsed sb b = true ↔ _
    rw [volume_isUsed h.ready hb, decide_eq_true_iff]
  constructor
  · intro hlt
    by_cases hmeta : b < nmeta
    · exact Or.inl hmeta
    · have hb : b < 1000 := by omega
      exact Or.inr (h.rounded_exact b ((hused b hb).mpr hlt) (by rw [sb_dataStart]; exact not_lt.mp hmeta)
        (by rw [sb_numBlocks]; exact hb))
  · intro hown
    rcases hown with hmeta | ⟨k, hk⟩
    · exact lt_of_lt_of_le hmeta h.ready.lower
    · by_cases hz : b = 0
      · omega
      · have hne : m.rounded.volume.addr sb k ≠ 0 := hk ▸ hz
        have hrange := (h.rounded_owned.range k hne).2
        have hmem := h.rounded_owned.mem_used k hne
        rw [hk] at hrange hmem
        rw [sb_numBlocks] at hrange
        exact (hused b hrange).mp hmem

theorem Built.wellFormed (h : Built m files) (hcount : files.length + 1 < ninodes)
    (hround : dirEntrySize * (files.length + 2) % blockSize ≠ 0) : WellFormed m.rounded.mapped := by
  have hino := h.freeinode
  have hroot : rootInodeNo < m.freeinode := by
    show 1 < m.freeinode
    omega
  have hintact := h.holds.rounded_intact hroot (root_length files ▸ hround)
  have hle : ∀ i, m.rounded.mapped.Used i → i < ninodes := fun i hi => by
    have hlt : i < m.freeinode := hi.2
    omega
  constructor
  case numbered =>
    intro i hi
    rw [sb_numInodes, sb_inodeStart, sb_bitmapStart]
    exact ⟨hle i hi, le_iblock i, iblock_lt (hle i hi).le⟩
  case range =>
    intro k hne
    rw [h.holds.final_recorded] at hne ⊢
    obtain ⟨hge, hlt⟩ := h.holds.rounded_owned.range k hne
    rw [sb_dataStart] at hge
    exact ⟨hge, hlt⟩
  case distinct =>
    intro k k' hne he
    rw [h.holds.final_recorded] at hne
    rw [h.holds.final_recorded, h.holds.final_recorded] at he
    exact h.holds.rounded_owned.distinct k k' hne he
  case bitmap =>
    intro b _
    have hupper := h.holds.ready.range.2
    show bitIsSet (m.rounded.image sb.bitmapStart.toNat) b = _
    rw [image_bitmap]
    exact bitIsSet_firstBits (by show m.freeblock ≤ 4096; omega) b
  case owned => exact h.holds.final_used
  case filled =>
    intro i hi
    have ha : m.rounded.volume.Allocated sb i := rounded_allocated.mpr (h.holds.allocated_iff.mpr hi)
    rw [final_entry (hle i hi).le]
    simp only [h.holds.final_recorded]
    exact hintact.consistent.filled i ha (h.holds.rounded_not_device ha)

/-- A root directory that ends with its last block is given one more. -/
theorem Built.hole (h : Built m files) (hfull : dirEntrySize * (files.length + 2) % blockSize = 0) :
    ∃ idx < blocksFor (m.rounded.mapped.entry rootInodeNo).numBytes.toNat,
      m.rounded.mapped.recorded (rootInodeNo, blockSlot idx) = 0 := by
  have hino := h.freeinode
  have hinodes : m.freeinode ≤ 201 := h.holds.inodes
  have hroot : rootInodeNo < m.freeinode := by
    show 1 < m.freeinode
    omega
  have hfull' : 16 * (files.length + 2) % 512 = 0 := hfull
  rw [final_entry (by decide), h.holds.rounded_size hroot, root_length]
  refine ⟨16 * (files.length + 2) / 512, ?_, ?_⟩
  · show _ < ((16 * (files.length + 2) / 512 + 1) * 512 + 512 - 1) / 512
    omega
  · rw [h.holds.final_recorded, h.holds.rounded_addr]
    by_contra hne
    have hlt := (h.holds.blocks (by decide) hroot (by show _ < 140; omega)).mp hne
    rw [root_length] at hlt
    have hlt' : 16 * (files.length + 2) / 512 < (16 * (files.length + 2) + 512 - 1) / 512 := hlt
    omega

/-- **`mkfs` makes well-formed images**, and a kernel then allocates nothing when it reads a
file, exactly if there are inode numbers enough and the root directory does not end with its
last block. -/
theorem image_wellFormed (hrun : (main files).run start = .ok () m) :
    (WellFormed m ∧ ∀ s : Volume, s.blocks = m.blocks → Listed sb s → Coherent sb s →
      ∀ console p off count, s.Loaded p → off ≤ (s.heap p).entry.numBytes.toNat → off + count < 2 ^ 64 →
        ∃ r, (inodeRead sb console p off count).run s = .ok r s) ↔
    files.length + 1 < ninodes ∧ dirEntrySize * (files.length + 2) % blockSize ≠ 0 := by
  have hnumbers := main_numbered hrun
  constructor
  · intro hwf
    have hcount : files.length + 1 < ninodes := by
      by_contra hge
      have hge' : ¬ files.length + 1 < 200 := hge
      exact absurd (hwf.1.numbered 200 ⟨by decide, by omega⟩).1 (by decide)
    obtain ⟨m1, h, hm⟩ := (main_spec (Or.inl hcount)).of_ok hrun
    refine ⟨hcount, fun hfull => ?_⟩
    obtain ⟨idx, hlt, hzero⟩ := h.hole hfull
    rw [← hm] at hlt hzero
    exact (hwf.1.filled rootInodeNo ⟨by decide, by show 1 < _; omega⟩).2 idx hlt hzero
  · intro ⟨hcount, hround⟩
    obtain ⟨m1, h, hm⟩ := (main_spec (Or.inl hcount)).of_ok hrun
    have hino := h.freeinode
    have hroot : rootInodeNo < m1.freeinode := by
      show 1 < m1.freeinode
      omega
    rw [hm]
    refine ⟨h.wellFormed hcount hround, fun s hs hw hco console p off count hp hoff hn => ?_⟩
    have hintact := h.holds.kernel_intact hroot (root_length files ▸ hround) hs hw hco
    have hs' : s.blocks = m1.rounded.volume.blocks := hs
    have hentry := volume_coherent.entryOf_eq hco hs'
    have ha : m1.rounded.volume.Allocated sb (s.heap p).inodeNo :=
      (allocated_congr fun _ => by rw [hentry]).mp (hw.allocated p hp.1)
    have hdev : (s.heap p).entry.type ≠ inodeDevice := by
      rw [← hw.entryOf hp, hentry]
      exact h.holds.rounded_not_device ha
    exact ⟨_, inodeRead_spec hw hintact.consistent.toUnshared hp hdev hoff hn⟩

/-- One short file. -/
theorem image_wellFormed_one_file :
    ∃ m, (main [⟨[97], some [1, 2, 3]⟩]).run start = .ok () m ∧ WellFormed m := by
  have hfits : Fits [⟨[97], some [1, 2, 3]⟩] := ⟨by decide, by decide, by decide, by decide⟩
  obtain ⟨m, hrun, _⟩ := main_fits hfits
  exact ⟨_, hrun, ((image_wellFormed hrun).mpr ⟨by decide, by decide⟩).1⟩

/-- `n` files without a byte. -/
def emptyFiles (n : Nat) : List Input := List.replicate n ⟨[97], some []⟩

theorem main_emptyFiles (hn : n + 1 ≤ ninodes) :
    ∃ m, (main (emptyFiles n)).run start = .ok () m.rounded.mapped ∧ Built m (emptyFiles n) := by
  have hmem : ∀ f ∈ emptyFiles n, f = ⟨[97], some []⟩ := fun f hf => List.eq_of_mem_replicate hf
  have hlen : (emptyFiles n).length = n := List.length_replicate
  have hdata : dataBlocks (emptyFiles n) = 0 := by
    rw [dataBlocks, emptyFiles, List.map_replicate, List.sum_replicate]
    exact Nat.mul_zero n
  have hneed : need (dirEntrySize * (n + 2)) ≤ 7 :=
    (need_mono (Nat.mul_le_mul_left dirEntrySize (Nat.succ_le_succ hn))).trans (by decide)
  have hblocks : nmeta + need (dirEntrySize * ((emptyFiles n).length + 2)) + dataBlocks (emptyFiles n) ≤ fssize := by
    rw [hlen, hdata]
    show 92 + need (dirEntrySize * (n + 2)) + 0 ≤ 1000
    omega
  have hnil : ∀ f ∈ emptyFiles n, f.data = [] := fun f hf => by
    rw [hmem f hf]
    rfl
  have hle : (emptyFiles n).length + 1 ≤ ninodes := by rwa [hlen]
  have hno : (emptyFiles n).length + 1 < ninodes ∨
      (emptyFiles n).length + 1 = ninodes ∧ ∀ f ∈ emptyFiles n, f.data = [] :=
    (Nat.lt_or_eq_of_le hle).imp id fun he => ⟨he, hnil⟩
  obtain ⟨_, m', hrun, m, hbuilt, hm⟩ := (main_spec hno).returns fun _ _ =>
    not_unfit (fun f hf => by rw [hmem f hf]; exact Option.some_ne_none _)
      (fun f hf => by rw [hnil f hf]; exact Nat.zero_le _) hblocks hle
  exact ⟨m, hm ▸ hrun, hbuilt⟩

/-- With 30 files the root directory has a hole, and with 199 there is an inode past the last. -/
theorem image_not_wellFormed :
    (∃ m, (main (emptyFiles 30)).run start = .ok () m ∧
      ∃ idx < blocksFor (m.entry rootInodeNo).numBytes.toNat, m.recorded (rootInodeNo, blockSlot idx) = 0) ∧
    ∃ m, (main (emptyFiles 199)).run start = .ok () m ∧ ∃ i, m.Used i ∧ ¬ i < sb.numInodes.toNat := by
  obtain ⟨m, hrun, h⟩ := main_emptyFiles (n := 30) (by decide)
  obtain ⟨m', hrun', h'⟩ := main_emptyFiles (n := 199) (by decide)
  refine ⟨⟨_, hrun, h.hole (by decide)⟩, _, hrun', 200, ⟨by decide, ?_⟩, by decide⟩
  have hino : m'.freeinode = 201 := h'.freeinode
  show 200 < m'.freeinode
  omega

end OS2021.User.Mkfs
