import OS2021.Fs.Directory
import OS2021.User.Mkfs.WellFormed

/-! The kernel reads what `mkfs` has written.

`mkfs` and the kernel have each their own code for the format: where inodes are, which
blocks belong to a file, what a directory entry looks like. For inputs that fit the
partition they agree: a kernel that has mounted the image finds every input under its
name, with its bytes. That the size of the root directory may be rounded up to a block
that does not exist does no harm here, since a lookup ends at the entry it looks for. -/
namespace OS2021.User.Mkfs
open Lib Fs

variable {m : State} {c : Nat → List UInt8} {s s0 : Volume} {p q : Ptr} {i j n off count : Nat} {files : List Input}
  {console : Console}

/-! ### Kernels on the image -/

/-- The disk is the image, and the in-memory inodes are in step with it. -/
structure Mounted (m : State) (s : Volume) : Prop where
  blocks : s.blocks = m.blocks
  listed : Listed sb s
  coherent : Coherent sb s

/-- A kernel that has just started has no inode in memory. -/
theorem mounted_boot (m : State) (heap : Ptr → Inode) (allocs : Nat) : Mounted m ⟨m.blocks, heap, [], allocs⟩ where
  blocks := rfl
  listed := ⟨List.nodup_nil, fun _ _ hlive => absurd hlive.1 List.not_mem_nil,
    fun _ hlive => absurd hlive.1 List.not_mem_nil, fun _ hlive => absurd hlive.1 List.not_mem_nil,
    fun _ hmem => absurd hmem List.not_mem_nil⟩
  coherent := fun _ hload => absurd hload.1.1 List.not_mem_nil

namespace Holds
variable (h : Holds m c) (hm : Mounted m.rounded.mapped s)
include hm

omit h in
theorem kernel_entry (i : Nat) : s.entryOf sb i = m.rounded.volume.entryOf sb i :=
  volume_coherent.entryOf_eq hm.coherent hm.blocks i

include h

theorem kernel_addr (k : Nat × Slot) : s.addr sb k = m.volume.addr sb k :=
  (volume_coherent.addr_eq hm.coherent hm.blocks k).trans (h.rounded_addr k)

theorem kernel_allocated : s.Allocated sb i ↔ 0 < i ∧ i < m.freeinode :=
  (allocated_congr fun _ => by rw [kernel_entry hm]).trans (rounded_allocated.trans h.allocated_iff)

section File
variable (hpos : 0 < i) (hlt : i < m.freeinode)
include hpos hlt

theorem kernel_type : (s.entryOf sb i).type = kind i := by
  rw [kernel_entry hm, rounded_type, volume_coherent.entryOf, h.type i hpos hlt]

theorem le_kernel_size : (c i).length ≤ (s.entryOf sb i).numBytes.toNat := by
  rw [kernel_entry hm]
  by_cases he : i = rootInodeNo
  · rw [he, h.rounded_size (he ▸ hlt)]
    show (c rootInodeNo).length ≤ ((c rootInodeNo).length / 512 + 1) * 512
    omega
  · rw [h.rounded_size_of_ne hpos hlt he]

/-- The file starts with the bytes that were appended. -/
theorem kernel_content : (s.content sb i).take (c i).length = c i := by
  have hle := h.le_kernel_size hm hpos hlt
  have hsize : (m.volume.entryOf sb i).numBytes.toNat = (c i).length := by
    rw [volume_coherent.entryOf, h.numBytes hpos hlt]
  have hbyte : ∀ j < (c i).length, s.byteAt sb i j = m.volume.byteAt sb i j := by
    intro j hj
    have hne : m.volume.addr sb (i, blockSlot (j / blockSize)) ≠ 0 :=
      (h.filled hpos hlt).2 _ (lt_blocksFor.mpr (lt_of_le_of_lt (Nat.div_mul_le_self ..) hj))
    refine byteAt_congr (h.kernel_addr hm _) ?_
    rw [hm.blocks]
    exact rounded_blocks (sb_layout.bitmapStart_le.trans (h.intact.consistent.owned.range _ hne).1)
  have hcontent := h.content i hpos hlt
  rw [Volume.content, hsize] at hcontent
  rw [Volume.content, elements_take, Nat.min_eq_left hle, elements_congr hbyte, hcontent]

/-- A read of these bytes. -/
theorem kernel_read (hq : s.Loaded q) (hno : (s.heap q).inodeNo = i)
    (hoff : off ≤ (s.heap q).entry.numBytes.toNat) (hn : off + count < 2 ^ 64)
    (hend : off + min count ((s.heap q).entry.numBytes.toNat - off) ≤ (c i).length) :
    (inodeRead sb console q off count).run s =
      .ok (min count ((s.heap q).entry.numBytes.toNat - off), ((s.content sb i).drop off).take count) s := by
  obtain ⟨hmax, hfilled⟩ := h.filled hpos hlt
  have hdev : (s.heap q).entry.type ≠ inodeDevice := by
    rw [← hm.listed.entryOf hq, hno, h.kernel_type hm hpos hlt]
    exact kind_ne_device i
  have hread : (inodeRead sb console q off count).run s = _ :=
    inodeRead_there hm.listed hq hdev hoff hn (hend.trans hmax) fun idx hidx => by
      have hbelow := lt_blocksFor.mp hidx
      rw [hno, h.kernel_addr hm]
      exact hfilled idx (lt_blocksFor.mpr (by omega))
  rw [hno] at hread
  exact hread

end File

/-- A kernel can take every file into memory. -/
theorem kernel_get (arena : Arena) (hpos : 0 < i) (hlt : i < m.freeinode) (hi : i < ninodes)
    (hfree : ∀ q, s.Live q → (s.heap q).inodeNo ≠ i) :
    ∃ q s', (inodeGet sb arena i).run s = .ok q s' ∧ Mounted m.rounded.mapped s' ∧ s'.Loaded q ∧
      (s'.heap q).inodeNo = i := by
  have hi' : i < sb.numInodes.toNat := by rwa [sb_numInodes]
  obtain ⟨q, s', hrun, ht, hmem, hq⟩ := inodeGet_new arena hm.listed hpos hi' hfree
  have hlive : s'.Live q := ⟨hmem, by rw [hq]; exact Int.one_pos⟩
  have hco : Coherent sb s' := ht.coherent hm.coherent fun _ => by rw [hq]
  have hentry := hm.coherent.entryOf_eq hco ht.blocks
  refine ⟨q, s', hrun, ⟨ht.blocks.trans hm.blocks, ?_, hco⟩, ⟨hlive, by rw [hq]⟩, by rw [hq]⟩
  refine ht.listed hm.listed (fun _ => allocated_congr fun _ => by rw [hentry]) (fun _ => ?_) fun _ _ => by rw [hq]
  rw [hq]
  exact ⟨hpos, hi', (h.kernel_allocated hm).mpr ⟨hpos, hlt⟩, fun r _ hr => hfree r hr⟩

end Holds

/-! ### The root directory -/

section Slots
variable {src rest : List UInt8}

theorem slotAt_head (hsrc : src.length = dirEntrySize) : slotAt (src ++ rest) 0 = slotOf src := by
  rw [slotAt, Nat.zero_mul, List.drop_zero, List.take_left' hsrc]

theorem slotAt_tail (hsrc : src.length = dirEntrySize) (j : Nat) : slotAt (src ++ rest) (j + 1) = slotAt rest j := by
  have hoff : (j + 1) * dirEntrySize = src.length + j * dirEntrySize := by rw [Nat.succ_mul, hsrc, Nat.add_comm]
  rw [slotAt, slotAt, hoff, List.drop_length_add_append]

end Slots

theorem slotAt_entriesFrom {k : Nat} {f : Input} (hn : 0 < n) (hcount : n + files.length ≤ 65536)
    (hf : files[k]? = some f) : slotAt (entriesFrom n files) k = some (nameOf f.name, n + k) := by
  induction files generalizing n k with
  | nil => cases hf
  | cons g files ih =>
    rw [List.length_cons] at hcount
    rw [entriesFrom]
    cases k with
    | zero =>
      cases hf
      rw [slotAt_head (direntBytes_length ..), slotOf_direntBytes hn (by omega), Nat.add_zero]
    | succ k =>
      rw [slotAt_tail (direntBytes_length ..), ih (Nat.succ_pos n) (by omega) hf, Nat.succ_add_eq_add_succ]

/-- The names in the root directory, in order. -/
def rootNames (files : List Input) : List (List UInt8) := dot :: dotdot :: files.map Input.name

/-- The inode number under name `j`. -/
def rootNumber (j : Nat) : Nat := if j < 2 then rootInodeNo else j

theorem slotAt_root {name : List UInt8} (hcount : files.length + 1 < ninodes)
    (hname : (rootNames files)[j]? = some name) :
    slotAt (filled rootOnly (rootInodeNo + 1) files rootInodeNo) j = some (nameOf name, rootNumber j) := by
  rw [filled_root (Nat.lt_succ_self _), rootOnly, Function.update_self, rootEntries, List.append_assoc]
  rcases j with _ | _ | k
  · cases hname
    rw [slotAt_head (direntBytes_length ..)]
    exact slotOf_direntBytes (by decide) (by decide)
  · cases hname
    rw [slotAt_tail (direntBytes_length ..), slotAt_head (direntBytes_length ..)]
    exact slotOf_direntBytes (by decide) (by decide)
  · have hmap : (files.map Input.name)[k]? = some name := hname
    rw [List.getElem?_map] at hmap
    obtain ⟨f, hf, hfname⟩ := Option.map_eq_some_iff.mp hmap
    have hcount' : files.length + 1 < 200 := hcount
    rw [slotAt_tail (direntBytes_length ..), slotAt_tail (direntBytes_length ..),
      slotAt_entriesFrom (Nat.succ_pos _) (by show 2 + files.length ≤ 65536; omega) hf, hfname,
      rootNumber, if_neg (by omega : ¬ k + 1 + 1 < 2), Nat.add_comm]
    rfl

theorem Fits.bound (h : Fits files) : files.length + 1 < 200 := h.inodes

namespace Built
variable (h : Built m files) (hm : Mounted m.rounded.mapped s)
include h

theorem rootUsed : rootInodeNo < m.freeinode := by
  have hino := h.freeinode
  show 1 < m.freeinode
  omega

include hm

section Root
variable (hp : s.Loaded p) (hno : (s.heap p).inodeNo = rootInodeNo)
include hp hno

theorem readDirent_run (hj : j < files.length + 2) (de : List UInt8) :
    ∃ de', (readDirent sb console p (j * dirEntrySize) de).run s = .ok de' s ∧
      slotOf de' = slotAt (filled rootOnly (rootInodeNo + 1) files rootInodeNo) j := by
  have hino := h.freeinode
  have hinodes : m.freeinode ≤ 201 := h.holds.inodes
  have hlen : (filled rootOnly (rootInodeNo + 1) files rootInodeNo).length = 16 * (files.length + 2) :=
    root_length files
  have hsize := h.holds.le_kernel_size hm (by decide) h.rootUsed
  have hcontent := h.holds.kernel_content hm (by decide) h.rootUsed
  rw [← hno, hm.listed.entryOf hp, hno, hlen] at hsize
  have hmin : min 16 ((s.heap p).entry.numBytes.toNat - j * 16) = 16 := by omega
  have hread : (inodeRead sb console p (j * 16) 16).run s = _ :=
    h.holds.kernel_read hm (by decide) h.rootUsed hp hno (by omega) (by omega) (by rw [hmin, hlen]; omega)
  have hbytes : ((s.content sb rootInodeNo).drop (j * 16)).take 16 =
      ((filled rootOnly (rootInodeNo + 1) files rootInodeNo).drop (j * 16)).take 16 := by
    rw [← hcontent, List.drop_take, List.take_take, hlen, Nat.min_eq_left (by omega)]
  have hsixteen : (((s.content sb rootInodeNo).drop (j * 16)).take 16).length = 16 := by
    rw [hbytes, List.length_take, List.length_drop, hlen]
    omega
  rw [readDirent]
  refine ⟨_, bind_ok hread, ?_⟩
  rw [slotOf_append hsixteen, hbytes]
  rfl

/-- A name is found at its entry. -/
theorem lookup_run {name key : List UInt8} (hcount : files.length + 1 < ninodes)
    (hnames : ((rootNames files).map nameOf).Nodup) (hname : (rootNames files)[j]? = some name)
    (hkey : nameOf key = nameOf name) (de : List UInt8) :
    (inodeLookup sb console de p key).run s = .ok (rootNumber j, some (j * dirEntrySize)) s := by
  have hlen : (rootNames files).length = files.length + 2 := by
    rw [rootNames, List.length_cons, List.length_cons, List.length_map]
  have hj : j < files.length + 2 := hlen ▸ (List.getElem?_eq_some_iff.mp hname).1
  have htype : (s.heap p).entry.type = inodeDirectory := by
    rw [← hm.listed.entryOf hp, hno, h.holds.kernel_type hm (by decide) h.rootUsed]
    rfl
  have hmiss : ∀ i < j, hit (slotAt (filled rootOnly (rootInodeNo + 1) files rootInodeNo)) (nameOf key) i = none := by
    intro i hi
    obtain ⟨other, hother⟩ : ∃ other, (rootNames files)[i]? = some other := ⟨_, List.getElem?_eq_getElem (by omega)⟩
    have hne : nameOf other ≠ nameOf key := fun he => by
      have hsame : ((rootNames files).map nameOf)[i]? = ((rootNames files).map nameOf)[j]? := by
        rw [List.getElem?_map, List.getElem?_map, hother, hname, Option.map_some, Option.map_some, he, hkey]
      have hlt : i < ((rootNames files).map nameOf).length := by rw [List.length_map]; omega
      exact Nat.ne_of_lt hi ((List.getElem?_inj hlt hnames).mp hsame)
    rw [hit, slotAt_root hcount hother, Option.bind_some, if_neg hne]
  have hhit : hit (slotAt (filled rootOnly (rootInodeNo + 1) files rootInodeNo)) (nameOf key) j =
      some (rootNumber j, j) := hit_eq_some.mpr ⟨rfl, hkey ▸ slotAt_root hcount hname⟩
  have hsize := h.holds.le_kernel_size hm (by decide) h.rootUsed
  rw [← hno, hm.listed.entryOf hp, hno, root_length] at hsize
  rw [inodeLookup, bind_ok (get_run s), bind_ok (assertThat_run htype), direntOffsets, List.range_eq_range']
  refine lookupFrom_found (Nat.zero_le j) ?_ (fun i hi de => ?_) hmiss hhit de
  · have hsize' : 16 * (files.length + 2) ≤ (s.heap p).entry.numBytes.toNat := hsize
    show j < 0 + ((s.heap p).entry.numBytes.toNat + 16 - 1) / 16
    omega
  · exact h.readDirent_run hm hp hno (lt_of_le_of_lt hi hj) de

end Root

/-- An input has its bytes. -/
theorem read_run {k : Nat} {f : Input} (hf : files[k]? = some f) (hq : s.Loaded q)
    (hno : (s.heap q).inodeNo = k + 2) :
    (s.heap q).entry.type = inodeRegular ∧ (s.heap q).entry.numBytes.toNat = f.data.length ∧
      ∀ off n, off ≤ f.data.length → off + n < 2 ^ 64 →
        (inodeRead sb console q off n).run s = .ok (min n (f.data.length - off), (f.data.drop off).take n) s := by
  have hpos : 0 < k + 2 := Nat.succ_pos _
  have hk := (List.getElem?_eq_some_iff.mp hf).1
  have hlt : k + 2 < m.freeinode := by
    rw [h.freeinode]
    omega
  have hdata : filled rootOnly (rootInodeNo + 1) files (k + 2) = f.data := by
    rw [Nat.add_comm k]
    exact filled_file (Nat.lt_succ_self _) hf
  have hne : k + 2 ≠ rootInodeNo := by
    show k + 2 ≠ 1
    omega
  have hsize : (s.heap q).entry.numBytes.toNat = f.data.length := by
    rw [← hm.listed.entryOf hq, hno, Holds.kernel_entry hm, h.holds.rounded_size_of_ne hpos hlt hne, hdata]
  have htype : (s.heap q).entry.type = inodeRegular := by
    rw [← hm.listed.entryOf hq, hno, h.holds.kernel_type hm hpos hlt]
    exact if_neg hne
  have hcontent : s.content sb (k + 2) = f.data := by
    have htake := h.holds.kernel_content hm hpos hlt
    rwa [hdata, List.take_of_length_le] at htake
    rw [Volume.content, elements_length, ← hno, hm.listed.entryOf hq, hsize]
  refine ⟨htype, hsize, fun off n hoff hn => ?_⟩
  have hread : (inodeRead sb console q off n).run s = _ :=
    h.holds.kernel_read hm hpos hlt hq hno (hsize ▸ hoff) hn (by rw [hdata, hsize]; omega)
  rw [hread, hsize, hcontent]

end Built

/-! ### Agreement -/

/-- What a kernel does on the image of the inputs. -/
structure Serves (files : List Input) (m : State) (s : Volume) : Prop where
  /-- An inode that is not in memory can be got. -/
  get : ∀ arena i, 0 < i → i < files.length + 2 → (∀ q, s.Live q → (s.heap q).inodeNo ≠ i) →
    ∃ q s', (inodeGet sb arena i).run s = .ok q s' ∧ Mounted m s' ∧ s'.Loaded q ∧ (s'.heap q).inodeNo = i
  /-- `.` and `..` are the root directory. -/
  dots : ∀ console p de key, s.Loaded p → (s.heap p).inodeNo = rootInodeNo → nameOf key = dot ∨ nameOf key = dotdot →
    ∃ off, (inodeLookup sb console de p key).run s = .ok (rootInodeNo, some off) s
  /-- Input `k` has inode `k + 2`. -/
  lookup : ∀ console p de key k f, s.Loaded p → (s.heap p).inodeNo = rootInodeNo → files[k]? = some f →
    nameOf key = nameOf f.name → ∃ off, (inodeLookup sb console de p key).run s = .ok (k + 2, some off) s
  read : ∀ console q k f, s.Loaded q → (s.heap q).inodeNo = k + 2 → files[k]? = some f →
    (s.heap q).entry.type = inodeRegular ∧ (s.heap q).entry.numBytes.toNat = f.data.length ∧
      ∀ off n, off ≤ f.data.length → off + n < 2 ^ 64 →
        (inodeRead sb console q off n).run s = .ok (min n (f.data.length - off), (f.data.drop off).take n) s

/-- **`mkfs` and the kernel agree on the format.** For inputs that fit, with names that
directories tell apart, `mkfs` makes an image whose super block is the one the kernel is
given, and on which any kernel finds the inputs. -/
theorem kernel_serves_inputs (hfits : Fits files) (hnames : ((rootNames files).map nameOf).Nodup) :
    ∃ m, (main files).run start = .ok () m ∧ superBlockOf (m.blocks 1) = sb ∧
      (∀ heap allocs, Mounted m ⟨m.blocks, heap, [], allocs⟩) ∧ ∀ s, Mounted m s → Serves files m s := by
  obtain ⟨m, hrun, h⟩ := main_fits hfits
  have hsuper : m.rounded.mapped.blocks 1 = superBlockBytes sb := by
    show m.rounded.image 1 = _
    rw [image_of_ne (by decide)]
    exact (h.holds.ready.storeEntry (by decide)).superBlock
  refine ⟨_, hrun, by rw [hsuper, superBlockOf_bytes], mounted_boot _, fun s hm => ⟨?get, ?dots, ?lookup, ?read⟩⟩
  case get =>
    intro arena i hpos hlt hfree
    have hbound := hfits.bound
    exact h.holds.kernel_get hm arena hpos (by rw [h.freeinode]; exact hlt) (by show i < 200; omega) hfree
  case dots =>
    intro console p de key hp hno hkey
    rcases hkey with hdot | hdotdot
    · exact ⟨_, h.lookup_run (j := 0) hm hp hno hfits.inodes hnames rfl hdot de⟩
    · exact ⟨_, h.lookup_run (j := 1) hm hp hno hfits.inodes hnames rfl hdotdot de⟩
  case lookup =>
    intro console p de key k f hp hno hf hkey
    have hname : (rootNames files)[k + 2]? = some f.name := by
      show (files.map Input.name)[k]? = _
      rw [List.getElem?_map, hf, Option.map_some]
    exact ⟨_, h.lookup_run hm hp hno hfits.inodes hnames hname hkey de⟩
  case read => exact fun console q k f hq hno hf => h.read_run hm hf hq hno

/-- `d/_a` and `b`. -/
def twoInputs : List Input := [⟨[100, 47, 95, 97], some [1, 2, 3]⟩, ⟨[98], some []⟩]

theorem kernel_serves_twoInputs :
    ∃ m, (main twoInputs).run start = .ok () m ∧ ∀ s, Mounted m s → Serves twoInputs m s := by
  have hfits : Fits twoInputs := ⟨by decide, by decide, by decide, by decide⟩
  obtain ⟨m, hrun, _, _, hserves⟩ := kernel_serves_inputs hfits (by decide)
  exact ⟨m, hrun, hserves⟩

/-- **The kernel keeps what `mkfs` makes.** From a well-formed image any calls of the inode layer
leave the file system consistent and in step with the disk. -/
theorem kernel_keeps_image (arena : Arena) (console : Console) (hrun : (main files).run start = .ok () m)
    (hcount : files.length + 1 < ninodes) (hround : dirEntrySize * (files.length + 2) % blockSize ≠ 0)
    (hm : Mounted m s0)
    (hcalls : Reach (fun s c s' => TreeCall.exec sb arena console s c = some s') (TreeCall.Legal sb) s0 s) :
    Intact sb s := by
  obtain ⟨m1, h, rfl⟩ := (main_spec (Or.inl hcount)).of_ok hrun
  have hboot := h.holds.kernel_intact h.rootUsed (root_length files ▸ hround) hm.blocks hm.listed hm.coherent
  refine hcalls.invariant hboot fun _ _ _ hs hok hexec => ?_
  exact TreeCall.exec_intact ⟨by decide, by decide, by decide⟩ hs hok hexec

/-- A kernel that has just started gets the first input and clears it. -/
theorem kernel_keeps_twoInputs : ∃ m q s, (main twoInputs).run start = .ok () m ∧
    Reach (fun s c s' => TreeCall.exec sb .next (fun _ => (0, [])) s c = some s') (TreeCall.Legal sb)
      ⟨m.blocks, fun _ => ⟨false, 0, 0, false, InodeEntry.zero⟩, [], 0⟩ s ∧
    s.Loaded q ∧ (s.heap q).inodeNo = 2 ∧ s.content sb 2 = [] ∧ Intact sb s := by
  have hfits : Fits twoInputs := ⟨by decide, by decide, by decide, by decide⟩
  obtain ⟨m, hrun, h⟩ := main_fits hfits
  have hm := mounted_boot m.rounded.mapped (fun _ => ⟨false, 0, 0, false, InodeEntry.zero⟩) 0
  have hlt : 2 < m.freeinode := by
    rw [h.freeinode]
    decide
  obtain ⟨q, s, hget, hm', hq, hno⟩ := h.holds.kernel_get hm .next (by decide) hlt (by decide)
    fun _ hq => absurd hq.1 List.not_mem_nil
  have hallocated := hm'.listed.allocated q hq.1
  rw [hno] at hallocated
  have hentry := Coherent.entryOf_eq hm'.coherent hm.coherent (hm.blocks.trans hm'.blocks.symm)
  have hgot : Reach (fun s c s' => TreeCall.exec sb .next (fun _ => (0, [])) s c = some s') (TreeCall.Legal sb) _ s :=
    Reach.start.next (l := .get 2) ((allocated_congr fun _ => by rw [hentry]).mpr hallocated) (by
      rw [TreeCall.exec, TreeCall.run, bind_ok hget]
      rfl)
  have hintact := kernel_keeps_image .next (fun _ => (0, [])) hrun (by decide) (by decide) hm hgot
  obtain ⟨_, s', hclear, hre, -⟩ := (inodeClear_spec ⟨by decide, by decide, by decide⟩ hintact.listed
    hintact.consistent.toUnshared hq).returns fun _ _ he => he
  have hcleared := hgot.next (l := TreeCall.clear q) hq (by rw [TreeCall.exec, TreeCall.run, hclear])
  have hfile : (s.entryOf sb 2).type ≠ inodeDevice := by
    rw [h.holds.kernel_type hm' (by decide) hlt]
    decide
  refine ⟨_, q, s', hrun, hcleared, hre.same.loaded.mpr hq, (hre.same.inodeNo q).trans hno, ?_,
    kernel_keeps_image .next (fun _ => (0, [])) hrun (by decide) (by decide) hm hcleared⟩
  rw [hre.content 2 hallocated hfile, if_pos hno.symm]

end OS2021.User.Mkfs
