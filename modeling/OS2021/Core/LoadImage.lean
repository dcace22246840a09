import OS2021.Core.Exec
import OS2021.Core.ProgramMemory

/-! Loading a program (`loaduvm` and the loop over program headers in `execve`).

Each segment makes the image grow to its end, if it was smaller, by pages that are zero; then
its part of the file is read into the frames, page by page. The image is a function of the
file: the parts of the file laid over zeros. Segments may come in any order and share pages. -/
namespace OS2021.Core
open Fs Lib
open Common (strncmp)

variable {env : Env} {k : Kernel} {ip : Ptr} {r n pages total : Nat} {c : List UInt8} {image : Nat → UInt8}
  {a b : List UInt8}

/-! ### Files -/

section Reads
variable {s : Volume}

/-- The file at `ip` has the bytes `c`, and reading it changes nothing. -/
structure Reads (env : Env) (s : Volume) (ip : Ptr) (c : List UInt8) : Prop where
  small : c.length < 2 ^ 32
  read : ∀ off count, off ≤ c.length → off + count < 2 ^ 64 →
    (inodeRead env.sb env.console ip off count).run s =
      .ok (((c.drop off).take count).length, (c.drop off).take count) s

theorem reads_content (hw : Listed env.sb s) (hc : Unshared env.sb s) (hp : s.Loaded ip)
    (hdev : (s.heap ip).entry.type ≠ inodeDevice) : Reads env s ip (s.content env.sb (s.heap ip).inodeNo) := by
  have hlen : (s.content env.sb (s.heap ip).inodeNo).length = (s.heap ip).entry.numBytes.toNat := by
    rw [Volume.content, elements_length, hw.entryOf hp]
  refine ⟨hlen ▸ UInt32.toNat_lt _, fun off count hoff hn => ?_⟩
  rw [hlen] at hoff
  rw [inodeRead_spec hw hc hp hdev hoff hn, List.length_take, List.length_drop, hlen]

theorem readStruct_run (h : Reads env s ip c) (off : UInt64) (size : Nat) (old : List UInt8)
    (hoff : off.toNat + size ≤ c.length) :
    (readStruct env ip off size old).run s = .ok (size, (c.drop off.toNat).take size ++ old.drop size) s := by
  have hsmall := h.small
  have hlen : ((c.drop off.toNat).take size).length = size := by
    rw [List.length_take, List.length_drop]
    omega
  rw [readStruct, bind_ok (h.read off.toNat size (by omega) (by omega)), hlen]
  rfl

theorem field_append {w i : Nat} (h : w * i + w ≤ a.length) : field w (a ++ b) i = field w a i := by
  rw [field, field, wordAt, wordAt, leNat_congr fun j hj => List.getD_append a b 0 _ (by omega)]

theorem field_take {w i : Nat} (h : w * i + w ≤ n) : field w (c.take n) i = field w c i := by
  rw [field, field, wordAt, wordAt, leNat_congr fun j hj => ?_]
  rw [List.getD_eq_getElem?_getD, List.getElem?_take_of_lt (by omega), List.getD_eq_getElem?_getD]

end Reads

/-! ### Segments -/

/-- What a program header of type `PT_LOAD` says. -/
structure Segment where
  vaddr : Nat
  offset : Nat
  filesz : Nat
  memsz : Nat
  deriving DecidableEq

def segmentOf (ph : List UInt8) : Segment where
  vaddr := (pVaddr ph).toNat
  offset := (pOffset ph).toNat
  filesz := (pFilesz ph).toNat
  memsz := (pMemsz ph).toNat

/-- The end of a segment in memory. -/
def Segment.stop (s : Segment) : Nat := s.vaddr + s.memsz

/-- The part of the file that is loaded, and where. -/
def Segment.piece (c : List UInt8) (s : Segment) : Nat × List UInt8 := (s.vaddr, (c.drop s.offset).take s.filesz)

/-- The segments of `n` program headers from `off` on. -/
def segmentsFrom (c : List UInt8) : (n off : Nat) → List Segment
  | 0, _ => []
  | n + 1, off =>
    let ph := (c.drop off).take phdrSize
    if pType ph = ptLoad then segmentOf ph :: segmentsFrom c n (off + phdrSize) else segmentsFrom c n (off + phdrSize)

def segments (c : List UInt8) : List Segment := segmentsFrom c (ePhnum c).toNat (ePhoff c).toNat

/-- The size of an image of size `sz` after the segments. -/
def sizeAfter (sz : Nat) : List Segment → Nat
  | [] => sz
  | s :: segs => sizeAfter (max sz s.stop) segs

/-- A segment that can be loaded. -/
structure Segment.Fits (s : Segment) (c : List UInt8) : Prop where
  sizes : s.filesz ≤ s.memsz
  nonzero : 0 < s.stop
  small : s.stop < 2 ^ 31
  inside : s.offset + s.filesz ≤ c.length

/-- An ELF file whose segments can be loaded. -/
structure IsElf (c : List UInt8) : Prop where
  header : ehdrSize ≤ c.length
  magic : c.take 4 = elfmag
  table : (ePhoff c).toNat + phdrSize * (ePhnum c).toNat ≤ c.length
  fits : ∀ s ∈ segments c, s.Fits c

/-- No address is in two of the segments. -/
def SegmentsDisjoint (segs : List Segment) : Prop :=
  segs.Pairwise fun s s' => ∀ x, ¬ ((s.vaddr ≤ x ∧ x < s.stop) ∧ s'.vaddr ≤ x ∧ x < s'.stop)

/-! ### `loaduvm` -/

section Loaduvm
variable {va : UInt64} {offset sz : UInt32} {fuel : Nat}

theorem uva2ka_run {m : Memory} {w : UInt64} (hw : m.lookup r (va.toNat / pageSize) = some w)
    (huser : w &&& pteUser ≠ 0) : (uva2ka r va).run m = .ok (some (pteAddress w)) m := by
  obtain ⟨pte, hslot, hvalid, hpte⟩ := (lookup_eq_some ..).mp hw
  rw [uva2ka, bind_ok (pgdirWalk_lookup m r va), hslot]
  dsimp only
  rw [bind_ok (get_run m), hpte, hvalid, if_neg (by decide), if_neg huser]
  rfl

theorem toNat_min {a b : UInt64} : (min a b).toNat = min a.toNat b.toNat := by
  rw [Nat.min_def]
  by_cases hle : a ≤ b
  · rw [if_pos (UInt64.le_iff_toNat_le.mp hle)]
    exact congrArg UInt64.toNat (if_pos hle)
  · rw [if_neg (mt UInt64.le_iff_toNat_le.mpr hle)]
    exact congrArg UInt64.toNat (if_neg hle)

/-- One round reads the rest of a page, or of the segment. -/
theorem loaduvmFrom_round (fuel : Nat) (hread : Reads env k.vol ip c) (h : ProgramMemory env.kend k.mem r pages image)
    (huser : Accessible k.mem r pages) (hz : sz ≠ 0) (hend : va.toNat + sz.toNat ≤ pageSize * pages)
    (hfile : offset.toNat + sz.toNat ≤ c.length) :
    ∃ (cnt : UInt64) (m' : Memory), 0 < cnt.toNat ∧ cnt.toNat ≤ sz.toNat ∧ cnt.toNat ≤ 4096 ∧
      (loaduvmFrom env r ip (fuel + 1) va offset sz).run k =
        (loaduvmFrom env r ip fuel (va + cnt) (offset + cnt.toUInt32) (sz - cnt.toUInt32)).run {k with mem := m'} ∧
      Stored env.kend r pages (overlay image va.toNat ((c.drop offset.toNat).take cnt.toNat)) k.mem m' := by
  have hsmall := hread.small
  have hend' : va.toNat + sz.toNat ≤ 4096 * pages := hend
  have hpos : 0 < sz.toNat := Nat.pos_of_ne_zero fun he => hz (UInt32.toNat_inj.mp he)
  have hpage : va.toNat / 4096 < pages := by omega
  have hdown : (roundDown va).toNat = va.toNat - va.toNat % 4096 := toNat_roundDown va
  have hoff := toNat_sub_roundDown va
  have hsame : (roundDown va).toNat / 4096 = va.toNat / 4096 := by omega
  obtain ⟨w, hw, hpte⟩ := huser _ hpage
  have hwalk : (uva2ka r (roundDown va)).run k.mem = .ok (some (k.mem.frame r (va.toNat / 4096))) k.mem := by
    rw [frame_of_lookup hw]
    exact uva2ka_run (hsame ▸ hw) (user_of_userData hpte)
  obtain ⟨cnt, hcnt⟩ : ∃ cnt, min (4096 - (va - roundDown va)) sz.toUInt64 = cnt := ⟨_, rfl⟩
  have hcount : cnt.toNat = min (4096 - va.toNat % 4096) sz.toNat := by
    rw [← hcnt, toNat_min, UInt64.toNat_sub_of_le _ _ (by rw [UInt64.le_iff_toNat_le, hoff]; show _ ≤ 4096; omega),
      hoff, UInt32.toNat_toUInt64]
    rfl
  have hlen : ((c.drop offset.toNat).take cnt.toNat).length = cnt.toNat := by
    rw [List.length_take, List.length_drop]
    omega
  have hread1 := hread.read offset.toNat cnt.toNat (by omega) (by omega)
  rw [hlen] at hread1
  have hin : va.toNat % 4096 + ((c.drop offset.toNat).take cnt.toNat).length ≤ pageSize := by
    rw [hlen]
    show _ ≤ 4096
    omega
  have hstored := h.setBytes hpage hin
  have haddr : pageSize * (va.toNat / 4096) + va.toNat % 4096 = va.toNat := Nat.div_add_mod ..
  rw [haddr] at hstored
  refine ⟨cnt, _, by omega, by omega, by omega, ?_, hstored⟩
  rw [loaduvmFrom, if_neg hz, bind_ok (onMem_run hwalk)]
  dsimp only
  rw [hcnt, bind_ok (onVol_run hread1), hoff, bind_ok (onMem_run (modify_run _ _)), if_neg (not_not.mpr rfl)]

/-- The part of the file is in memory, whatever pages it spans. -/
theorem loaduvmFrom_run (va : UInt64) (offset sz : UInt32) (hread : Reads env k.vol ip c)
    (h : ProgramMemory env.kend k.mem r pages image) (huser : Accessible k.mem r pages) (hfuel : sz.toNat < fuel)
    (hend : va.toNat + sz.toNat ≤ pageSize * pages)
    (hfile : offset.toNat + sz.toNat ≤ c.length) :
    ∃ m', (loaduvmFrom env r ip fuel va offset sz).run k = .ok true {k with mem := m'} ∧
      Stored env.kend r pages (overlay image va.toNat ((c.drop offset.toNat).take sz.toNat)) k.mem m' := by
  have hsmall := hread.small
  have hpages := h.space.pages_le
  induction fuel generalizing k image va offset sz with
  | zero => omega
  | succ fuel ih =>
    by_cases hz : sz = 0
    · refine ⟨k.mem, by rw [loaduvmFrom, if_pos hz]; rfl, ?_⟩
      rw [hz, UInt32.toNat_zero, List.take_zero, overlay_nil]
      exact h.stored
    · obtain ⟨cnt, m1, hpos, hle, hle', hrun, hstored⟩ := loaduvmFrom_round fuel hread h huser hz hend hfile
      have hend' : va.toNat + sz.toNat ≤ 4096 * pages := hend
      have hcnt : cnt.toUInt32.toNat = cnt.toNat := by
        rw [UInt64.toNat_toUInt32]
        exact Nat.mod_eq_of_lt (by omega)
      have hva : (va + cnt).toNat = va.toNat + cnt.toNat := by
        rw [UInt64.toNat_add]
        exact Nat.mod_eq_of_lt (by omega)
      have hoffset : (offset + cnt.toUInt32).toNat = offset.toNat + cnt.toNat := by
        rw [UInt32.toNat_add, hcnt]
        exact Nat.mod_eq_of_lt (by omega)
      have hsz : (sz - cnt.toUInt32).toNat = sz.toNat - cnt.toNat := by
        rw [UInt32.toNat_sub_of_le _ _ (by rw [UInt32.le_iff_toNat_le, hcnt]; exact hle), hcnt]
      obtain ⟨m', hrun', hstored'⟩ := ih (k := {k with mem := m1}) (va + cnt) (offset + cnt.toUInt32)
        (sz - cnt.toUInt32) hread hstored.program (fun n hn => by rw [hstored.lookup]; exact huser n hn) (by omega)
        (by omega) (by omega)
      refine ⟨m', hrun.trans hrun', ?_⟩
      have hlen : ((c.drop offset.toNat).take cnt.toNat).length = cnt.toNat := by
        rw [List.length_take, List.length_drop]
        omega
      have hsplit : (c.drop offset.toNat).take sz.toNat = (c.drop offset.toNat).take cnt.toNat ++
          (c.drop (offset.toNat + cnt.toNat)).take (sz.toNat - cnt.toNat) := by
        rw [← List.drop_drop, ← List.take_add, Nat.add_sub_cancel' hle]
      have hplace : (va + cnt).toNat = va.toNat + ((c.drop offset.toNat).take cnt.toNat).length := by rw [hlen, hva]
      rw [hplace, hoffset, hsz, overlay_overlay, ← hsplit] at hstored'
      exact hstored.trans hstored'

end Loaduvm

/-! ### The loop over program headers -/

/-- An image of size `sz` that shows `image`, made of pages that were free in `m0`, with pages
enough to grow to `total`. -/
structure Loading (kend : Nat) (m0 m : Memory) (r sz total : Nat) (image : Nat → UInt8) : Prop where
  program : ProgramMemory kend m r (pageCount sz) image
  made : MadeFrom m0 m r (pageCount sz)
  user : Accessible m r (pageCount sz)
  zero : ∀ x, pageSize * pageCount sz ≤ x → image x = 0
  room : Suffices m r (pageCount sz) (pageCount total)

theorem le_pageCount (a : Nat) : a ≤ pageSize * pageCount a := by
  show a ≤ 4096 * ((a + 4095) / 4096)
  omega

namespace Loading
variable {kend : Nat} {m0 m : Memory} {sz : UInt64}

/-- The image grows to the end of a segment that lies behind it. -/
theorem alloc (h : Loading kend m0 m r sz.toNat total image) (newsz : UInt64) (htotal : total < 2 ^ 31)
    (hsz : sz.toNat ≤ total) (hnew : newsz.toNat ≤ total) :
    ∃ res m', (uvmAlloc kend r sz newsz).run m = .ok res m' ∧ (ofInt res).toNat = max sz.toNat newsz.toNat ∧
      Loading kend m0 m' r (max sz.toNat newsz.toNat) total image := by
  by_cases hlt : newsz < sz
  · have hmax : max sz.toNat newsz.toNat = sz.toNat := Nat.max_eq_left (UInt64.lt_iff_toNat_lt.mp hlt).le
    refine ⟨toInt sz, m, by rw [uvmAlloc, if_pos hlt]; rfl, ?_, ?_⟩
    · rw [ofInt_toInt (by omega), hmax]
    · rw [hmax]
      exact h
  · have hle : sz ≤ newsz := UInt64.not_lt.mp hlt
    have hle' := UInt64.le_iff_toNat_le.mp hle
    have hmax : max sz.toNat newsz.toNat = newsz.toNat := Nat.max_eq_right hle'
    have hpages := pageCount_mono hnew
    obtain ⟨m', fs, tabs, hrun, hcount, hfill⟩ := h.program.space.alloc hle (by omega) h.room hpages
    have hbound : pageCount sz.toNat + fs.length ≤ 2 ^ 36 := by
      rw [hcount]
      show (newsz.toNat + 4095) / 4096 ≤ 2 ^ 36
      omega
    refine ⟨toInt newsz, m', hrun, ?_, ?_⟩
    · rw [ofInt_toInt (by omega), hmax]
    · rw [hmax]
      refine ⟨hcount ▸ h.program.grow h.zero hbound hfill, hcount ▸ h.made.grow h.program.space hbound hfill,
        hcount ▸ (h.program.space.grow hbound hfill).accessible h.user, fun x hx => h.zero x (le_trans ?_ hx),
        hcount ▸ h.room.grow hfill (by omega)⟩
      exact Nat.mul_le_mul_left pageSize (pageCount_mono hle')

theorem stored {m' : Memory} {image' : Nat → UInt8} {size : Nat} (h : Loading kend m0 m r size total image)
    (hs : Stored kend r (pageCount size) image' m m') (hzero : ∀ x, pageSize * pageCount size ≤ x → image' x = 0) :
    Loading kend m0 m' r size total image' := by
  refine ⟨hs.program, h.made.stored hs, fun n hn => by rw [hs.lookup]; exact h.user n hn, hzero, ?_⟩
  have hmissing : ∀ k j, m'.missing r (pathsOf k j) = m.missing r (pathsOf k j) := fun k j =>
    congrArg Finset.card (Finset.filter_congr fun π hπ => by rw [hs.table π (length_of_mem_pathsOf hπ)])
  rw [Suffices, hmissing, hs.free]
  exact h.room

end Loading

/-! The fields of a header are within its 56 bytes. -/

theorem pType_append (h : a.length = phdrSize) : pType (a ++ b) = pType a :=
  field_append (by rw [h]; decide)

theorem segmentOf_append (h : a.length = phdrSize) : segmentOf (a ++ b) = segmentOf a := by
  have hfield : ∀ i, i < 7 → field 8 (a ++ b) i = field 8 a i := fun i hi =>
    field_append (by rw [h]; show 8 * i + 8 ≤ 56; omega)
  simp only [segmentOf, pVaddr, pOffset, pFilesz, pMemsz, hfield 1 (by decide), hfield 2 (by decide),
    hfield 4 (by decide), hfield 5 (by decide)]

section Segments
variable {m0 : Memory} {off sz : UInt64} {ph : List UInt8}

/-- One segment: the image grows to its end, and its part of the file is laid over it. -/
theorem loadSegment_run {vaddr offset filesz memsz : UInt64} (hread : Reads env k.vol ip c)
    (h : Loading env.kend m0 k.mem r sz.toNat total image) (hsizes : filesz.toNat ≤ memsz.toNat)
    (hinside : offset.toNat + filesz.toNat ≤ c.length) (hstop : vaddr.toNat + memsz.toNat ≤ total)
    (htotal : total < 2 ^ 31) (hsz : sz.toNat ≤ total) :
    ∃ res m1 m', (uvmAlloc env.kend r sz (vaddr + memsz)).run k.mem = .ok res m1 ∧
      (ofInt res).toNat = max sz.toNat (vaddr.toNat + memsz.toNat) ∧
      (loaduvm env r ip vaddr offset.toUInt32 filesz.toUInt32).run {k with mem := m1} = .ok true {k with mem := m'} ∧
      Loading env.kend m0 m' r (max sz.toNat (vaddr.toNat + memsz.toNat)) total
        (overlay image vaddr.toNat ((c.drop offset.toNat).take filesz.toNat)) := by
  have hsmall := hread.small
  have hnew : (vaddr + memsz).toNat = vaddr.toNat + memsz.toNat := by
    rw [UInt64.toNat_add]
    exact Nat.mod_eq_of_lt (by omega)
  have hoffset : offset.toUInt32.toNat = offset.toNat := by
    rw [UInt64.toNat_toUInt32]
    exact Nat.mod_eq_of_lt (by omega)
  have hfilesz : filesz.toUInt32.toNat = filesz.toNat := by
    rw [UInt64.toNat_toUInt32]
    exact Nat.mod_eq_of_lt (by omega)
  obtain ⟨res, m1, halloc, hres, h1⟩ := h.alloc (vaddr + memsz) htotal hsz (by rw [hnew]; exact hstop)
  rw [hnew] at hres h1
  have hend : vaddr.toNat + filesz.toNat ≤ pageSize * pageCount (max sz.toNat (vaddr.toNat + memsz.toNat)) :=
    le_trans (by omega) (le_pageCount _)
  obtain ⟨m', hload, hstored⟩ := loaduvmFrom_run (k := {k with mem := m1}) vaddr offset.toUInt32 filesz.toUInt32
    hread h1.program h1.user (Nat.lt_succ_self _) (by rw [hfilesz]; exact hend)
    (by rw [hoffset, hfilesz]; exact hinside)
  rw [hoffset, hfilesz] at hstored
  refine ⟨res, m1, m', halloc, hres, hload, h1.stored hstored fun x hx => ?_⟩
  rw [overlay_outside fun hin => ?_, h1.zero x hx]
  rw [List.length_take, List.length_drop] at hin
  omega

theorem loadSegments_run (off : UInt64) (ph : List UInt8) (hread : Reads env k.vol ip c)
    (h : Loading env.kend m0 k.mem r sz.toNat total image)
    (htable : off.toNat + phdrSize * n ≤ c.length)
    (hfits : ∀ s ∈ segmentsFrom c n off.toNat, s.Fits c ∧ s.stop ≤ total) (htotal : total < 2 ^ 31)
    (hsz : sz.toNat ≤ total) :
    ∃ sz' m', (loadSegments env r ip n off ph sz).run k = .ok (some sz') {k with mem := m'} ∧
      sz'.toNat = sizeAfter sz.toNat (segmentsFrom c n off.toNat) ∧
      Loading env.kend m0 m' r sz'.toNat total
        (overlays image ((segmentsFrom c n off.toNat).map (Segment.piece c))) := by
  have hsmall := hread.small
  induction n generalizing k off ph sz image with
  | zero => exact ⟨sz, k.mem, rfl, rfl, h⟩
  | succ n ih =>
    have htable' : off.toNat + 56 * (n + 1) ≤ c.length := htable
    have hnext : (off + .ofNat phdrSize).toNat = off.toNat + phdrSize := by
      rw [UInt64.toNat_add]
      exact Nat.mod_eq_of_lt (by show off.toNat + 56 < _; omega)
    obtain ⟨hdr, hhdr⟩ : ∃ hdr, (c.drop off.toNat).take phdrSize = hdr := ⟨_, rfl⟩
    have hlen : hdr.length = phdrSize := by
      rw [← hhdr, List.length_take, List.length_drop]
      show min 56 _ = 56
      omega
    have hstruct := readStruct_run hread off phdrSize ph (by show _ + 56 ≤ _; omega)
    rw [hhdr] at hstruct
    rw [segmentsFrom, hhdr] at hfits ⊢
    rw [loadSegments, bind_ok (onVol_run hstruct)]
    dsimp only at hfits ⊢
    rw [if_neg (not_not.mpr rfl), pType_append hlen]
    by_cases hload : pType hdr = ptLoad
    · rw [if_pos hload] at hfits ⊢
      obtain ⟨hfit, hstop⟩ := hfits _ List.mem_cons_self
      rw [← segmentOf_append (b := ph.drop phdrSize) hlen] at hfit hstop hfits ⊢
      obtain ⟨ph', hph'⟩ : ∃ ph', hdr ++ ph.drop phdrSize = ph' := ⟨_, rfl⟩
      rw [hph'] at hfit hstop hfits ⊢
      have hdef : (segmentOf ph').stop = (pVaddr ph').toNat + (pMemsz ph').toNat := rfl
      have hpiece : (segmentOf ph').piece c =
        ((pVaddr ph').toNat, (c.drop (pOffset ph').toNat).take (pFilesz ph').toNat) := rfl
      have hnonzero := hfit.nonzero
      rw [sizeAfter, List.map_cons, overlays, hdef, hpiece]
      dsimp only
      rw [hdef] at hstop hnonzero
      obtain ⟨res, m1, m2, halloc, hres, hloaded, h2⟩ :=
        loadSegment_run hread h hfit.sizes hfit.inside hstop htotal hsz
      have hres0 : ofInt res ≠ 0 := fun he => by
        rw [he, UInt64.toNat_zero] at hres
        omega
      rw [← hres] at h2
      obtain ⟨sz', m', hrun, hsize, h'⟩ := ih (k := {k with mem := m2}) (off + .ofNat phdrSize) ph' hread h2
        (by rw [hnext]; show _ + 56 + 56 * n ≤ _; omega)
        (fun s hs => hfits s (List.mem_cons_of_mem _ (hnext ▸ hs))) (by omega)
      rw [hnext] at hsize h'
      rw [hres] at hsize
      refine ⟨sz', m', ?_, hsize, h'⟩
      rw [if_neg (not_not.mpr hload), if_neg (by rw [UInt64.lt_iff_toNat_lt]; exact not_lt.mpr hfit.sizes),
        bind_ok (onMem_run halloc), if_neg hres0, bind_ok hloaded]
      exact hrun
    · rw [if_neg hload] at hfits ⊢
      rw [if_pos hload, ← hnext]
      exact ih _ _ hread h (by rw [hnext]; show _ + 56 + 56 * n ≤ _; omega) (hnext ▸ hfits) hsz

end Segments

theorem le_sizeAfter (sz : Nat) (segs : List Segment) :
    sz ≤ sizeAfter sz segs ∧ ∀ s ∈ segs, s.stop ≤ sizeAfter sz segs := by
  induction segs generalizing sz with
  | nil => exact ⟨Nat.le_refl sz, nofun⟩
  | cons t segs ih =>
    obtain ⟨hle, hall⟩ := ih (max sz t.stop)
    refine ⟨le_trans (Nat.le_max_left ..) hle, fun s hs => ?_⟩
    rcases List.mem_cons.mp hs with rfl | hs
    · exact le_trans (Nat.le_max_right ..) hle
    · exact hall s hs

theorem sizeAfter_lt {b sz : Nat} {segs : List Segment} (hsz : sz < b) (h : ∀ s ∈ segs, s.stop < b) :
    sizeAfter sz segs < b := by
  induction segs generalizing sz with
  | nil => exact hsz
  | cons t segs ih =>
    exact ih (Nat.max_lt.mpr ⟨hsz, h t List.mem_cons_self⟩) fun s hs => h s (List.mem_cons_of_mem t hs)

/-! ### The image -/

/-- How many pages a program of the given size takes: the directory, the frames and the tables. -/
def imagePages (sz : Nat) : Nat := 1 + pageCount sz + (pathsOf 0 (pageCount sz)).card

theorem strncmp_elfmag {l : List UInt8} : strncmp (elfmag ++ l) elfmag 4 = 0 := rfl

/-- The whole of `loadImage`, with room for `total` bytes. -/
theorem loadImage_run (hread : Reads env k.vol ip c) (helf : IsElf c) (hnodup : k.mem.free.Nodup)
    (hpage : ∀ p ∈ k.mem.free, IsPage env.kend p) (htotal : total < 2 ^ 31) (hle : sizeAfter 0 (segments c) ≤ total)
    (hroom : imagePages total ≤ k.mem.free.length) :
    ∃ pgdir sz m', (loadImage env ip).run k = .ok (.ok ⟨pgdir, sz, eEntry c⟩) {k with mem := m'} ∧
      sz.toNat = sizeAfter 0 (segments c) ∧
      Loading env.kend k.mem m' pgdir sz.toNat total
        (overlays (fun _ => 0) ((segments c).map (Segment.piece c))) := by
  obtain ⟨pgdir, rest, hfree⟩ : ∃ pgdir rest, k.mem.free = pgdir :: rest := by
    refine List.exists_cons_of_ne_nil fun hnil => ?_
    rw [hnil, imagePages, List.length_nil] at hroom
    omega
  obtain ⟨hprogram, hmade⟩ := programMemory_taken hfree hnodup hpage
  have h0 : Loading env.kend k.mem (k.mem.taken pgdir rest) pgdir (0 : UInt64).toNat total fun _ => 0 := by
    refine ⟨hprogram, hmade, fun n hn => absurd hn (Nat.not_lt_zero n), fun _ _ => rfl, ?_⟩
    have hcard := missing_le_card (k.mem.taken pgdir rest) pgdir (pathsOf 0 (pageCount total))
    rw [imagePages, hfree, List.length_cons] at hroom
    show pageCount total - 0 + (k.mem.taken pgdir rest).missing pgdir (pathsOf 0 (pageCount total - 0)) ≤ rest.length
    rw [Nat.sub_zero]
    omega
  obtain ⟨elf, helf'⟩ : ∃ elf, c.take ehdrSize ++ (env.locals 8).drop ehdrSize = elf := ⟨_, rfl⟩
  have hlen : (c.take ehdrSize).length = ehdrSize := List.length_take_of_le helf.header
  have hfield : ∀ w i, w * i + w ≤ ehdrSize → field w elf i = field w c i := fun w i hi => by
    rw [← helf', field_append (by rw [hlen]; exact hi), field_take hi]
  have hstruct := readStruct_run hread 0 ehdrSize (env.locals 8)
    (by rw [UInt64.toNat_zero, Nat.zero_add]; exact helf.header)
  rw [UInt64.toNat_zero, List.drop_zero, helf'] at hstruct
  have hphnum : ePhnum elf = ePhnum c := hfield 2 28 (by decide)
  have hphoff : ePhoff elf = ePhoff c := hfield 8 4 (by decide)
  have hentry : eEntry elf = eEntry c := hfield 8 3 (by decide)
  have hinit : pgdirInit.run k.mem = .ok (some pgdir) (k.mem.taken pgdir rest) :=
    (kalloc_run k.mem).trans (by rw [hfree])
  have hmagic : strncmp elf elfmag 4 = 0 := by
    have htake : elf.take 4 = elfmag := by
      rw [← helf', List.take_append_of_le_length (by rw [hlen]; decide), List.take_take, ← helf.magic]
      rfl
    rw [← List.take_append_drop 4 elf, htake]
    exact strncmp_elfmag
  obtain ⟨sz, m', hrun, hsize, h'⟩ := loadSegments_run (k := {k with mem := k.mem.taken pgdir rest})
    (n := (ePhnum c).toNat) (ePhoff c) (env.locals 9) hread h0 helf.table
    (fun s hs => ⟨helf.fits s hs, le_trans ((le_sizeAfter 0 _).2 s hs) hle⟩) htotal (Nat.zero_le _)
  refine ⟨pgdir, sz, m', ?_, hsize, h'⟩
  rw [loadImage, bind_ok (onVol_run hstruct)]
  dsimp only
  rw [if_neg (Nat.lt_irrefl _), if_neg (not_not.mpr hmagic), bind_ok (onMem_run hinit)]
  dsimp only
  rw [hphnum, hphoff, hentry, bind_ok hrun]
  rfl

theorem covers_piece {s : Segment} (h : s.Fits c) {x : Nat} :
    Covers (s.piece c) x ↔ s.vaddr ≤ x ∧ x < s.vaddr + s.filesz := by
  have hinside := h.inside
  have hlen : (s.piece c).2.length = s.filesz := by
    show ((c.drop s.offset).take s.filesz).length = s.filesz
    rw [List.length_take, List.length_drop]
    omega
  rw [Covers, hlen]
  rfl

/-- **A program is loaded as its file says.** The segments may come in any order, need not be
aligned and may share pages. If they are disjoint and memory suffices, each has its bytes of
the file where it says, and all the rest of the image is zero. -/
theorem loadImage_loads (env : Env) (k : Kernel) (ip : Ptr) (c : List UInt8) (hlisted : Listed env.sb k.vol)
    (hunshared : Unshared env.sb k.vol) (hloaded : k.vol.Loaded ip)
    (hdev : (k.vol.heap ip).entry.type ≠ inodeDevice) (hc : k.vol.content env.sb (k.vol.heap ip).inodeNo = c)
    (helf : IsElf c) (hdisjoint : SegmentsDisjoint (segments c)) (hnodup : k.mem.free.Nodup)
    (hpage : ∀ p ∈ k.mem.free, IsPage env.kend p)
    (hroom : imagePages (sizeAfter 0 (segments c)) ≤ k.mem.free.length) :
    ∃ pgdir sz m', (loadImage env ip).run k = .ok (.ok ⟨pgdir, sz, eEntry c⟩) {k with mem := m'} ∧
      sz.toNat = sizeAfter 0 (segments c) ∧
      (∀ s ∈ segments c, m'.HasBytes pgdir s.vaddr ((c.drop s.offset).take s.filesz)) ∧
      ∀ x < sz.toNat, (∀ s ∈ segments c, ¬ (s.vaddr ≤ x ∧ x < s.vaddr + s.filesz)) → m'.user pgdir x = some 0 := by
  have hread := reads_content hlisted hunshared hloaded hdev
  rw [hc] at hread
  have hsmall : sizeAfter 0 (segments c) < 2 ^ 31 := sizeAfter_lt (by decide) fun s hs => (helf.fits s hs).small
  obtain ⟨pgdir, sz, m', hrun, hsize, h⟩ := loadImage_run hread helf hnodup hpage hsmall le_rfl hroom
  have hapart : ((segments c).map (Segment.piece c)).Pairwise fun p q => ∀ x, Covers p x → ¬ Covers q x := by
    rw [List.pairwise_map]
    refine hdisjoint.imp_of_mem fun {s s'} hs hs' hne x hx hx' => hne x ?_
    rw [covers_piece (helf.fits s hs)] at hx
    rw [covers_piece (helf.fits s' hs')] at hx'
    have hle := (helf.fits s hs).sizes
    have hle' := (helf.fits s' hs').sizes
    rw [Segment.stop, Segment.stop]
    omega
  refine ⟨pgdir, sz, m', hrun, hsize, fun s hs => ?_, fun x hx hout => ?_⟩
  · refine hasBytes_piece h.program.bytes hapart (List.mem_map_of_mem hs) (le_trans ?_ (le_pageCount _))
    have hstop : s.vaddr + s.memsz ≤ _ := (le_sizeAfter 0 _).2 s hs
    have hsizes := (helf.fits s hs).sizes
    have hlen : ((c.drop s.offset).take s.filesz).length ≤ s.filesz := List.length_take_le ..
    show s.vaddr + ((c.drop s.offset).take s.filesz).length ≤ _
    omega
  · rw [h.program.bytes x (lt_of_lt_of_le hx (le_pageCount _)), overlays_outside fun p hp => ?_]
    obtain ⟨s, hs, rfl⟩ := List.mem_map.mp hp
    rw [covers_piece (helf.fits s hs)]
    exact hout s hs

/-! ### A file with two segments -/

/-- The first segment ends in the second page; the second is below it in the first page. -/
def twoSegments : List UInt8 := wordBytes [0x464c457f, 0, 0, 0x10, 64, 0, 0, 2,
  1, 176, 0xff0, 0, 32, 64, 0,
  1, 208, 0x10, 0, 4, 4, 0] ++ List.replicate 32 65 ++ List.replicate 304 66

theorem twoSegments_segments : segments twoSegments = [⟨0xff0, 176, 32, 64⟩, ⟨0x10, 208, 4, 4⟩] := by decide +kernel

theorem twoSegments_isElf : IsElf twoSegments := by
  refine ⟨by decide +kernel, by decide, by decide +kernel, fun s hs => ?_⟩
  rw [twoSegments_segments] at hs
  rcases List.mem_pair.mp hs with rfl | rfl
  · exact ⟨by decide, by decide, by decide, by decide +kernel⟩
  · exact ⟨by decide, by decide, by decide, by decide +kernel⟩

/-- A disk whose only file has the 512 bytes `c`. -/
def holding (c : List UInt8) : Volume := (oneFile oneBlockFile).setBlock 7 (overwrite zeroBlock 0 c)

section Holding
variable {c : List UInt8}

theorem holding_entryOf {i : Nat} (hi : i ≤ 3) :
    (holding c).entryOf oneBlockDisk i = (oneFile oneBlockFile).entryOf oneBlockDisk i :=
  entryOf_setBlock oneBlockDisk_layout (by decide) hi

theorem holding_addr (a : Nat × Slot) :
    (holding c).addr oneBlockDisk a = (oneFile oneBlockFile).addr oneBlockDisk a := by
  refine addr_congr (fun hi => holding_entryOf hi) fun _ hne => absurd ?_ hne
  have hslot : (a.1, Slot.table) ≠ (1, Slot.direct 0) := fun he => nomatch (Prod.mk.inj he).2
  rw [oneFile_one.addr_eq, if_neg hslot]

theorem holding_intact : Intact oneBlockDisk (holding c) := by
  have hlisted : Listed oneBlockDisk (oneFile oneBlockFile) := oneFile_listed
  obtain ⟨hnodup, hunique, hnumbered, hallocated, hunlocked⟩ := hlisted
  refine ⟨?consistent, ⟨hnodup, hunique, hnumbered, fun p hp => ?allocated, hunlocked⟩, fun _ _ => ?coherent⟩
  case consistent =>
    refine oneFile_consistent.congr (fun i hi => holding_entryOf hi) holding_addr fun x hx => ?_
    have hx' : x < 8 := hx
    have hblock : bitmapBlock oneBlockDisk x = 5 := by
      rw [bitmapBlock, Nat.div_eq_of_lt (hx'.trans (by decide))]
      rfl
    exact mem_used_congr (setBlock_of_ne (by rw [hblock]; decide))
  case allocated =>
    exact (allocated_congr fun hi => congrArg InodeEntry.type (holding_entryOf hi)).mpr (hallocated p hp)
  case coherent =>
    have hblock : (holding c).blocks (toBlockNo oneBlockDisk 1) = _ := setBlock_of_ne (by decide)
    show (holding c).diskEntry oneBlockDisk 1 = oneBlockFile
    rw [Volume.diskEntry, hblock]
    exact oneFile_diskEntry

theorem holding_content (hlen : c.length = 512) : (holding c).content oneBlockDisk 1 = c := by
  have hsize : ((holding c).entryOf oneBlockDisk 1).numBytes.toNat = c.length := by
    rw [holding_entryOf (by decide), hlen]
    rfl
  have haddr : (holding c).addr oneBlockDisk (1, blockSlot 0) = 7 := by
    rw [holding_addr, oneFile_one.addr_eq]
    rfl
  rw [Volume.content, hsize]
  refine (elements_congr fun j hj => ?_).trans (elements_getD c 0)
  have hj' : j < blockSize := by rwa [hlen] at hj
  have hblock : (holding c).blocks 7 = overwrite zeroBlock 0 c := setBlock_self
  rw [Volume.byteAt, Nat.div_eq_of_lt hj', haddr, Nat.mod_eq_of_lt hj', bytes_of_lt hj', hblock, overwrite,
    if_pos ⟨Nat.zero_le _, by rw [Nat.zero_add]; exact hj⟩, Nat.sub_zero]

end Holding

/-- A disk whose only file it is, and free pages. -/
def loader : Kernel where
  vol := holding twoSegments
  mem := roomyMemory
  procs := Containers.zero
  ftable := fun _ => ⟨.none, 0, false, false, 0, 0⟩
  outstanding := 0

/-- Byte 0x10 of memory is from the second segment, byte 0x100f from the first, byte 0x14 from neither. -/
theorem loadImage_loads_two : ∃ pgdir sz k', (loadImage smallEnv 1).run loader = .ok (.ok ⟨pgdir, sz, 0x10⟩) k' ∧
    sz.toNat = 0x1030 ∧ k'.mem.user pgdir 0x10 = some 66 ∧ k'.mem.user pgdir 0x100f = some 65 ∧
    k'.mem.user pgdir 0x14 = some 0 := by
  have hsize : sizeAfter 0 (segments twoSegments) = 0x1030 := by
    rw [twoSegments_segments]
    decide
  have hdisjoint : SegmentsDisjoint (segments twoSegments) := by
    rw [twoSegments_segments]
    refine List.pairwise_pair.mpr fun x hx => ?_
    have hin : (0xff0 ≤ x ∧ x < 0xff0 + 64) ∧ 0x10 ≤ x ∧ x < 0x10 + 4 := hx
    omega
  have hroom : imagePages 0x1030 ≤ loader.mem.free.length := by
    have hcard := card_pathsOf_le 0 (pageCount 0x1030)
    have hcount : pageCount 0x1030 = 2 := by decide
    have hlen : loader.mem.free.length = 12 := rfl
    rw [imagePages, hlen]
    omega
  obtain ⟨pgdir, sz, m', hrun, hsz, hbytes, hzero⟩ := loadImage_loads smallEnv loader 1 twoSegments
    holding_intact.listed holding_intact.consistent.toUnshared ⟨⟨List.mem_singleton.mpr rfl, Int.zero_lt_one⟩, rfl⟩
    (by decide) (holding_content (by decide +kernel)) twoSegments_isElf hdisjoint (by decide) (by decide)
    (by rw [hsize]; exact hroom)
  rw [hsize] at hsz
  rw [twoSegments_segments] at hbytes hzero
  have hlow := hbytes _ (List.mem_cons_of_mem _ List.mem_cons_self) 0 (by decide +kernel)
  have hhigh := hbytes _ List.mem_cons_self 31 (by decide +kernel)
  have hentry : eEntry twoSegments = 0x10 := by decide +kernel
  rw [hentry] at hrun
  refine ⟨pgdir, sz, _, hrun, hsz, hlow.trans (by decide +kernel), hhigh.trans (by decide +kernel),
    hzero 0x14 (by rw [hsz]; decide) fun s hs => ?_⟩
  rcases List.mem_pair.mp hs with rfl | rfl
  · decide
  · decide

end OS2021.Core
