import OS2021.Core.Copyout
import OS2021.Core.UserMemory
import OS2021.Core.UvmCopy
import OS2021.Lib.Overlay

/-! What a program finds in its memory.

`ProgramMemory` says that the first pages of an address space are mapped, to frames of their
own, and which bytes they show. The kernel writes to these frames by their physical addresses.
Since no frame is shared and none is a table, a write shows at the addresses it is meant for
and nowhere else (`ProgramMemory.setBytes`). -/
namespace OS2021.Core
open Fs Lib

variable {kend r n p x y pages old new : Nat} {m m' m1 : Memory} {w w' : UInt64} {bs : List UInt8}
  {image image' : Nat → UInt8}

/-! ### Pages and their bytes -/

theorem word_ext (h : ∀ k < 8, wordByte w k = wordByte w' k) : w = w' := by
  have hbytes : (List.range 8).map (wordByte w) = (List.range 8).map (wordByte w') :=
    List.map_congr_left fun k hk => h k (List.mem_range.mp hk)
  rw [← ofNat_leNat_wordByte w, hbytes, ofNat_leNat_wordByte]

/-- A byte of a page is read from that page. -/
theorem byte_page {o : Nat} (hp : p % pageSize = 0) (ho : o < pageSize) :
    m.byte (p + o) = wordByte (m.page p (wordIndex (p + o))) ((p + o) % 8) := by
  have hpage : (p + o) / 4096 * 4096 = p := by
    have hp' : p % 4096 = 0 := hp
    have ho' : o < 4096 := ho
    omega
  exact congrArg (fun q => wordByte (m.page q (wordIndex (p + o))) ((p + o) % 8)) hpage

/-- A page with the same bytes is the same. -/
theorem page_ext (hp : p % pageSize = 0) (h : ∀ o < pageSize, m'.byte (p + o) = m.byte (p + o)) :
    m'.page p = m.page p := by
  have hp' : p % 4096 = 0 := hp
  funext i
  refine word_ext fun k hk => ?_
  have hi : (i : Nat) < 512 := i.isLt
  have ho : 8 * (i : Nat) + k < pageSize := by
    show _ < 4096
    omega
  have hword : wordIndex (p + (8 * i + k)) = i := by
    apply Fin.ext
    show (p + (8 * i + k)) % 4096 / 8 = i
    omega
  have hmod : (p + (8 * i + k)) % 8 = k := by omega
  have hbyte : ∀ m : Memory, m.byte (p + (8 * i + k)) = wordByte (m.page p i) k := fun m => by
    rw [byte_page hp ho, hword, hmod]
  rw [← hbyte, ← hbyte]
  exact h _ ho

theorem wordByte_zero (k : Nat) : wordByte 0 k = 0 := by
  rw [wordByte, UInt64.zero_shiftRight]
  rfl

theorem user_of_mapped (h : m.lookup r (x / pageSize) ≠ none) : m.user r x = some (m.byte (m.target r x)) := by
  obtain ⟨w, hw⟩ := Option.ne_none_iff_exists'.mp h
  rw [Memory.user, hw, Memory.target, frame_of_lookup hw]
  rfl

theorem user_congr (hlookup : m'.lookup r (x / pageSize) = m.lookup r (x / pageSize))
    (hpage : m'.page (m.frame r (x / pageSize)) = m.page (m.frame r (x / pageSize))) : m'.user r x = m.user r x := by
  rw [Memory.user, Memory.user, hlookup]
  cases hw : m.lookup r (x / pageSize) with
  | none => rfl
  | some w =>
    rw [frame_of_lookup hw] at hpage
    rw [Option.map_some, Option.map_some, byte_page (pteAddress_mod w) (Nat.mod_lt _ (by decide)), hpage,
      ← byte_page (pteAddress_mod w) (Nat.mod_lt _ (by decide))]

/-- A piece of an image is read back, if no other piece lies over it. -/
theorem hasBytes_piece {ps : List (Nat × List UInt8)} {q : Nat × List UInt8} {stop : Nat}
    (hbytes : ∀ x < stop, m.user r x = some (overlays image ps x))
    (hapart : ps.Pairwise fun p q => ∀ x, Covers p x → ¬ Covers q x) (hq : q ∈ ps) (hend : q.1 + q.2.length ≤ stop) :
    m.HasBytes r q.1 q.2 := fun j hj => by
  rw [hbytes _ (by omega), overlays_inside hapart hq hj, List.getElem?_eq_getElem hj]

/-! ### Programs -/

theorem UserSpace.pages_le (h : UserSpace kend m r pages) : pages ≤ 0x3F000 := by
  have hmem : ∀ p ∈ m.framesOf r 0 pages, ∃ n < pages, m.frame r n = p := fun p hp => by
    obtain ⟨n, hn, rfl⟩ := List.mem_map.mp hp
    rw [List.mem_range'_1, Nat.zero_add] at hn
    exact ⟨n, hn.2, rfl⟩
  have hnodup : (m.framesOf r 0 pages).Nodup := by
    refine List.Nodup.map_on (fun n hn n' hn' he => ?_) List.nodup_range'
    rw [List.mem_range'_1] at hn hn'
    exact h.backed.distinct n n' hn.1 hn.2 hn'.1 hn'.2 he
  have hlen : (m.framesOf r 0 pages).length = pages := by rw [Memory.framesOf, List.length_map, List.length_range']
  rw [← hlen]
  have hpage : ∀ p ∈ m.framesOf r 0 pages, IsPage kend p := fun p hp => by
    obtain ⟨n, hn, rfl⟩ := hmem p hp
    exact h.backed.isPage n (Nat.zero_le n) (by omega)
  exact length_pages_le hnodup hpage

/-- The first `pages` pages are mapped, and show the bytes of `image`. -/
structure ProgramMemory (kend : Nat) (m : Memory) (r pages : Nat) (image : Nat → UInt8) : Prop where
  space : UserSpace kend m r pages
  aligned : r % pageSize = 0
  bytes : ∀ x < pageSize * pages, m.user r x = some (image x)

/-- Only bytes of the program change. -/
structure Stored (kend r pages : Nat) (image : Nat → UInt8) (m m' : Memory) : Prop where
  program : ProgramMemory kend m' r pages image
  lookup : ∀ n, m'.lookup r n = m.lookup r n
  table : ∀ π, π.length ≤ 3 → m'.table r π = m.table r π
  free : m'.free = m.free
  other : ∀ q, q % pageSize = 0 → (∀ n < pages, m.frame r n ≠ q) → m'.page q = m.page q

theorem Stored.trans (h : Stored kend r pages image m m1) (h' : Stored kend r pages image' m1 m') :
    Stored kend r pages image' m m' where
  program := h'.program
  lookup n := (h'.lookup n).trans (h.lookup n)
  table π hπ := (h'.table π hπ).trans (h.table π hπ)
  free := h'.free.trans h.free
  other q hq hne := by
    have hne' : ∀ n < pages, m1.frame r n ≠ q := fun n hn => by
      rw [Memory.frame, h.lookup]
      exact hne n hn
    exact (h'.other q hq hne').trans (h.other q hq hne)

theorem page_lt (h : x < pageSize * pages) : x / pageSize < pages := Nat.div_lt_of_lt_mul h

namespace ProgramMemory

section
variable (h : ProgramMemory kend m r pages image)
include h

theorem stored : Stored kend r pages image m m :=
  ⟨h, fun _ => rfl, fun _ _ => rfl, rfl, fun _ _ _ => rfl⟩

theorem mapped (hn : n < pages) : m.lookup r n ≠ none := by
  have hle := h.space.pages_le
  exact (h.space.mapped n (by omega)).mpr hn

theorem byte_target (hx : x < pageSize * pages) : m.byte (m.target r x) = image x := by
  have hbytes := h.bytes x hx
  rw [user_of_mapped (h.mapped (page_lt hx))] at hbytes
  exact Option.some.inj hbytes

theorem frame_inj {n' : Nat} (hn : n < pages) (hn' : n' < pages) (he : m.frame r n = m.frame r n') : n = n' :=
  h.space.backed.distinct n n' (Nat.zero_le n) (by omega) (Nat.zero_le n') (by omega) he

/-- Every address has a byte of its own. -/
theorem target_inj (hx : x < pageSize * pages) (hy : y < pageSize * pages) (he : m.target r x = m.target r y) :
    x = y := by
  have h1 : m.frame r (x / 4096) % 4096 = 0 := frame_mod ..
  have h2 : m.frame r (y / 4096) % 4096 = 0 := frame_mod ..
  have he' : m.frame r (x / 4096) + x % 4096 = m.frame r (y / 4096) + y % 4096 := he
  have hpage : x / 4096 = y / 4096 := h.frame_inj (page_lt hx) (page_lt hy) (by omega)
  omega

omit h in
/-- No byte of the program is in another page. -/
theorem target_ne (h : ∀ n < pages, m.frame r n ≠ p) (hp : p % pageSize = 0) (hx : x < pageSize * pages) {o : Nat}
    (ho : o < pageSize) : m.target r x ≠ p + o := fun he => by
  have h1 : m.frame r (x / 4096) % 4096 = 0 := frame_mod ..
  have he' : m.frame r (x / 4096) + x % 4096 = p + o := he
  have hp' : p % 4096 = 0 := hp
  have ho' : o < 4096 := ho
  exact h _ (page_lt hx) (show m.frame r (x / 4096) = p by omega)

theorem table_aligned {t : Nat} (ht : m.IsTable r t) : t % pageSize = 0 := by
  obtain ⟨π, -, ht⟩ := ht
  rcases List.eq_nil_or_concat π with rfl | ⟨ρ, i, rfl⟩
  · cases ht
    exact h.aligned
  · rw [Memory.table, List.concat_eq_append, follow_snoc] at ht
    obtain ⟨x, -, hx⟩ := Option.bind_eq_some_iff.mp ht
    rw [Memory.next] at hx
    split at hx
    · cases hx
      exact pteAddress_mod _
    · cases hx

/-- Bytes of the program are given new values, wherever they are. -/
theorem update (hbytes : ∀ x < pageSize * pages, m'.byte (m.target r x) = image' x)
    (hother : ∀ y, (∀ x < pageSize * pages, m.target r x ≠ y) → m'.byte y = m.byte y) (hfree : m'.free = m.free) :
    Stored kend r pages image' m m' := by
  have hpage : ∀ q, q % pageSize = 0 → (∀ n < pages, m.frame r n ≠ q) → m'.page q = m.page q := fun q hq hne =>
    page_ext hq fun o ho => hother _ fun x hx => target_ne hne hq hx ho
  have htables : ∀ t, m.IsTable r t → m'.page t = m.page t := fun t ht => by
    refine hpage t (h.table_aligned ht) fun n hn he => ?_
    exact (h.space.backed.used n (Nat.zero_le n) (by omega)).2 (he ▸ ht)
  obtain ⟨hpgdir, htable, hlookup⟩ := h.space.pgdir.congr htables (hfree ▸ h.space.pgdir.nodup)
    (hfree ▸ h.space.pgdir.isPage) (hfree ▸ h.space.pgdir.apart)
  have hframe : ∀ n, m'.frame r n = m.frame r n := fun n => by rw [Memory.frame, Memory.frame, hlookup]
  refine ⟨⟨⟨hpgdir, ⟨fun n h1 h2 => ?_, fun n h1 h2 => ?_, fun n h1 h2 => ?_, fun n n' h1 h2 h3 h4 => ?_⟩,
    fun n hn => ?_⟩, h.aligned, fun x hx => ?_⟩, hlookup, htable, hfree, hpage⟩
  · rw [hlookup]
    exact h.space.backed.mapped n h1 h2
  · rw [hframe]
    exact h.space.backed.isPage n h1 h2
  · rw [hframe, hfree, isTable_congr htable]
    exact h.space.backed.used n h1 h2
  · rw [hframe, hframe]
    exact h.space.backed.distinct n n' h1 h2 h3 h4
  · rw [hlookup]
    exact h.space.mapped n hn
  · have htarget : m'.target r x = m.target r x := by rw [Memory.target, Memory.target, hframe]
    rw [user_of_mapped (by rw [hlookup]; exact h.mapped (page_lt hx)), htarget, hbytes x hx]

/-- Bytes are written through the map. -/
theorem write {a : Nat} (ha : a + bs.length ≤ pageSize * pages)
    (hbytes : ∀ j < bs.length, m'.byte (m.target r (a + j)) = bs.getD j 0)
    (hother : ∀ y, (∀ j < bs.length, m.target r (a + j) ≠ y) → m'.byte y = m.byte y) (hfree : m'.free = m.free) :
    Stored kend r pages (overlay image a bs) m m' := by
  refine h.update (fun x hx => ?_) (fun y hy => hother y fun j hj => hy _ (by omega)) hfree
  by_cases hin : a ≤ x ∧ x < a + bs.length
  · obtain ⟨j, rfl⟩ := Nat.exists_eq_add_of_le hin.1
    have hj : j < bs.length := by omega
    rw [hbytes j hj, overlay_inside hj, List.getD_eq_getElem _ _ hj]
  · rw [overlay_outside hin, ← h.byte_target hx]
    refine hother _ fun j hj he => hin ?_
    have := h.target_inj (by omega) hx he
    omega

/-- A write to part of a frame. -/
theorem setBytes {o : Nat} (hn : n < pages) (ho : o + bs.length ≤ pageSize) :
    Stored kend r pages (overlay image (pageSize * n + o) bs) m (m.setBytes (m.frame r n + o) bs) := by
  have ho' : o + bs.length ≤ 4096 := ho
  have hend : pageSize * n + o + bs.length ≤ pageSize * pages := by
    show 4096 * n + o + bs.length ≤ 4096 * pages
    omega
  have htarget : ∀ j < bs.length, m.target r (pageSize * n + o + j) = m.frame r n + o + j := fun j hj => by
    have hpage : (4096 * n + o + j) / 4096 = n := by omega
    have hoff : (4096 * n + o + j) % 4096 = o + j := by omega
    show m.frame r ((4096 * n + o + j) / 4096) + (4096 * n + o + j) % 4096 = _
    rw [hpage, hoff, Nat.add_assoc]
  refine h.write hend (fun j hj => ?_) (fun y hy => ?_) free_setBytes
  · rw [htarget j hj, byte_setBytes, if_pos (by omega), Nat.add_sub_cancel_left]
  · rw [byte_setBytes, if_neg fun hin => ?_]
    refine hy (y - (m.frame r n + o)) (by omega) ?_
    rw [htarget _ (by omega)]
    omega

/-- New pages are zero. -/
theorem grow {fs tabs : List Nat} (hzero : ∀ x, pageSize * pages ≤ x → image x = 0)
    (hbound : pages + fs.length ≤ 2 ^ 36) (hfill : Filled kend r pages m m' fs tabs fun _ _ => 0) :
    ProgramMemory kend m' r (pages + fs.length) image := by
  have hres := h.space.grow hbound hfill
  refine ⟨hres.space, h.aligned, fun x hx => ?_⟩
  by_cases hold : x < pageSize * pages
  · obtain ⟨hlookup, hpage⟩ := hres.kept _ (page_lt hold) (page_lt hx)
    rw [← h.bytes x hold]
    exact user_congr hlookup hpage
  · have hold' : 4096 * pages ≤ x := not_lt.mp hold
    have hge : pages ≤ x / 4096 := by omega
    obtain ⟨hlookup, -, hpage⟩ := hres.fresh (x / pageSize) hge (page_lt hx)
    rw [user_of_mapped (by rw [hlookup]; exact Option.some_ne_none _), hzero x (by omega), Memory.target,
      byte_page (frame_mod ..) (Nat.mod_lt _ (by decide)), hpage, wordByte_zero]

end

end ProgramMemory

/-! ### Pages of user code -/

/-- The pages are mapped with `PTE_USER_DATA`. -/
def Accessible (m : Memory) (r pages : Nat) : Prop :=
  ∀ n < pages, ∃ w, m.lookup r n = some w ∧ pteFlags w = pteUserData

theorem user_of_userData (h : pteFlags w = pteUserData) : w &&& pteUser ≠ 0 := fun hzero => by
  have hand : w &&& pteUser = pteFlags w &&& pteUser := by
    rw [pteFlags, UInt64.and_assoc]
    rfl
  rw [hand, h] at hzero
  exact absurd hzero (by decide)

theorem Resized.accessible (h : Resized kend r old new m m') (huser : Accessible m r old) : Accessible m' r new :=
  fun n hn => by
    by_cases hold : n < old
    · rw [(h.kept n hold hn).1]
      exact huser n hold
    · exact ⟨_, (h.fresh n (not_lt.mp hold) hn).1, pteFlags_userEntry (frame_mod ..)⟩

/-! ### New address spaces -/

/-- The address space is made of pages that were free, and the other pages are as they were. -/
structure MadeFrom (m0 m : Memory) (r pages : Nat) : Prop where
  tables : ∀ t, m.IsTable r t → t ∈ m0.free
  frames : ∀ n < pages, m.frame r n ∈ m0.free
  free : ∀ q ∈ m.free, q ∈ m0.free
  other : ∀ q, q % pageSize = 0 → q ∉ m0.free → m.page q = m0.page q

namespace MadeFrom
variable {m0 : Memory}

theorem grow {fs tabs : List Nat} (h : MadeFrom m0 m r pages) (hspace : UserSpace kend m r pages)
    (hbound : pages + fs.length ≤ 2 ^ 36) (hfill : Filled kend r pages m m' fs tabs fun _ _ => 0) :
    MadeFrom m0 m' r (pages + fs.length) := by
  have hres := hspace.grow hbound hfill
  refine ⟨fun t ht => ?_, fun n hn => ?_, fun q hq => ?_, fun q hq hne => ?_⟩
  · rcases (hfill.tables t).mp ht with ht | ht
    · exact h.tables t ht
    · exact h.free t (hfill.free.subset (List.mem_append_left _ (List.mem_append_right _ ht)))
  · by_cases hold : n < pages
    · rw [Memory.frame, (hres.kept n hold hn).1]
      exact h.frames n hold
    · exact h.free _ (hres.fresh n (not_lt.mp hold) hn).2.1
  · exact h.free q (hfill.free.subset (List.mem_append_right _ hq))
  · rw [hfill.page q (mt (h.free q) hne) (mt (h.tables q) hne), h.other q hq hne]

theorem stored (h : MadeFrom m0 m r pages) (hs : Stored kend r pages image m m') : MadeFrom m0 m' r pages := by
  refine ⟨fun t ht => h.tables t ((isTable_congr hs.table t).mp ht), fun n hn => ?_, fun q hq => ?_,
    fun q hq hne => ?_⟩
  · rw [Memory.frame, hs.lookup]
    exact h.frames n hn
  · exact h.free q (hs.free ▸ hq)
  · rw [hs.other q hq fun n hn he => hne (he ▸ h.frames n hn), h.other q hq hne]

end MadeFrom

/-- A directory that has just been allocated. -/
theorem programMemory_taken {rest : List Nat} (hfree : m.free = r :: rest) (hnodup : m.free.Nodup)
    (hpage : ∀ p ∈ m.free, IsPage kend p) :
    ProgramMemory kend (m.taken r rest) r 0 (fun _ => 0) ∧ MadeFrom m (m.taken r rest) r 0 := by
  have hmem : ∀ q ∈ rest, q ∈ m.free := fun q hq => hfree ▸ List.mem_cons_of_mem r hq
  have hr : r ∈ m.free := hfree ▸ List.mem_cons_self
  rw [hfree, List.nodup_cons] at hnodup
  obtain ⟨hdir, htables, -, hnone⟩ := isPgdir_blank (m := m.taken r rest) (r := r) hnodup.2
    (fun q hq => hpage q (hmem q hq)) hnodup.1 fun i => by
      rw [page_taken_self]
      decide
  refine ⟨⟨userSpace_empty hdir hnone, (hpage r hr).1, fun x hx => absurd hx (Nat.not_lt_zero x)⟩,
    fun t ht => (htables t).mp ht ▸ hr, fun n hn => absurd hn (Nat.not_lt_zero n), hmem, fun q _ hq => ?_⟩
  have hne : q ≠ r := fun he => hq (he ▸ hr)
  exact Function.update_of_ne hne _ _

end OS2021.Core
