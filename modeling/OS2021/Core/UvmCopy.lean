import OS2021.Core.Growproc

/-! An address space is copied (`uvm_copy`).

The pages of the parent are copied one after the other into fresh frames, which are mapped
in a new directory with `PTE_USER_DATA`, whatever flags the parent has. The parent's
tables and frames are not free, so nothing of it changes. -/
namespace OS2021.Core
open Fs Lib Function Finset

variable {kend r d n pages : Nat} {m m1 m2 : Memory} {i : UInt64}

/-- There are no more pages than memory has. -/
theorem length_pages_le {ps : List Nat} (hnodup : ps.Nodup) (hpage : ∀ p ∈ ps, IsPage kend p) :
    ps.length ≤ 0x3F000 := by
  have hsub : ps.toFinset ⊆ (Finset.range 0x3F000).image (· * 4096) := fun p hp => by
    obtain ⟨hmod, -, hlt⟩ := hpage p (List.mem_toFinset.mp hp)
    have hmod' : p % 4096 = 0 := hmod
    have hlt' : p < 0x3F000000 := hlt
    exact mem_image.mpr ⟨p / 4096, mem_range.mpr (by omega), by omega⟩
  rw [← List.toFinset_card_of_nodup hnodup, ← card_range 0x3F000]
  exact (card_le_card hsub).trans card_image_le

/-- What `uvm_copy` needs of its argument: the first pages are mapped and no others, to
frames that are not free. -/
structure Parent (kend : Nat) (m : Memory) (r pages : Nat) : Prop where
  pgdir : IsPgdir kend m r
  mapped : ∀ n < 2 ^ 36, m.lookup r n ≠ none ↔ n < pages
  used : ∀ n < pages, m.frame r n ∉ m.free

theorem UserSpace.parent (h : UserSpace kend m r pages) : Parent kend m r pages :=
  ⟨h.pgdir, h.mapped, fun n hn => (h.backed.used n (Nat.zero_le n) (by omega)).1⟩

/-- `clearpteu` clears a flag of one entry. The page stays where it is. -/
theorem IsPgdir.clearpteu (h : IsPgdir kend m r) {uva w : UInt64} (hn : uva.toNat / pageSize < 2 ^ 36)
    (hw : m.lookup r (uva.toNat / pageSize) = some w) :
    ∃ m', (clearpteu r uva).run m = .ok () m' ∧ Grows kend r m m' [] ∧
      (∀ n < 2 ^ 36, m'.lookup r n = if n = uva.toNat / pageSize then some (w &&& ~~~pteUser) else m.lookup r n) ∧
      ∀ n < 2 ^ 36, (m'.lookup r n ≠ none ↔ m.lookup r n ≠ none) ∧ m'.frame r n = m.frame r n := by
  obtain ⟨pte, hslot, hvalid, rfl⟩ := (lookup_eq_some ..).mp hw
  have hvalid' : isValid (m.pte pte &&& ~~~pteUser) = true := by
    rw [isValid, UInt64.and_assoc]
    exact hvalid
  have haddr : pteAddress (m.pte pte &&& ~~~pteUser) = pteAddress (m.pte pte) := by
    rw [pteAddress, UInt64.and_assoc]
    rfl
  obtain ⟨hgrows, -, hlookup⟩ := h.setPte hn hslot (m.pte pte &&& ~~~pteUser)
  rw [if_pos hvalid'] at hlookup
  refine ⟨_, ?_, hgrows, hlookup, fun n hn => ?_⟩
  · rw [Core.clearpteu, bind_ok (pgdirWalk_lookup m r uva), hslot]
    rfl
  · have hl := hlookup n hn
    split at hl
    case isTrue he =>
      rw [frame_of_lookup hl, he, frame_of_lookup hw, haddr, ← he, hl, he, hw]
      exact ⟨⟨fun _ => Option.some_ne_none _, fun _ => Option.some_ne_none _⟩, rfl⟩
    case isFalse =>
      rw [Memory.frame, Memory.frame, hl]
      exact ⟨Iff.rfl, rfl⟩

/-- `clearpteu` takes a page away from user code. -/
theorem Parent.clearpteu (h : Parent kend m r pages) (uva : UInt64) (hlt : uva.toNat / pageSize < pages)
    (hbound : pages ≤ 2 ^ 36) :
    ∃ m', (clearpteu r uva).run m = .ok () m' ∧ Parent kend m' r pages ∧ m'.free = m.free ∧
      ∃ w, m'.lookup r (uva.toNat / pageSize) = some w ∧ w &&& pteUser = 0 := by
  obtain ⟨w, hw⟩ := Option.ne_none_iff_exists'.mp ((h.mapped _ (by omega)).mpr hlt)
  obtain ⟨m', hrun, hgrows, hlookup, hkept⟩ := h.pgdir.clearpteu (by omega) hw
  have hfree : m'.free = m.free := hgrows.free.symm
  refine ⟨m', hrun, ⟨hgrows.pgdir, fun n hn => (hkept n hn).1.trans (h.mapped n hn), fun n hn => ?_⟩, hfree,
    w &&& ~~~pteUser, ?_, ?_⟩
  · rw [(hkept n (by omega)).2, hfree]
    exact h.used n hn
  · rw [hlookup _ (by omega), if_pos rfl]
  · rw [UInt64.and_assoc]
    exact UInt64.and_zero

/-- How many pages a copy takes: the directory, a frame for each page, and the tables. -/
def copyPages (pages : Nat) : Nat := 1 + pages + (pathsOf 0 pages).card

theorem missing_le_card (m : Memory) (r : Nat) (S : Finset (List (Fin nPtePerTable))) : m.missing r S ≤ S.card :=
  card_filter_le ..

/-- Pages that were not free keep what they had while another directory grows. -/
theorem Parent.lookup_kept (hp : Parent kend m r pages) (hpage : ∀ q, q ∉ m.free → m2.page q = m.page q) (n : Nat) :
    m2.lookup r n = m.lookup r n :=
  lookup_congr (fun t ht => hpage t (hp.pgdir.apart t ht)) n

theorem Parent.lookup_none (hp : Parent kend m r pages) (hn : n < 2 ^ 36) : m.lookup r n = none ↔ pages ≤ n := by
  rw [← not_lt, ← hp.mapped n hn, ne_eq, not_not]

/-- The loop of `uvm_copy` ends at a page that is not mapped. -/
theorem uvmCopyFrom_end (newpgdir : Option Nat) (fuel : Nat) (h : m.lookup r (i.toNat / pageSize) = none) :
    (uvmCopyFrom r newpgdir (fuel + 1) i).run m = .ok () m := by
  rw [uvmCopyFrom, bind_ok (pgdirWalk_lookup m r i)]
  cases hslot : m.slot r (i.toNat / pageSize) with
  | none => rfl
  | some pte =>
    rw [Memory.lookup, hslot, Option.bind_some] at h
    dsimp only
    rw [bind_ok (get_run m)]
    split at h
    · cases h
    case isFalse hvalid =>
      rw [if_neg hvalid]
      rfl

/-- Without a frame for a page the null pointer that `kalloc` returns is followed. -/
theorem uvmCopyFrom_fault {newpgdir : Option Nat} {fuel : Nat} {w : UInt64}
    (hw : m.lookup r (i.toNat / pageSize) = some w) (hfree : m.free = []) :
    (uvmCopyFrom r newpgdir (fuel + 1) i).run m = .error .fault m := by
  obtain ⟨pte, hslot, hvalid, hpte⟩ := (lookup_eq_some ..).mp hw
  rw [uvmCopyFrom, bind_ok (pgdirWalk_lookup m r i), hslot]
  dsimp only
  rw [bind_ok (get_run m), hpte, if_pos hvalid, bind_ok ((kalloc_run m).trans (by rw [hfree]))]
  rfl

/-- Without a free page the loop does not return, or there is nothing left to copy. -/
theorem uvmCopyFrom_short {newpgdir : Option Nat} {fuel : Nat} {m' : Memory} (hp : Parent kend m r pages)
    (hlookup : ∀ n, m2.lookup r n = m.lookup r n) (hn : i.toNat / pageSize < 2 ^ 36) (hfree : m2.free = [])
    (hrun : (uvmCopyFrom r newpgdir fuel i).run m2 = .ok () m') : m' = m2 ∧ pages ≤ i.toNat / pageSize := by
  cases fuel with
  | zero => cases hrun
  | succ fuel =>
    cases hw : m2.lookup r (i.toNat / pageSize) with
    | some w =>
      rw [uvmCopyFrom_fault hw hfree] at hrun
      cases hrun
    | none =>
      rw [uvmCopyFrom_end newpgdir fuel hw] at hrun
      cases hrun
      exact ⟨rfl, (hp.lookup_none hn).mp ((hlookup _).symm.trans hw)⟩

section Loop
variable {fs tabs : List Nat} (hp : Parent kend m r pages) (h0 : IsPgdir kend m1 d)
  (hnone : ∀ n, m1.lookup d n = none)
  (hout : ∀ q, q ∉ m.free → q ∉ m1.free ∧ ¬ m1.IsTable d q ∧ m1.page q = m.page q)
  (h : Filled kend d 0 m1 m2 fs tabs fun n => m.page (m.frame r n))
include hout h

/-- The pages of the parent are as they were. -/
theorem Filled.kept (q : Nat) (hq : q ∉ m.free) : m2.page q = m.page q := by
  obtain ⟨hfree, htable, hpage⟩ := hout q hq
  rw [h.page q hfree htable, hpage]

theorem Failed.kept {m' : Memory} (hfailed : Failed kend d m2 m') (q : Nat) (hq : q ∉ m.free) :
    m'.page q = m.page q := by
  obtain ⟨hfree, htable, -⟩ := hout q hq
  have hfree2 : q ∉ m2.free := fun hq' => hfree (h.free.subset (List.mem_append_right _ hq'))
  have htable2 : ¬ m2.IsTable d q := by
    rw [h.tables, not_or]
    exact ⟨htable, fun ht => hfree (h.free.subset (List.mem_append_left _ (List.mem_append_right _ ht)))⟩
  rw [hfailed.page q htable2 hfree2, h.kept hout q hq]

include hp h0 hnone

/-- A page is copied, and mapped if there are free pages for the tables. What `uvm_map` returns
is not looked at. -/
theorem uvmCopyFrom_round (fuel : Nat) {p : Nat} {rest : List Nat} (hi : i.toNat = pageSize * fs.length)
    (hlt : fs.length < pages) (hbound : fs.length < 2 ^ 36) (hfree : m2.free = p :: rest) :
    ∃ m', (uvmCopyFrom r (some d) (fuel + 1) i).run m2 = (uvmCopyFrom r (some d) fuel (i + 4096)).run m' ∧
      ((∃ tabs', Filled kend d 0 m1 m' (fs ++ [p]) tabs' fun n => m.page (m.frame r n)) ∨
        m1.free.length < fs.length + 1 + m1.missing d (pathsOf 0 (fs.length + 1)) ∧ Failed kend d m2 m') := by
  have hn : i.toNat / pageSize = fs.length := by
    rw [hi]
    exact Nat.mul_div_cancel_left _ (by decide)
  obtain ⟨w, hw⟩ := Option.ne_none_iff_exists'.mp ((hp.mapped fs.length hbound).mpr hlt)
  obtain ⟨pte, hslot, hvalid, hpte⟩ := (lookup_eq_some ..).mp ((hp.lookup_kept (h.kept hout) fs.length).trans hw)
  have hused := hp.used fs.length hlt
  have hne : m.frame r fs.length ≠ p := fun he => (hout _ hused).1 (h.free.subset (by
    rw [he, hfree]
    exact List.mem_append_right _ List.mem_cons_self))
  have hcopy : (m2.taken p rest).page (pteAddress w) = m.page (m.frame r fs.length) := by
    rw [← frame_of_lookup hw, ← h.kept hout _ hused]
    exact update_of_ne hne ..
  obtain ⟨m3, hm3⟩ : ∃ m3 : Memory, m3 = {m2.taken p rest with
      page := update (m2.taken p rest).page p ((m2.taken p rest).page (pteAddress w))} := ⟨_, rfl⟩
  have hself : m3.page p = m.page (m.frame r fs.length) := by
    rw [hm3, ← hcopy]
    exact update_self ..
  have hother : ∀ q, q ≠ p → m3.page q = m2.page q := fun q hq => by
    rw [hm3]
    exact (update_of_ne hq ..).trans (update_of_ne hq ..)
  obtain ⟨res, m4, hmap, hcase⟩ := h.step (a := i) m3 h0 hfree hself hother (by rw [hm3]; rfl)
    (by rw [Nat.zero_add]; exact hi) (by omega) (hnone _)
  refine ⟨m4, ?_, hcase.imp And.right And.right⟩
  rw [uvmCopyFrom, bind_ok (pgdirWalk_lookup m2 r i), hn, hslot]
  dsimp only
  rw [bind_ok (get_run m2), hpte, if_pos hvalid, bind_ok ((kalloc_run m2).trans (by rw [hfree]))]
  dsimp only
  rw [bind_ok (modify_run _ _), ← hm3, bind_ok hmap]

/-- The loop of `uvm_copy` copies all pages. If there are too few free pages it does not return,
or it returns without a page. -/
theorem uvmCopyFrom_spec (fuel : Nat) (hi : i.toNat = pageSize * fs.length) (hle : fs.length ≤ pages)
    (hfuel : m2.free.length < fuel) :
    (∃ m' fs' tabs', (uvmCopyFrom r (some d) fuel i).run m2 = .ok () m' ∧ fs'.length = pages ∧
        Filled kend d 0 m1 m' fs' tabs' fun n => m.page (m.frame r n)) ∨
      m1.free.length < pages + m1.missing d (pathsOf 0 pages) ∧
        ∀ m', (uvmCopyFrom r (some d) fuel i).run m2 = .ok () m' →
          ∃ n < pages, n < 2 ^ 36 ∧ m'.lookup d n = none := by
  have hbound := length_pages_le h0.nodup h0.isPage
  induction fuel generalizing m2 fs tabs i with
  | zero => omega
  | succ fuel ih =>
    have hlength := h.length_free
    have hlookup := hp.lookup_kept (h.kept hout)
    have hn : i.toNat / pageSize = fs.length := by
      rw [hi]
      exact Nat.mul_div_cancel_left _ (by decide)
    rcases hle.lt_or_eq with hlt | hdone
    · have hmono := missing_pathsOf_mono m1 d 0 hlt
      cases hfree : m2.free with
      | nil =>
        have hshorter := missing_pathsOf_mono m1 d 0 hle
        rw [hfree, List.length_nil] at hlength
        refine Or.inr ⟨by omega, fun m' hrun => ?_⟩
        obtain ⟨-, hend⟩ := uvmCopyFrom_short hp hlookup (by omega) hfree hrun
        omega
      | cons p rest =>
        have hnext := toNat_add_page hi (by have hi' : i.toNat = 4096 * fs.length := hi; omega)
        obtain ⟨m4, hstep, ⟨tabs', h'⟩ | ⟨hshort, hfailed⟩⟩ := uvmCopyFrom_round hp h0 hnone hout h fuel hi hlt
          (by omega) hfree
        all_goals rw [hstep]
        · have hlen : (fs ++ [p]).length = fs.length + 1 := by rw [List.length_append, List.length_singleton]
          have hlength' := h'.length_free
          have hsucc : _ ≤ m1.missing d (pathsOf 0 (fs.length + 1)) := missing_pathsOf_mono m1 d 0 (Nat.le_succ _)
          rw [hlen] at hlength'
          exact ih h' (by rw [hlen]; exact hnext) (by omega) (by omega)
        · have hmono : m1.missing d (pathsOf 0 (fs.length + 1)) ≤ _ := hmono
          refine Or.inr ⟨by omega, fun m' hrun => ?_⟩
          have hn' : (i + 4096).toNat / pageSize = fs.length + 1 := by
            rw [hnext]
            exact Nat.mul_div_cancel_left _ (by decide)
          obtain ⟨rfl, -⟩ := uvmCopyFrom_short hp (hp.lookup_kept (hfailed.kept hout h)) (by omega) hfailed.free hrun
          refine ⟨fs.length, hlt, by omega, ?_⟩
          rw [hfailed.lookup _ (by omega), h.lookup _ (by omega), if_neg (by omega), hnone]
    · refine Or.inl ⟨m2, fs, tabs, uvmCopyFrom_end (some d) fuel ?_, hdone, h⟩
      rw [hn, hlookup]
      exact (hp.lookup_none (by omega)).mpr hdone.ge

end Loop

/-- The copy maps the same pages, each to a fresh frame with the same contents, and the
parent is as it was. -/
structure Copied (kend r d pages : Nat) (m m' : Memory) : Prop where
  pgdir : IsPgdir kend m' d
  mapped : ∀ n < 2 ^ 36, m'.lookup d n ≠ none ↔ n < pages
  entry : ∀ n < pages, m'.lookup d n = some (userEntry (m'.frame d n))
  fresh : ∀ n < pages, m'.frame d n ∈ m.free ∧ m'.frame d n ∉ m'.free ∧ ¬ m'.IsTable d (m'.frame d n)
  distinct : ∀ n < pages, ∀ n' < pages, m'.frame d n = m'.frame d n' → n = n'
  contents : ∀ n < pages, m'.page (m'.frame d n) = m.page (m.frame r n)
  tables : ∀ t, m'.IsTable d t → t ∈ m.free
  kept : ∀ q, q ∉ m.free → m'.page q = m.page q
  free : ∀ q ∈ m'.free, q ∈ m.free

/-- A blank directory lacks every table of a range. -/
theorem missing_eq_card {k cnt : Nat} (hnone : ∀ π, π ≠ [] → m.table r π = none) :
    m.missing r (pathsOf k cnt) = (pathsOf k cnt).card := by
  rw [Memory.missing, filter_true_of_mem]
  exact fun π hπ => hnone π (ne_nil_of_mem_pathsOf hπ)

/-- With enough free pages the whole address space is copied. With too few `uvm_copy` does not
return, or the copy lacks a page. -/
theorem uvmCopy_cases {rest : List Nat} (hp : Parent kend m r pages) (hfree : m.free = d :: rest) :
    (∃ m', (uvmCopy r).run m = .ok (some d) m' ∧ Copied kend r d pages m m' ∧
        m.free.length = copyPages pages + m'.free.length) ∨
      m.free.length < copyPages pages ∧
        ∀ x m', (uvmCopy r).run m = .ok x m' → x = some d ∧ ∃ n < pages, n < 2 ^ 36 ∧ m'.lookup d n = none := by
  have hnodup := hp.pgdir.nodup
  rw [hfree] at hnodup
  have hdmem : d ∈ m.free := hfree ▸ List.mem_cons_self
  have hsub : ∀ q ∈ rest, q ∈ m.free := fun q hq => hfree ▸ List.mem_cons_of_mem d hq
  obtain ⟨h0, htables, htable, hnone⟩ := isPgdir_blank (m := m.taken d rest) (r := d) hnodup.of_cons
    (fun q hq => hp.pgdir.isPage q (hsub q hq)) (List.nodup_cons.mp hnodup).1 fun i => by rw [page_taken_self]; rfl
  have hout : ∀ q, q ∉ m.free → q ∉ (m.taken d rest).free ∧ ¬ (m.taken d rest).IsTable d q ∧
      (m.taken d rest).page q = m.page q := fun q hq => by
    have hqd : q ≠ d := fun he => hq (he ▸ hdmem)
    exact ⟨fun hmem => hq (hsub q hmem), by rw [htables]; exact hqd, update_of_ne hqd ..⟩
  have hcopy : (uvmCopy r).run m = _ := (bind_ok ((kalloc_run m).trans (by rw [hfree]))).trans (bind_ok (get_run _))
  rcases uvmCopyFrom_spec (i := 0) hp h0 hnone hout (.refl h0 0 _) (rest.length + 1) rfl (Nat.zero_le _)
    (Nat.lt_succ_self _) with ⟨m', fs, tabs, hrun, hlen, hfill⟩ | ⟨hshort, hlast⟩
  rotate_left
  · refine Or.inr ⟨?_, fun x m' hrun => ?_⟩
    · rw [missing_eq_card htable] at hshort
      have hshort : rest.length < _ := hshort
      rw [hfree, List.length_cons, copyPages]
      omega
    · obtain ⟨_, m1, hloop, hrest⟩ := bind_eq_ok (hcopy.symm.trans hrun)
      cases hrest
      exact ⟨rfl, hlast _ hloop⟩
  have hbound := length_pages_le h0.nodup h0.isPage
  have hlength : rest.length = _ := hfill.length_free
  rw [missing_eq_card htable, hlen] at hlength
  have hpages : pages ≤ 0x3F000 := le_trans (by show pages ≤ rest.length; omega) hbound
  have hframe : ∀ n < pages, m'.frame d n = fs.getD n 0 := fun n hn =>
    hfill.frame h0 (by omega) (Nat.zero_le n) (by omega)
  have hlookup : ∀ n < 2 ^ 36, m'.lookup d n = if n < pages then some (userEntry (fs.getD n 0)) else none :=
    fun n hn => by
      rw [hfill.lookup n hn, hnone, hlen, Nat.zero_add, Nat.sub_zero]
      simp only [Nat.zero_le, true_and]
  have hmemf : ∀ n < pages, fs.getD n 0 ∈ fs := fun n hn => Filled.getD_mem (by omega)
  refine Or.inl ⟨m', hcopy.trans (bind_ok hrun), ⟨hfill.pgdir, fun n hn => ?_, fun n hn => ?_, fun n hn => ?_,
    fun n hn n' hn' he => ?_, fun n hn => ?_, fun t ht => ?_, fun q hq => ?_, fun q hq => ?_⟩, ?_⟩
  · rw [hlookup n hn]
    split <;> simp [*]
  · rw [hlookup n (by omega), if_pos hn, hframe n hn]
  · rw [hframe n hn]
    obtain ⟨hmem, hrest⟩ := hfill.mem_frames h0 (hmemf n hn)
    exact ⟨hsub _ hmem, hrest⟩
  · rw [hframe n hn, hframe n' hn', List.getD_eq_getElem _ _ (by omega), List.getD_eq_getElem _ _ (by omega)] at he
    exact (hfill.nodup h0).getElem_inj_iff.mp he
  · rw [hframe n hn]
    exact hfill.words n (by omega)
  · rcases (hfill.tables t).mp ht with ht | ht
    · rw [(htables t).mp ht]
      exact hdmem
    · exact hsub t (hfill.free.subset (List.mem_append_left _ (List.mem_append_right _ ht)))
  · obtain ⟨hfree', htable', hpage⟩ := hout q hq
    rw [hfill.page q hfree' htable', hpage]
  · exact hsub q (hfill.free.subset (List.mem_append_right _ hq))
  · rw [hfree, List.length_cons, copyPages, hlength]
    omega

theorem uvmCopy_spec (hp : Parent kend m r pages) (hmem : copyPages pages ≤ m.free.length) :
    ∃ d m', (uvmCopy r).run m = .ok (some d) m' ∧ Copied kend r d pages m m' ∧
      m.free.length = copyPages pages + m'.free.length := by
  obtain ⟨d, rest, hfree⟩ := List.exists_cons_of_ne_nil (l := m.free) fun hempty => by
    rw [hempty, List.length_nil, copyPages] at hmem
    omega
  exact ⟨d, (uvmCopy_cases hp hfree).resolve_right fun hshort => absurd hmem (not_le.mpr hshort.1)⟩

/-- Without a page for the directory there is none for the first frame. -/
theorem uvmCopy_fault (hp : Parent kend m r pages) (hpos : 0 < pages) (hfree : m.free = []) :
    (uvmCopy r).run m = .error .fault m := by
  obtain ⟨w, hw⟩ := Option.ne_none_iff_exists'.mp ((hp.mapped 0 (by decide)).mpr hpos)
  rw [uvmCopy, pgdirInit, bind_ok ((kalloc_run m).trans (by rw [hfree])), bind_ok (get_run _)]
  exact bind_error (uvmCopyFrom_fault hw hfree)

/-- Without a page for the directory nothing is copied, if there is nothing to copy. -/
theorem uvmCopy_nothing (hp : Parent kend m r 0) (hfree : m.free = []) : (uvmCopy r).run m = .ok none m := by
  have hnone : m.lookup r ((0 : UInt64).toNat / pageSize) = none := (hp.lookup_none (by decide)).mpr (Nat.zero_le _)
  rw [uvmCopy, pgdirInit, bind_ok ((kalloc_run m).trans (by rw [hfree])), bind_ok (get_run _)]
  exact bind_ok (uvmCopyFrom_end none m.free.length hnone)

/-- **A copy is faithful but for the flags.** With enough free pages `uvm_copy` maps the same
pages, each to a frame that is nothing else, with the same contents, and leaves the parent
as it is. A page has the flags it has in the parent exactly if they are `PTE_USER_DATA`. -/
theorem uvmCopy_copies (kend : Nat) (m : Memory) (r pages : Nat) (hp : Parent kend m r pages)
    (hmem : copyPages pages ≤ m.free.length) :
    ∃ d m', (uvmCopy r).run m = .ok (some d) m' ∧
      (∀ n < 2 ^ 36, m'.lookup d n ≠ none ↔ m.lookup r n ≠ none) ∧
      (∀ n < pages, ∀ w, m.lookup r n = some w → ∃ w', m'.lookup d n = some w' ∧
        (pteFlags w' = pteFlags w ↔ pteFlags w = pteUserData) ∧
        m'.page (pteAddress w') = m.page (pteAddress w) ∧
        ¬ m.IsTable r (pteAddress w') ∧ ¬ m'.IsTable d (pteAddress w') ∧
        (∀ n' < pages, m.frame r n' ≠ pteAddress w') ∧ ∀ n' < pages, n' ≠ n → m'.frame d n' ≠ pteAddress w') ∧
      (∀ n, m'.lookup r n = m.lookup r n) ∧ (∀ t, m.IsTable r t → m'.page t = m.page t) ∧
      ∀ n < pages, m'.page (m.frame r n) = m.page (m.frame r n) := by
  obtain ⟨d, m', hrun, h, -⟩ := uvmCopy_spec hp hmem
  refine ⟨d, m', hrun, fun n hn => by rw [h.mapped n hn, hp.mapped n hn], fun n hn w hw => ?_, hp.lookup_kept h.kept,
    fun t ht => h.kept t (hp.pgdir.apart t ht), fun n hn => h.kept _ (hp.used n hn)⟩
  obtain ⟨hfree, -, htable⟩ := h.fresh n hn
  have hpage := hp.pgdir.isPage _ hfree
  have haddr := pteAddress_userEntry_page hpage
  refine ⟨_, h.entry n hn, ?_, ?_, ?_, ?_, fun n' hn' he => ?_, fun n' hn' hne he => ?_⟩
  · rw [pteFlags_userEntry hpage.1]
    exact eq_comm
  · rw [haddr, h.contents n hn, frame_of_lookup hw]
  · rw [haddr]
    exact fun ht => hp.pgdir.apart _ ht hfree
  · rw [haddr]
    exact htable
  · rw [haddr] at he
    exact hp.used n' hn' (he ▸ hfree)
  · rw [haddr] at he
    exact hne (h.distinct n' hn' n hn he)

/-- Twelve free pages, and a directory that is empty. -/
def roomyMemory : Memory := ⟨fun _ _ => 0, (List.range 12).map fun i => 0x200000 + 0x1000 * i⟩

/-- `execve` makes a guard page and the stack. -/
theorem roomyMemory_parent : ∃ m, (do
      let _ ← uvmAlloc 0x100000 0x100000 0 0x2000
      clearpteu 0x100000 0).run roomyMemory = .ok () m ∧
    Parent 0x100000 m 0x100000 2 ∧ 1 + copyPages 2 ≤ m.free.length ∧
    ∃ w, m.lookup 0x100000 0 = some w ∧ w &&& pteUser = 0 := by
  have hpages : ∀ p ∈ roomyMemory.free, IsPage 0x100000 p := by decide
  have hzero : ∀ i, isValid (roomyMemory.page 0x100000 i) = false := fun _ => (by decide : isValid 0 = false)
  obtain ⟨hdir, -, -, hnone⟩ := isPgdir_blank (by decide) hpages (by decide) hzero
  have hroom : ∀ i ≤ 2, i + roomyMemory.missing 0x100000 (pathsOf 0 i) ≤ 5 := fun i hi => by
    have hle := missing_le_card roomyMemory 0x100000 (pathsOf 0 i)
    have hmono := card_le_card (pathsOf_subset 0 hi)
    have hcard : (pathsOf 0 2).card = 3 := by decide
    omega
  obtain ⟨res, m, hrun, hcase⟩ := uvmAlloc_spec 0 0x2000 hdir (by decide) (by decide)
    (fun n _ _ => hnone n) fun i hi _ => (hroom (i + 1) (Nat.succ_le_of_lt hi)).trans (by decide)
  rcases hcase with ⟨-, fs, tabs, hlen, hfill⟩ | ⟨-, -, hlt⟩
  · have hlen : fs.length = 2 := hlen
    have hspace := ((userSpace_empty hdir hnone).grow (by omega) hfill).space
    rw [hlen] at hspace
    obtain ⟨m', hclear, hparent, hfree, hguard⟩ := hspace.parent.clearpteu 0 (by decide) (by decide)
    refine ⟨m', (bind_ok hrun).trans hclear, hparent, ?_, hguard⟩
    have hlength := hfill.length_free
    have hthis : 2 + roomyMemory.missing 0x100000 (pathsOf (pageCount (0 : UInt64).toNat) 2) ≤ 5 :=
      hroom 2 (Nat.le_refl 2)
    have htotal : roomyMemory.free.length = 12 := rfl
    have hcopy : copyPages 2 = 6 := by decide
    rw [hlen] at hlength
    rw [hfree]
    omega
  · exact absurd hlt (not_lt.mpr ((hroom 2 (Nat.le_refl 2)).trans (by decide)))

theorem uvmCopy_copies_exec : ∃ m d m', (do
      let _ ← uvmAlloc 0x100000 0x100000 0 0x2000
      clearpteu 0x100000 0).run roomyMemory = .ok () m ∧
    (uvmCopy 0x100000).run m = .ok (some d) m' ∧ m'.lookup d 1 ≠ none ∧ m'.lookup d 2 = none := by
  obtain ⟨m, hmake, hp, hmem, -⟩ := roomyMemory_parent
  obtain ⟨d, m', hrun, hmapped, -⟩ := uvmCopy_copies 0x100000 m 0x100000 2 hp (by omega)
  refine ⟨m, d, m', hmake, hrun, ?_, ?_⟩
  · rw [hmapped 1 (by decide), hp.mapped 1 (by decide)]
    decide
  · have h := (hmapped 2 (by decide)).trans (hp.mapped 2 (by decide))
    exact Classical.not_not.mp fun hne => absurd (h.mp hne) (by decide)

/-- The guard page, which user code may not touch, can be touched in the child. -/
theorem uvmCopy_guard : ∃ m m' d, (do
      let _ ← uvmAlloc 0x100000 0x100000 0 0x2000
      clearpteu 0x100000 0).run roomyMemory = .ok () m ∧
    (uvmCopy 0x100000).run m = .ok (some d) m' ∧
    (∃ w, m.lookup 0x100000 0 = some w ∧ w &&& pteUser = 0) ∧
    ∃ w, m'.lookup d 0 = some w ∧ w &&& pteUser ≠ 0 := by
  obtain ⟨m, hmake, hp, hmem, hguard⟩ := roomyMemory_parent
  obtain ⟨d, m', hrun, hcopied, -⟩ := uvmCopy_spec hp (by omega)
  exact ⟨m, m', d, hmake, hrun, hguard, _, hcopied.entry 0 (by decide), userEntry_user _⟩

end OS2021.Core
