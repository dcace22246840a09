import OS2021.Core.UvmMap
import Mathlib.Data.List.GetD

/-! User memory grows and shrinks (`uvm_alloc`, `uvm_dealloc`).

`uvmunmap` gives back the frames of the pages it unmaps, one after the other.
`uvm_alloc` takes a frame for each page, and tables where they are missing; what it has
taken is written down as two lists, so that nothing is lost and nothing is handed out
twice (`Filled`). If it finds no frame for a page, it gives all frames back. -/
namespace OS2021.Core
open Fs Lib Function Finset

variable {kend p r n k cnt : Nat} {m m' m1 : Memory} {π : List (Fin nPtePerTable)} {a : UInt64} {oldsz newsz : UInt64}
  {fs tabs : List Nat}

/-! ### Frames -/

/-- The frame of page `n`. -/
def Memory.frame (m : Memory) (r n : Nat) : Nat := ((m.lookup r n).map pteAddress).getD 0

/-- The frames of `cnt` pages from page `k` on. -/
def Memory.framesOf (m : Memory) (r k cnt : Nat) : List Nat := (List.range' k cnt).map (m.frame r)

theorem frame_of_lookup {w : UInt64} (h : m.lookup r n = some w) : m.frame r n = pteAddress w := by
  rw [Memory.frame, h, Option.map_some, Option.getD_some]

theorem framesOf_succ (m : Memory) (r k cnt : Nat) :
    m.framesOf r k (cnt + 1) = m.frame r k :: m.framesOf r (k + 1) cnt := rfl

theorem framesOf_congr (h : ∀ n, k ≤ n → n < k + cnt → m'.lookup r n = m.lookup r n) :
    m'.framesOf r k cnt = m.framesOf r k cnt := by
  refine List.map_congr_left fun n hn => ?_
  rw [List.mem_range'_1] at hn
  rw [Memory.frame, Memory.frame, h n hn.1 hn.2]

/-- The pages are mapped to frames of their own. -/
structure Backed (kend : Nat) (m : Memory) (r k cnt : Nat) : Prop where
  mapped : ∀ n, k ≤ n → n < k + cnt → ∃ w, m.lookup r n = some w ∧ pteFlags w ≠ pteValid
  isPage : ∀ n, k ≤ n → n < k + cnt → IsPage kend (m.frame r n)
  used : ∀ n, k ≤ n → n < k + cnt → m.frame r n ∉ m.free ∧ ¬ m.IsTable r (m.frame r n)
  distinct : ∀ n n', k ≤ n → n < k + cnt → k ≤ n' → n' < k + cnt → m.frame r n = m.frame r n' → n = n'

theorem Backed.mono {k' cnt' : Nat} (h : Backed kend m r k cnt) (hk : k ≤ k') (hcnt : k' + cnt' ≤ k + cnt) :
    Backed kend m r k' cnt' where
  mapped n h1 h2 := h.mapped n (by omega) (by omega)
  isPage n h1 h2 := h.isPage n (by omega) (by omega)
  used n h1 h2 := h.used n (by omega) (by omega)
  distinct n n' h1 h2 h3 h4 := h.distinct n n' (by omega) (by omega) (by omega) (by omega)

/-- The pages are still mapped, and their frames are used for nothing else. -/
theorem Backed.congr (h : Backed kend m r k cnt) (hlookup : ∀ n, k ≤ n → n < k + cnt → m'.lookup r n = m.lookup r n)
    (hused : ∀ n, k ≤ n → n < k + cnt → m.frame r n ∉ m'.free ∧ ¬ m'.IsTable r (m.frame r n)) :
    Backed kend m' r k cnt := by
  have hframe : ∀ n, k ≤ n → n < k + cnt → m'.frame r n = m.frame r n := fun n h1 h2 => by
    rw [Memory.frame, Memory.frame, hlookup n h1 h2]
  refine ⟨fun n h1 h2 => ?_, fun n h1 h2 => ?_, fun n h1 h2 => ?_, fun n n' h1 h2 h3 h4 => ?_⟩
  · rw [hlookup n h1 h2]
    exact h.mapped n h1 h2
  · rw [hframe n h1 h2]
    exact h.isPage n h1 h2
  · rw [hframe n h1 h2]
    exact hused n h1 h2
  · rw [hframe n h1 h2, hframe n' h3 h4]
    exact h.distinct n n' h1 h2 h3 h4

/-! ### Unmapping -/

/-- `kfree` puts a page on the free list that is in no address space. -/
theorem IsPgdir.give (h : IsPgdir kend m r) (hp : IsPage kend p) (hfree : p ∉ m.free) (htable : ¬ m.IsTable r p) :
    IsPgdir kend (m.freed p) r ∧ (∀ π, π.length ≤ 3 → (m.freed p).table r π = m.table r π) ∧
      ∀ n, (m.freed p).lookup r n = m.lookup r n := by
  have hne : ∀ t, m.IsTable r t → t ≠ p := fun t ht he => htable (he ▸ ht)
  refine h.congr (fun t ht => update_of_ne (hne t ht) ..) (List.nodup_cons.mpr ⟨hfree, h.nodup⟩)
    (fun q hq => ?_) fun t ht hmem => ?_
  · rcases List.mem_cons.mp hq with rfl | hq
    · exact hp
    · exact h.isPage q hq
  · rcases List.mem_cons.mp hmem with he | hmem
    · exact hne t ht he
    · exact h.apart t ht hmem

/-- What `uvmunmap` leaves: the frames are free, and nothing else has changed. -/
structure Unmapped (kend r k cnt : Nat) (m m' : Memory) : Prop where
  pgdir : IsPgdir kend m' r
  free : m'.free = (m.framesOf r k cnt).reverse ++ m.free
  table : ∀ π, π.length ≤ 3 → m'.table r π = m.table r π
  lookup : ∀ n < 2 ^ 36, m'.lookup r n = if k ≤ n ∧ n < k + cnt then none else m.lookup r n
  page : ∀ p, ¬ m.IsTable r p → p ∉ m.framesOf r k cnt → m'.page p = m.page p

theorem uvmunmapFrom_spec (h : IsPgdir kend m r) (hb : Backed kend m r k cnt) (ha : a.toNat = pageSize * k)
    (hk : k + cnt ≤ 2 ^ 36) :
    ∃ m', (uvmunmapFrom kend r true cnt a).run m = .ok () m' ∧ Unmapped kend r k cnt m m' := by
  induction cnt generalizing m a k with
  | zero =>
    refine ⟨m, rfl, h, rfl, fun _ _ => rfl, fun n _ => ?_, fun _ _ _ => rfl⟩
    rw [if_neg (by omega)]
  | succ cnt ih =>
    have hn : a.toNat / pageSize = k := by
      rw [ha]
      exact Nat.mul_div_cancel_left k (by decide)
    obtain ⟨w, hw, hflags⟩ := hb.mapped k (Nat.le_refl k) (by omega)
    obtain ⟨pte, hslot, hvalid, hpte⟩ := (lookup_eq_some ..).mp hw
    have hframe := frame_of_lookup hw
    have hpage := hb.isPage k (Nat.le_refl k) (by omega)
    obtain ⟨hused, hnotTable⟩ := hb.used k (Nat.le_refl k) (by omega)
    obtain ⟨h1, htable1, hlookup1⟩ := h.give hpage hused hnotTable
    have hslot1 : (m.freed (m.frame r k)).slot r k = some pte := by
      rw [← hslot, Memory.slot, Memory.slot, htable1 _ (length_pathFrom k 3).le]
    obtain ⟨hset, htable2, hlookup2⟩ := h1.setPte (by omega) hslot1 0
    obtain ⟨m2, hm2⟩ : ∃ m2, (m.freed (m.frame r k)).setPte pte 0 = m2 := ⟨_, rfl⟩
    rw [hm2] at hset htable2 hlookup2
    have htable : ∀ π, π.length ≤ 3 → m2.table r π = m.table r π :=
      fun π hπ => (htable2 π hπ).trans (htable1 π hπ)
    have hlookup : ∀ n < 2 ^ 36, m2.lookup r n = if n = k then none else m.lookup r n := fun n hn => by
      rw [hlookup2 n hn, hlookup1, if_neg (by decide : ¬ isValid 0 = true)]
    have hrest : ∀ n, k + 1 ≤ n → n < k + 1 + cnt → m2.lookup r n = m.lookup r n := fun n h1 h2 => by
      rw [hlookup n (by omega), if_neg (by omega)]
    have hfree2 : m2.free = m.frame r k :: m.free := by rw [← hm2]; rfl
    have hb2 : Backed kend m2 r (k + 1) cnt := by
      refine (hb.mono (Nat.le_succ k) (by omega)).congr hrest fun n h1 h2 => ?_
      rw [hfree2, List.mem_cons, not_or, isTable_congr htable]
      obtain ⟨hn, hn'⟩ := hb.used n (by omega) (by omega)
      refine ⟨⟨fun he => ?_, hn⟩, hn'⟩
      have := hb.distinct n k (by omega) (by omega) (Nat.le_refl k) (by omega) he
      omega
    obtain ⟨m', hrun, hum⟩ := ih hset.pgdir hb2 (toNat_add_page ha (by omega)) (by omega)
    have hsame : m2.framesOf r (k + 1) cnt = m.framesOf r (k + 1) cnt := framesOf_congr hrest
    refine ⟨m', ?_, hum.pgdir, ?_, fun π hπ => (hum.table π hπ).trans (htable π hπ), fun n hn => ?_,
      fun q hq hnot => ?_⟩
    · rw [uvmunmapFrom, bind_ok (pgdirWalk_lookup m r a), hn, hslot]
      dsimp only
      rw [bind_ok (get_run m), hpte, hvalid, Bool.not_true, if_neg Bool.false_ne_true, if_neg hflags, if_pos rfl,
        ← hframe, bind_ok (kfree_run m hpage), bind_ok (modify_run _ _), hm2]
      exact hrun
    · rw [hum.free, hsame, hfree2, framesOf_succ, List.reverse_cons, List.append_assoc]
      rfl
    · rw [hum.lookup n hn]
      by_cases hin : k + 1 ≤ n ∧ n < k + 1 + cnt
      · rw [if_pos hin, if_pos (by omega)]
      · rw [if_neg hin, hlookup n hn]
        by_cases hnk : n = k
        · rw [if_pos hnk, if_pos (by omega)]
        · rw [if_neg hnk, if_neg (by omega)]
    · rw [framesOf_succ, List.mem_cons, not_or] at hnot
      have htables := isTable_congr htable q
      rw [hum.page q (by rw [htables]; exact hq) (by rw [hsame]; exact hnot.2), ← hm2]
      have hne : q ≠ pte.1 := fun he => hq (he ▸ isTable_of_slot hslot)
      show update (m.freed _).page pte.1 _ q = _
      rw [update_of_ne hne]
      exact update_of_ne hnot.1 ..

/-! ### Sizes -/

/-- How many pages `sz` bytes take. -/
def pageCount (sz : Nat) : Nat := (sz + (pageSize - 1)) / pageSize

theorem pageCount_mono {a b : Nat} (h : a ≤ b) : pageCount a ≤ pageCount b :=
  Nat.div_le_div_right (Nat.add_le_add_right h _)

theorem toNat_roundUp (ha : a.toNat < 2 ^ 63) : (roundUp a).toNat = pageSize * pageCount a.toNat := by
  rw [roundUp, toNat_roundDown, toNat_add_last (by omega)]
  show _ = 4096 * ((a.toNat + 4095) / 4096)
  omega

theorem toInt_toInt (h : a.toNat < 2 ^ 31) : (toInt a).toInt = a.toNat := by
  have h32 : a.toUInt32.toBitVec.toNat = a.toNat := by
    show a.toUInt32.toNat = a.toNat
    rw [UInt64.toNat_toUInt32]
    omega
  show a.toUInt32.toBitVec.toInt = _
  rw [BitVec.toInt_eq_toNat_of_lt (by rw [h32]; omega), h32]

theorem ofInt_toInt (h : a.toNat < 2 ^ 31) : ofInt (toInt a) = a := by
  have hwide : (toInt a).toInt64.toBitVec.toInt = a.toNat := by
    show (toInt a).toInt64.toInt = _
    rw [Int32.toInt_toInt64, toInt_toInt h]
  apply UInt64.toNat_inj.mp
  show (toInt a).toInt64.toBitVec.toNat = a.toNat
  rw [BitVec.toInt_eq_toNat_cond] at hwide
  split at hwide
  · exact_mod_cast hwide
  · have := (toInt a).toInt64.toBitVec.isLt
    omega

theorem toNat_ofNat_pages (h : cnt < 2 ^ 36) : (UInt64.ofNat cnt).toNat = cnt := Nat.mod_eq_of_lt (by omega)

/-- From a page boundary on, `uvmunmap` goes through as many pages as it is told. -/
theorem uvmunmap_eq {doFree : Bool} (ha : a.toNat = pageSize * k) (hk : k + cnt < 2 ^ 36) :
    uvmunmap kend r a (.ofNat cnt) doFree = uvmunmapFrom kend r doFree cnt a := by
  have ha' : a.toNat = 4096 * k := ha
  have hstop : (a + UInt64.ofNat cnt * 4096).toNat = 4096 * (k + cnt) := by
    rw [UInt64.toNat_add, UInt64.toNat_mul, toNat_ofNat_pages (by omega), ha']
    show (_ + _ * 4096 % 2 ^ 64) % 2 ^ 64 = _
    omega
  have halign : ¬ a % 4096 ≠ 0 := by
    rw [not_not]
    apply UInt64.toNat_inj.mp
    rw [UInt64.toNat_mod, ha']
    exact Nat.mul_mod_right ..
  have hpages :
      (if a < a + UInt64.ofNat cnt * 4096 then ((a + UInt64.ofNat cnt * 4096 - a) / 4096).toNat else 0) = cnt := by
    split
    case isTrue hlt =>
      rw [UInt64.toNat_div, UInt64.toNat_sub_of_le _ _ (UInt64.le_of_lt hlt), hstop, ha']
      show (4096 * _ - 4096 * _) / 4096 = _
      omega
    case isFalse hge =>
      rw [UInt64.lt_iff_toNat_lt, hstop, ha'] at hge
      omega
  rw [uvmunmap, if_neg halign]
  dsimp only
  rw [hpages]

/-- `uvm_dealloc` unmaps the pages between the sizes. -/
theorem uvmDealloc_eq (oldsz newsz : UInt64) (hlt : newsz < oldsz) (hold : pageCount oldsz.toNat < 2 ^ 31) :
    uvmDealloc kend r oldsz newsz = uvmunmapFrom kend r true (pageCount oldsz.toNat - pageCount newsz.toNat)
      (roundUp newsz) >>= fun _ => pure 0 := by
  rw [UInt64.lt_iff_toNat_lt] at hlt
  have hold' : (oldsz.toNat + 4095) / 4096 < 2 ^ 31 := hold
  have hup : (roundUp oldsz).toNat = 4096 * pageCount oldsz.toNat := toNat_roundUp (by omega)
  have hup' : (roundUp newsz).toNat = 4096 * pageCount newsz.toNat := toNat_roundUp (by omega)
  have hmono : pageCount newsz.toNat ≤ pageCount oldsz.toNat := pageCount_mono hlt.le
  have hstart : ¬ oldsz ≤ newsz := by
    rw [UInt64.le_iff_toNat_le]
    omega
  rw [uvmDealloc, if_neg hstart]
  by_cases hless : roundUp newsz < roundUp oldsz
  · have hcount : (roundUp oldsz - roundUp newsz) / 4096 =
        UInt64.ofNat (pageCount oldsz.toNat - pageCount newsz.toNat) := by
      apply UInt64.toNat_inj.mp
      rw [UInt64.toNat_div, UInt64.toNat_sub_of_le _ _ (UInt64.le_of_lt hless), hup, hup',
        toNat_ofNat_pages (by omega)]
      show (4096 * _ - 4096 * _) / 4096 = _
      omega
    rw [if_pos hless, hcount]
    dsimp only
    rw [ofInt_toInt (by rw [toNat_ofNat_pages (by omega)]; omega), uvmunmap_eq hup' (by omega)]
  · have hsame : pageCount oldsz.toNat - pageCount newsz.toNat = 0 := by
      rw [UInt64.lt_iff_toNat_lt, hup, hup'] at hless
      omega
    rw [if_neg hless, hsame]
    rfl

/-- Shrinking gives back the frames of the pages that are no longer there. -/
theorem uvmDealloc_spec (oldsz newsz : UInt64) (h : IsPgdir kend m r) (hlt : newsz < oldsz)
    (hold : pageCount oldsz.toNat < 2 ^ 31)
    (hb : Backed kend m r (pageCount newsz.toNat) (pageCount oldsz.toNat - pageCount newsz.toNat)) :
    ∃ m', (uvmDealloc kend r oldsz newsz).run m = .ok 0 m' ∧
      Unmapped kend r (pageCount newsz.toNat) (pageCount oldsz.toNat - pageCount newsz.toNat) m m' := by
  have hold' : (oldsz.toNat + 4095) / 4096 < 2 ^ 31 := hold
  have hlt' := UInt64.lt_iff_toNat_lt.mp hlt
  have hmono : pageCount newsz.toNat ≤ pageCount oldsz.toNat := pageCount_mono hlt'.le
  obtain ⟨m', hrun, hum⟩ := uvmunmapFrom_spec h hb (toNat_roundUp (by omega)) (by omega)
  exact ⟨m', by rw [uvmDealloc_eq _ _ hlt hold]; exact bind_ok hrun, hum⟩

theorem pageCount_pages (n : Nat) : pageCount (pageSize * n) = n := by
  show (4096 * n + 4095) / 4096 = n
  omega

/-- The same for sizes of whole pages. -/
theorem uvmDealloc_pages (h : IsPgdir kend m r) (hb : Backed kend m r k cnt) (hnew : newsz.toNat = pageSize * k)
    (hold : oldsz.toNat = pageSize * (k + cnt)) (hk : k + cnt < 2 ^ 31) :
    ∃ x m', (uvmDealloc kend r oldsz newsz).run m = .ok x m' ∧ Unmapped kend r k cnt m m' := by
  have hnew' : newsz.toNat = 4096 * k := hnew
  have hold' : oldsz.toNat = 4096 * (k + cnt) := hold
  cases cnt with
  | zero =>
    have hle : oldsz ≤ newsz := by
      rw [UInt64.le_iff_toNat_le]
      omega
    rw [uvmDealloc, if_pos hle]
    exact ⟨_, m, rfl, h, rfl, fun _ _ => rfl, fun n _ => by rw [if_neg (by omega)], fun _ _ _ => rfl⟩
  | succ cnt =>
    have hcount : k + (cnt + 1) - k = cnt + 1 := by omega
    have hspec := uvmDealloc_spec oldsz newsz h (by rw [UInt64.lt_iff_toNat_lt]; omega)
    rw [hnew, hold, pageCount_pages, pageCount_pages, hcount] at hspec
    obtain ⟨m', hrun, hum⟩ := hspec hk hb
    exact ⟨0, m', hrun, hum⟩

/-- It panics if the first of the pages is not mapped. -/
theorem uvmDealloc_unmapped (hnone : m.lookup r k = none) (hnew : newsz.toNat = pageSize * k)
    (hold : oldsz.toNat = pageSize * n) (hlt : k < n) (hn : n < 2 ^ 31) :
    ∃ e m', (uvmDealloc kend r oldsz newsz).run m = .error e m' := by
  have hnew' : newsz.toNat = 4096 * k := hnew
  have hold' : oldsz.toNat = 4096 * n := hold
  obtain ⟨d, hd⟩ : ∃ d, n - k = d + 1 := ⟨n - k - 1, by omega⟩
  have hup : (roundUp newsz).toNat / pageSize = k := by
    rw [toNat_roundUp (by omega), hnew, pageCount_pages]
    exact Nat.mul_div_cancel_left k (by decide)
  rw [uvmDealloc_eq _ _ (by rw [UInt64.lt_iff_toNat_lt]; omega) (by rwa [hold, pageCount_pages]), hnew, hold,
    pageCount_pages, pageCount_pages, hd, uvmunmapFrom, bind_assoc, bind_ok (pgdirWalk_lookup m r _), hup]
  rw [Memory.lookup] at hnone
  cases hslot : m.slot r k with
  | none => exact ⟨_, _, rfl⟩
  | some pte =>
    have hinvalid : isValid (m.pte pte) = false := by
      by_contra hvalid
      rw [hslot, Option.bind_some, if_pos (Bool.not_eq_false _ ▸ hvalid)] at hnone
      cases hnone
    dsimp only
    rw [bind_assoc, bind_ok (get_run m), hinvalid]
    exact ⟨_, _, rfl⟩

/-! ### Frames that are taken -/

theorem pathsOf_succ (k j : Nat) : pathsOf k (j + 1) = pathsOf k j ∪ paths (k + j) := by
  induction j generalizing k with
  | zero => exact union_comm ..
  | succ j ih => rw [pathsOf, ih, pathsOf, union_assoc, Nat.add_right_comm k 1 j, Nat.add_assoc]

theorem pathsOf_add (k j j' : Nat) : pathsOf k (j + j') = pathsOf k j ∪ pathsOf (k + j) j' := by
  induction j' with
  | zero => exact (union_empty _).symm
  | succ j' ih => rw [← Nat.add_assoc, pathsOf_succ, ih, pathsOf_succ, union_assoc, Nat.add_assoc k]

theorem pathsOf_subset (k : Nat) {j j' : Nat} (h : j ≤ j') : pathsOf k j ⊆ pathsOf k j' := by
  induction h with
  | refl => exact Finset.Subset.refl _
  | step _ ih => exact ih.trans (by rw [Nat.succ_eq_add_one, pathsOf_succ]; exact subset_union_left)

/-- The pages from `k` on have been mapped to the frames `fs`, which hold `words`; they and
the new tables `tabs` come from the free list. -/
structure Filled (kend r k : Nat) (m m' : Memory) (fs tabs : List Nat) (words : Nat → Fin nPtePerTable → UInt64) :
    Prop where
  pgdir : IsPgdir kend m' r
  free : (fs ++ tabs ++ m'.free).Perm m.free
  tables : ∀ t, m'.IsTable r t ↔ m.IsTable r t ∨ t ∈ tabs
  count : tabs.length = m.missing r (pathsOf k fs.length)
  table : ∀ π, π.length ≤ 3 → (m'.table r π = none ↔ m.table r π = none ∧ π ∉ pathsOf k fs.length)
  lookup : ∀ n < 2 ^ 36, m'.lookup r n =
    if k ≤ n ∧ n < k + fs.length then some (userEntry (fs.getD (n - k) 0)) else m.lookup r n
  words : ∀ i < fs.length, m'.page (fs.getD i 0) = words i
  page : ∀ p, p ∉ m.free → ¬ m.IsTable r p → m'.page p = m.page p

/-- A frame was not mapped, for want of a page for its tables. -/
structure Failed (kend r : Nat) (m m' : Memory) : Prop where
  pgdir : IsPgdir kend m' r
  free : m'.free = []
  tables : ∀ t, m'.IsTable r t → m.IsTable r t ∨ t ∈ m.free.tail
  lookup : ∀ n < 2 ^ 36, m'.lookup r n = m.lookup r n
  page : ∀ q, ¬ m.IsTable r q → q ∉ m.free → m'.page q = m.page q

/-- The frame is given back. -/
theorem Failed.give {rest : List Nat} (h : Failed kend r m m') (h0 : IsPgdir kend m r) (hfree : m.free = p :: rest) :
    (kfree kend p).run m' = .ok () (m'.freed p) ∧ IsPgdir kend (m'.freed p) r ∧
      (∀ n < 2 ^ 36, (m'.freed p).lookup r n = m.lookup r n) ∧
      ∀ k cnt, k + cnt ≤ 2 ^ 36 → Backed kend m r k cnt → Backed kend (m'.freed p) r k cnt := by
  have hmem : p ∈ m.free := hfree ▸ List.mem_cons_self
  have hpage := h0.isPage p hmem
  have hnodup := h0.nodup
  have htail := h.tables
  rw [hfree] at hnodup htail
  have hnot : ¬ m'.IsTable r p := fun ht =>
    (htail p ht).elim (fun ht => h0.apart p ht hmem) (List.nodup_cons.mp hnodup).1
  obtain ⟨hdir, htable, hlookup⟩ := h.pgdir.give hpage (by rw [h.free]; exact List.not_mem_nil) hnot
  have hsame : ∀ n < 2 ^ 36, (m'.freed p).lookup r n = m.lookup r n := fun n hn => by
    rw [hlookup, h.lookup n hn]
  refine ⟨kfree_run m' hpage, hdir, hsame, fun k cnt hk hb => ?_⟩
  refine hb.congr (fun n _ _ => hsame n (by omega)) fun n h1 h2 => ?_
  obtain ⟨hused, hnt⟩ := hb.used n h1 h2
  rw [isTable_congr htable]
  refine ⟨fun hq => ?_, fun ht => (h.tables _ ht).elim hnt fun hq => hused (List.mem_of_mem_tail hq)⟩
  have hq : m.frame r n ∈ p :: m'.free := hq
  rw [h.free, List.mem_singleton] at hq
  exact hused (hq ▸ hmem)

namespace Filled
variable {fs tabs : List Nat} {words : Nat → Fin nPtePerTable → UInt64}

theorem refl (h : IsPgdir kend m r) (k : Nat) (words : Nat → Fin nPtePerTable → UInt64) :
    Filled kend r k m m [] [] words := by
  refine ⟨h, .refl _, fun _ => by simp, rfl, fun π _ => ?_, fun n _ => ?_, fun i hi => absurd hi (Nat.not_lt_zero i),
    fun _ _ _ => rfl⟩
  · rw [List.length_nil, pathsOf]
    simp
  · rw [List.length_nil, if_neg (by omega)]

theorem length_free (h : Filled kend r k m m' fs tabs words) :
    m.free.length = fs.length + m.missing r (pathsOf k fs.length) + m'.free.length := by
  rw [← h.free.length_eq, List.length_append, List.length_append, h.count]

section
variable (h0 : IsPgdir kend m r) (h : Filled kend r k m m' fs tabs words)
include h0 h

/-- A frame that has been taken is nothing else. -/
theorem mem_frames (hp : p ∈ fs) : p ∈ m.free ∧ p ∉ m'.free ∧ ¬ m'.IsTable r p := by
  have hmem : p ∈ m.free := h.free.subset (List.mem_append_left _ (List.mem_append_left _ hp))
  have hnodup := h.free.nodup_iff.mpr h0.nodup
  rw [List.nodup_append, List.nodup_append] at hnodup
  refine ⟨hmem, fun hfree => hnodup.2.2 p (List.mem_append_left _ hp) p hfree rfl, ?_⟩
  rw [h.tables, not_or]
  exact ⟨fun ht => h0.apart p ht hmem, fun ht => hnodup.1.2.2 p hp p ht rfl⟩

theorem nodup : fs.Nodup := by
  have hnodup := h.free.nodup_iff.mpr h0.nodup
  rw [List.nodup_append, List.nodup_append] at hnodup
  exact hnodup.1.1

omit h0 h in
theorem getD_mem {i : Nat} (hi : i < fs.length) : fs.getD i 0 ∈ fs := by
  rw [List.getD_eq_getElem _ _ hi]
  exact List.getElem_mem hi

omit h0 h in
/-- One more frame is taken, filled and mapped, or there are too few pages for the tables. -/
theorem step {rest : List Nat} (m2 : Memory) (h0 : IsPgdir kend m r) (h : Filled kend r k m m1 fs tabs words)
    (hfree : m1.free = p :: rest) (hself : m2.page p = words fs.length) (hother : ∀ q, q ≠ p → m2.page q = m1.page q)
    (hrest : m2.free = rest) (ha : a.toNat = pageSize * (k + fs.length)) (hk : k + fs.length < 2 ^ 36)
    (hnone : m.lookup r (k + fs.length) = none) :
    ∃ res m', (uvmMap r a 4096 (.ofNat p)).run m2 = .ok res m' ∧
      (res = 0 ∧ (∃ tabs', Filled kend r k m m' (fs ++ [p]) tabs' words) ∨
        res = -1 ∧ m.free.length < fs.length + 1 + m.missing r (pathsOf k (fs.length + 1)) ∧
          Failed kend r m1 m') := by
  have ha' : a.toNat = 4096 * (k + fs.length) := ha
  have hmem : p ∈ m1.free := hfree ▸ List.mem_cons_self
  have hnotTable : ¬ m1.IsTable r p := fun ht => h.pgdir.apart p ht hmem
  have hsub : ∀ q ∈ rest, q ∈ m1.free := fun q hq => hfree ▸ List.mem_cons_of_mem p hq
  have hnodup1 := h.pgdir.nodup
  rw [hfree] at hnodup1
  obtain ⟨h2, htable2, hlookup2⟩ := h.pgdir.congr (fun t ht => hother t fun he => hnotTable (he ▸ ht))
    (hrest ▸ hnodup1.of_cons) (fun q hq => h.pgdir.isPage q (hsub q (hrest ▸ hq)))
    fun t ht hq => h.pgdir.apart t ht (hsub t (hrest ▸ hq))
  have htables2 := isTable_congr htable2
  have hpage := h.pgdir.isPage p hmem
  have hp : p < 0x3F000000 := hpage.2.2
  have hnat := toNat_ofNat_page hpage
  have hspec := uvmMap_spec a 4096 (.ofNat p) h2 (by decide) (by show _ + 4096 ≤ _; omega)
    (by rw [hnat]; show p + 4096 + 2 * 4096 ≤ _; omega)
  have hn : a.toNat / pageSize = k + fs.length := by
    rw [ha]
    exact Nat.mul_div_cancel_left _ (by decide)
  rw [mapPages_page (by rw [ha']; exact Nat.mul_mod_right ..), hn, hnat] at hspec
  have hone : pathsOf (k + fs.length) 1 = paths (k + fs.length) := union_empty _
  have hnone2 : ∀ π ∈ paths (k + fs.length), m2.table r π = none ↔ m.table r π = none ∧ π ∉ pathsOf k fs.length :=
    fun π hπ => by rw [htable2 π (length_of_mem_paths hπ), h.table π (length_of_mem_paths hπ)]
  have hmissing : m.missing r (pathsOf k (fs.length + 1)) =
      m.missing r (pathsOf k fs.length) + m2.missing r (paths (k + fs.length)) := by
    rw [pathsOf_succ, missing_union hnone2]
  cases hrun : (uvmMap r a 4096 (.ofNat p)).run m2 with
  | error e m' =>
    obtain ⟨-, i, hi, hmapped⟩ := hspec.of_error hrun
    obtain rfl : i = 0 := by omega
    refine absurd ?_ hmapped
    rw [Nat.add_zero, hlookup2, h.lookup _ hk, if_neg (by omega), hnone]
  | ok res m' =>
    refine ⟨res, m', rfl, ?_⟩
    obtain ⟨j, tabs', -, hgrows, -, hmaps, hcase⟩ := hspec.of_ok hrun
    rw [hone] at hcase
    rcases hcase with ⟨hres, rfl, hcount, htable'⟩ | ⟨hres, hj, hempty, hlt⟩
    · refine Or.inl ⟨hres, tabs ++ tabs', ?_⟩
      have hfree2 : rest = tabs' ++ m'.free := hrest ▸ hgrows.free
      have htabs' : ∀ q ∈ tabs', q ∈ rest := fun q hq => hfree2 ▸ List.mem_append_left _ hq
      have hperm : (fs ++ [p] ++ (tabs ++ tabs') ++ m'.free).Perm m.free := by
        refine .trans (List.perm_iff_count.mpr fun x => ?_) h.free
        rw [hfree, hfree2]
        simp only [List.count_append, List.count_cons, List.count_nil]
        omega
      have hlen : (fs ++ [p]).length = fs.length + 1 := by rw [List.length_append, List.length_singleton]
      refine ⟨hgrows.pgdir, hperm, fun t => ?_, ?_, fun π hπ => ?_, fun n hn => ?_, fun i hi => ?_, fun q hq ht => ?_⟩
      · rw [hgrows.tables, htables2, h.tables, List.mem_append, or_assoc]
      · rw [List.length_append, hcount, h.count, hlen, hmissing]
      · rw [htable' π hπ, htable2 π hπ, h.table π hπ, hlen, pathsOf_succ, mem_union, not_or, and_assoc]
      · rw [hmaps n hn, hlookup2, h.lookup n hn, hlen]
        by_cases hlast : n = k + fs.length
        · rw [if_pos (by omega), if_pos (by omega), hlast, Nat.sub_self, Nat.add_sub_cancel_left,
            List.getD_append_right _ _ _ _ le_rfl, Nat.sub_self]
          rfl
        · rw [if_neg (by omega)]
          by_cases hin : k ≤ n ∧ n < k + fs.length
          · rw [if_pos hin, if_pos (by omega), List.getD_append _ _ _ _ (by omega)]
          · rw [if_neg hin, if_neg (by omega)]
      · by_cases hlast : i = fs.length
        · rw [hlast, List.getD_append_right _ _ _ _ le_rfl, Nat.sub_self, ← hself]
          refine hgrows.page p (by rw [htables2]; exact hnotTable) fun hq => ?_
          exact (List.nodup_cons.mp hnodup1).1 (htabs' p hq)
        · rw [hlen] at hi
          have hlt : i < fs.length := by omega
          rw [List.getD_append _ _ _ _ hlt, ← h.words i hlt]
          obtain ⟨-, hnot, hnt⟩ := h.mem_frames h0 (getD_mem hlt)
          rw [hgrows.page _ (by rw [htables2]; exact hnt) fun hq => hnot (hsub _ (htabs' _ hq))]
          exact hother _ fun he => hnot (he ▸ hmem)
      · have hnot : q ∉ m1.free := fun hq' => hq (h.free.subset (List.mem_append_right _ hq'))
        have hnt : ¬ m1.IsTable r q := by
          rw [h.tables, not_or]
          exact ⟨ht, fun hq' => hq (h.free.subset (List.mem_append_left _ (List.mem_append_right _ hq')))⟩
        rw [hgrows.page q (by rw [htables2]; exact hnt) fun hq' => hnot (hsub q (htabs' q hq')),
          hother q fun he => hnot (he ▸ hmem), h.page q hq ht]
    · have htabs : ∀ q ∈ tabs', q ∈ rest := fun q hq => hrest ▸ hgrows.free ▸ List.mem_append_left _ hq
      refine Or.inr ⟨hres, ?_, hgrows.pgdir, hempty, fun t ht => ?_, fun n hn => ?_, fun q hq hnot => ?_⟩
      · have hlength := h.length_free
        rw [hfree, List.length_cons] at hlength
        rw [hrest] at hlt
        omega
      · rw [hfree]
        exact ((hgrows.tables t).mp ht).imp (htables2 t).mp (htabs t)
      · rw [hmaps n hn, if_neg (by omega), hlookup2]
      · rw [hgrows.page q (by rwa [htables2]) fun hq' => hnot (hsub q (htabs q hq'))]
        exact hother q fun he => hnot (he ▸ hmem)

/-- The frame of a page that has been mapped. -/
theorem frame (hk : k + fs.length ≤ 2 ^ 36) (h1 : k ≤ n) (h2 : n < k + fs.length) :
    m'.frame r n = fs.getD (n - k) 0 := by
  have hlookup := h.lookup n (by omega)
  rw [if_pos ⟨h1, h2⟩] at hlookup
  rw [frame_of_lookup hlookup]
  exact pteAddress_userEntry_page (h0.isPage _ (h.mem_frames h0 (getD_mem (by omega))).1)

theorem backed (hk : k + fs.length ≤ 2 ^ 36) : Backed kend m' r k fs.length := by
  have hpage : ∀ n, k ≤ n → n < k + fs.length → IsPage kend (fs.getD (n - k) 0) := fun n h1 h2 =>
    h0.isPage _ (h.mem_frames h0 (getD_mem (by omega))).1
  refine ⟨fun n h1 h2 => ?_, fun n h1 h2 => ?_, fun n h1 h2 => ?_, fun n n' h1 h2 h3 h4 he => ?_⟩
  · refine ⟨_, (h.lookup n (by omega)).trans (if_pos ⟨h1, h2⟩), ?_⟩
    rw [pteFlags_userEntry (hpage n h1 h2).1]
    decide
  · rw [h.frame h0 hk h1 h2]
    exact hpage n h1 h2
  · rw [h.frame h0 hk h1 h2]
    exact (h.mem_frames h0 (getD_mem (by omega))).2
  · rw [h.frame h0 hk h1 h2, h.frame h0 hk h3 h4, List.getD_eq_getElem _ _ (by omega),
      List.getD_eq_getElem _ _ (by omega)] at he
    have := (h.nodup h0).getElem_inj_iff.mp he
    omega

theorem framesOf (hk : k + fs.length ≤ 2 ^ 36) : m'.framesOf r k fs.length = fs := by
  refine List.ext_getElem (by rw [Memory.framesOf, List.length_map, List.length_range']) fun i h1 h2 => ?_
  simp only [Memory.framesOf, List.getElem_map, List.getElem_range', Nat.one_mul]
  rw [h.frame h0 hk (by omega) (by omega), Nat.add_sub_cancel_left, List.getD_eq_getElem _ _ h2]

end

end Filled

/-- The map is as it was, and but for new tables so is the free list. -/
structure Restored (kend r : Nat) (m m' : Memory) (tabs : List Nat) : Prop where
  pgdir : IsPgdir kend m' r
  free : (tabs ++ m'.free).Perm m.free
  tables : ∀ t, m'.IsTable r t ↔ m.IsTable r t ∨ t ∈ tabs
  lookup : ∀ n < 2 ^ 36, m'.lookup r n = m.lookup r n
  page : ∀ p, p ∉ m.free → ¬ m.IsTable r p → m'.page p = m.page p

/-- Unmapping what has been mapped gives all frames back. -/
theorem Filled.undo {words : Nat → Fin nPtePerTable → UInt64} (h0 : IsPgdir kend m r)
    (h : Filled kend r k m m1 fs tabs words) (hk : k + fs.length ≤ 2 ^ 36)
    (hnone : ∀ n, k ≤ n → n < k + fs.length → m.lookup r n = none) (hum : Unmapped kend r k fs.length m1 m') :
    Restored kend r m m' tabs := by
  have hfs := h.framesOf h0 hk
  have htables := isTable_congr hum.table
  refine ⟨hum.pgdir, ?_, fun t => by rw [htables, h.tables], fun n hn => ?_, fun p hp ht => ?_⟩
  · rw [hum.free, hfs]
    refine .trans (List.perm_iff_count.mpr fun x => ?_) h.free
    simp only [List.count_append, List.count_reverse]
    omega
  · rw [hum.lookup n hn, h.lookup n hn]
    split
    case isTrue hin => rw [hnone n hin.1 hin.2]
    case isFalse => rfl
  · have hnt : ¬ m1.IsTable r p := by
      rw [h.tables, not_or]
      exact ⟨ht, fun hmem => hp (h.free.subset (List.mem_append_left _ (List.mem_append_right _ hmem)))⟩
    rw [hum.page p hnt fun hmem => hp (h.mem_frames h0 (hfs ▸ hmem)).1, h.page p hp ht]

/-! ### Growing -/

/-- A round of the loop of `uvm_alloc`. There is no frame, and the loop ends; or the page is
mapped; or there are too few pages for its tables, and it is left out. -/
theorem uvmAllocFrom_round (oldsz newsz : UInt64) (cnt : Nat) (h0 : IsPgdir kend m r)
    (h : Filled kend r k m m1 fs tabs fun _ _ => 0) (ha : a.toNat = pageSize * (k + fs.length))
    (hk : k + fs.length < 2 ^ 31) (hnone : m.lookup r (k + fs.length) = none) :
    m.free.length = fs.length + m.missing r (pathsOf k fs.length) ∧
        (uvmAllocFrom kend r oldsz newsz (cnt + 1) a).run m1 =
          (uvmDealloc kend r a oldsz >>= fun _ => pure 0).run m1 ∨
      fs.length + 1 + m.missing r (pathsOf k fs.length) ≤ m.free.length ∧
        ((∃ p m2 tabs', (fs ++ [p]).length = fs.length + 1 ∧ Filled kend r k m m2 (fs ++ [p]) tabs' (fun _ _ => 0) ∧
            (uvmAllocFrom kend r oldsz newsz (cnt + 1) a).run m1 =
              (uvmAllocFrom kend r oldsz newsz cnt (a + 4096)).run m2) ∨
          ∃ m2, m.free.length < fs.length + 1 + m.missing r (pathsOf k (fs.length + 1)) ∧ IsPgdir kend m2 r ∧
            (∀ n < 2 ^ 36, m2.lookup r n = m1.lookup r n) ∧
            (∀ k cnt, k + cnt ≤ 2 ^ 36 → Backed kend m1 r k cnt → Backed kend m2 r k cnt) ∧
            (uvmAllocFrom kend r oldsz newsz (cnt + 1) a).run m1 =
              (uvmDealloc kend r a oldsz >>= fun _ => uvmAllocFrom kend r oldsz newsz cnt (a + 4096)).run m2) := by
  have hlength := h.length_free
  rw [uvmAllocFrom]
  cases hfree : m1.free with
  | nil =>
    rw [hfree] at hlength
    rw [bind_ok ((kalloc_run m1).trans (by rw [hfree]))]
    exact Or.inl ⟨hlength, rfl⟩
  | cons p rest =>
    rw [hfree, List.length_cons] at hlength
    refine Or.inr ⟨by omega, ?_⟩
    obtain ⟨res, m2, hmap, hcase⟩ := h.step (m1.taken p rest) h0 hfree (funext page_taken_self)
      (fun q hq => update_of_ne hq ..) rfl ha (by omega) hnone
    rw [bind_ok ((kalloc_run m1).trans (by rw [hfree]))]
    dsimp only
    rw [bind_ok hmap]
    rcases hcase with ⟨rfl, tabs', h'⟩ | ⟨rfl, hlt, hfailed⟩
    · exact Or.inl ⟨p, m2, tabs', List.length_append, h', by rw [if_neg (not_not.mpr rfl)]⟩
    · obtain ⟨hkfree, hdir, hlookup, hbacked⟩ := hfailed.give h.pgdir hfree
      refine Or.inr ⟨m2.freed p, hlt, hdir, hlookup, hbacked, ?_⟩
      rw [if_pos (by decide), bind_ok hkfree]

theorem missing_pathsOf_mono (m : Memory) (r k : Nat) {j j' : Nat} (h : j ≤ j') :
    m.missing r (pathsOf k j) ≤ m.missing r (pathsOf k j') :=
  card_le_card (filter_subset_filter _ (pathsOf_subset k h))

/-- The loop of `uvm_alloc`, if memory does not run out between the frame of a page and its
tables: it fills the pages, or it leaves the map as it was. -/
theorem uvmAllocFrom_spec {oldsz : UInt64} (newsz : UInt64) (h0 : IsPgdir kend m r)
    (h : Filled kend r k m m1 fs tabs fun _ _ => 0) (holdsz : oldsz.toNat = pageSize * k)
    (ha : a.toNat = pageSize * (k + fs.length)) (hk : k + fs.length + cnt < 2 ^ 31)
    (hnone : ∀ n, k ≤ n → n < k + fs.length + cnt → m.lookup r n = none)
    (hgap : ∀ i, fs.length ≤ i → i < fs.length + cnt → i + 1 + m.missing r (pathsOf k i) ≤ m.free.length →
      i + 1 + m.missing r (pathsOf k (i + 1)) ≤ m.free.length) :
    ∃ res m', (uvmAllocFrom kend r oldsz newsz cnt a).run m1 = .ok res m' ∧
      (res = toInt newsz ∧ (∃ fs' tabs', fs'.length = fs.length + cnt ∧ Filled kend r k m m' fs' tabs' fun _ _ => 0) ∨
        res = 0 ∧ (∃ tabs', Restored kend r m m' tabs') ∧
          m.free.length < fs.length + cnt + m.missing r (pathsOf k (fs.length + cnt))) := by
  induction cnt generalizing m1 fs tabs a with
  | zero => exact ⟨_, m1, rfl, Or.inl ⟨rfl, fs, tabs, rfl, h⟩⟩
  | succ cnt ih =>
    have hnext := toNat_add_page ha (by omega)
    rcases uvmAllocFrom_round oldsz newsz cnt h0 h ha (by omega) (hnone _ (by omega) (by omega)) with
      ⟨hfull, hstep⟩ | ⟨hroom, ⟨p, m2, tabs', hlen, h', hstep⟩ | ⟨m2, hlt, -⟩⟩
    · have hmono := missing_pathsOf_mono m r k (Nat.le_add_right fs.length (cnt + 1))
      have hk' : k + fs.length ≤ 2 ^ 36 := by omega
      obtain ⟨x, m', hrun, hum⟩ := uvmDealloc_pages h.pgdir (h.backed h0 hk') holdsz ha (by omega)
      refine ⟨0, m', hstep.trans (bind_ok hrun), Or.inr ⟨rfl, ⟨tabs, ?_⟩, by omega⟩⟩
      exact h.undo h0 hk' (fun n h1 h2 => hnone n h1 (by omega)) hum
    · obtain ⟨res, m', hrun, hcase⟩ := ih h' (by rw [hlen]; exact hnext) (by omega)
        (fun n h1 h2 => hnone n h1 (by omega)) fun i h1 h2 => hgap i (by omega) (by omega)
      refine ⟨res, m', hstep.trans hrun, ?_⟩
      rwa [hlen, Nat.add_right_comm, Nat.add_assoc] at hcase
    · exact absurd (hgap fs.length le_rfl (by omega) hroom) (not_le.mpr hlt)

section
variable (h0 : IsPgdir kend m r) (h : Filled kend r k m m1 fs tabs fun _ _ => 0)
include h0 h

/-- Once a page has been left out and the first page of the range, `k0`, is not mapped, the loop
goes on to its end, or `uvm_dealloc` panics at that page. -/
theorem uvmAllocFrom_skipped {k0 : Nat} {res : Int32} (hfirst : m.lookup r k0 = none)
    (holdsz : oldsz.toNat = pageSize * k0) (hk0 : k0 < k) (ha : a.toNat = pageSize * (k + fs.length))
    (hk : k + fs.length + cnt < 2 ^ 31) (hnone : ∀ n, k ≤ n → n < k + fs.length + cnt → m.lookup r n = none)
    (hrun : (uvmAllocFrom kend r oldsz newsz cnt a).run m1 = .ok res m') :
    res = toInt newsz ∧ m'.lookup r k0 = none := by
  have hfirst1 : m1.lookup r k0 = none := by rw [h.lookup k0 (by omega), if_neg (by omega), hfirst]
  induction cnt generalizing m1 fs tabs a with
  | zero =>
    cases hrun
    exact ⟨rfl, hfirst1⟩
  | succ cnt ih =>
    have hnext := toNat_add_page ha (by omega)
    have hpanic : ∀ m2 : Memory, m2.lookup r k0 = none → ∃ e m3, (uvmDealloc kend r a oldsz).run m2 = .error e m3 :=
      fun m2 hm2 => uvmDealloc_unmapped hm2 holdsz ha (by omega) (by omega)
    rcases uvmAllocFrom_round oldsz newsz cnt h0 h ha (by omega) (hnone _ (by omega) (by omega)) with
      ⟨-, hstep⟩ | ⟨-, ⟨p, m2, tabs', hlen, h', hstep⟩ | ⟨m2, -, -, hlookup, -, hstep⟩⟩
    · obtain ⟨e, m2, hpanic⟩ := hpanic m1 hfirst1
      rw [hstep, bind_error hpanic] at hrun
      cases hrun
    · rw [hstep] at hrun
      exact ih h' (by rw [hlen]; exact hnext) (by omega) (fun n h1 h2 => hnone n h1 (by omega)) hrun
        (by rw [h'.lookup k0 (by omega), if_neg (by omega), hfirst])
    · obtain ⟨e, m3, hpanic⟩ := hpanic m2 (by rw [hlookup k0 (by omega), hfirst1])
      rw [hstep, bind_error hpanic] at hrun
      cases hrun

/-- If memory runs out between the frame of a page and its tables, the loop does not stop, and
the first page of the range is not mapped when it ends. -/
theorem uvmAllocFrom_gap {i : Nat} {res : Int32} (holdsz : oldsz.toNat = pageSize * k)
    (ha : a.toNat = pageSize * (k + fs.length)) (hk : k + fs.length + cnt < 2 ^ 31)
    (hnone : ∀ n, k ≤ n → n < k + fs.length + cnt → m.lookup r n = none) (hi : fs.length ≤ i)
    (hi' : i < fs.length + cnt) (hframe : i + 1 + m.missing r (pathsOf k i) ≤ m.free.length)
    (hgap : m.free.length < i + 1 + m.missing r (pathsOf k (i + 1)))
    (hrun : (uvmAllocFrom kend r oldsz newsz cnt a).run m1 = .ok res m') :
    res = toInt newsz ∧ m'.lookup r k = none := by
  induction cnt generalizing m1 fs tabs a with
  | zero => omega
  | succ cnt ih =>
    have hnext := toNat_add_page ha (by omega)
    rcases uvmAllocFrom_round oldsz newsz cnt h0 h ha (by omega) (hnone _ (by omega) (by omega)) with
      ⟨hfull, -⟩ | ⟨-, ⟨p, m2, tabs', hlen, h', hstep⟩ | ⟨m2, -, hdir, hlookup, hbacked, hstep⟩⟩
    · have hmono := missing_pathsOf_mono m r k hi
      omega
    · have hlength := h'.length_free
      rw [hlen] at hlength
      have hne : i ≠ fs.length := fun he => by
        rw [he] at hgap
        omega
      rw [hstep] at hrun
      exact ih h' (by rw [hlen]; exact hnext) (by omega) (fun n h1 h2 => hnone n h1 (by omega)) (by omega)
        (by omega) hrun
    -- the page is left out; what was mapped before it is unmapped
    · have hk' : k + fs.length ≤ 2 ^ 36 := by omega
      obtain ⟨x, m3, hdealloc, hum⟩ := uvmDealloc_pages hdir (hbacked k fs.length hk' (h.backed h0 hk')) holdsz ha
        (by omega)
      have hnone3 : ∀ n, k ≤ n → n < k + fs.length + (cnt + 1) → m3.lookup r n = none := fun n h1 h2 => by
        rw [hum.lookup n (by omega)]
        split
        case isTrue => rfl
        case isFalse hout =>
          rw [hlookup n (by omega), h.lookup n (by omega), if_neg hout]
          exact hnone n h1 h2
      rw [hstep, bind_ok hdealloc] at hrun
      exact uvmAllocFrom_skipped hum.pgdir (.refl hum.pgdir (k + fs.length + 1) fun _ _ => 0)
        (hnone3 k (Nat.le_refl k) (by omega)) holdsz (by omega) hnext (by rw [List.length_nil]; omega)
        (fun n h1 h2 => hnone3 n (by omega) (by rw [List.length_nil] at h2; omega)) hrun

end

/-- `uvm_alloc` goes through the pages between the sizes. -/
theorem uvmAlloc_eq (kend r : Nat) (hle : oldsz ≤ newsz) (hlt : newsz.toNat < 2 ^ 31) :
    (roundUp oldsz).toNat = pageSize * pageCount oldsz.toNat ∧
    pageCount oldsz.toNat ≤ pageCount newsz.toNat ∧ pageCount newsz.toNat ≤ 2 ^ 19 ∧
    uvmAlloc kend r oldsz newsz = uvmAllocFrom kend r (roundUp oldsz) newsz
      (pageCount newsz.toNat - pageCount oldsz.toNat) (roundUp oldsz) := by
  have hle' := UInt64.le_iff_toNat_le.mp hle
  have hup := toNat_roundUp (a := oldsz) (by omega)
  have hbound : pageCount newsz.toNat ≤ 2 ^ 19 := by
    show (newsz.toNat + 4095) / 4096 ≤ 2 ^ 19
    omega
  have hcount :
      (newsz.toNat - (roundUp oldsz).toNat + 4095) / 4096 = pageCount newsz.toNat - pageCount oldsz.toNat := by
    rw [hup]
    show (newsz.toNat - 4096 * ((oldsz.toNat + 4095) / 4096) + 4095) / 4096 =
      (newsz.toNat + 4095) / 4096 - (oldsz.toNat + 4095) / 4096
    omega
  have hnot : ¬ newsz < oldsz := by
    rw [UInt64.lt_iff_toNat_lt]
    omega
  exact ⟨hup, pageCount_mono hle', hbound, by rw [uvmAlloc, if_neg hnot, hcount]⟩

/-- `uvm_alloc` fills the pages from the old size to the new one, or leaves the map as it was. -/
theorem uvmAlloc_spec (oldsz newsz : UInt64) (h : IsPgdir kend m r) (hle : oldsz ≤ newsz) (hlt : newsz.toNat < 2 ^ 31)
    (hnone : ∀ n, pageCount oldsz.toNat ≤ n → n < pageCount newsz.toNat → m.lookup r n = none)
    (hgap : ∀ i < pageCount newsz.toNat - pageCount oldsz.toNat,
      i + 1 + m.missing r (pathsOf (pageCount oldsz.toNat) i) ≤ m.free.length →
        i + 1 + m.missing r (pathsOf (pageCount oldsz.toNat) (i + 1)) ≤ m.free.length) :
    ∃ res m', (uvmAlloc kend r oldsz newsz).run m = .ok res m' ∧
      (res = toInt newsz ∧ (∃ fs tabs, fs.length = pageCount newsz.toNat - pageCount oldsz.toNat ∧
          Filled kend r (pageCount oldsz.toNat) m m' fs tabs fun _ _ => 0) ∨
        res = 0 ∧ (∃ tabs, Restored kend r m m' tabs) ∧
          m.free.length < pageCount newsz.toNat - pageCount oldsz.toNat +
            m.missing r (pathsOf (pageCount oldsz.toNat) (pageCount newsz.toNat - pageCount oldsz.toNat))) := by
  obtain ⟨hup, hmono, hbound, heq⟩ := uvmAlloc_eq kend r hle hlt
  have hk :
      pageCount oldsz.toNat + ([] : List Nat).length + (pageCount newsz.toNat - pageCount oldsz.toNat) < 2 ^ 31 := by
    rw [List.length_nil]
    omega
  have hspec := uvmAllocFrom_spec newsz h (.refl h (pageCount oldsz.toNat) fun _ _ => 0) hup hup hk
    (fun n h1 h2 => hnone n h1 (by rw [List.length_nil] at h2; omega))
    fun i _ h2 => hgap i (by rw [List.length_nil] at h2; omega)
  rw [heq]
  rwa [List.length_nil, Nat.zero_add] at hspec

/-- **`uvm_alloc` is atomic** exactly if memory never runs out between the frame of a page and
the tables that page still needs. It returns the new size with each page mapped to a frame of
its own, fresh and zero; or it returns 0 with no page mapped, and every page that was free
is free again or has become a table. The map is the same everywhere else. -/
theorem uvmAlloc_atomic (kend : Nat) (m : Memory) (r : Nat) (oldsz newsz : UInt64) (h : IsPgdir kend m r)
    (hle : oldsz ≤ newsz) (hlt : newsz.toNat < 2 ^ 31)
    (hnone : ∀ n, pageCount oldsz.toNat ≤ n → n < pageCount newsz.toNat → m.lookup r n = none) :
    (∃ res m', (uvmAlloc kend r oldsz newsz).run m = .ok res m' ∧
      (res.toInt = newsz.toNat ∧
          (∀ n, pageCount oldsz.toNat ≤ n → n < pageCount newsz.toNat → ∃ w, m'.lookup r n = some w ∧
            w &&& pteUser ≠ 0 ∧ pteAddress w ∈ m.free ∧ pteAddress w ∉ m'.free ∧ ¬ m'.IsTable r (pteAddress w) ∧
            ∀ i, m'.page (pteAddress w) i = 0) ∧
          (∀ n n', pageCount oldsz.toNat ≤ n → n < pageCount newsz.toNat → pageCount oldsz.toNat ≤ n' →
            n' < pageCount newsz.toNat → m'.frame r n = m'.frame r n' → n = n') ∨
        res = 0 ∧ (∀ n, pageCount oldsz.toNat ≤ n → n < pageCount newsz.toNat → m'.lookup r n = none) ∧
          ∀ p, p ∈ m.free ↔ p ∈ m'.free ∨ m'.IsTable r p ∧ ¬ m.IsTable r p) ∧
      ∀ n < 2 ^ 36, ¬ (pageCount oldsz.toNat ≤ n ∧ n < pageCount newsz.toNat) → m'.lookup r n = m.lookup r n) ↔
    ∀ i < pageCount newsz.toNat - pageCount oldsz.toNat,
      i + 1 + m.missing r (pathsOf (pageCount oldsz.toNat) i) ≤ m.free.length →
        i + 1 + m.missing r (pathsOf (pageCount oldsz.toNat) (i + 1)) ≤ m.free.length := by
  obtain ⟨hup, hmono, hbound, heq⟩ := uvmAlloc_eq kend r hle hlt
  constructor
  · intro ⟨res, m', hrun, hcase, _⟩ i hi hframe
    by_contra hgap
    rw [heq] at hrun
    obtain ⟨rfl, hfirst⟩ := uvmAllocFrom_gap h (.refl h (pageCount oldsz.toNat) fun _ _ => 0) hup hup
      (by rw [List.length_nil]; omega) (fun n h1 h2 => hnone n h1 (by rw [List.length_nil] at h2; omega))
      (Nat.zero_le i) (by rw [List.length_nil]; omega) hframe (not_le.mp hgap) hrun
    rcases hcase with ⟨-, hmapped, -⟩ | ⟨hzero, -, -⟩
    · obtain ⟨w, hw, -⟩ := hmapped _ le_rfl (by omega)
      rw [hfirst] at hw
      cases hw
    · have hsize := toInt_toInt hlt
      rw [hzero] at hsize
      have hz : (0 : Int) = newsz.toNat := hsize
      have hcount : pageCount newsz.toNat = 0 := by
        rw [← Int.ofNat_inj.mp hz]
        rfl
      omega
  intro hgap
  obtain ⟨res, m', hrun, ⟨rfl, fs, tabs, hlen, hfill⟩ | ⟨rfl, ⟨tabs, hrest⟩, -⟩⟩ :=
    uvmAlloc_spec oldsz newsz h hle hlt hnone hgap
  · have hsum : pageCount oldsz.toNat + fs.length = pageCount newsz.toNat := by omega
    have hback := hfill.backed h (by omega)
    refine ⟨_, m', hrun, Or.inl ⟨toInt_toInt hlt, fun n h1 h2 => ?_, fun n n' h1 h2 h3 h4 => ?_⟩, fun n hn hout => ?_⟩
    · have hin : n - pageCount oldsz.toNat < fs.length := by omega
      obtain ⟨hmem, hnot, hnt⟩ := hfill.mem_frames h (Filled.getD_mem hin)
      have haddr := pteAddress_userEntry_page (h.isPage _ hmem)
      refine ⟨_, (hfill.lookup n (by omega)).trans (if_pos ⟨h1, by omega⟩), userEntry_user _, ?_⟩
      rw [haddr]
      exact ⟨hmem, hnot, hnt, fun i => congrFun (hfill.words _ hin) i⟩
    · exact hback.distinct n n' h1 (by omega) h3 (by omega)
    · rw [hfill.lookup n hn, hsum, if_neg hout]
  · refine ⟨_, m', hrun, Or.inr ⟨rfl, fun n h1 h2 => ?_, fun p => ?_⟩, fun n hn _ => hrest.lookup n hn⟩
    · rw [hrest.lookup n (by omega), hnone n h1 h2]
    · rw [← hrest.free.mem_iff, List.mem_append, hrest.tables]
      constructor
      · intro hp
        rcases hp with hp | hp
        · refine Or.inr ⟨Or.inr hp, fun ht => h.apart p ht (hrest.free.subset (List.mem_append_left _ hp))⟩
        · exact Or.inl hp
      · intro hp
        rcases hp with hp | ⟨ht, hnt⟩
        · exact Or.inr hp
        · exact Or.inl (ht.resolve_left hnt)

/-- Three free pages for each new page are enough for the tables. -/
theorem blankMemory_room {i : Nat} (hi : i < 2) (k : Nat) :
    i + 1 + blankMemory.missing 0x100000 (pathsOf k (i + 1)) ≤ blankMemory.free.length := by
  have hle := missing_pathsOf_le blankMemory 0x100000 k (i + 1)
  have hlen : blankMemory.free.length = 8 := rfl
  omega

theorem uvmAlloc_atomic_blank : ∃ res m', (uvmAlloc 0x100000 0x100000 0 0x1000).run blankMemory = .ok res m' ∧
    (res.toInt = 4096 ∧ m'.lookup 0x100000 0 ≠ none ∨ res = 0) := by
  obtain ⟨hdir, -, hnone⟩ := blankMemory_pgdir
  obtain ⟨res, m', hrun, hcase, -⟩ := (uvmAlloc_atomic 0x100000 blankMemory 0x100000 0 0x1000 hdir (by decide)
    (by decide) fun n _ _ => hnone n).mpr fun i hi _ => blankMemory_room (hi.trans (by decide)) 0
  refine ⟨res, m', hrun, hcase.imp (fun h => ⟨h.1, ?_⟩) fun h => h.1⟩
  obtain ⟨w, hw, -⟩ := h.2.1 0 (by decide) (by decide)
  rw [hw]
  exact Option.some_ne_none w

/-- One free page: it is taken as the frame of page 0, none is left for a table, and the
call returns the new size with the page not mapped. -/
theorem uvmAlloc_not_atomic : ∃ res m', (uvmAlloc 0x100000 0x100000 0 0x1000).run ⟨fun _ _ => 0, [0x200000]⟩ =
    .ok res m' ∧ res = 4096 ∧ m'.lookup 0x100000 0 = none := by
  have hrun : returnedWith (fun res m' => res = 4096 ∧ m'.lookup 0x100000 0 = none)
      ((uvmAlloc 0x100000 0x100000 0 0x1000).run ⟨fun _ _ => 0, [0x200000]⟩) = true := by decide
  obtain ⟨res, m', hrun, htest⟩ := exists_of_returnedWith hrun
  exact ⟨res, m', hrun, of_decide_eq_true htest⟩

end OS2021.Core
