import OS2021.Core.Fork
import OS2021.Core.UvmAlloc

/-! The size of a process and its map (`growproc`).

A process has the pages of its first `sz` bytes mapped, each to a frame of its own
(`UserSpace`). `growproc` adds pages that are zero or gives back the frames of the last
ones, and the pages that stay keep their frames and what is in them. The size it then
writes down is the right one except after a process has shrunk: `uvm_dealloc` returns 0,
not the new size. -/
namespace OS2021.Core
open Fs Lib

variable {kend r old new n : Nat} {m m' : Memory}

/-! ### Address spaces of processes -/

/-- Exactly the first `pages` pages are mapped, each to a frame of its own. -/
structure UserSpace (kend : Nat) (m : Memory) (r pages : Nat) : Prop where
  pgdir : IsPgdir kend m r
  backed : Backed kend m r 0 pages
  mapped : ∀ n < 2 ^ 36, m.lookup r n ≠ none ↔ n < pages

theorem userSpace_empty (h : IsPgdir kend m r) (hnone : ∀ n, m.lookup r n = none) : UserSpace kend m r 0 := by
  have hno : ∀ n, ¬ (0 ≤ n ∧ n < 0 + 0) := fun n h => absurd h.2 (Nat.not_lt_zero n)
  exact ⟨h, ⟨fun n h1 h2 => absurd ⟨h1, h2⟩ (hno n), fun n h1 h2 => absurd ⟨h1, h2⟩ (hno n),
    fun n h1 h2 => absurd ⟨h1, h2⟩ (hno n), fun n _ h1 h2 => absurd ⟨h1, h2⟩ (hno n)⟩,
    fun n _ => ⟨fun hne => absurd (hnone n) hne, fun hlt => absurd hlt (Nat.not_lt_zero n)⟩⟩

/-- The address space has `new` pages where it had `old`. -/
structure Resized (kend r old new : Nat) (m m' : Memory) : Prop where
  space : UserSpace kend m' r new
  kept : ∀ n, n < old → n < new → m'.lookup r n = m.lookup r n ∧ m'.page (m.frame r n) = m.page (m.frame r n)
  fresh : ∀ n, old ≤ n → n < new → m'.lookup r n = some (userEntry (m'.frame r n)) ∧ m'.frame r n ∈ m.free ∧
    ∀ i, m'.page (m'.frame r n) i = 0
  freed : new < old → m'.free = (m.framesOf r new (old - new)).reverse ++ m.free

/-- New pages behind the last one. -/
theorem UserSpace.grow {fs tabs : List Nat} (h : UserSpace kend m r old) (hbound : old + fs.length ≤ 2 ^ 36)
    (hfill : Filled kend r old m m' fs tabs fun _ _ => 0) :
    Resized kend r old (old + fs.length) m m' := by
  have hkeep : ∀ n, n < old → m'.lookup r n = m.lookup r n := fun n hn => by
    rw [hfill.lookup n (by omega), if_neg (by omega)]
  have hframe : ∀ n, n < old → m'.frame r n = m.frame r n := fun n hn => by
    rw [Memory.frame, Memory.frame, hkeep n hn]
  have hnew := hfill.backed h.pgdir hbound
  have hfresh : ∀ n, old ≤ n → n < old + fs.length → m'.frame r n ∈ m.free := fun n h1 h2 => by
    rw [hfill.frame h.pgdir hbound h1 h2]
    exact (hfill.mem_frames h.pgdir (Filled.getD_mem (by omega))).1
  have hused : ∀ n, n < old → m.frame r n ∉ m'.free ∧ ¬ m'.IsTable r (m.frame r n) := fun n hn => by
    obtain ⟨hfree, htable⟩ := h.backed.used n (Nat.zero_le n) (by omega)
    refine ⟨fun hmem => hfree (hfill.free.subset (List.mem_append_right _ hmem)), ?_⟩
    rw [hfill.tables, not_or]
    exact ⟨htable, fun hmem => hfree (hfill.free.subset (List.mem_append_left _ (List.mem_append_right _ hmem)))⟩
  refine ⟨⟨hfill.pgdir, ⟨fun n _ h2 => ?mapped, fun n _ h2 => ?isPage, fun n _ h2 => ?used,
    fun n n' _ h2 _ h4 he => ?distinct⟩, fun n hn => ?exact⟩, fun n h1 _ => ⟨hkeep n h1, ?_⟩,
    fun n h1 h2 => ⟨?_, hfresh n h1 h2, ?_⟩, fun hle => ?_⟩
  case mapped =>
    by_cases hn : n < old
    · rw [hkeep n hn]
      exact h.backed.mapped n (Nat.zero_le n) (by omega)
    · exact hnew.mapped n (by omega) (by omega)
  case isPage =>
    by_cases hn : n < old
    · rw [hframe n hn]
      exact h.backed.isPage n (Nat.zero_le n) (by omega)
    · exact hnew.isPage n (by omega) (by omega)
  case used =>
    by_cases hn : n < old
    · rw [hframe n hn]
      exact hused n hn
    · exact hnew.used n (by omega) (by omega)
  case distinct =>
    -- a frame of an old page was not free, and a frame of a new one was
    have hcross : ∀ i j, i < old → old ≤ j → j < old + fs.length → m'.frame r i ≠ m'.frame r j :=
      fun i j hi hj hj' he => by
        rw [hframe i hi] at he
        exact (h.backed.used i (Nat.zero_le i) (by omega)).1 (he ▸ hfresh j hj hj')
    by_cases hn : n < old
    · by_cases hn' : n' < old
      · rw [hframe n hn, hframe n' hn'] at he
        exact h.backed.distinct n n' (Nat.zero_le n) (by omega) (Nat.zero_le n') (by omega) he
      · exact absurd he (hcross n n' hn (by omega) (by omega))
    · by_cases hn' : n' < old
      · exact absurd he.symm (hcross n' n hn' (by omega) (by omega))
      · exact hnew.distinct n n' (by omega) (by omega) (by omega) (by omega) he
  case exact =>
    rw [hfill.lookup n hn]
    by_cases hin : old ≤ n ∧ n < old + fs.length
    · rw [if_pos hin]
      exact ⟨fun _ => hin.2, fun _ => Option.some_ne_none _⟩
    · rw [if_neg hin, h.mapped n hn]
      omega
  · exact hfill.page _ (h.backed.used n (Nat.zero_le n) (by omega)).1 (h.backed.used n (Nat.zero_le n) (by omega)).2
  · rw [hfill.lookup n (by omega), if_pos ⟨h1, h2⟩, hfill.frame h.pgdir hbound h1 h2]
  · intro i
    rw [hfill.frame h.pgdir hbound h1 h2, hfill.words _ (by omega)]
  · omega

/-- The last pages are given back. -/
theorem UserSpace.shrink (h : UserSpace kend m r old) (hle : new ≤ old) (hbound : old ≤ 2 ^ 36)
    (hum : Unmapped kend r new (old - new) m m') : Resized kend r old new m m' := by
  have hkeep : ∀ n, n < new → m'.lookup r n = m.lookup r n := fun n hn => by
    rw [hum.lookup n (by omega), if_neg (by omega)]
  have hframe : ∀ n, n < new → m'.frame r n = m.frame r n := fun n hn => by
    rw [Memory.frame, Memory.frame, hkeep n hn]
  have hother : ∀ n, n < new → m.frame r n ∉ m.framesOf r new (old - new) := fun n hn hmem => by
    obtain ⟨n', hn', he⟩ := List.mem_map.mp hmem
    rw [List.mem_range'_1] at hn'
    have := h.backed.distinct n' n (Nat.zero_le _) (by omega) (Nat.zero_le _) (by omega) he
    omega
  refine ⟨⟨hum.pgdir, ⟨fun n _ h2 => ?mapped, fun n _ h2 => ?isPage, fun n _ h2 => ?used,
    fun n n' _ h2 _ h4 he => ?distinct⟩, fun n hn => ?exact⟩, fun n _ h2 => ⟨hkeep n h2, ?_⟩,
    fun n h1 h2 => ?_, fun _ => hum.free⟩
  case mapped =>
    rw [hkeep n (by omega)]
    exact h.backed.mapped n (Nat.zero_le n) (by omega)
  case isPage =>
    rw [hframe n (by omega)]
    exact h.backed.isPage n (Nat.zero_le n) (by omega)
  case used =>
    obtain ⟨hfree, htable⟩ := h.backed.used n (Nat.zero_le n) (by omega)
    rw [hframe n (by omega), hum.free, List.mem_append, List.mem_reverse, isTable_congr hum.table]
    exact ⟨fun hmem => hmem.elim (hother n (by omega)) hfree, htable⟩
  case distinct =>
    rw [hframe n (by omega), hframe n' (by omega)] at he
    exact h.backed.distinct n n' (Nat.zero_le n) (by omega) (Nat.zero_le n') (by omega) he
  case exact =>
    rw [hum.lookup n hn]
    by_cases hin : new ≤ n ∧ n < new + (old - new)
    · rw [if_pos hin]
      exact ⟨fun hne => absurd rfl hne, fun hlt => by omega⟩
    · rw [if_neg hin, h.mapped n hn]
      omega
  · obtain ⟨-, htable⟩ := h.backed.used n (Nat.zero_le n) (by omega)
    exact hum.page _ htable (hother n h2)
  · omega

theorem UserSpace.same (h : UserSpace kend m r old) : Resized kend r old old m m :=
  ⟨h, fun _ _ _ => ⟨rfl, rfl⟩, fun n h1 h2 => by omega, fun hlt => absurd hlt (Nat.lt_irrefl old)⟩

/-! ### The call -/

/-- An `int` that is added to a size. -/
theorem toNat_add_ofInt {a : UInt64} {n : Int32} {c : Nat} (hc : (a.toNat : Int) + n.toInt = c) (hlt : c < 2 ^ 64) :
    (a + ofInt n).toNat = c := by
  have hwide : n.toInt64.toBitVec.toInt = n.toInt := Int32.toInt_toInt64 n
  have hbits : (ofInt n).toNat = n.toInt64.toBitVec.toNat := rfl
  have ha := a.toNat_lt
  rw [UInt64.toNat_add, hbits]
  rw [BitVec.toInt_eq_toNat_cond] at hwide
  split at hwide <;> omega

section Call
variable {kend : Nat} {k : Kernel} {p : ProcId} {n : Int32} {c : Nat}

/-- There is a free page for each new page, and for each table that is missing for them. -/
def Suffices (m : Memory) (r old new : Nat) : Prop :=
  new - old + m.missing r (pathsOf old (new - old)) ≤ m.free.length

theorem suffices_of_le {m : Memory} {r old new : Nat} (h : new ≤ old) : Suffices m r old new := by
  rw [Suffices, Nat.sub_eq_zero_of_le h]
  exact Nat.zero_le _

/-- Pages for a first part leave pages for the rest. -/
theorem Suffices.grow {m m' : Memory} {r old new : Nat} {fs tabs : List Nat} {words : Nat → Fin nPtePerTable → UInt64}
    (h : Suffices m r old new) (hfill : Filled kend r old m m' fs tabs words) (hle : old + fs.length ≤ new) :
    Suffices m' r (old + fs.length) new := by
  have hsplit : new - old = fs.length + (new - (old + fs.length)) := by omega
  have htable : ∀ π ∈ pathsOf (old + fs.length) (new - (old + fs.length)),
      m'.table r π = none ↔ m.table r π = none ∧ π ∉ pathsOf old fs.length := fun π hπ =>
    hfill.table π (length_of_mem_pathsOf hπ)
  have hlength := hfill.length_free
  rw [Suffices, hsplit, pathsOf_add, missing_union htable] at h
  rw [Suffices]
  omega

/-- With room for `c` pages, an address space of at most so many pages is made. -/
theorem UserSpace.alloc {m : Memory} {r c : Nat} {oldsz newsz : UInt64}
    (h : UserSpace kend m r (pageCount oldsz.toNat)) (hle : oldsz ≤ newsz) (hlt : newsz.toNat < 2 ^ 31)
    (hroom : Suffices m r (pageCount oldsz.toNat) c) (hc : pageCount newsz.toNat ≤ c) :
    ∃ m' fs tabs, (uvmAlloc kend r oldsz newsz).run m = .ok (toInt newsz) m' ∧
      pageCount oldsz.toNat + fs.length = pageCount newsz.toNat ∧
      Filled kend r (pageCount oldsz.toNat) m m' fs tabs fun _ _ => 0 := by
  have hmono := pageCount_mono (UInt64.le_iff_toNat_le.mp hle)
  have hbound : pageCount newsz.toNat ≤ 2 ^ 19 := by
    show (newsz.toNat + 4095) / 4096 ≤ 2 ^ 19
    omega
  have hnone : ∀ n, pageCount oldsz.toNat ≤ n → n < pageCount newsz.toNat → m.lookup r n = none := fun n h1 h2 => by
    by_contra hne
    have := (h.mapped n (by omega)).mp hne
    omega
  have henough : ∀ j ≤ pageCount newsz.toNat - pageCount oldsz.toNat,
      j + m.missing r (pathsOf (pageCount oldsz.toNat) j) ≤ m.free.length := fun j hj => by
    have hmore := missing_pathsOf_mono m r (pageCount oldsz.toNat) (hj.trans (Nat.sub_le_sub_right hc _))
    have hfits : c - pageCount oldsz.toNat + _ ≤ _ := hroom
    omega
  obtain ⟨res, m', hrun, hcase⟩ := uvmAlloc_spec oldsz newsz h.pgdir hle hlt hnone fun i hi _ => henough (i + 1) hi
  rcases hcase with ⟨rfl, fs, tabs, hlen, hfill⟩ | ⟨-, -, hshort⟩
  · exact ⟨m', fs, tabs, hrun, by omega, hfill⟩
  · exact absurd (henough _ le_rfl) (not_le.mpr hshort)

/-- What the size becomes, and that the map follows it, for every `n`. -/
theorem resize_spec (hspace : UserSpace kend k.mem (k.proc p).pgdir.toNat (pageCount (k.proc p).sz.toNat))
    (hc : ((k.proc p).sz.toNat : Int) + n.toInt = c) (hlt : c < 2 ^ 31)
    (hmem : Suffices k.mem (k.proc p).pgdir.toNat (pageCount (k.proc p).sz.toNat) (pageCount c)) :
    ∃ m' sz, (resize kend (k.proc p) n).run k = .ok sz {k with mem := m'} ∧
      sz.toNat = (if n.toInt < 0 then 0 else c) ∧
      Resized kend (k.proc p).pgdir.toNat (pageCount (k.proc p).sz.toNat) (pageCount c) k.mem m' := by
  have hadd := toNat_add_ofInt hc (by omega)
  have hzero : (0 : Int32).toInt = 0 := rfl
  have hrange : -2 ^ 31 ≤ n.toInt := Int32.le_toInt n
  have hnew : pageCount c ≤ 2 ^ 19 := by
    show (c + 4095) / 4096 ≤ 2 ^ 19
    omega
  have hold : pageCount (k.proc p).sz.toNat ≤ 2 ^ 20 := by
    show ((k.proc p).sz.toNat + 4095) / 4096 ≤ 2 ^ 20
    omega
  rw [resize]
  by_cases hpos : 0 < n
  · have hpos' : 0 < n.toInt := hzero ▸ Int32.lt_iff_toInt_lt.mp hpos
    rw [if_pos hpos, if_neg (by omega)]
    obtain ⟨m', fs, tabs, hrun, hsum, hfill⟩ := hspace.alloc (by rw [UInt64.le_iff_toNat_le, hadd]; omega)
      (by rw [hadd]; exact hlt) hmem (by rw [hadd])
    rw [hadd] at hsum
    refine ⟨m', (k.proc p).sz + ofInt n, ?_, hadd, ?_⟩
    · rw [bind_ok (onMem_run hrun), pure_run, ofInt_toInt (by rw [hadd]; exact hlt)]
    · exact hsum ▸ hspace.grow (by omega) hfill
  · rw [if_neg hpos]
    have hnpos : ¬ 0 < n.toInt := hzero ▸ fun h => hpos (Int32.lt_iff_toInt_lt.mpr h)
    by_cases hneg : n < 0
    · have hneg' : n.toInt < 0 := hzero ▸ Int32.lt_iff_toInt_lt.mp hneg
      have hmono : pageCount c ≤ pageCount (k.proc p).sz.toNat := pageCount_mono (by omega)
      rw [if_pos hneg, if_pos hneg']
      obtain ⟨m', hrun, hum⟩ := uvmDealloc_spec (k.proc p).sz ((k.proc p).sz + ofInt n) hspace.pgdir
        (by rw [UInt64.lt_iff_toNat_lt, hadd]; omega) (by omega)
        (by rw [hadd]; exact hspace.backed.mono (Nat.zero_le _) (by omega))
      rw [hadd] at hum
      refine ⟨m', 0, ?_, rfl, hspace.shrink hmono (by omega) hum⟩
      rw [bind_ok (onMem_run hrun), pure_run]
      rfl
    · have hnneg : ¬ n.toInt < 0 := hzero ▸ fun h => hneg (Int32.lt_iff_toInt_lt.mpr h)
      obtain rfl : (k.proc p).sz.toNat = c := by omega
      rw [if_neg hneg, if_neg hnneg, pure_run]
      exact ⟨k.mem, (k.proc p).sz, rfl, rfl, hspace.same⟩

/-- **`growproc` keeps size and map in step**, unless the process shrinks to a size that is
not 0. When memory suffices it returns 0 and exactly the pages of the size `sz + n` are
mapped, as `Resized` says; that this is the size stored holds exactly if the process does
not shrink, or shrinks to nothing. -/
theorem growproc_inStep (kend : Nat) (k : Kernel) (p : ProcId) (n : Int32) (c : Nat)
    (hspace : UserSpace kend k.mem (k.proc p).pgdir.toNat (pageCount (k.proc p).sz.toNat))
    (hc : ((k.proc p).sz.toNat : Int) + n.toInt = c) (hlt : c < 2 ^ 31)
    (hmem : Suffices k.mem (k.proc p).pgdir.toNat (pageCount (k.proc p).sz.toNat) (pageCount c)) :
    ∃ k', (growproc kend p n).run k = .ok 0 k' ∧ ((k'.proc p).sz.toNat = c ↔ 0 ≤ n.toInt ∨ c = 0) ∧
      (k'.proc p).pgdir = (k.proc p).pgdir ∧
      Resized kend (k.proc p).pgdir.toNat (pageCount (k.proc p).sz.toNat) (pageCount c) k.mem k'.mem ∧
      ∀ q, q ≠ p → k'.proc q = k.proc q := by
  obtain ⟨m', sz, hrun, hsz, hres⟩ := resize_spec hspace hc hlt hmem
  have hsize : sz.toNat = c ↔ 0 ≤ n.toInt ∨ c = 0 := by
    rw [hsz]
    split <;> omega
  have hfail : ¬ (0 < n ∧ sz = 0) := fun ⟨hpos, hz⟩ => by
    have hpos' := Int32.lt_iff_toInt_lt.mp hpos
    have hzero : (0 : Int32).toInt = 0 := rfl
    have hc0 := hsize.mpr (Or.inl (by omega))
    rw [hz, UInt64.toNat_zero] at hc0
    omega
  have hproc : (({k with mem := m'} : Kernel).setProc p fun q => {q with sz}).proc p = {k.proc p with sz} :=
    proc_setProc_self
  refine ⟨({k with mem := m'} : Kernel).setProc p fun q => {q with sz}, ?_, ?_, ?_, hres,
    fun q hq => proc_setProc_of_ne hq⟩
  rotate_left
  · rw [hproc]
    exact hsize
  · rw [hproc]
  rw [growproc, bind_ok (get_run k), bind_ok hrun, if_neg hfail]
  rfl

/-- A process in memory `mem`. -/
def lonely (mem : Memory) (sz : UInt64) : Kernel where
  vol := ⟨fun _ => zeroBlock, fun _ => ⟨false, 0, 0, false, .zero⟩, [], 0⟩
  mem := mem
  procs := Containers.zero.setProc (0, 0) fun q => {q with sz, pgdir := 0x100000, state := .running}
  ftable := fun _ => ⟨.none, 0, false, false, 0, 0⟩
  outstanding := 0

theorem blankMemory_userSpace : UserSpace 0x100000 blankMemory 0x100000 0 :=
  userSpace_empty blankMemory_pgdir.1 blankMemory_pgdir.2.2

theorem blankMemory_suffices {c : Nat} (hc : 0 < pageCount c) (hc' : pageCount c ≤ 2) :
    Suffices blankMemory 0x100000 0 (pageCount c) := by
  have hroom := blankMemory_room (i := pageCount c - 1) (by omega) 0
  rwa [Nat.sub_add_cancel hc] at hroom

/-- A process without memory grows by half a page. -/
theorem growproc_inStep_blank : ∃ k', (growproc 0x100000 (0, 0) 0x800).run (lonely blankMemory 0) = .ok 0 k' ∧
    (k'.proc (0, 0)).sz.toNat = 0x800 ∧ UserSpace 0x100000 k'.mem 0x100000 1 := by
  obtain ⟨k', hrun, hsz, -, hres, -⟩ := growproc_inStep 0x100000 (lonely blankMemory 0) (0, 0) 0x800 0x800
    blankMemory_userSpace (by decide) (by decide) (blankMemory_suffices (by decide) (by decide))
  exact ⟨k', hrun, hsz.mpr (Or.inl (by decide)), hres.space⟩

/-- A process of two pages shrinks by one: it keeps its first page, and its size is 0. -/
theorem growproc_forgets_size : ∃ k k', UserSpace 0x100000 k.mem 0x100000 2 ∧ (k.proc (0, 0)).sz = 0x2000 ∧
    (growproc 0x100000 (0, 0) (-0x1000)).run k = .ok 0 k' ∧ (k'.proc (0, 0)).sz = 0 ∧
    k'.mem.lookup 0x100000 0 ≠ none := by
  obtain ⟨m, -, -, -, hgrow⟩ := resize_spec (k := lonely blankMemory 0) (p := (0, 0)) (n := 0x2000) (c := 0x2000)
    blankMemory_userSpace (by decide) (by decide) (blankMemory_suffices (by decide) (by decide))
  obtain ⟨m', sz, hrun, hsz, hshrink⟩ := resize_spec (k := lonely m 0x2000) (p := (0, 0)) (n := -0x1000) (c := 0x1000)
    hgrow.space (show ((0x2000 : UInt64).toNat : Int) + (-0x1000 : Int32).toInt = (0x1000 : Nat) by decide)
    (by decide) (suffices_of_le (show pageCount 0x1000 ≤ pageCount (0x2000 : UInt64).toNat by decide))
  have hzero : sz = 0 := by
    apply UInt64.toNat_inj.mp
    rw [hsz, if_pos (by decide)]
    rfl
  rw [hzero] at hrun
  refine ⟨lonely m 0x2000, ({lonely m 0x2000 with mem := m'} : Kernel).setProc (0, 0) fun q => {q with sz := 0},
    hgrow.space, rfl, ?_, rfl, (hshrink.space.mapped 0 (by decide)).mpr (by decide)⟩
  rw [growproc, bind_ok (get_run _), bind_ok hrun, if_neg (by decide)]
  rfl

end Call

end OS2021.Core
