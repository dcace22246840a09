import OS2021.Core.PageMap

/-! `uvm_map` on the map that page tables are for.

A call that returns 0 has mapped the pages that overlap its range, in order, to the frames
from `pa` on, and has changed nothing else in the map. It panics exactly if it comes to a
page that is mapped, and it returns -1 exactly if it needs more tables than there are
free pages. -/
namespace OS2021.Core
open Fs Lib Finset

variable {kend p r n k cnt : Nat} {m m' : Memory} {π : List (Fin nPtePerTable)} {va sz pa a : UInt64}

/-! ### Entries of user pages -/

/-- The entry of a user page whose frame is `p`. -/
def userEntry (p : Nat) : UInt64 := .ofNat p ||| pteUserData

theorem isValid_userEntry (p : Nat) : isValid (userEntry p) = true := isValid_or (by decide)

theorem pteAddress_userEntry (hp : p % pageSize = 0) (hlt : p < 2 ^ 32) : pteAddress (userEntry p) = p := by
  have hnat : (UInt64.ofNat p).toNat = p := Nat.mod_eq_of_lt (by omega)
  rw [userEntry, pteAddress_or (by rw [hnat]; exact hp) (by rw [hnat]; exact hlt) (by decide), hnat]

theorem pteAddress_userEntry_page (hp : IsPage kend p) : pteAddress (userEntry p) = p := by
  have : p < 0x3F000000 := hp.2.2
  exact pteAddress_userEntry hp.1 (by omega)

theorem userEntry_user (p : Nat) : userEntry p &&& pteUser ≠ 0 := by
  intro hzero
  have hnat := congrArg UInt64.toNat hzero
  rw [userEntry, UInt64.toNat_and, UInt64.toNat_or, Nat.and_or_distrib_right] at hnat
  have hle : 64 ≤ (UInt64.ofNat p).toNat &&& 64 ||| 1607 &&& 64 := Nat.right_le_or
  exact absurd (hle.trans_eq hnat) (by decide)

theorem pteFlags_userEntry (hp : p % pageSize = 0) : pteFlags (userEntry p) = pteUserData := by
  have hlow : (UInt64.ofNat p).toNat &&& 0xFFF = 0 := by
    have hmod : p % 4096 = 0 := hp
    have hdvd : (UInt64.ofNat p).toNat % 2 ^ 12 = 0 := by
      show p % 2 ^ 64 % 4096 = 0
      omega
    rw [← hdvd, ← Nat.and_two_pow_sub_one_eq_mod]
  apply UInt64.toNat_inj.mp
  rw [pteFlags, userEntry, UInt64.toNat_and, UInt64.toNat_or, Nat.and_or_distrib_right]
  show (UInt64.ofNat p).toNat &&& 0xFFF ||| 0x647 &&& 0xFFF = 0x647
  rw [hlow]
  rfl

/-! ### Tables for several pages -/

/-- The tables on the ways of `cnt` pages from page `k` on. -/
def pathsOf (k : Nat) : (cnt : Nat) → Finset (List (Fin nPtePerTable))
  | 0 => ∅
  | cnt + 1 => paths k ∪ pathsOf (k + 1) cnt

theorem length_of_mem_paths (h : π ∈ paths n) : π.length ≤ 3 := by
  have := (length_of_mem_pathsFrom h).2
  rwa [List.length_nil, Nat.zero_add] at this

theorem length_of_mem_pathsOf (h : π ∈ pathsOf k cnt) : π.length ≤ 3 := by
  induction cnt generalizing k with
  | zero => exact absurd h (notMem_empty π)
  | succ cnt ih =>
    rcases mem_union.mp h with h | h
    · exact length_of_mem_paths h
    · exact ih h

theorem ne_nil_of_mem_pathsOf (h : π ∈ pathsOf k cnt) : π ≠ [] := by
  induction cnt generalizing k with
  | zero => exact absurd h (notMem_empty π)
  | succ cnt ih =>
    rcases mem_union.mp h with h | h
    · exact List.ne_nil_of_length_pos (length_of_mem_pathsFrom h).1
    · exact ih h

/-- Three tables for each page are always enough. -/
theorem card_pathsOf_le (k cnt : Nat) : (pathsOf k cnt).card ≤ 3 * cnt := by
  have hpaths : ∀ n, (paths n).card ≤ 3 := fun n => by
    have h : (pathsFrom n [] 3).card ≤ 0 + 1 + 1 + 1 :=
      (card_insert_le _ _).trans (Nat.succ_le_succ ((card_insert_le _ _).trans
        (Nat.succ_le_succ (card_insert_le _ _))))
    exact h
  induction cnt generalizing k with
  | zero => exact Nat.le_refl 0
  | succ cnt ih =>
    have := card_union_le (paths k) (pathsOf (k + 1) cnt)
    have := hpaths k
    have := ih (k + 1)
    rw [pathsOf]
    omega

theorem missing_pathsOf_le (m : Memory) (r k cnt : Nat) : m.missing r (pathsOf k cnt) ≤ 3 * cnt :=
  (card_filter_le _ _).trans (card_pathsOf_le k cnt)

/-! ### The loop -/

/-- `cnt` pages from page `k` on have been mapped to the frames from `pa` on. -/
def MapsTo (m m' : Memory) (r k cnt pa : Nat) : Prop :=
  ∀ n < 2 ^ 36, m'.lookup r n =
    if k ≤ n ∧ n < k + cnt then some (userEntry (pa + pageSize * (n - k))) else m.lookup r n

/-- What the loop of `uvm_map` leaves when it returns: it has mapped the pages up to the one
for which it finds no table. -/
def MapEnds (kend r k cnt pa : Nat) (m : Memory) (res : Int32) (m' : Memory) : Prop :=
  ∃ j tabs, j ≤ cnt ∧ Grows kend r m m' tabs ∧ (∀ i < j, m.lookup r (k + i) = none) ∧ MapsTo m m' r k j pa ∧
    (res = 0 ∧ j = cnt ∧ tabs.length = m.missing r (pathsOf k cnt) ∧
        (∀ π, π.length ≤ 3 → (m'.table r π = none ↔ m.table r π = none ∧ π ∉ pathsOf k cnt)) ∨
      res = -1 ∧ j < cnt ∧ m'.free = [] ∧ m.free.length < m.missing r (pathsOf k cnt))

theorem uvmMapFrom_spec (h : IsPgdir kend m r) (ha : a.toNat = pageSize * k) (hk : k + cnt ≤ 2 ^ 36)
    (hpa : pa.toNat + pageSize * cnt ≤ 2 ^ 32) :
    Ends (MapEnds kend r k cnt pa.toNat m)
      (fun e _ => e = .panic "remap" ∧ ∃ i < cnt, m.lookup r (k + i) ≠ none) ((uvmMapFrom r cnt a pa).run m) := by
  have ha' : a.toNat = 4096 * k := ha
  induction cnt generalizing m a pa k with
  | zero =>
    rw [uvmMapFrom, pure_run]
    refine .ok ⟨0, [], Nat.le_refl 0, .refl h, fun i hi => absurd hi (Nat.not_lt_zero i), fun n _ => ?_,
      Or.inl ⟨rfl, rfl, rfl, fun π _ => ?_⟩⟩
    · rw [if_neg (by omega)]
    · rw [pathsOf]
      simp
  | succ cnt ih =>
    have hpa' : pa.toNat + 4096 * (cnt + 1) ≤ 2 ^ 32 := hpa
    have hn : a.toNat / pageSize = k := by
      rw [ha]
      exact Nat.mul_div_cancel_left k (by decide)
    obtain ⟨o, m1, tabs, hrun, hgrows, hlookup, ho⟩ := pgdirWalk_alloc h hn
    rw [uvmMapFrom, bind_ok hrun]
    cases o with
    | none =>
      refine .ok ⟨0, tabs, Nat.zero_le _, hgrows, fun i hi => absurd hi (Nat.not_lt_zero i), fun n _ => ?_,
        Or.inr ⟨rfl, Nat.succ_pos cnt, ho.1, ho.2.trans_le ?_⟩⟩
      · rw [if_neg (by omega), hlookup]
      · exact card_le_card (filter_subset_filter _ subset_union_left)
    | some pte =>
      obtain ⟨hslot, htabs, htable⟩ := ho
      dsimp only
      rw [bind_ok (get_run m1)]
      have hold : m.lookup r k = if isValid (m1.pte pte) then some (m1.pte pte) else none := by
        rw [← hlookup k, Memory.lookup, hslot, Option.bind_some]
      by_cases hvalid : isValid (m1.pte pte) = true
      · rw [if_pos hvalid]
        refine .error ⟨rfl, 0, Nat.succ_pos cnt, ?_⟩
        rw [Nat.add_zero, hold, if_pos hvalid]
        exact Option.some_ne_none _
      · rw [if_neg hvalid] at hold
        rw [if_neg hvalid]
        obtain ⟨hset, htable2, hlookup2⟩ := hgrows.pgdir.setPte (by omega) hslot (pa ||| pteUserData)
        have hentry : pa ||| pteUserData = userEntry pa.toNat := by rw [userEntry, UInt64.ofNat_toNat]
        rw [hentry, if_pos (isValid_userEntry _)] at hlookup2
        have ha2 := toNat_add_page ha (by omega)
        have hpa2 : (pa + 4096).toNat = pa.toNat + 4096 := toNat_add_of_lt (by show _ + 4096 < _; omega)
        have hmissing : m.missing r (pathsOf k (cnt + 1)) =
            tabs.length + (m1.setPte pte (pa ||| pteUserData)).missing r (pathsOf (k + 1) cnt) := by
          rw [htabs, pathsOf, missing_union fun π hπ => ?_]
          rw [htable2 π (length_of_mem_pathsOf hπ), htable π (length_of_mem_pathsOf hπ)]
        have hfree : m.free.length = tabs.length + (m1.setPte pte (pa ||| pteUserData)).free.length := by
          rw [hgrows.free, List.length_append]
          rfl
        have hmap : ∀ n < 2 ^ 36, (m1.setPte pte (pa ||| pteUserData)).lookup r n =
            if n = k then some (userEntry pa.toNat) else m.lookup r n := fun n hn => by
          rw [hentry, hlookup2 n hn, hlookup]
        refine (ih hset.pgdir ha2 (by omega) (by rw [hpa2]; show _ + 4096 * cnt ≤ _; omega) ha2).mono ?ok ?error
        case ok =>
          intro res m' hres
          obtain ⟨j, tabs', hj, hgrows', hnone, hmaps, hcase⟩ := hres
          refine ⟨j + 1, tabs ++ tabs', by omega, ?_, fun i hi => ?_, fun n hn => ?_, ?_⟩
          · have := hgrows.trans (hset.trans hgrows')
            rwa [List.nil_append] at this
          · cases i with
            | zero => exact hold
            | succ i =>
              have hi' := hnone i (by omega)
              rw [hmap _ (by omega), if_neg (by omega)] at hi'
              rw [← hi', Nat.add_right_comm, Nat.add_assoc]
          · rw [hmaps n hn, hpa2]
            by_cases hin : k + 1 ≤ n ∧ n < k + 1 + j
            · have hstep : pa.toNat + 4096 + 4096 * (n - (k + 1)) = pa.toNat + 4096 * (n - k) := by omega
              rw [if_pos hin, if_pos (by omega)]
              show some (userEntry (pa.toNat + 4096 + 4096 * (n - (k + 1)))) = _
              rw [hstep]
            · rw [if_neg hin, hmap n hn]
              by_cases hnk : n = k
              · rw [if_pos hnk, if_pos (by omega), hnk, Nat.sub_self]
                rfl
              · rw [if_neg hnk, if_neg (by omega)]
          · rcases hcase with ⟨hres, hjc, htabs', htable'⟩ | ⟨hres, hjc, hempty, hlt⟩
            · refine Or.inl ⟨hres, by omega, by rw [List.length_append, htabs', hmissing], fun π hπ => ?_⟩
              rw [htable' π hπ, htable2 π hπ, htable π hπ, pathsOf, mem_union, not_or, and_assoc]
            · exact Or.inr ⟨hres, by omega, hempty, by rw [hfree, hmissing]; omega⟩
        case error =>
          intro e m' hres
          obtain ⟨he, i, hi, hmapped⟩ := hres
          refine ⟨he, i + 1, by omega, ?_⟩
          rw [hmap _ (by omega), if_neg (by omega)] at hmapped
          rwa [Nat.add_right_comm, Nat.add_assoc] at hmapped

/-! ### The call -/

/-- The page of `a` overlaps the range of `sz` bytes from `va` on. -/
def InPages (va sz a : UInt64) : Prop :=
  va.toNat / pageSize ≤ a.toNat / pageSize ∧ a.toNat / pageSize ≤ (va.toNat + sz.toNat - 1) / pageSize

section
variable (hsz : 0 < sz.toNat) (hva : va.toNat + sz.toNat ≤ 2 ^ 48)
include hsz hva

theorem mapPages_eq : mapPages va sz = (va.toNat + sz.toNat - 1) / pageSize - va.toNat / pageSize + 1 := by
  have hlast : (va + sz - 1).toNat = va.toNat + sz.toNat - 1 := by
    rw [UInt64.toNat_sub, UInt64.toNat_add]
    show (2 ^ 64 - 1 + (va.toNat + sz.toNat) % 2 ^ 64) % 2 ^ 64 = _
    omega
  have hle : roundDown va ≤ roundDown (va + sz - 1) := by
    rw [UInt64.le_iff_toNat_le, toNat_roundDown, toNat_roundDown, hlast]
    omega
  rw [mapPages, UInt64.toNat_div, UInt64.toNat_sub_of_le _ _ hle, toNat_roundDown, toNat_roundDown, hlast]
  show (_ - (va.toNat - va.toNat % 4096)) / 4096 + 1 = _ / 4096 - va.toNat / 4096 + 1
  omega

/-- The pages of a range, as addresses and as numbers. -/
theorem inPages_iff : InPages va sz a ↔ va.toNat / pageSize ≤ a.toNat / pageSize ∧
      a.toNat / pageSize < va.toNat / pageSize + mapPages va sz := by
  have hle : va.toNat / pageSize ≤ (va.toNat + sz.toNat - 1) / pageSize := Nat.div_le_div_right (by omega)
  rw [InPages, mapPages_eq hsz hva]
  omega

theorem exists_inPages {i : Nat} (hi : i < mapPages va sz) :
    ∃ a : UInt64, InPages va sz a ∧ a.toNat / pageSize = va.toNat / pageSize + i := by
  have hlast : va.toNat / 4096 + i ≤ (va.toNat + sz.toNat - 1) / 4096 := by
    have hle : va.toNat / 4096 ≤ (va.toNat + sz.toNat - 1) / 4096 := Nat.div_le_div_right (by omega)
    rw [mapPages_eq hsz hva] at hi
    change i < (va.toNat + sz.toNat - 1) / 4096 - va.toNat / 4096 + 1 at hi
    omega
  have hnat : (UInt64.ofNat (4096 * (va.toNat / 4096 + i))).toNat = 4096 * (va.toNat / 4096 + i) :=
    Nat.mod_eq_of_lt (by omega)
  have hpage : (UInt64.ofNat (4096 * (va.toNat / 4096 + i))).toNat / pageSize = va.toNat / pageSize + i := by
    rw [hnat]
    exact Nat.mul_div_cancel_left _ (by decide)
  exact ⟨_, by rw [inPages_iff hsz hva, hpage]; omega, hpage⟩

end

/-- `uvm_map` maps the pages that overlap its range. -/
theorem uvmMap_spec (va sz pa : UInt64) (h : IsPgdir kend m r) (hsz : 0 < sz.toNat)
    (hva : va.toNat + sz.toNat ≤ 2 ^ 48)
    (hpa : pa.toNat + sz.toNat + 2 * pageSize ≤ 2 ^ 32) :
    Ends (MapEnds kend r (va.toNat / pageSize) (mapPages va sz) pa.toNat m)
      (fun e _ => e = .panic "remap" ∧ ∃ i < mapPages va sz, m.lookup r (va.toNat / pageSize + i) ≠ none)
      ((uvmMap r va sz pa).run m) := by
  have hpa' : pa.toNat + sz.toNat + 2 * 4096 ≤ 2 ^ 32 := hpa
  have hne : sz ≠ 0 := fun he => by
    rw [he] at hsz
    exact absurd hsz (by decide)
  have hcnt := mapPages_eq hsz hva
  change mapPages va sz = (va.toNat + sz.toNat - 1) / 4096 - va.toNat / 4096 + 1 at hcnt
  rw [uvmMap, if_neg hne]
  refine uvmMapFrom_spec h ?_ ?_ ?_
  · rw [toNat_roundDown]
    show _ = 4096 * (va.toNat / 4096)
    omega
  · show va.toNat / 4096 + _ ≤ _
    omega
  · show pa.toNat + 4096 * mapPages va sz ≤ 2 ^ 32
    omega

/-- **`uvm_map` and `pgdir_walk` are a page map.** After a call that returns 0 the pages that
overlap the range have user entries for the frames from `pa` on, and every other page has
the entry it had. With a page for each missing table the call returns 0, unless one of
these pages was mapped, and then it panics. -/
theorem uvmMap_pageMap (kend : Nat) (m : Memory) (r : Nat) (va sz pa : UInt64) (h : IsPgdir kend m r)
    (hsz : 0 < sz.toNat) (hva : va.toNat + sz.toNat ≤ 2 ^ 48) (hpa : pa.toNat % pageSize = 0)
    (hend : pa.toNat + sz.toNat + 2 * pageSize ≤ 2 ^ 32) :
    (∀ m', (uvmMap r va sz pa).run m = .ok 0 m' →
      (∀ a, InPages va sz a → ∃ pte, (pgdirWalk r a false).run m' = .ok (some pte) m' ∧
        isValid (m'.pte pte) = true ∧ m'.pte pte &&& pteUser ≠ 0 ∧
        pteAddress (m'.pte pte) = pa.toNat + ((roundDown a).toNat - (roundDown va).toNat)) ∧
      ∀ a : UInt64, a.toNat < 2 ^ 48 → ¬ InPages va sz a →
        m'.lookup r (a.toNat / pageSize) = m.lookup r (a.toNat / pageSize)) ∧
    (m.missing r (pathsOf (va.toNat / pageSize) (mapPages va sz)) ≤ m.free.length →
      ((∃ msg m', (uvmMap r va sz pa).run m = .error (.panic msg) m') ↔
        ∃ a, InPages va sz a ∧ m.lookup r (a.toNat / pageSize) ≠ none) ∧
      ((∀ a, InPages va sz a → m.lookup r (a.toNat / pageSize) = none) →
        ∃ m', (uvmMap r va sz pa).run m = .ok 0 m')) ∧
    ∀ res m', (uvmMap r va sz pa).run m = .ok res m' → res ≠ 0 →
      res = -1 ∧ m'.free = [] ∧ m.free.length < m.missing r (pathsOf (va.toNat / pageSize) (mapPages va sz)) := by
  have hspec := uvmMap_spec va sz pa h hsz hva hend
  have hmapped : ∀ m', (uvmMap r va sz pa).run m = .ok 0 m' → (∀ i < mapPages va sz,
      m.lookup r (va.toNat / pageSize + i) = none) ∧
        MapsTo m m' r (va.toNat / pageSize) (mapPages va sz) pa.toNat := by
    intro m' hrun
    obtain ⟨j, tabs, -, -, hnone, hmaps, ⟨-, rfl, -⟩ | ⟨hres, -⟩⟩ := hspec.of_ok hrun
    · exact ⟨hnone, hmaps⟩
    · exact absurd hres (by decide)
  refine ⟨fun m' hrun => ⟨fun a ha => ?inside, fun a hlt hout => ?outside⟩, fun hmem => ⟨⟨?panic, ?remap⟩, ?returns⟩,
    fun res m' hrun hne => ?fails⟩
  case inside =>
    have hlast := ha.2
    rw [inPages_iff hsz hva] at ha
    change _ / 4096 ≤ (va.toNat + sz.toNat - 1) / 4096 at hlast
    have hentry := (hmapped m' hrun).2 (a.toNat / pageSize) (by show a.toNat / 4096 < _; omega)
    rw [if_pos ha] at hentry
    obtain ⟨pte, hslot, hvalid, hpte⟩ := (lookup_eq_some ..).mp hentry
    refine ⟨pte, ?_, hpte ▸ hvalid, hpte ▸ userEntry_user _, ?_⟩
    · rw [pgdirWalk_lookup, hslot]
    · have hge : va.toNat / 4096 ≤ a.toNat / 4096 := ha.1
      have hend' : pa.toNat + sz.toNat + 2 * 4096 ≤ 2 ^ 32 := hend
      have hpa' : pa.toNat % 4096 = 0 := hpa
      rw [hpte, toNat_roundDown, toNat_roundDown, pteAddress_userEntry]
      · show pa.toNat + 4096 * (a.toNat / 4096 - va.toNat / 4096) = _
        omega
      · show (pa.toNat + 4096 * (a.toNat / 4096 - va.toNat / 4096)) % 4096 = 0
        omega
      · show pa.toNat + 4096 * (a.toNat / 4096 - va.toNat / 4096) < _
        omega
  case outside =>
    rw [inPages_iff hsz hva] at hout
    rw [(hmapped m' hrun).2 (a.toNat / pageSize) (by show a.toNat / 4096 < _; omega), if_neg hout]
  case panic =>
    intro hpanic
    obtain ⟨msg, m', hrun⟩ := hpanic
    obtain ⟨-, i, hi, hmap⟩ := hspec.of_error hrun
    obtain ⟨a, ha, hn⟩ := exists_inPages hsz hva hi
    exact ⟨a, ha, by rw [hn]; exact hmap⟩
  case remap =>
    intro hex
    obtain ⟨a, ha, hmap⟩ := hex
    cases hrun : (uvmMap r va sz pa).run m with
    | error e m' =>
      obtain ⟨rfl, -⟩ := hspec.of_error hrun
      exact ⟨_, _, rfl⟩
    | ok res m' =>
      obtain ⟨j, tabs, -, -, hnone, -, ⟨rfl, rfl, -⟩ | ⟨-, -, -, hlt⟩⟩ := hspec.of_ok hrun
      · rw [inPages_iff hsz hva] at ha
        refine absurd (hnone (a.toNat / pageSize - va.toNat / pageSize) (by omega)) ?_
        rwa [Nat.add_sub_cancel' ha.1]
      · exact absurd hmem (not_le.mpr hlt)
  case returns =>
    intro hfree
    cases hrun : (uvmMap r va sz pa).run m with
    | error e m' =>
      obtain ⟨-, i, hi, hmap⟩ := hspec.of_error hrun
      obtain ⟨a, ha, hn⟩ := exists_inPages hsz hva hi
      exact absurd (hn ▸ hfree a ha) hmap
    | ok res m' =>
      obtain ⟨j, tabs, -, -, -, -, ⟨rfl, -⟩ | ⟨-, -, -, hlt⟩⟩ := hspec.of_ok hrun
      · exact ⟨m', rfl⟩
      · exact absurd hmem (not_le.mpr hlt)
  case fails =>
    obtain ⟨j, tabs, -, -, -, -, ⟨hres, -⟩ | ⟨hres, -, hempty, hlt⟩⟩ := hspec.of_ok hrun
    · exact absurd hres hne
    · exact ⟨hres, hempty, hlt⟩

/-- Eight free pages, and a directory that is empty. -/
def blankMemory : Memory :=
  ⟨fun _ _ => 0, [0x200000, 0x201000, 0x202000, 0x203000, 0x204000, 0x205000, 0x206000, 0x207000]⟩

theorem blankMemory_pgdir : IsPgdir 0x100000 blankMemory 0x100000 ∧
    (∀ t, blankMemory.IsTable 0x100000 t ↔ t = 0x100000) ∧ ∀ n, blankMemory.lookup 0x100000 n = none := by
  have hzero : ∀ i, isValid (blankMemory.page 0x100000 i) = false := fun _ => (by decide : isValid 0 = false)
  have hpages : ∀ p ∈ blankMemory.free, IsPage 0x100000 p := by decide
  obtain ⟨hdir, htables, -, hnone⟩ := isPgdir_blank (by decide) hpages (by decide) hzero
  exact ⟨hdir, htables, hnone⟩

/-- Two pages from the middle of page 1 on. -/
theorem uvmMap_pageMap_blank : ∃ m' pte, (uvmMap 0x100000 0x1800 0x1000 0x300000).run blankMemory = .ok 0 m' ∧
    (pgdirWalk 0x100000 0x2345 false).run m' = .ok (some pte) m' ∧ pteAddress (m'.pte pte) = 0x301000 := by
  obtain ⟨hdir, -, hnone⟩ := blankMemory_pgdir
  obtain ⟨hmap, hmem, -⟩ := uvmMap_pageMap 0x100000 blankMemory 0x100000 0x1800 0x1000 0x300000 hdir
    (by decide) (by decide)
    (by decide) (by decide)
  obtain ⟨m', hrun⟩ := (hmem ((missing_pathsOf_le ..).trans (by decide))).2 fun a _ => hnone _
  obtain ⟨pte, hwalk, -, -, haddr⟩ := (hmap m' hrun).1 0x2345 ⟨by decide, by decide⟩
  exact ⟨m', pte, hrun, hwalk, haddr⟩

end OS2021.Core
