import OS2021.Core.PageTable
import OS2021.Lib.Trie
import Mathlib.Data.Finset.Card
import Mathlib.Data.Finset.Dedup

/-! What page tables are for: a map from pages to entries.

`Memory.lookup m r n` is the entry that page number `n` is mapped with in the address space
of directory `r`. A walk that allocates adds tables, one for each that is missing, and
changes no entry of the map (`Grows`); storing at the end of a walk changes the map at one
page. How many tables are missing is known before the walk, so that it is known exactly
whether memory suffices. -/
namespace OS2021.Core
open Fs Lib Function Finset

variable {kend p q r t n : Nat} {m m' m'' : Memory} {σ π : List (Fin nPtePerTable)} {i : Fin nPtePerTable}
  {va w : UInt64} {level : Nat} {S : Finset (List (Fin nPtePerTable))} {rest : List Nat} {pte : PtePtr}

/-! ### The map -/

/-- The table that an entry points to. -/
def Memory.next (m : Memory) (t : Nat) (i : Fin nPtePerTable) : Option Nat :=
  if isValid (m.page t i) then some (pteAddress (m.page t i)) else none

/-- The table at the end of a path from the directory. -/
def Memory.table (m : Memory) (r : Nat) (π : List (Fin nPtePerTable)) : Option Nat := follow m.next r π

def Memory.IsTable (m : Memory) (r t : Nat) : Prop := ∃ π, π.length ≤ 3 ∧ m.table r π = some t

/-- Where page number `n` is looked up in a table of the given level. -/
def digit (n level : Nat) : Fin nPtePerTable := ⟨n / nPtePerTable ^ level % nPtePerTable, Nat.mod_lt _ (by decide)⟩

/-- The way from a table of the given level to the last one. -/
def pathFrom (n : Nat) : (level : Nat) → List (Fin nPtePerTable)
  | 0 => []
  | level + 1 => digit n (level + 1) :: pathFrom n level

/-- The place of page `n`'s entry. -/
def Memory.slot (m : Memory) (r n : Nat) : Option PtePtr := (m.table r (pathFrom n 3)).map (·, digit n 0)

/-- The entry that page `n` is mapped with. -/
def Memory.lookup (m : Memory) (r n : Nat) : Option UInt64 :=
  (m.slot r n).bind fun pte => if isValid (m.pte pte) then some (m.pte pte) else none

theorem length_pathFrom (n level : Nat) : (pathFrom n level).length = level := by
  induction level with
  | zero => rfl
  | succ level ih => rw [pathFrom, List.length_cons, ih]

theorem px_eq_digit (hl : level ≤ 3) : px level va = digit (va.toNat / pageSize) level := by
  have hshift : (UInt64.ofNat (12 + 9 * level)).toNat = 12 + 9 * level := by
    show (12 + 9 * level) % 2 ^ 64 = _
    omega
  apply Fin.ext
  show (va >>> _).toNat % 512 = va.toNat / 4096 / 512 ^ level % 512
  have hpow : 2 ^ (12 + 9 * level) = 4096 * 512 ^ level := by
    rw [Nat.pow_add, Nat.pow_mul]
  rw [UInt64.toNat_shiftRight, hshift, Nat.mod_eq_of_lt (by omega : 12 + 9 * level < 64), Nat.shiftRight_eq_div_pow,
    hpow, Nat.div_div_eq_div_mul]

/-- Page numbers of 36 bits have one place each. -/
theorem eq_of_path_eq {n' : Nat} (hn : n < 2 ^ 36) (hn' : n' < 2 ^ 36) (hpath : pathFrom n 3 = pathFrom n' 3)
    (hlast : digit n 0 = digit n' 0) : n = n' := by
  simp only [pathFrom, List.cons.injEq, and_true, digit, Fin.mk.injEq] at hpath hlast
  have h3 : n / 134217728 % 512 = n' / 134217728 % 512 := hpath.1
  have h2 : n / 262144 % 512 = n' / 262144 % 512 := hpath.2.1
  have h1 : n / 512 % 512 = n' / 512 % 512 := hpath.2.2
  have h0 : n / 1 % 512 = n' / 1 % 512 := hlast
  omega

theorem follow_cons (m : Memory) (t : Nat) (i : Fin nPtePerTable) (π : List (Fin nPtePerTable)) :
    follow m.next t (i :: π) = (m.next t i).bind (follow m.next · π) := rfl

/-- A walk that is not to allocate finds the place of the entry, and changes nothing. -/
theorem pgdirWalkFrom_lookup (m : Memory) (va : UInt64) (hl : level ≤ 3) (t : Nat) :
    (pgdirWalkFrom va false level t).run m =
      .ok ((follow m.next t (pathFrom (va.toNat / pageSize) level)).map (·, digit (va.toNat / pageSize) 0)) m := by
  induction level generalizing t with
  | zero => rw [pgdirWalkFrom, pure_run, pathFrom, follow_nil, Option.map_some, px_eq_digit hl]
  | succ level ih =>
    rw [pgdirWalkFrom, bind_ok (get_run m), pathFrom, follow_cons, Memory.next, Memory.pte, px_eq_digit hl]
    by_cases hvalid : isValid (m.page t (digit (va.toNat / pageSize) (level + 1))) = true
    · rw [if_pos hvalid, if_pos hvalid, ih (by omega), Option.bind_some]
    · rw [if_neg hvalid, if_neg hvalid]
      rfl

theorem pgdirWalk_lookup (m : Memory) (r : Nat) (va : UInt64) :
    (pgdirWalk r va false).run m = .ok (m.slot r (va.toNat / pageSize)) m :=
  pgdirWalkFrom_lookup m va (Nat.le_refl 3) r

theorem lookup_eq_some (m : Memory) (r n : Nat) (w : UInt64) :
    m.lookup r n = some w ↔ ∃ pte, m.slot r n = some pte ∧ isValid w = true ∧ m.pte pte = w := by
  rw [Memory.lookup, Option.bind_eq_some_iff]
  refine exists_congr fun pte => and_congr_right fun _ => ?_
  constructor
  · intro h
    split at h
    case isTrue hvalid =>
      cases h
      exact ⟨hvalid, rfl⟩
    case isFalse => cases h
  · intro h
    obtain ⟨hvalid, rfl⟩ := h
    exact if_pos hvalid

/-! ### Directories -/

/-- The tables of directory `r` are distinct pages, and none of them is free. -/
structure IsPgdir (kend : Nat) (m : Memory) (r : Nat) : Prop where
  nodup : m.free.Nodup
  isPage : ∀ p ∈ m.free, IsPage kend p
  branching : Branching m.next r 3
  apart : ∀ t, m.IsTable r t → t ∉ m.free

theorem isTable_root (m : Memory) (r : Nat) : m.IsTable r r := ⟨[], Nat.zero_le 3, rfl⟩

theorem isTable_of_slot (h : m.slot r n = some pte) : m.IsTable r pte.1 := by
  obtain ⟨t, ht, rfl⟩ := Option.map_eq_some_iff.mp h
  exact ⟨_, (length_pathFrom n 3).le, ht⟩

/-- What a call that adds the tables `tabs` leaves. -/
structure Grows (kend r : Nat) (m m' : Memory) (tabs : List Nat) : Prop where
  pgdir : IsPgdir kend m' r
  free : m.free = tabs ++ m'.free
  kept : ∀ π t, π.length ≤ 3 → m.table r π = some t → m'.table r π = some t
  tables : ∀ t, m'.IsTable r t ↔ m.IsTable r t ∨ t ∈ tabs
  page : ∀ p, ¬ m.IsTable r p → p ∉ tabs → m'.page p = m.page p

theorem Grows.refl (h : IsPgdir kend m r) : Grows kend r m m [] :=
  ⟨h, rfl, fun _ _ _ ht => ht, fun _ => by simp, fun _ _ _ => rfl⟩

theorem Grows.trans {tabs tabs' : List Nat} (h : Grows kend r m m' tabs) (h' : Grows kend r m' m'' tabs') :
    Grows kend r m m'' (tabs ++ tabs') := by
  refine ⟨h'.pgdir, ?_, fun π t hπ ht => h'.kept π t hπ (h.kept π t hπ ht), fun t => ?_, fun p hp hnot => ?_⟩
  · rw [h.free, h'.free, List.append_assoc]
  · rw [h'.tables, h.tables, List.mem_append, or_assoc]
  · rw [List.mem_append, not_or] at hnot
    rw [h'.page p (by rw [h.tables, not_or]; exact ⟨hp, hnot.1⟩) hnot.2, h.page p hp hnot.1]

/-- What is not a table may change: every path leads where it did. -/
theorem table_congr (hpage : ∀ t, m.IsTable r t → m'.page t = m.page t) (hπ : π.length ≤ 3) :
    m'.table r π = m.table r π := by
  refine follow_congr fun ρ i x hρ hx => ?_
  have hlen := hρ.length_le
  rw [List.length_append, List.length_singleton] at hlen
  rw [Memory.next, Memory.next, hpage x ⟨ρ, by omega, hx⟩]

theorem lookup_congr (hpage : ∀ t, m.IsTable r t → m'.page t = m.page t) (n : Nat) :
    m'.lookup r n = m.lookup r n := by
  have hslot : m'.slot r n = m.slot r n := by
    rw [Memory.slot, Memory.slot, table_congr hpage (length_pathFrom n 3).le]
  rw [Memory.lookup, Memory.lookup, hslot]
  refine Option.bind_congr fun pte hpte => ?_
  rw [Memory.pte, Memory.pte, hpage _ (isTable_of_slot hpte)]

theorem isTable_congr (h : ∀ π, π.length ≤ 3 → m'.table r π = m.table r π) (t : Nat) :
    m'.IsTable r t ↔ m.IsTable r t :=
  exists_congr fun π => and_congr_right fun hπ => by rw [h π hπ]

theorem IsPgdir.congr (h : IsPgdir kend m r) (hpage : ∀ t, m.IsTable r t → m'.page t = m.page t)
    (hnodup : m'.free.Nodup) (hisPage : ∀ p ∈ m'.free, IsPage kend p) (hfree : ∀ t, m.IsTable r t → t ∉ m'.free) :
    IsPgdir kend m' r ∧ (∀ π, π.length ≤ 3 → m'.table r π = m.table r π) ∧ ∀ n, m'.lookup r n = m.lookup r n := by
  have htable : ∀ π, π.length ≤ 3 → m'.table r π = m.table r π := fun π hπ => table_congr hpage hπ
  refine ⟨⟨hnodup, hisPage, fun π ρ x hπ hρ hx hx' => ?_, fun t ht => ?_⟩, htable, lookup_congr hpage⟩
  · have hx1 : m.table r π = some x := (htable π hπ).symm.trans hx
    exact h.branching π ρ x hπ hρ hx1 ((htable ρ hρ).symm.trans hx')
  · exact hfree t ((isTable_congr htable t).mp ht)

/-- A directory without entries maps nothing, and is its only table. -/
theorem isPgdir_blank (hnodup : m.free.Nodup) (hisPage : ∀ p ∈ m.free, IsPage kend p) (hr : r ∉ m.free)
    (hzero : ∀ i, isValid (m.page r i) = false) :
    IsPgdir kend m r ∧ (∀ t, m.IsTable r t ↔ t = r) ∧ (∀ π, π ≠ [] → m.table r π = none) ∧
      ∀ n, m.lookup r n = none := by
  have htable : ∀ π, π ≠ [] → m.table r π = none := fun π hπ => by
    cases π with
    | nil => exact absurd rfl hπ
    | cons i π =>
      rw [Memory.table, follow_cons, Memory.next, hzero i]
      rfl
  have hnil : ∀ π t, m.table r π = some t → π = [] ∧ t = r := fun π t ht => by
    by_cases hπ : π = []
    · rw [hπ] at ht
      exact ⟨hπ, (Option.some.inj ht).symm⟩
    · rw [htable π hπ] at ht
      cases ht
  have htables : ∀ t, m.IsTable r t ↔ t = r := fun t =>
    ⟨fun ⟨π, _, ht⟩ => (hnil π t ht).2, fun he => he ▸ isTable_root m r⟩
  refine ⟨⟨hnodup, hisPage, fun π ρ x _ _ hx hx' => ?_, fun t ht => ?_⟩, htables, htable, fun n => ?_⟩
  · exact (hnil π x hx).1.trans (hnil ρ x hx').1.symm
  · rw [(htables t).mp ht]
    exact hr
  · rw [Memory.lookup, Memory.slot, htable _ (by rw [pathFrom]; exact List.cons_ne_nil _ _)]
    rfl

/-! ### New tables -/

theorem next_setPte_self : (m.setPte (t, i) w).next t i = if isValid w then some (pteAddress w) else none := by
  rw [Memory.next, page_setPte_self]

theorem next_setPte_of_ne {x : Nat} {j : Fin nPtePerTable} (hne : x ≠ t ∨ j ≠ i) :
    (m.setPte (t, i) w).next x j = m.next x j := by
  rw [Memory.next, Memory.next, page_setPte_of_ne hne]

theorem page_taken_self (j : Fin nPtePerTable) : (m.taken q rest).page q j = 0 := by
  show update m.page q (fun _ => 0) q j = 0
  rw [update_self]

/-- The memory after an empty entry has been given a new table. -/
def Memory.linked (m : Memory) (t : Nat) (i : Fin nPtePerTable) (q : Nat) (rest : List Nat) : Memory :=
  (m.taken q rest).setPte (t, i) (.ofNat q ||| pteTable)

/-- `kalloc` takes a page from the free list, which is in no address space. -/
theorem IsPgdir.take (h : IsPgdir kend m r) (hfree : m.free = q :: rest) :
    IsPgdir kend (m.taken q rest) r ∧ (∀ π, π.length ≤ 3 → (m.taken q rest).table r π = m.table r π) ∧
      ∀ n, (m.taken q rest).lookup r n = m.lookup r n := by
  have hmem : q ∈ m.free := hfree ▸ List.mem_cons_self
  have hsub : ∀ p ∈ rest, p ∈ m.free := fun p hp => hfree ▸ List.mem_cons_of_mem q hp
  have hnodup := h.nodup
  rw [hfree] at hnodup
  refine h.congr (fun t ht => ?_) hnodup.of_cons (fun p hp => h.isPage p (hsub p hp))
    fun t ht hp => h.apart t ht (hsub t hp)
  have hne : t ≠ q := fun he => h.apart t ht (he ▸ hmem)
  exact update_of_ne hne ..

theorem IsPgdir.link (h : IsPgdir kend m r) (ht : m.table r σ = some t) (hσ : σ.length < 3)
    (hempty : isValid (m.page t i) = false) (hfree : m.free = q :: rest) : Grows kend r m (m.linked t i q rest) [q] ∧
      (∀ π, π.length ≤ 3 → (m.linked t i q rest).table r π = if π = σ ++ [i] then some q else m.table r π) ∧
      ∀ n, (m.linked t i q rest).lookup r n = m.lookup r n := by
  have hmem : q ∈ m.free := hfree ▸ List.mem_cons_self
  have hqt : q ≠ t := fun he => h.apart t ⟨σ, hσ.le, ht⟩ (he ▸ hmem)
  have hpt : (m.taken q rest).page t = m.page t := update_of_ne hqt.symm ..
  have hpq : ∀ j, (m.taken q rest).page q j = 0 := page_taken_self
  obtain ⟨h1, htable1, hlookup1⟩ := h.take hfree
  have ht1 : (m.taken q rest).table r σ = some t := (htable1 σ hσ.le).trans ht
  have hempty1 : (m.taken q rest).next t i = none := by rw [Memory.next, hpt, hempty]; rfl
  have hnew : (m.linked t i q rest).next t i = some q := by
    rw [Memory.linked, next_setPte_self, if_pos (isValid_or (by decide)), pteAddress_table (h.isPage q hmem)]
  have hsame : ∀ x j, x ≠ t ∨ j ≠ i → (m.linked t i q rest).next x j = (m.taken q rest).next x j :=
    fun x j hne => next_setPte_of_ne hne
  have hq : ∀ j, (m.linked t i q rest).next q j = none := fun j => by
    rw [hsame q j (Or.inl hqt), Memory.next, hpq, if_neg (by decide)]
  have hfresh : ∀ π, π.length ≤ 3 → (m.taken q rest).table r π ≠ some q := fun π hπ hq => by
    exact h.apart q ⟨π, hπ, (htable1 π hπ).symm.trans hq⟩ hmem
  have htable : ∀ π, π.length ≤ 3 →
      (m.linked t i q rest).table r π = if π = σ ++ [i] then some q else m.table r π := by
    intro π hπ
    have hlink := h1.branching.follow_link ht1 hσ hempty1 hnew hsame hq hπ
    refine Eq.trans hlink ?_
    rw [← htable1 π hπ]
    rfl
  have hold : m.table r (σ ++ [i]) = none := by
    rw [Memory.table, follow_step ht, Memory.next, hempty]
    rfl
  have htables : ∀ x, (m.linked t i q rest).IsTable r x ↔ m.IsTable r x ∨ x ∈ [q] := by
    intro x
    rw [List.mem_singleton]
    constructor
    · intro ⟨π, hπ, hx⟩
      rw [htable π hπ] at hx
      split at hx
      · exact Or.inr (Option.some.inj hx).symm
      · exact Or.inl ⟨π, hπ, hx⟩
    · intro hx
      rcases hx with ⟨π, hπ, hx⟩ | rfl
      · refine ⟨π, hπ, ?_⟩
        rw [htable π hπ, if_neg fun he => ?_, hx]
        rw [he, hold] at hx
        cases hx
      · exact ⟨σ ++ [i], by rw [List.length_append, List.length_singleton]; omega, by
          rw [htable _ (by rw [List.length_append, List.length_singleton]; omega), if_pos rfl]⟩
  have hpage : ∀ x j, x ≠ q → x ≠ t ∨ j ≠ i → (m.linked t i q rest).page x j = m.page x j := fun x j hxq hne => by
    rw [Memory.linked, page_setPte_of_ne hne]
    exact congrFun (update_of_ne hxq ..) j
  refine ⟨⟨⟨h1.nodup, h1.isPage, h1.branching.link ht1 hσ hempty1 hnew hsame hq hfresh, fun x hx hx' => ?_⟩, ?_,
    fun π x hπ hx => ?_, htables, fun x hx hne => ?_⟩, htable, fun k => ?_⟩
  · rcases (htables x).mp hx with hx | hx
    · exact h.apart x hx (hfree ▸ List.mem_cons_of_mem q hx')
    · have hnodup := h.nodup
      rw [hfree] at hnodup
      exact (List.nodup_cons.mp hnodup).1 (List.mem_singleton.mp hx ▸ hx')
  · exact hfree
  · rw [htable π hπ, if_neg fun he => ?_, hx]
    rw [he, hold] at hx
    cases hx
  · funext j
    refine hpage x j (fun he => hne (List.mem_singleton.mpr he)) (Or.inl fun he => hx ?_)
    exact he ▸ ⟨σ, hσ.le, ht⟩
  · rw [Memory.lookup, Memory.lookup, Memory.slot, Memory.slot, htable _ (length_pathFrom k 3).le]
    by_cases hpath : pathFrom k 3 = σ ++ [i]
    · rw [if_pos hpath, hpath, hold]
      have hzero : (m.linked t i q rest).pte (q, digit k 0) = 0 := by
        rw [Memory.pte, Memory.linked, page_setPte_of_ne (Or.inl hqt), hpq]
      show (if isValid _ then _ else _) = _
      rw [hzero]
      rfl
    · rw [if_neg hpath]
      refine Option.bind_congr fun pte hpte => ?_
      obtain ⟨x, hx, rfl⟩ := Option.map_eq_some_iff.mp hpte
      have hxq : x ≠ q := fun he => h.apart x ⟨_, (length_pathFrom k 3).le, hx⟩ (he ▸ hmem)
      have hxt : x ≠ t := fun he => by
        have := h.branching _ σ x (length_pathFrom k 3).le hσ.le hx (he ▸ ht)
        have := congrArg List.length this
        rw [length_pathFrom] at this
        omega
      rw [Memory.pte, Memory.pte, hpage x _ hxq (Or.inl hxt)]

/-! ### Counting the tables that are missing -/

/-- The paths to the tables on the way of page `n`, below the one at the end of `σ`. -/
def pathsFrom (n : Nat) (σ : List (Fin nPtePerTable)) : (level : Nat) → Finset (List (Fin nPtePerTable))
  | 0 => ∅
  | level + 1 => insert (σ ++ [digit n (level + 1)]) (pathsFrom n (σ ++ [digit n (level + 1)]) level)

/-- Of some paths, how many lead to no table. -/
def Memory.missing (m : Memory) (r : Nat) (paths : Finset (List (Fin nPtePerTable))) : Nat :=
  (paths.filter fun π => m.table r π = none).card

theorem length_of_mem_pathsFrom (h : π ∈ pathsFrom n σ level) :
    σ.length < π.length ∧ π.length ≤ σ.length + level := by
  induction level generalizing σ with
  | zero => exact absurd h (notMem_empty π)
  | succ level ih =>
    rw [pathsFrom, mem_insert] at h
    rcases h with rfl | h
    · rw [List.length_append, List.length_singleton]
      omega
    · have := ih h
      rw [List.length_append, List.length_singleton] at this
      omega

theorem missing_congr (h : ∀ π ∈ S, m'.table r π = m.table r π) : m'.missing r S = m.missing r S := by
  rw [Memory.missing, Memory.missing, filter_congr fun π hπ => by rw [h π hπ]]

theorem missing_insert (hπ : π ∉ S) :
    m.missing r (insert π S) = (if m.table r π = none then 1 else 0) + m.missing r S := by
  rw [Memory.missing, filter_insert]
  split
  case isTrue h =>
    rw [card_insert_of_notMem fun hmem => hπ (mem_filter.mp hmem).1, Nat.add_comm]
    rfl
  case isFalse h => exact (Nat.zero_add _).symm

/-- If the missing ones of `S` are made, those of a larger set are fewer by so many. -/
theorem missing_union {S T : Finset (List (Fin nPtePerTable))}
    (h : ∀ π ∈ T, m'.table r π = none ↔ m.table r π = none ∧ π ∉ S) :
    m.missing r (S ∪ T) = m.missing r S + m'.missing r T := by
  have hT : (T.filter fun π => m'.table r π = none) = (T \ S).filter fun π => m.table r π = none := by
    ext π
    rw [mem_filter, mem_filter, mem_sdiff]
    constructor
    · intro ⟨hπ, hnone⟩
      obtain ⟨hold, hS⟩ := (h π hπ).mp hnone
      exact ⟨⟨hπ, hS⟩, hold⟩
    · intro ⟨⟨hπ, hS⟩, hold⟩
      exact ⟨hπ, (h π hπ).mpr ⟨hold, hS⟩⟩
  rw [Memory.missing, Memory.missing, Memory.missing, hT, ← union_sdiff_self_eq_union, filter_union,
    card_union_of_disjoint]
  exact disjoint_filter_filter disjoint_sdiff

/-! ### Walks that allocate -/

/-- A walk with allocation makes the tables that are missing on its way, and leaves the map
as it is. It fails only if there are too few pages for them. -/
theorem pgdirWalkFrom_alloc (h : IsPgdir kend m r) (hn : va.toNat / pageSize = n) (ht : m.table r σ = some t)
    (hlen : σ.length + level = 3) :
    ∃ o m' tabs, (pgdirWalkFrom va true level t).run m = .ok o m' ∧ Grows kend r m m' tabs ∧
      (∀ k, m'.lookup r k = m.lookup r k) ∧
      match o with
      | none => m'.free = [] ∧ m.free.length < m.missing r (pathsFrom n σ level)
      | some pte => m'.table r (σ ++ pathFrom n level) = some pte.1 ∧ pte.2 = digit n 0 ∧
          tabs.length = m.missing r (pathsFrom n σ level) ∧
          ∀ π, π.length ≤ 3 → (m'.table r π = none ↔ m.table r π = none ∧ π ∉ pathsFrom n σ level) := by
  induction level generalizing m t σ with
  | zero =>
    refine ⟨some (t, px 0 va), m, [], rfl, .refl h, fun _ => rfl, ?_, ?_, rfl, fun π _ => ?_⟩
    · rw [pathFrom, List.append_nil, ht]
    · rw [px_eq_digit (Nat.zero_le 3), hn]
    · rw [pathsFrom]
      simp
  | succ level ih =>
    have hdigit : px (level + 1) va = digit n (level + 1) := by rw [px_eq_digit (by omega), hn]
    obtain ⟨i, hi⟩ : ∃ i, digit n (level + 1) = i := ⟨_, rfl⟩
    have hlong : σ ++ [i] ∉ pathsFrom n (σ ++ [i]) level := fun hmem => (length_of_mem_pathsFrom hmem).1.ne rfl
    have hlen' : (σ ++ [i]).length + level = 3 := by
      rw [List.length_append, List.length_singleton]
      omega
    rw [pgdirWalkFrom, bind_ok (get_run m), hdigit, pathFrom, pathsFrom, hi, missing_insert hlong]
    have hassoc : σ ++ i :: pathFrom n level = σ ++ [i] ++ pathFrom n level := by rw [List.append_assoc]; rfl
    rw [hassoc]
    by_cases hvalid : isValid (m.page t i) = true
    · have hnext : m.table r (σ ++ [i]) = some (pteAddress (m.page t i)) := by
        rw [Memory.table, follow_step ht, Memory.next, if_pos hvalid]
      have hpte : isValid (m.pte (t, i)) = true := hvalid
      obtain ⟨o, m', tabs, hrun, hgrows, hlookup, ho⟩ := ih h hnext hlen'
      refine ⟨o, m', tabs, ?_, hgrows, hlookup, ?_⟩
      · rw [if_pos hpte]
        exact hrun
      · rw [hnext, if_neg (Option.some_ne_none _), Nat.zero_add]
        cases o with
        | none => exact ho
        | some pte =>
          refine ⟨ho.1, ho.2.1, ho.2.2.1, fun π hπ => ?_⟩
          rw [ho.2.2.2 π hπ, mem_insert, not_or]
          refine and_congr_right fun hnone => ⟨fun hS => ⟨fun he => ?_, hS⟩, fun hS => hS.2⟩
          rw [he, hnext] at hnone
          cases hnone
    · have hold : m.table r (σ ++ [i]) = none := by
        rw [Memory.table, follow_step ht, Memory.next, if_neg hvalid]
      have hpte : ¬ isValid (m.pte (t, i)) = true := hvalid
      rw [if_neg hpte, if_pos rfl, if_pos hold]
      cases hfree : m.free with
      | nil =>
        refine ⟨none, m, [], ?_, .refl h, fun _ => rfl, hfree, ?_⟩
        · rw [bind_ok ((kalloc_run m).trans (by rw [hfree]))]
          rfl
        · rw [List.length_nil]
          omega
      | cons q rest =>
        obtain ⟨hlink, htable, hlookup⟩ := h.link ht (by omega) (Bool.eq_false_iff.mpr hvalid) hfree
        have hnew : (m.linked t i q rest).table r (σ ++ [i]) = some q := by
          rw [htable _ (by omega), if_pos rfl]
        obtain ⟨o, m', tabs, hrun, hgrows, hlookup', ho⟩ := ih hlink.pgdir hnew hlen'
        have hsame : (m.linked t i q rest).missing r (pathsFrom n (σ ++ [i]) level) =
            m.missing r (pathsFrom n (σ ++ [i]) level) := missing_congr fun π hπ => by
          have hne : π ≠ σ ++ [i] := fun he => hlong (he ▸ hπ)
          rw [htable π (by have := (length_of_mem_pathsFrom hπ).2; omega), if_neg hne]
        refine ⟨o, m', q :: tabs, ?_, hlink.trans hgrows, fun k => (hlookup' k).trans (hlookup k), ?_⟩
        · rw [bind_ok ((kalloc_run m).trans (by rw [hfree]))]
          exact hrun
        · cases o with
          | none =>
            refine ⟨ho.1, ?_⟩
            show rest.length + 1 < _
            have hrest : (m.linked t i q rest).free.length = rest.length := rfl
            omega
          | some pte =>
            refine ⟨ho.1, ho.2.1, ?_, fun π hπ => ?_⟩
            · rw [List.length_cons, ho.2.2.1, hsame, Nat.add_comm]
            · rw [ho.2.2.2 π hπ, htable π hπ, mem_insert, not_or]
              by_cases he : π = σ ++ [i]
              · simp [he]
              · simp [he]

/-- Where no table is missing, a walk with allocation changes nothing. -/
theorem pgdirWalkFrom_present {alloc : Bool} (hl : level ≤ 3)
    (hslot : (follow m.next t (pathFrom (va.toNat / pageSize) level)).map
      (·, digit (va.toNat / pageSize) 0) = some pte) : (pgdirWalkFrom va alloc level t).run m = .ok (some pte) m := by
  induction level generalizing t with
  | zero =>
    rw [pathFrom, follow_nil, Option.map_some] at hslot
    rw [pgdirWalkFrom, pure_run, px_eq_digit hl, hslot]
  | succ level ih =>
    rw [pathFrom, follow_cons, Memory.next] at hslot
    rw [pgdirWalkFrom, bind_ok (get_run m), Memory.pte, px_eq_digit hl]
    by_cases hvalid : isValid (m.page t (digit (va.toNat / pageSize) (level + 1))) = true
    · rw [if_pos hvalid, Option.bind_some] at hslot
      rw [if_pos hvalid]
      exact ih (by omega) hslot
    · rw [if_neg hvalid] at hslot
      cases hslot

/-- The tables on the way of page `n`. -/
def paths (n : Nat) : Finset (List (Fin nPtePerTable)) := pathsFrom n [] 3

theorem pgdirWalk_alloc (h : IsPgdir kend m r) (hn : va.toNat / pageSize = n) :
    ∃ o m' tabs, (pgdirWalk r va true).run m = .ok o m' ∧ Grows kend r m m' tabs ∧
      (∀ k, m'.lookup r k = m.lookup r k) ∧
      match o with
      | none => m'.free = [] ∧ m.free.length < m.missing r (paths n)
      | some pte => m'.slot r n = some pte ∧ tabs.length = m.missing r (paths n) ∧
          ∀ π, π.length ≤ 3 → (m'.table r π = none ↔ m.table r π = none ∧ π ∉ paths n) := by
  obtain ⟨o, m', tabs, hrun, hgrows, hlookup, ho⟩ := pgdirWalkFrom_alloc h hn (t := r) (σ := []) rfl
    (show 0 + 3 = 3 from rfl)
  refine ⟨o, m', tabs, hrun, hgrows, hlookup, ?_⟩
  cases o with
  | none => exact ho
  | some pte =>
    refine ⟨?_, ho.2.2⟩
    have htable : m'.table r (pathFrom n 3) = some pte.1 := ho.1
    rw [Memory.slot, htable, Option.map_some, ← ho.2.1]

/-! ### Storing an entry -/

/-- Storing the entry of one page changes the map there. -/
theorem IsPgdir.setPte (h : IsPgdir kend m r) (hn : n < 2 ^ 36) (hslot : m.slot r n = some pte) (w : UInt64) :
    Grows kend r m (m.setPte pte w) [] ∧ (∀ π, π.length ≤ 3 → (m.setPte pte w).table r π = m.table r π) ∧
      ∀ k < 2 ^ 36, (m.setPte pte w).lookup r k =
        if k = n then (if isValid w then some w else none) else m.lookup r k := by
  obtain ⟨t, ht, rfl⟩ := Option.map_eq_some_iff.mp hslot
  have hlen := length_pathFrom n 3
  have hsame : ∀ x j, x ≠ t → (m.setPte (t, digit n 0) w).next x j = m.next x j :=
    fun x j hne => next_setPte_of_ne (Or.inl hne)
  have htable : ∀ π, π.length ≤ 3 → (m.setPte (t, digit n 0) w).table r π = m.table r π :=
    fun π hπ => h.branching.follow_leaf ht hlen hsame hπ
  have htables := isTable_congr htable
  refine ⟨⟨⟨h.nodup, h.isPage, h.branching.leaf ht hlen hsame, fun x hx => h.apart x ((htables x).mp hx)⟩, rfl,
    fun π x hπ hx => (htable π hπ).trans hx, fun x => ?_, fun x hx _ => ?_⟩, htable, fun k hk => ?_⟩
  · rw [htables x]
    simp
  · refine update_of_ne (fun he => hx ?_) ..
    exact he ▸ ⟨_, hlen.le, ht⟩
  · have hslotk : (m.setPte (t, digit n 0) w).slot r k = m.slot r k := by
      rw [Memory.slot, Memory.slot, htable _ (length_pathFrom k 3).le]
    rw [Memory.lookup, hslotk]
    by_cases hkn : k = n
    · rw [if_pos hkn, hkn, hslot, Option.bind_some, Memory.pte, page_setPte_self]
    · rw [if_neg hkn, Memory.lookup]
      refine Option.bind_congr fun pte hpte => ?_
      obtain ⟨x, hx, rfl⟩ := Option.map_eq_some_iff.mp hpte
      have hne : x ≠ t ∨ digit k 0 ≠ digit n 0 := by
        by_contra hboth
        rw [not_or, not_not, not_not] at hboth
        refine hkn (eq_of_path_eq hk hn (h.branching _ _ x (length_pathFrom k 3).le hlen.le hx ?_) hboth.2)
        exact hboth.1 ▸ ht
      rw [Memory.pte, Memory.pte, page_setPte_of_ne hne]

end OS2021.Core
