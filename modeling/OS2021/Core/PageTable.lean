import OS2021.Core.VirtualMemory

/-! The entries of page tables, and the pages of the allocator. -/
namespace OS2021.Core
open Fs Lib Function

variable {kend p t : Nat} {m : Memory} {i : Fin nPtePerTable} {w pa flags : UInt64}

/-! ### Entries -/

theorem and_mask_of_page {a : Nat} (ha : a % 4096 = 0) (hlt : a < 2 ^ 32) : a &&& 0xFFFFF000 = a := by
  have hq : a = (a / 4096) <<< 12 := by
    rw [Nat.shiftLeft_eq]
    omega
  have hmask : (0xFFFFF000 : Nat) = (2 ^ 20 - 1) <<< 12 := by decide
  rw [hq, hmask, ← Nat.shiftLeft_and_distrib, Nat.and_two_pow_sub_one_of_lt_two_pow (by omega)]

/-- The address in an entry, its flags being in the low bits. -/
theorem pteAddress_or (hpa : pa.toNat % 4096 = 0) (hlt : pa.toNat < 2 ^ 32)
    (hflags : flags.toNat &&& 0xFFFFF000 = 0) : pteAddress (pa ||| flags) = pa.toNat := by
  rw [pteAddress, UInt64.toNat_and, UInt64.toNat_or, Nat.and_or_distrib_right]
  show pa.toNat &&& 0xFFFFF000 ||| flags.toNat &&& 0xFFFFF000 = _
  rw [and_mask_of_page hpa hlt, hflags, Nat.or_zero]

theorem isValid_or (hflags : flags.toNat &&& 1 = 1) : isValid (pa ||| flags) = true := by
  rw [isValid, bne_iff_ne]
  intro hzero
  have hnat := congrArg UInt64.toNat hzero
  rw [UInt64.toNat_and, UInt64.toNat_or, Nat.and_or_distrib_right] at hnat
  have hle : flags.toNat &&& 1 ≤ pa.toNat &&& 1 ||| flags.toNat &&& 1 := Nat.right_le_or
  rw [hflags] at hle
  exact absurd (hle.trans_eq (hflags ▸ hnat)) (by decide)

theorem pteAddress_mod (w : UInt64) : pteAddress w % 4096 = 0 := by
  rw [pteAddress, UInt64.toNat_and]
  show (w.toNat &&& 0xFFFFF000) % 2 ^ 12 = 0
  rw [Nat.and_mod_two_pow]
  exact Nat.and_zero _

/-! ### Pages -/

/-- A page of the memory manager. -/
def IsPage (kend p : Nat) : Prop := p % pageSize = 0 ∧ kend ≤ p ∧ p < phystop

instance (kend p : Nat) : Decidable (IsPage kend p) :=
  inferInstanceAs (Decidable (p % pageSize = 0 ∧ kend ≤ p ∧ p < phystop))

/-! ### The allocator -/

/-- What is left when `kalloc` has taken `p`. -/
def Memory.taken (m : Memory) (p : Nat) (rest : List Nat) : Memory :=
  { page := update m.page p fun _ => 0, free := rest }

theorem kalloc_run (m : Memory) : kalloc.run m = match m.free with
    | [] => .ok none m
    | p :: rest => .ok (some p) (m.taken p rest) := by
  unfold kalloc
  rw [bind_ok (get_run m)]
  cases m.free <;> rfl

/-- What `kfree` leaves. -/
def Memory.freed (m : Memory) (p : Nat) : Memory :=
  { page := update m.page p fun i => if i = 0 then (match m.free with | [] => 0 | q :: _ => p2k q) else 0
    free := p :: m.free }

theorem kfree_run (m : Memory) (hp : IsPage kend p) : (kfree kend p).run m = .ok () (m.freed p) := by
  have hcheck : ¬ (p % pageSize ≠ 0 ∨ p < kend ∨ phystop ≤ p) := by
    obtain ⟨ha, hl, hh⟩ := hp
    rw [not_or, not_or, not_not, not_lt, not_le]
    exact ⟨ha, hl, hh⟩
  rw [kfree, if_neg hcheck]
  rfl

/-! ### Entries that change -/

theorem page_setPte_self : (m.setPte (t, i) w).page t i = w := by
  show update m.page t (update (m.page t) i w) t i = w
  rw [update_self, update_self]

theorem page_setPte_of_ne {x : Nat} {j : Fin nPtePerTable} (hne : x ≠ t ∨ j ≠ i) :
    (m.setPte (t, i) w).page x j = m.page x j := by
  show update m.page t (update (m.page t) i w) x j = m.page x j
  by_cases hx : x = t
  · rw [hx, update_self, update_of_ne (hne.resolve_left fun hn => hn hx)]
  · rw [update_of_ne hx]

/-! ### Addresses -/

theorem toNat_ofNat_page (hp : IsPage kend p) : (UInt64.ofNat p).toNat = p := by
  have : p < 0x3F000000 := hp.2.2
  exact Nat.mod_eq_of_lt (by omega)

/-- The entry that `kalloc`'s page is linked with. -/
theorem pteAddress_table (hp : IsPage kend p) : pteAddress (.ofNat p ||| pteTable) = p := by
  have hnat := toNat_ofNat_page hp
  have : p < 0x3F000000 := hp.2.2
  rw [pteAddress_or (by rw [hnat]; exact hp.1) (by rw [hnat]; omega) (by decide), hnat]

theorem toNat_roundDown (a : UInt64) : (roundDown a).toNat = a.toNat - a.toNat % 4096 := by
  rw [roundDown, UInt64.toNat_sub_of_le, UInt64.toNat_mod]
  · rfl
  · rw [UInt64.le_iff_toNat_le, UInt64.toNat_mod]
    exact Nat.mod_le ..

theorem toNat_sub_roundDown (a : UInt64) : (a - roundDown a).toNat = a.toNat % 4096 := by
  have hdown := toNat_roundDown a
  rw [UInt64.toNat_sub_of_le _ _ (by rw [UInt64.le_iff_toNat_le, hdown]; omega), hdown]
  omega

theorem toNat_add_last {a : UInt64} (ha : a.toNat + 4095 < 2 ^ 64) : (a + 4096 - 1).toNat = a.toNat + 4095 := by
  rw [UInt64.toNat_sub, UInt64.toNat_add]
  show (2 ^ 64 - 1 + (a.toNat + 4096) % 2 ^ 64) % 2 ^ 64 = _
  omega

theorem toNat_add_of_lt {a b : UInt64} (h : a.toNat + b.toNat < 2 ^ 64) : (a + b).toNat = a.toNat + b.toNat := by
  rw [UInt64.toNat_add]
  exact Nat.mod_eq_of_lt h

/-- The next page. -/
theorem toNat_add_page {a : UInt64} {k : Nat} (ha : a.toNat = pageSize * k) (hk : k < 2 ^ 36) :
    (a + 4096).toNat = pageSize * (k + 1) := by
  have ha' : a.toNat = 4096 * k := ha
  rw [toNat_add_of_lt (by show _ + 4096 < _; omega), ha]
  rfl

/-- A page at a page boundary is one page. -/
theorem mapPages_page {a : UInt64} (ha : a.toNat % 4096 = 0) : mapPages a 4096 = 1 := by
  have hlt := a.toNat_lt
  have hlast := toNat_add_last (a := a) (by omega)
  have hdown : roundDown (a + 4096 - 1) = roundDown a := by
    apply UInt64.toNat_inj.mp
    rw [toNat_roundDown, toNat_roundDown, hlast]
    omega
  rw [mapPages, hdown, UInt64.sub_self]
  rfl

end OS2021.Core
