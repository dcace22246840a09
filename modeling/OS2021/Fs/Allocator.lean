import OS2021.Fs.Accounting
import OS2021.Fs.Bitmap
import OS2021.Fs.Client

/-! The bitmap allocator (`cache_alloc` and `cache_free`), over runs of atomic operations.

The bits are read off what a user of the cache sees. `cache_alloc` takes the first
clear bit and `cache_free` clears one; both only ever touch blocks outside the log, so
commits, evictions and reloads between them change no bit. -/
namespace OS2021.Fs
open Lib Function

attribute [local irreducible] blockSector

variable {sb : SuperBlock} {arena : Arena} {m m' : Machine} {c x y : Nat} {b : UInt64}
  {cur : UInt64 → BlockData} {f : BlockData → BlockData} {running : List Nat}

/-! ### Bits -/

/-- The bit of block `b`. -/
def bitOf (sb : SuperBlock) (cur : UInt64 → BlockData) (b : Nat) : Bool :=
  bitIsSet (cur (bblock sb b.toUInt64)) (b % bitPerBlock)

/-- Bit `b` is in one of the disk's bitmap blocks. -/
def InBitmap (sb : SuperBlock) (b : Nat) : Prop := b / bitPerBlock * bitPerBlock < sb.numBlocks.toNat

/-- The log and the bitmap are metadata, and the bitmap is not in the log. -/
structure Apart (sb : SuperBlock) (isMeta : Nat → Prop) : Prop where
  small : sb.numBlocks.toNat ≤ 2 ^ 32 - bitPerBlock
  bitmap : ∀ b, InBitmap sb b → OutsideLog sb (bblock sb b.toUInt64)
  data : ∀ b < sb.numBlocks.toNat, ¬ isMeta b →
    OutsideLog sb b.toUInt64 ∧ ∀ y, InBitmap sb y → bblock sb y.toUInt64 ≠ b.toUInt64

theorem inBitmap_of_lt (hx : x < sb.numBlocks.toNat) : InBitmap sb x :=
  (Nat.div_mul_le_self x bitPerBlock).trans_lt hx

namespace Apart
variable {isMeta : Nat → Prop}

theorem lt (h : Apart sb isMeta) (hx : InBitmap sb x) : x < 2 ^ 32 := by
  have hs := h.small
  have hb : x / 4096 * 4096 < sb.numBlocks.toNat := hx
  have h32 : (2 : Nat) ^ 32 - bitPerBlock = 4294963200 := by decide
  omega

end Apart

theorem toNat_bblock (hx : x < 2 ^ 32) :
    (bblock sb x.toUInt64).toNat = x / bitPerBlock + sb.bitmapStart.toNat := by
  have hb := sb.bitmapStart.toNat_lt
  have hxn : x.toUInt64.toNat = x := Nat.mod_eq_of_lt (by omega)
  rw [bblock, UInt64.toNat_add, UInt64.toNat_div, hxn, UInt32.toNat_toUInt64]
  show (x / 4096 + _) % 2 ^ 64 = x / 4096 + _
  have : x / 4096 ≤ x := Nat.div_le_self ..
  omega

/-- Two bits are in one block exactly if their numbers are in one group. -/
theorem bblock_eq_iff (hx : x < 2 ^ 32) (hy : y < 2 ^ 32) :
    bblock sb x.toUInt64 = bblock sb y.toUInt64 ↔ x / bitPerBlock = y / bitPerBlock := by
  rw [← UInt64.toNat_inj, toNat_bblock hx, toNat_bblock hy]
  omega

/-- One bit of one bitmap block is given the value `v`. -/
theorem bitOf_change {g : BlockData → Nat → BlockData} {v : Bool}
    (hg : ∀ d i j, i < bitPerBlock → bitIsSet (g d i) j = if j = i then v else bitIsSet d j)
    (hx : x < 2 ^ 32) (hy : y < 2 ^ 32) :
    bitOf sb (update cur (bblock sb x.toUInt64) (g (cur (bblock sb x.toUInt64)) (x % bitPerBlock))) y =
      if y = x then v else bitOf sb cur y := by
  rw [bitOf, bitOf]
  by_cases hgroup : bblock sb y.toUInt64 = bblock sb x.toUInt64
  · rw [hgroup, update_self, hg _ _ _ (Nat.mod_lt _ (by decide))]
    have hiff : y % bitPerBlock = x % bitPerBlock ↔ y = x := by
      have hdiv := (bblock_eq_iff hy hx).mp hgroup
      constructor
      · intro hmod
        rw [← Nat.div_add_mod y bitPerBlock, hdiv, hmod, Nat.div_add_mod]
      · exact fun he => he ▸ rfl
    simp only [hiff]
  · rw [update_of_ne hgroup, if_neg fun he : y = x => hgroup (he ▸ rfl)]

theorem bitOf_setBit (hx : x < 2 ^ 32) (hy : y < 2 ^ 32) :
    bitOf sb (update cur (bblock sb x.toUInt64) (setBit (cur (bblock sb x.toUInt64)) (x % bitPerBlock))) y =
      if y = x then true else bitOf sb cur y := by
  refine bitOf_change (fun d i j hi => ?_) hx hy
  rw [bitIsSet_setBit hi]
  by_cases hj : j = i <;> simp [hj]

theorem bitOf_clearBit (hx : x < 2 ^ 32) (hy : y < 2 ^ 32) :
    bitOf sb (update cur (bblock sb x.toUInt64)
      (clearBit (cur (bblock sb x.toUInt64)) (x % bitPerBlock))) y =
      if y = x then false else bitOf sb cur y := by
  refine bitOf_change (fun d i j hi => ?_) hx hy
  rw [bitIsSet_clearBit hi]
  by_cases hj : j = i <;> simp [hj]

/-! ### An update within its budget -/

/-- Operations run, nobody commits, and the accounts balance. -/
def Budgeted (sb : SuperBlock) (running : List Nat) (m : Machine) : Prop :=
  ∃ started synced, Accounted sb ⟨running, started, none, synced⟩ m

theorem Budgeted.congr (h : Budgeted sb running m) (hm : SameLog m m') : Budgeted sb running m' := by
  obtain ⟨started, synced, ha⟩ := h
  exact ⟨started, synced, ha.congr hm⟩

section
variable (arena : Arena) (f : BlockData → BlockData) (hl : Live sb cur m) (hb : OutsideLog sb b)
include hl hb

theorem cacheUpdate_returns (h : Budgeted sb running m) (hc : c ∈ running) (hrm : 0 < (m.ctx c).rm) :
    ∃ x m', (cacheUpdate arena (some c) b f).run m = .ok x m' := by
  obtain ⟨started, synced, ha⟩ := h
  have hroom : m.header.numBlocks < m.log.mx := by
    have hroom : m.header.numBlocks + reserved running m.ctx ≤ logMx sb := ha.room
    have := reserved_erase m.ctx hc
    have := ha.mx
    omega
  obtain ⟨p, m1, hacq, hf, -⟩ := hl.acquire arena hb
  rw [cacheUpdate, visit, bind_ok hacq, bind_ok (get_run m1), bind_assoc, modifyData, bind_ok (modify_run _ m1)]
  have hframe := (cacheOnly_acquire arena b).of_ok hacq
  obtain ⟨m2, hm2⟩ : ∃ m2, (m1.setBlock p fun x => {x with data := f x.data}) = m2 := ⟨_, rfl⟩
  have hheader : m2.header = m.header := by
    rw [← hm2]
    exact hframe.header
  have hlog : m2.log = m.log := by
    rw [← hm2]
    exact hframe.log
  have hctx : m2.ctx = m.ctx := by
    rw [← hm2]
    exact hframe.ctx
  rw [hm2]
  have hsync : ∃ m3, (cacheSync (some c) p).run m2 = .ok () m3 := by
    have hfull : m2.header.numBlocks < m2.log.mx := by rw [hheader, hlog]; exact hroom
    have hout : 1 ≤ m2.log.outstanding := by rw [hlog]; exact ha.outstanding_pos hc
    have hsize : m2.header.numBlocks < logMaxSize := by
      have := ha.mx_le
      rw [hheader]
      omega
    by_cases hmem : (m2.heap p).blockNo ∈ m2.header.entries
    · exact ⟨_, cacheSync_absorbed hfull hout hsize.le hmem⟩
    · rw [cacheSync_new hfull hout hsize hmem, hctx, if_pos hrm]
      exact ⟨_, rfl⟩
  obtain ⟨m3, hsync⟩ := hsync
  rw [bind_ok hsync, bind_ok cacheRelease_run]
  exact ⟨_, _, rfl⟩

/-- An update by a running operation fails only if its reservation is used up. -/
theorem cacheUpdate_budget (h : Budgeted sb running m) (hc : c ∈ running) :
    Ends (fun _ m' => Live sb (update cur b (f (cur b))) m' ∧ m'.disk = m.disk ∧ Budgeted sb running m' ∧
        (m.ctx c).rm ≤ (m'.ctx c).rm + 1)
      (fun e _ => (∃ msg, e = .panic msg) ∧ (m.ctx c).rm = 0) ((cacheUpdate arena (some c) b f).run m) := by
  obtain ⟨started, synced, ha⟩ := h
  have hspec := cacheUpdate_spec arena c f hl hb ha.mx
  cases hrun : (cacheUpdate arena (some c) b f).run m with
  | ok x m' =>
    obtain ⟨-, hlive, hdisk, -⟩ := hspec.of_ok hrun
    have hlog := cacheUpdate_log ha.sized ha.mx_le hrun
    refine .ok ⟨hlive, hdisk, ⟨started, _, ha.sync hc hlog⟩, ?_⟩
    obtain ⟨-, ⟨-, hsame⟩ | ⟨-, -, -, -, -, hctx⟩⟩ := hlog
    · rw [hsame.ctx]
      omega
    · rw [hctx, update_self]
      show _ ≤ (m.ctx c).rm - 1 + 1
      omega
  | error e m' =>
    refine .error ⟨(hspec.of_error hrun).1, Nat.eq_zero_of_not_pos fun hrm => ?_⟩
    obtain ⟨x, m'', hok⟩ := cacheUpdate_returns arena f hl hb ⟨started, synced, ha⟩ hc hrm
    rw [hok] at hrun
    cases hrun

end

/-- An update that goes on with something else. -/
theorem cacheUpdate_bind {α : Type} (arena : Arena) (c : Option Nat) (b : UInt64) (f : BlockData → BlockData)
    (k : M α)
    (m : Machine) : (cacheUpdate arena c b f >>= fun _ => k).run m = (do
      let p ← cacheAcquire arena b
      modifyData p f
      cacheSync c p
      cacheRelease p
      k : M α).run m := by
  rw [cacheUpdate, visit]
  simp only [bind_assoc]
  cases hacq : (cacheAcquire arena b).run m with
  | ok p m1 =>
    rw [bind_ok hacq, bind_ok hacq, bind_ok (get_run m1)]
    rfl
  | error e m1 => rw [bind_error hacq, bind_error hacq]

theorem bzero_bind {α : Type} (arena : Arena) (c : Option Nat) (b : UInt64) (k : M α) :
    (bzero arena c b >>= fun _ => k) = cacheUpdate arena c b (fun _ _ => 0) >>= fun _ => k := by
  funext m
  have hupdate := cacheUpdate_bind arena c b (fun _ _ => 0) k m
  refine Eq.trans ?_ hupdate.symm
  rw [bzero]
  simp only [bind_assoc]
  rfl

/-! ### `cache_alloc` -/

/-- Block `x` is the first whose bit is clear. -/
structure FirstFree (sb : SuperBlock) (cur : UInt64 → BlockData) (x : Nat) : Prop where
  lt : x < sb.numBlocks.toNat
  clear : bitOf sb cur x = false
  below : ∀ y < x, bitOf sb cur y = true

/-- What is seen after block `x` has been allocated: its bit is set, and it is zero. -/
def allocated (sb : SuperBlock) (cur : UInt64 → BlockData) (x : Nat) : UInt64 → BlockData :=
  update (update cur (bblock sb x.toUInt64)
    (setBit (cur (bblock sb x.toUInt64)) (x % bitPerBlock))) x.toUInt64 fun _ => 0

/-- What one iteration over a bitmap block ends with, given the blocks before it are in use. -/
def AllocStep (sb : SuperBlock) (cur : UInt64 → BlockData) (running : List Nat) (m : Machine) (g : Nat)
    (o : Option Nat) (m' : Machine) : Prop :=
  m'.disk = m.disk ∧ Budgeted sb running m' ∧
    match o with
    | some x => FirstFree sb cur x ∧ Live sb (allocated sb cur x) m'
    | none => Live sb cur m' ∧ m'.ctx = m.ctx ∧
        ∀ y < (g + 1) * bitPerBlock, y < sb.numBlocks.toNat → bitOf sb cur y = true

/-- Not enough was reserved. -/
def OverBudget (m : Machine) (c n : Nat) (e : Halt) : Prop := (∃ msg, e = .panic msg) ∧ (m.ctx c).rm < n

section Alloc
variable {isMeta : Nat → Prop} {g : Nat}

theorem group_mod (hb : x < bitPerBlock) : (g * bitPerBlock + x) % bitPerBlock = x := by
  rw [Nat.mul_comm, Nat.mul_add_mod, Nat.mod_eq_of_lt hb]

theorem group_bblock (hx : g * bitPerBlock + x < 2 ^ 32) (hb : x < bitPerBlock) :
    bblock sb (g * bitPerBlock + x).toUInt64 = bblock sb (g * bitPerBlock).toUInt64 := by
  have hpos : 0 < bitPerBlock := by decide
  rw [bblock_eq_iff hx ((Nat.le_add_right ..).trans_lt hx), Nat.mul_div_cancel g hpos, Nat.add_comm,
    Nat.add_mul_div_right _ _ hpos, Nat.div_eq_of_lt hb, Nat.zero_add]

section
variable (arena : Arena) (hapart : Apart sb isMeta)
  (hmeta : ∀ y < sb.numBlocks.toNat, isMeta y → bitOf sb cur y = true) (hl : Live sb cur m)
include hapart hmeta hl

theorem allocIn_spec (h : Budgeted sb running m) (hc : c ∈ running) (hg : g * bitPerBlock < sb.numBlocks.toNat)
    (hset : ∀ y < g * bitPerBlock, bitOf sb cur y = true) :
    Ends (AllocStep sb cur running m g) (fun e _ => OverBudget m c 2 e ∧ ∃ x, FirstFree sb cur x)
      ((allocIn sb arena (some c) (g * bitPerBlock)).run m) := by
  have hin : InBitmap sb (g * bitPerBlock) := inBitmap_of_lt hg
  have hout := hapart.bitmap _ hin
  obtain ⟨p, m1, hacq, ha, hshow⟩ := hl.acquire arena hout
  have hbits : ∀ i < min bitPerBlock (sb.numBlocks.toNat - g * bitPerBlock),
      bitIsSet (cur (bblock sb (g * bitPerBlock).toUInt64)) i = bitOf sb cur (g * bitPerBlock + i) := by
    intro i hi
    obtain ⟨hi, hn⟩ := Nat.lt_min.mp hi
    rw [bitOf, group_mod hi, group_bblock (hapart.lt (inBitmap_of_lt (Nat.add_lt_of_lt_sub' hn))) hi]
  cases hfirst : firstClear (cur (bblock sb (g * bitPerBlock).toUInt64))
      (min bitPerBlock (sb.numBlocks.toNat - g * bitPerBlock)) with
  | some bi =>
    obtain ⟨hclear, hmem, hbelow⟩ := List.find?_range_eq_some.mp hfirst
    have hbi := List.mem_range.mp hmem
    obtain ⟨hlt, hn⟩ := Nat.lt_min.mp hbi
    have hx : g * bitPerBlock + bi < sb.numBlocks.toNat := Nat.add_lt_of_lt_sub' hn
    have hfree : FirstFree sb cur (g * bitPerBlock + bi) := by
      refine ⟨hx, ?_, fun y hy => ?_⟩
      · rw [← hbits bi hbi]
        exact (Bool.not_eq_true' _).mp hclear
      · by_cases hyg : y < g * bitPerBlock
        · exact hset y hyg
        · obtain ⟨j, rfl⟩ := Nat.exists_eq_add_of_le (not_lt.mp hyg)
          have hj : j < bi := Nat.lt_of_add_lt_add_left hy
          rw [← hbits j (hj.trans hbi)]
          simpa using hbelow j hj
    have hdata : ¬ isMeta (g * bitPerBlock + bi) := fun hm => by
      have := hmeta _ hx hm
      rw [hfree.clear] at this
      cases this
    have hrun : (allocIn sb arena (some c) (g * bitPerBlock)).run m =
        (cacheUpdate arena (some c) (bblock sb (g * bitPerBlock).toUInt64) (fun d => setBit d bi) >>= fun _ =>
          cacheUpdate arena (some c) (g * bitPerBlock + bi).toUInt64 (fun _ _ => 0) >>= fun _ =>
            pure (some (g * bitPerBlock + bi))).run m := by
      rw [allocIn, bind_ok hacq, bind_ok (get_run m1), hshow.data, hfirst, cacheUpdate_bind, bind_ok hacq]
      simp only [bzero_bind]
    rw [hrun]
    refine ((cacheUpdate_budget arena _ hl hout h hc).mono (fun _ _ hq => hq) fun e _ he =>
      ⟨⟨he.1, by omega⟩, _, hfree⟩).bind ?_
    intro _ m2 _ ⟨hl2, hdisk2, h2, hrm2⟩
    refine ((cacheUpdate_budget arena _ hl2 (hapart.data _ hx hdata).1 h2 hc).mono (fun _ _ hq => hq)
      fun e _ he => ⟨⟨he.1, by omega⟩, _, hfree⟩).bind ?_
    intro _ m3 _ ⟨hl3, hdisk3, h3, _⟩
    refine .ok ⟨hdisk3.trans hdisk2, h3, hfree, ?_⟩
    rw [allocated, group_bblock (hapart.lt (inBitmap_of_lt hx)) hlt, group_mod hlt]
    exact hl3
  | none =>
    rw [allocIn, bind_ok hacq, bind_ok (get_run m1), hshow.data, hfirst]
    obtain ⟨_, m', hread, -, hlive, hframe⟩ := cacheRead_spec arena hl hout
    rw [cacheRead, visit, bind_ok hacq, bind_ok (get_run m1), bind_ok (pure_run _ m1), bind_ok cacheRelease_run,
      pure_run] at hread
    cases hread
    rw [bind_ok cacheRelease_run, pure_run]
    refine .ok ⟨hframe.disk, h.congr ⟨hframe.header, hframe.log, hframe.ctx⟩, hlive, hframe.ctx, fun y hy hyn => ?_⟩
    by_cases hyg : y < g * bitPerBlock
    · exact hset y hyg
    · obtain ⟨j, rfl⟩ := Nat.exists_eq_add_of_le (not_lt.mp hyg)
      have hj : j < min bitPerBlock (sb.numBlocks.toNat - g * bitPerBlock) := by
        rw [Nat.succ_mul] at hy
        exact Nat.lt_min.mpr ⟨Nat.lt_of_add_lt_add_left hy, by omega⟩
      have hnone := List.find?_range_eq_none.mp hfirst j hj
      rw [← hbits j hj]
      simpa using hnone

/-- The loop from bitmap block `g` on, with `n` to go. -/
theorem allocFrom_spec {n : Nat} (h : Budgeted sb running m) (hc : c ∈ running)
    (hend : g + n = (sb.numBlocks.toNat + bitPerBlock - 1) / bitPerBlock)
    (hset : ∀ y < g * bitPerBlock, y < sb.numBlocks.toNat → bitOf sb cur y = true) :
    Ends (fun x m' => FirstFree sb cur x ∧ Live sb (allocated sb cur x) m' ∧ m'.disk = m.disk ∧
        Budgeted sb running m')
      (fun e _ => e = .panic "cache_alloc: no free block" ∧ (∀ y < sb.numBlocks.toNat, bitOf sb cur y = true) ∨
        OverBudget m c 2 e ∧ ∃ x, FirstFree sb cur x)
      ((allocFrom sb arena (some c) ((List.range' g n).map (· * bitPerBlock))).run m) := by
  induction n generalizing g m with
  | zero =>
    rw [List.range'_zero, List.map_nil, allocFrom, if_pos hapart.small]
    refine .error (Or.inl ⟨rfl, fun y hy => hset y ?_ hy⟩)
    have hend : g + 0 = (sb.numBlocks.toNat + 4096 - 1) / 4096 := hend
    show y < g * 4096
    omega
  | succ n ih =>
    rw [List.range'_succ, List.map_cons, allocFrom]
    have hg : g * bitPerBlock < sb.numBlocks.toNat := by
      have hend : g + (n + 1) = (sb.numBlocks.toNat + 4096 - 1) / 4096 := hend
      show g * 4096 < _
      omega
    have hstep := allocIn_spec arena hapart hmeta hl h hc hg fun y hy => hset y hy (hy.trans hg)
    cases hrun : (allocIn sb arena (some c) (g * bitPerBlock)).run m with
    | error e m' =>
      rw [bind_error hrun]
      exact .error (Or.inr (hstep.of_error hrun))
    | ok o m' =>
      rw [bind_ok hrun]
      obtain ⟨hdisk, h', ho⟩ := hstep.of_ok hrun
      cases o with
      | some x => exact .ok ⟨ho.1, ho.2, hdisk, h'⟩
      | none =>
        obtain ⟨hl', hctx, hset'⟩ := ho
        refine (ih hl' h' (by omega) hset').mono (fun x m'' hq => ⟨hq.1, hq.2.1, hq.2.2.1.trans hdisk, hq.2.2.2⟩)
          fun e m'' he => he.imp id fun hb => ⟨⟨hb.1.1, ?_⟩, hb.2⟩
        rw [← hctx]
        exact hb.1.2

theorem cacheAlloc_spec (h : Budgeted sb running m) (hc : c ∈ running) :
    Ends (fun x m' => FirstFree sb cur x ∧ Live sb (allocated sb cur x) m' ∧ m'.disk = m.disk ∧
        Budgeted sb running m')
      (fun e _ => e = .panic "cache_alloc: no free block" ∧ (∀ y < sb.numBlocks.toNat, bitOf sb cur y = true) ∨
        OverBudget m c 2 e ∧ ∃ x, FirstFree sb cur x)
      ((cacheAlloc sb arena (some c)).run m) := by
  rw [cacheAlloc, List.range_eq_range']
  exact allocFrom_spec arena hapart hmeta hl h hc (Nat.zero_add _) fun y hy => absurd hy (by simp)

end

/-! ### `cache_free` -/

theorem cacheFree_spec (arena : Arena) (hapart : Apart sb isMeta) (hl : Live sb cur m) (h : Budgeted sb running m)
    (hc : c ∈ running) (hx : x < sb.numBlocks.toNat) :
    Ends (fun _ m' => bitOf sb cur x = true ∧ Live sb (update cur (bblock sb x.toUInt64)
          (clearBit (cur (bblock sb x.toUInt64)) (x % bitPerBlock))) m' ∧ m'.disk = m.disk ∧ Budgeted sb running m')
      (fun e _ => e = .panic "freeing free block" ∧ bitOf sb cur x = false ∨
        OverBudget m c 1 e ∧ bitOf sb cur x = true)
      ((cacheFree sb arena (some c) x.toUInt64).run m) := by
  have hout := hapart.bitmap _ (inBitmap_of_lt hx)
  have hxn : x.toUInt64.toNat = x := Nat.mod_eq_of_lt (by have := hapart.lt (inBitmap_of_lt hx); omega)
  obtain ⟨p, m1, hacq, ha, hshow⟩ := hl.acquire arena hout
  by_cases hbit : bitIsSet (cur (bblock sb x.toUInt64)) (x % bitPerBlock) = true
  · have hrun : (cacheFree sb arena (some c) x.toUInt64).run m =
        (cacheUpdate arena (some c) (bblock sb x.toUInt64) (fun d => clearBit d (x % bitPerBlock)) >>= fun _ =>
          pure ()).run m := by
      rw [cacheFree, bind_ok hacq, bind_ok (get_run m1), hshow.data, hxn, cacheUpdate_bind, bind_ok hacq]
      dsimp only
      rw [if_pos hbit]
      rfl
    rw [hrun]
    refine ((cacheUpdate_budget arena _ hl hout h hc).mono (fun _ _ hq => hq) fun e _ he =>
      Or.inr ⟨⟨he.1, by omega⟩, hbit⟩).bind ?_
    intro _ m2 _ ⟨hl2, hdisk2, h2, _⟩
    exact .ok ⟨hbit, hl2, hdisk2, h2⟩
  · rw [cacheFree, bind_ok hacq, bind_ok (get_run m1), hshow.data, hxn]
    dsimp only
    rw [if_neg hbit]
    exact .error (Or.inl ⟨rfl, Bool.eq_false_iff.mpr hbit⟩)

end Alloc

/-! ### Runs -/

/-- A machine with the operations that are open on it, and the blocks that `cache_alloc`
has returned and `cache_free` has not had since. -/
structure Allocation where
  m : Machine
  running : List Nat
  taken : List Nat

inductive AllocCall where
  | beginOp (c : Nat)
  | endOp (c : Nat)
  | alloc (c : Nat)
  | free (c b : Nat)

/-- An operation asleep in `begin_op` has not begun, one asleep in `end_op` has ended. -/
def AllocCall.exec (sb : SuperBlock) (arena : Arena) (s : Allocation) : AllocCall → Option Allocation
  | .beginOp c =>
    match (cacheBeginOp c).run s.m with
    | .ok _ m => some {s with m, running := c :: s.running}
    | .error _ m => some {s with m}
  | .endOp c =>
    match (cacheEndOp sb arena c).run s.m with
    | .ok _ m => some {s with m, running := s.running.erase c}
    | .error (.asleep .outstanding) m => some {s with m, running := s.running.erase c}
    | .error _ _ => none
  | .alloc c =>
    match (cacheAlloc sb arena (some c)).run s.m with
    | .ok x m => some {s with m, taken := x :: s.taken}
    | .error _ _ => none
  | .free c b =>
    match (cacheFree sb arena (some c) b.toUInt64).run s.m with
    | .ok _ m => some {s with m, taken := s.taken.filter (· ≠ b)}
    | .error _ _ => none

/-- Calls are made inside operations, and only blocks that are not metadata are freed. -/
def AllocCall.Legal (sb : SuperBlock) (isMeta : Nat → Prop) (s : Allocation) : AllocCall → Prop
  | .beginOp c => c ∉ s.running
  | .endOp c => c ∈ s.running
  | .alloc c => c ∈ s.running
  | .free c b => c ∈ s.running ∧ b < sb.numBlocks.toNat ∧ ¬ isMeta b

instance (sb : SuperBlock) (isMeta : Nat → Prop) [DecidablePred isMeta] (s : Allocation) :
    (k : AllocCall) → Decidable (k.Legal sb isMeta s)
  | .beginOp c => inferInstanceAs (Decidable (c ∉ s.running))
  | .endOp c => inferInstanceAs (Decidable (c ∈ s.running))
  | .alloc c => inferInstanceAs (Decidable (c ∈ s.running))
  | .free c b => inferInstanceAs (Decidable (c ∈ s.running ∧ b < sb.numBlocks.toNat ∧ ¬ isMeta b))

section Runs
variable {isMeta : Nat → Prop} {s s' : Allocation}

/-- What a run keeps. -/
structure Allocating (sb : SuperBlock) (isMeta : Nat → Prop) (s : Allocation) : Prop where
  live : Live sb s.m.view s.m
  settled : ∃ stable, Settled sb stable s.m.disk
  budgeted : Budgeted sb s.running s.m
  isMeta : ∀ y < sb.numBlocks.toNat, isMeta y → bitOf sb s.m.view y = true
  taken : ∀ x ∈ s.taken, x < sb.numBlocks.toNat ∧ bitOf sb s.m.view x = true

/-- Bits are read outside the log, so they are those of what is seen. -/
theorem Live.bitOf (hl : Live sb cur m) (hapart : Apart sb isMeta) (hy : InBitmap sb y) :
    bitOf sb m.view y = Fs.bitOf sb cur y := by
  rw [Fs.bitOf, Fs.bitOf, hl.view _ (hapart.bitmap y hy)]

theorem Live.self (hl : Live sb cur m) : Live sb m.view m := ⟨hl.cached, hl.fits, fun _ _ => rfl⟩

/-- After an allocation. -/
theorem bitOf_allocated (hapart : Apart sb isMeta) (hx : x < sb.numBlocks.toNat) (hdata : ¬ isMeta x)
    (hl : Live sb (allocated sb cur x) m') (hy : InBitmap sb y) :
    bitOf sb m'.view y = if y = x then true else bitOf sb cur y := by
  rw [hl.bitOf hapart hy, allocated]
  have hne := (hapart.data x hx hdata).2 y hy
  have hzero : ∀ (d : UInt64 → BlockData) (z : BlockData),
      bitOf sb (update d x.toUInt64 z) y = bitOf sb d y :=
    fun d z => by rw [Fs.bitOf, update_of_ne hne, Fs.bitOf]
  rw [hzero, bitOf_setBit (hapart.lt (inBitmap_of_lt hx)) (hapart.lt hy)]

/-- After a `cache_free`. -/
theorem bitOf_freed (hapart : Apart sb isMeta) (hx : x < sb.numBlocks.toNat)
    (hl : Live sb (update cur (bblock sb x.toUInt64)
      (clearBit (cur (bblock sb x.toUInt64)) (x % bitPerBlock))) m') (hy : InBitmap sb y) :
    bitOf sb m'.view y = if y = x then false else bitOf sb cur y := by
  rw [hl.bitOf hapart hy, bitOf_clearBit (hapart.lt (inBitmap_of_lt hx)) (hapart.lt hy)]

namespace Allocating

theorem not_isMeta (h : Allocating sb isMeta s) (hx : FirstFree sb s.m.view x) : ¬ isMeta x := fun hm => by
  have hset := h.isMeta x hx.lt hm
  rw [hx.clear] at hset
  cases hset

/-- A block that is first free has not been taken. -/
theorem fresh (h : Allocating sb isMeta s) (hx : FirstFree sb s.m.view x) : x ∉ s.taken := fun hin => by
  have hset := (h.taken x hin).2
  rw [hx.clear] at hset
  cases hset

theorem beginOp (h : Allocating sb isMeta s) (hc : c ∉ s.running)
    (hexec : AllocCall.exec sb arena s (.beginOp c) = some s') : Allocating sb isMeta s' := by
  rw [AllocCall.exec] at hexec
  rcases cacheBeginOp_run (c := c) (m := s.m) with ⟨hrun, hadm⟩ | ⟨hrun, -⟩
  · rw [hrun] at hexec
    cases hexec
    obtain ⟨started, synced, ha⟩ := h.budgeted
    have hb := Accounted.beginOp (o := ⟨s.running, s.running, none, synced⟩)
      ⟨ha.nodup, fun _ hd => hd, ha.outstanding, ha.mu, ha.mx, ha.room, ha.entries, ha.committing, ha.alone⟩ hc hadm
    exact ⟨h.live.congr rfl rfl rfl rfl, h.settled, ⟨_, _, hb⟩, h.isMeta, h.taken⟩
  · rw [hrun] at hexec
    cases hexec
    exact h

/-- What is seen outside the log is as it was, so the bits are. -/
theorem congr_view (h : Allocating sb isMeta s) (hapart : Apart sb isMeta) (hl : Live sb s.m.view m')
    (hs : ∃ stable, Settled sb stable m'.disk) (hb : Budgeted sb running m') :
    Allocating sb isMeta ⟨m', running, s.taken⟩ := by
  refine ⟨hl.self, hs, hb, fun y hy hm => ?_, fun x hx => ⟨(h.taken x hx).1, ?_⟩⟩
  · rw [hl.bitOf hapart (inBitmap_of_lt hy)]
    exact h.isMeta y hy hm
  · rw [hl.bitOf hapart (inBitmap_of_lt (h.taken x hx).1)]
    exact (h.taken x hx).2

/-- An operation ends, by itself or as the last one with a commit: no bit changes. -/
theorem endOp (h : Allocating sb isMeta s) (hapart : Apart sb isMeta) (hc : c ∈ s.running)
    (hexec : AllocCall.exec sb arena s (.endOp c) = some s') : Allocating sb isMeta s' := by
  rw [AllocCall.exec] at hexec
  obtain ⟨stable, hs⟩ := h.settled
  obtain ⟨started, synced, ha⟩ := h.budgeted
  have hz : s.m.log.committing = 0 := ha.committing_zero hc
  have hended : Accounted sb ⟨s.running.erase c, started, none, synced⟩ (s.m.ended c) :=
    ha.endOp hc ⟨rfl, rfl⟩ (congrArg (fun v => {(s.m.ended c).log with committing := v}) hz) nofun
  have hspec := cacheEndOp_spec arena c h.live hs
  cases hrun : (cacheEndOp sb arena c).run s.m with
  | ok _ m' =>
    rw [hrun] at hexec
    cases hexec
    obtain ⟨hidle, -, hlog, hctx⟩ := hspec.of_ok hrun
    refine h.congr_view hapart hidle.live ⟨_, hidle.settled⟩ ⟨started, synced, ?_⟩
    have hlog' : m'.log = (s.m.ended c).log :=
      hlog.trans (congrArg (fun v => {(s.m.ended c).log with committing := v}) hz.symm)
    refine ⟨hended.nodup, hended.begun, hlog' ▸ hended.outstanding, ?_, hlog' ▸ hended.mx, ?_, ?_,
      hlog' ▸ hended.committing, nofun⟩
    · rw [hlog', hctx]
      exact hended.mu
    · have hroom : _ + reserved (s.running.erase c) s.m.ctx ≤ logMx sb := hended.room
      rw [hidle.empty, hctx]
      show 0 + reserved (s.running.erase c) s.m.ctx ≤ logMx sb
      omega
    · rw [LogHeader.entries, hidle.empty]
      exact List.nodup_nil
  | error e m' =>
    rcases hspec.of_error hrun with ⟨rfl, rfl⟩ | ⟨⟨msg, rfl⟩, -⟩ | ⟨rfl, -⟩
    · rw [hrun] at hexec
      cases hexec
      exact h.congr_view hapart (h.live.congr rfl rfl rfl rfl) ⟨stable, hs⟩ ⟨started, synced, hended⟩
    · rw [hrun] at hexec
      cases hexec
    · rw [hrun] at hexec
      cases hexec

theorem alloc (h : Allocating sb isMeta s) (hapart : Apart sb isMeta) (hc : c ∈ s.running)
    (hexec : AllocCall.exec sb arena s (.alloc c) = some s') : Allocating sb isMeta s' := by
  rw [AllocCall.exec] at hexec
  cases hrun : (cacheAlloc sb arena (some c)).run s.m with
  | error e m' =>
    rw [hrun] at hexec
    cases hexec
  | ok x m' =>
    rw [hrun] at hexec
    cases hexec
    obtain ⟨hx, hl, hdisk, hb⟩ := (cacheAlloc_spec arena hapart h.isMeta h.live h.budgeted hc).of_ok hrun
    have hbits : ∀ y < sb.numBlocks.toNat, bitOf sb m'.view y = if y = x then true else bitOf sb s.m.view y :=
      fun y hy => bitOf_allocated hapart hx.lt (h.not_isMeta hx) hl (inBitmap_of_lt hy)
    have hkeep : ∀ y < sb.numBlocks.toNat, bitOf sb s.m.view y = true → bitOf sb m'.view y = true := by
      intro y hy hset
      rw [hbits y hy, hset, ite_self]
    refine ⟨hl.self, hdisk ▸ h.settled, hb, fun y hy hm => hkeep y hy (h.isMeta y hy hm), fun y hy => ?_⟩
    rcases List.mem_cons.mp hy with rfl | hy
    · exact ⟨hx.lt, by rw [hbits y hx.lt, if_pos rfl]⟩
    · exact ⟨(h.taken y hy).1, hkeep y (h.taken y hy).1 (h.taken y hy).2⟩

theorem free (h : Allocating sb isMeta s) (hapart : Apart sb isMeta) (hc : c ∈ s.running)
    (hx : x < sb.numBlocks.toNat) (hdata : ¬ isMeta x)
    (hexec : AllocCall.exec sb arena s (.free c x) = some s') : Allocating sb isMeta s' := by
  rw [AllocCall.exec] at hexec
  cases hrun : (cacheFree sb arena (some c) x.toUInt64).run s.m with
  | error e m' =>
    rw [hrun] at hexec
    cases hexec
  | ok _ m' =>
    rw [hrun] at hexec
    cases hexec
    obtain ⟨-, hl, hdisk, hb⟩ := (cacheFree_spec arena hapart h.live h.budgeted hc hx).of_ok hrun
    have hkeep : ∀ y < sb.numBlocks.toNat, y ≠ x → bitOf sb s.m.view y = true → bitOf sb m'.view y = true := by
      intro y hy hne hset
      rw [bitOf_freed hapart hx hl (inBitmap_of_lt hy), if_neg hne, hset]
    refine ⟨hl.self, hdisk ▸ h.settled, hb, fun y hy hm => ?_, fun y hy => ?_⟩
    · exact hkeep y hy (fun he => hdata (he ▸ hm)) (h.isMeta y hy hm)
    · obtain ⟨hy, hne⟩ := List.mem_filter.mp hy
      exact ⟨(h.taken y hy).1, hkeep y (h.taken y hy).1 (of_decide_eq_true hne) (h.taken y hy).2⟩

theorem reach (hapart : Apart sb isMeta) {disk : UInt64 → BlockData} {power : Nat} {m0 : Machine}
    (hboot : (initBcache sb arena).run (boot disk power) = .ok () m0)
    (hmeta : ∀ y < sb.numBlocks.toNat, isMeta y → bitOf sb m0.view y = true)
    (hrun : Reach (fun s k s' => AllocCall.exec sb arena s k = some s') (fun s k => k.Legal sb isMeta s)
      ⟨m0, [], []⟩ s) : Allocating sb isMeta s := by
  obtain ⟨hidle, -, hlog⟩ := initBcache_returns hboot
  refine hrun.invariant ⟨hidle.live.self, ⟨_, hidle.settled⟩, ⟨[], [], ?_⟩, hmeta, fun x hx => nomatch hx⟩ ?_
  · refine ⟨List.nodup_nil, (fun c hc => nomatch hc), congrArg Log.outstanding hlog, congrArg Log.mu hlog,
      congrArg Log.mx hlog, ?_, ?_, congrArg Log.committing hlog, fun _ => rfl⟩
    · rw [hidle.empty]
      exact Nat.zero_le _
    · rw [LogHeader.entries, hidle.empty]
      exact List.nodup_nil
  · intro s k s' h hlegal hexec
    cases k with
    | beginOp c => exact h.beginOp hlegal hexec
    | endOp c => exact h.endOp hapart hlegal hexec
    | alloc c => exact h.alloc hapart hlegal hexec
    | free c b => exact h.free hapart hlegal.1 hlegal.2.1 hlegal.2.2 hexec

end Allocating

/-- **The bitmap allocator.** Boot on a disk whose bitmap has the metadata blocks set, and run
operations that allocate and free. In every state, for a running operation: `cache_alloc`
returns the first block whose bit is clear, if there is one and two blocks are left of the
operation's reservation; its bit is then set, no other bit has changed, the block is zero,
and it had not been returned before without being freed since. If all bits are set it
panics. `cache_free` of a block that is not metadata panics if its bit is clear; if not, and
one block is left of the reservation, it clears that bit and no other. -/
theorem allocator_is_bitmap (sb : SuperBlock) (arena : Arena) (isMeta : Nat → Prop) (hapart : Apart sb isMeta)
    {disk : UInt64 → BlockData} {power : Nat} {m0 : Machine}
    (hboot : (initBcache sb arena).run (boot disk power) = .ok () m0)
    (hmeta : ∀ y < sb.numBlocks.toNat, isMeta y → bitOf sb m0.view y = true) {s : Allocation}
    (hrun : Reach (fun s k s' => AllocCall.exec sb arena s k = some s') (fun s k => k.Legal sb isMeta s)
      ⟨m0, [], []⟩ s) {c : Nat} (hc : c ∈ s.running) :
    (∀ x m', (cacheAlloc sb arena (some c)).run s.m = .ok x m' →
      FirstFree sb s.m.view x ∧ x ∉ s.taken ∧ m'.view x.toUInt64 = (fun _ => 0) ∧
        ∀ y, InBitmap sb y → bitOf sb m'.view y = if y = x then true else bitOf sb s.m.view y) ∧
    (2 ≤ (s.m.ctx c).rm → (∃ y < sb.numBlocks.toNat, bitOf sb s.m.view y = false) →
      ∃ x m', (cacheAlloc sb arena (some c)).run s.m = .ok x m') ∧
    ((∀ y < sb.numBlocks.toNat, bitOf sb s.m.view y = true) →
      ∃ m', (cacheAlloc sb arena (some c)).run s.m = .error (.panic "cache_alloc: no free block") m') ∧
    ∀ b < sb.numBlocks.toNat, ¬ isMeta b →
      (∀ m', (cacheFree sb arena (some c) b.toUInt64).run s.m = .ok () m' → bitOf sb s.m.view b = true ∧
        ∀ y, InBitmap sb y → bitOf sb m'.view y = if y = b then false else bitOf sb s.m.view y) ∧
      (1 ≤ (s.m.ctx c).rm → bitOf sb s.m.view b = true →
        ∃ m', (cacheFree sb arena (some c) b.toUInt64).run s.m = .ok () m') ∧
      (bitOf sb s.m.view b = false →
        ∃ m', (cacheFree sb arena (some c) b.toUInt64).run s.m = .error (.panic "freeing free block") m') := by
  have h := Allocating.reach hapart hboot hmeta hrun
  have halloc := cacheAlloc_spec arena hapart h.isMeta h.live h.budgeted hc
  refine ⟨fun x m' hok => ?_, fun hrm hclear => ?_, fun hall => ?_, fun b hb hdata => ?_⟩
  · obtain ⟨hx, hl, -, -⟩ := halloc.of_ok hok
    refine ⟨hx, h.fresh hx, ?_, fun y hy => bitOf_allocated hapart hx.lt (h.not_isMeta hx) hl hy⟩
    rw [hl.view _ (hapart.data x hx.lt (h.not_isMeta hx)).1, allocated, update_self]
  · cases hok : (cacheAlloc sb arena (some c)).run s.m with
    | ok x m' => exact ⟨x, m', rfl⟩
    | error e m' =>
      rcases halloc.of_error hok with ⟨-, hall⟩ | ⟨hover, -⟩
      · obtain ⟨y, hy, hbit⟩ := hclear
        rw [hall y hy] at hbit
        cases hbit
      · exact absurd hover.2 (by omega)
  · cases hok : (cacheAlloc sb arena (some c)).run s.m with
    | ok x m' =>
      have hx := (halloc.of_ok hok).1
      have hset := hall x hx.lt
      rw [hx.clear] at hset
      cases hset
    | error e m' =>
      rcases halloc.of_error hok with ⟨rfl, -⟩ | ⟨-, x, hx⟩
      · exact ⟨m', rfl⟩
      · have hset := hall x hx.lt
        rw [hx.clear] at hset
        cases hset
  · have hfree := cacheFree_spec arena hapart h.live h.budgeted hc hb
    refine ⟨fun m' hok => ?_, fun hrm hset => ?_, fun hclear => ?_⟩
    · obtain ⟨hset, hl, -, -⟩ := hfree.of_ok hok
      exact ⟨hset, fun y hy => bitOf_freed hapart hb hl hy⟩
    · cases hok : (cacheFree sb arena (some c) b.toUInt64).run s.m with
      | ok _ m' => exact ⟨m', rfl⟩
      | error e m' =>
        rcases hfree.of_error hok with ⟨-, hbit⟩ | ⟨hover, -⟩
        · rw [hset] at hbit
          cases hbit
        · exact absurd hover.2 (by omega)
    · cases hok : (cacheFree sb arena (some c) b.toUInt64).run s.m with
      | ok _ m' =>
        have hset := (hfree.of_ok hok).1
        rw [hclear] at hset
        cases hset
      | error e m' =>
        rcases hfree.of_error hok with ⟨rfl, -⟩ | ⟨-, hset⟩
        · exact ⟨m', rfl⟩
        · rw [hclear] at hset
          cases hset

theorem apart_mkfs : Apart .mkfs (· < 92) := by
  have hblock : ∀ b, InBitmap .mkfs b → bblock .mkfs b.toUInt64 = 91 := by
    intro b hb
    have hb : b / 4096 * 4096 < 1000 := hb
    have hb' : b < 4096 := by omega
    have hdiv : b / bitPerBlock = 0 := Nat.div_eq_of_lt hb'
    rw [← UInt64.toNat_inj, toNat_bblock (by omega), hdiv]
    rfl
  refine ⟨by decide, fun b hb => ?_, fun b hb hdata => ⟨?_, fun y hy => ?_⟩⟩
  · rw [hblock b hb]
    decide +kernel
  · have hsector : ∀ b < 1000, blockSector b.toUInt64 ≠ headerSector .mkfs := by decide +kernel
    have hlog : ∀ t < logMx .mkfs, (logBlock .mkfs t).toNat < 92 := by decide +kernel
    refine ⟨hsector b hb, fun t ht he => ?_⟩
    have hb : b < 1000 := hb
    have hbn : b.toUInt64.toNat = b := Nat.mod_eq_of_lt (by omega)
    have := hlog t ht
    rw [← he, hbn] at this
    exact hdata this
  · rw [hblock y hy]
    have hall : ∀ b < 1000, ¬ b < 92 → (91 : UInt64) ≠ b.toUInt64 := by decide +kernel
    exact hall b hb hdata

/-- Two blocks are allocated, the first is freed, and the operation ends with a commit; the
next operation gets the first block again. -/
theorem allocator_is_bitmap_reuse : ∃ (m0 : Machine) (s : Allocation) (m' : Machine),
    (initBcache .mkfs .next).run (boot freshDisk 99) = .ok () m0 ∧
    Reach (fun s k s' => AllocCall.exec .mkfs .next s k = some s') (fun s k => k.Legal .mkfs (· < 92) s)
      ⟨m0, [], []⟩ s ∧ s.taken = [97] ∧
    (cacheAlloc .mkfs .next (some 1)).run s.m = .ok 96 m' ∧ m'.view 96 = (fun _ => 0) ∧
    ∀ y, InBitmap .mkfs y → bitOf .mkfs m'.view y = if y = 96 then true else bitOf .mkfs s.m.view y := by
  have hboot := eq_ok_of_returned
    (show returned ((initBcache .mkfs .next).run (boot freshDisk 99)) = true by decide +kernel)
  have hmeta : ∀ y < SuperBlock.mkfs.numBlocks.toNat, y < 92 →
      bitOf .mkfs (final ((initBcache .mkfs .next).run (boot freshDisk 99))).view y = true := by decide +kernel
  obtain ⟨s, hrun, htest⟩ := Reach.exists_of_any (show (runAll (AllocCall.exec .mkfs .next)
    (fun s k => k.Legal .mkfs (· < 92) s) ⟨final ((initBcache .mkfs .next).run (boot freshDisk 99)), [], []⟩
      [.beginOp 0, .alloc 0, .alloc 0, .free 0 96, .endOp 0, .beginOp 1]).any (fun s => decide (s.taken = [97] ∧
        1 ∈ s.running ∧ 2 ≤ (s.m.ctx 1).rm ∧ bitOf .mkfs s.m.view 96 = false ∧
          ∀ y < 96, bitOf .mkfs s.m.view y = true)) = true by decide +kernel)
  obtain ⟨htaken, hc, hrm, hclear, hset⟩ := of_decide_eq_true htest
  obtain ⟨hsome, hreturns, -, -⟩ := allocator_is_bitmap .mkfs .next (· < 92) apart_mkfs hboot hmeta hrun hc
  obtain ⟨x, m', hok⟩ := hreturns hrm ⟨96, by decide, hclear⟩
  obtain ⟨hx, -, hzero, hbits⟩ := hsome x m' hok
  obtain rfl : x = 96 := by
    rcases Nat.lt_trichotomy x 96 with hlt | heq | hgt
    · exact absurd (hset x hlt) (by rw [hx.clear]; decide)
    · exact heq
    · exact absurd (hx.below 96 hgt) (by rw [hclear]; decide)
  exact ⟨_, s, m', hboot, hrun, htaken, hok, hzero, hbits⟩

end Runs

end OS2021.Fs
