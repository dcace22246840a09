import OS2021.Fs.CacheSpec

/-! What `cache_sync`, `cache_begin_op` and the sections of `cache_end_op` do, case by case.

`cache_sync` on behalf of an operation refuses a full log first, then a log with
no operation open; a block the header lists is absorbed, and any other becomes
a new entry, charged to the operation. -/
namespace OS2021.Fs
open Lib Function

variable {m m' : Machine} {c : Nat} {p : Ptr} {b : UInt64} {h : LogHeader}

/-! ### The header's entries -/

namespace LogHeader

/-- The header with one more entry. -/
def append (h : LogHeader) (hn : h.numBlocks < logMaxSize) (b : UInt64) : LogHeader :=
  ⟨h.numBlocks + 1, update h.blockNo ⟨h.numBlocks, hn⟩ b⟩

theorem entries_append (hn : h.numBlocks < logMaxSize) : (h.append hn b).entries = h.entries ++ [b] := by
  have hlen : (h.append hn b).entries.length = h.numBlocks + 1 := entries_length _ hn
  apply List.ext_getElem?
  intro i
  rcases Nat.lt_trichotomy i h.numBlocks with hi | rfl | hi
  · have hlt : i < logMaxSize := hi.trans hn
    have hne : (⟨i, hlt⟩ : Fin logMaxSize) ≠ ⟨h.numBlocks, hn⟩ := fun he => by
      have := Fin.mk.inj he
      omega
    rw [(h.append hn b).entries_get hlt (Nat.lt_succ_of_lt hi), List.getElem?_append_left, h.entries_get hlt hi]
    · exact congrArg some (update_of_ne hne ..)
    · rw [h.entries_length hn.le]
      exact hi
  · rw [(h.append hn b).entries_get hn (Nat.lt_succ_self _), List.getElem?_append_right (h.entries_length hn.le).le,
      h.entries_length hn.le, Nat.sub_self, List.getElem?_cons_zero]
    exact congrArg some (update_self ..)
  · rw [List.getElem?_eq_none (by omega), List.getElem?_eq_none]
    simp only [List.length_append, h.entries_length hn.le, List.length_singleton]
    omega

theorem slot_of_mem (hs : h.numBlocks ≤ logMaxSize) (hb : b ∈ h.entries) :
    ∃ hi : h.slot b < logMaxSize, h.slot b < h.numBlocks ∧ h.blockNo ⟨h.slot b, hi⟩ = b := by
  have hlt : h.slot b < h.entries.length := List.findIdx_lt_length_of_exists ⟨b, hb, beq_self_eq_true b⟩
  have hget : (h.entries[h.slot b] == b) = true := List.findIdx_getElem (w := hlt)
  have hn : h.slot b < h.numBlocks := h.entries_length hs ▸ hlt
  have hi : h.slot b < logMaxSize := lt_of_lt_of_le hn hs
  refine ⟨hi, hn, ?_⟩
  have hsome := h.entries_get hi hn
  rw [List.getElem?_eq_getElem hlt] at hsome
  rw [← Option.some.inj hsome]
  exact eq_of_beq hget

theorem slot_of_not_mem (hs : h.numBlocks ≤ logMaxSize) (hb : b ∉ h.entries) : h.slot b = h.numBlocks := by
  rw [← h.entries_length hs]
  apply List.findIdx_eq_length.mpr
  intro x hx
  rw [beq_eq_false_iff_ne]
  exact fun he => hb (he ▸ hx)

end LogHeader

/-! ### `cache_sync` -/

/-- The block is pinned and gets an entry. -/
def Machine.entered (m : Machine) (p : Ptr) (hn : m.header.numBlocks < logMaxSize) : Machine :=
  {m.setBlock p fun b => {b with pinned := true} with header := m.header.append hn (m.heap p).blockNo}

/-- The entry is charged to operation `c`. -/
def Machine.charged (m : Machine) (c : Nat) : Machine :=
  {m with
    ctx := update m.ctx c {m.ctx c with rm := (m.ctx c).rm - 1}
    log := {m.log with mu := m.log.mu - 1}}

theorem cacheSync_full (hx : m.log.mx ≤ m.header.numBlocks) :
    (cacheSync (some c) p).run m = .error (.panic "too big a transaction") m := by
  rw [cacheSync, bind_ok (get_run m), if_pos hx, throw_run]

section
variable (hx : m.header.numBlocks < m.log.mx)
include hx

theorem cacheSync_outside (ho : m.log.outstanding < 1) :
    (cacheSync (some c) p).run m = .error (.panic "log_write outside of trans") m := by
  rw [cacheSync, bind_ok (get_run m), if_neg (not_le.mpr hx), if_pos ho, throw_run]

/-- A block that is listed costs nothing. -/
theorem cacheSync_absorbed (ho : 1 ≤ m.log.outstanding) (hs : m.header.numBlocks ≤ logMaxSize)
    (hb : (m.heap p).blockNo ∈ m.header.entries) : (cacheSync (some c) p).run m = .ok () m := by
  obtain ⟨hi, hn, hget⟩ := LogHeader.slot_of_mem hs hb
  have hset : m.header.setEntry ⟨_, hi⟩ (m.heap p).blockNo = m.header := by
    refine LogHeader.ext rfl (update_eq_self_iff.mpr ?_)
    exact hget.symm
  rw [cacheSync, bind_ok (get_run m), if_neg (not_le.mpr hx), if_neg (not_lt.mpr ho)]
  dsimp only
  rw [dif_pos hi, bind_ok (set_run _ _), if_neg hn.ne, hset, pure_run]

/-- A new entry, with `chargeEntry` still to come. -/
theorem cacheSync_new (ho : 1 ≤ m.log.outstanding) (hs : m.header.numBlocks < logMaxSize)
    (hb : (m.heap p).blockNo ∉ m.header.entries) :
    (cacheSync (some c) p).run m = if 0 < (m.ctx c).rm then .ok () ((m.entered p hs).charged c)
      else .error (.panic "OP_MAX_BLOCK exceeded") (m.entered p hs) := by
  have hslot := LogHeader.slot_of_not_mem hs.le hb
  have hi : m.header.slot (m.heap p).blockNo < logMaxSize := hslot ▸ hs
  have hfin : (⟨_, hi⟩ : Fin logMaxSize) = ⟨m.header.numBlocks, hs⟩ := Fin.ext hslot
  rw [cacheSync, bind_ok (get_run m), if_neg (not_le.mpr hx), if_neg (not_lt.mpr ho)]
  dsimp only
  rw [dif_pos hi, bind_ok (set_run _ _), if_pos hslot, chargeEntry, bind_ok (modify_run _ _),
    bind_ok (get_run _), hfin]
  simp only [ite_run, set_run, throw_run]
  rfl

end

/-- What a `cache_sync` that returns has done. -/
theorem cacheSync_ok (hs : m.header.numBlocks ≤ logMaxSize) (hx : m.log.mx ≤ logMaxSize)
    (hrun : (cacheSync (some c) p).run m = .ok () m') :
    m.header.numBlocks < m.log.mx ∧ 1 ≤ m.log.outstanding ∧
      (m' = m ∧ (m.heap p).blockNo ∈ m.header.entries ∨
        ∃ hn, (m.heap p).blockNo ∉ m.header.entries ∧ 0 < (m.ctx c).rm ∧
          m' = (m.entered p hn).charged c) := by
  by_cases hfull : m.log.mx ≤ m.header.numBlocks
  · rw [cacheSync_full hfull] at hrun
    cases hrun
  rw [not_le] at hfull
  by_cases hout : m.log.outstanding < 1
  · rw [cacheSync_outside hfull hout] at hrun
    cases hrun
  rw [not_lt] at hout
  refine ⟨hfull, hout, ?_⟩
  by_cases hmem : (m.heap p).blockNo ∈ m.header.entries
  · rw [cacheSync_absorbed hfull hout hs hmem] at hrun
    exact Or.inl ⟨(EStateM.Result.ok.inj hrun).2.symm, hmem⟩
  · have hn : m.header.numBlocks < logMaxSize := by omega
    rw [cacheSync_new hfull hout hn hmem] at hrun
    split at hrun
    case isTrue hrm => exact Or.inr ⟨hn, hmem, hrm, (EStateM.Result.ok.inj hrun).2.symm⟩
    case isFalse => cases hrun

/-! ### `cache_begin_op` and `cache_end_op` -/

/-- Operation `c` has begun. -/
def Machine.begun (m : Machine) (c : Nat) : Machine :=
  {m with
    log := {m.log with outstanding := m.log.outstanding + 1, mu := m.log.mu + opMaxNumBlocks}
    ctx := update m.ctx c ⟨(m.log.outstanding + 1).toNat, opMaxNumBlocks⟩}

/-- There is room for one more operation. -/
def Machine.Admits (m : Machine) : Prop :=
  m.log.committing = 0 ∧ m.header.numBlocks + m.log.mu + opMaxNumBlocks ≤ m.log.mx

theorem cacheBeginOp_run : (cacheBeginOp c).run m = .ok () (m.begun c) ∧ m.Admits ∨
    (cacheBeginOp c).run m = .error (.asleep .log) m ∧ ¬ m.Admits := by
  rw [cacheBeginOp, bind_ok (get_run m)]
  by_cases hc : m.log.committing = 0
  · rw [if_neg (not_not.mpr hc)]
    by_cases hx : m.header.numBlocks + m.log.mu + opMaxNumBlocks ≤ m.log.mx
    · rw [if_neg (not_lt.mpr hx), set_run]
      exact Or.inl ⟨rfl, hc, hx⟩
    · rw [if_pos (not_le.mp hx), throw_run]
      exact Or.inr ⟨rfl, fun ha => hx ha.2⟩
  · rw [if_pos hc, throw_run]
    exact Or.inr ⟨rfl, fun ha => hc ha.1⟩

/-- Operation `c` has given its reservation back. -/
def Machine.ended (m : Machine) (c : Nat) : Machine :=
  {m with log := {m.log with outstanding := m.log.outstanding - 1, mu := m.log.mu - (m.ctx c).rm}}

/-- The last operation to end takes the commit on itself. -/
def Machine.closed (m : Machine) : Machine := {m with log := {m.log with committing := 1}}

theorem cacheEndOpLocked_run : (cacheEndOpLocked c).run m =
    if m.log.committing ≠ 0 then .error (.panic "log committing") (m.ended c)
    else if m.log.outstanding = 1 then .ok () (m.ended c).closed
    else .error (.asleep .outstanding) (m.ended c) := by
  have hone : m.log.outstanding - 1 = 0 ↔ m.log.outstanding = 1 := by omega
  rw [cacheEndOpLocked, bind_ok (modify_run _ m), bind_ok (get_run _)]
  simp only [ite_run, set_run, throw_run, hone]
  rfl

end OS2021.Fs
