import Mathlib.Algebra.BigOperators.Group.List.Basic
import Mathlib.Data.Finset.Card
import Mathlib.Data.List.Nodup
import OS2021.Fs.Protocol

/-! The log's accounts, over every interleaving of operations.

Space in the log is reserved when an operation begins, moved from the operation to
the header when it adds an entry, and given back when it ends. The accounts
balance in every state a run can reach; what a full log refuses follows. -/
namespace OS2021.Fs
open Lib Function

variable {sb : SuperBlock} {arena : Arena} {s s' : Protocol} {m m' : Machine} {c : Nat}
  {running : List Nat} {ctx : Nat → OpContext} {disk : UInt64 → BlockData} {b : UInt64}
  {committer : Option (Nat × Phase)} {ok : Protocol → Event → Prop} {power : Nat}

/-! ### Reservations -/

/-- The space the running operations may still use: the sum of their `ctx->rm`. -/
def reserved (running : List Nat) (ctx : Nat → OpContext) : Nat := (running.map fun c => (ctx c).rm).sum

theorem reserved_cons : reserved (c :: running) ctx = (ctx c).rm + reserved running ctx := List.sum_cons

theorem reserved_of_notMem {x : OpContext} (hc : c ∉ running) :
    reserved running (update ctx c x) = reserved running ctx := by
  unfold reserved
  congr 1
  apply List.map_congr_left
  intro d hd
  have hne : d ≠ c := fun he => hc (he ▸ hd)
  rw [update_of_ne hne]

theorem reserved_erase (ctx : Nat → OpContext) (hc : c ∈ running) :
    (ctx c).rm + reserved (running.erase c) ctx = reserved running ctx :=
  List.sum_map_erase (fun d => (ctx d).rm) hc

/-- One operation's reservation changes. -/
theorem reserved_update (ctx : Nat → OpContext) (x : OpContext) (hnd : running.Nodup) (hc : c ∈ running) :
    reserved running (update ctx c x) + (ctx c).rm = reserved running ctx + x.rm := by
  have hafter := reserved_erase (update ctx c x) hc
  rw [reserved_of_notMem hnd.not_mem_erase, update_self] at hafter
  have hbefore := reserved_erase ctx hc
  omega

/-! ### The accounts -/

structure Accounted (sb : SuperBlock) (o : Protocol.Ops) (m : Machine) : Prop where
  nodup : o.running.Nodup
  begun : ∀ c ∈ o.running, c ∈ o.started
  outstanding : m.log.outstanding = o.running.length
  mu : m.log.mu = reserved o.running m.ctx
  mx : m.log.mx = logMx sb
  room : m.header.numBlocks + reserved o.running m.ctx ≤ logMx sb
  entries : m.header.entries.Nodup
  committing : m.log.committing = if o.committer.isSome then 1 else 0
  alone : o.committer.isSome → o.running = []

namespace Accounted
variable {o : Protocol.Ops}

section
variable (h : Accounted sb o m)
include h

theorem congr (hm : SameLog m m') : Accounted sb o m' := by
  obtain ⟨hh, hl, hc⟩ := hm
  constructor
  case nodup => exact h.nodup
  case begun => exact h.begun
  case outstanding => rw [hl, h.outstanding]
  case mu => rw [hl, hc, h.mu]
  case mx => rw [hl, h.mx]
  case room => rw [hh, hc]; exact h.room
  case entries => rw [hh]; exact h.entries
  case committing => rw [hl, h.committing]
  case alone => exact h.alone

theorem numBlocks_le : m.header.numBlocks ≤ logMx sb := by
  have := h.room
  omega

/-- The header's array is never full beyond its end. -/
theorem sized : m.header.numBlocks ≤ logMaxSize := h.numBlocks_le.trans (logMx_le sb)

theorem mx_le : m.log.mx ≤ logMaxSize := by
  have := logMx_le sb
  rw [h.mx]
  omega

theorem no_committer (hc : m.log.committing = 0) : o.committer = none := by
  have hif := h.committing
  rw [hc] at hif
  split at hif
  case isTrue => cases hif
  case isFalse hn => exact Option.not_isSome_iff_eq_none.mp hn

theorem committer_of_committing (hc : m.log.committing = 1) : o.committer.isSome := by
  by_contra hnone
  have hif := h.committing
  rw [if_neg hnone, hc] at hif
  cases hif

/-- While an operation runs nobody commits. -/
theorem committing_zero (hc : c ∈ o.running) : m.log.committing = 0 := by
  rw [h.committing, if_neg]
  intro hsome
  rw [h.alone hsome] at hc
  cases hc

theorem outstanding_pos (hc : c ∈ o.running) : 1 ≤ m.log.outstanding := by
  have hlen := List.length_pos_of_mem hc
  rw [h.outstanding]
  omega

/-! ### One step -/

theorem beginOp (hc : c ∉ o.started) (ha : m.Admits) :
    Accounted sb ⟨c :: o.running, c :: o.started, o.committer, o.synced⟩ (m.begun c) := by
  have hnot : c ∉ o.running := fun hin => hc (h.begun c hin)
  have hsum : reserved (c :: o.running) (m.begun c).ctx = opMaxNumBlocks + reserved o.running m.ctx := by
    rw [reserved_cons, Machine.begun]
    dsimp only
    rw [reserved_of_notMem hnot, update_self]
  have hroom := ha.2
  have hmu := h.mu
  have hmx := h.mx
  constructor
  case nodup => exact List.nodup_cons.mpr ⟨hnot, h.nodup⟩
  case begun =>
    intro d hd
    rcases List.mem_cons.mp hd with rfl | hd
    · exact List.mem_cons_self
    · exact List.mem_cons_of_mem _ (h.begun d hd)
  case outstanding =>
    show m.log.outstanding + 1 = ((o.running.length + 1 : Nat) : Int)
    rw [h.outstanding]
    omega
  case mu =>
    rw [hsum]
    show m.log.mu + opMaxNumBlocks = _
    omega
  case mx => exact hmx
  case room =>
    rw [hsum]
    show m.header.numBlocks + _ ≤ _
    omega
  case entries => exact h.entries
  case committing => exact h.committing
  case alone =>
    intro hsome
    rw [h.no_committer ha.1] at hsome
    cases hsome

theorem sync (hc : c ∈ o.running) (hs : SyncedLog c b m m') :
    Accounted sb ⟨o.running, o.started, o.committer, (c, b) :: o.synced⟩ m' := by
  obtain ⟨hfull, ⟨-, hsame⟩ | ⟨hn, hnot, hrm, hh, hl, hctx⟩⟩ := hs
  · -- absorbed: nothing is charged
    have h' := h.congr hsame
    exact ⟨h'.nodup, h'.begun, h'.outstanding, h'.mu, h'.mx, h'.room, h'.entries, h'.committing, h'.alone⟩
  · have hsum := reserved_update m.ctx {m.ctx c with rm := (m.ctx c).rm - 1} h.nodup hc
    have hroom := h.room
    have hmu := h.mu
    rw [← hctx] at hsum
    dsimp only at hsum
    constructor
    case nodup => exact h.nodup
    case begun => exact h.begun
    case outstanding => rw [hl]; exact h.outstanding
    case mu =>
      rw [hl]
      show m.log.mu - 1 = reserved o.running m'.ctx
      omega
    case mx => rw [hl]; exact h.mx
    case room =>
      rw [hh]
      show m.header.numBlocks + 1 + reserved o.running m'.ctx ≤ _
      omega
    case entries =>
      rw [hh, LogHeader.entries_append]
      refine List.nodup_append.mpr ⟨h.entries, List.nodup_singleton b, fun x hx y hy he => hnot ?_⟩
      rw [← List.mem_singleton.mp hy, ← he]
      exact hx
    case committing => rw [hl]; exact h.committing
    case alone => exact h.alone

/-- An operation gives back what it has not used; what follows is the same whether
or not it commits. -/
theorem endOp (hc : c ∈ o.running) (hm : m'.header = m.header ∧ m'.ctx = m.ctx)
    (hl : m'.log = {(m.ended c).log with committing := if committer.isSome then 1 else 0})
    (ha : committer.isSome → m.log.outstanding = 1) :
    Accounted sb ⟨o.running.erase c, o.started, committer, o.synced⟩ m' := by
  have hsum := reserved_erase m.ctx hc
  have hlen := List.length_erase_of_mem hc
  have hpos := List.length_pos_of_mem hc
  have hout := h.outstanding
  have hmu := h.mu
  have hroom := h.room
  constructor
  case nodup => exact h.nodup.erase c
  case begun => exact fun d hd => h.begun d (List.mem_of_mem_erase hd)
  case outstanding =>
    rw [hl]
    show m.log.outstanding - 1 = (o.running.erase c).length
    omega
  case mu =>
    rw [hl, hm.2]
    show m.log.mu - (m.ctx c).rm = reserved (o.running.erase c) m.ctx
    omega
  case mx => rw [hl]; exact h.mx
  case room =>
    rw [hm.1, hm.2]
    show m.header.numBlocks + reserved (o.running.erase c) m.ctx ≤ _
    omega
  case entries => rw [hm.1]; exact h.entries
  case committing => rw [hl]
  case alone =>
    intro hsome
    apply List.eq_nil_of_length_eq_zero
    have := ha hsome
    show (o.running.erase c).length = 0
    omega

/-- Clearing the header gives its space back. -/
theorem clear (hc : committer.isSome = o.committer.isSome) : Accounted sb ⟨o.running, o.started, committer, o.synced⟩
      {m with header := {m.header with numBlocks := 0}} := by
  have hroom := h.room
  constructor
  case nodup => exact h.nodup
  case begun => exact h.begun
  case outstanding => exact h.outstanding
  case mu => exact h.mu
  case mx => exact h.mx
  case room =>
    show 0 + reserved o.running m.ctx ≤ _
    omega
  case entries => exact List.nodup_nil
  case committing => exact hc ▸ h.committing
  case alone => exact fun hsome => h.alone (hc ▸ hsome)

end

theorem step (h : Accounted sb s.ops s.m) (hs : LogStep s s') : Accounted sb s'.ops s'.m := by
  cases hs with
  | begun c hc ha hm ho =>
    rw [ho]
    exact (h.beginOp hc ha).congr hm
  | synced c b hc hm ho =>
    rw [ho]
    exact h.sync hc hm
  | ended c hc hn hm ho =>
    rw [ho]
    have hz := h.committing_zero hc
    have hnone : s.committer = none := h.no_committer hz
    refine h.endOp hc ⟨hm.header, hm.ctx⟩ ?_ fun hsome => ?_
    · rw [hm.log, hnone]
      exact congrArg (fun v => {(s.m.ended c).log with committing := v}) hz
    · rw [hnone] at hsome
      cases hsome
  | closed c hc hn hm ho =>
    rw [ho]
    exact h.endOp hc ⟨hm.header, hm.ctx⟩ hm.log fun _ => hn
  | worked c phase phase' hc hm ho =>
    rw [ho]
    have h' := h.congr hm
    have hsome : s.ops.committer.isSome = true := by rw [Protocol.ops, hc]; rfl
    refine ⟨h'.nodup, h'.begun, h'.outstanding, h'.mu, h'.mx, h'.room, h'.entries, ?_, fun _ => h'.alone hsome⟩
    rw [h'.committing, if_pos hsome]
    rfl
  | cleared c hc hm ho =>
    rw [ho]
    refine (h.clear ?_).congr hm
    rw [Protocol.ops, hc]
    rfl
  | finished c hc hm ho =>
    rw [ho]
    have hrun : s.running = [] := h.alone (by rw [Protocol.ops, hc]; rfl)
    refine Accounted.congr ?_ hm
    exact ⟨h.nodup, h.begun, h.outstanding, h.mu, h.mx, h.room, h.entries, rfl, fun _ => hrun⟩
  | quiet hm ho =>
    rw [ho]
    exact h.congr hm

theorem start (hboot : (initBcache sb arena).run (boot disk power) = .ok () m) :
    Accounted sb (Protocol.start m).ops m := by
  obtain ⟨hidle, -, hlog⟩ := initBcache_returns hboot
  have hzero : m.header.numBlocks = 0 := hidle.empty
  constructor
  case nodup => exact List.nodup_nil
  case begun => exact fun c hc => nomatch hc
  case outstanding => exact congrArg Log.outstanding hlog
  case mu => exact congrArg Log.mu hlog
  case mx => exact congrArg Log.mx hlog
  case room =>
    show m.header.numBlocks + 0 ≤ _
    omega
  case entries =>
    show m.header.entries.Nodup
    rw [LogHeader.entries, hzero]
    exact List.nodup_nil
  case committing => exact congrArg Log.committing hlog
  case alone => exact fun _ => rfl

theorem reach (hboot : (initBcache sb arena).run (boot disk power) = .ok () m)
    (hrun : Reach (fun s e s' => s.exec sb arena e = some s') ok (.start m) s) : Accounted sb s.ops s.m :=
  hrun.invariant (I := fun s => Accounted sb s.ops s.m) (start hboot) fun _ _ _ h _ hs =>
    h.step ((Protocol.exec_step hs).logStep h.sized h.mx_le)

end Accounted

/-! ### What cannot happen -/

/-- Copying a block can sleep or lose the device; it never indexes out of range. -/
theorem copyBlock_no_fault (arena : Arena) (unpin : Bool) (src dst : UInt64) :
    Triple (fun _ => True) (copyBlock arena unpin src dst) (fun _ _ => True) fun e _ => e ≠ .fault := by
  have hacq : ∀ b, Triple (fun _ => True) (cacheAcquire arena b) (fun _ _ => True) fun e _ => e ≠ .fault := by
    intro b m _
    rcases cacheAcquire_cases arena b m with ⟨p, -, hp⟩ | ⟨p, -, -, hp⟩ | ⟨-, p, -, hp⟩
    · exact hp ▸ .ok trivial
    · exact hp ▸ .error nofun
    · exact hp ▸ .ok trivial
  have hwrite : ∀ p, Triple (fun _ => True) (deviceWrite p) (fun _ _ => True) fun e _ => e ≠ .fault := by
    intro p m _
    by_cases hp : m.power = 0
    · exact deviceWrite_offline hp ▸ .error nofun
    · exact deviceWrite_run hp ▸ .ok trivial
  refine (hacq src).bind fun p => (hacq dst).bind fun q => ?_
  refine Triple.bind (Q := fun _ _ => True) (fun _ _ => .ok trivial) fun _ => (hwrite q).bind fun _ => ?_
  exact fun _ _ => .ok trivial

theorem cacheSync_no_fault {p : Ptr} (hs : m.header.numBlocks ≤ logMaxSize) (hx : m.log.mx ≤ logMaxSize) :
    (cacheSync (some c) p).run m ≠ .error .fault m' := by
  by_cases hfull : m.log.mx ≤ m.header.numBlocks
  · rw [cacheSync_full hfull]
    simp
  rw [not_le] at hfull
  by_cases hout : m.log.outstanding < 1
  · rw [cacheSync_outside hfull hout]
    simp
  rw [not_lt] at hout
  by_cases hmem : (m.heap p).blockNo ∈ m.header.entries
  · rw [cacheSync_absorbed hfull hout hs hmem]
    simp
  · have hn : m.header.numBlocks < logMaxSize := by omega
    rw [cacheSync_new hfull hout hn hmem]
    split <;> simp

theorem slot_inside {t : Nat} (hl : 1 ≤ sb.numLogBlocks) (ht : t < logMx sb) :
    t + 1 < sb.numLogBlocks.toNat := by
  have hmin : logMx sb ≤ (sb.numLogBlocks - 1).toNat := Nat.min_le_left ..
  have hsub : (sb.numLogBlocks - 1).toNat = sb.numLogBlocks.toNat - 1 := UInt32.toNat_sub_of_le _ _ hl
  omega

/-- **The log's accounts balance in every reachable state.** No entry is ever looked up
past the end of the header, no slot of the log lies past the end of the log area,
and an operation that ends never finds a commit going on. -/
theorem log_accounted (sb : SuperBlock) (arena : Arena) {disk : UInt64 → BlockData} {power : Nat}
    {m0 : Machine} {s : Protocol} (hl : 1 ≤ sb.numLogBlocks)
    (hboot : (initBcache sb arena).run (boot disk power) = .ok () m0)
    (hrun : Reach (fun s e s' => s.exec sb arena e = some s') (fun _ _ => True) (.start m0) s) :
    s.running.Nodup ∧ s.m.log.outstanding = s.running.length ∧
    s.m.log.mu = reserved s.running s.m.ctx ∧
    s.m.header.numBlocks + s.m.log.mu ≤ s.m.log.mx ∧ s.m.log.mx ≤ logMaxSize ∧
    s.m.header.entries.Nodup ∧
    (s.m.log.committing = 1 → s.m.log.outstanding = 0) ∧
    (∀ c p m', (cacheSync (some c) p).run s.m ≠ .error .fault m') ∧
    (∀ t < s.m.header.numBlocks, t + 1 < sb.numLogBlocks.toNat ∧
      ∀ m', (writeLogBlock sb arena t).run s.m ≠ .error .fault m' ∧
        (installBlock sb arena false t).run s.m ≠ .error .fault m') ∧
    ∀ c ∈ s.running, ∀ message m', (cacheEndOpLocked c).run s.m ≠ .error (.panic message) m' := by
  have h := Accounted.reach hboot hrun
  have hmu := h.mu
  have hmx := h.mx
  have hroom := h.room
  refine ⟨h.nodup, h.outstanding, hmu, ?_, h.mx_le, h.entries, ?_, ?_, ?_, ?_⟩
  · omega
  · intro hc
    rw [h.outstanding, h.alone (h.committer_of_committing hc)]
    rfl
  · exact fun c p m' => cacheSync_no_fault h.sized h.mx_le
  · intro t ht
    have hmax : t < logMaxSize := lt_of_lt_of_le ht h.sized
    refine ⟨slot_inside hl (lt_of_lt_of_le ht h.numBlocks_le), fun m' => ⟨fun he => ?_, fun he => ?_⟩⟩
    · rw [writeLogBlock_run arena hmax] at he
      exact (copyBlock_no_fault arena false _ _ s.m trivial).of_error he rfl
    · rw [installBlock_run arena false hmax] at he
      exact (copyBlock_no_fault arena false _ _ s.m trivial).of_error he rfl
  · intro c hc message m'
    rw [cacheEndOpLocked_run, if_neg (not_not.mpr (h.committing_zero hc))]
    split <;> nofun

/-- Two operations that share a block, one of which has ended. -/
theorem log_accounted_two_operations : ∃ (m0 : Machine) (s : Protocol),
    (initBcache .mkfs .next).run (boot (fun _ _ => 0) 9) = .ok () m0 ∧
    Reach (fun s e s' => s.exec .mkfs .next e = some s') (fun _ _ => True) (.start m0) s ∧
    s.running = [1] ∧ s.sleeping = [0] ∧ s.m.header.entries = [100] ∧
    s.m.log.outstanding = s.running.length ∧ s.m.header.numBlocks + s.m.log.mu ≤ s.m.log.mx := by
  obtain ⟨s, hreach, hs⟩ := Reach.exists_of_any (show
    (runAll (Protocol.exec .mkfs .next) (fun _ _ => True)
      (.start booted)
      [.beginOp 0, .beginOp 1, .update 0 ⟨100, id⟩, .update 1 ⟨100, id⟩, .endOp 0]).any (fun s : Protocol =>
        decide (s.running = [1] ∧ s.sleeping = [0] ∧ s.m.header.entries = [100])) = true by decide +kernel)
  obtain ⟨hr, hsl, he⟩ := of_decide_eq_true hs
  obtain ⟨-, ho, -, hroom, -⟩ := log_accounted .mkfs .next (by decide) booted_run hreach
  exact ⟨_, s, booted_run, hreach, hr, hsl, he, ho, hroom⟩

/-! ### What an operation is charged for -/

/-- The blocks an operation has passed to `cache_sync`. -/
def Protocol.blocksOf (s : Protocol) (c : Nat) : Finset UInt64 :=
  ((s.synced.filter fun x => x.1 = c).map Prod.snd).toFinset

theorem Protocol.mem_blocksOf : b ∈ s.blocksOf c ↔ (c, b) ∈ s.synced := by
  simp [Protocol.blocksOf]

/-- Each running operation has been charged for different blocks of its own, all still
in the header. -/
def Charged (o : Protocol.Ops) (m : Machine) : Prop :=
  ∀ c ∈ o.running, ∃ blocks : List UInt64, blocks.Nodup ∧
    (∀ b ∈ blocks, b ∈ m.header.entries ∧ (c, b) ∈ o.synced) ∧
    blocks.length + (m.ctx c).rm = opMaxNumBlocks

namespace Charged
variable {o o' : Protocol.Ops}

/-- Fewer operations run, and the rest is as it was. -/
theorem mono (h : Charged o m) (hr : o'.running ⊆ o.running) (hs : o'.synced = o.synced)
    (hh : m'.header = m.header) (hc : m'.ctx = m.ctx) : Charged o' m' := by
  intro c hin
  obtain ⟨blocks, hnd, hsub, hlen⟩ := h c (hr hin)
  rw [hh, hc, hs]
  exact ⟨blocks, hnd, hsub, hlen⟩

theorem beginOp (h : Charged o m) (hc : c ∉ o.running) (hr : o'.running = c :: o.running)
    (hs : o'.synced = o.synced) (hm : SameLog (m.begun c) m') : Charged o' m' := by
  intro d hd
  rw [hr] at hd
  rw [hm.header, hm.ctx, hs]
  rcases List.mem_cons.mp hd with rfl | hd
  · refine ⟨[], List.nodup_nil, nofun, ?_⟩
    rw [Machine.begun]
    dsimp only
    rw [update_self, List.length_nil, Nat.zero_add]
  · obtain ⟨blocks, hnd, hsub, hlen⟩ := h d hd
    have hne : d ≠ c := fun he => hc (he ▸ hd)
    refine ⟨blocks, hnd, hsub, ?_⟩
    rw [Machine.begun]
    dsimp only
    rw [update_of_ne hne, hlen]

theorem sync (h : Charged o m) (hr : o'.running = o.running) (hs : o'.synced = (c, b) :: o.synced)
    (hm : SyncedLog c b m m') : Charged o' m' := by
  intro d hd
  rw [hr] at hd
  obtain ⟨blocks, hnd, hsub, hlen⟩ := h d hd
  rw [hs]
  obtain ⟨-, ⟨-, hsame⟩ | ⟨hn, hnot, hrm, hh, -, hctx⟩⟩ := hm
  · refine ⟨blocks, hnd, fun x hx => ?_, hsame.ctx ▸ hlen⟩
    rw [hsame.header]
    exact ⟨(hsub x hx).1, List.mem_cons_of_mem _ (hsub x hx).2⟩
  have hold : ∀ x ∈ blocks, x ∈ m'.header.entries ∧ (d, x) ∈ (c, b) :: o.synced := fun x hx => by
    rw [hh, LogHeader.entries_append]
    exact ⟨List.mem_append_left _ (hsub x hx).1, List.mem_cons_of_mem _ (hsub x hx).2⟩
  by_cases hdc : d = c
  · subst hdc
    refine ⟨b :: blocks, List.nodup_cons.mpr ⟨fun hin => hnot (hsub b hin).1, hnd⟩, fun x hx => ?_, ?_⟩
    · rcases List.mem_cons.mp hx with rfl | hx
      · rw [hh, LogHeader.entries_append]
        exact ⟨List.mem_append_right _ List.mem_cons_self, List.mem_cons_self⟩
      · exact hold x hx
    · rw [hctx, update_self, List.length_cons]
      dsimp only
      omega
  · refine ⟨blocks, hnd, hold, ?_⟩
    rw [hctx, update_of_ne hdc, hlen]

theorem step (h : Charged s.ops s.m) (ha : Accounted sb s.ops s.m) (hs : LogStep s s') :
    Charged s'.ops s'.m := by
  cases hs with
  | begun c hc _ hm ho =>
    rw [ho]
    exact h.beginOp (fun hin => hc (ha.begun c hin)) rfl rfl hm
  | synced c b _ hm ho =>
    rw [ho]
    exact h.sync rfl rfl hm
  | ended c _ _ hm ho | closed c _ _ hm ho =>
    rw [ho]
    exact h.mono List.erase_subset rfl hm.header hm.ctx
  | worked c _ _ _ hm ho | finished c _ hm ho | quiet hm ho =>
    rw [ho]
    exact h.mono (List.Subset.refl _) rfl hm.header hm.ctx
  | cleared c hc _ ho =>
    -- the header is emptied when nobody is charged for anything in it
    rw [ho]
    have hrun : s.running = [] := ha.alone (by rw [Protocol.ops, hc]; rfl)
    intro d hd
    rw [hrun] at hd
    cases hd

theorem reach (hboot : (initBcache sb arena).run (boot disk power) = .ok () m)
    (hrun : Reach (fun s e s' => s.exec sb arena e = some s') ok (.start m) s) : Charged s.ops s.m := by
  induction hrun with
  | start => exact fun c hc => nomatch hc
  | next hr _ hs ih =>
    have ha := Accounted.reach hboot hr
    exact ih.step ha ((Protocol.exec_step hs).logStep ha.sized ha.mx_le)

/-- An operation within its budget can pay for a block that is not in the header. -/
theorem can_pay (h : Charged s.ops s.m) (hc : c ∈ s.running) (hb : b ∉ s.m.header.entries)
    (hcard : (insert b (s.blocksOf c)).card ≤ opMaxNumBlocks) : 0 < (s.m.ctx c).rm := by
  obtain ⟨blocks, hnd, hsub, hlen⟩ := h c hc
  have hnot : b ∉ blocks := fun hin => hb (hsub b hin).1
  have hle : (b :: blocks).length ≤ (insert b (s.blocksOf c)).card := by
    rw [← List.toFinset_card_of_nodup (List.nodup_cons.mpr ⟨hnot, hnd⟩)]
    apply Finset.card_le_card
    intro x hx
    rw [List.mem_toFinset] at hx
    rcases List.mem_cons.mp hx with rfl | hx
    · exact Finset.mem_insert_self ..
    · exact Finset.mem_insert_of_mem (Protocol.mem_blocksOf.mpr (hsub x hx).2)
  rw [List.length_cons] at hle
  omega

end Charged

/-- **What a full log refuses.** `cache_sync` by an operation within its budget panics
exactly when the header has no free entry, whether or not it would need one. -/
theorem sync_within_budget (sb : SuperBlock) (arena : Arena) {disk : UInt64 → BlockData} {power : Nat}
    {m0 : Machine} {s : Protocol} {c : Nat} {p : Ptr}
    (hboot : (initBcache sb arena).run (boot disk power) = .ok () m0)
    (hrun : Reach (fun s e s' => s.exec sb arena e = some s') (fun _ _ => True) (.start m0) s)
    (hc : c ∈ s.running) (hcard : (insert (s.m.heap p).blockNo (s.blocksOf c)).card ≤ opMaxNumBlocks) :
    (∀ message m', (cacheSync (some c) p).run s.m ≠ .error (.panic message) m') ↔
      s.m.header.numBlocks < s.m.log.mx := by
  have ha := Accounted.reach hboot hrun
  constructor
  · intro hno
    by_contra hfull
    exact hno _ _ (cacheSync_full (not_lt.mp hfull))
  · intro hroom message m'
    have hout := ha.outstanding_pos hc
    by_cases hmem : (s.m.heap p).blockNo ∈ s.m.header.entries
    · rw [cacheSync_absorbed hroom hout ha.sized hmem]
      nofun
    · have hmx := ha.mx_le
      have hn : s.m.header.numBlocks < logMaxSize := by omega
      rw [cacheSync_new hroom hout hn hmem, if_pos ((Charged.reach hboot hrun).can_pay hc hmem hcard)]
      nofun

/-- A first block and the same block again. -/
theorem sync_within_budget_twice : ∃ (m0 : Machine) (s : Protocol),
    (initBcache .mkfs .next).run (boot (fun _ _ => 0) 9) = .ok () m0 ∧
    Reach (fun s e s' => s.exec .mkfs .next e = some s') (fun _ _ => True) (.start m0) s ∧
    0 ∈ s.running ∧ (insert (s.m.heap 1).blockNo (s.blocksOf 0)).card ≤ opMaxNumBlocks ∧
    s.m.header.numBlocks < s.m.log.mx ∧
    ∀ message m', (cacheSync (some 0) 1).run s.m ≠ .error (.panic message) m' := by
  obtain ⟨s, hreach, hs⟩ := Reach.exists_of_any (show
    (runAll (Protocol.exec .mkfs .next) (fun _ _ => True)
      (.start booted)
      [.beginOp 0, .update 0 ⟨100, id⟩]).any (fun s : Protocol =>
        decide (0 ∈ s.running ∧ (insert (s.m.heap 1).blockNo (s.blocksOf 0)).card ≤ opMaxNumBlocks ∧
          s.m.header.numBlocks < s.m.log.mx)) = true by decide +kernel)
  obtain ⟨hc, hcard, hroom⟩ := of_decide_eq_true hs
  exact ⟨_, s, booted_run, hreach, hc, hcard, hroom,
    (sync_within_budget .mkfs .next booted_run hreach hc hcard).mpr hroom⟩

/-- A disk whose log has room for exactly one operation. -/
def smallLog : SuperBlock := {SuperBlock.mkfs with numLogBlocks := 11}

/-- One operation that fills the log, and then syncs its last block again. -/
theorem full_log_refuses_again : ∃ (m0 : Machine) (s : Protocol),
    (initBcache smallLog .next).run (boot (fun _ _ => 0) 9) = .ok () m0 ∧
    Reach (fun s e s' => s.exec smallLog .next e = some s') (fun _ _ => True) (.start m0) s ∧
    opMaxNumBlocks ≤ s.m.log.mx ∧ 0 ∈ s.running ∧
    (insert (s.m.heap 10).blockNo (s.blocksOf 0)).card ≤ opMaxNumBlocks ∧
    (cacheSync (some 0) 10).run s.m = .error (.panic "too big a transaction") s.m := by
  have hboot := eq_ok_of_returned
    (show returned ((initBcache smallLog .next).run (boot (fun _ _ => 0) 9)) = true by decide +kernel)
  obtain ⟨s, hreach, hs⟩ := Reach.exists_of_any (show
    (runAll (Protocol.exec smallLog .next) (fun _ _ => True)
      (.start (final ((initBcache smallLog .next).run (boot (fun _ _ => 0) 9))))
      (.beginOp 0 :: (List.range 10).map fun i => .update 0 ⟨UInt64.ofNat (100 + i), id⟩)).any (fun s : Protocol =>
        decide (opMaxNumBlocks ≤ s.m.log.mx ∧ 0 ∈ s.running ∧
          (insert (s.m.heap 10).blockNo (s.blocksOf 0)).card ≤ opMaxNumBlocks ∧
          s.m.log.mx ≤ s.m.header.numBlocks)) = true by decide +kernel)
  obtain ⟨hmx, hc, hcard, hfull⟩ := of_decide_eq_true hs
  exact ⟨_, s, hboot, hreach, hmx, hc, hcard, cacheSync_full hfull⟩

end OS2021.Fs
