import Mathlib.Data.List.TakeWhile
import OS2021.Fs.Recovery
import OS2021.Fs.SyncSpec
import OS2021.Lib.Runs

/-! Who holds which block, over any interleaving of threads.

`cache_acquire` is cut where it gives the cache's spinlock back and where it gets
the block's sleeplock, and `cache_release` between its two statements. What the
threads are in the middle of is kept as lists; which thread an entry belongs to
does not matter. `cache_alloc`, `cache_free` and a commit are made of these steps
and of steps of the log, which touch neither the list nor the blocks. -/
namespace OS2021.Fs
open Lib

/-- A `cache_acquire` that has found its block and waits for the sleeplock. -/
structure Waiting where
  block : UInt64
  p : Ptr
  hit : Bool
  deriving DecidableEq

/-- A block that `cache_acquire` has returned. -/
structure Handle where
  block : UInt64
  p : Ptr
  /-- How often the object had been freed when it was returned. -/
  frees : Nat
  deriving DecidableEq

structure Pool where
  m : Machine
  waiting : List Waiting
  /-- Misses that have the sleeplock and have yet to read their block. -/
  loading : List Waiting
  handles : List Handle
  /-- Objects whose `cache_release` has yet to give the sleeplock back. -/
  releasing : List Ptr

inductive Act where
  | find (b : UInt64)
  | lock (w : Waiting)
  | load (w : Waiting)
  | write (h : Handle) (f : BlockData → BlockData)
  | sync (c : Option Nat) (h : Handle)
  | release (h : Handle)
  | unlock (p : Ptr)
  | log (header : LogHeader) (log : Log) (ctx : Nat → OpContext) (disk : UInt64 → BlockData) (power : Nat)

namespace Pool

def start (m : Machine) : Pool := ⟨m, [], [], [], []⟩

/-- `cache_acquire` returns. -/
def returns (s : Pool) (w : Waiting) : Pool :=
  {s with handles := ⟨w.block, w.p, s.m.frees w.p⟩ :: s.handles}

/-- One step of one thread, if it can be taken. -/
def exec (arena : Arena) (s : Pool) : Act → Option Pool
  | .find b =>
    match (cacheFind arena b).run s.m with
    | .ok r m => some {s with m, waiting := ⟨b, r.1, r.2⟩ :: s.waiting}
    | .error _ _ => none
  | .lock w =>
    if w ∈ s.waiting then
      match (acquireSleeplock w.p).run s.m with
      | .ok _ m =>
        let s' := {s with m, waiting := s.waiting.erase w}
        some (if w.hit then s'.returns w else {s' with loading := w :: s.loading})
      | .error _ _ => none
    else none
  | .load w =>
    if w ∈ s.loading then
      match (cacheLoad w.p).run s.m with
      | .ok _ m => some (returns {s with m, loading := s.loading.erase w} w)
      | .error _ _ => none
    else none
  | .write h f =>
    if h ∈ s.handles then
      match (modifyData h.p f).run s.m with
      | .ok _ m => some {s with m}
      | .error _ _ => none
    else none
  | .sync c h =>
    if h ∈ s.handles then
      match (cacheSync c h.p).run s.m with
      | .ok _ m => some {s with m}
      | .error _ _ => none
    else none
  | .release h =>
    if h ∈ s.handles then
      some {s with
        m := s.m.setBlock h.p fun b => {b with acquired := false}
        handles := s.handles.erase h
        releasing := h.p :: s.releasing}
    else none
  | .unlock p =>
    if p ∈ s.releasing then
      match (releaseSleeplock p).run s.m with
      | .ok _ m => some {s with m, releasing := s.releasing.erase p}
      | .error _ _ => none
    else none
  | .log header log ctx disk power => some {s with m := {s.m with header, log, ctx, disk, power}}

/-- The blocks somebody is using: found, being loaded, or returned and not yet released. -/
def inUse (s : Pool) : List (UInt64 × Ptr) :=
  s.waiting.map (fun w => (w.block, w.p)) ++ s.loading.map (fun w => (w.block, w.p)) ++
    s.handles.map fun h => (h.block, h.p)

end Pool

/-- The blocks older than `p`. -/
def Machine.behind (m : Machine) (p : Ptr) : List Ptr := (m.head.dropWhile (· != p)).tail

/-- The eviction loop leaves `p`: it is flagged, or the loop has made enough room before it gets there. -/
def Machine.Spared (m : Machine) (p : Ptr) : Prop :=
  m.removable p = false ∨ m.head.length < evictionThreshold + ((m.behind p).filter m.removable).length

instance (m : Machine) (p : Ptr) : Decidable (m.Spared p) := inferInstanceAs (Decidable (_ ∨ _))

/-- A miss is taken only when every block in use is spared. -/
def SparesInUse (s : Pool) : Act → Prop
  | .find b => s.m.lookup b = none → ∀ u ∈ s.inUse, s.m.Spared u.2
  | _ => True

instance (s : Pool) : (a : Act) → Decidable (SparesInUse s a)
  | .find _ => inferInstanceAs (Decidable (_ → _))
  | .lock _ | .load _ | .write .. | .sync .. | .release _ | .unlock _ | .log .. => isTrue trivial

variable {arena : Arena} {m : Machine} {s s' : Pool} {p : Ptr}

/-! ### What is spared stays -/

theorem behind_split (hp : p ∈ m.head) : ∃ before, m.head = before ++ p :: m.behind p := by
  refine ⟨m.head.takeWhile (· != p), ?_⟩
  have hne : m.head.dropWhile (· != p) ≠ [] := by
    rw [Ne, List.dropWhile_eq_nil_iff]
    exact fun hall => absurd (hall p hp) (by simp)
  have hhead : (m.head.dropWhile (· != p)).head hne = p := by
    simpa using List.head_dropWhile_not (· != p) hne
  calc m.head = m.head.takeWhile (· != p) ++ m.head.dropWhile (· != p) := (List.takeWhile_append_dropWhile ..).symm
    _ = m.head.takeWhile (· != p) ++ p :: m.behind p := by
      rw [Machine.behind, ← List.cons_head_tail hne, hhead, List.tail_cons]

/-- `Spared` is exact: these are the blocks the eviction loop leaves. -/
theorem spared_iff (hn : m.head.Nodup) (hp : p ∈ m.head) : p ∈ m.evict.head ↔ m.Spared p := by
  obtain ⟨before, hsplit⟩ := behind_split hp
  have hnd := hn
  rw [hsplit] at hnd
  have hparts := List.nodup_append.mp hnd
  have hb : p ∉ m.behind p := (List.nodup_cons.mp hparts.2.1).1
  have hf : p ∉ before := fun hx => hparts.2.2 p hx p (List.mem_cons_self ..) rfl
  show p ∈ sweep evictionThreshold m.removable m.head ↔ _
  have hmem : p ∈ sweep evictionThreshold m.removable (before ++ p :: m.behind p) ↔ _ :=
    mem_sweep (by decide) hf hb
  rw [← hsplit] at hmem
  exact hmem

/-! ### The invariant -/

/-- Every block in use is linked under its number and every handle is to the object it was given. -/
structure Pool.Safe (s : Pool) : Prop where
  nodup : s.m.head.Nodup
  unique : ∀ p ∈ s.m.head, ∀ q ∈ s.m.head, (s.m.heap p).blockNo = (s.m.heap q).blockNo → p = q
  linked : ∀ u ∈ s.inUse, u.2 ∈ s.m.head ∧ (s.m.heap u.2).blockNo = u.1
  frees : ∀ h ∈ s.handles, s.m.frees h.p = h.frees

/-- Steps that link and unlink nothing. -/
theorem Pool.Safe.keep (h : s.Safe) (hmem : ∀ q, q ∈ s'.m.head ↔ q ∈ s.m.head) (hnd : s'.m.head.Nodup)
    (hno : ∀ q, (s'.m.heap q).blockNo = (s.m.heap q).blockNo) (hfrees : s'.m.frees = s.m.frees)
    (huse : ∀ u ∈ s'.inUse, u ∈ s.inUse ∨ u.2 ∈ s.m.head ∧ (s.m.heap u.2).blockNo = u.1)
    (hh : ∀ x ∈ s'.handles, x ∈ s.handles ∨ s.m.frees x.p = x.frees) : s'.Safe where
  nodup := hnd
  unique q hq r hr he := by
    rw [hno, hno] at he
    exact h.unique q ((hmem q).mp hq) r ((hmem r).mp hr) he
  linked u hu := by
    rw [hmem, hno]
    exact (huse u hu).elim (h.linked u) id
  frees x hx := by
    rw [hfrees]
    exact (hh x hx).elim (h.frees x) id

theorem mem_inUse {u : UInt64 × Ptr} : u ∈ s.inUse ↔ (∃ w ∈ s.waiting, (w.block, w.p) = u) ∨
    (∃ w ∈ s.loading, (w.block, w.p) = u) ∨ ∃ h ∈ s.handles, (h.block, h.p) = u := by
  simp only [Pool.inUse, List.mem_append, List.mem_map, or_assoc]

/-- Nothing was linked, freed or renamed. -/
structure SameList (m m' : Machine) : Prop where
  head : m'.head = m.head
  blockNo : ∀ q, (m'.heap q).blockNo = (m.heap q).blockNo
  frees : m'.frees = m.frees

theorem sameList_setBlock {f : Block → Block} (hf : ∀ b, (f b).blockNo = b.blockNo) :
    SameList m (m.setBlock p f) := ⟨rfl, fun _ => Machine.setBlock_field hf, rfl⟩

theorem sameList_sync {c : Option Nat} {m' : Machine} (hrun : (cacheSync c p).run m = .ok () m') :
    SameList m m' := by
  cases c with
  | none =>
    by_cases hp : m.power = 0
    · rw [cacheSync, deviceWrite_offline hp] at hrun
      cases hrun
    · rw [cacheSync, deviceWrite_run hp] at hrun
      cases hrun
      exact ⟨rfl, fun _ => rfl, rfl⟩
  | some c =>
    rw [cacheSync, bind_ok (get_run m)] at hrun
    dsimp only at hrun
    split at hrun
    · cases hrun
    split at hrun
    · cases hrun
    split at hrun
    case isFalse => cases hrun
    case isTrue =>
      rw [bind_ok (set_run _ _)] at hrun
      split at hrun
      case isFalse =>
        cases hrun
        exact ⟨rfl, fun _ => rfl, rfl⟩
      case isTrue =>
        rw [chargeEntry, bind_ok (modify_run _ _), bind_ok (get_run _)] at hrun
        split at hrun
        · cases hrun
          have hpin : SameList m (m.setBlock p fun b => {b with pinned := true}) := sameList_setBlock fun _ => rfl
          exact ⟨rfl, hpin.blockNo, rfl⟩
        · cases hrun

theorem Pool.Safe.same (h : s.Safe) (hm : SameList s.m s'.m) (huse : ∀ u ∈ s'.inUse, u ∈ s.inUse)
    (hh : ∀ x ∈ s'.handles, x ∈ s.handles ∨ s.m.frees x.p = x.frees) : s'.Safe :=
  h.keep (fun q => by rw [hm.head]) (hm.head ▸ h.nodup) hm.blockNo hm.frees (fun u hu => Or.inl (huse u hu)) hh

/-- `cache_acquire` returns one of the blocks in use. -/
theorem Pool.Safe.returns {w : Waiting} {t : Pool} (h : s.Safe) (hm : SameList s.m t.m)
    (hw : (w.block, w.p) ∈ s.inUse) (hwait : ∀ x ∈ t.waiting, x ∈ s.waiting)
    (hload : ∀ x ∈ t.loading, x ∈ s.loading) (hhandles : t.handles = s.handles) : (t.returns w).Safe := by
  refine h.same hm (fun u hu => ?_) fun x hx => ?_
  · rcases mem_inUse.mp hu with ⟨x, hx, rfl⟩ | ⟨x, hx, rfl⟩ | ⟨x, hx, rfl⟩
    · exact mem_inUse.mpr (Or.inl ⟨x, hwait x hx, rfl⟩)
    · exact mem_inUse.mpr (Or.inr (Or.inl ⟨x, hload x hx, rfl⟩))
    · rcases List.mem_cons.mp hx with rfl | hx
      · exact hw
      · exact mem_inUse.mpr (Or.inr (Or.inr ⟨x, hhandles ▸ hx, rfl⟩))
  · rcases List.mem_cons.mp hx with rfl | hx
    · right
      show s.m.frees w.p = t.m.frees w.p
      rw [hm.frees]
    · exact Or.inl (hhandles ▸ hx)

theorem Pool.Safe.find_hit {b : UInt64} (h : s.Safe) (hl : s.m.lookup b = some p) :
    Pool.Safe {s with m := s.m.touch p, waiting := ⟨b, p, true⟩ :: s.waiting} := by
  obtain ⟨hp, hb⟩ := Machine.lookup_some hl
  refine h.keep (fun q => mem_touch hp) (nodup_touch h.nodup) (fun _ => rfl) rfl (fun u hu => ?_)
    fun x hx => Or.inl hx
  rcases mem_inUse.mp hu with ⟨x, hx, rfl⟩ | hrest
  · rcases List.mem_cons.mp hx with rfl | hx
    · exact Or.inr ⟨hp, hb⟩
    · exact Or.inl (mem_inUse.mpr (Or.inl ⟨x, hx, rfl⟩))
  · exact Or.inl (mem_inUse.mpr (Or.inr hrest))

/-- A miss frees blocks and links a new one; what is spared is none of these. -/
theorem Pool.Safe.find_miss {b : UInt64} (h : s.Safe) (hl : s.m.lookup b = none)
    (hspare : ∀ u ∈ s.inUse, s.m.Spared u.2) (hp : p ∉ s.m.evict.head) :
    Pool.Safe {s with m := s.m.evict.link p b, waiting := ⟨b, p, false⟩ :: s.waiting} := by
  have hkept : ∀ u ∈ s.inUse, u.2 ∈ s.m.evict.head := fun u hu =>
    (spared_iff h.nodup (h.linked u hu).1).mpr (hspare u hu)
  have hold : ∀ q ∈ s.m.evict.head, q ≠ p ∧ (s.m.evict.link p b).heap q = s.m.heap q := fun q hq => by
    have hne : q ≠ p := fun he => hp (he ▸ hq)
    exact ⟨hne, Function.update_of_ne hne ..⟩
  have hself : ((s.m.evict.link p b).heap p).blockNo = b := by
    show (Function.update s.m.evict.heap p {initBlock with blockNo := b} p).blockNo = b
    rw [Function.update_self]
  have hnew := Machine.lookup_none.mp hl
  have hlinked : ∀ u ∈ s.inUse, u.2 ∈ (s.m.evict.link p b).head ∧
      ((s.m.evict.link p b).heap u.2).blockNo = u.1 := fun u hu => by
    have hk := hkept u hu
    rw [(hold _ hk).2]
    exact ⟨List.mem_cons_of_mem p hk, (h.linked u hu).2⟩
  refine ⟨List.nodup_cons.mpr ⟨hp, evict_nodup h.nodup⟩, fun q hq r hr he => ?_, fun u hu => ?_, fun x hx => ?_⟩
  · rcases List.mem_cons.mp hq with hqp | hq' <;> rcases List.mem_cons.mp hr with hrp | hr'
    · rw [hqp, hrp]
    · rw [hqp, hself, (hold r hr').2] at he
      exact absurd he.symm (hnew r (evict_subset hr'))
    · rw [hrp, hself, (hold q hq').2] at he
      exact absurd he (hnew q (evict_subset hq'))
    · rw [(hold q hq').2, (hold r hr').2] at he
      exact h.unique q (evict_subset hq') r (evict_subset hr') he
  · rcases mem_inUse.mp hu with ⟨x, hx, rfl⟩ | hrest
    · rcases List.mem_cons.mp hx with rfl | hx
      · exact ⟨List.mem_cons_self .., hself⟩
      · exact hlinked _ (mem_inUse.mpr (Or.inl ⟨x, hx, rfl⟩))
    · exact hlinked u (mem_inUse.mpr (Or.inr hrest))
  · have hk := hkept (x.block, x.p) (mem_inUse.mpr (Or.inr (Or.inr ⟨x, hx, rfl⟩)))
    show (if x.p ∈ s.m.head ∧ x.p ∉ s.m.evict.head then s.m.frees x.p + 1 else s.m.frees x.p) = x.frees
    rw [if_neg fun hc => hc.2 hk]
    exact h.frees x hx

/-- Every step keeps the blocks in use safe, if a miss spares them. -/
theorem Pool.exec_safe {a : Act} (h : s.Safe) (hok : SparesInUse s a) (hs : s.exec arena a = some s') :
    s'.Safe := by
  cases a with
  | find b =>
    cases hl : s.m.lookup b with
    | some p =>
      rw [Pool.exec, cacheFind_hit arena hl] at hs
      cases hs
      exact h.find_hit hl
    | none =>
      rw [Pool.exec, cacheFind_miss arena hl] at hs
      cases hs
      exact h.find_miss hl (hok hl) (arena.fresh _ _)
  | lock w =>
    obtain ⟨hw, hs⟩ := Option.ite_none_right_eq_some.mp hs
    have huse := mem_inUse.mpr (Or.inl ⟨w, hw, rfl⟩)
    cases hlock : (s.m.heap w.p).locked with
    | true =>
      rw [acquireSleeplock_taken hlock] at hs
      cases hs
    | false =>
      rw [acquireSleeplock_free hlock] at hs
      cases hs
      have hsame : SameList s.m (s.m.setBlock w.p fun b => {b with locked := true}) :=
        sameList_setBlock fun _ => rfl
      dsimp only
      split
      · exact h.returns hsame huse (fun x hx => List.mem_of_mem_erase hx) (fun x hx => hx) rfl
      · refine h.same hsame (fun u hu => ?_) fun x hx => Or.inl hx
        rcases mem_inUse.mp hu with ⟨x, hx, rfl⟩ | ⟨x, hx, rfl⟩ | hx
        · exact mem_inUse.mpr (Or.inl ⟨x, List.mem_of_mem_erase hx, rfl⟩)
        · rcases List.mem_cons.mp hx with rfl | hx
          · exact huse
          · exact mem_inUse.mpr (Or.inr (Or.inl ⟨x, hx, rfl⟩))
        · exact mem_inUse.mpr (Or.inr (Or.inr hx))
  | load w =>
    rw [Pool.exec] at hs
    obtain ⟨hw, hs⟩ := Option.ite_none_right_eq_some.mp hs
    rw [cacheLoad_run] at hs
    cases hs
    have hblock : SameList s.m (s.m.setBlock w.p fun b =>
        {b with valid := true, acquired := true, data := s.m.disk (blockSector b.blockNo)}) :=
      sameList_setBlock fun _ => rfl
    exact h.returns ⟨rfl, hblock.blockNo, rfl⟩ (mem_inUse.mpr (Or.inr (Or.inl ⟨w, hw, rfl⟩)))
      (fun x hx => hx) (fun x hx => List.mem_of_mem_erase hx) rfl
  | write x f | unlock p =>
    obtain ⟨-, rfl⟩ := Option.ite_some_none_eq_some.mp hs
    refine h.same ?_ (fun u hu => hu) fun x hx => Or.inl hx
    dsimp only
    exact sameList_setBlock fun _ => rfl
  | sync c x =>
    obtain ⟨-, hs⟩ := Option.ite_none_right_eq_some.mp hs
    split at hs
    case h_1 hrun =>
      cases hs
      exact h.same (sameList_sync hrun) (fun u hu => hu) fun x hx => Or.inl hx
    case h_2 => cases hs
  | release x =>
    obtain ⟨-, rfl⟩ := Option.ite_some_none_eq_some.mp hs
    refine h.same ?_ (fun u hu => ?_) fun y hy => Or.inl (List.mem_of_mem_erase hy)
    · dsimp only
      exact sameList_setBlock fun _ => rfl
    rcases mem_inUse.mp hu with hx | hx | ⟨y, hy, rfl⟩
    · exact mem_inUse.mpr (Or.inl hx)
    · exact mem_inUse.mpr (Or.inr (Or.inl hx))
    · exact mem_inUse.mpr (Or.inr (Or.inr ⟨y, List.mem_of_mem_erase hy, rfl⟩))
  | log header log ctx disk power =>
    cases hs
    exact h.same ⟨rfl, fun _ => rfl, rfl⟩ (fun u hu => hu) fun x hx => Or.inl hx

/-! ### Whole runs -/

/-- **A block in use stays**, in every run whose misses spare the blocks in use: it is
linked, it has not been freed since it was returned, it has its number, and no other
object is in use under that number. -/
theorem block_in_use_stays (sb : SuperBlock) (arena : Arena) {disk : UInt64 → BlockData} {power : Nat}
    {m0 : Machine} (hboot : (initBcache sb arena).run (boot disk power) = .ok () m0) {s : Pool}
    (hreach : Reach (fun s a s' => s.exec arena a = some s') SparesInUse (.start m0) s) :
    (∀ h ∈ s.handles, h.p ∈ s.m.head ∧ s.m.frees h.p = h.frees ∧ (s.m.heap h.p).blockNo = h.block) ∧
    ∀ h ∈ s.handles, ∀ h' ∈ s.handles, h.block = h'.block → h.p = h'.p := by
  obtain ⟨hidle, -, -⟩ := initBcache_returns hboot
  have hstart : (Pool.start m0).Safe :=
    ⟨hidle.live.cached.nodup, hidle.live.cached.unique, nofun, nofun⟩
  have hsafe : s.Safe := hreach.invariant hstart fun _ _ _ h hok hs => Pool.exec_safe h hok hs
  have hlinked : ∀ h ∈ s.handles, h.p ∈ s.m.head ∧ (s.m.heap h.p).blockNo = h.block := fun h hh =>
    hsafe.linked (h.block, h.p) (mem_inUse.mpr (Or.inr (Or.inr ⟨h, hh, rfl⟩)))
  refine ⟨fun h hh => ⟨(hlinked h hh).1, hsafe.frees h hh, (hlinked h hh).2⟩, fun h hh h' hh' he => ?_⟩
  refine hsafe.unique _ (hlinked h hh).1 _ (hlinked h' hh').1 ?_
  rw [(hlinked h hh).2, (hlinked h' hh').2, he]

/-- A miss: find, lock, load. -/
def missActs (b : UInt64) (p : Ptr) : List Act := [.find b, .lock ⟨b, p, false⟩, .load ⟨b, p, false⟩]

/-- Two blocks held at once. -/
theorem block_in_use_stays_two : ∃ (m0 : Machine) (s : Pool),
    (initBcache .mkfs .next).run (boot (fun _ _ => 0) 9) = .ok () m0 ∧
    Reach (fun s a s' => s.exec .next a = some s') SparesInUse (.start m0) s ∧
    s.handles.map Handle.block = [200, 100] ∧
    (∀ h ∈ s.handles, h.p ∈ s.m.head ∧ s.m.frees h.p = h.frees ∧ (s.m.heap h.p).blockNo = h.block) ∧
    ∀ h ∈ s.handles, ∀ h' ∈ s.handles, h.block = h'.block → h.p = h'.p := by
  obtain ⟨s, hreach, hs⟩ := Reach.exists_of_any (show
    (runAll (Pool.exec .next) SparesInUse (.start booted)
      (missActs 100 1 ++ missActs 200 2)).any (fun s => decide (s.handles.map Handle.block = [200, 100])) = true by
      decide +kernel)
  exact ⟨_, s, booted_run, hreach, of_decide_eq_true hs, block_in_use_stays .mkfs .next booted_run hreach⟩

/-- A block that is acquired, released and acquired again, and is held while twenty other
blocks are read and then a second thread asks for it. -/
def rereadActs : List Act :=
  missActs 100 1 ++ [.release ⟨100, 1, 0⟩, .unlock 1, .find 100, .lock ⟨100, 1, true⟩] ++
    (List.range 20).flatMap (fun i => missActs (200 + i.toUInt64) (2 + i)) ++ missActs 100 22

/-- The hit does not flag the block as acquired: it is evicted under its holder, and the
second thread gets another object for the same block. -/
theorem held_block_evicted : ∃ (m0 : Machine) (s : Pool),
    (initBcache .mkfs .next).run (boot (fun _ _ => 0) 9) = .ok () m0 ∧
    Reach (fun s a s' => s.exec .next a = some s') (fun _ _ => True) (.start m0) s ∧
    ∃ h ∈ s.handles, h.p ∉ s.m.head ∧ s.m.frees h.p ≠ h.frees ∧
      ∃ h' ∈ s.handles, h'.block = h.block ∧ h'.p ≠ h.p := by
  obtain ⟨s, hreach, hs⟩ := Reach.exists_of_any (show
    (runAll (Pool.exec .next) (fun _ _ => True)
      (.start booted) rereadActs).any (fun s =>
        decide (∃ h ∈ s.handles, h.p ∉ s.m.head ∧ s.m.frees h.p ≠ h.frees ∧
          ∃ h' ∈ s.handles, h'.block = h.block ∧ h'.p ≠ h.p)) = true by decide +kernel)
  exact ⟨_, s, booted_run, hreach, of_decide_eq_true hs⟩

end OS2021.Fs
