import OS2021.Fs.Recovery
import OS2021.Fs.SyncSpec
import OS2021.Lib.Runs

/-! The size of the cache over whole runs.

A client is the machine with what its callers are in the middle of: the blocks
they hold, the blocks they are waiting for, and the operations they have open.
Several callers may interleave; `cache_alloc` and `cache_free` stand as whole
calls, and their parts are calls too. -/
namespace OS2021.Fs
open Lib

structure Client where
  m : Machine
  /-- Returned by `cache_acquire` and not yet released. -/
  held : List Ptr
  /-- Found by a `cache_acquire` that is waiting for the sleeplock. -/
  waiting : List Ptr
  running : List Nat

inductive Op where
  | acquire (b : UInt64)
  | resume (p : Ptr)
  | release (p : Ptr)
  | write (p : Ptr) (f : BlockData → BlockData)
  | beginOp (c : Nat)
  | sync (c : Option Nat) (p : Ptr)
  | endOp (c : Nat)
  | alloc (c : Option Nat)
  | free (c : Option Nat) (b : UInt64)

def Client.start (m : Machine) : Client := ⟨m, [], [], []⟩

/-- A context that may be passed to the cache: an open operation, or none. -/
def Client.Open (s : Client) (c : Option Nat) : Prop := ∀ o ∈ c, o ∈ s.running

instance (s : Client) (c : Option Nat) : Decidable (s.Open c) :=
  inferInstanceAs (Decidable (∀ o ∈ c, o ∈ s.running))

/-- The client after a routine has returned. -/
def Client.after {α : Type} (s : Client) (x : M α) (k : α → Machine → Client) : Option Client :=
  match x.run s.m with
  | .ok a m => some (k a m)
  | .error _ _ => none

/-- A call that its contract allows, if it returns or puts its caller to sleep. -/
def Client.exec (sb : SuperBlock) (arena : Arena) (s : Client) : Op → Option Client
  | .acquire b =>
    match (cacheAcquire arena b).run s.m with
    | .ok p m => some {s with m, held := p :: s.held}
    | .error (.asleep (.block p)) m => some {s with m, waiting := p :: s.waiting}
    | .error _ _ => none
  | .resume p =>
    if p ∈ s.waiting then
      s.after (acquireSleeplock p) fun _ m => {s with m, held := p :: s.held, waiting := s.waiting.erase p}
    else none
  | .release p =>
    if p ∈ s.held then s.after (cacheRelease p) fun _ m => {s with m, held := s.held.erase p} else none
  | .write p f => if p ∈ s.held then s.after (modifyData p f) fun _ m => {s with m} else none
  | .beginOp c =>
    if c ∈ s.running then none
    else s.after (cacheBeginOp c) fun _ m => {s with m, running := c :: s.running}
  | .sync c p => if s.Open c ∧ p ∈ s.held then s.after (cacheSync c p) fun _ m => {s with m} else none
  | .endOp c =>
    if c ∈ s.running then
      match (cacheEndOp sb arena c).run s.m with
      | .ok _ m => some {s with m, running := s.running.erase c}
      | .error (.asleep .outstanding) m => some {s with m, running := s.running.erase c}
      | .error _ _ => none
    else none
  | .alloc c => if s.Open c then s.after (cacheAlloc sb arena c) fun _ m => {s with m} else none
  | .free c b => if s.Open c then s.after (cacheFree sb arena c b) fun _ m => {s with m} else none

/-- The operation that ends last finds nothing to write. -/
def CommitsNothing (s : Client) : Op → Prop
  | .endOp _ => s.m.log.outstanding = 1 → s.m.header.numBlocks = 0
  | _ => True

instance (s : Client) : (op : Op) → Decidable (CommitsNothing s op)
  | .endOp _ => inferInstanceAs (Decidable (_ → _))
  | .acquire _ | .resume _ | .release _ | .write .. | .beginOp _ | .sync .. | .alloc _ | .free .. =>
    isTrue trivial

/-- Nobody holds a block, no operation is open, no commit is under way. -/
structure Client.Quiescent (s : Client) : Prop where
  outstanding : s.m.log.outstanding = 0
  committing : s.m.log.committing = 0
  held : s.held = []

instance (s : Client) : Decidable s.Quiescent :=
  decidable_of_iff (s.m.log.outstanding = 0 ∧ s.m.log.committing = 0 ∧ s.held = [])
    ⟨fun h => ⟨h.1, h.2.1, h.2.2⟩, fun h => ⟨h.outstanding, h.committing, h.held⟩⟩

variable {sb : SuperBlock} {arena : Arena} {m m' : Machine} {held held' : List Ptr} {n : Nat} {p : Ptr}
  {b : UInt64} {s s' : Client}

/-- What a call can do, case by case. -/
inductive Client.Step (sb : SuperBlock) (arena : Arena) : Client → Op → Client → Prop
  | acquired {s : Client} {b : UInt64} {p : Ptr} {m : Machine}
      (h : (cacheAcquire arena b).run s.m = .ok p m) :
      Step sb arena s (.acquire b) {s with m, held := p :: s.held}
  | waits {s : Client} {b : UInt64} {p : Ptr} {m : Machine}
      (h : (cacheAcquire arena b).run s.m = .error (.asleep (.block p)) m) :
      Step sb arena s (.acquire b) {s with m, waiting := p :: s.waiting}
  | resumed {s : Client} {p : Ptr} {m : Machine} (hp : p ∈ s.waiting)
      (h : (acquireSleeplock p).run s.m = .ok () m) :
      Step sb arena s (.resume p) {s with m, held := p :: s.held, waiting := s.waiting.erase p}
  | released {s : Client} {p : Ptr} {m : Machine} (hp : p ∈ s.held)
      (h : (cacheRelease p).run s.m = .ok () m) :
      Step sb arena s (.release p) {s with m, held := s.held.erase p}
  | wrote {s : Client} {p : Ptr} {f : BlockData → BlockData} {m : Machine} (hp : p ∈ s.held)
      (h : (modifyData p f).run s.m = .ok () m) : Step sb arena s (.write p f) {s with m}
  | began {s : Client} {c : Nat} {m : Machine} (hc : c ∉ s.running)
      (h : (cacheBeginOp c).run s.m = .ok () m) :
      Step sb arena s (.beginOp c) {s with m, running := c :: s.running}
  | synced {s : Client} {c : Option Nat} {p : Ptr} {m : Machine} (hc : s.Open c) (hp : p ∈ s.held)
      (h : (cacheSync c p).run s.m = .ok () m) : Step sb arena s (.sync c p) {s with m}
  | ended {s : Client} {c : Nat} {m : Machine} (hc : c ∈ s.running)
      (h : (cacheEndOp sb arena c).run s.m = .ok () m) :
      Step sb arena s (.endOp c) {s with m, running := s.running.erase c}
  | left {s : Client} {c : Nat} {m : Machine} (hc : c ∈ s.running)
      (h : (cacheEndOp sb arena c).run s.m = .error (.asleep .outstanding) m) :
      Step sb arena s (.endOp c) {s with m, running := s.running.erase c}
  | allocated {s : Client} {c : Option Nat} {n : Nat} {m : Machine} (hc : s.Open c)
      (h : (cacheAlloc sb arena c).run s.m = .ok n m) : Step sb arena s (.alloc c) {s with m}
  | freed {s : Client} {c : Option Nat} {b : UInt64} {m : Machine} (hc : s.Open c)
      (h : (cacheFree sb arena c b).run s.m = .ok () m) : Step sb arena s (.free c b) {s with m}

theorem Client.after_some {α : Type} {x : M α} {k : α → Machine → Client} (h : s.after x k = some s') :
    ∃ a m, x.run s.m = .ok a m ∧ s' = k a m := by
  rw [Client.after] at h
  split at h
  case h_1 a m hrun => exact ⟨a, m, hrun, (Option.some.inj h).symm⟩
  case h_2 => cases h

theorem Client.exec_step {op : Op} (h : s.exec sb arena op = some s') : Client.Step sb arena s op s' := by
  cases op with
  | acquire b =>
    rw [Client.exec] at h
    split at h
    case h_1 hrun =>
      cases h
      exact .acquired hrun
    case h_2 hrun =>
      cases h
      exact .waits hrun
    case h_3 => cases h
  | endOp c =>
    obtain ⟨hc, h⟩ := Option.ite_none_right_eq_some.mp h
    split at h
    case h_1 hrun =>
      cases h
      exact .ended hc hrun
    case h_2 hrun =>
      cases h
      exact .left hc hrun
    case h_3 => cases h
  | beginOp c =>
    obtain ⟨hc, h⟩ := Option.ite_none_left_eq_some.mp h
    obtain ⟨_, m, hrun, rfl⟩ := after_some h
    exact .began hc hrun
  | resume p | release p | write p f | sync c p | alloc c | free c b =>
    obtain ⟨hguard, h⟩ := Option.ite_none_right_eq_some.mp h
    obtain ⟨_, m, hrun, rfl⟩ := after_some h
    first
      | exact .resumed hguard hrun
      | exact .released hguard hrun
      | exact .wrote hguard hrun
      | exact .synced hguard.1 hguard.2 hrun
      | exact .allocated hguard hrun
      | exact .freed hguard hrun

/-! ### The flags -/

/-- A block's flags are set for a reason: the lock and `acquired` by a holder,
`pinned` by an entry of the header, and an entry by one of `n` open operations. -/
structure Tidy (held : List Ptr) (n : Nat) (m : Machine) : Prop where
  nodup : m.head.Nodup
  locked : ∀ p ∈ m.head, (m.heap p).locked = true → p ∈ held
  acquired : ∀ p ∈ m.head, (m.heap p).acquired = true → p ∈ held
  pinned : m.header.numBlocks = 0 → Unpinned m
  sized : m.header.numBlocks ≤ logMaxSize
  mx : m.log.mx ≤ logMaxSize
  outstanding : m.log.outstanding = n
  entered : m.header.numBlocks ≠ 0 → 0 < n

section
variable (h : Tidy held n m)
include h

/-- The flags of the blocks that stay in the list may be cleared, or set for a holder. -/
theorem Tidy.change (hnd : m'.head.Nodup)
    (hcases : ∀ q ∈ m'.head, q ∈ held' ∧ (m'.heap q).pinned = false ∨ q ∈ m.head ∧
      ((m'.heap q).locked = true → (m.heap q).locked = true ∨ q ∈ held') ∧
      ((m'.heap q).acquired = true → (m.heap q).acquired = true ∨ q ∈ held') ∧
      ((m'.heap q).pinned = true → (m.heap q).pinned = true))
    (hheld : ∀ q ∈ m'.head, (m'.heap q).locked = true ∨ (m'.heap q).acquired = true → q ∈ held → q ∈ held')
    (hheader : m'.header = m.header) (hlog : m'.log = m.log) : Tidy held' n m' where
  nodup := hnd
  locked q hq hl := by
    rcases hcases q hq with ⟨hin, -⟩ | ⟨hm, hl', -⟩
    · exact hin
    · exact (hl' hl).elim (fun h' => hheld q hq (Or.inl hl) (h.locked q hm h')) id
  acquired q hq ha := by
    rcases hcases q hq with ⟨hin, -⟩ | ⟨hm, -, ha', -⟩
    · exact hin
    · exact (ha' ha).elim (fun h' => hheld q hq (Or.inr ha) (h.acquired q hm h')) id
  pinned hz q hq := by
    rcases hcases q hq with ⟨-, hp⟩ | ⟨hm, -, -, hp⟩
    · exact hp
    · rw [← Bool.not_eq_true]
      intro hpin
      rw [hheader] at hz
      exact absurd (hp hpin) (by rw [h.pinned hz q hm]; decide)
  sized := hheader ▸ h.sized
  mx := hlog ▸ h.mx
  outstanding := hlog ▸ h.outstanding
  entered := hheader ▸ h.entered

/-- Contents and disk do not matter. -/
theorem Tidy.congr (hl : m'.head = m.head)
    (hflags : ∀ q, (m'.heap q).locked = (m.heap q).locked ∧ (m'.heap q).acquired = (m.heap q).acquired ∧
      (m'.heap q).pinned = (m.heap q).pinned) (hheader : m'.header = m.header) (hlog : m'.log = m.log) :
    Tidy held n m' := by
  refine h.change (hl ▸ h.nodup) (fun q hq => Or.inr ⟨hl ▸ hq, ?_, ?_, ?_⟩) (fun _ _ _ => id) hheader hlog
  · exact fun hlk => Or.inl ((hflags q).1 ▸ hlk)
  · exact fun ha => Or.inl ((hflags q).2.1 ▸ ha)
  · exact fun hp => (hflags q).2.2 ▸ hp

theorem Tidy.touch (hp : p ∈ m.head) : Tidy held n (m.touch p) :=
  h.change (nodup_touch h.nodup) (fun _ hq => Or.inr ⟨(mem_touch hp).mp hq, Or.inl, Or.inl, id⟩)
    (fun _ _ _ => id) rfl rfl

/-- A thread gets the sleeplock of a block. -/
theorem Tidy.lock : Tidy (p :: held) n (m.setBlock p fun b => {b with locked := true}) := by
  refine h.change h.nodup (fun q hq => Or.inr ⟨hq, ?_⟩) (fun q _ _ hin => List.mem_cons_of_mem p hin) rfl rfl
  by_cases hqp : q = p
  · subst hqp
    simp
  · rw [Machine.setBlock_of_ne hqp]
    exact ⟨Or.inl, Or.inl, id⟩

theorem Tidy.missed (hp : p ∉ m.evict.head) : Tidy (p :: held) n (m.missed p b) := by
  refine h.change (List.nodup_cons.mpr ⟨hp, evict_nodup h.nodup⟩) (fun q hq => ?_)
    (fun q _ _ hin => List.mem_cons_of_mem p hin) rfl rfl
  rcases List.mem_cons.mp hq with rfl | hq
  · exact Or.inl ⟨List.mem_cons_self .., by rw [missed_self]⟩
  · have hqp : q ≠ p := fun he => hp (he ▸ hq)
    rw [missed_of_ne hqp]
    exact Or.inr ⟨evict_subset hq, Or.inl, Or.inl, id⟩

theorem Tidy.acquire (hrun : (cacheAcquire arena b).run m = .ok p m') : Tidy (p :: held) n m' := by
  rcases cacheAcquire_cases arena b m with ⟨q, hl, hq⟩ | ⟨q, -, -, hq⟩ | ⟨-, q, hfresh, hq⟩
  all_goals rw [hq] at hrun
  case inl =>
    cases hrun
    exact (h.touch (Machine.lookup_some hl).1).lock
  case inr.inl => cases hrun
  case inr.inr =>
    cases hrun
    exact h.missed hfresh

theorem Tidy.waits {e : Halt} (hrun : (cacheAcquire arena b).run m = .error e m') : Tidy held n m' := by
  rcases cacheAcquire_cases arena b m with ⟨q, -, hq⟩ | ⟨q, hl, -, hq⟩ | ⟨-, q, -, hq⟩
  all_goals rw [hq] at hrun
  case inl | inr.inr => cases hrun
  case inr.inl =>
    cases hrun
    exact h.touch (Machine.lookup_some hl).1

theorem Tidy.released (hh : ∀ q ∈ held, q ≠ p → q ∈ held') : Tidy held' n (m.released p) := by
  refine h.change h.nodup (fun q hq => Or.inr ⟨hq, ?_⟩) (fun q hq hf hin => hh q hin ?_) rfl rfl
  · rw [released_heap]
    simp only [Bool.and_eq_true]
    exact ⟨fun hl => Or.inl hl.2, fun ha => Or.inl ha.2, id⟩
  · intro heq
    subst heq
    rw [released_heap] at hf
    simp at hf

theorem Tidy.write (f : BlockData → BlockData) : Tidy held n (m.setBlock p fun b => {b with data := f b.data}) := by
  refine h.congr rfl (fun q => ⟨?_, ?_, ?_⟩) rfl rfl
  all_goals exact Machine.setBlock_field fun _ => rfl

theorem Tidy.sync {c : Option Nat} (hrun : (cacheSync c p).run m = .ok () m') : Tidy held n m' := by
  cases c with
  | none =>
    by_cases hp : m.power = 0
    · rw [cacheSync, deviceWrite_offline hp] at hrun
      cases hrun
    · rw [cacheSync, deviceWrite_run hp] at hrun
      cases hrun
      exact h.congr rfl (fun q => ⟨rfl, rfl, rfl⟩) rfl rfl
  | some c =>
    obtain ⟨hroom, hout, ⟨rfl, -⟩ | ⟨hn, -, -, rfl⟩⟩ := cacheSync_ok h.sized h.mx hrun
    · exact h
    · have hheap : ∀ q, ((m.entered p hn).heap q).locked = (m.heap q).locked ∧
          ((m.entered p hn).heap q).acquired = (m.heap q).acquired := fun q => by
        constructor <;> exact Machine.setBlock_field (f := fun b => {b with pinned := true}) fun _ => rfl
      have hpos : 0 < n := by
        have := h.outstanding
        omega
      exact ⟨h.nodup, fun q hq hl => h.locked q hq ((hheap q).1 ▸ hl),
        fun q hq ha => h.acquired q hq ((hheap q).2 ▸ ha), fun hz => absurd hz (Nat.succ_ne_zero _), hn, h.mx,
        h.outstanding, fun _ => hpos⟩

end

/-! ### The calls -/

section Calls
variable (sb : SuperBlock) (arena : Arena) (held : List Ptr) (n : Nat)

/-- A caller that acquires a block and releases it in the end leaves the flags tidy. -/
theorem tidy_acquire (b : UInt64) :
    Triple (Tidy held n) (cacheAcquire arena b) (fun p => Tidy (p :: held) n) fun _ _ => True :=
  .of_ok fun _ _ _ h hrun => h.acquire hrun

theorem tidy_release (p : Ptr) :
    Triple (Tidy (p :: held) n) (cacheRelease p) (fun _ => Tidy held n) fun _ _ => True :=
  .of_ok fun m _ m' h hrun => by
    rw [cacheRelease_run] at hrun
    cases hrun
    exact h.released fun q hq hne => (List.mem_cons.mp hq).resolve_left hne

theorem tidy_write (p : Ptr) (f : BlockData → BlockData) :
    Triple (Tidy held n) (modifyData p f) (fun _ => Tidy held n) fun _ _ => True :=
  .of_ok fun m _ m' h hrun => by
    rw [modifyData, modify_run] at hrun
    cases hrun
    exact h.write f

section
variable (c : Option Nat)

theorem tidy_sync (p : Ptr) : Triple (Tidy held n) (cacheSync c p) (fun _ => Tidy held n) fun _ _ => True :=
  .of_ok fun _ _ _ h hrun => h.sync hrun

theorem tidy_bzero (b : UInt64) : Triple (Tidy held n) (bzero arena c b) (fun _ => Tidy held n) fun _ _ => True :=
  (tidy_acquire arena held n b).bind fun p => (tidy_write (p :: held) n p _).bind fun _ =>
    (tidy_sync (p :: held) n c p).bind fun _ => tidy_release held n p

theorem tidy_allocIn (b : Nat) :
    Triple (Tidy held n) (allocIn sb arena c b) (fun _ => Tidy held n) fun _ _ => True := by
  refine (tidy_acquire arena held n _).bind fun p m hm => ?_
  rw [bind_ok (get_run m)]
  split
  · refine ((tidy_write (p :: held) n p _).bind fun _ => (tidy_sync (p :: held) n c p).bind fun _ =>
      (tidy_release held n p).bind fun _ => (tidy_bzero arena held n c _).bind fun _ => ?_) m hm
    exact fun _ h => .ok h
  · refine (tidy_release held n p).bind (fun _ => ?_) m hm
    exact fun _ h => .ok h

theorem tidy_allocFrom (bs : List Nat) :
    Triple (Tidy held n) (allocFrom sb arena c bs) (fun _ => Tidy held n) fun _ _ => True := by
  induction bs with
  | nil =>
    refine .of_ok fun m a m' _ hrun => ?_
    rw [allocFrom] at hrun
    split at hrun <;> cases hrun
  | cons b rest ih =>
    refine (tidy_allocIn sb arena held n c b).bind fun r => ?_
    cases r with
    | some x => exact fun _ h => .ok h
    | none => exact ih

theorem tidy_alloc : Triple (Tidy held n) (cacheAlloc sb arena c) (fun _ => Tidy held n) fun _ _ => True :=
  tidy_allocFrom sb arena held n c _

theorem tidy_free (b : UInt64) :
    Triple (Tidy held n) (cacheFree sb arena c b) (fun _ => Tidy held n) fun _ _ => True := by
  refine (tidy_acquire arena held n _).bind fun p m hm => ?_
  rw [bind_ok (get_run m)]
  dsimp only
  split
  · exact ((tidy_write (p :: held) n p _).bind fun _ => (tidy_sync (p :: held) n c p).bind fun _ =>
      tidy_release held n p) m hm
  · exact .error trivial

end

/-- `cache_end_op`, when the last operation finds nothing to write. -/
theorem cacheEndOp_nothing (c : Nat) (hz : m.log.outstanding = 1 → m.header.numBlocks = 0) :
    (cacheEndOp sb arena c).run m = if m.log.committing ≠ 0 then .error (.panic "log committing") (m.ended c)
      else if m.log.outstanding = 1 then .ok () {m.ended c with log := {(m.ended c).log with committing := 0}}
      else .error (.asleep .outstanding) (m.ended c) := by
  have hlocked := cacheEndOpLocked_run (c := c) (m := m)
  rw [cacheEndOp]
  split at hlocked
  case isTrue hc => rw [bind_error hlocked, if_pos hc]
  case isFalse hc =>
    rw [if_neg hc]
    split at hlocked
    case isFalse hone => rw [bind_error hlocked, if_neg hone]
    case isTrue hone =>
      have hnot : ¬ 0 < (m.ended c).closed.header.numBlocks := by
        show ¬ 0 < m.header.numBlocks
        have := hz hone
        omega
      have hcommit : (commit sb arena).run (m.ended c).closed = .ok () (m.ended c).closed := by
        rw [commit, bind_ok (get_run _), if_neg hnot, pure_run]
      rw [bind_ok hlocked, bind_ok hcommit, cacheEndOpFinish, modify_run, if_pos hone]
      rfl

end Calls

theorem Tidy.endOp {c : Nat} (h : Tidy held n m) (hz : m.log.outstanding = 1 → m.header.numBlocks = 0)
    (hrun : (cacheEndOp sb arena c).run m = .ok () m') : Tidy held (n - 1) m' := by
  rw [cacheEndOp_nothing sb arena c hz] at hrun
  split at hrun
  case isTrue => cases hrun
  case isFalse =>
    split at hrun
    case isFalse => cases hrun
    case isTrue hone =>
      cases hrun
      have hn := h.outstanding
      refine ⟨h.nodup, h.locked, h.acquired, h.pinned, h.sized, h.mx, ?_, fun hne => absurd (hz hone) hne⟩
      show m.log.outstanding - 1 = _
      omega

theorem Tidy.left {c : Nat} (h : Tidy held n m) (hn : 0 < n)
    (hz : m.log.outstanding = 1 → m.header.numBlocks = 0)
    (hrun : (cacheEndOp sb arena c).run m = .error (.asleep .outstanding) m') : Tidy held (n - 1) m' := by
  have hout := h.outstanding
  rw [cacheEndOp_nothing sb arena c hz] at hrun
  split at hrun
  case isTrue => cases hrun
  case isFalse =>
    split at hrun
    case isTrue => cases hrun
    case isFalse hone =>
      cases hrun
      refine ⟨h.nodup, h.locked, h.acquired, h.pinned, h.sized, h.mx, ?_, fun _ => ?_⟩
      · show m.log.outstanding - 1 = _
        omega
      · omega

theorem Tidy.begun {c : Nat} (h : Tidy held n m) : Tidy held (n + 1) (m.begun c) := by
  refine ⟨h.nodup, h.locked, h.acquired, h.pinned, h.sized, h.mx, ?_, fun _ => Nat.succ_pos n⟩
  show m.log.outstanding + 1 = _
  rw [h.outstanding]
  rfl

/-- Every call of a run keeps the flags tidy. -/
theorem Client.Step.tidy {op : Op} (hs : Client.Step sb arena s op s') (hok : CommitsNothing s op)
    (h : Tidy s.held s.running.length s.m) : Tidy s'.held s'.running.length s'.m := by
  cases hs with
  | acquired hrun => exact h.acquire hrun
  | waits hrun => exact h.waits hrun
  | resumed hp hrun =>
    rw [acquireSleeplock, bind_ok (get_run _)] at hrun
    split at hrun
    · cases hrun
    · cases hrun
      exact h.lock
  | released hp hrun =>
    rw [cacheRelease_run] at hrun
    cases hrun
    exact h.released fun q hq hne => (List.mem_erase_of_ne hne).mpr hq
  | wrote hp hrun => exact (tidy_write _ _ _ _ _ h).of_ok hrun
  | began hc hrun =>
    rcases cacheBeginOp_run with ⟨hb, -⟩ | ⟨hb, -⟩ <;> rw [hb] at hrun
    · cases hrun
      exact h.begun
    · cases hrun
  | synced hc hp hrun => exact h.sync hrun
  | ended hc hrun =>
    rw [List.length_erase_of_mem hc]
    exact h.endOp hok hrun
  | left hc hrun =>
    rw [List.length_erase_of_mem hc]
    exact h.left (List.length_pos_of_mem hc) hok hrun
  | allocated hc hrun => exact (tidy_alloc sb arena _ _ _ _ h).of_ok hrun
  | freed hc hrun => exact (tidy_free sb arena _ _ _ _ _ h).of_ok hrun

/-! ### The bound -/

theorem tidy_boot {disk : UInt64 → BlockData} {power : Nat}
    (hboot : (initBcache sb arena).run (boot disk power) = .ok () m) : Tidy [] 0 m := by
  obtain ⟨hidle, hunpinned, hlog⟩ := initBcache_returns hboot
  have hc := hidle.live.cached
  refine ⟨hc.nodup, fun p hp => (hc.locked p hp).mp, hc.acquired, fun _ => hunpinned, ?_, ?_, ?_, ?_⟩
  · rw [hidle.empty]
    exact Nat.zero_le _
  · rw [hlog]
    exact Int.ofNat_le.mpr (logMx_le sb)
  · rw [hlog]
    rfl
  · exact fun hne => absurd hidle.empty hne

/-- With nothing held and nothing pinned, a miss makes room first. -/
theorem evict_small (h : Tidy [] n m) (hu : Unpinned m) : m.evict.head.length < evictionThreshold := by
  have hremovable : ∀ q ∈ m.head, m.removable q = true := fun q hq => by
    have ha : (m.heap q).acquired = false := by
      rw [← Bool.not_eq_true]
      exact fun ha => absurd (h.acquired q hq ha) List.not_mem_nil
    simp [Machine.removable, hu q hq, ha]
  have hsmall : m.evict.head.length < evictionThreshold ∨ ∀ q ∈ m.evict.head, m.removable q = false :=
    sweep_small m.head
  rcases hsmall with hlt | hall
  · exact hlt
  · have hempty : m.evict.head = [] := List.eq_nil_iff_forall_not_mem.mpr fun q hq => by
      have := hall q hq
      rw [hremovable q (evict_subset hq)] at this
      cases this
    rw [hempty]
    decide

/-- **The cache stays bounded** in runs whose commits find nothing to write: with no
operation open and no block held nothing is pinned, and the next `cache_acquire` leaves
at most `EVICTION_THRESHOLD` blocks unless it finds its block in a larger cache. -/
theorem cache_bounded (sb : SuperBlock) (arena : Arena) {disk : UInt64 → BlockData} {power : Nat}
    {m0 : Machine} (hboot : (initBcache sb arena).run (boot disk power) = .ok () m0) {s : Client}
    (hreach : Reach (fun s op s' => s.exec sb arena op = some s') CommitsNothing (.start m0) s)
    (hq : s.Quiescent) :
    (∀ p ∈ s.m.head, (s.m.heap p).pinned = false) ∧
    ∀ b, ∃ p m', (cacheAcquire arena b).run s.m = .ok p m' ∧
      (m'.getNumCachedBlocks ≤ evictionThreshold ↔
        s.m.lookup b = none ∨ s.m.getNumCachedBlocks ≤ evictionThreshold) := by
  have htidy : Tidy s.held s.running.length s.m :=
    hreach.invariant (I := fun s => Tidy s.held s.running.length s.m) (tidy_boot hboot)
      fun _ _ _ h hok hs => (Client.exec_step hs).tidy hok h
  rw [hq.held] at htidy
  have hzero : s.m.header.numBlocks = 0 := by
    by_contra hne
    have hout := htidy.outstanding
    have hpos := htidy.entered hne
    rw [hq.outstanding] at hout
    omega
  have hu := htidy.pinned hzero
  refine ⟨hu, fun b => ?_⟩
  rcases cacheAcquire_cases arena b s.m with ⟨p, hl, hrun⟩ | ⟨p, hl, hlock, -⟩ | ⟨hl, p, -, hrun⟩
  · have hp := (Machine.lookup_some hl).1
    have hlen : (s.m.hit p).getNumCachedBlocks = s.m.getNumCachedBlocks := by
      show (p :: s.m.head.erase p).length = s.m.head.length
      rw [List.length_cons, List.length_erase_of_mem hp]
      exact Nat.succ_pred_eq_of_pos (List.length_pos_of_mem hp)
    refine ⟨p, _, hrun, ?_⟩
    rw [hlen, hl]
    simp
  · exact absurd (htidy.locked p (Machine.lookup_some hl).1 hlock) List.not_mem_nil
  · refine ⟨p, _, hrun, ?_⟩
    have hsmall := evict_small htidy hu
    have hlen : (s.m.missed p b).getNumCachedBlocks ≤ evictionThreshold := by
      show (p :: s.m.evict.head).length ≤ _
      rw [List.length_cons]
      omega
    simp [hlen, hl]

/-- An operation that reads twenty blocks. -/
theorem cache_bounded_twenty_reads : ∃ (m0 : Machine) (s : Client),
    (initBcache .mkfs .next).run (boot (fun _ _ => 0) 9) = .ok () m0 ∧
    Reach (fun s op s' => s.exec .mkfs .next op = some s') CommitsNothing (.start m0) s ∧ s.Quiescent ∧
    s.m.getNumCachedBlocks = evictionThreshold ∧ (∀ p ∈ s.m.head, (s.m.heap p).pinned = false) ∧
    ∀ b, ∃ p m', (cacheAcquire .next b).run s.m = .ok p m' ∧
      (m'.getNumCachedBlocks ≤ evictionThreshold ↔
        s.m.lookup b = none ∨ s.m.getNumCachedBlocks ≤ evictionThreshold) := by
  obtain ⟨s, hreach, hs⟩ := Reach.exists_of_any (show
    (runAll (Client.exec .mkfs .next) CommitsNothing (.start booted)
      (.beginOp 0 :: (List.range 20).flatMap (fun i => [.acquire (100 + i.toUInt64), .release (1 + i)]) ++
        [.endOp 0])).any (fun s => decide (s.Quiescent ∧ s.m.getNumCachedBlocks = evictionThreshold)) = true by
      decide +kernel)
  obtain ⟨hq, hlen⟩ := of_decide_eq_true hs
  obtain ⟨hu, hb⟩ := cache_bounded .mkfs .next booted_run hreach hq
  exact ⟨_, s, booted_run, hreach, hq, hlen, hu, hb⟩

/-- A disk on which the bitmap marks blocks 0 to 95 as used and all else is zero. -/
def freshDisk (n : UInt64) : BlockData := fun i => if n = blockSector 91 ∧ i < 12 then 0xff else 0

/-- One operation that allocates seven blocks. -/
def allocSeven : List Op := .beginOp 0 :: List.replicate 7 (.alloc (some 0)) ++ [.endOp 0]

/-- Three operations that allocate seven blocks each leave all of them pinned, and the
cache with more than `EVICTION_THRESHOLD` blocks for good. -/
theorem commit_leaves_pinned : ∃ (m0 : Machine) (s : Client),
    (initBcache .mkfs .next).run (boot freshDisk 99) = .ok () m0 ∧
    Reach (fun s op s' => s.exec .mkfs .next op = some s') (fun _ _ => True) (.start m0) s ∧ s.Quiescent ∧
    (∃ p ∈ s.m.head, (s.m.heap p).pinned = true) ∧
    ∃ p m', (cacheAcquire .next 500).run s.m = .ok p m' ∧ evictionThreshold < m'.getNumCachedBlocks := by
  have hboot := eq_ok_of_returned
    (show returned ((initBcache .mkfs .next).run (boot freshDisk 99)) = true by decide +kernel)
  obtain ⟨s, hreach, hs⟩ := Reach.exists_of_any (show
    (runAll (Client.exec .mkfs .next) (fun _ _ => True)
      (.start (final ((initBcache .mkfs .next).run (boot freshDisk 99))))
      (allocSeven ++ allocSeven ++ allocSeven)).any (fun s =>
        decide (s.Quiescent ∧ s.m.head.any (fun p => (s.m.heap p).pinned) = true ∧
          returned ((cacheAcquire .next 500).run s.m) = true ∧
          evictionThreshold < (final ((cacheAcquire .next 500).run s.m)).getNumCachedBlocks)) = true by
      decide +kernel)
  obtain ⟨hq, hp, hret, hbig⟩ := of_decide_eq_true hs
  refine ⟨_, s, hboot, hreach, hq, List.any_eq_true.mp hp, ?_⟩
  cases hrun : (cacheAcquire .next 500).run s.m with
  | ok p m' =>
    rw [hrun] at hbig
    exact ⟨p, m', rfl, hbig⟩
  | error e m' =>
    rw [hrun] at hret
    cases hret

end OS2021.Fs
