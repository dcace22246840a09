import OS2021.Common.ListNode
import OS2021.Fs.Holders

/-! The order of the cached blocks, down to the pointers of the list.

The cache of `Fs.Cache` keeps the list behind `head` as a Lean list. Here the nodes
are linked by their pointers: `cache_acquire` finds its block by following `next`,
counts the blocks the same way, goes back from `head.prev` to evict, and moves nodes
with `detach_from_list` and `merge_list`. `Lru` runs both side by side and keeps the
time of the last `cache_acquire` of every block number. The pointers always spell
the Lean list, and the list is in the order of those times. -/
namespace OS2021.Fs
open Lib Common Function

/-- The address of a `ListNode`: `&head`, or the node of a block. -/
inductive ListNode where
  | head
  | block (p : Ptr)
  deriving DecidableEq

/-! ### `cache_acquire` on the pointers -/

section Nodes
variable (m : Machine)

/-- The loop that looks for a block number; `none` is a loop that has not ended. -/
def findNode (L : Links ListNode) (b : UInt64) : Nat → ListNode → Option (Option Ptr)
  | 0, _ => none
  | _ + 1, .head => some none
  | fuel + 1, .block p =>
    if (m.heap p).blockNo = b then some (some p) else findNode L b fuel (L.next (.block p))

/-- The loop of `get_num_cached_blocks`. -/
def countNodes (L : Links ListNode) : Nat → ListNode → Option Nat
  | 0, _ => none
  | _ + 1, .head => some 0
  | fuel + 1, .block p => (countNodes L fuel (L.next (.block p))).map (· + 1)

/-- The eviction loop at `q`, with `sz` blocks left. It would follow a `NULL` from
`detach_from_list`. -/
def evictNodes : Nat → Nat → ListNode → Links ListNode → Option (Links ListNode)
  | 0, _, _, _ => none
  | _ + 1, _, .head, L => some L
  | fuel + 1, sz, .block p, L =>
    if evictionThreshold ≤ sz then
      if m.removable p then
        match detachFromList L (.block p) with
        | (some t, L') => evictNodes fuel (sz - 1) t L'
        | (none, _) => none
      else evictNodes fuel sz (L.prev (.block p)) L
    else some L

/-- What a miss does before it asks for an object. -/
def makeRoom (fuel : Nat) (L : Links ListNode) : Option (Links ListNode) := do
  let sz ← countNodes L fuel (L.next .head)
  if evictionThreshold ≤ sz then evictNodes m fuel sz (L.prev .head) L else some L

/-- What `cache_acquire` does to the list; `p` is the object a miss gets from the pool. -/
def acquireNodes (fuel : Nat) (b : UInt64) (p : Ptr) (L : Links ListNode) : Option (Links ListNode) := do
  match ← findNode m L b fuel (L.next .head) with
  | some q => return (mergeList (detachFromList L (.block q)).2 (some .head) (some (.block q))).2
  | none =>
    let L ← makeRoom m fuel L
    return (mergeList (initListNode L (.block p)) (some .head) (some (.block p))).2

end Nodes

/-! ### The cache with its pointers -/

structure Lru where
  m : Machine
  links : Links ListNode
  /-- Calls of `cache_acquire` that have returned so far. -/
  clock : Nat
  /-- When `cache_acquire` was last called for a block number. -/
  last : UInt64 → Nat

namespace Lru

/-- A routine that leaves the list alone. -/
def onMachine {α : Type} (x : M α) : EStateM Halt Lru α := fun s =>
  match x.run s.m with
  | .ok a m => .ok a {s with m}
  | .error e m => .error e {s with m}

section Routines
variable (sb : SuperBlock) (arena : Arena)

/-- Each loop goes round the list at most once. -/
def cacheAcquire (b : UInt64) : EStateM Halt Lru Ptr := do
  let s ← get
  let p ← onMachine (Fs.cacheAcquire arena b)
  match acquireNodes s.m (s.m.head.length + 1) b p s.links with
  | some links =>
    modify fun s => {s with links, clock := s.clock + 1, last := update s.last b (s.clock + 1)}
    return p
  | none => throw .hang

def installBlock (tail : Nat) : EStateM Halt Lru Unit := do
  let lbuf ← cacheAcquire arena (logBlock sb tail)
  let b ← onMachine (headerEntry tail)
  let dbuf ← cacheAcquire arena b
  onMachine (do
    copyData dbuf lbuf
    deviceWrite dbuf
    modify fun m => m.unpin dbuf
    cacheRelease lbuf
    cacheRelease dbuf)

def installTrans : EStateM Halt Lru Unit := do
  let s ← get
  (List.range s.m.header.numBlocks).forM (installBlock sb arena)

def recoverFromLog : EStateM Halt Lru Unit := do
  onMachine (readHeader sb)
  installTrans sb arena
  onMachine (do
    clearHeader
    writeHeader sb)

def initBcache : EStateM Halt Lru Unit := do
  modify fun s => {s with
    m := {s.m with head := [], log := {s.m.log with mu := 0, mx := logMx sb}}
    links := initListNode s.links .head}
  recoverFromLog sb arena

end Routines

/-- A kernel that has just booted; what the fields of the nodes hold does not matter. -/
def boot (disk : UInt64 → BlockData) (power : Nat) (links : Links ListNode) : Lru :=
  ⟨Fs.boot disk power, links, 0, fun _ => 0⟩

inductive Call where
  | acquire (b : UInt64)
  | release (p : Ptr)
  | beginOp (c : Nat)
  | sync (c : Option Nat) (p : Ptr)

def Call.body (arena : Arena) : Call → EStateM Halt Lru Unit
  | .acquire b => discard (cacheAcquire arena b)
  | .release p => onMachine (cacheRelease p)
  | .beginOp c => onMachine (cacheBeginOp c)
  | .sync c p => onMachine (cacheSync c p)

/-- The state after a call that returns. -/
def exec (arena : Arena) (s : Lru) (call : Call) : Option Lru :=
  match (call.body arena).run s with
  | .ok _ s' => some s'
  | .error _ _ => none

/-- A block that is released or synced is still in the list. -/
def InList (s : Lru) : Call → Prop
  | .release p | .sync _ p => p ∈ s.m.head
  | .acquire _ | .beginOp _ => True

instance (s : Lru) : (call : Call) → Decidable (s.InList call)
  | .release _ | .sync _ _ => inferInstanceAs (Decidable (_ ∈ _))
  | .acquire _ | .beginOp _ => isTrue trivial

end Lru

/-! ### The loops, on a list that the pointers spell -/

/-- The nodes of a list of blocks. -/
abbrev nodes (l : List Ptr) : List ListNode := l.map .block

variable {m m' : Machine} {L : Links ListNode} {b : UInt64} {p : Ptr} {l done : List Ptr} {fuel : Nat} {α : Type}

theorem findNode_eq {at_ : ListNode} (h : Path L.next at_ (nodes l) .head) (hfuel : l.length < fuel) :
    findNode m L b fuel at_ = some (l.find? fun p => (m.heap p).blockNo == b) := by
  induction l generalizing at_ fuel with
  | nil =>
    obtain ⟨n, rfl⟩ := Nat.exists_eq_add_one.mpr hfuel
    obtain rfl : at_ = .head := h
    rfl
  | cons p rest ih =>
    obtain ⟨n, rfl⟩ := Nat.exists_eq_add_one.mpr (Nat.zero_lt_of_lt hfuel)
    obtain ⟨rfl, hrest⟩ := h
    rw [findNode, List.find?_cons]
    by_cases hb : (m.heap p).blockNo = b
    · simp [hb]
    · rw [if_neg hb, ih hrest (Nat.lt_of_succ_lt_succ hfuel), beq_false_of_ne hb]

theorem countNodes_eq {at_ : ListNode} (h : Path L.next at_ (nodes l) .head) (hfuel : l.length < fuel) :
    countNodes L fuel at_ = some l.length := by
  induction l generalizing at_ fuel with
  | nil =>
    obtain ⟨n, rfl⟩ := Nat.exists_eq_add_one.mpr hfuel
    obtain rfl : at_ = .head := h
    rfl
  | cons p rest ih =>
    obtain ⟨n, rfl⟩ := Nat.exists_eq_add_one.mpr (Nat.zero_lt_of_lt hfuel)
    obtain ⟨rfl, hrest⟩ := h
    rw [countNodes, ih hrest (Nat.lt_of_succ_lt_succ hfuel)]
    rfl

/-- Where the eviction loop stands with the blocks of `l`, oldest first, before it. -/
def backNode : List Ptr → ListNode
  | [] => .head
  | p :: _ => .block p

/-- Walking back and unlinking nodes while it stands on them, the loop sweeps the list.
The induction is on what lies before it; `done` is what it has left behind it. -/
theorem evictNodes_eq (sz : Nat) (h : Ring L (.head :: nodes (l.reverse ++ done))) (hfuel : l.length < fuel) :
    ∃ L', evictNodes m fuel sz (backNode l) L = some L' ∧
      Ring L' (.head :: nodes ((sweepBack evictionThreshold m.removable sz l).reverse ++ done)) := by
  induction l generalizing L done fuel sz with
  | nil =>
    obtain ⟨n, rfl⟩ := Nat.exists_eq_add_one.mpr hfuel
    exact ⟨L, rfl, h⟩
  | cons p rest ih =>
    obtain ⟨n, rfl⟩ := Nat.exists_eq_add_one.mpr (Nat.zero_lt_of_lt hfuel)
    have hrest : rest.length < n := Nat.lt_of_succ_lt_succ hfuel
    -- the node before `p`
    obtain ⟨front, hfront⟩ : ∃ front, front ++ [backNode rest] = .head :: nodes rest.reverse := by
      cases rest with
      | nil => exact ⟨[], rfl⟩
      | cons q rest => exact ⟨.head :: nodes rest.reverse, by simp [backNode]⟩
    have hring : Ring L (front ++ backNode rest :: .block p :: nodes done) := by
      have hsame : front ++ backNode rest :: .block p :: nodes done =
          .head :: nodes ((p :: rest).reverse ++ done) := by
        calc front ++ backNode rest :: .block p :: nodes done
          _ = (front ++ [backNode rest]) ++ .block p :: nodes done := by simp
          _ = .head :: nodes ((p :: rest).reverse ++ done) := by
            rw [hfront]
            simp
      rw [hsame]
      exact h
    simp only [backNode, evictNodes, sweepBack]
    split
    case isFalse => exact ⟨L, rfl, h⟩
    case isTrue hsz =>
      cases hr : m.removable p with
      | true =>
        have hout : Ring (L.unlink (.block p)) (.head :: nodes (rest.reverse ++ done)) := by
          have hmid : Ring L ((.head :: nodes rest.reverse) ++ .block p :: nodes done) := by
            simpa using h
          simpa using hmid.unlink_middle
        rw [detachFromList_eq hring]
        simpa using ih (sz - 1) hout hrest
      | false =>
        have hprev : L.prev (.block p) = backNode rest := hring.adjacent.2
        have hkeep : Ring L (.head :: nodes (rest.reverse ++ (p :: done))) := by simpa using h
        obtain ⟨L', hrun, hL'⟩ := ih sz hkeep hrest
        refine ⟨L', by simpa [hprev] using hrun, by simpa using hL'⟩

theorem prev_head (h : Ring L (.head :: nodes l)) : L.prev .head = backNode l.reverse := by
  have hlast := h.closes.2
  rw [hlast]
  rcases List.eq_nil_or_concat l with rfl | ⟨front, p, rfl⟩
  · rfl
  · simp [backNode]

theorem ring_evict (h : Ring L (.head :: nodes m.head)) :
    ∃ L', makeRoom m (m.head.length + 1) L = some L' ∧ Ring L' (.head :: nodes m.evict.head) := by
  have hcount : countNodes L (m.head.length + 1) (L.next .head) = some m.head.length :=
    countNodes_eq h.forward (Nat.lt_succ_self _)
  simp only [makeRoom, hcount, Option.bind_eq_bind, Option.bind_some]
  split
  case isFalse hsmall =>
    have hsame : m.evict.head = m.head := by
      show (sweepBack evictionThreshold m.removable m.head.length m.head.reverse).reverse = m.head
      rw [sweepBack_of_lt (not_le.mp hsmall), List.reverse_reverse]
    exact ⟨L, rfl, hsame ▸ h⟩
  case isTrue =>
    have hback : Ring L (.head :: nodes (m.head.reverse.reverse ++ [])) := by simpa using h
    have hfuel : m.head.reverse.length < m.head.length + 1 := by simp
    obtain ⟨L', hrun, hL'⟩ := evictNodes_eq (m := m) m.head.length hback hfuel
    rw [prev_head h]
    exact ⟨L', hrun, by simpa [Machine.evict, sweep] using hL'⟩

/-- A node of the list is moved to its front. -/
theorem ring_touch (h : Ring L (.head :: nodes l)) (hp : p ∈ l) :
    Ring (mergeList (detachFromList L (.block p)).2 (some .head) (some (.block p))).2
      (.head :: nodes (p :: l.erase p)) := by
  obtain ⟨before, behind, hpb, rfl, herase⟩ := List.exists_erase_eq hp
  rw [herase]
  have hmid : Ring L (.head :: (nodes before ++ .block p :: nodes behind)) := by simpa using h
  have hmoved : Ring ((L.unlink (.block p)).join .head (.block p)) _ := hmid.moved
  rw [← List.map_append] at hmoved
  exact hmoved

/-- A block that is not in the list is put at its front. -/
theorem ring_link (h : Ring L (.head :: nodes l)) (hp : p ∉ l) :
    Ring (mergeList (initListNode L (.block p)) (some .head) (some (.block p))).2
      (.head :: nodes (p :: l)) :=
  Ring.inserted h (by simpa using hp)

/-- **The pointers follow the list**: the code on the nodes ends, and what it leaves
spells the list that `Fs.cacheAcquire` leaves. -/
theorem acquireNodes_eq {arena : Arena} (h : Ring L (.head :: nodes m.head))
    (hrun : (cacheAcquire arena b).run m = .ok p m') :
    ∃ L', acquireNodes m (m.head.length + 1) b p L = some L' ∧ Ring L' (.head :: nodes m'.head) := by
  have hfind : findNode m L b (m.head.length + 1) (L.next .head) = some (m.lookup b) :=
    findNode_eq h.forward (Nat.lt_succ_self _)
  rcases cacheAcquire_cases arena b m with ⟨q, hl, hq⟩ | ⟨q, -, -, hq⟩ | ⟨hl, q, hfresh, hq⟩
  all_goals rw [hq] at hrun
  case inl =>
    cases hrun
    rw [hl] at hfind
    exact ⟨_, by rw [acquireNodes, hfind]; rfl, ring_touch h (Machine.lookup_some hl).1⟩
  case inr.inl => cases hrun
  case inr.inr =>
    cases hrun
    rw [hl] at hfind
    obtain ⟨L', hevict, hL'⟩ := ring_evict h
    refine ⟨_, ?_, ring_link hL' hfresh⟩
    simp only [acquireNodes, hfind, hevict, Option.bind_eq_bind, Option.bind_some, Option.pure_def]

/-! ### Routines that leave the list alone -/

instance : Std.Refl SameList := ⟨fun _ => ⟨rfl, fun _ => rfl, rfl⟩⟩

instance : IsTrans Machine SameList :=
  ⟨fun _ _ _ h h' => ⟨h'.head.trans h.head, fun q => (h'.blockNo q).trans (h.blockNo q),
    h'.frees.trans h.frees⟩⟩

theorem headerEntry_sameList (tail : Nat) : Respects SameList (headerEntry tail) := fun m => by
  rw [headerEntry, bind_ok (get_run m)]
  split <;> exact refl_of SameList m

theorem diskWrite_sameList (t : Target) (n : UInt64) (d : BlockData) :
    Respects SameList (diskWrite t n d) := fun m => by
  by_cases hp : m.power = 0
  · rw [diskWrite_offline hp]
    exact refl_of SameList m
  · rw [diskWrite_run hp]
    exact ⟨rfl, fun _ => rfl, rfl⟩

theorem deviceWrite_sameList (p : Ptr) : Respects SameList (deviceWrite p) := fun m => by
  rw [deviceWrite, bind_ok (get_run m)]
  exact diskWrite_sameList _ _ _ m

theorem cacheRelease_sameList (p : Ptr) : Respects SameList (cacheRelease p) :=
  .bind (.modify fun _ => sameList_setBlock fun _ => rfl) fun _ => .modify fun _ => sameList_setBlock fun _ => rfl

theorem cacheBeginOp_sameList (c : Nat) : Respects SameList (cacheBeginOp c) := fun m => by
  rw [cacheBeginOp, bind_ok (get_run m)]
  split
  · exact refl_of SameList m
  · split <;> exact ⟨rfl, fun _ => rfl, rfl⟩

/-- The second half of an iteration of `install_trans`. -/
theorem install_sameList (dbuf lbuf : Ptr) : Respects SameList (do
    copyData dbuf lbuf
    deviceWrite dbuf
    modify fun m => m.unpin dbuf
    cacheRelease lbuf
    cacheRelease dbuf) :=
  .bind (.modify fun _ => sameList_setBlock fun _ => rfl) fun _ =>
    (deviceWrite_sameList dbuf).bind fun _ =>
      .bind (.modify fun _ => sameList_setBlock fun _ => rfl) fun _ =>
        (cacheRelease_sameList lbuf).bind fun _ => cacheRelease_sameList dbuf

theorem clear_sameList (sb : SuperBlock) : Respects SameList (do
    clearHeader
    writeHeader sb) :=
  .bind (.modify fun _ => ⟨rfl, fun _ => rfl, rfl⟩) fun _ m => by
    rw [writeHeader, bind_ok (get_run m)]
    exact diskWrite_sameList _ _ _ m

theorem readHeader_sameList (sb : SuperBlock) : Respects SameList (readHeader sb) :=
  .modify fun _ => ⟨rfl, fun _ => rfl, rfl⟩

/-! ### The order -/

/-- The pointers spell the list, and the list is in the order of the last calls. -/
structure Lru.Ordered (s : Lru) : Prop where
  ring : Ring s.links (.head :: nodes s.m.head)
  ordered : s.m.head.Pairwise fun p q => s.last (s.m.heap q).blockNo < s.last (s.m.heap p).blockNo
  past : ∀ b, s.last b ≤ s.clock

namespace Lru
variable {s s' : Lru} {arena : Arena}

section
variable (h : s.Ordered)
include h

theorem Ordered.nodup : s.m.head.Nodup :=
  (List.nodup_cons.mp h.ring.nodup).2.of_map _

/-- Blocks called for at different times have different numbers. -/
theorem Ordered.numbers : (s.m.head.map fun p => (s.m.heap p).blockNo).Nodup := by
  refine List.pairwise_map.mpr (h.ordered.imp fun {p q} hlt heq => ?_)
  rw [heq] at hlt
  exact Nat.lt_irrefl _ hlt

theorem Ordered.unique {p q : Ptr} (hp : p ∈ s.m.head) (hq : q ∈ s.m.head)
    (he : (s.m.heap p).blockNo = (s.m.heap q).blockNo) : p = q :=
  List.inj_on_of_nodup_map h.numbers hp hq he

theorem Ordered.sameList (hm : SameList s.m m') : Ordered {s with m := m'} where
  ring := by
    rw [hm.head]
    exact h.ring
  ordered := by
    simp only [hm.head, hm.blockNo]
    exact h.ordered
  past := h.past

/-- The latest block comes first; the others, as far as they stay, keep their order. -/
theorem Ordered.fronted {kept : List Ptr} {L : Links ListNode} (hsub : kept.Sublist s.m.head)
    (hring : Ring L (.head :: nodes m'.head)) (hhead : m'.head = p :: kept) (hp : (m'.heap p).blockNo = b)
    (hkept : ∀ q ∈ kept, (m'.heap q).blockNo = (s.m.heap q).blockNo ∧ (s.m.heap q).blockNo ≠ b) :
    Ordered ⟨m', L, s.clock + 1, update s.last b (s.clock + 1)⟩ where
  ring := hring
  ordered := by
    have hold : ∀ q ∈ kept, update s.last b (s.clock + 1) (m'.heap q).blockNo =
        s.last (s.m.heap q).blockNo := fun q hq => by
      rw [(hkept q hq).1, update_of_ne (hkept q hq).2]
    show m'.head.Pairwise _
    rw [hhead, List.pairwise_cons]
    refine ⟨fun q hq => ?_, (h.ordered.sublist hsub).imp_of_mem fun {q r} hq hr hlt => ?_⟩
    · show update s.last b (s.clock + 1) (m'.heap q).blockNo <
        update s.last b (s.clock + 1) (m'.heap p).blockNo
      rw [hold q hq, hp, update_self]
      exact Nat.lt_succ_of_le (h.past _)
    · show update s.last b (s.clock + 1) (m'.heap r).blockNo <
        update s.last b (s.clock + 1) (m'.heap q).blockNo
      rw [hold q hq, hold r hr]
      exact hlt
  past c := by
    show update s.last b (s.clock + 1) c ≤ s.clock + 1
    rw [update_apply]
    split
    · exact le_rfl
    · exact Nat.le_succ_of_le (h.past c)

omit h in
/-- What the calls do to the machine is what they do without the pointers. -/
theorem acquire_machine (hrun : (cacheAcquire arena b).run s = .ok p s') :
    (Fs.cacheAcquire arena b).run s.m = .ok p s'.m := by
  rw [cacheAcquire, bind_ok (get_run s)] at hrun
  obtain ⟨q, t, hq, hrest⟩ := bind_eq_ok hrun
  have hmachine : (Fs.cacheAcquire arena b).run s.m = .ok q t.m := by
    have hq' : onMachine (Fs.cacheAcquire arena b) s = .ok q t := hq
    rw [onMachine] at hq'
    split at hq'
    case h_1 a m hok =>
      cases hq'
      exact hok
    case h_2 => cases hq'
  split at hrest
  case h_1 links hlinks =>
    rw [bind_ok (modify_run _ _)] at hrest
    cases hrest
    exact hmachine
  case h_2 => cases hrest

/-- Where `cache_acquire` returns, its loops over the nodes end, and the order is kept. -/
theorem Ordered.acquire (hrun : (Fs.cacheAcquire arena b).run s.m = .ok p m') :
    ∃ s', (cacheAcquire arena b).run s = .ok p s' ∧ s'.m = m' ∧ s'.Ordered := by
  obtain ⟨L, hnodes, hring⟩ := acquireNodes_eq h.ring hrun
  refine ⟨⟨m', L, s.clock + 1, update s.last b (s.clock + 1)⟩, ?_, rfl, ?_⟩
  · have hmachine : (onMachine (Fs.cacheAcquire arena b)).run s = .ok p {s with m := m'} := by
      show onMachine (Fs.cacheAcquire arena b) s = _
      rw [onMachine, hrun]
    rw [cacheAcquire, bind_ok (get_run s), bind_ok hmachine, hnodes, bind_ok (modify_run _ _), pure_run]
  · rcases cacheAcquire_cases arena b s.m with ⟨q, hl, hq⟩ | ⟨q, -, -, hq⟩ | ⟨hl, q, hfresh, hq⟩
    all_goals rw [hq] at hrun
    case inl =>
      obtain ⟨rfl, rfl⟩ := EStateM.Result.ok.inj hrun
      obtain ⟨hp, hb⟩ := Machine.lookup_some hl
      have hnum : ∀ r, ((s.m.hit q).heap r).blockNo = (s.m.heap r).blockNo := fun r =>
        (sameList_setBlock (m := s.m.touch q) (p := q) (f := fun b => {b with locked := true})
          fun _ => rfl).blockNo r
      refine h.fronted List.erase_sublist hring rfl ((hnum q).trans hb) fun r hr => ⟨hnum r, fun he => ?_⟩
      -- another block of the same number would be the block itself
      obtain rfl := h.unique (List.mem_of_mem_erase hr) hp (he.trans hb.symm)
      exact h.nodup.not_mem_erase hr
    case inr.inl => cases hrun
    case inr.inr =>
      obtain ⟨rfl, rfl⟩ := EStateM.Result.ok.inj hrun
      refine h.fronted (sweep_sublist s.m.head) hring rfl (by rw [missed_self]) fun r hr => ?_
      have hne : r ≠ q := fun he => hfresh (he ▸ hr)
      exact ⟨by rw [missed_of_ne hne], Machine.lookup_none.mp hl r (evict_subset hr)⟩

end

/-! ### The routines with their pointers -/

/-- A result with the pointers is the one without, and a return leaves the order. -/
inductive Matches {α : Type} : EStateM.Result Halt Machine α → EStateM.Result Halt Lru α → Prop
  | ok {a : α} {s : Lru} (h : s.Ordered) : Matches (.ok a s.m) (.ok a s)
  | error {e : Halt} {m : Machine} {s : Lru} : Matches (.error e m) (.error e s)

theorem Matches.ordered {r : EStateM.Result Halt Machine α} {a : α} (h : Matches r (.ok a s)) :
    r = .ok a s.m ∧ s.Ordered := by
  cases h with
  | ok hord => exact ⟨rfl, hord⟩

/-- A routine with the pointers does what the one without does. -/
def Follows {α : Type} (x : EStateM Halt Lru α) (y : M α) : Prop :=
  ∀ s, s.Ordered → Matches (y.run s.m) (x.run s)

theorem Follows.ordered {x : EStateM Halt Lru α} {y : M α} {a : α} (hx : Follows x y) (h : s.Ordered)
    (hrun : x.run s = .ok a s') : y.run s.m = .ok a s'.m ∧ s'.Ordered :=
  Matches.ordered (hrun ▸ hx s h)

theorem Matches.bind {α β : Type} {x : EStateM Halt Lru α} {y : M α} {f : α → EStateM Halt Lru β} {g : α → M β}
    (hx : Matches (y.run m) (x.run s)) (hf : ∀ a, Follows (f a) (g a)) :
    Matches ((y >>= g).run m) ((x >>= f).run s) := by
  generalize hy : y.run m = r at hx
  generalize hs : x.run s = t at hx
  cases hx with
  | ok hord =>
    rw [bind_ok hy, bind_ok hs]
    exact hf _ _ hord
  | error =>
    rw [bind_error hy, bind_error hs]
    exact .error

theorem Follows.bind {α β : Type} {x : EStateM Halt Lru α} {y : M α} {f : α → EStateM Halt Lru β} {g : α → M β}
    (hx : Follows x y) (hf : ∀ a, Follows (f a) (g a)) : Follows (x >>= f) (y >>= g) :=
  fun s h => (hx s h).bind hf

theorem Follows.forM {xs : List Nat} {f : Nat → EStateM Halt Lru Unit} {g : Nat → M Unit}
    (h : ∀ i, Follows (f i) (g i)) : Follows (xs.forM f) (xs.forM g) := by
  induction xs with
  | nil => exact fun _ hord => .ok hord
  | cons x rest ih => exact (h x).bind fun _ => ih

theorem follows_onMachine {x : M α} (hx : ∀ m a m', x.run m = .ok a m' → SameList m m') :
    Follows (onMachine x) x := fun s h => by
  show Matches (x.run s.m) (onMachine x s)
  rw [onMachine]
  split
  case h_1 a m hrun =>
    have hord := h.sameList (hx _ _ _ hrun)
    rw [hrun]
    exact .ok hord
  case h_2 hrun =>
    rw [hrun]
    exact .error

theorem follows_respects {x : M α} (hx : Respects SameList x) : Follows (onMachine x) x :=
  follows_onMachine fun _ _ _ hrun => hx.of_ok hrun

theorem follows_acquire (arena : Arena) (b : UInt64) :
    Follows (cacheAcquire arena b) (Fs.cacheAcquire arena b) := fun s h => by
  cases hrun : (Fs.cacheAcquire arena b).run s.m with
  | ok p m' =>
    obtain ⟨s', hs', rfl, hord⟩ := h.acquire hrun
    rw [hs']
    exact .ok hord
  | error e m' =>
    have hmachine : (onMachine (Fs.cacheAcquire arena b)).run s = .error e {s with m := m'} := by
      show onMachine (Fs.cacheAcquire arena b) s = _
      rw [onMachine, hrun]
    rw [cacheAcquire, bind_ok (get_run s), bind_error hmachine]
    exact .error

/-- The recovery with the pointers is the recovery of `Fs.Log`. -/
theorem follows_recover (sb : SuperBlock) (arena : Arena) :
    Follows (recoverFromLog sb arena) (Fs.recoverFromLog sb arena) := by
  have hblock : ∀ tail, Follows (installBlock sb arena tail) (Fs.installBlock sb arena true tail) := fun tail =>
    (follows_acquire arena _).bind fun lbuf => (follows_respects (headerEntry_sameList tail)).bind fun b =>
      (follows_acquire arena b).bind fun dbuf => follows_respects (install_sameList dbuf lbuf)
  have htrans : Follows (installTrans sb arena) (Fs.installTrans sb arena true) := fun s h => by
    rw [Fs.installTrans, bind_ok (get_run s.m), installTrans, bind_ok (get_run s)]
    exact Follows.forM hblock s h
  exact (follows_respects (readHeader_sameList sb)).bind fun _ => htrans.bind fun _ =>
    follows_respects (clear_sameList sb)

/-- `init_bcache` from a fresh boot, with and without its pointers. -/
theorem follows_initBcache (sb : SuperBlock) (arena : Arena) (disk : UInt64 → BlockData) (power : Nat)
    (links : Links ListNode) : Matches ((Fs.initBcache sb arena).run (Fs.boot disk power))
      ((initBcache sb arena).run (boot disk power links)) := by
  have hstart : Ordered {boot disk power links with
      m := {Fs.boot disk power with head := [], log := {(Fs.boot disk power).log with mu := 0, mx := logMx sb}}
      links := initListNode links .head} :=
    ⟨Ring.alone, List.Pairwise.nil, fun _ => le_rfl⟩
  exact Matches.bind (.ok hstart) fun _ => follows_recover sb arena

/-! ### Runs -/

theorem ordered_call {call : Call} (h : s.Ordered) (hrun : (call.body arena).run s = .ok () s') :
    s'.Ordered := by
  cases call with
  | acquire b =>
    obtain ⟨p, t, hp, hrest⟩ := bind_eq_ok hrun
    cases hrest
    exact ((follows_acquire arena b).ordered h hp).2
  | release p => exact ((follows_respects (cacheRelease_sameList p)).ordered h hrun).2
  | beginOp c => exact ((follows_respects (cacheBeginOp_sameList c)).ordered h hrun).2
  | sync c p => exact ((follows_onMachine fun _ _ _ => sameList_sync).ordered h hrun).2

theorem ordered_exec {call : Call} (h : s.Ordered) (hs : s.exec arena call = some s') : s'.Ordered := by
  rw [exec] at hs
  split at hs
  case h_1 hrun =>
    cases hs
    exact ordered_call h hrun
  case h_2 => cases hs

theorem acquire_found {q : Ptr} (hrun : (cacheAcquire arena b).run s = .ok p s')
    (hl : s.m.lookup b = some q) : p = q ∧ s'.m = s.m.hit q := by
  have hmachine := acquire_machine hrun
  rcases cacheAcquire_cases arena b s.m with ⟨r, hr, hq⟩ | ⟨r, -, -, hq⟩ | ⟨hr, -⟩
  · rw [hl] at hr
    cases hr
    rw [hmachine] at hq
    exact EStateM.Result.ok.inj hq
  · rw [hmachine] at hq
    cases hq
  · rw [hl] at hr
    cases hr

theorem acquire_missing (hrun : (cacheAcquire arena b).run s = .ok p s') (hl : s.m.lookup b = none) :
    p ∉ s.m.evict.head ∧ s'.m = s.m.missed p b := by
  have hmachine := acquire_machine hrun
  rcases cacheAcquire_cases arena b s.m with ⟨r, hr, -⟩ | ⟨r, hr, -⟩ | ⟨-, r, hfresh, hq⟩
  · rw [hl] at hr
    cases hr
  · rw [hl] at hr
    cases hr
  · rw [hmachine] at hq
    obtain ⟨rfl, hm⟩ := EStateM.Result.ok.inj hq
    exact ⟨hfresh, hm⟩

/-- The blocks of the list that the eviction loop passes over. -/
def flagged (s : Lru) : List Ptr :=
  s.m.head.filter fun q => (s.m.heap q).pinned || (s.m.heap q).acquired

theorem removable_eq (q : Ptr) : s.m.removable q = !((s.m.heap q).pinned || (s.m.heap q).acquired) := by
  rw [Machine.removable, Bool.not_or]

/-- After the eviction there is room for one more, or only flagged blocks are left. -/
theorem length_evict (s : Lru) :
    (s.m.evict.head.length < evictionThreshold ∨ ∀ q ∈ s.m.evict.head, s.m.removable q = false) ∧
      s.m.evict.head.length + 1 ≤ max evictionThreshold (1 + s.flagged.length) := by
  have hsmall : s.m.evict.head.length < evictionThreshold ∨ ∀ q ∈ s.m.evict.head, s.m.removable q = false :=
    sweep_small s.m.head
  refine ⟨hsmall, ?_⟩
  rcases hsmall with hlt | hall
  · exact le_max_of_le_left hlt
  · have hsub : s.m.evict.head.Sublist s.flagged := by
      have hfilter : s.m.evict.head.filter
          (fun q => (s.m.heap q).pinned || (s.m.heap q).acquired) = s.m.evict.head := by
        refine List.filter_eq_self.mpr fun q hq => ?_
        have hq' := hall q hq
        rw [removable_eq, Bool.not_eq_false'] at hq'
        exact hq'
      rw [← hfilter]
      exact (sweep_sublist s.m.head).filter _
    have hle := hsub.length_le
    exact le_max_of_le_right (by omega)

/-- **The cache is in LRU order.** In every run of calls that return, from `init_bcache`
on, the pointers spell the list of cached blocks; no number is cached twice; and the
list goes from the block called for last to the one called for longest ago. A call
that finds its block moves it to the front and removes none. A call that misses
removes the blocks that are not spared: those without a flag that the loop, coming
from the old end, meets while at least `EVICTION_THRESHOLD` blocks are left. -/
theorem recency_order (sb : SuperBlock) (arena : Arena) {disk : UInt64 → BlockData} {power : Nat}
    {links : Links ListNode} {s0 : Lru} (hboot : (initBcache sb arena).run (boot disk power links) = .ok () s0)
    (hreach : Reach (fun s call s' => s.exec arena call = some s') InList s0 s) :
    Ring s.links (.head :: nodes s.m.head) ∧
    (s.m.head.map fun p => (s.m.heap p).blockNo).Nodup ∧
    s.m.head.Pairwise (fun p q => s.last (s.m.heap q).blockNo < s.last (s.m.heap p).blockNo) ∧
    (∀ b, (∀ q ∈ s.m.head, (s.m.heap q).blockNo = b → (s.m.heap q).locked = false) →
      ∃ p s', (cacheAcquire arena b).run s = .ok p s') ∧
    ∀ b p s', (cacheAcquire arena b).run s = .ok p s' →
      (∀ q, s.m.lookup b = some q → p = q ∧ s'.m.head = p :: s.m.head.erase p) ∧
      (s.m.lookup b = none → ∃ kept, s'.m.head = p :: kept ∧ p ∉ kept ∧ kept.Sublist s.m.head ∧
        (∀ q ∈ s.m.head, q ∈ kept ↔ s.m.Spared q) ∧
        (kept.length < evictionThreshold ∨ ∀ q ∈ kept, s.m.removable q = false) ∧
        s'.m.head.length ≤ max evictionThreshold (1 + s.flagged.length)) := by
  have hstart := follows_initBcache sb arena disk power links
  rw [hboot] at hstart
  have h : s.Ordered := hreach.invariant (I := Ordered) hstart.ordered.2
    fun _ _ _ hord _ hs => ordered_exec hord hs
  refine ⟨h.ring, h.numbers, h.ordered, fun b hfree => ?_, fun b p s' hrun => ⟨fun q hl => ?_, fun hl => ?_⟩⟩
  · rcases cacheAcquire_cases arena b s.m with ⟨q, -, hq⟩ | ⟨q, hl, hlock, -⟩ | ⟨-, q, -, hq⟩
    · obtain ⟨s', hs', -⟩ := h.acquire hq
      exact ⟨q, s', hs'⟩
    · obtain ⟨hq, hb⟩ := Machine.lookup_some hl
      exact absurd hlock (by rw [hfree q hq hb]; decide)
    · obtain ⟨s', hs', -⟩ := h.acquire hq
      exact ⟨q, s', hs'⟩
  · obtain ⟨rfl, hm⟩ := acquire_found hrun hl
    exact ⟨rfl, by rw [hm]; rfl⟩
  · obtain ⟨hfresh, hm⟩ := acquire_missing hrun hl
    obtain ⟨hsmall, hlen⟩ := length_evict s
    exact ⟨s.m.evict.head, by rw [hm]; rfl, hfresh, sweep_sublist _, fun q hq => spared_iff h.nodup hq, hsmall,
      by rw [hm]; exact hlen⟩

/-- A block is called for and released. -/
def visit (b : UInt64) (p : Ptr) : List Call := [.acquire b, .release p]

/-- Twenty blocks fill the cache; the first is called for again, and a block that is not
cached takes the place of the second. -/
theorem recency_order_full : ∃ s0 s : Lru,
    (initBcache .mkfs .next).run (boot (fun _ _ => 0) 9 ⟨fun _ => .head, fun _ => .head⟩) = .ok () s0 ∧
    Reach (fun s call s' => s.exec .next call = some s') InList s0 s ∧
    (s.m.head.map fun p => (s.m.heap p).blockNo) = 99 :: 0 :: (List.range' 2 18).reverse.map Nat.toUInt64 ∧
    Ring s.links (.head :: nodes s.m.head) ∧
    s.m.head.Pairwise fun p q => s.last (s.m.heap q).blockNo < s.last (s.m.heap p).blockNo := by
  have hboot := eq_ok_of_returned (show returned ((initBcache .mkfs .next).run
    (boot (fun _ _ => 0) 9 ⟨fun _ => .head, fun _ => .head⟩)) = true by decide +kernel)
  obtain ⟨s, hreach, hs⟩ := Reach.exists_of_any (show
    (runAll (exec .next) InList
      (final ((initBcache .mkfs .next).run (boot (fun _ _ => 0) 9 ⟨fun _ => .head, fun _ => .head⟩)))
      ((List.range 20).flatMap (fun i => visit i.toUInt64 (i + 1)) ++ visit 0 1 ++ visit 99 21)).any
        (fun s => decide ((s.m.head.map fun p => (s.m.heap p).blockNo) =
          99 :: 0 :: (List.range' 2 18).reverse.map Nat.toUInt64)) = true by decide +kernel)
  obtain ⟨hring, -, hordered, -⟩ := recency_order .mkfs .next hboot hreach
  exact ⟨_, s, hboot, hreach, of_decide_eq_true hs, hring, hordered⟩

end Lru

end OS2021.Fs
