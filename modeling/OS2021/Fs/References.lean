import Mathlib.Algebra.Ring.Int.Defs
import OS2021.Fs.Tree
import OS2021.Lib.Tally

/-! References to in-memory inodes.

What a caller owns of an inode is a reference, and the inode's count says how many
there are. Most of the inode layer leaves the list, the counts, the numbers and the
locks alone (`SameRefs`); `inode_get`, `inode_share` and `inode_put` change one
count by one (`Moved`), whatever is on the disk. -/
namespace OS2021.Fs
open Lib

variable {sb : SuperBlock} {arena : Arena} {console : Console} {s s' s1 s2 : Volume} {p q : Ptr} {i no : Nat}
  {f : Inode → Inode} {u : Unit}

/-! ### What stays the same -/

/-- What of an in-memory inode has to do with references to it. -/
structure Ref where
  locked : Bool
  rc : Int
  inodeNo : Nat

def Inode.ref (ip : Inode) : Ref := ⟨ip.locked, ip.rc, ip.inodeNo⟩

/-- Nobody has gained or lost a reference or a lock. -/
structure SameRefs (s s' : Volume) : Prop where
  head : s'.head = s.head
  ref : ∀ q, (s'.heap q).ref = (s.heap q).ref

namespace SameRefs

theorem refl (s : Volume) : SameRefs s s := ⟨rfl, fun _ => rfl⟩

theorem trans (h : SameRefs s s1) (h' : SameRefs s1 s2) : SameRefs s s2 :=
  ⟨h'.head.trans h.head, fun q => (h'.ref q).trans (h.ref q)⟩

instance : Std.Refl SameRefs := ⟨refl⟩

instance : IsTrans Volume SameRefs := ⟨fun _ _ _ => trans⟩

theorem locked (h : SameRefs s s') (q : Ptr) : (s'.heap q).locked = (s.heap q).locked := congrArg Ref.locked (h.ref q)

theorem rc (h : SameRefs s s') (q : Ptr) : (s'.heap q).rc = (s.heap q).rc := congrArg Ref.rc (h.ref q)

theorem inodeNo (h : SameRefs s s') (q : Ptr) : (s'.heap q).inodeNo = (s.heap q).inodeNo :=
  congrArg Ref.inodeNo (h.ref q)

theorem live (h : SameRefs s s') : s'.Live q ↔ s.Live q := by rw [Volume.Live, Volume.Live, h.head, h.rc]

theorem setInode (h : (f (s.heap p)).ref = (s.heap p).ref) : SameRefs s (s.setInode p f) :=
  ⟨rfl, fun _ => setInode_field h⟩

end SameRefs

/-- A lock that is taken and given back is as it was. -/
theorem sameRefs_unlocked (hlock : (s.heap p).locked = false)
    (h : SameRefs (s.setInode p fun ip => {ip with locked := true}) s') :
    SameRefs s (s'.setInode p fun ip => {ip with locked := false}) := by
  refine ⟨h.head, fun q => ?_⟩
  by_cases hq : q = p
  · have href := h.ref p
    rw [setInode_self] at href
    rw [hq, setInode_self]
    simp only [Inode.ref, Ref.mk.injEq] at href ⊢
    exact ⟨hlock.symm, href.2⟩
  · rw [setInode_of_ne hq, h.ref, setInode_of_ne hq]

section Respects

theorem sameRefs_assertThat {predicate : String} {c : Prop} [Decidable c] :
    Respects SameRefs (assertThat predicate c) := by
  unfold assertThat
  split
  · exact .pure _
  · exact .throw _

section
variable (p : Ptr)

theorem sameRefs_edit (f : InodeEntry → InodeEntry) :
    Respects SameRefs (modify fun s => s.editEntry p f : V Unit) := .modify fun _ => .setInode rfl

theorem sameRefs_setBlock (f : Volume → Nat × BlockData) :
    Respects SameRefs (modify fun s => s.setBlock (f s).1 (f s).2 : V Unit) := .modify fun _ => ⟨rfl, fun _ => rfl⟩

theorem sameRefs_blockFree (b : Nat) : Respects SameRefs (blockFree sb b) := fun s => by
  rw [blockFree, bind_ok (get_run s)]
  split
  · exact ⟨rfl, fun _ => rfl⟩
  · exact .refl s

theorem sameRefs_blockAlloc : Respects SameRefs (blockAlloc sb) := fun s => by
  rcases blockAlloc_cases sb s with ⟨b, -, -, hrun⟩ | ⟨-, hrun⟩
  · rw [hrun]
    exact ⟨rfl, fun _ => rfl⟩
  · rw [hrun]
    exact .refl s

theorem sameRefs_sync (doWrite : Bool) : Respects SameRefs (inodeSync sb p doWrite) := fun s => by
  rw [inodeSync, bind_ok (get_run s)]
  dsimp only
  split
  · exact ⟨rfl, fun _ => rfl⟩
  · split
    · simp only [set_run, final]
      exact .setInode rfl
    · exact .refl s

theorem sameRefs_clear : Respects SameRefs (inodeClear sb p) := by
  have hdirect : ∀ i, Respects SameRefs (clearDirect sb p i) := fun i s => by
    rw [clearDirect, bind_ok (get_run s)]
    dsimp only
    split
    · exact ((sameRefs_blockFree _).bind fun _ => sameRefs_edit p _) s
    · exact .refl s
  have haddr : ∀ b i, Respects SameRefs (freeAddr sb b i) := fun b i s => by
    rw [freeAddr, bind_ok (get_run s)]
    dsimp only
    split
    · exact sameRefs_blockFree _ s
    · exact .refl s
  have hindirect : Respects SameRefs (clearIndirect sb p) := fun s => by
    rw [clearIndirect, bind_ok (get_run s)]
    dsimp only
    split
    · exact ((Respects.forM _ (haddr _)).bind fun _ => (sameRefs_blockFree _).bind fun _ => sameRefs_edit p _) s
    · exact .refl s
  exact (Respects.forM _ hdirect).bind fun _ => hindirect.bind fun _ => (sameRefs_edit p _).bind fun _ =>
    sameRefs_sync p true

theorem sameRefs_map (offset : Nat) : Respects SameRefs (inodeMap sb p offset) := by
  have hindirect : Respects SameRefs (indirectBlock sb p) := fun s => by
    rw [indirectBlock, bind_ok (get_run s)]
    dsimp only
    split
    · exact (sameRefs_blockAlloc.bind fun _ => (sameRefs_edit p _).bind fun _ => .pure _) s
    · exact .refl s
  intro s
  rw [inodeMap, bind_ok (get_run s)]
  split
  · dsimp only
    split
    · exact (sameRefs_blockAlloc.bind fun _ => (sameRefs_edit p _).bind fun _ => .pure _) s
    · exact .refl s
  · split
    · refine (hindirect.bind fun bp s => ?_) s
      rw [bind_ok (get_run s)]
      dsimp only
      split
      · exact (sameRefs_blockAlloc.bind fun _ => (sameRefs_setBlock fun s => (bp, _)).bind fun _ => .pure _) s
      · exact .refl s
    · exact .refl s

/-- The console gives the lock back and takes it again. -/
theorem sameRefs_relock {α : Type} (a : α) :
    Respects SameRefs (do inodeUnlock p; inodeLock p; return a : V α) := fun s => by
  by_cases hlock : (s.heap p).locked = true
  · by_cases hrc : 0 < (s.heap p).rc
    · rw [bind_ok (inodeUnlock_run hrc hlock),
        bind_ok (inodeLock_run (by rwa [setInode_self]) (by rw [setInode_self])),
        pure_run, setInode_setInode]
      show SameRefs s (s.setInode p fun ip => {ip with locked := true})
      refine .setInode ?_
      rw [← hlock]
    · rw [inodeUnlock, bind_error]
      · exact .refl s
      · rw [bind_ok (get_run s), bind_ok (assertThat_run hlock), bind_error (assertThat_fails hrc)]
  · rw [inodeUnlock, bind_error]
    · exact .refl s
    · rw [bind_ok (get_run s), bind_error (assertThat_fails hlock)]

theorem sameRefs_readLoop (fuel offset count : Nat) : Respects SameRefs (readLoop sb p fuel offset count) := by
  induction fuel generalizing offset count with
  | zero =>
    unfold readLoop
    split
    · exact .pure _
    · exact .throw _
  | succ fuel ih =>
    unfold readLoop
    split
    · exact .pure _
    · refine (sameRefs_map p _).bind fun b s => ?_
      rw [bind_ok (get_run s)]
      exact ((ih _ _).bind fun _ => .pure _) s

theorem sameRefs_read (offset count : Nat) : Respects SameRefs (inodeRead sb console p offset count) :=
  fun s => by
  rw [inodeRead, bind_ok (get_run s)]
  dsimp only
  split
  · exact (sameRefs_assertThat.bind fun _ => sameRefs_relock p _) s
  · exact (sameRefs_assertThat.bind fun _ => sameRefs_assertThat.bind fun _ => sameRefs_assertThat.bind fun _ =>
      (sameRefs_readLoop p _ _ _).bind fun _ => .pure _) s

end

theorem sameRefs_lookup (de : List UInt8) (p : Ptr) (name : List UInt8) :
    Respects SameRefs (inodeLookup sb console de p name) := by
  have hfrom : ∀ offsets de, Respects SameRefs (lookupFrom sb console p name offsets de) := by
    intro offsets
    induction offsets with
    | nil => exact fun _ => .pure _
    | cons off rest ih =>
      intro de
      refine ((sameRefs_read p off _).bind fun _ => .pure _).bind fun de' => ?_
      split
      · exact ih de'
      · split
        · exact .pure _
        · exact ih de'
  intro s
  rw [inodeLookup, bind_ok (get_run s)]
  exact (sameRefs_assertThat.bind fun _ => hfrom _ de) s

theorem sameRefs_writeLoop (p : Ptr) (fuel offset : Nat) (src : List UInt8) :
    Respects SameRefs (writeLoop sb p fuel offset src) := by
  induction fuel generalizing offset src with
  | zero =>
    unfold writeLoop
    split
    · exact .pure _
    · exact .throw _
  | succ fuel ih =>
    unfold writeLoop
    split
    · exact .pure _
    · exact (sameRefs_map p _).bind fun b => (sameRefs_setBlock fun s => (b.1, _)).bind fun _ => ih _ _

theorem sameRefs_write (p : Ptr) (src : List UInt8) (offset : Nat) :
    Respects SameRefs (inodeWrite sb p src offset) := fun s => by
  rw [inodeWrite]
  dsimp only
  rw [bind_ok (get_run s)]
  split
  · exact (sameRefs_assertThat.bind fun _ => sameRefs_relock p _) s
  · refine (sameRefs_assertThat.bind fun _ => sameRefs_assertThat.bind fun _ => sameRefs_assertThat.bind fun _ =>
      (sameRefs_writeLoop p _ _ _).bind fun stop s => ?_) s
    rw [bind_ok (get_run s)]
    split
    · exact ((sameRefs_edit p _).bind fun _ => (sameRefs_sync p true).bind fun _ => .pure _) s
    · exact .refl s

theorem sameRefs_insert (de de' : List UInt8) (p : Ptr) (name : List UInt8) (no : Nat) :
    Respects SameRefs (inodeInsert sb console de de' p name no) := by
  have hfree : ∀ stop offsets de, Respects SameRefs (freeDirent sb console p stop offsets de) := by
    intro stop offsets
    induction offsets with
    | nil => exact fun _ => .pure _
    | cons off rest ih =>
      intro de
      refine ((sameRefs_read p off _).bind fun _ => .pure _).bind fun de' => ?_
      split
      · exact .pure _
      · exact ih de'
  intro s
  rw [inodeInsert, bind_ok (get_run s)]
  refine (sameRefs_assertThat.bind fun _ => (sameRefs_lookup _ p name).bind fun found => ?_) s
  split
  · exact .pure _
  · exact (hfree _ _ _).bind fun _ => (sameRefs_write p _ _).bind fun _ => .pure _

theorem sameRefs_alloc (type : InodeType) : Respects SameRefs (inodeAlloc sb type) := by
  have hfrom : ∀ inums, Respects SameRefs (inodeAllocFrom sb type inums) := by
    intro inums
    induction inums with
    | nil =>
      unfold inodeAllocFrom
      split
      · exact .throw _
      · exact .throw _
    | cons inum rest ih =>
      intro s
      rw [inodeAllocFrom, bind_ok (get_run s)]
      dsimp only
      split
      · exact ⟨rfl, fun _ => rfl⟩
      · exact ih s
  exact sameRefs_assertThat.bind fun _ => hfrom _

end Respects

/-! ### Counts -/

/-- What an in-memory inode contributes to the count of inode `i`. -/
def Inode.held (ip : Inode) (i : Nat) : Int := if ip.inodeNo = i then ip.rc else 0

/-- How many references to inode `i` there are. -/
def Volume.count (s : Volume) (i : Nat) : Int := total (fun p => (s.heap p).held i) s.head

/-- The inodes whose locks are held. -/
def Volume.locks (s : Volume) : Set Ptr := {p | p ∈ s.head ∧ (s.heap p).locked = true}

/-- The list of in-memory inodes: no count is negative, and at most one inode a number is live. -/
structure Counted (s : Volume) : Prop where
  nodup : s.head.Nodup
  nonneg : ∀ p ∈ s.head, 0 ≤ (s.heap p).rc
  unique : ∀ p q, s.Live p → s.Live q → (s.heap p).inodeNo = (s.heap q).inodeNo → p = q

/-- The count of inode `i` is kept in the live in-memory inode for it. -/
theorem Counted.count (h : Counted s) (hp : s.Live p) : s.count (s.heap p).inodeNo = (s.heap p).rc := by
  have hothers : ∀ q ∈ s.head, q ≠ p → (s.heap q).held (s.heap p).inodeNo = 0 := by
    intro q hq hne
    unfold Inode.held
    split
    case isFalse => rfl
    case isTrue hno =>
      by_contra hrc
      have hlive : s.Live q := ⟨hq, lt_of_le_of_ne (h.nonneg q hq) (Ne.symm hrc)⟩
      exact hne (h.unique q p hlive hp hno)
  rw [Volume.count, total_eq_single h.nodup hp.1 hothers]
  exact if_pos rfl

theorem SameRefs.held (h : SameRefs s s') (q : Ptr) : (s'.heap q).held i = (s.heap q).held i := by
  rw [Inode.held, Inode.held, h.rc, h.inodeNo]

/-- References have been gained and lost: `d i` of inode `i`. -/
structure Moved (d : Nat → Int) (s s' : Volume) : Prop where
  counted : Counted s'
  count : ∀ i, s'.count i = s.count i + d i

theorem SameRefs.moved (h : SameRefs s s') (hs : Counted s) : Moved 0 s s' := by
  refine ⟨⟨?nodup, ?nonneg, ?unique⟩, fun i => ?count⟩
  case nodup =>
    rw [h.head]
    exact hs.nodup
  case nonneg =>
    intro q hq
    rw [h.rc]
    exact hs.nonneg q (h.head ▸ hq)
  case unique =>
    intro q r hq hr hno
    rw [h.inodeNo, h.inodeNo] at hno
    exact hs.unique q r (h.live.mp hq) (h.live.mp hr) hno
  case count =>
    rw [Volume.count, Volume.count, h.head, total_congr fun q _ => h.held q]
    exact (add_zero _).symm

theorem SameRefs.locks (h : SameRefs s s') : s'.locks = s.locks := by
  ext q
  show q ∈ s'.head ∧ (s'.heap q).locked = true ↔ q ∈ s.head ∧ (s.heap q).locked = true
  rw [h.head, h.locked]

theorem Moved.trans {d d' : Nat → Int} (h : Moved d s s1) (h' : Moved d' s1 s2) : Moved (d + d') s s2 := by
  refine ⟨h'.counted, fun i => ?_⟩
  rw [h'.count, h.count, Pi.add_apply, add_assoc]

/-! ### One in-memory inode changes -/

/-- Inodes other than `p` are as they were; `p` is linked, or it counts for nothing. -/
theorem Counted.of_others (h : Counted s) (hnodup : s'.head.Nodup) (hhead : ∀ q ≠ p, q ∈ s'.head → q ∈ s.head)
    (hothers : ∀ q ≠ p, (s'.heap q).rc = (s.heap q).rc ∧ (s'.heap q).inodeNo = (s.heap q).inodeNo)
    (hrc : p ∈ s'.head → 0 ≤ (s'.heap p).rc)
    (hlive : s'.Live p → ∀ q ≠ p, s.Live q → (s.heap q).inodeNo ≠ (s'.heap p).inodeNo) : Counted s' := by
  have hback : ∀ q ≠ p, s'.Live q → s.Live q := by
    intro q hne hq
    exact ⟨hhead q hne hq.1, (hothers q hne).1 ▸ hq.2⟩
  refine ⟨hnodup, fun q hq => ?nonneg, fun q r hq hr hno => ?unique⟩
  case nonneg =>
    by_cases hqp : q = p
    · exact hqp ▸ hrc (hqp ▸ hq)
    · rw [(hothers q hqp).1]
      exact h.nonneg q (hhead q hqp hq)
  case unique =>
    by_cases hqp : q = p
    · by_cases hrp : r = p
      · rw [hqp, hrp]
      · rw [hqp, (hothers r hrp).2] at hno
        exact absurd hno.symm (hlive (hqp ▸ hq) r hrp (hback r hrp hr))
    · by_cases hrp : r = p
      · rw [hrp, (hothers q hqp).2] at hno
        exact absurd hno (hlive (hrp ▸ hr) q hqp (hback q hqp hq))
      · rw [(hothers q hqp).2, (hothers r hrp).2] at hno
        exact h.unique q r (hback q hqp hq) (hback r hrp hr) hno

theorem count_setInode (hnodup : s.head.Nodup) (hp : p ∈ s.head) (f : Inode → Inode) :
    (s.setInode p f).count i + (s.heap p).held i = s.count i + (f (s.heap p)).held i := by
  have hchange := total_change (f := fun q => (s.heap q).held i) (g := fun q => ((s.setInode p f).heap q).held i)
    hnodup hp fun q _ hne => by rw [setInode_of_ne hne]
  rw [setInode_self] at hchange
  exact hchange

/-- A live inode's count changes, not to below zero. -/
theorem Counted.recount (h : Counted s) (hp : s.Live p) {n : Int} (hno : (f (s.heap p)).inodeNo = (s.heap p).inodeNo)
    (hrc : (f (s.heap p)).rc = (s.heap p).rc + n) (hn : 0 ≤ (s.heap p).rc + n) :
    Moved (Pi.single (s.heap p).inodeNo n) s (s.setInode p f) := by
  constructor
  case counted =>
    refine h.of_others (p := p) h.nodup (fun q _ hq => hq) (fun q hne => by simp [setInode_of_ne hne]) ?_ ?_
    · intro _
      rwa [setInode_self, hrc]
    · intro _ q hne hq hsame
      rw [setInode_self, hno] at hsame
      exact hne (h.unique q p hq hp hsame)
  case count =>
    intro i
    have hcount := count_setInode (i := i) h.nodup hp.1 f
    simp only [Inode.held, hno, hrc] at hcount
    by_cases hi : (s.heap p).inodeNo = i
    · rw [if_pos hi, if_pos hi] at hcount
      rw [← hi] at hcount ⊢
      rw [Pi.single_eq_same]
      omega
    · rw [if_neg hi, if_neg hi] at hcount
      rw [Pi.single_eq_of_ne (Ne.symm hi)]
      omega

/-- An inode that nobody references is claimed for a number that nobody has. -/
theorem Counted.claim (h : Counted s) (hp : p ∈ s.head) (hfree : (s.heap p).rc = 0)
    (hnone : ∀ q ≠ p, s.Live q → (s.heap q).inodeNo ≠ no) (hno : (f (s.heap p)).inodeNo = no)
    (hrc : (f (s.heap p)).rc = 1) : Moved (Pi.single no 1) s (s.setInode p f) := by
  constructor
  case counted =>
    refine h.of_others (p := p) h.nodup (fun q _ hq => hq) (fun q hne => by simp [setInode_of_ne hne]) ?_ ?_
    · intro _
      rw [setInode_self, hrc]
      decide
    · intro _ q hne hq
      rw [setInode_self, hno]
      exact hnone q hne hq
  case count =>
    intro i
    have hcount := count_setInode (i := i) h.nodup hp f
    simp only [Inode.held, hno, hrc, hfree, ite_self, Int.add_zero] at hcount
    by_cases hi : no = i
    · rw [hcount, if_pos hi, ← hi, Pi.single_eq_same]
    · rw [hcount, if_neg hi, Pi.single_eq_of_ne (Ne.symm hi)]

theorem live_setInode (h : (f (s.heap p)).rc = (s.heap p).rc) : (s.setInode p f).Live q ↔ s.Live q := by
  show q ∈ s.head ∧ _ ↔ q ∈ s.head ∧ _
  rw [setInode_field h]

theorem inodeNo_setInode (h : (f (s.heap p)).inodeNo = (s.heap p).inodeNo) (q : Ptr) :
    ((s.setInode p f).heap q).inodeNo = (s.heap q).inodeNo := setInode_field h

theorem locks_setInode (h : (f (s.heap p)).locked = (s.heap p).locked) : (s.setInode p f).locks = s.locks := by
  ext q
  show q ∈ s.head ∧ _ ↔ q ∈ s.head ∧ _
  rw [setInode_field h]

theorem locks_lock : (s.setInode p fun ip => {ip with locked := true}).locks ⊆ insert p s.locks := by
  intro q hq
  by_cases he : q = p
  · exact Or.inl he
  · have hlock := hq.2
    rw [setInode_of_ne he] at hlock
    exact Or.inr ⟨hq.1, hlock⟩

theorem locks_unlock : (s.setInode p fun ip => {ip with locked := false}).locks ⊆ s.locks \ {p} := by
  intro q hq
  have hlock := hq.2
  by_cases he : q = p
  · rw [he, setInode_self] at hlock
    cases hlock
  · rw [setInode_of_ne he] at hlock
    exact ⟨⟨hq.1, hlock⟩, he⟩

/-- Locks do not count. -/
theorem Counted.relock (h : Counted s) (hp : s.Live p) (l : Bool) :
    Moved 0 s (s.setInode p fun ip => {ip with locked := l}) := by
  have hrc := hp.2
  have hmoved := h.recount (n := 0) hp (f := fun ip => {ip with locked := l}) rfl (Int.add_zero _).symm (by omega)
  rwa [Pi.single_zero] at hmoved

/-! ### `inode_get`, `inode_share` and `inode_put` -/

/-- What `inode_alloc` has done when it returns. -/
theorem inodeAllocFrom_ok {type : InodeType} {inums : List Nat}
    (h : (inodeAllocFrom sb type inums).run s = .ok i s') :
    (s.diskEntry sb i).type = inodeInvalid ∧ s' = s.storeEntry sb i {InodeEntry.zero with type} := by
  induction inums with
  | nil =>
    rw [inodeAllocFrom] at h
    split at h
    · cases h
    · cases h
  | cons inum rest ih =>
    rw [inodeAllocFrom, bind_ok (get_run s)] at h
    dsimp only at h
    split at h
    case isTrue hfree =>
      cases h
      exact ⟨hfree, rfl⟩
    case isFalse => exact ih h

theorem inodeAlloc_ok {type : InodeType} (h : (inodeAlloc sb type).run s = .ok i s') :
    (s.diskEntry sb i).type = inodeInvalid ∧ s' = s.storeEntry sb i {InodeEntry.zero with type} := by
  rw [inodeAlloc] at h
  obtain ⟨_, s1, h1, hloop⟩ := bind_eq_ok h
  obtain ⟨rfl, -⟩ := assertThat_ok h1
  exact inodeAllocFrom_ok hloop

theorem inodeLock_ok (h : (inodeLock p).run s = .ok u s') : 0 < (s.heap p).rc ∧
    (s.heap p).locked = false ∧ s' = s.setInode p fun ip => {ip with locked := true} := by
  rw [inodeLock, bind_ok (get_run s)] at h
  obtain ⟨_, s1, h1, h⟩ := bind_eq_ok h
  obtain ⟨rfl, hrc⟩ := assertThat_ok h1
  cases hlock : (s1.heap p).locked with
  | true =>
    rw [hlock] at h
    cases h
  | false =>
    rw [hlock] at h
    cases h
    exact ⟨hrc, rfl, rfl⟩

theorem inodeUnlock_ok (h : (inodeUnlock p).run s = .ok u s') : 0 < (s.heap p).rc ∧
    (s.heap p).locked = true ∧ s' = s.setInode p fun ip => {ip with locked := false} := by
  rw [inodeUnlock, bind_ok (get_run s)] at h
  obtain ⟨_, s1, h1, h⟩ := bind_eq_ok h
  obtain ⟨rfl, hlock⟩ := assertThat_ok h1
  obtain ⟨_, s2, h2, h⟩ := bind_eq_ok h
  obtain ⟨rfl, hrc⟩ := assertThat_ok h2
  cases h
  exact ⟨hrc, hlock, rfl⟩

theorem slotFor_blocks : (s.slotFor arena).2.blocks = s.blocks := by
  rcases slotFor_cases arena s with ⟨q, -, -, hslot⟩ | ⟨q, -, hslot⟩
  · rw [hslot]
  · rw [hslot]
    rfl

/-- What `inode_get` has done when it returns. -/
theorem inodeGet_ok (h : (inodeGet sb arena no).run s = .ok p s') : 0 < no ∧ no < sb.numInodes.toNat ∧
    ((s.Live p ∧ (s.heap p).inodeNo = no ∧ s' = s.setInode p fun ip => {ip with rc := ip.rc + 1}) ∨
      (∀ q, s.Live q → (s.heap q).inodeNo ≠ no) ∧ p = (s.slotFor arena).1 ∧
        ((s.slotFor arena).2.heap p).locked = false ∧ s' = (s.slotFor arena).2.setInode p fun ip =>
          ⟨false, ip.rc + 1, no, true, s.diskEntry sb no⟩) := by
  rw [inodeGet] at h
  obtain ⟨_, s1, h1, hrest⟩ := bind_eq_ok h
  obtain ⟨rfl, hpos⟩ := assertThat_ok h1
  obtain ⟨_, s2, h2, hget⟩ := bind_eq_ok hrest
  obtain ⟨rfl, hlt⟩ := assertThat_ok h2
  clear h hrest
  refine ⟨hpos, hlt, ?_⟩
  rw [bind_ok (get_run s2)] at hget
  cases hfind : s2.head.find? fun p => 0 < (s2.heap p).rc && (s2.heap p).inodeNo == no with
  | some q =>
    left
    rw [hfind] at hget
    cases hget
    have htest := List.find?_some hfind
    simp only [Bool.and_eq_true, decide_eq_true_eq, beq_iff_eq] at htest
    exact ⟨⟨List.mem_of_find?_eq_some hfind, htest.1⟩, htest.2, rfl⟩
  | none =>
    right
    rw [hfind] at hget
    dsimp only at hget
    rw [bind_ok (set_run _ _)] at hget
    obtain ⟨_, s3, h3, -⟩ := bind_eq_ok hget
    obtain ⟨hrc, hlock, -⟩ := inodeLock_ok h3
    rw [inodeGet_load hrc hlock (by rw [setInode_self]), setInode_setInode] at hget
    cases hget
    rw [setInode_self] at hlock
    refine ⟨fun q hq hno => ?_, rfl, hlock, ?_⟩
    · have hnone := List.find?_eq_none.mp hfind q hq.1
      simp [hq.2, hno] at hnone
    · have hdisk : s2.diskEntry sb no = getEntry ((s2.slotFor arena).2.blocks (toBlockNo sb no)) no := by
        rw [slotFor_blocks]
        rfl
      rw [hdisk]
      rfl

/-- What `inode_put` has done when it returns: the last reference to an inode without
links takes the inode out of the list. -/
theorem inodePut_ok (h : (inodePut sb p).run s = .ok u s') :
    (((s.heap p).rc = 1 ∧ (s.heap p).valid = true ∧ (s.heap p).entry.numLinks = 0) ∧
      ∃ s1, SameRefs s s1 ∧ s' = s1.unlink p) ∨
    ¬ ((s.heap p).rc = 1 ∧ (s.heap p).valid = true ∧ (s.heap p).entry.numLinks = 0) ∧
      s' = s.setInode p fun ip => {ip with rc := ip.rc - 1} := by
  rw [inodePut, bind_ok (get_run s)] at h
  dsimp only at h
  by_cases hlast : (s.heap p).rc = 1 ∧ (s.heap p).valid = true ∧ (s.heap p).entry.numLinks = 0
  · left
    rw [if_pos hlast] at h
    obtain ⟨_, s1, h1, h⟩ := bind_eq_ok h
    obtain ⟨-, hlock, rfl⟩ := inodeLock_ok h1
    obtain ⟨_, s2, h2, h⟩ := bind_eq_ok h
    obtain ⟨_, s3, h3, h⟩ := bind_eq_ok h
    obtain ⟨_, s4, h4, h⟩ := bind_eq_ok h
    obtain ⟨_, s5, h5, h⟩ := bind_eq_ok h
    obtain ⟨_, s6, h6, h⟩ := bind_eq_ok h
    obtain ⟨-, -, rfl⟩ := inodeUnlock_ok h6
    cases h5
    cases h
    have hsame := (((sameRefs_clear p).of_ok h2).trans ((sameRefs_edit p _).of_ok h3)).trans
      ((sameRefs_sync p true).of_ok h4)
    exact ⟨hlast, _, sameRefs_unlocked hlock (hsame.trans (.setInode rfl)), rfl⟩
  · right
    rw [if_neg hlast] at h
    cases h
    exact ⟨hlast, rfl⟩

/-! ### How references move -/

section Moves
variable (hs : Counted s)
include hs

omit hs in
/-- One more reference to an inode. -/
theorem share_others (hp : s.Live p) : ∀ q, s.Live q → (s.setInode p fun ip => {ip with rc := ip.rc + 1}).Live q ∧
    ((s.setInode p fun ip => {ip with rc := ip.rc + 1}).heap q).inodeNo = (s.heap q).inodeNo ∧
    ((s.setInode p fun ip => {ip with rc := ip.rc + 1}).heap q).rc = (s.heap q).rc + if q = p then 1 else 0 := by
  intro q hq
  have hrc := hp.2
  by_cases he : q = p
  · rw [he, Volume.Live, if_pos rfl, setInode_self]
    dsimp only
    exact ⟨⟨hp.1, by omega⟩, rfl, rfl⟩
  · rw [Volume.Live, if_neg he, setInode_of_ne he, Int.add_zero]
    exact ⟨hq, rfl, rfl⟩

theorem inodeShare_moved (hp : s.Live p) (h : (inodeShare p).run s = .ok q s') :
    q = p ∧ Moved (Pi.single (s.heap p).inodeNo 1) s s' ∧ s'.locks = s.locks ∧ s'.Live p ∧
      (s'.heap p).inodeNo = (s.heap p).inodeNo ∧
      ∀ r, s.Live r → s'.Live r ∧ (s'.heap r).inodeNo = (s.heap r).inodeNo ∧
        (s'.heap r).rc = (s.heap r).rc + if r = p then 1 else 0 := by
  have hrc := hp.2
  cases h
  have hothers := share_others hp
  obtain ⟨hlive, hno, -⟩ := hothers p hp
  exact ⟨rfl, hs.recount hp rfl rfl (by omega), locks_setInode rfl, hlive, hno, hothers⟩

/-- The in-memory inode that `inode_get` takes counts for nothing. -/
theorem slotFor_moved (arena : Arena) (hp : p = (s.slotFor arena).1) :
    Moved 0 s (s.slotFor arena).2 ∧ p ∈ (s.slotFor arena).2.head ∧ ((s.slotFor arena).2.heap p).rc = 0 ∧ ¬ s.Live p ∧
      (∀ q ≠ p, (s.slotFor arena).2.heap q = s.heap q) ∧ (∀ q ≠ p, q ∈ (s.slotFor arena).2.head ↔ q ∈ s.head) := by
  rcases slotFor_cases arena s with ⟨p', hmem, hrc, hslot⟩ | ⟨p', hfresh, hslot⟩
  · rw [hslot] at hp ⊢
    subst hp
    exact ⟨SameRefs.moved (.refl s) hs, hmem, hrc, fun hp => hp.2.ne' hrc, fun _ _ => rfl, fun _ _ => Iff.rfl⟩
  · rw [hslot] at hp ⊢
    subst hp
    have hothers : ∀ q ≠ p, (s.setInode p fun ip => ⟨false, 0, 0, false, ip.entry⟩).heap q = s.heap q :=
      fun q hne => setInode_of_ne hne
    have hself : (s.setInode p fun ip => ⟨false, 0, 0, false, ip.entry⟩).heap p =
        ⟨false, 0, 0, false, (s.heap p).entry⟩ := setInode_self
    refine ⟨⟨?counted, fun i => ?count⟩, List.mem_cons_self, congrArg Inode.rc hself,
      fun hp => hfresh hp.1, hothers, fun q hne => ?_⟩
    case counted =>
      refine hs.of_others (List.nodup_cons.mpr ⟨hfresh, hs.nodup⟩) (fun q hne hq => List.mem_of_ne_of_mem hne hq)
        (fun q hne => ?_) (fun _ => (congrArg Inode.rc hself).ge) fun hlive => ?_
      · exact ⟨congrArg Inode.rc (hothers q hne), congrArg Inode.inodeNo (hothers q hne)⟩
      · exact absurd (congrArg Inode.rc hself) hlive.2.ne'
    case count =>
      have hheld : ∀ q ∈ s.head, ((s.setInode p fun ip => ⟨false, 0, 0, false, ip.entry⟩).heap q).held i =
          (s.heap q).held i := fun q hq => by rw [hothers q fun he => hfresh (he ▸ hq)]
      have hzero : ((s.setInode p fun ip => ⟨false, 0, 0, false, ip.entry⟩).heap p).held i = 0 := by
        rw [hself, Inode.held, ite_self]
      show total _ (p :: s.head) = _
      rw [total_cons, total_congr hheld, Pi.zero_apply, add_zero, hzero, zero_add]
      rfl
    · simp [hne]

/-- `inode_get` gives one reference. -/
theorem inodeGet_moved (h : (inodeGet sb arena no).run s = .ok p s') :
    Moved (Pi.single no 1) s s' ∧ s'.locks ⊆ s.locks ∧ s'.Live p ∧ (s'.heap p).inodeNo = no ∧
      ∀ q, s.Live q → s'.Live q ∧ (s'.heap q).inodeNo = (s.heap q).inodeNo ∧
        (s'.heap q).rc = (s.heap q).rc + if q = p then 1 else 0 := by
  obtain ⟨-, -, ⟨hp, hno, rfl⟩ | ⟨hnone, hslot, hlock, rfl⟩⟩ := inodeGet_ok h
  · have hrc := hp.2
    have hothers := share_others hp
    obtain ⟨hlive, hnew, -⟩ := hothers p hp
    exact ⟨hno ▸ hs.recount hp rfl rfl (by omega), (locks_setInode rfl).le, hlive, hnew.trans hno, hothers⟩
  · obtain ⟨hmoved, hmem, hrc, hp, hothers, hhead⟩ := slotFor_moved hs arena hslot
    generalize (s.slotFor arena).2 = s1 at *
    have hback : ∀ q ≠ p, s1.Live q ↔ s.Live q := fun q hne => by
      rw [Volume.Live, Volume.Live, hhead q hne, hothers q hne]
    have hclaim : Moved (Pi.single no 1) s1 _ := hmoved.counted.claim (f := fun ip =>
        ⟨false, ip.rc + 1, no, true, s.diskEntry sb no⟩) hmem hrc (fun q hne hq => ?fresh) rfl (by rw [hrc]; rfl)
    case fresh =>
      rw [hothers q hne]
      exact hnone q ((hback q hne).mp hq)
    refine ⟨?moved, ?locks, ⟨hmem, ?_⟩, ?_, fun q hq => ?_⟩
    case moved =>
      have := hmoved.trans hclaim
      rwa [zero_add] at this
    case locks =>
      intro q hq
      by_cases he : q = p
      · have hlocked := hq.2
        rw [he, setInode_self] at hlocked
        cases hlocked
      · have hlocked := hq.2
        rw [setInode_of_ne he, hothers q he] at hlocked
        exact ⟨(hhead q he).mp hq.1, hlocked⟩
    · rw [setInode_self]
      show 0 < _ + 1
      rw [hrc]
      decide
    · rw [setInode_self]
    · have he : q ≠ p := fun he => hp (he ▸ hq)
      have hq1 := (hback q he).mpr hq
      rw [if_neg he, setInode_of_ne he, hothers q he, Int.add_zero]
      refine ⟨⟨hq1.1, ?_⟩, rfl, rfl⟩
      rw [setInode_of_ne he]
      exact hq1.2

/-- `inode_put` takes one away. -/
theorem inodePut_moved (hp : s.Live p) (h : (inodePut sb p).run s = .ok u s') :
    Moved (Pi.single (s.heap p).inodeNo (-1)) s s' ∧ s'.locks ⊆ s.locks ∧
      ∀ q, s.Live q → (q = p → 1 < (s.heap p).rc) → s'.Live q ∧ (s'.heap q).inodeNo = (s.heap q).inodeNo := by
  have hrc := hp.2
  rcases inodePut_ok h with ⟨hlast, s1, hsame, rfl⟩ | ⟨-, rfl⟩
  · have hs1 := (hsame.moved hs).counted
    have hothers : ∀ q ≠ p, (s1.unlink p).heap q = s1.heap q := fun q hne => Function.update_of_ne hne _ _
    refine ⟨⟨?counted, fun i => ?count⟩, ?locks, ?live⟩
    case counted =>
      refine hs1.of_others (p := p) (hs1.nodup.erase p) (fun q _ hq => List.mem_of_mem_erase hq) (fun q hne => ?_)
        (fun hmem => absurd hmem hs1.nodup.not_mem_erase) fun hlive => absurd hlive.1 hs1.nodup.not_mem_erase
      rw [hothers q hne]
      exact ⟨rfl, rfl⟩
    case count =>
      have hp1 : p ∈ s1.head := hsame.head ▸ hp.1
      have herase := total_erase (fun q => (s1.heap q).held i) hp1
      have hrest : (s1.unlink p).count i = total (fun q => (s1.heap q).held i) (s1.head.erase p) := by
        apply total_congr
        intro q hq
        rw [hothers q fun he => hs1.nodup.not_mem_erase (he ▸ hq)]
      have hcount : s1.count i = s.count i := ((hsame.moved hs).count i).trans (add_zero _)
      rw [hsame.held, Inode.held, hlast.1] at herase
      rw [hrest, ← hcount, Volume.count, ← herase]
      by_cases hi : (s.heap p).inodeNo = i
      · rw [if_pos hi, ← hi, Pi.single_eq_same]
        omega
      · rw [if_neg hi, Pi.single_eq_of_ne (Ne.symm hi)]
        omega
    case locks =>
      intro q hq
      have hne : q ≠ p := fun he => hs1.nodup.not_mem_erase (he ▸ hq.1)
      have hlocked := hq.2
      rw [hothers q hne] at hlocked
      exact hsame.locks ▸ ⟨List.mem_of_mem_erase hq.1, hlocked⟩
    case live =>
      intro q hq hmore
      have hne : q ≠ p := fun he => by
        have := hmore he
        omega
      have hq1 := hsame.live.mpr hq
      rw [Volume.Live, hothers q hne, hsame.inodeNo]
      exact ⟨⟨(List.mem_erase_of_ne hne).mpr hq1.1, hq1.2⟩, rfl⟩
  · refine ⟨hs.recount hp rfl rfl (by omega), (locks_setInode rfl).le, fun q hq hmore => ?_⟩
    by_cases he : q = p
    · have hone := hmore he
      rw [he, Volume.Live, setInode_self]
      refine ⟨⟨hp.1, ?_⟩, rfl⟩
      dsimp only
      omega
    · rw [Volume.Live, setInode_of_ne he]
      exact ⟨hq, rfl⟩

end Moves

end OS2021.Fs
