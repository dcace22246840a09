import OS2021.Fs.References

/-! References to in-memory inodes, over any interleaving of threads.

`inode_get` and `inode_share` hold the list's spinlock from beginning to end, and
`inode_alloc` never takes it. `inode_put` is cut where it gives the lock back to clear
an inode without links, where it takes it again and where it calls `free_object`. What
the threads are in the middle of is kept as lists. Whoever has a reference may change
the entry in memory and store it, and anybody may write to blocks that hold no inodes. -/
namespace OS2021.Fs
open Lib Function

variable {sb : SuperBlock} {arena : Arena} {p q : Ptr} {i no : Nat} {vol : Volume}

/-! ### Steps -/

/-- What `inode_put` does between its two critical sections. -/
def putClear (sb : SuperBlock) (p : Ptr) : V Unit := do
  inodeClear sb p
  modify fun s => s.editEntry p fun e => {e with type := inodeInvalid}
  inodeSync sb p true
  modify fun s => s.setInode p fun ip => {ip with valid := false}
  inodeUnlock p

/-- The condition in `inode_put`: the inode is freed with its last reference. -/
def Inode.Last (ip : Inode) : Prop := ip.rc = 1 ∧ ip.valid = true ∧ ip.entry.numLinks = 0

instance (ip : Inode) : Decidable ip.Last := inferInstanceAs (Decidable (_ ∧ _ ∧ _))

/-- One after the other the parts are `inode_put`. -/
theorem inodePut_eq (sb : SuperBlock) (p : Ptr) : inodePut sb p = (do
    let s ← get
    if (s.heap p).Last then do
      inodeLock p
      putClear sb p
      modify fun s => s.unlink p
    else modify fun s => s.setInode p fun ip => {ip with rc := ip.rc - 1} : V Unit) := by
  simp only [inodePut, putClear, Inode.Last, bind_assoc]

/-- An inode that `inode_get` or `inode_share` has returned, and how often the object
had been freed by then. -/
structure Held where
  no : Nat
  p : Ptr
  frees : Nat
  deriving DecidableEq

structure Scene where
  vol : Volume
  /-- References that are out. -/
  refs : List Held
  /-- Puts that have given the list's lock back and have yet to clear the inode. -/
  clearing : List Ptr
  /-- Puts that have cleared it and have yet to get the list's lock again. -/
  unlinking : List Ptr
  /-- Puts that have unlinked it and have yet to free the object. -/
  freeing : List Ptr
  /-- Inodes whose entry somebody has changed since it was loaded. -/
  modified : List Ptr
  /-- Calls of `free_object` on it. -/
  frees : Ptr → Nat
  /-- What `inode_alloc` has returned. -/
  numbers : List Nat

inductive ListStep where
  | alloc (type : InodeType)
  | get (inodeNo : Nat)
  | share (r : Held)
  | put (r : Held)
  | clear (p : Ptr)
  | unlink (p : Ptr)
  | free (p : Ptr)
  | edit (r : Held) (f : InodeEntry → InodeEntry)
  | sync (r : Held)
  | data (blocks : Nat → BlockData)

/-- Objects that are not linked but not yet freed are in use as well. -/
def Arena.besides (arena : Arena) (more : List Ptr) : Arena where
  pick n used := arena.pick n (used ++ more)
  fresh n used h := arena.fresh n (used ++ more) (List.mem_append_left more h)

namespace Scene

def start (vol : Volume) : Scene := ⟨vol, [], [], [], [], [], fun _ => 0, []⟩

/-- One step of one thread, if it can be taken. -/
def exec (sb : SuperBlock) (arena : Arena) (s : Scene) : ListStep → Option Scene
  | .alloc type =>
    match (inodeAlloc sb type).run s.vol with
    | .ok i vol => some {s with vol, numbers := i :: s.numbers}
    | .error _ _ => none
  | .get inodeNo =>
    match (inodeGet sb (arena.besides s.freeing) inodeNo).run s.vol with
    | .ok p vol => some {s with
        vol
        refs := ⟨inodeNo, p, s.frees p⟩ :: s.refs
        modified := if s.vol.Live p then s.modified else s.modified.filter (· != p)}
    | .error _ _ => none
  | .share r =>
    if r ∈ s.refs then
      match (inodeShare r.p).run s.vol with
      | .ok p vol => some {s with vol, refs := ⟨r.no, p, s.frees p⟩ :: s.refs}
      | .error _ _ => none
    else none
  | .put r =>
    if r ∈ s.refs then
      if (s.vol.heap r.p).Last then
        match (inodeLock r.p).run s.vol with
        | .ok _ vol => some {s with vol, refs := s.refs.erase r, clearing := r.p :: s.clearing}
        | .error _ _ => none
      else some {s with
        vol := s.vol.setInode r.p fun ip => {ip with rc := ip.rc - 1}
        refs := s.refs.erase r}
    else none
  | .clear p =>
    if p ∈ s.clearing then
      match (putClear sb p).run s.vol with
      | .ok _ vol => some {s with vol, clearing := s.clearing.erase p, unlinking := p :: s.unlinking}
      | .error _ _ => none
    else none
  | .unlink p =>
    if p ∈ s.unlinking then some {s with
      vol := s.vol.unlink p
      unlinking := s.unlinking.erase p
      freeing := p :: s.freeing}
    else none
  | .free p =>
    if p ∈ s.freeing then some {s with
      frees := update s.frees p (s.frees p + 1)
      freeing := s.freeing.erase p}
    else none
  | .edit r f =>
    if r ∈ s.refs then some {s with vol := s.vol.editEntry r.p f, modified := r.p :: s.modified} else none
  | .sync r =>
    if r ∈ s.refs then
      match (inodeSync sb r.p true).run s.vol with
      | .ok _ vol => some {s with vol}
      | .error _ _ => none
    else none
  | .data blocks => some {s with
      vol := {s.vol with blocks := fun b => if b < sb.bitmapStart.toNat then s.vol.blocks b else blocks b}}

/-- How many references and unfinished puts count in `rc`. -/
def claims (s : Scene) (p : Ptr) : Nat :=
  s.refs.countP (fun r => r.p == p) + s.clearing.count p + s.unlinking.count p

/-- A put of the inode is between its two critical sections. -/
def Dying (s : Scene) (p : Ptr) : Prop := p ∈ s.clearing ∨ p ∈ s.unlinking

instance (s : Scene) (p : Ptr) : Decidable (s.Dying p) := inferInstanceAs (Decidable (_ ∨ _))

end Scene

/-- `inode_get` is called with numbers that `inode_alloc` has returned. -/
def AsksForAllocated (s : Scene) : ListStep → Prop
  | .get inodeNo => inodeNo ∈ s.numbers
  | _ => True

instance (s : Scene) : (a : ListStep) → Decidable (AsksForAllocated s a)
  | .get _ => inferInstanceAs (Decidable (_ ∈ _))
  | .alloc _ | .share _ | .put _ | .clear _ | .unlink _ | .free _ | .edit .. | .sync _ | .data _ => isTrue trivial

/-- `inode_get` is called with numbers that are allocated, and not while a put is freeing
the inode of that number. -/
def AsksForLiving (sb : SuperBlock) (s : Scene) : ListStep → Prop
  | .get inodeNo => (s.vol.diskEntry sb inodeNo).type ≠ inodeInvalid ∧
      ∀ p ∈ s.clearing ++ s.unlinking, (s.vol.heap p).inodeNo ≠ inodeNo
  | _ => True

instance (s : Scene) : (a : ListStep) → Decidable (AsksForLiving sb s a)
  | .get _ => inferInstanceAs (Decidable (_ ∧ _))
  | .alloc _ | .share _ | .put _ | .clear _ | .unlink _ | .free _ | .edit .. | .sync _ | .data _ => isTrue trivial

/-! ### What a put does outside the lock -/

section Aside
variable {s s' s1 s2 : Volume}

/-- At most the in-memory inode at `p` has changed, but not its number, and of the
inodes on the disk only that number. -/
structure Aside (sb : SuperBlock) (p : Ptr) (s s' : Volume) : Prop where
  others : ∀ q ≠ p, s'.heap q = s.heap q
  inodeNo : (s'.heap p).inodeNo = (s.heap p).inodeNo
  disk : ∀ i ≤ sb.numInodes.toNat, i ≠ (s.heap p).inodeNo → s'.diskEntry sb i = s.diskEntry sb i

namespace Aside

instance : Std.Refl (Aside sb p) := ⟨fun _ => ⟨fun _ _ => rfl, rfl, fun _ _ _ => rfl⟩⟩

instance : IsTrans Volume (Aside sb p) where
  trans _ _ _ h h' := by
    refine ⟨fun q hq => (h'.others q hq).trans (h.others q hq), h'.inodeNo.trans h.inodeNo, fun i hi hne => ?_⟩
    rw [h'.disk i hi (h.inodeNo ▸ hne), h.disk i hi hne]

theorem setInode {f : Inode → Inode} (hf : (f (s.heap p)).inodeNo = (s.heap p).inodeNo) :
    Aside sb p s (s.setInode p f) := by
  refine ⟨fun q hq => setInode_of_ne hq, ?_, fun _ _ _ => rfl⟩
  rw [setInode_self, hf]

theorem edit (p : Ptr) (f : InodeEntry → InodeEntry) :
    Respects (Aside sb p) (modify fun s => s.editEntry p f : V Unit) := .modify fun _ => .setInode rfl

theorem blockFree (hl : Layout sb) (p : Ptr) (b : Nat) : Respects (Aside sb p) (blockFree sb b) := fun s => by
  rw [Fs.blockFree, bind_ok (get_run s)]
  split
  · refine ⟨fun _ _ => rfl, rfl, fun i hi _ => ?_⟩
    have hne : toBlockNo sb i ≠ bitmapBlock sb b :=
      (lt_of_lt_of_le (hl.toBlockNo_lt hi) (Layout.le_bitmapBlock sb b)).ne
    exact congrArg (getEntry · i) (update_of_ne hne ..)
  · exact refl_of (Aside sb p) s

theorem sync (p : Ptr) : Respects (Aside sb p) (inodeSync sb p true) := fun s => by
  cases hvalid : (s.heap p).valid with
  | true =>
    rw [inodeSync_write hvalid]
    refine ⟨fun _ _ => rfl, rfl, fun i _ hne => ?_⟩
    simp only [final]
    rw [diskEntry_synced, if_neg hne]
  | false =>
    rw [inodeSync_load hvalid]
    simp only [final]
    exact .setInode rfl

theorem clear (hl : Layout sb) (p : Ptr) : Respects (Aside sb p) (inodeClear sb p) := by
  have hdirect : ∀ i, Respects (Aside sb p) (clearDirect sb p i) := fun i s => by
    rw [clearDirect, bind_ok (get_run s)]
    dsimp only
    split
    · exact ((blockFree hl p _).bind fun _ => edit p _) s
    · exact refl_of (Aside sb p) s
  have haddr : ∀ b i, Respects (Aside sb p) (freeAddr sb b i) := fun b i s => by
    rw [freeAddr, bind_ok (get_run s)]
    dsimp only
    split
    · exact blockFree hl p _ s
    · exact refl_of (Aside sb p) s
  have hindirect : Respects (Aside sb p) (clearIndirect sb p) := fun s => by
    rw [clearIndirect, bind_ok (get_run s)]
    dsimp only
    split
    · exact ((Respects.forM _ (haddr _)).bind fun _ => (blockFree hl p _).bind fun _ => edit p _) s
    · exact refl_of (Aside sb p) s
  exact (Respects.forM _ hdirect).bind fun _ => hindirect.bind fun _ => (edit p _).bind fun _ => sync p

end Aside

theorem putClear_ok (hl : Layout sb) {u : Unit} (h : (putClear sb p).run s = .ok u s') :
    Aside sb p s s' ∧ s'.head = s.head ∧ ∀ q, (s'.heap q).rc = (s.heap q).rc := by
  rw [putClear] at h
  obtain ⟨_, s1, h1, h⟩ := bind_eq_ok h
  obtain ⟨_, s2, h2, h⟩ := bind_eq_ok h
  obtain ⟨_, s3, h3, h⟩ := bind_eq_ok h
  obtain ⟨_, s4, h4, h⟩ := bind_eq_ok h
  obtain ⟨-, -, rfl⟩ := inodeUnlock_ok h
  cases h4
  have hsame := (((sameRefs_clear p).of_ok h1).trans ((sameRefs_edit p _).of_ok h2)).trans
    ((sameRefs_sync p true).of_ok h3)
  have haside := trans_of (Aside sb p)
    (trans_of (Aside sb p) ((Aside.clear hl p).of_ok h1) ((Aside.edit p _).of_ok h2)) ((Aside.sync p).of_ok h3)
  rw [setInode_setInode]
  refine ⟨trans_of (Aside sb p) haside (.setInode rfl), hsame.head, fun q => ?_⟩
  rw [← hsame.rc q]
  exact setInode_field rfl

end Aside

/-! ### The invariant -/

variable {s s' : Scene} {r : Held}

/-- The object is still the inode that was returned, it is loaded, and it has the entry
that is on the disk, of an allocated inode, as long as nobody has changed it. -/
structure Holding (sb : SuperBlock) (s : Scene) (r : Held) : Prop where
  inodeNo : (s.vol.heap r.p).inodeNo = r.no
  lt : r.no < sb.numInodes.toNat
  frees : s.frees r.p = r.frees
  valid : (s.vol.heap r.p).valid = true
  entry : r.p ∉ s.modified →
    s.vol.diskEntry sb r.no = (s.vol.heap r.p).entry ∧ (s.vol.heap r.p).entry.type ≠ inodeInvalid

theorem Holding.congr (h : Holding sb s r) (hno : (s'.vol.heap r.p).inodeNo = (s.vol.heap r.p).inodeNo)
    (hvalid : (s'.vol.heap r.p).valid = (s.vol.heap r.p).valid)
    (hentry : (s'.vol.heap r.p).entry = (s.vol.heap r.p).entry)
    (hdisk : s'.vol.diskEntry sb r.no = s.vol.diskEntry sb r.no) (hfrees : s'.frees r.p = s.frees r.p)
    (hmod : r.p ∈ s.modified → r.p ∈ s'.modified) : Holding sb s' r where
  inodeNo := hno.trans h.inodeNo
  lt := h.lt
  frees := hfrees.trans h.frees
  valid := hvalid.trans h.valid
  entry hr := by
    rw [hdisk, hentry]
    exact h.entry (mt hmod hr)

/-- Every count is the number of its claims; the put that frees an inode is its only claim. -/
structure Scene.Sound (sb : SuperBlock) (s : Scene) : Prop where
  counted : Counted s.vol
  rc : ∀ p ∈ s.vol.head, (s.vol.heap p).rc = s.claims p
  linked : ∀ p, 0 < s.claims p → p ∈ s.vol.head
  dying : ∀ p, s.Dying p → s.claims p = 1
  freeing : ∀ p ∈ s.freeing, p ∉ s.vol.head
  holding : ∀ r ∈ s.refs, Holding sb s r

namespace Scene

theorem countP_pos_of_ref (hr : r ∈ s.refs) : 0 < s.refs.countP fun x => x.p == r.p :=
  List.countP_pos_iff.mpr ⟨r, hr, beq_self_eq_true _⟩

theorem count_pos_of_dying (h : s.Dying p) : 0 < s.clearing.count p + s.unlinking.count p := by
  rcases h with h | h
  · have := List.count_pos_iff.mpr h
    omega
  · have := List.count_pos_iff.mpr h
    omega

theorem claims_pos (hr : r ∈ s.refs) : 0 < s.claims r.p := by
  have hpos := countP_pos_of_ref hr
  unfold claims
  omega

/-- A claim that is not a put freeing the inode is a reference. -/
theorem exists_ref (hp : 0 < s.claims p) (h : ¬ s.Dying p) : ∃ r ∈ s.refs, r.p = p := by
  have hclearing : s.clearing.count p = 0 := List.count_eq_zero.mpr fun hmem => h (Or.inl hmem)
  have hunlinking : s.unlinking.count p = 0 := List.count_eq_zero.mpr fun hmem => h (Or.inr hmem)
  unfold claims at hp
  obtain ⟨r, hr, he⟩ := List.countP_pos_iff.mp (show 0 < s.refs.countP fun x => x.p == p by omega)
  exact ⟨r, hr, eq_of_beq he⟩

theorem countP_erase (hr : r ∈ s.refs) (q : Ptr) :
    ((s.refs.erase r).countP fun x => x.p == q) + (if q = r.p then 1 else 0) = s.refs.countP fun x => x.p == q := by
  rw [(List.perm_cons_erase hr).countP_eq, List.countP_cons]
  by_cases hq : q = r.p
  · simp [hq]
  · simp [hq, Ne.symm hq]

namespace Sound

section
variable (h : s.Sound sb)
include h

theorem live (hp : 0 < s.claims p) : s.vol.Live p := by
  have hmem := h.linked p hp
  have hrc := h.rc p hmem
  exact ⟨hmem, by omega⟩

theorem claims_pos_of_live (hp : s.vol.Live p) : 0 < s.claims p := by
  have hrc := h.rc p hp.1
  have hpos := hp.2
  omega

/-- The inode of a reference is not being freed. -/
theorem not_dying (hr : r ∈ s.refs) : ¬ s.Dying r.p := by
  intro hd
  have hone := h.dying _ hd
  have href := countP_pos_of_ref hr
  have hput := count_pos_of_dying hd
  unfold claims at hone
  omega

/-- Nobody references the number of an inode that is being freed. -/
theorem no_ne_of_dying (hr : r ∈ s.refs) (hp : s.Dying p) : r.no ≠ (s.vol.heap p).inodeNo := by
  intro hno
  have hlive : s.vol.Live p := h.live (by rw [h.dying p hp]; exact Nat.one_pos)
  rw [← (h.holding r hr).inodeNo] at hno
  exact h.not_dying hr (h.counted.unique _ _ (h.live (claims_pos hr)) hlive hno ▸ hp)

/-- Steps that link, unlink and count nothing. -/
theorem keep (hhead : s'.vol.head = s.vol.head) (hrc : ∀ q, (s'.vol.heap q).rc = (s.vol.heap q).rc)
    (hno : ∀ q, (s'.vol.heap q).inodeNo = (s.vol.heap q).inodeNo) (hclaims : ∀ q, s'.claims q = s.claims q)
    (hdying : ∀ q, s'.Dying q → s.claims q = 1) (hfreeing : ∀ q ∈ s'.freeing, q ∈ s.freeing)
    (holding : ∀ r ∈ s'.refs, Holding sb s' r) : s'.Sound sb := by
  have hlive : ∀ q, s'.vol.Live q ↔ s.vol.Live q := fun q => by rw [Volume.Live, Volume.Live, hhead, hrc]
  refine ⟨⟨hhead ▸ h.counted.nodup, fun q hq => ?nonneg, fun p q hp hq he => ?unique⟩, fun q hq => ?rc,
    fun q hq => ?linked, fun q hq => (hclaims q).trans (hdying q hq), fun q hq => ?freeing, holding⟩
  case nonneg =>
    rw [hrc]
    exact h.counted.nonneg q (hhead ▸ hq)
  case unique =>
    rw [hno, hno] at he
    exact h.counted.unique p q ((hlive p).mp hp) ((hlive q).mp hq) he
  case rc =>
    rw [hrc, hclaims]
    exact h.rc q (hhead ▸ hq)
  case linked =>
    rw [hclaims] at hq
    rw [hhead]
    exact h.linked q hq
  case freeing =>
    rw [hhead]
    exact h.freeing q (hfreeing q hq)

/-- The count of an inode changes that somebody references and that is not being freed. -/
theorem recount (hp : 0 < s.claims p) (hnot : ¬ s.Dying p) {n : Int} {refs : List Held}
    (hvol : vol = s.vol.setInode p fun ip => {ip with rc := ip.rc + n})
    (hcount : ∀ q, (refs.countP (fun r => r.p == q) : Int) =
      s.refs.countP (fun r => r.p == q) + if q = p then n else 0) (holding : ∀ r ∈ refs, Holding sb s r) :
    Sound sb {s with vol, refs} := by
  have hclaims : ∀ q, (claims {s with vol, refs} q : Int) = s.claims q + if q = p then n else 0 := by
    intro q
    have hq := hcount q
    unfold claims
    push_cast
    omega
  have hrc : ∀ q ∈ s.vol.head, (vol.heap q).rc = claims {s with vol, refs} q := by
    intro q hq
    rw [hclaims, ← h.rc q hq, hvol]
    by_cases he : q = p
    · rw [he, if_pos rfl, setInode_self]
    · rw [if_neg he, setInode_of_ne he, add_zero]
  have hheld : 0 ≤ (s.vol.heap p).rc + n := by
    rw [h.rc p (h.linked p hp)]
    have hq := hclaims p
    rw [if_pos rfl] at hq
    omega
  have hcounted := (h.counted.recount (f := fun ip => {ip with rc := ip.rc + n}) (h.live hp) rfl rfl hheld).counted
  have hhead : vol.head = s.vol.head := by
    rw [hvol]
    rfl
  rw [← hvol] at hcounted
  refine ⟨hcounted, fun q hq => hrc q (hhead ▸ hq), fun q hq => ?linked, fun q hq => ?dying, fun q hq => ?freeing,
    fun r hr => ?holding⟩
  case linked =>
    show q ∈ vol.head
    rw [hhead]
    by_cases he : q = p
    · exact he ▸ h.linked p hp
    · have hq' := hclaims q
      rw [if_neg he] at hq'
      exact h.linked q (by omega)
  case dying =>
    have hd : s.Dying q := hq
    have hne : q ≠ p := fun he => hnot (he ▸ hd)
    have hq' := hclaims q
    rw [if_neg hne, h.dying q hd] at hq'
    omega
  case freeing =>
    show q ∉ vol.head
    rw [hhead]
    exact h.freeing q hq
  case holding =>
    refine (holding r hr).congr ?_ ?_ ?_ (by rw [hvol]; rfl) rfl id
    all_goals
      dsimp only
      rw [hvol]
      exact setInode_field rfl

/-! ### One case per step -/

omit h in
theorem diskEntry_of_blocks {v v' : Volume} (h : v'.blocks = v.blocks) (i : Nat) :
    v'.diskEntry sb i = v.diskEntry sb i := by
  rw [Volume.diskEntry, Volume.diskEntry, h]

omit h in
theorem slotFor_besides (arena : Arena) (more : List Ptr) (v : Volume) :
    (v.slotFor (arena.besides more)).1 ∈ v.head ∨ (v.slotFor (arena.besides more)).1 ∉ more := by
  unfold Volume.slotFor
  split
  case h_1 hfind => exact Or.inl (List.mem_of_find?_eq_some hfind)
  case h_2 => exact Or.inr fun hmem => arena.fresh v.allocs (v.head ++ more) (List.mem_append_right _ hmem)

theorem share (hr : r ∈ s.refs) :
    Sound sb {s with vol := s.vol.setInode r.p fun ip => {ip with rc := ip.rc + 1}, refs := r :: s.refs} := by
  refine h.recount (claims_pos hr) (h.not_dying hr) rfl (fun q => ?_) fun x hx => ?_
  · rw [List.countP_cons]
    by_cases hq : q = r.p
    · simp [hq]
    · simp [hq, Ne.symm hq]
  · rcases List.mem_cons.mp hx with rfl | hx
    · exact h.holding _ hr
    · exact h.holding x hx

theorem put_some (hr : r ∈ s.refs) :
    Sound sb {s with vol := s.vol.setInode r.p fun ip => {ip with rc := ip.rc - 1}, refs := s.refs.erase r} := by
  refine h.recount (n := -1) (claims_pos hr) (h.not_dying hr) rfl (fun q => ?_) fun x hx => ?_
  · have hq := countP_erase hr q
    split at hq
    case isTrue he =>
      rw [if_pos he]
      omega
    case isFalse he =>
      rw [if_neg he]
      omega
  · exact h.holding x (List.mem_of_mem_erase hx)

/-- The last reference becomes a put that frees the inode. -/
theorem put_last (hr : r ∈ s.refs) (hlast : (s.vol.heap r.p).rc = 1) : Sound sb {s with
      vol := s.vol.setInode r.p fun ip => {ip with locked := true}
      refs := s.refs.erase r
      clearing := r.p :: s.clearing} := by
  have hone : s.claims r.p = 1 := by
    have hrc := h.rc r.p (h.linked _ (claims_pos hr))
    omega
  have hother : ∀ x ∈ s.refs.erase r, x.p ≠ r.p := by
    intro x hx he
    have hpos : 0 < (s.refs.erase r).countP fun y => y.p == r.p := List.countP_pos_iff.mpr ⟨x, hx, beq_iff_eq.mpr he⟩
    have hcount := countP_erase hr r.p
    rw [if_pos rfl] at hcount
    unfold claims at hone
    omega
  have hheap : ∀ q, q ≠ r.p → (s.vol.setInode r.p fun ip => {ip with locked := true}).heap q = s.vol.heap q :=
    fun q hq => setInode_of_ne hq
  refine h.keep rfl (fun q => ?rc) (fun q => ?no) (fun q => ?claims) (fun q hq => ?dying) (fun _ hq => hq)
    fun x hx => ?holding
  case rc =>
    by_cases hq : q = r.p
    · dsimp only
      rw [hq, setInode_self]
    · exact congrArg Inode.rc (hheap q hq)
  case no =>
    dsimp only
    exact inodeNo_setInode rfl q
  case claims =>
    have hq := countP_erase hr q
    unfold claims
    dsimp only
    rw [List.count_cons]
    by_cases he : q = r.p
    · rw [if_pos he] at hq
      simp only [he, beq_self_eq_true, if_true] at hq ⊢
      omega
    · rw [if_neg he] at hq
      simp only [beq_eq_false_iff_ne.mpr (Ne.symm he), Bool.false_eq_true, if_false]
      omega
  case dying =>
    rcases hq with hq | hq
    · rcases List.mem_cons.mp hq with rfl | hq
      · exact hone
      · exact h.dying q (Or.inl hq)
    · exact h.dying q (Or.inr hq)
  case holding =>
    have hx' := hheap x.p (hother x hx)
    exact (h.holding x (List.mem_of_mem_erase hx)).congr (congrArg Inode.inodeNo hx') (congrArg Inode.valid hx')
      (congrArg Inode.entry hx') rfl rfl id

/-- A put that clears the inode changes nothing that anybody holds. -/
theorem clear (hp : p ∈ s.clearing) (ha : Aside sb p s.vol vol) (hhead : vol.head = s.vol.head)
    (hrc : ∀ q, (vol.heap q).rc = (s.vol.heap q).rc) :
    Sound sb {s with vol, clearing := s.clearing.erase p, unlinking := p :: s.unlinking} := by
  have hno : ∀ q, (vol.heap q).inodeNo = (s.vol.heap q).inodeNo := by
    intro q
    by_cases hq : q = p
    · rw [hq, ha.inodeNo]
    · rw [ha.others q hq]
  refine h.keep hhead hrc hno (fun q => ?claims) (fun q hq => ?dying) (fun _ hq => hq) fun x hx => ?holding
  case claims =>
    have hperm := (List.perm_cons_erase hp).count_eq q
    rw [List.count_cons] at hperm
    unfold claims
    dsimp only
    rw [List.count_cons]
    omega
  case dying =>
    rcases hq with hq | hq
    · exact h.dying q (Or.inl (List.mem_of_mem_erase hq))
    · rcases List.mem_cons.mp hq with rfl | hq
      · exact h.dying q (Or.inl hp)
      · exact h.dying q (Or.inr hq)
  case holding =>
    have hx' : vol.heap x.p = s.vol.heap x.p := ha.others _ fun he => h.not_dying hx (Or.inl (he ▸ hp))
    have hdisk := ha.disk x.no (h.holding x hx).lt.le (h.no_ne_of_dying hx (Or.inl hp))
    exact (h.holding x hx).congr (congrArg Inode.inodeNo hx') (congrArg Inode.valid hx') (congrArg Inode.entry hx')
      hdisk rfl id

theorem unlink (hp : p ∈ s.unlinking) : Sound sb {s with
      vol := s.vol.unlink p, unlinking := s.unlinking.erase p, freeing := p :: s.freeing} := by
  have hone := h.dying p (Or.inr hp)
  have hothers : ∀ q ≠ p, (s.vol.unlink p).heap q = s.vol.heap q := fun q hq => update_of_ne hq _ _
  have hmem : ∀ q, q ∈ (s.vol.unlink p).head ↔ q ≠ p ∧ q ∈ s.vol.head := fun q => h.counted.nodup.mem_erase_iff
  have hcount : ∀ q, (p :: s.unlinking.erase p).count q = s.unlinking.count q :=
    fun q => ((List.perm_cons_erase hp).count_eq q).symm
  have hclaims : ∀ q ≠ p, claims {s with
      vol := s.vol.unlink p, unlinking := s.unlinking.erase p, freeing := p :: s.freeing} q = s.claims q := by
    intro q hq
    have hq' := hcount q
    rw [List.count_cons_of_ne (Ne.symm hq)] at hq'
    unfold claims
    dsimp only
    rw [hq']
  have hself : claims {s with
      vol := s.vol.unlink p, unlinking := s.unlinking.erase p, freeing := p :: s.freeing} p = 0 := by
    have hp' := hcount p
    rw [List.count_cons_self] at hp'
    unfold claims at hone ⊢
    dsimp only
    omega
  refine ⟨?counted, fun q hq => ?rc, fun q hq => ?linked, fun q hq => ?dying, fun q hq => ?freeing,
    fun x hx => ?holding⟩
  case counted =>
    refine h.counted.of_others (p := p) (h.counted.nodup.erase p) (fun q _ hq => ((hmem q).mp hq).2) (fun q hq => ?_)
      (fun hq => absurd rfl ((hmem p).mp hq).1) fun hq => absurd rfl ((hmem p).mp hq.1).1
    rw [hothers q hq]
    exact ⟨rfl, rfl⟩
  case rc =>
    obtain ⟨hne, hq'⟩ := (hmem q).mp hq
    dsimp only
    rw [hothers q hne, hclaims q hne, h.rc q hq']
  case linked =>
    have hne : q ≠ p := fun he => by
      rw [he, hself] at hq
      exact absurd hq (Nat.lt_irrefl 0)
    rw [hclaims q hne] at hq
    exact (hmem q).mpr ⟨hne, h.linked q hq⟩
  case dying =>
    have hq' : s.Dying q := hq.imp_right List.mem_of_mem_erase
    have hne : q ≠ p := fun he => by
      have hpos := count_pos_of_dying hq
      have hzero := hself
      rw [he] at hpos
      unfold claims at hzero
      omega
    rw [hclaims q hne, h.dying q hq']
  case freeing =>
    intro hin
    obtain ⟨hne, hin⟩ := (hmem q).mp hin
    rcases List.mem_cons.mp hq with he | hq
    · exact hne he
    · exact h.freeing q hq hin
  case holding =>
    have hx' := hothers x.p fun he => h.not_dying hx (Or.inr (he ▸ hp))
    exact (h.holding x hx).congr (congrArg Inode.inodeNo hx') (congrArg Inode.valid hx') (congrArg Inode.entry hx')
      rfl rfl id

/-- `inode_get` finds no inode of that number and loads it into one that is nobody's. -/
theorem get_miss (hlt : no < sb.numInodes.toNat) (htype : (s.vol.diskEntry sb no).type ≠ inodeInvalid)
    (hnone : ∀ q, s.vol.Live q → (s.vol.heap q).inodeNo ≠ no) (hp : p = (s.vol.slotFor (arena.besides s.freeing)).1)
    (hvol : vol = (s.vol.slotFor (arena.besides s.freeing)).2.setInode p fun ip =>
      ⟨false, ip.rc + 1, no, true, s.vol.diskEntry sb no⟩) : Sound sb {s with
      vol
      refs := ⟨no, p, s.frees p⟩ :: s.refs
      modified := s.modified.filter (· != p)} := by
  obtain ⟨hmoved, hmem, hrc, hlive, hothers, hhead⟩ := slotFor_moved h.counted _ hp
  have hfresh : p ∉ s.freeing := by
    rcases slotFor_besides arena s.freeing s.vol with hin | hnew
    · exact fun hfree => h.freeing p hfree (hp ▸ hin)
    · exact hp ▸ hnew
  have hblocks : vol.blocks = s.vol.blocks := by
    rw [hvol]
    exact slotFor_blocks
  generalize (s.vol.slotFor (arena.besides s.freeing)).2 = v at *
  have hfree : s.claims p = 0 := Nat.eq_zero_of_not_pos fun hpos => hlive (h.live hpos)
  have hself : vol.heap p = ⟨false, 1, no, true, s.vol.diskEntry sb no⟩ := by
    rw [hvol, setInode_self, hrc]
    rfl
  have hold : ∀ q ≠ p, vol.heap q = s.vol.heap q := fun q hq => by rw [hvol, setInode_of_ne hq, hothers q hq]
  have hin : ∀ q, q ∈ vol.head ↔ q = p ∨ q ∈ s.vol.head := by
    intro q
    rw [hvol]
    show q ∈ v.head ↔ _
    by_cases hq : q = p
    · simp [hq, hmem]
    · simp [hq, hhead q hq]
  have hclaims : ∀ q, claims {s with
      vol, refs := ⟨no, p, s.frees p⟩ :: s.refs, modified := s.modified.filter (· != p)} q =
      s.claims q + if q = p then 1 else 0 := by
    intro q
    unfold claims
    dsimp only
    rw [List.countP_cons]
    by_cases hq : q = p
    · simp only [hq, beq_self_eq_true, if_true]
      omega
    · simp only [beq_eq_false_iff_ne.mpr (Ne.symm hq), Bool.false_eq_true, if_false, if_neg hq]
      omega
  have hdead : ∀ q, s.Dying q → q ≠ p := fun q hd he => by
    have hone := h.dying q hd
    rw [he, hfree] at hone
    cases hone
  refine ⟨?counted, fun q hq => ?rc, fun q hq => ?linked, fun q hq => ?dying, fun q hq => ?freeing,
    fun x hx => ?holding⟩
  case counted =>
    refine h.counted.of_others (p := p) ?_ (fun q hne hq => ((hin q).mp hq).resolve_left hne) (fun q hne => ?_)
      (fun _ => ?_) fun _ q _ hq => ?_
    · rw [hvol]
      exact hmoved.counted.nodup
    · rw [hold q hne]
      exact ⟨rfl, rfl⟩
    · rw [hself]
      exact Int.one_nonneg
    · rw [hself]
      exact hnone q hq
  case rc =>
    rw [hclaims]
    by_cases he : q = p
    · rw [he, hfree, if_pos rfl]
      exact congrArg Inode.rc hself
    · rw [if_neg he, Nat.add_zero, ← h.rc q (((hin q).mp hq).resolve_left he)]
      exact congrArg Inode.rc (hold q he)
  case linked =>
    rw [hclaims] at hq
    refine (hin q).mpr ?_
    by_cases he : q = p
    · exact Or.inl he
    · rw [if_neg he] at hq
      exact Or.inr (h.linked q hq)
  case dying =>
    have hd : s.Dying q := hq
    rw [hclaims, if_neg (hdead q hd), h.dying q hd]
  case freeing =>
    intro hmem'
    rcases (hin q).mp hmem' with he | hq'
    · exact hfresh (he ▸ hq)
    · exact h.freeing q hq hq'
  case holding =>
    rcases List.mem_cons.mp hx with rfl | hx
    · refine ⟨congrArg Inode.inodeNo hself, hlt, rfl, congrArg Inode.valid hself, fun _ => ?_⟩
      dsimp only
      rw [diskEntry_of_blocks hblocks, hself]
      exact ⟨rfl, htype⟩
    · have hne : x.p ≠ p := fun he => by
        have hpos := claims_pos hx
        rw [he, hfree] at hpos
        exact absurd hpos (Nat.lt_irrefl 0)
      have hx' := hold x.p hne
      refine (h.holding x hx).congr (congrArg Inode.inodeNo hx') (congrArg Inode.valid hx') (congrArg Inode.entry hx')
        (diskEntry_of_blocks hblocks _) rfl fun hm => ?_
      exact List.mem_filter.mpr ⟨hm, bne_iff_ne.mpr hne⟩

/-- `inode_get` finds the inode, and it is not being freed. -/
theorem get_hit (hlive : s.vol.Live p) (hnot : ¬ s.Dying p) : Sound sb {s with
      vol := s.vol.setInode p fun ip => {ip with rc := ip.rc + 1}
      refs := ⟨(s.vol.heap p).inodeNo, p, s.frees p⟩ :: s.refs} := by
  obtain ⟨r, hr, rfl⟩ := exists_ref (h.claims_pos_of_live hlive) hnot
  rw [(h.holding r hr).inodeNo, (h.holding r hr).frees]
  exact h.share hr

/-- Blocks are written; an entry that nobody has changed in memory stays as it is there. -/
theorem store {blocks : Nat → BlockData} {numbers : List Nat}
    (hd : ∀ x ∈ s.refs, s.vol.diskEntry sb x.no = (s.vol.heap x.p).entry →
      (s.vol.heap x.p).entry.type ≠ inodeInvalid →
      Volume.diskEntry sb {s.vol with blocks} x.no = (s.vol.heap x.p).entry) :
    Sound sb {s with vol := {s.vol with blocks}, numbers} := by
  refine h.keep rfl (fun _ => rfl) (fun _ => rfl) (fun _ => rfl) h.dying (fun _ hq => hq) fun x hx => ?_
  have hold := h.holding x hx
  refine ⟨hold.inodeNo, hold.lt, hold.frees, hold.valid, fun hm => ?_⟩
  obtain ⟨hdisk, htype⟩ := hold.entry hm
  exact ⟨hd x hx hdisk htype, htype⟩

/-- The entry of a free inode on the disk changes. -/
theorem alloc (hfree : (s.vol.diskEntry sb i).type = inodeInvalid) (e : InodeEntry) :
    Sound sb {s with vol := s.vol.storeEntry sb i e, numbers := i :: s.numbers} := by
  refine h.store fun x hx hdisk htype => ?_
  have hne : x.no ≠ i := fun he => by
    rw [← hdisk, he] at htype
    exact htype hfree
  exact (diskEntry_storeEntry.trans (if_neg hne)).trans hdisk

theorem edit (f : InodeEntry → InodeEntry) (p : Ptr) :
    Sound sb {s with vol := s.vol.editEntry p f, modified := p :: s.modified} := by
  have hsame : SameInodes s.vol (s.vol.editEntry p f) := .editEntry s.vol p f
  refine h.keep rfl hsame.rc hsame.inodeNo (fun _ => rfl) h.dying (fun _ hq => hq) fun x hx => ?_
  have hold := h.holding x hx
  by_cases he : x.p = p
  · refine ⟨(hsame.inodeNo _).trans hold.inodeNo, hold.lt, hold.frees, (hsame.valid _).trans hold.valid, fun hm => ?_⟩
    exact absurd (he ▸ List.mem_cons_self ..) hm
  · have hx' : (s.vol.editEntry p f).heap x.p = s.vol.heap x.p := editEntry_of_ne he
    exact hold.congr (congrArg Inode.inodeNo hx') (congrArg Inode.valid hx') (congrArg Inode.entry hx') rfl rfl
      fun hm => List.mem_cons_of_mem p hm

theorem sync (hr : r ∈ s.refs) : Sound sb {s with vol := s.vol.synced sb r.p} := by
  refine h.store fun x hx hdisk _ => diskEntry_synced.trans ?_
  split
  case isTrue he =>
    rw [← (h.holding x hx).inodeNo] at he
    have hsame : x.p = r.p := h.counted.unique _ _ (h.live (claims_pos hx)) (h.live (claims_pos hr)) he
    rw [hsame]
  case isFalse => exact hdisk

theorem data (hl : Layout sb) (blocks : Nat → BlockData) : Sound sb {s with vol := {s.vol with
      blocks := fun b => if b < sb.bitmapStart.toNat then s.vol.blocks b else blocks b}} := by
  refine h.store fun x hx hdisk _ => hdisk ▸ ?_
  exact congrArg (getEntry · x.no) (if_pos (hl.toBlockNo_lt (h.holding x hx).lt.le))

theorem free (hp : p ∈ s.freeing) :
    Sound sb {s with frees := update s.frees p (s.frees p + 1), freeing := s.freeing.erase p} := by
  refine h.keep rfl (fun _ => rfl) (fun _ => rfl) (fun _ => rfl) h.dying (fun _ hq => List.mem_of_mem_erase hq)
    fun x hx => ?_
  have hne : x.p ≠ p := fun he => h.freeing p hp (he ▸ h.linked _ (claims_pos hx))
  exact (h.holding x hx).congr rfl rfl rfl rfl (update_of_ne hne ..) id

/-- Every step keeps the references sound, if `inode_get` asks for living inodes. -/
theorem exec {a : ListStep} (hl : Layout sb) (hok : AsksForLiving sb s a) (hs : s.exec sb arena a = some s') :
    s'.Sound sb := by
  cases a with
  | alloc type =>
    rw [Scene.exec] at hs
    split at hs
    case h_2 => cases hs
    case h_1 i vol hrun =>
      obtain ⟨hfree, rfl⟩ := inodeAlloc_ok hrun
      cases hs
      exact h.alloc hfree _
  | get no =>
    rw [Scene.exec] at hs
    split at hs
    case h_2 => cases hs
    case h_1 p vol hrun =>
      obtain ⟨-, hlt, ⟨hp, hno, rfl⟩ | ⟨hnone, hslot, -, hvol⟩⟩ := inodeGet_ok hrun
      · rw [if_pos hp] at hs
        cases hs
        have hnot : ¬ s.Dying p := fun hd => hok.2 p (List.mem_append.mpr hd) hno
        subst hno
        exact h.get_hit hp hnot
      · have hp : ¬ s.vol.Live p := (slotFor_moved h.counted _ hslot).2.2.2.1
        rw [if_neg hp] at hs
        cases hs
        exact h.get_miss hlt hok.1 hnone hslot hvol
  | share r =>
    obtain ⟨hr, rfl⟩ := Option.ite_some_none_eq_some.mp hs
    rw [(h.holding r hr).frees]
    exact h.share hr
  | put r =>
    obtain ⟨hr, hs⟩ := Option.ite_none_right_eq_some.mp hs
    split at hs
    case isFalse =>
      cases hs
      exact h.put_some hr
    case isTrue hlast =>
      split at hs
      case h_2 => cases hs
      case h_1 hrun =>
        obtain ⟨-, -, rfl⟩ := inodeLock_ok hrun
        cases hs
        exact h.put_last hr hlast.1
  | clear p =>
    obtain ⟨hp, hs⟩ := Option.ite_none_right_eq_some.mp hs
    split at hs
    case h_2 => cases hs
    case h_1 hrun =>
      obtain ⟨ha, hhead, hrc⟩ := putClear_ok hl hrun
      cases hs
      exact h.clear hp ha hhead hrc
  | unlink p =>
    obtain ⟨hp, rfl⟩ := Option.ite_some_none_eq_some.mp hs
    exact h.unlink hp
  | free p =>
    obtain ⟨hp, rfl⟩ := Option.ite_some_none_eq_some.mp hs
    exact h.free hp
  | edit r f =>
    obtain ⟨-, rfl⟩ := Option.ite_some_none_eq_some.mp hs
    exact h.edit f r.p
  | sync r =>
    obtain ⟨hr, hs⟩ := Option.ite_none_right_eq_some.mp hs
    rw [inodeSync_write (h.holding r hr).valid] at hs
    cases hs
    exact h.sync hr
  | data blocks =>
    cases hs
    exact h.data hl blocks

end

end Sound

/-- At the start nobody references anything. -/
theorem sound_start (hnodup : vol.head.Nodup) (hfree : ∀ p ∈ vol.head, (vol.heap p).rc = 0) :
    (start vol).Sound sb := by
  have hcounted : Counted vol :=
    ⟨hnodup, fun p hp => (hfree p hp).ge, fun p _ hp => absurd (hfree p hp.1) hp.2.ne'⟩
  refine ⟨hcounted, hfree, ?_, ?_, nofun, nofun⟩
  · exact fun p hp => absurd hp (Nat.lt_irrefl 0)
  · exact fun p hp => hp.elim nofun nofun

end Scene

/-! ### Whole runs -/

/-- **No inode is freed under a reference**, however the threads interleave, as long as
`inode_get` asks only for numbers that are allocated and that no put is freeing: the
inode is linked and counted and the object has not been freed; it is loaded, and it has
the entry that is on the disk until somebody changes it. -/
theorem reference_keeps_inode (hl : Layout sb) {vol : Volume} (hnodup : vol.head.Nodup)
    (hfree : ∀ p ∈ vol.head, (vol.heap p).rc = 0)
    (hreach : Reach (fun s a s' => s.exec sb arena a = some s') (AsksForLiving sb) (.start vol) s) :
    ∀ r ∈ s.refs, r.p ∈ s.vol.head ∧ s.frees r.p = r.frees ∧ 1 ≤ (s.vol.heap r.p).rc ∧
      (s.vol.heap r.p).inodeNo = r.no ∧ (s.vol.heap r.p).valid = true ∧
      (r.p ∉ s.modified → (s.vol.heap r.p).entry = s.vol.diskEntry sb r.no) := by
  have h : s.Sound sb := hreach.invariant (I := fun s => s.Sound sb) (Scene.sound_start hnodup hfree)
    fun _ _ _ hs hok hexec => hs.exec hl hok hexec
  intro r hr
  obtain ⟨hmem, hpos⟩ := h.live (Scene.claims_pos hr)
  have hold := h.holding r hr
  exact ⟨hmem, hold.frees, hpos, hold.inodeNo, hold.valid, fun hm => (hold.entry hm).1.symm⟩

/-- No inode is allocated, and none is in memory. -/
def blank : Volume where
  blocks := fun _ => zeroBlock
  heap := fun _ => ⟨false, 0, 0, false, InodeEntry.zero⟩
  head := []
  allocs := 0

/-- Inode 1 is allocated, gotten and put, which frees it. -/
def freeActs : List ListStep := [.alloc inodeRegular, .get 1, .put ⟨1, 1, 0⟩, .clear 1]

/-- A second thread allocates the number as soon as it is free, but gets it only when the
first has taken the object out of the list. It gets another object, since the first has
yet to be freed. -/
theorem reference_keeps_inode_reallocated : ∃ s : Scene,
    Reach (fun s a s' => s.exec oneBlockDisk .next a = some s') (AsksForLiving oneBlockDisk) (.start blank) s ∧
    s.refs = [⟨1, 2, 0⟩] ∧ 2 ∈ s.vol.head ∧ s.frees 2 = 0 ∧ (s.vol.heap 2).valid = true ∧
    (2 ∉ s.modified → (s.vol.heap 2).entry = s.vol.diskEntry oneBlockDisk 1) := by
  have hany : (runAll (Scene.exec oneBlockDisk .next) (AsksForLiving oneBlockDisk) (.start blank)
      (freeActs ++ [.alloc inodeDirectory, .unlink 1, .get 1, .free 1])).any
        (fun s => s.refs == [⟨1, 2, 0⟩]) = true := by
    decide +kernel
  obtain ⟨s, hreach, hrefs⟩ := Reach.exists_of_any hany
  have hrefs' := eq_of_beq hrefs
  have hkeeps := reference_keeps_inode oneBlockDisk_layout List.nodup_nil
    (fun _ hp => absurd hp List.not_mem_nil) hreach
  rw [hrefs'] at hkeeps
  obtain ⟨hmem, hfrees, -, -, hvalid, hentry⟩ := hkeeps _ (List.mem_singleton.mpr rfl)
  exact ⟨s, hreach, hrefs', hmem, hfrees, hvalid, hentry⟩

/-- The second thread gets the number before the first has taken the object out of the
list: it finds the object, which is then unlinked and freed under its reference. -/
theorem dying_inode_found : ∃ s : Scene,
    Reach (fun s a s' => s.exec oneBlockDisk .next a = some s') AsksForAllocated (.start blank) s ∧
    ∃ r ∈ s.refs, r.p ∉ s.vol.head ∧ s.frees r.p ≠ r.frees ∧ (s.vol.heap r.p).valid = false := by
  have hany : (runAll (Scene.exec oneBlockDisk .next) AsksForAllocated (.start blank)
      (freeActs ++ [.alloc inodeDirectory, .get 1, .unlink 1, .free 1])).any (fun s =>
        decide (∃ r ∈ s.refs, r.p ∉ s.vol.head ∧ s.frees r.p ≠ r.frees ∧ (s.vol.heap r.p).valid = false)) = true := by
    decide +kernel
  obtain ⟨s, hreach, hs⟩ := Reach.exists_of_any hany
  exact ⟨s, hreach, of_decide_eq_true hs⟩

end OS2021.Fs
