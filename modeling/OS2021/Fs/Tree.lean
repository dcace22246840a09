import OS2021.Fs.Intact

/-! The calls of the inode layer (`InodeTree`) keep the file system intact.

A call returns, and leaves an intact file system; or it stops, and then it has failed
an assertion, or there is no block or no inode left. In particular no block is freed
twice and no file is mapped beyond its end. -/
namespace OS2021.Fs
open Lib
open Common (strncpy_length)

variable {sb : SuperBlock} {s s' s0 : Volume} {p q : Ptr} {i no off count : Nat} {src : List UInt8}
  {arena : Arena} {console : Console} {type : InodeType}

/-- How a call stops. -/
inductive Stops (sb : SuperBlock) : Halt → Volume → Prop
  | assertion {s : Volume} (predicate : String) : Stops sb (.panic ("assertion failed: \"" ++ predicate ++ "\"")) s
  | noBlock {s : Volume} (h : Full sb s) : Stops sb (.panic "cache_alloc: no free block") s
  | noInode {s : Volume} (h : ∀ i, 0 < i → i ≤ sb.numInodes.toNat → s.Allocated sb i) :
    Stops sb (.panic "failed to allocate inode on disk") s

theorem NoBlock.stops {e : Halt} (h : NoBlock sb e s) : Stops sb e s := by
  obtain ⟨rfl, hfull⟩ := h
  exact .noBlock hfull

theorem assertThat_ends {predicate : String} {c : Prop} [Decidable c] :
    Ends (fun _ s' => s' = s ∧ c) (Stops sb) ((assertThat predicate c).run s) := by
  rw [assertThat]
  by_cases h : c
  · rw [if_pos h, pure_run]
    exact .ok ⟨rfl, h⟩
  · rw [if_neg h, throw_run]
    exact .error (.assertion predicate)

theorem setInode_eq_self {f : Inode → Inode} (h : f (s.heap p) = s.heap p) : s.setInode p f = s := by
  rw [Volume.setInode, h, Function.update_eq_self]

theorem inodeLock_run (hrc : 0 < (s.heap p).rc) (h : (s.heap p).locked = false) :
    (inodeLock p).run s = .ok () (s.setInode p fun ip => {ip with locked := true}) := by
  rw [inodeLock, bind_ok (get_run s), bind_ok (assertThat_run hrc), h, if_neg Bool.false_ne_true, set_run]

theorem inodeUnlock_run (hrc : 0 < (s.heap p).rc) (h : (s.heap p).locked = true) :
    (inodeUnlock p).run s = .ok () (s.setInode p fun ip => {ip with locked := false}) := by
  rw [inodeUnlock, bind_ok (get_run s), bind_ok (assertThat_run h), bind_ok (assertThat_run hrc), set_run]

theorem inodeUnlock_ends : Ends (fun _ s' => 0 < (s.heap p).rc ∧ (s.heap p).locked = true ∧
      s' = s.setInode p fun ip => {ip with locked := false})
    (Stops sb) ((inodeUnlock p).run s) := by
  by_cases h : 0 < (s.heap p).rc ∧ (s.heap p).locked = true
  · rw [inodeUnlock_run h.1 h.2]
    exact .ok ⟨h.1, h.2, rfl⟩
  · rw [inodeUnlock, bind_ok (get_run s)]
    refine assertThat_ends.bind fun _ s1 _ h1 => ?_
    refine assertThat_ends.bind fun _ s2 _ h2 => ?_
    exact absurd ⟨h2.2, h1.2⟩ h

/-- The console gives the lock back and takes it again. -/
theorem relock_ends {α : Type} (a : α) :
    Ends (fun _ s' => s' = s) (Stops sb) ((do inodeUnlock p; inodeLock p; return a : V α).run s) := by
  refine inodeUnlock_ends.bind fun _ s1 _ ⟨hrc, hlock, hs⟩ => ?_
  have hrun := inodeLock_run (s := s1) (p := p) (by rw [hs, setInode_self]; exact hrc) (by rw [hs, setInode_self])
  rw [bind_ok hrun, pure_run, hs, setInode_setInode]
  refine .ok (setInode_eq_self ?_)
  rw [← hlock]

/-! ### Reading and writing -/

section Contents
variable (h : Intact sb s) (hp : s.Loaded p)
include h hp

theorem inodeRead_ends (hn : count < 2 ^ 64) :
    Ends (fun _ s' => s' = s) (Stops sb) ((inodeRead sb console p off count).run s) := by
  by_cases hdev : (s.heap p).entry.type = inodeDevice
  · rw [inodeRead, bind_ok (get_run s), if_pos hdev]
    refine assertThat_ends.bind fun _ s1 _ h1 => ?_
    rw [h1.1]
    exact relock_ends _
  · by_cases hok : off ≤ (s.heap p).entry.numBytes.toNat ∧ off + count < 2 ^ 64
    · rw [inodeRead_spec h.listed h.consistent.toUnshared hp hdev hok.1 hok.2]
      exact .ok rfl
    · -- the end wraps around, and is then before the offset
      rw [inodeRead, bind_ok (get_run s), if_neg hdev]
      refine assertThat_ends.bind fun _ s1 _ h1 => ?_
      refine assertThat_ends.bind fun _ s2 _ h2 => ?_
      refine assertThat_ends.bind fun _ s3 _ h3 => ?_
      have hsize : (s.heap p).entry.numBytes.toNat < 2 ^ 32 := UInt32.toNat_lt _
      have hoff := h1.2
      have hle := h3.2
      refine absurd ⟨hoff, ?_⟩ hok
      by_contra hover
      rw [if_neg (by omega)] at hle
      omega

theorem inodeWrite_ends (hl : Layout sb) (hn : src.length < 2 ^ 64) :
    Ends (fun _ s' => Intact sb s') (Stops sb) ((inodeWrite sb p src off).run s) := by
  by_cases hdev : (s.heap p).entry.type = inodeDevice
  · rw [inodeWrite]
    dsimp only
    rw [bind_ok (get_run s), if_pos hdev]
    refine assertThat_ends.bind fun _ s1 _ h1 => ?_
    rw [h1.1]
    exact (relock_ends _).mono (fun _ _ hs => hs ▸ h) fun _ _ he => he
  · by_cases hok : off ≤ (s.heap p).entry.numBytes.toNat ∧ off + src.length ≤ inodeMaxBytes
    · refine (inodeWrite_spec hl h.listed h.consistent.toUnshared hp hdev hok.1 hok.2).mono ?_
        fun _ _ he => he.1.stops
      exact fun _ s' hw => ⟨hw.2.1.consistent h.consistent, hw.2.1.listed h.listed, hw.2.2 h.coherent⟩
    · rw [inodeWrite]
      dsimp only
      rw [bind_ok (get_run s), if_neg hdev]
      refine assertThat_ends.bind fun _ s1 _ h1 => ?_
      refine assertThat_ends.bind fun _ s2 _ h2 => ?_
      refine assertThat_ends.bind fun _ s3 _ h3 => ?_
      have hsize : (s.heap p).entry.numBytes.toNat < 2 ^ 32 := UInt32.toNat_lt _
      have hoff := h1.2
      have hend := h2.2
      refine absurd ⟨hoff, ?_⟩ hok
      rwa [Nat.mod_eq_of_lt (by omega)] at hend

end Contents

/-! ### Directories -/

section Directories
variable (h : Intact sb s) (hp : s.Loaded p)
include h hp

theorem readDirent_ends {de : List UInt8} :
    Ends (fun _ s' => s' = s) (Stops sb) ((readDirent sb console p off de).run s) := by
  rw [readDirent]
  refine (inodeRead_ends h hp (by decide)).bind fun r s1 _ hs => ?_
  rw [pure_run]
  exact .ok hs

theorem lookupFrom_ends {name : List UInt8} (offsets : List Nat) (de : List UInt8) :
    Ends (fun _ s' => s' = s) (Stops sb) ((lookupFrom sb console p name offsets de).run s) := by
  induction offsets generalizing de with
  | nil => exact .ok rfl
  | cons off rest ih =>
    rw [lookupFrom]
    refine (readDirent_ends h hp).bind fun de' s1 _ hs => ?_
    subst hs
    split
    case isTrue => exact ih de'
    case isFalse =>
      split
      case isTrue => exact .ok rfl
      case isFalse => exact ih de'

theorem inodeLookup_ends {de name : List UInt8} :
    Ends (fun _ s' => s' = s) (Stops sb) ((inodeLookup sb console de p name).run s) := by
  rw [inodeLookup, bind_ok (get_run s)]
  refine assertThat_ends.bind fun _ s1 _ h1 => ?_
  rw [h1.1]
  exact lookupFrom_ends h hp _ _

theorem freeDirent_ends {stop : Nat} (offsets : List Nat) (de : List UInt8) :
    Ends (fun _ s' => s' = s) (Stops sb) ((freeDirent sb console p stop offsets de).run s) := by
  induction offsets generalizing de with
  | nil => exact .ok rfl
  | cons off rest ih =>
    rw [freeDirent]
    refine (readDirent_ends h hp).bind fun de' s1 _ hs => ?_
    subst hs
    split
    case isTrue => exact .ok rfl
    case isFalse => exact ih de'

end Directories

theorem direntBytes_length (no : Nat) (name : List UInt8) : (direntBytes no name).length = dirEntrySize := by
  rw [direntBytes, List.length_append, strncpy_length]
  rfl

section Updates
variable (h : Intact sb s) (hl : Layout sb) (hp : s.Loaded p)
include h hl hp

theorem inodeInsert_ends {de de' name : List UInt8} :
    Ends (fun _ s' => Intact sb s') (Stops sb) ((inodeInsert sb console de de' p name no).run s) := by
  have hlen : (direntBytes no name).length < 2 ^ 64 := by
    rw [direntBytes_length]
    decide
  rw [inodeInsert, bind_ok (get_run s)]
  refine assertThat_ends.bind fun _ s1 _ h1 => ?_
  obtain rfl := h1.1
  refine (inodeLookup_ends h hp).bind fun found s2 _ h2 => ?_
  subst h2
  split
  case isTrue => exact .ok h
  case isFalse =>
    refine (freeDirent_ends h hp _ _).bind fun off s3 _ h3 => ?_
    subst h3
    refine (inodeWrite_ends h hp hl hlen).bind fun _ s4 _ h4 => ?_
    exact .ok h4

theorem inodeRemove_ends {index : Nat} :
    Ends (fun _ s' => Intact sb s') (Stops sb) ((inodeRemove sb p index).run s) := by
  rw [inodeRemove, bind_ok (get_run s)]
  refine assertThat_ends.bind fun _ s1 _ h1 => ?_
  obtain rfl := h1.1
  refine (inodeWrite_ends h hp hl ?_).bind fun _ s2 _ h2 => .ok h2
  rw [List.length_replicate]
  decide

theorem inodeClear_ends : Ends (fun _ s' => Intact sb s') (Stops sb) ((inodeClear sb p).run s) := by
  refine (inodeClear_spec hl h.listed h.consistent.toUnshared hp).mono ?_ fun _ _ he => he.elim
  exact fun _ s' hs => ⟨hs.1.consistent h.consistent, hs.1.listed h.listed, hs.2.2 h.coherent⟩

end Updates

/-! ### `inode_alloc` -/

theorem InodeEntry.bare_zero : InodeEntry.Bare {InodeEntry.zero with type} :=
  fun _ => ⟨rfl, addrOf_emptied (e := {InodeEntry.zero with type})⟩

section
variable (h : Intact sb s) (hl : Layout sb)
include h hl

/-- The entry of an inode that is not allocated can be taken. -/
theorem Intact.alloc (hle : no ≤ sb.numInodes.toNat) (hfree : (s.diskEntry sb no).type = inodeInvalid)
    (type : InodeType) : Intact sb (s.storeEntry sb no {InodeEntry.zero with type}) := by
  have hnot : ¬ s.Allocated sb no := fun ha => by
    have htype := ha.2.2
    rw [h.coherent.entryOf] at htype
    exact htype hfree
  refine h.replace hl hle ?_ (fun σ => if_neg hnot) InodeEntry.bare_zero
  intro q hq he
  exact hnot (he ▸ h.listed.allocated q hq)

theorem inodeAllocFrom_ends {inums : List Nat} (hinums : ∀ i ∈ inums, 0 < i ∧ i ≤ sb.numInodes.toNat) :
    Ends (fun _ s' => Intact sb s')
      (fun e s' => e = .panic "failed to allocate inode on disk" ∧ s' = s ∧ ∀ i ∈ inums, s.Allocated sb i)
      ((inodeAllocFrom sb type inums).run s) := by
  induction inums with
  | nil =>
    rw [inodeAllocFrom, if_pos hl.counter, throw_run]
    exact .error ⟨rfl, rfl, nofun⟩
  | cons inum rest ih =>
    obtain ⟨hpos, hle⟩ := hinums inum (List.mem_cons_self ..)
    rw [inodeAllocFrom, bind_ok (get_run s)]
    dsimp only
    by_cases hfree : (getEntry (s.blocks (toBlockNo sb inum)) inum).type = inodeInvalid
    · rw [if_pos hfree, bind_ok (set_run _ _), pure_run]
      exact .ok (h.alloc hl hle hfree type)
    · rw [if_neg hfree]
      refine (ih fun i hi => hinums i (List.mem_cons_of_mem _ hi)).mono (fun _ _ hs => hs) ?_
      intro e s' hres
      obtain ⟨he, hs, hrest⟩ := hres
      refine ⟨he, hs, List.forall_mem_cons.mpr ⟨⟨hpos, hle, ?_⟩, hrest⟩⟩
      rw [h.coherent.entryOf]
      exact hfree

theorem inodeAlloc_ends : Ends (fun _ s' => Intact sb s') (Stops sb) ((inodeAlloc sb type).run s) := by
  rw [inodeAlloc]
  refine assertThat_ends.bind fun _ s1 _ h1 => ?_
  obtain rfl := h1.1
  rw [if_pos hl.counter, List.append_nil]
  refine (inodeAllocFrom_ends h hl fun i hi => ?_).mono (fun _ _ hs => hs) ?_
  · obtain ⟨j, hj, rfl⟩ := List.mem_map.mp hi
    rw [List.mem_range] at hj
    exact ⟨Nat.succ_pos j, hj⟩
  · intro e s' hres
    obtain ⟨rfl, rfl, hall⟩ := hres
    refine .noInode fun i hpos hle => hall i (List.mem_map.mpr ⟨i - 1, ?_, ?_⟩)
    · rw [List.mem_range]
      omega
    · exact Nat.sub_add_cancel hpos

/-! ### References -/

omit h hl in
theorem inodeSync_load {doWrite : Bool} (h : (s.heap p).valid = false) :
    (inodeSync sb p doWrite).run s = .ok () (s.setInode p fun ip =>
      {ip with valid := true, entry := s.diskEntry sb ip.inodeNo}) := by
  rw [inodeSync, bind_ok (get_run s)]
  dsimp only
  rw [h, Bool.and_false, if_neg Bool.false_ne_true, Bool.not_false, if_pos rfl, set_run]
  rfl

theorem inodeSync_ends (hp : s.Live p) {doWrite : Bool} :
    Ends (fun _ s' => Intact sb s') (Stops sb) ((inodeSync sb p doWrite).run s) := by
  cases hvalid : (s.heap p).valid with
  | false =>
    rw [inodeSync_load hvalid]
    refine .ok (h.setInode hp rfl (fun _ => rfl) fun hrc => ?_)
    exact absurd hrc hp.2.ne'
  | true =>
    have hload : s.Loaded p := ⟨hp, hvalid⟩
    cases doWrite with
    | false =>
      rw [inodeSync, bind_ok (get_run s)]
      dsimp only
      rw [hvalid]
      exact .ok h
    | true =>
      have hsame : SameInodes s (s.synced sb p) := .of_heap rfl rfl
      rw [inodeSync_write hvalid]
      refine .ok ⟨h.consistent.synced hl h.listed hload, h.listed.congr hsame fun i hi => ?_, fun q hq => ?_⟩
      · rw [Volume.Allocated, entryOf_synced h.listed hload]
        exact hi
      · have hq' : s.Loaded q := hq
        show (s.synced sb p).diskEntry sb (s.heap q).inodeNo = (s.heap q).entry
        rw [diskEntry_synced]
        by_cases he : (s.heap q).inodeNo = (s.heap p).inodeNo
        · rw [if_pos he, h.listed.unique q p hq'.1 hp he]
        · rw [if_neg he]
          exact h.coherent q hq'

end

theorem Intact.share (h : Intact sb s) (hp : s.Live p) :
    Intact sb (s.setInode p fun ip => {ip with rc := ip.rc + 1}) := by
  have hrc := hp.2
  exact h.recount hp fun hz => by omega

theorem inodeShare_ends (h : Intact sb s) (hp : s.Live p) :
    Ends (fun r s' => Intact sb s' ∧ r = p) (Stops sb) ((inodeShare p).run s) := by
  rw [inodeShare, bind_ok (modify_run _ _), pure_run]
  exact .ok ⟨h.share hp, rfl⟩

theorem Touched.setInode {f : Inode → Inode} (h : Touched p s s') : Touched p s (s'.setInode p f) :=
  ⟨h.blocks, fun q hq => (setInode_of_ne hq).trans (h.others q hq), h.head, h.nodup⟩

/-- `inode_get` takes an inode of the list that nobody references, or links a new one. -/
theorem slotFor_cases (arena : Arena) (s : Volume) :
    (∃ p ∈ s.head, (s.heap p).rc = 0 ∧ s.slotFor arena = (p, s)) ∨
    ∃ p ∉ s.head, s.slotFor arena = (p, {s.setInode p fun ip => ⟨false, 0, 0, false, ip.entry⟩ with
      head := p :: s.head, allocs := s.allocs + 1}) := by
  cases hfind : s.head.find? fun p => (s.heap p).rc == 0 with
  | some p =>
    left
    have htest := List.find?_some hfind
    exact ⟨p, List.mem_of_find?_eq_some hfind, eq_of_beq htest, by rw [Volume.slotFor, hfind]⟩
  | none =>
    right
    exact ⟨arena.pick s.allocs s.head, arena.fresh s.allocs s.head, by rw [Volume.slotFor, hfind]⟩

/-- The in-memory inode that `inode_get` takes is nobody's. -/
theorem slotFor_free (arena : Arena) (hs : ∀ p ∈ s.head, (s.heap p).rc = 0 → (s.heap p).locked = false) :
    ((s.slotFor arena).2.heap (s.slotFor arena).1).rc = 0 ∧
      ((s.slotFor arena).2.heap (s.slotFor arena).1).locked = false ∧ (s.slotFor arena).2.blocks = s.blocks := by
  rcases slotFor_cases arena s with ⟨p, hmem, hrc, hslot⟩ | ⟨p, -, hslot⟩
  · rw [hslot]
    exact ⟨hrc, hs p hmem hrc, rfl⟩
  · rw [hslot]
    dsimp only
    refine ⟨?_, ?_, rfl⟩
    · exact congrArg Inode.rc setInode_self
    · exact congrArg Inode.locked setInode_self

theorem slotFor_touched (hw : Listed sb s) (arena : Arena) :
    Touched (s.slotFor arena).1 s (s.slotFor arena).2 ∧ (s.slotFor arena).1 ∈ (s.slotFor arena).2.head := by
  rcases slotFor_cases arena s with ⟨p, hmem, hrc, hslot⟩ | ⟨p, hfresh, hslot⟩
  · rw [hslot]
    exact ⟨⟨rfl, fun _ _ => rfl, fun _ _ => Iff.rfl, hw.nodup⟩, hmem⟩
  · rw [hslot]
    refine ⟨⟨rfl, fun q hq => Function.update_of_ne hq _ _, fun q hq => ?_, List.nodup_cons.mpr ⟨hfresh, hw.nodup⟩⟩,
      List.mem_cons_self ..⟩
    rw [List.mem_cons]
    exact or_iff_right hq

/-- What `inode_get` does with an inode it has claimed. -/
theorem inodeGet_load (hrc : 0 < (s.heap p).rc) (hlock : (s.heap p).locked = false)
    (hvalid : (s.heap p).valid = false) :
    (do inodeLock p; inodeSync sb p false; inodeUnlock p; return p : V Ptr).run s =
      .ok p (s.setInode p fun ip =>
        {ip with locked := false, valid := true, entry := s.diskEntry sb ip.inodeNo}) := by
  rw [bind_ok (inodeLock_run hrc hlock), bind_ok (inodeSync_load (by rw [setInode_self]; exact hvalid)),
    setInode_setInode, bind_ok (inodeUnlock_run (by rw [setInode_self]; exact hrc) (by rw [setInode_self])), pure_run,
    setInode_setInode]
  rfl

/-- An inode that is not in memory is loaded from its entry. -/
theorem inodeGet_fresh (arena : Arena) (hs : ∀ p ∈ s.head, (s.heap p).rc = 0 → (s.heap p).locked = false)
    (hpos : 0 < no) (hlt : no < sb.numInodes.toNat)
    (hnone : s.head.find? (fun p => 0 < (s.heap p).rc && (s.heap p).inodeNo == no) = none) :
    (inodeGet sb arena no).run s = .ok (s.slotFor arena).1
      ((s.slotFor arena).2.setInode (s.slotFor arena).1 fun _ => ⟨false, 1, no, true, s.diskEntry sb no⟩) := by
  obtain ⟨hrc, hlock, hblocks⟩ := slotFor_free arena hs
  have hone : ((s.slotFor arena).2.heap (s.slotFor arena).1).rc + 1 = 1 := by rw [hrc]; rfl
  rw [inodeGet, bind_ok (assertThat_run hpos), bind_ok (assertThat_run hlt), bind_ok (get_run s), hnone]
  dsimp only
  rw [bind_ok (set_run _ _), inodeGet_load, setInode_setInode]
  · refine congrArg (EStateM.Result.ok _) (setInode_congr ?_)
    show (⟨false, _ + 1, no, true, getEntry ((s.slotFor arena).2.blocks _) no⟩ : Inode) = _
    rw [hone, hblocks]
    rfl
  · rw [setInode_self]
    show 0 < _ + 1
    rw [hone]
    decide
  · rw [setInode_self]
    exact hlock
  · rw [setInode_self]

theorem inodeGet_new (arena : Arena) (hw : Listed sb s) (hpos : 0 < no) (hlt : no < sb.numInodes.toNat)
    (hfree : ∀ q, s.Live q → (s.heap q).inodeNo ≠ no) :
    ∃ p s', (inodeGet sb arena no).run s = .ok p s' ∧ Touched p s s' ∧ p ∈ s'.head ∧
      s'.heap p = ⟨false, 1, no, true, s.diskEntry sb no⟩ := by
  obtain ⟨ht, hmem⟩ := slotFor_touched hw arena
  refine ⟨_, _, inodeGet_fresh arena hw.unlocked hpos hlt ?_, ht.setInode, hmem, setInode_self⟩
  refine List.find?_eq_none.mpr fun q hq htest => ?_
  simp only [Bool.and_eq_true, decide_eq_true_eq, beq_iff_eq] at htest
  exact hfree q ⟨hq, htest.1⟩ htest.2

/-- The inode that is returned is live and has the number asked for. -/
theorem inodeGet_ends (h : Intact sb s) (ha : s.Allocated sb no) :
    Ends (fun p s' => Intact sb s' ∧ s'.Live p ∧ (s'.heap p).inodeNo = no) (Stops sb)
      ((inodeGet sb arena no).run s) := by
  by_cases hlt : no < sb.numInodes.toNat
  · by_cases hfree : ∀ q, s.Live q → (s.heap q).inodeNo ≠ no
    · obtain ⟨p, s', hrun, ht, hmem, hp⟩ := inodeGet_new arena h.listed ha.1 hlt hfree
      rw [hrun]
      refine .ok ⟨h.touch ht (fun _ => ?_) (fun _ => ?_) fun _ _ => ?_, ⟨hmem, ?_⟩, ?_⟩
      · rw [hp]
        exact ⟨ha.1, hlt, ha, fun q _ hq => hfree q hq⟩
      all_goals rw [hp]
      exact Int.one_pos
    · rw [inodeGet, bind_ok (assertThat_run ha.1), bind_ok (assertThat_run hlt), bind_ok (get_run s)]
      cases hfind : s.head.find? fun p => 0 < (s.heap p).rc && (s.heap p).inodeNo == no with
      | some p =>
        have htest := List.find?_some hfind
        simp only [Bool.and_eq_true, decide_eq_true_eq, beq_iff_eq] at htest
        have hp : s.Live p := ⟨List.mem_of_find?_eq_some hfind, htest.1⟩
        dsimp only
        rw [bind_ok (set_run _ _), pure_run]
        refine .ok ⟨h.share hp, ⟨hp.1, ?_⟩, ?_⟩
        · rw [setInode_self]
          exact Int.lt_add_one_of_le htest.1.le
        · rw [setInode_self]
          exact htest.2
      | none =>
        refine absurd (fun q hq he => ?_) hfree
        have hnone := List.find?_eq_none.mp hfind q hq.1
        simp only [hq.2, he, decide_true, beq_self_eq_true, Bool.and_self, not_true] at hnone
  · rw [inodeGet, bind_ok (assertThat_run ha.1)]
    exact assertThat_ends.bind fun _ _ _ h2 => absurd h2.2 hlt

/-! ### `inode_put` -/

theorem Touched.refl (h : s.head.Nodup) : Touched p s s := ⟨rfl, fun _ _ => rfl, fun _ _ => Iff.rfl, h⟩

/-- With an inode that nobody holds, the entry on the disk is free to change. -/
theorem Intact.discard (h : Intact sb s) (hl : Layout sb) (hp : s.Loaded p) (ht : Touched p s s') (hout : p ∉ s'.head)
    (hempty : ∀ σ, s.addr sb ((s.heap p).inodeNo, σ) = 0) {e : InodeEntry} (he : e.Bare) :
    Intact sb (s'.storeEntry sb (s.heap p).inodeNo e) := by
  have h' : Intact sb s' := h.touch ht (fun hlive => absurd hlive.1 hout) (fun hload => absurd hload.1.1 hout)
    fun hmem => absurd hmem hout
  have hentry : ∀ i, s'.entryOf sb i = s.entryOf sb i := fun i => by
    rw [h'.coherent.entryOf, h.coherent.entryOf, Volume.diskEntry, Volume.diskEntry, ht.blocks]
  refine h'.replace hl (h.listed.numbered p hp.1).2.le (fun q hq hno => ?_) (fun σ => ?_) he
  · have hne : q ≠ p := fun he => hout (he ▸ hq.1)
    rw [ht.others q hne] at hno
    exact hne (h.listed.unique q p ((ht.live hne).mp hq) hp.1 hno)
  · rw [← hempty σ]
    exact addr_congr (fun _ => hentry _) fun _ _ => by rw [ht.blocks]

/-- What `inode_put` does to an inode that it has cleared: its entry is marked free and
stored, and the in-memory inode leaves the list. -/
def discard (sb : SuperBlock) (p : Ptr) : V Unit := do
  modify fun s => s.editEntry p fun e => {e with type := inodeInvalid}
  inodeSync sb p true
  modify fun s => s.setInode p fun ip => {ip with valid := false}
  inodeUnlock p
  modify fun s => s.unlink p

theorem discard_run (sb : SuperBlock) (hvalid : (s.heap p).valid = true) (hlock : (s.heap p).locked = true)
    (hrc : 0 < (s.heap p).rc) :
    ∃ s1 : Volume, s1.blocks = s.blocks ∧ (∀ q ≠ p, s1.heap q = s.heap q) ∧ s1.head = s.head.erase p ∧
      (discard sb p).run s =
        .ok () (s1.storeEntry sb (s.heap p).inodeNo {(s.heap p).entry with type := inodeInvalid}) := by
  rw [discard, bind_ok (modify_run _ _), bind_ok (inodeSync_write (by rw [editEntry_self]; exact hvalid)),
    Volume.synced, editEntry_self, bind_ok (modify_run _ _), bind_ok (inodeUnlock_run ?rc ?locked), modify_run]
  case rc =>
    rw [setInode_self, storeEntry_heap, editEntry_self]
    exact hrc
  case locked =>
    rw [setInode_self, storeEntry_heap, editEntry_self]
    exact hlock
  -- what is done to the in-memory inode and what is done to the disk commute
  refine ⟨(((s.editEntry p fun e => {e with type := inodeInvalid}).setInode p fun ip =>
    {ip with valid := false}).setInode p fun ip => {ip with locked := false}).unlink p, rfl, fun q hq => ?_, rfl, rfl⟩
  dsimp only [Volume.unlink]
  rw [setInode_of_ne hq, setInode_of_ne hq, setInode_of_ne hq, editEntry_of_ne hq]

/-- The end of an inode that has no blocks left. -/
theorem discard_ends (h : Intact sb s) (hl : Layout sb) (hp : s.Loaded p) (hlock : (s.heap p).locked = true)
    (hempty : ∀ σ, s.addr sb ((s.heap p).inodeNo, σ) = 0) :
    Ends (fun _ s' => Intact sb s') (Stops sb) ((discard sb p).run s) := by
  obtain ⟨s1, hblocks, hothers, hhead, hrun⟩ := discard_run sb hp.2 hlock hp.1.2
  have ht : Touched p s s1 := by
    refine ⟨hblocks, hothers, fun q hq => ?_, ?_⟩
    · rw [hhead]
      exact List.mem_erase_of_ne hq
    · rw [hhead]
      exact h.listed.nodup.erase p
  have hout : p ∉ s1.head := by
    rw [hhead]
    exact h.listed.nodup.not_mem_erase
  rw [hrun]
  exact .ok (h.discard hl hp ht hout hempty fun hne => absurd rfl hne)

/-- `inode_put` of the last reference to an inode without links. -/
theorem inodePut_last (h : (s.heap p).rc = 1 ∧ (s.heap p).valid = true ∧ (s.heap p).entry.numLinks = 0) :
    (inodePut sb p).run s = (do inodeLock p; inodeClear sb p; discard sb p : V Unit).run s := by
  rw [inodePut, bind_ok (get_run s)]
  dsimp only
  rw [if_pos h]
  rfl

theorem inodePut_ends (h : Intact sb s) (hl : Layout sb) (hp : s.Live p) (hlock : (s.heap p).locked = false) :
    Ends (fun _ s' => Intact sb s') (Stops sb) ((inodePut sb p).run s) := by
  by_cases hlast : (s.heap p).rc = 1 ∧ (s.heap p).valid = true ∧ (s.heap p).entry.numLinks = 0
  · rw [inodePut_last hlast, bind_ok (inodeLock_run hp.2 hlock)]
    have h1 : Intact sb (s.setInode p fun ip => {ip with locked := true}) :=
      h.recount hp fun hrc => absurd hrc hp.2.ne'
    have hp1 : (s.setInode p fun ip => {ip with locked := true}).Loaded p := by
      refine ⟨⟨hp.1, ?_⟩, ?_⟩
      · rw [setInode_self]
        exact hp.2
      · rw [setInode_self]
        exact hlast.2.1
    have hclear := inodeClear_spec hl h1.listed h1.consistent.toUnshared hp1
    refine (hclear.mono (fun _ _ hs => hs) fun _ _ he => he.elim).bind fun _ s2 _ ⟨hre, hempty, hcoherent⟩ => ?_
    refine discard_ends ⟨hre.consistent h1.consistent, hre.listed h1.listed, hcoherent h1.coherent⟩ hl
      (hre.same.loaded.mpr hp1) ?_ ?_
    · rw [hre.same.locked, setInode_self]
    · rw [hre.same.inodeNo]
      exact hempty
  · rw [inodePut, bind_ok (get_run s)]
    dsimp only
    rw [if_neg hlast, modify_run]
    exact .ok (h.recount hp fun _ => hlock)

/-! ### Runs -/

/-- A call through the `InodeTree`. -/
inductive TreeCall where
  | alloc (type : InodeType)
  | lock (p : Ptr)
  | unlock (p : Ptr)
  | sync (p : Ptr) (doWrite : Bool)
  | get (inodeNo : Nat)
  | clear (p : Ptr)
  | share (p : Ptr)
  | put (p : Ptr)
  | read (p : Ptr) (offset count : Nat)
  | write (p : Ptr) (src : List UInt8) (offset : Nat)
  | lookup (de : List UInt8) (p : Ptr) (name : List UInt8)
  | insert (de de' : List UInt8) (p : Ptr) (name : List UInt8) (inodeNo : Nat)
  | remove (p : Ptr) (index : Nat)

namespace TreeCall

/-- Inodes are passed by those who hold them. One gets only inodes that are allocated,
locks only what is not locked, and puts only what one does not hold the lock of. -/
def Legal (sb : SuperBlock) (s : Volume) : TreeCall → Prop
  | alloc _ => True
  | lock p => s.Live p ∧ (s.heap p).locked = false
  | unlock p => s.Live p
  | sync p _ => s.Live p
  | get inodeNo => s.Allocated sb inodeNo
  | clear p => s.Loaded p
  | share p => s.Live p
  | put p => s.Live p ∧ (s.heap p).locked = false
  | read p _ count => s.Loaded p ∧ count < 2 ^ 64
  | write p src _ => s.Loaded p ∧ src.length < 2 ^ 64
  | lookup _ p _ => s.Loaded p
  | insert _ _ p _ _ => s.Loaded p
  | remove p _ => s.Loaded p

instance (s : Volume) (p : Ptr) : Decidable (s.Live p) := inferInstanceAs (Decidable (_ ∧ _))

instance (s : Volume) (p : Ptr) : Decidable (s.Loaded p) := inferInstanceAs (Decidable (_ ∧ _))

instance (s : Volume) (c : TreeCall) : Decidable (c.Legal sb s) :=
  match c with
  | alloc _ => inferInstanceAs (Decidable True)
  | lock _ | put _ | read .. | write .. => inferInstanceAs (Decidable (_ ∧ _))
  | unlock p | sync p _ | share p => inferInstanceAs (Decidable (s.Live p))
  | get i => inferInstanceAs (Decidable (s.Allocated sb i))
  | clear p | lookup _ p _ | insert _ _ p _ _ | remove p _ => inferInstanceAs (Decidable (s.Loaded p))

variable (sb arena console)

def run : TreeCall → V Unit
  | alloc type => do let _ ← inodeAlloc sb type
  | lock p => inodeLock p
  | unlock p => inodeUnlock p
  | sync p doWrite => inodeSync sb p doWrite
  | get inodeNo => do let _ ← inodeGet sb arena inodeNo
  | clear p => inodeClear sb p
  | share p => do let _ ← inodeShare p
  | put p => inodePut sb p
  | read p offset count => do let _ ← inodeRead sb console p offset count
  | write p src offset => do let _ ← inodeWrite sb p src offset
  | lookup de p name => do let _ ← inodeLookup sb console de p name
  | insert de de' p name inodeNo => do let _ ← inodeInsert sb console de de' p name inodeNo
  | remove p index => inodeRemove sb p index

/-- The state a call that returns leaves. -/
def exec (s : Volume) (c : TreeCall) : Option Volume :=
  match (c.run sb arena console).run s with
  | .ok _ s' => some s'
  | .error _ _ => none

variable {sb arena console}

/-- One call on an intact file system. -/
theorem run_ends (hl : Layout sb) (h : Intact sb s) {c : TreeCall} (hok : c.Legal sb s) :
    Ends (fun _ s' => Intact sb s') (Stops sb) ((c.run sb arena console).run s) := by
  cases c with
  | alloc type => exact (inodeAlloc_ends h hl).bind fun _ _ _ hs => .ok hs
  | lock p =>
    rw [run, inodeLock_run hok.1.2 hok.2]
    exact .ok (h.recount hok.1 fun hrc => absurd hrc hok.1.2.ne')
  | unlock p =>
    refine inodeUnlock_ends.mono (fun _ s' hs => ?_) fun _ _ he => he
    rw [hs.2.2]
    exact h.recount hok fun _ => rfl
  | sync p doWrite => exact inodeSync_ends h hl hok
  | get inodeNo => exact (inodeGet_ends h hok).bind fun _ _ _ hs => .ok hs.1
  | clear p => exact inodeClear_ends h hl hok
  | share p => exact (inodeShare_ends h hok).bind fun _ _ _ hs => .ok hs.1
  | put p => exact inodePut_ends h hl hok.1 hok.2
  | read p offset count => exact (inodeRead_ends h hok.1 hok.2).bind fun _ _ _ hs => .ok (hs ▸ h)
  | write p src offset => exact (inodeWrite_ends h hok.1 hl hok.2).bind fun _ _ _ hs => .ok hs
  | lookup de p name => exact (inodeLookup_ends h hok).bind fun _ _ _ hs => .ok (hs ▸ h)
  | insert de de' p name inodeNo => exact (inodeInsert_ends h hl hok).bind fun _ _ _ hs => .ok hs
  | remove p index => exact inodeRemove_ends h hl hok

theorem exec_intact (hl : Layout sb) (h : Intact sb s) {c : TreeCall} (hok : c.Legal sb s)
    (hexec : c.exec sb arena console s = some s') : Intact sb s' := by
  rw [exec] at hexec
  split at hexec
  case h_1 r hr =>
    cases hexec
    exact (run_ends hl h hok).of_ok hr
  case h_2 => cases hexec

end TreeCall

/-- **The file system stays consistent.** From a consistent file system whose loaded
entries are as on the disk, every run of calls leads to consistent file systems only,
and a call that does not return has failed an assertion or run out of blocks or inodes. -/
theorem tree_stays_consistent (hl : Layout sb) (h0 : Intact sb s0)
    (hrun : Reach (fun s c s' => TreeCall.exec sb arena console s c = some s') (TreeCall.Legal sb) s0 s) :
    Consistent sb s ∧ ∀ c : TreeCall, c.Legal sb s →
      Ends (fun _ s' => Consistent sb s') (Stops sb) ((c.run sb arena console).run s) := by
  have h : Intact sb s := hrun.invariant h0 fun _ _ _ hs hok hexec => TreeCall.exec_intact hl hs hok hexec
  refine ⟨h.consistent, fun c hok => ?_⟩
  exact (TreeCall.run_ends hl h hok).mono (fun _ _ hs => hs.consistent) fun _ _ he => he

theorem oneFile_diskEntry {disk : InodeEntry} : (oneFile disk).diskEntry oneBlockDisk 1 = disk := by
  show getEntry (setEntry zeroBlock 1 disk) 1 = disk
  rw [getEntry_setEntry, if_pos rfl]

theorem oneFile_intact : Intact oneBlockDisk (oneFile oneBlockFile) :=
  ⟨oneFile_consistent, oneFile_listed, fun _ _ => oneFile_diskEntry⟩

/-- Sharing a file and putting it again, clearing it, allocating another inode and writing to the file. -/
theorem tree_stays_consistent_five_calls : ∃ s,
    Reach (fun s c s' => TreeCall.exec oneBlockDisk .next (fun _ => (0, [])) s c = some s')
      (TreeCall.Legal oneBlockDisk) (oneFile oneBlockFile) s ∧
    (s.entryOf oneBlockDisk 1).numBytes = 2 ∧ Consistent oneBlockDisk s ∧
    ∀ c : TreeCall, c.Legal oneBlockDisk s →
      Ends (fun _ s' => Consistent oneBlockDisk s') (Stops oneBlockDisk)
        ((c.run oneBlockDisk .next fun _ => (0, [])).run s) := by
  obtain ⟨s, hreach, hsize⟩ := Reach.exists_of_any (f := TreeCall.exec oneBlockDisk .next fun _ => (0, []))
    (P := fun s : Volume => (s.entryOf oneBlockDisk 1).numBytes == 2)
    (show (runAll _ (TreeCall.Legal oneBlockDisk) (oneFile oneBlockFile)
      [.share 1, .put 1, .clear 1, .alloc inodeDirectory, .write 1 [7, 8] 0]).any _ = true by decide +kernel)
  exact ⟨s, hreach, eq_of_beq hsize, tree_stays_consistent oneBlockDisk_layout oneFile_intact hreach⟩

/-- The entry on the disk before the file has got its block. -/
def unsyncedFile : InodeEntry := {InodeEntry.zero with type := inodeRegular, numLinks := 1}

/-- The data block is in use, but inode 1 has no block, and the other inodes are free. -/
def Volume.leaks (s : Volume) : Bool :=
  s.isUsed oneBlockDisk 7 && (s.entryOf oneBlockDisk 1).indirect == 0 &&
    decide (∀ a, (s.entryOf oneBlockDisk 1).addrs a = 0) &&
    (s.entryOf oneBlockDisk 2).type == inodeInvalid && (s.entryOf oneBlockDisk 3).type == inodeInvalid

theorem not_consistent_of_leaks (h : s.leaks = true) : ¬ Consistent oneBlockDisk s := by
  simp only [Volume.leaks, Bool.and_eq_true, beq_iff_eq, decide_eq_true_eq] at h
  obtain ⟨⟨⟨⟨hused, htable⟩, haddrs⟩, hfree2⟩, hfree3⟩ := h
  intro hc
  obtain ⟨⟨i, σ⟩, hk⟩ := hc.exact 7 hused (by decide) (by decide)
  rw [Volume.addr] at hk
  split at hk
  case isFalse => cases hk
  case isTrue ha =>
    obtain ⟨hpos, hle, htype⟩ := ha
    dsimp only at hpos hle htype hk
    have hle' : i ≤ 3 := hle
    have hcases : i = 1 ∨ i = 2 ∨ i = 3 := by omega
    rcases hcases with rfl | rfl | rfl
    · cases σ with
      | direct a =>
        rw [addrOf, haddrs] at hk
        cases hk
      | table =>
        rw [addrOf, htable] at hk
        cases hk
      | indirect j =>
        rw [addrOf, if_pos htable] at hk
        cases hk
    · exact htype hfree2
    · exact htype hfree3

/-- A block is lost when an inode is put whose entry has its block in memory but not yet
on the disk, and when something is written to an inode that is not allocated. -/
theorem consistency_lost : Layout oneBlockDisk ∧
    (Listed oneBlockDisk (oneFile unsyncedFile) ∧ Consistent oneBlockDisk (oneFile unsyncedFile) ∧
      ∃ s', (TreeCall.put 1).exec oneBlockDisk .next (fun _ => (0, [])) (oneFile unsyncedFile) = some s' ∧
        ¬ Consistent oneBlockDisk s') ∧
    Intact oneBlockDisk (oneFile oneBlockFile) ∧
      ∃ s', ([.clear 1, .get 2, .write 2 [1] 0] : List TreeCall).foldlM
          (TreeCall.exec oneBlockDisk .next fun _ => (0, [])) (oneFile oneBlockFile) = some s' ∧
        ¬ Consistent oneBlockDisk s' := by
  refine ⟨oneBlockDisk_layout, ⟨oneFile_listed, oneFile_consistent, ?_⟩, oneFile_intact, ?_⟩
  · refine ⟨_, rfl, not_consistent_of_leaks ?_⟩
    decide +kernel
  · have hrun : (([.clear 1, .get 2, .write 2 [1] 0] : List TreeCall).foldlM
        (TreeCall.exec oneBlockDisk .next fun _ => (0, [])) (oneFile oneBlockFile)).any Volume.leaks = true := by
      decide +kernel
    obtain ⟨s', hs, hleaks⟩ := (Option.any_eq_true _ _).mp hrun
    exact ⟨s', hs, not_consistent_of_leaks hleaks⟩

end OS2021.Fs
