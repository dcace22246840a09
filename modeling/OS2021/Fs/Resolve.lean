import Mathlib.Data.List.DropRight
import OS2021.Fs.Directory
import OS2021.Fs.InodeTable
import OS2021.Fs.Owners
import OS2021.Lib.Trie

/-! Paths in a directory tree.

A directory and a name lead to an inode (`Volume.child`), a path is a list of names, and
`namex` goes where the names lead. In a `FileTree` it changes nothing but counts on the
way. -/
namespace OS2021.Fs
open Lib
open Common (cString)

/-! ### The names of a path -/

section Names
variable {path path' name name' : List UInt8}

/-- The names of a path, cut as `skipelem` cuts them. -/
def pathNames (path : List UInt8) : List (List UInt8) :=
  match _h : skipelem path [] with
  | none => []
  | some (rest, name) => nameOf name :: pathNames rest
termination_by path.length
decreasing_by exact skipelem_length _h

/-- An element without zeros, cut to the length of a name. -/
theorem nameOf_element {elem rest : List UInt8} (h : ∀ c ∈ elem, c ≠ 0) :
    nameOf (if fileNameMaxLength ≤ elem.length then elem.take fileNameMaxLength ++ rest.drop fileNameMaxLength
      else elem ++ 0 :: rest.drop (elem.length + 1)) = elem.take fileNameMaxLength := by
  have hkeep : ∀ l : List UInt8, (∀ c ∈ l, c ≠ 0) → l.takeWhile (· ≠ 0) = l := fun l hl =>
    List.takeWhile_eq_self_iff.mpr fun c hc => decide_eq_true (hl c hc)
  rw [nameOf, cString]
  split
  case isTrue hlong =>
    have hlen : (elem.take fileNameMaxLength).length = fileNameMaxLength := by
      rw [List.length_take, Nat.min_eq_left hlong]
    rw [List.take_append_of_le_length hlen.ge, List.take_of_length_le hlen.le]
    exact hkeep _ fun c hc => h c (List.mem_of_mem_take hc)
  case isFalse hshort =>
    have hlt : elem.length < fileNameMaxLength := Nat.lt_of_not_le hshort
    obtain ⟨k, hk⟩ : ∃ k, fileNameMaxLength = elem.length + (k + 1) := ⟨fileNameMaxLength - elem.length - 1, by omega⟩
    rw [List.take_of_length_le hlt.le, hk, List.take_length_add_append, List.take_succ_cons,
      List.takeWhile_append_of_pos fun c hc => decide_eq_true (h c hc), List.takeWhile_cons_of_neg (by decide),
      List.append_nil]

theorem element_ne_zero (path : List UInt8) :
    ∀ c ∈ (path.dropWhile (· = slash)).takeWhile fun c => c ≠ slash ∧ c ≠ 0, c ≠ 0 := by
  intro c hc
  have htest := List.mem_takeWhile_imp hc
  exact (of_decide_eq_true htest).2

section
variable (h : skipelem path name = some (path', name'))
include h

/-- What `skipelem` leaves does not depend on what was in `name` before. -/
theorem skipelem_buffer : ∃ name0, skipelem path [] = some (path', name0) ∧ nameOf name0 = nameOf name' := by
  unfold skipelem at h ⊢
  dsimp only at h ⊢
  split at h
  case isTrue => cases h
  case isFalse hfirst =>
    rw [if_neg hfirst]
    cases h
    have helem := element_ne_zero path
    exact ⟨_, rfl, (nameOf_element helem).trans (nameOf_element helem).symm⟩

theorem pathNames_cons : pathNames path = nameOf name' :: pathNames path' := by
  obtain ⟨name0, hskip, hname⟩ := skipelem_buffer h
  rw [pathNames]
  split
  case h_1 hnone =>
    rw [hskip] at hnone
    cases hnone
  case h_2 rest name1 hsome =>
    rw [hskip] at hsome
    cases hsome
    rw [hname]

omit h in
theorem skipelem_none : skipelem path name = none ↔ firstByte (path.dropWhile (· = slash)) = 0 := by
  unfold skipelem
  dsimp only
  split
  case isTrue h => exact ⟨fun _ => h, fun _ => rfl⟩
  case isFalse h => exact ⟨nofun, fun h' => absurd h' h⟩

omit h in
theorem pathNames_nil (h : skipelem path name = none) : pathNames path = [] := by
  have hnone : skipelem path [] = none := skipelem_none.mpr (skipelem_none.mp h)
  rw [pathNames]
  split
  case h_1 => rfl
  case h_2 hsome =>
    rw [hnone] at hsome
    cases hsome

/-- The test for the last name. -/
theorem pathNames_rest : pathNames path' = [] ↔ firstByte path' = 0 := by
  have hdrop : path'.dropWhile (· = slash) = path' := by
    obtain ⟨-, h⟩ := Option.ite_none_left_eq_some.mp h
    cases h
    exact List.dropWhile_idempotent ..
  constructor
  · intro hnil
    cases hskip : skipelem path' [] with
    | none =>
      rw [← hdrop]
      exact skipelem_none.mp hskip
    | some next =>
      obtain ⟨rest, name1⟩ := next
      rw [pathNames_cons hskip] at hnil
      cases hnil
  · intro hzero
    have hnone : skipelem path' [] = none := skipelem_none.mpr (by rw [hdrop]; exact hzero)
    exact pathNames_nil hnone

end

end Names

/-! ### Directory trees -/

section Tree
variable (sb : SuperBlock) (s : Volume) (d : Nat)

def Volume.IsDir : Prop := s.Allocated sb d ∧ (s.entryOf sb d).type = inodeDirectory

instance : Decidable (s.IsDir sb d) := inferInstanceAs (Decidable (_ ∧ _))

/-- The inode that directory `d` has under a name. -/
def Volume.child (name : List UInt8) : Option Nat :=
  if s.IsDir sb d then
    (find ((s.entryOf sb d).numBytes.toNat / dirEntrySize) (slotAt (s.content sb d)) name).map Prod.fst
  else none

end Tree

/-- A directory tree: the file system is intact, and what is in memory is loaded. Directories
have whole entries with different names, each of an inode that exists, and every inode has
a link. -/
structure FileTree (sb : SuperBlock) (s : Volume) : Prop where
  intact : Intact sb s
  nonneg : ∀ p ∈ s.head, 0 ≤ (s.heap p).rc
  loaded : ∀ p, s.Live p → (s.heap p).valid = true
  mounted : rootInodeNo < sb.numInodes.toNat
  root : s.IsDir sb rootInodeNo
  aligned : ∀ d, s.IsDir sb d → dirEntrySize ∣ (s.entryOf sb d).numBytes.toNat
  distinct : ∀ d, s.IsDir sb d →
    Distinct ((s.entryOf sb d).numBytes.toNat / dirEntrySize) (slotAt (s.content sb d))
  named : ∀ d name i, s.child sb d name = some i → i < sb.numInodes.toNat ∧ s.Allocated sb i
  linked : ∀ i, s.Allocated sb i → (s.entryOf sb i).numLinks ≠ 0

/-- The inodes whose locks are held, by number. -/
def Volume.lockedNos (s : Volume) : Set Nat :=
  {i | ∃ p, s.Live p ∧ (s.heap p).inodeNo = i ∧ (s.heap p).locked = true}

variable {sb : SuperBlock} {arena : Arena} {console : Console} {stack : List UInt8 → List UInt8}
  {s s' s1 : Volume} {p q : Ptr} {i d : Nat} {path path' name name' de : List UInt8} {u : Unit}

section SameDisk
variable (h : Coherent sb s) (h' : Coherent sb s') (hb : s'.blocks = s.blocks)
include h h' hb

theorem Coherent.allocated_eq : s'.Allocated sb i ↔ s.Allocated sb i :=
  allocated_congr fun _ => by rw [h.entryOf_eq h' hb]

theorem Coherent.isDir_eq : s'.IsDir sb d ↔ s.IsDir sb d := by
  rw [Volume.IsDir, Volume.IsDir, h.allocated_eq h' hb, h.entryOf_eq h' hb]

theorem Coherent.child_eq : s'.child sb = s.child sb := by
  funext d name
  rw [Volume.child, Volume.child, h.entryOf_eq h' hb, h.content_eq h' hb]
  simp only [h.isDir_eq h' hb]

end SameDisk

theorem isDir_of_child (h : s.child sb d name = some i) : s.IsDir sb d := by
  unfold Volume.child at h
  split at h
  case isTrue hdir => exact hdir
  case isFalse => cases h

namespace FileTree

section
variable (h : FileTree sb s)
include h

theorem counted : Counted s := ⟨h.intact.listed.nodup, h.nonneg, h.intact.listed.unique⟩

theorem isLoaded (hp : s.Live p) : s.Loaded p := ⟨hp, h.loaded p hp⟩

theorem entryOf (hp : s.Live p) : s.entryOf sb (s.heap p).inodeNo = (s.heap p).entry :=
  h.intact.listed.entryOf (h.isLoaded hp)

/-- What happens in memory only leaves the tree as it is. -/
theorem memory (h' : Intact sb s') (hb : s'.blocks = s.blocks) (nonneg : ∀ p ∈ s'.head, 0 ≤ (s'.heap p).rc)
    (loaded : ∀ p, s'.Live p → (s'.heap p).valid = true) : FileTree sb s' := by
  have hentry := h.intact.coherent.entryOf_eq h'.coherent hb
  have hcontent := h.intact.coherent.content_eq h'.coherent hb
  have hchild := h.intact.coherent.child_eq h'.coherent hb
  have halloc : ∀ i, s'.Allocated sb i ↔ s.Allocated sb i := fun i => h.intact.coherent.allocated_eq h'.coherent hb
  have hdir : ∀ d, s'.IsDir sb d ↔ s.IsDir sb d := fun d => h.intact.coherent.isDir_eq h'.coherent hb
  refine ⟨h', nonneg, loaded, h.mounted, (hdir _).mpr h.root, fun d hd => ?_, fun d hd => ?_, fun d name i hi => ?_,
    fun i hi => ?_⟩
  · rw [hentry]
    exact h.aligned d ((hdir d).mp hd)
  · rw [hentry, hcontent]
    exact h.distinct d ((hdir d).mp hd)
  · rw [hchild] at hi
    rw [halloc]
    exact h.named d name i hi
  · rw [hentry]
    exact h.linked i ((halloc i).mp hi)

theorem directory (hp : s.Live p) (hdir : s.IsDir sb (s.heap p).inodeNo) : Directory sb p s := by
  have hentry := h.entryOf hp
  refine ⟨h.intact.listed, h.intact.consistent.toUnshared, h.isLoaded hp, ?_, ?_, ?_⟩
  · rw [← hentry]
    exact hdir.2
  · rw [← hentry]
    exact h.aligned _ hdir
  · rw [Volume.entries, ← hentry]
    exact h.distinct _ hdir

/-- `inode_lookup` finds what the tree has. -/
theorem lookup (hp : s.Live p) (hdir : s.IsDir sb (s.heap p).inodeNo) (console : Console) (de name : List UInt8) :
    ∃ o, (inodeLookup sb console de p name).run s =
      .ok ((s.child sb (s.heap p).inodeNo (nameOf name)).getD 0, o) s := by
  rw [(h.directory hp hdir).lookup_run, Volume.child, if_pos hdir, Volume.dirMap, Volume.entries, Volume.bytesOf,
    h.entryOf hp]
  cases find _ _ (nameOf name) with
  | none => exact ⟨_, rfl⟩
  | some r => exact ⟨_, rfl⟩

end

end FileTree

/-! ### Counts and locks -/

theorem touched_setInode (hnodup : s.head.Nodup) (p : Ptr) (f : Inode → Inode) : Touched p s (s.setInode p f) :=
  ⟨rfl, fun _ hq => setInode_of_ne hq, fun _ _ => Iff.rfl, hnodup⟩

theorem mem_lockedNos_touched (ht : Touched p s s') : i ∈ s'.lockedNos ↔
    (s'.Live p ∧ (s'.heap p).inodeNo = i ∧ (s'.heap p).locked = true) ∨
      ∃ q ≠ p, s.Live q ∧ (s.heap q).inodeNo = i ∧ (s.heap q).locked = true := by
  constructor
  · intro hi
    obtain ⟨q, hq⟩ := hi
    by_cases he : q = p
    · subst he
      exact .inl hq
    · rw [ht.live he, ht.others q he] at hq
      exact .inr ⟨q, he, hq⟩
  · intro hi
    rcases hi with hp | ⟨q, he, hq⟩
    · exact ⟨p, hp⟩
    · rw [← ht.live he, ← ht.others q he] at hq
      exact ⟨q, hq⟩

/-- Only the inode at `p` can make a difference. -/
theorem lockedNos_touched (ht : Touched p s s') (hnodup : s.head.Nodup)
    (hself : ∀ i, (s'.Live p ∧ (s'.heap p).inodeNo = i ∧ (s'.heap p).locked = true) ↔
      s.Live p ∧ (s.heap p).inodeNo = i ∧ (s.heap p).locked = true) : s'.lockedNos = s.lockedNos := by
  ext i
  rw [mem_lockedNos_touched ht, mem_lockedNos_touched (Touched.refl hnodup), hself]

namespace Counted
variable (hs : Counted s)
include hs

theorem mem_lockedNos (hp : s.Live p) : (s.heap p).inodeNo ∈ s.lockedNos ↔ (s.heap p).locked = true := by
  constructor
  · intro hmem
    obtain ⟨q, hq, hno, hlock⟩ := hmem
    rw [← hs.unique q p hq hp hno]
    exact hlock
  · exact fun hlock => ⟨p, hp, rfl, hlock⟩

theorem lockedNos_relock (hp : s.Live p) (l : Bool) :
    (s.setInode p fun ip => {ip with locked := l}).lockedNos =
      if l then insert (s.heap p).inodeNo s.lockedNos else s.lockedNos \ {(s.heap p).inodeNo} := by
  have hlive : (s.setInode p fun ip => {ip with locked := l}).Live p := (live_setInode rfl).mpr hp
  have hothers : ∀ q ≠ p, s.Live q → (s.heap q).inodeNo ≠ (s.heap p).inodeNo := fun q hne hq hno =>
    hne (hs.unique q p hq hp hno)
  ext i
  rw [mem_lockedNos_touched (touched_setInode hs.nodup p _), setInode_self]
  cases l with
  | true =>
    rw [if_pos rfl, Set.mem_insert_iff, mem_lockedNos_touched (Touched.refl (p := p) hs.nodup)]
    constructor
    · intro hi
      rcases hi with ⟨-, hno, -⟩ | hq
      · exact .inl hno.symm
      · exact .inr (.inr hq)
    · intro hi
      rcases hi with hno | ⟨-, hno, -⟩ | hq
      · exact .inl ⟨hlive, hno.symm, rfl⟩
      · exact .inl ⟨hlive, hno, rfl⟩
      · exact .inr hq
  | false =>
    rw [if_neg Bool.false_ne_true, Set.mem_sdiff, mem_lockedNos_touched (Touched.refl (p := p) hs.nodup)]
    constructor
    · intro hi
      rcases hi with ⟨-, -, hlock⟩ | ⟨q, hne, hq⟩
      · cases hlock
      · exact ⟨.inr ⟨q, hne, hq⟩, fun hi => hothers q hne hq.1 (hq.2.1.trans hi)⟩
    · intro hi
      obtain ⟨⟨-, hno, -⟩ | hq, hne⟩ := hi
      · exact absurd hno.symm hne
      · exact .inr hq

/-- Locking and unlocking an inode. -/
theorem lockedNos_locked (hp : s.Live p) :
    (s.setInode p fun ip => {ip with locked := true}).lockedNos = insert (s.heap p).inodeNo s.lockedNos :=
  hs.lockedNos_relock hp true

theorem lockedNos_unlocked (hp : s.Live p) :
    (s.setInode p fun ip => {ip with locked := false}).lockedNos = s.lockedNos \ {(s.heap p).inodeNo} :=
  hs.lockedNos_relock hp false

theorem lockedNos_share (hp : s.Live p) :
    (s.setInode p fun ip => {ip with rc := ip.rc + 1}).lockedNos = s.lockedNos := by
  refine lockedNos_touched (touched_setInode hs.nodup p _) hs.nodup fun i => and_congr ?_ ?_
  · exact ⟨fun _ => hp, fun _ => (share_others hp p hp).1⟩
  · rw [setInode_self]

theorem lockedNos_get (hget : (inodeGet sb arena i).run s = .ok p s') : s'.lockedNos = s.lockedNos := by
  have hmoved := (inodeGet_moved hs hget).1
  obtain ⟨-, -, ⟨hp, hno, rfl⟩ | ⟨hnone, hslot, hlock, rfl⟩⟩ := inodeGet_ok hget
  · exact hs.lockedNos_share hp
  · obtain ⟨-, hmem, -, hp, hothers, hhead⟩ := slotFor_moved hs arena hslot
    have ht : Touched p s ((s.slotFor arena).2.setInode p fun ip => ⟨false, ip.rc + 1, i, true, s.diskEntry sb i⟩) :=
      ⟨slotFor_blocks, fun q hne => (setInode_of_ne hne).trans (hothers q hne), hhead, hmoved.counted.nodup⟩
    refine lockedNos_touched ht hs.nodup fun i => ?_
    rw [setInode_self]
    exact ⟨fun hlocked => absurd hlocked.2.2 Bool.false_ne_true, fun hlive => absurd hlive.1 hp⟩

end Counted

namespace FileTree

section
variable (h : FileTree sb s) (hp : s.Live p)
include h hp

theorem unlocked (hfree : (s.heap p).inodeNo ∉ s.lockedNos) : (s.heap p).locked = false := by
  rw [← Bool.not_eq_true, ← h.counted.mem_lockedNos hp]
  exact hfree

theorem relock (l : Bool) : FileTree sb (s.setInode p fun ip => {ip with locked := l}) := by
  have hheap : ∀ q, ((s.setInode p fun ip => {ip with locked := l}).heap q).rc = (s.heap q).rc ∧
      ((s.setInode p fun ip => {ip with locked := l}).heap q).valid = (s.heap q).valid := by
    intro q
    by_cases he : q = p
    · rw [he, setInode_self]
      exact ⟨rfl, rfl⟩
    · rw [setInode_of_ne he]
      exact ⟨rfl, rfl⟩
  refine h.memory (h.intact.recount hp fun hrc => absurd hrc hp.2.ne') rfl (fun q hq => ?_) fun q hq => ?_
  · rw [(hheap q).1]
    exact h.nonneg q hq
  · rw [(hheap q).2]
    exact h.loaded q ((live_setInode rfl).mp hq)

/-- The same, by somebody who has locked the directory. -/
theorem lookup_locked (hdir : s.IsDir sb (s.heap p).inodeNo) (console : Console) (de name : List UInt8) :
    ∃ o, (inodeLookup sb console de p name).run (s.setInode p fun ip => {ip with locked := true}) =
      .ok ((s.child sb (s.heap p).inodeNo (nameOf name)).getD 0, o)
        (s.setInode p fun ip => {ip with locked := true}) := by
  have h' := h.relock hp true
  have hno : ((s.setInode p fun ip => {ip with locked := true}).heap p).inodeNo = (s.heap p).inodeNo :=
    inodeNo_setInode rfl p
  have hdir' := (h.intact.coherent.isDir_eq h'.intact.coherent rfl).mpr hdir
  have hfound := h'.lookup ((live_setInode rfl).mpr hp) (by rwa [hno]) console de name
  rwa [hno, h.intact.coherent.child_eq h'.intact.coherent rfl] at hfound

theorem share_tree : FileTree sb (s.setInode p fun ip => {ip with rc := ip.rc + 1}) := by
  have hrc := hp.2
  have hmoved := h.counted.recount (f := fun ip => {ip with rc := ip.rc + 1}) hp rfl rfl (by omega)
  refine h.memory (h.intact.share hp) rfl hmoved.counted.nonneg fun q hq => ?_
  by_cases he : q = p
  · rw [he, setInode_self]
    exact h.loaded p hp
  · rw [Volume.Live, setInode_of_ne he] at hq
    rw [setInode_of_ne he]
    exact h.loaded q hq

omit h hp in
theorem get_tree (h : FileTree sb s) (hi : s.Allocated sb i) (hget : (inodeGet sb arena i).run s = .ok p s') :
    FileTree sb s' ∧ s'.blocks = s.blocks ∧ s'.lockedNos = s.lockedNos := by
  have hintact := ((inodeGet_ends h.intact hi).of_ok hget).1
  have hmoved := (inodeGet_moved h.counted hget).1
  have hlocks := h.counted.lockedNos_get hget
  obtain ⟨-, -, ⟨hp, hno, rfl⟩ | ⟨hnone, hslot, hlock, rfl⟩⟩ := inodeGet_ok hget
  · exact ⟨h.share_tree hp, rfl, hlocks⟩
  · obtain ⟨-, -, -, -, hothers, hhead⟩ := slotFor_moved h.counted arena hslot
    refine ⟨h.memory hintact slotFor_blocks hmoved.counted.nonneg fun q hq => ?_, slotFor_blocks, hlocks⟩
    by_cases he : q = p
    · rw [he, setInode_self]
    · rw [Volume.Live, setInode_of_ne he, hothers q he] at hq
      rw [setInode_of_ne he, hothers q he]
      exact h.loaded q ⟨(hhead q he).mp hq.1, hq.2⟩

omit h hp in
/-- `inode_get` of an inode that exists. -/
theorem get_returns (h : FileTree sb s) (arena : Arena) (hi : s.Allocated sb i) (hlt : i < sb.numInodes.toNat) :
    ∃ p s', (inodeGet sb arena i).run s = .ok p s' :=
  inodeGet_accepts arena h.intact.listed.unlocked hi.1 hlt

/-- `inode_put` gives back a count, as every inode has a link. -/
theorem put_returns : (inodePut sb p).run s = .ok () (s.setInode p fun ip => {ip with rc := ip.rc - 1}) := by
  have hlinks : (s.heap p).entry.numLinks ≠ 0 := by
    rw [← h.entryOf hp]
    exact h.linked _ (h.intact.listed.allocated p hp)
  rw [inodePut, bind_ok (get_run s)]
  exact congrArg (fun x => EStateM.run x s) (if_neg fun hlast => hlinks hlast.2.2)

theorem put_tree (hfree : (s.heap p).rc = 1 → (s.heap p).locked = false) (hput : (inodePut sb p).run s = .ok u s') :
    FileTree sb s' ∧ s'.blocks = s.blocks ∧ s'.lockedNos = s.lockedNos := by
  have hrc := hp.2
  have hnodup := h.intact.listed.nodup
  rw [h.put_returns hp] at hput
  cases hput
  have hheap : ∀ q, ((s.setInode p fun ip => {ip with rc := ip.rc - 1}).heap q).valid = (s.heap q).valid ∧
      ((s.setInode p fun ip => {ip with rc := ip.rc - 1}).heap q).rc ≤ (s.heap q).rc := by
    intro q
    by_cases he : q = p
    · rw [he, setInode_self]
      exact ⟨rfl, Int.sub_le_self _ (by decide)⟩
    · rw [setInode_of_ne he]
      exact ⟨rfl, Int.le_refl _⟩
  refine ⟨h.memory (h.intact.recount hp fun hz => hfree (by omega)) rfl (fun q hq => ?_) fun q hq => ?_, rfl, ?_⟩
  · exact (h.counted.recount hp rfl rfl (show 0 ≤ (s.heap p).rc + -1 by omega)).counted.nonneg q hq
  · rw [(hheap q).1]
    exact h.loaded q ⟨hq.1, Int.lt_of_lt_of_le hq.2 (hheap q).2⟩
  · refine lockedNos_touched (touched_setInode hnodup p _) hnodup fun i => ?_
    rw [Volume.Live, setInode_self]
    dsimp only
    -- the last reference is not locked, so it does not matter that the inode is not live any more
    constructor
    · intro hl
      exact ⟨hp, hl.2⟩
    · intro hl
      refine ⟨⟨hp.1, ?_⟩, hl.2⟩
      by_contra hz
      have hunlocked := hfree (by omega)
      rw [hl.2.2] at hunlocked
      cases hunlocked

end

end FileTree

/-! ### The walk -/

section Walk
variable {fuel : Nat} (arena : Arena) (console : Console) (stack : List UInt8 → List UInt8)

/-- From a directory that is locked to an inode in it. -/
theorem FileTree.descend (h : FileTree sb s) (hp : s.Live p) (hfree : (s.heap p).locked = false)
    (hchild : s.child sb (s.heap p).inodeNo name = some i) : ∃ nx s2 s3 s1,
      (inodeGet sb arena i).run (s.setInode p fun ip => {ip with locked := true}) = .ok nx s2 ∧
      (inodeUnlock p).run s2 = .ok () s3 ∧ (inodePut sb p).run s3 = .ok () s1 ∧
      FileTree sb s1 ∧ s1.blocks = s.blocks ∧ s1.lockedNos = s.lockedNos ∧ s1.Live nx ∧ (s1.heap nx).inodeNo = i := by
  have hp1 : (s.setInode p fun ip => {ip with locked := true}).Live p := (live_setInode rfl).mpr hp
  have h1 := h.relock hp true
  obtain ⟨hlt, halloc⟩ := h.named _ _ _ hchild
  have halloc1 := (h.intact.coherent.allocated_eq h1.intact.coherent rfl).mpr halloc
  obtain ⟨nx, s2, hget⟩ := h1.get_returns arena halloc1 hlt
  obtain ⟨h2, hb2, hl2⟩ := h1.get_tree halloc1 hget
  obtain ⟨-, -, -, hno, hkept⟩ := inodeGet_moved h1.counted hget
  obtain ⟨hp2, hno2, -⟩ := hkept p hp1
  rw [inodeNo_setInode rfl] at hno2
  have hlocks : s2.lockedNos = insert (s.heap p).inodeNo s.lockedNos := hl2.trans (h.counted.lockedNos_locked hp)
  have hlock2 : (s2.heap p).locked = true := by
    rw [← h2.counted.mem_lockedNos hp2, hlocks, hno2]
    exact Set.mem_insert ..
  have hunlock := inodeUnlock_run hp2.2 hlock2
  have hp3 : (s2.setInode p fun ip => {ip with locked := false}).Live p := (live_setInode rfl).mpr hp2
  have h3 := h2.relock hp2 false
  have hput := h3.put_returns hp3
  obtain ⟨h', hb', hl'⟩ := h3.put_tree hp3 (fun _ => by rw [setInode_self]) hput
  have hwalked := Walked.step h.counted hp (.refl _) hget hunlock hput
  refine ⟨nx, s2, _, _, hget, hunlock, hput, h', hb'.trans hb2, ?_, hwalked.live nx rfl, ?_⟩
  · rw [hl', h2.counted.lockedNos_unlocked hp2, hlocks, hno2]
    refine Set.insert_sdiff_self_of_notMem ?_
    rw [h.counted.mem_lockedNos hp, hfree]
    exact Bool.false_ne_true
  · rw [inodeNo_setInode rfl, inodeNo_setInode rfl, hno]

/-- One name, found in a directory that nobody has locked. -/
theorem namexFrom_step {nameiparent : Bool} (h : FileTree sb s) (hp : s.Live p) (hfree : (s.heap p).locked = false)
    (hskip : skipelem path name = some (path', name')) (hmore : ¬ (nameiparent = true ∧ firstByte path' = 0))
    (hchild : s.child sb (s.heap p).inodeNo (nameOf name') = some i) :
    ∃ nx s1, (namexFrom sb arena console stack nameiparent (fuel + 1) p path name).run s =
        (namexFrom sb arena console stack nameiparent fuel nx path' name').run s1 ∧
      FileTree sb s1 ∧ s1.blocks = s.blocks ∧ s1.lockedNos = s.lockedNos ∧ s1.Live nx ∧ (s1.heap nx).inodeNo = i := by
  obtain ⟨nx, s2, s3, s1, hget, hunlock, hput, hnext⟩ := h.descend arena hp hfree hchild
  have hdir := isDir_of_child hchild
  have htype : ¬ ((s.setInode p fun ip => {ip with locked := true}).heap p).entry.type ≠ inodeDirectory := by
    rw [setInode_self, ← h.entryOf hp]
    exact not_not.mpr hdir.2
  obtain ⟨o, hlookup⟩ := h.lookup_locked hp hdir console (stack path') name'
  rw [hchild, Option.getD_some] at hlookup
  refine ⟨nx, s1, ?_, hnext⟩
  rw [namexFrom, hskip]
  dsimp only
  rw [bind_ok (inodeLock_run hp.2 hfree), bind_ok (get_run _), if_neg htype, if_neg hmore, bind_ok hlookup,
    if_neg (h.named _ _ _ hchild).2.1.ne', bind_ok hget, bind_ok hunlock, bind_ok hput]

/-- The lock taken and given back. -/
theorem setInode_relock (hfree : (s.heap p).locked = false) :
    (s.setInode p fun ip => {ip with locked := true}).setInode p (fun ip => {ip with locked := false}) = s := by
  rw [setInode_setInode]
  exact setInode_eq_self (by rw [← hfree])

/-! ### From the start -/

/-- Where a walk along `path` starts. -/
def Volume.startNo (s : Volume) (cwd : Ptr) (path : List UInt8) : Nat :=
  if firstByte path = slash then rootInodeNo else (s.heap cwd).inodeNo

theorem namexStart_tree {cwd : Ptr} (h : FileTree sb s) (hcwd : firstByte path ≠ slash → s.Live cwd) :
    ∃ ip s1, (namexStart sb arena cwd path).run s = .ok ip s1 ∧ FileTree sb s1 ∧ s1.blocks = s.blocks ∧
      s1.lockedNos = s.lockedNos ∧ s1.Live ip ∧ (s1.heap ip).inodeNo = s.startNo cwd path ∧
      ((s1.heap ip).rc = 1 → (s1.heap ip).locked = false) := by
  rw [namexStart, Volume.startNo]
  by_cases hroot : firstByte path = slash
  · rw [if_pos hroot, if_pos hroot]
    obtain ⟨ip, s1, hget⟩ := h.get_returns arena h.root.1 h.mounted
    obtain ⟨h1, hb, hl⟩ := h.get_tree h.root.1 hget
    obtain ⟨-, -, hlive, hno, hkept⟩ := inodeGet_moved h.counted hget
    refine ⟨ip, s1, hget, h1, hb, hl, hlive, hno, fun hone => h1.unlocked hlive fun hlocked => ?_⟩
    -- whoever has locked it has a reference of their own
    rw [hl] at hlocked
    obtain ⟨q, hq, hnoq, -⟩ := hlocked
    obtain ⟨hq1, hnoq1, hrc⟩ := hkept q hq
    have he := h1.intact.listed.unique q ip hq1 hlive (hnoq1.trans hnoq)
    have hpos := hq.2
    rw [he, if_pos rfl, hone] at hrc
    rw [he] at hpos
    omega
  · have hlive := hcwd hroot
    have h1 := h.share_tree hlive
    have hl := h.counted.lockedNos_share hlive
    obtain ⟨hlive1, hno, hrc⟩ := share_others hlive cwd hlive
    rw [if_neg hroot, if_neg hroot]
    refine ⟨cwd, _, rfl, h1, rfl, hl, hlive1, hno, fun hone => ?_⟩
    have hpos := hlive.2
    rw [hrc, if_pos rfl] at hone
    omega

end Walk

end OS2021.Fs
