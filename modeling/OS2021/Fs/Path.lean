import Mathlib.Algebra.Group.Pi.Lemmas
import OS2021.Fs.References

/-! Path resolution (`namex`).

The walk owns one reference at a time: it takes one to the directory it starts in,
and at each element one to the next inode before it gives back the one it has. Which
reference it still owns depends on the exit (`Exit.kept`). It should be the one it
returns, and it is at every exit but one: when a name is missing in a directory, 0 is
returned and the reference to the directory is lost. -/
namespace OS2021.Fs
open Lib

/-! ### Paths -/

/-- `'/'` -/
abbrev slash : UInt8 := 47

/-- `*path`, for the bytes of a string from there on. -/
def firstByte (path : List UInt8) : UInt8 := path.getD 0 0

/-- The path behind its first element, which is copied into `name`; `none` if it has none. -/
def skipelem (path name : List UInt8) : Option (List UInt8 × List UInt8) :=
  let s := path.dropWhile (· = slash)
  if firstByte s = 0 then none
  else
    let elem := s.takeWhile fun c => c ≠ slash ∧ c ≠ 0
    let name :=
      -- an element that fills `name` is not terminated
      if fileNameMaxLength ≤ elem.length then elem.take fileNameMaxLength ++ name.drop fileNameMaxLength
      else elem ++ 0 :: name.drop (elem.length + 1)
    some ((s.dropWhile fun c => c ≠ slash ∧ c ≠ 0).dropWhile (· = slash), name)

/-- The elements of a path get fewer. -/
theorem skipelem_length {path name path' name' : List UInt8} (h : skipelem path name = some (path', name')) :
    path'.length < path.length := by
  obtain ⟨hfirst, h⟩ := Option.ite_none_left_eq_some.mp h
  cases h
  cases hs : path.dropWhile (· = slash) with
  | nil =>
    rw [hs] at hfirst
    exact absurd rfl hfirst
  | cons c rest =>
    have hc : c ≠ 0 := by
      rw [hs] at hfirst
      exact hfirst
    have hslash : c ≠ slash := by
      have hhead := List.head?_dropWhile_not (fun c => decide (c = slash)) path
      rw [hs] at hhead
      simpa using hhead
    have hlen : (c :: rest).length ≤ path.length := hs ▸ (List.dropWhile_sublist _).length_le
    rw [List.dropWhile_cons_of_pos (by simp [hc, hslash])]
    calc _ ≤ (rest.dropWhile fun c => c ≠ slash ∧ c ≠ 0).length := (List.dropWhile_sublist _).length_le
      _ ≤ rest.length := (List.dropWhile_sublist _).length_le
      _ < path.length := hlen

/-- `ROOT_INODE_NO` -/
abbrev rootInodeNo : Nat := 1

/-- The exits of `namex`, with the inode at which the walk is then. -/
inductive Exit where
  | notDirectory
  | parent (ip : Ptr)
  | missing (ip : Ptr)
  | noElement
  | found (ip : Ptr)
  deriving DecidableEq

/-- What `namex` returns. -/
def Exit.inode : Exit → Option Ptr
  | parent ip | found ip => some ip
  | notDirectory | missing _ | noElement => none

/-- The inode to which the walk still has a reference. -/
def Exit.kept : Exit → Option Ptr
  | parent ip | missing ip | found ip => some ip
  | notDirectory | noElement => none

section Routines
variable (sb : SuperBlock) (arena : Arena) (console : Console)
  /- what the stack holds where `inode_lookup` has its entry, by what is left of the path -/
  (stack : List UInt8 → List UInt8) (nameiparent : Bool)

/-- The loop of `namex`; every iteration takes an element off the path, so the first
argument bounds the iterations when it exceeds the length of the path. `inode_get` never
returns 0. -/
def namexFrom : Nat → Ptr → List UInt8 → List UInt8 → V (Exit × List UInt8)
  | 0, _, _, _ => throw .hang
  | fuel + 1, ip, path, name =>
    match skipelem path name with
    | none =>
      if nameiparent then do
        inodePut sb ip
        return (.noElement, name)
      else return (.found ip, name)
    | some (path, name) => do
      inodeLock ip
      let s ← get
      if (s.heap ip).entry.type ≠ inodeDirectory then do
        inodeUnlock ip
        inodePut sb ip
        return (.notDirectory, name)
      else if nameiparent ∧ firstByte path = 0 then do
        inodeUnlock ip
        return (.parent ip, name)
      else do
        let found ← inodeLookup sb console (stack path) ip name
        if found.1 = 0 then do
          inodeUnlock ip
          return (.missing ip, name)
        else do
          let nx ← inodeGet sb arena found.1
          inodeUnlock ip
          inodePut sb ip
          namexFrom fuel nx path name

/-- Where `namex` starts; `cwd` is that of the process that runs. -/
def namexStart (cwd : Ptr) (path : List UInt8) : V Ptr :=
  if firstByte path = slash then inodeGet sb arena rootInodeNo else inodeShare cwd

/-- `namex` up to its exit. -/
def namexExit (cwd : Ptr) (path name : List UInt8) : V (Exit × List UInt8) := do
  let ip ← namexStart sb arena cwd path
  namexFrom sb arena console stack nameiparent (path.length + 1) ip path name

/-- The inode returned, and `name`. -/
def namex (cwd : Ptr) (path name : List UInt8) : V (Option Ptr × List UInt8) := do
  let r ← namexExit sb arena console stack nameiparent cwd path name
  return (r.1.inode, r.2)

end Routines

def namei (sb : SuperBlock) (arena : Arena) (console : Console) (stack : List UInt8 → List UInt8) (cwd : Ptr)
    (path name : List UInt8) : V (Option Ptr) := do
  let r ← namex sb arena console stack false cwd path name
  return r.1

/-- `nameiparent` -/
def nameiParent (sb : SuperBlock) (arena : Arena) (console : Console) (stack : List UInt8 → List UInt8) (cwd : Ptr)
    (path name : List UInt8) : V (Option Ptr × List UInt8) :=
  namex sb arena console stack true cwd path name

variable {sb : SuperBlock} {arena : Arena} {console : Console} {stack : List UInt8 → List UInt8} {nameiparent : Bool}
  {s s' s1 s2 s3 : Volume} {p cwd : Ptr} {path name name' : List UInt8} {e : Exit}

/-- The length of the path bounds the walk. -/
theorem namexFrom_fuel {fuel : Nat} (h : path.length < fuel) :
    namexFrom sb arena console stack nameiparent (fuel + 1) p path name =
      namexFrom sb arena console stack nameiparent fuel p path name := by
  induction fuel generalizing p path name with
  | zero => exact absurd h (Nat.not_lt_zero _)
  | succ fuel ih =>
    rw [namexFrom, namexFrom]
    cases hskip : skipelem path name with
    | none => rfl
    | some next =>
      obtain ⟨path', name'⟩ := next
      have hlen := skipelem_length hskip
      have hrest : ∀ ip, namexFrom sb arena console stack nameiparent (fuel + 1) ip path' name' =
          namexFrom sb arena console stack nameiparent fuel ip path' name' := fun ip => ih (by omega)
      simp only [hrest]

/-! ### The balance of references -/

/-- One reference, if there is an inode to have it to. -/
def Volume.one (s : Volume) : Option Ptr → Nat → Int
  | none => 0
  | some p => Pi.single (s.heap p).inodeNo 1

/-- The walk has turned the reference it had into the one it keeps. Inodes that somebody
else has a reference to are still there. -/
structure Walked (p : Ptr) (e : Exit) (s s' : Volume) : Prop where
  locks : s'.locks ⊆ s.locks
  moved : Moved (s'.one e.kept - Pi.single (s.heap p).inodeNo 1) s s'
  live : ∀ ip ∈ e.kept, s'.Live ip
  others : ∀ q, s.Live q → (q = p → 1 < (s.heap p).rc) → s'.Live q ∧ (s'.heap q).inodeNo = (s.heap q).inodeNo

section
variable (hs : Counted s) (hp : s.Live p)
include hs hp

theorem Walked.stay (h : SameRefs s s') (he : e.kept = some p) : Walked p e s s' := by
  refine ⟨h.locks.le, ?_, fun ip hip => ?_, fun q hq _ => ⟨h.live.mpr hq, h.inodeNo q⟩⟩
  · have hone : s'.one e.kept - Pi.single (s.heap p).inodeNo 1 = 0 := by
      rw [he, Volume.one, h.inodeNo, sub_self]
    rw [hone]
    exact h.moved hs
  · rw [he] at hip
    cases hip
    exact h.live.mpr hp

/-- The reference is given back. -/
theorem Walked.put (h : SameRefs s s1) {u : Unit} (hput : (inodePut sb p).run s1 = .ok u s') (he : e.kept = none) :
    Walked p e s s' := by
  obtain ⟨hmoved, hlocks, hkept⟩ := inodePut_moved (h.moved hs).counted (h.live.mpr hp) hput
  refine ⟨hlocks.trans h.locks.le, ?_, by simp [he], fun q hq hmore => ?_⟩
  case refine_2 =>
    obtain ⟨hlive, hno⟩ := hkept q (h.live.mpr hq) (by rwa [h.rc])
    exact ⟨hlive, hno.trans (h.inodeNo q)⟩
  have hboth := (h.moved hs).trans hmoved
  rw [h.inodeNo, Pi.single_neg, zero_add] at hboth
  rw [he, Volume.one, zero_sub]
  exact hboth

/-- One element of the path, to an inode that exists. -/
theorem Walked.step (h : SameRefs (s.setInode p fun ip => {ip with locked := true}) s1) {no : Nat} {nx : Ptr}
    (hget : (inodeGet sb arena no).run s1 = .ok nx s2) {u u' : Unit} (hunlock : (inodeUnlock p).run s2 = .ok u s3)
    (hput : (inodePut sb p).run s3 = .ok u' s') : Walked p (.found nx) s s' := by
  have hlocked := hs.relock hp true
  have hp1 : s1.Live p := h.live.mpr ((live_setInode rfl).mpr hp)
  have hno1 : (s1.heap p).inodeNo = (s.heap p).inodeNo := (h.inodeNo p).trans (inodeNo_setInode rfl p)
  have hmoved1 := hlocked.trans (h.moved hlocked.counted)
  obtain ⟨hmoved2, hlocks2, hnx, hno, hkept2⟩ := inodeGet_moved hmoved1.counted hget
  obtain ⟨hp2, hno2, hrc2⟩ := hkept2 p hp1
  obtain ⟨-, -, rfl⟩ := inodeUnlock_ok hunlock
  have hunlocked := hmoved2.counted.relock hp2 false
  obtain ⟨hmoved3, hlocks3, hkept3⟩ := inodePut_moved hunlocked.counted ((live_setInode rfl).mpr hp2) hput
  -- the reference to the next inode is not the one that is given back
  have hmore : nx = p → 1 < (s2.heap p).rc := by
    intro he
    have := hp1.2
    rw [hrc2, if_pos he.symm]
    omega
  obtain ⟨hlive, hnext⟩ := hkept3 nx ((live_setInode rfl).mpr hnx) (by rwa [setInode_self])
  rw [inodeNo_setInode rfl, hno] at hnext
  rw [inodeNo_setInode rfl, hno2, hno1, Pi.single_neg] at hmoved3
  refine ⟨?locks, ?moved, fun ip hip => ?live, fun q hq hmore => ?others⟩
  case others =>
    obtain ⟨hq2, hnoq, hrcq⟩ := hkept2 q (h.live.mpr ((live_setInode rfl).mpr hq))
    obtain ⟨hq3, hno3⟩ := hkept3 q ((live_setInode rfl).mpr hq2) (by
      intro he
      have hone := hmore he
      rw [setInode_self]
      dsimp only
      rw [hrc2, h.rc, setInode_self]
      dsimp only
      split <;> omega)
    rw [inodeNo_setInode rfl] at hno3
    exact ⟨hq3, hno3.trans (hnoq.trans ((h.inodeNo q).trans (inodeNo_setInode rfl q)))⟩
  case locks =>
    calc s'.locks ⊆ s2.locks \ {p} := hlocks3.trans locks_unlock
      _ ⊆ insert p s.locks \ {p} := Set.sdiff_subset_sdiff_left (hlocks2.trans (h.locks.le.trans locks_lock))
      _ ⊆ s.locks := by simp
  case moved =>
    have hall := ((hmoved1.trans hmoved2).trans hunlocked).trans hmoved3
    rw [Exit.kept, Volume.one, hnext, sub_eq_add_neg]
    simpa using hall
  case live =>
    cases hip
    exact hlive

/-- The rest of the walk, from the inode that the first element led to. -/
theorem Walked.trans {nx : Ptr} (h : Walked p (.found nx) s s1) (h' : Walked nx e s1 s') : Walked p e s s' := by
  refine ⟨h'.locks.trans h.locks, ?_, h'.live, fun q hq hmore => ?_⟩
  · have hboth := h.moved.trans h'.moved
    rwa [Exit.kept, Volume.one, sub_add_sub_cancel'] at hboth
  · obtain ⟨hq1, hno⟩ := h.others q hq hmore
    -- the walk has a reference of its own, besides the one somebody else has
    have hmore' : q = nx → 1 < (s1.heap nx).rc := by
      intro he
      have hcount := h.moved.count (s.heap q).inodeNo
      rw [hs.count hq, ← hno, h.moved.counted.count hq1, hno, Exit.kept, Volume.one, Pi.sub_apply, Pi.single_apply,
        Pi.single_apply, ← he, if_pos hno.symm] at hcount
      have hpos := hq.2
      rw [← he, hcount]
      split
      case isTrue hsame =>
        have hone := hmore (hs.unique q p hq hp hsame)
        rw [← hs.unique q p hq hp hsame] at hone
        omega
      case isFalse => omega
    obtain ⟨hq', hno'⟩ := h'.others q hq1 hmore'
    exact ⟨hq', hno'.trans hno⟩

theorem namexFrom_walked {fuel : Nat}
    (h : (namexFrom sb arena console stack nameiparent fuel p path name).run s = .ok (e, name') s') :
    Walked p e s s' := by
  induction fuel generalizing p path name s with
  | zero => cases h
  | succ fuel ih =>
    rw [namexFrom] at h
    split at h
    case h_1 =>
      split at h
      case isTrue =>
        obtain ⟨_, s1, hput, hret⟩ := bind_eq_ok h
        cases hret
        exact .put hs hp (.refl s) hput rfl
      case isFalse =>
        cases h
        exact .stay hs hp (.refl _) rfl
    case h_2 path' name' _ =>
      obtain ⟨_, s1, hlock, h⟩ := bind_eq_ok h
      obtain ⟨-, hfree, rfl⟩ := inodeLock_ok hlock
      rw [bind_ok (get_run _)] at h
      split at h
      case isTrue =>
        obtain ⟨_, s2, hunlock, h⟩ := bind_eq_ok h
        obtain ⟨_, s3, hput, hret⟩ := bind_eq_ok h
        obtain ⟨-, -, rfl⟩ := inodeUnlock_ok hunlock
        cases hret
        exact .put hs hp (sameRefs_unlocked hfree (.refl _)) hput rfl
      case isFalse =>
        split at h
        case isTrue =>
          obtain ⟨_, s2, hunlock, hret⟩ := bind_eq_ok h
          obtain ⟨-, -, rfl⟩ := inodeUnlock_ok hunlock
          cases hret
          exact .stay hs hp (sameRefs_unlocked hfree (.refl _)) rfl
        case isFalse =>
          obtain ⟨found, s2, hlookup, h⟩ := bind_eq_ok h
          have hsame := (sameRefs_lookup _ p _).of_ok hlookup
          split at h
          case isTrue =>
            obtain ⟨_, s3, hunlock, hret⟩ := bind_eq_ok h
            obtain ⟨-, -, rfl⟩ := inodeUnlock_ok hunlock
            cases hret
            exact .stay hs hp (sameRefs_unlocked hfree hsame) rfl
          case isFalse =>
            obtain ⟨nx, s3, hget, h⟩ := bind_eq_ok h
            obtain ⟨_, s4, hunlock, h⟩ := bind_eq_ok h
            obtain ⟨_, s5, hput, h⟩ := bind_eq_ok h
            have hstep := Walked.step hs hp hsame hget hunlock hput
            have hrest := ih hstep.moved.counted (hstep.live nx rfl) h
            exact hstep.trans hs hp hrest

end

/-- The walk starts with a reference to the root or to the current directory. -/
theorem namexExit_moved (hs : Counted s) (hcwd : firstByte path ≠ slash → s.Live cwd)
    (h : (namexExit sb arena console stack nameiparent cwd path name).run s = .ok (e, name') s') :
    s'.locks ⊆ s.locks ∧ Moved (s'.one e.kept) s s' ∧ (∀ ip ∈ e.kept, s'.Live ip) ∧
      ∀ q, s.Live q → s'.Live q ∧ (s'.heap q).inodeNo = (s.heap q).inodeNo := by
  rw [namexExit] at h
  obtain ⟨ip, s1, hstart, hwalk⟩ := bind_eq_ok h
  have hfirst : Moved (Pi.single (s1.heap ip).inodeNo 1) s s1 ∧ s1.locks ⊆ s.locks ∧ s1.Live ip ∧
      ∀ q, s.Live q → s1.Live q ∧ (s1.heap q).inodeNo = (s.heap q).inodeNo ∧
        (s1.heap q).rc = (s.heap q).rc + if q = ip then 1 else 0 := by
    unfold namexStart at hstart
    split at hstart
    case isTrue =>
      obtain ⟨hmoved, hlocks, hlive, hno, hothers⟩ := inodeGet_moved hs hstart
      exact ⟨hno ▸ hmoved, hlocks, hlive, hothers⟩
    case isFalse hrel =>
      obtain ⟨rfl, hmoved, hlocks, hlive, hno, hothers⟩ := inodeShare_moved hs (hcwd hrel) hstart
      exact ⟨hno ▸ hmoved, hlocks.le, hlive, hothers⟩
  obtain ⟨hmoved, hlocks, hlive, hothers⟩ := hfirst
  have hrest := namexFrom_walked hmoved.counted hlive hwalk
  refine ⟨hrest.locks.trans hlocks, ?_, hrest.live, fun q hq => ?_⟩
  · have hboth := hmoved.trans hrest.moved
    rwa [add_sub_cancel] at hboth
  · obtain ⟨hq1, hno, hrc⟩ := hothers q hq
    obtain ⟨hq', hno'⟩ := hrest.others q hq1 (by
      intro he
      have hpos := hq.2
      rw [← he, hrc, if_pos he]
      omega)
    exact ⟨hq', hno'.trans hno⟩

end OS2021.Fs
