import Mathlib.Algebra.Order.BigOperators.Group.List
import OS2021.Fs.Path
import OS2021.Lib.RefCount

/-! Who has the references to an inode.

An owner has one reference to one inode: an open file, or a process that has a current
directory. `Owned rest s owner` says that every reference has an owner, up to `rest`.
What a call does with references of its own does not disturb an owner (`Steady`). -/
namespace OS2021.Fs
open Lib Function

variable {sb : SuperBlock} {arena : Arena} {console : Console} {stack : List UInt8 → List UInt8} {nameiparent : Bool}
  {s s' s1 : Volume} {p q cwd : Ptr} {path name name' : List UInt8} {ps : List Ptr} {d d' rest rest' : Nat → Int}
  {no : Nat}

/-! ### References of a call -/

/-- Since `s`, `d i` references to inode `i` have been gained, and whoever had one has it. -/
structure Steady (d : Nat → Int) (s s' : Volume) : Prop extends Moved d s s' where
  kept : ∀ q, s.Live q → s'.Live q ∧ (s'.heap q).inodeNo = (s.heap q).inodeNo

theorem SameRefs.steady (h : SameRefs s s') (hs : Counted s) : Steady 0 s s' :=
  ⟨h.moved hs, fun q hq => ⟨h.live.mpr hq, h.inodeNo q⟩⟩

theorem Counted.steady (hs : Counted s) : Steady 0 s s := (SameRefs.refl s).steady hs

namespace Steady

theorem trans (h : Steady d s s1) (h' : Steady d' s1 s') : Steady (d + d') s s' := by
  refine ⟨h.toMoved.trans h'.toMoved, fun q hq => ?_⟩
  obtain ⟨hq1, hno⟩ := h.kept q hq
  obtain ⟨hq', hno'⟩ := h'.kept q hq1
  exact ⟨hq', hno'.trans hno⟩

end Steady

theorem inodeShare_steady (hs : Counted s) (hp : s.Live p) (h : (inodeShare p).run s = .ok q s') :
    q = p ∧ Steady (Pi.single (s.heap p).inodeNo 1) s s' := by
  obtain ⟨rfl, hmoved, -, -, -, hothers⟩ := inodeShare_moved hs hp h
  exact ⟨rfl, hmoved, fun q hq => ⟨(hothers q hq).1, (hothers q hq).2.1⟩⟩

theorem one_nonneg (s : Volume) (o : Option Ptr) (i : Nat) : 0 ≤ s.one o i := by
  cases o with
  | none => exact Int.le_refl _
  | some p =>
    rw [Volume.one, Pi.single_apply]
    split <;> decide

theorem Counted.count_nonneg (hs : Counted s) (i : Nat) : 0 ≤ s.count i := by
  apply List.sum_nonneg
  intro n hn
  obtain ⟨p, hp, rfl⟩ := List.mem_map.mp hn
  show 0 ≤ (s.heap p).held i
  unfold Inode.held
  split
  · exact hs.nonneg p hp
  · exact Int.le_refl _

/-- How many references to each inode are in the list. -/
def Volume.listed (s : Volume) (ps : List Ptr) : Nat → Int := total (fun p => s.one (some p)) ps

theorem listed_cons : s.listed (p :: ps) = s.one (some p) + s.listed ps := total_cons

theorem listed_apply (ps : List Ptr) (i : Nat) : s.listed ps i = total (fun p => s.one (some p) i) ps := by
  induction ps with
  | nil => rfl
  | cons p ps ih => rw [listed_cons, Pi.add_apply, ih, total_cons]

theorem listed_nonneg (ps : List Ptr) (i : Nat) : 0 ≤ s.listed ps i := by
  rw [listed_apply]
  apply List.sum_nonneg
  intro n hn
  obtain ⟨q, -, rfl⟩ := List.mem_map.mp hn
  exact one_nonneg s (some q) i

theorem listed_pos (hp : p ∈ ps) : 1 ≤ s.listed ps (s.heap p).inodeNo := by
  have hself : s.one (some p) (s.heap p).inodeNo = 1 := Pi.single_eq_same ..
  rw [listed_apply, ← hself]
  apply List.single_le_sum
  · intro n hn
    obtain ⟨q, -, rfl⟩ := List.mem_map.mp hn
    exact one_nonneg s (some q) _
  · exact List.mem_map.mpr ⟨p, hp, rfl⟩

/-- Since `s` a call has got the references in the list. -/
structure Borrowed (ps : List Ptr) (s s' : Volume) : Prop extends Steady (s'.listed ps) s s' where
  live : ∀ p ∈ ps, s'.Live p

namespace Borrowed

theorem perm {qs : List Ptr} (h : Borrowed ps s s') (hp : ps.Perm qs) : Borrowed qs s s' := by
  have hlisted : s'.listed qs = s'.listed ps := (List.Perm.sum_eq (hp.map _)).symm
  refine ⟨?_, fun p hmem => h.live p (hp.mem_iff.mpr hmem)⟩
  rw [hlisted]
  exact h.toSteady

section
variable (h : Borrowed ps s s1)
include h

/-- The references are still there after a step that gains `d`. -/
theorem step (hd : Steady d s1 s') : Steady (s'.listed ps + d) s s' ∧ ∀ p ∈ ps, s'.Live p := by
  have hlisted : s'.listed ps = s1.listed ps := by
    apply total_congr
    intro p hp
    rw [Volume.one, Volume.one, (hd.kept p (h.live p hp)).2]
  rw [hlisted]
  exact ⟨h.toSteady.trans hd, fun p hp => (hd.kept p (h.live p hp)).1⟩

theorem same (h' : SameRefs s1 s') : Borrowed ps s s' := by
  obtain ⟨hsteady, hlive⟩ := h.step (h'.steady h.counted)
  rw [add_zero] at hsteady
  exact ⟨hsteady, hlive⟩

theorem relock (hp : s1.Live p) (l : Bool) : Borrowed ps s (s1.setInode p fun ip => {ip with locked := l}) := by
  have hstep : Steady 0 s1 (s1.setInode p fun ip => {ip with locked := l}) :=
    ⟨h.counted.relock hp l, fun q hq => ⟨(live_setInode rfl).mpr hq, inodeNo_setInode rfl q⟩⟩
  obtain ⟨hsteady, hlive⟩ := h.step hstep
  rw [add_zero] at hsteady
  exact ⟨hsteady, hlive⟩

theorem get (hget : (inodeGet sb arena no).run s1 = .ok p s') : Borrowed (p :: ps) s s' := by
  obtain ⟨hmoved, -, hp, hno, hothers⟩ := inodeGet_moved h.counted hget
  have hstep : Steady (s'.one (some p)) s1 s' :=
    ⟨by rw [Volume.one, hno]; exact hmoved, fun q hq => ⟨(hothers q hq).1, (hothers q hq).2.1⟩⟩
  obtain ⟨hsteady, hlive⟩ := h.step hstep
  rw [add_comm, ← listed_cons] at hsteady
  refine ⟨hsteady, fun q hq => ?_⟩
  rcases List.mem_cons.mp hq with rfl | hq
  · exact hp
  · exact hlive q hq

end

/-- One of them is given back. -/
theorem put (h : Borrowed (p :: ps) s s1) (hs : Counted s) {u : Unit}
    (hput : (inodePut sb p).run s1 = .ok u s') : Borrowed ps s s' := by
  have hp := h.live p List.mem_cons_self
  obtain ⟨hmoved, -, hothers⟩ := inodePut_moved h.counted hp hput
  have hrc : (s1.heap p).rc = s.count (s1.heap p).inodeNo + (1 + s1.listed ps (s1.heap p).inodeNo) := by
    rw [← h.counted.count hp, h.count, listed_cons, Pi.add_apply]
    exact congrArg (fun n => _ + (n + _)) (Pi.single_eq_same ..)
  have hnonneg := listed_nonneg (s := s1) ps (s1.heap p).inodeNo
  -- whoever else has a reference keeps the inode: it had one before, or it is in the list
  have hold : ∀ q, s.Live q → s'.Live q ∧ (s'.heap q).inodeNo = (s.heap q).inodeNo := by
    intro q hq
    obtain ⟨hq1, hno⟩ := h.kept q hq
    obtain ⟨hq', hno'⟩ := hothers q hq1 fun he => by
      have hpos := hq.2
      rw [← hs.count hq, ← hno, he] at hpos
      omega
    exact ⟨hq', hno'.trans hno⟩
  have hlist : ∀ q ∈ ps, s'.Live q ∧ (s'.heap q).inodeNo = (s1.heap q).inodeNo := by
    intro q hq
    refine hothers q (h.live q (List.mem_cons_of_mem p hq)) fun he => ?_
    have hone := listed_pos (s := s1) hq
    have hcount := hs.count_nonneg (s1.heap p).inodeNo
    rw [he] at hone
    omega
  have hlisted : s'.listed ps = s1.listed ps := by
    apply total_congr
    intro q hq
    rw [Volume.one, Volume.one, (hlist q hq).2]
  have hall := h.toMoved.trans hmoved
  rw [listed_cons, Pi.single_neg, ← hlisted, Volume.one, add_comm (Pi.single _ _), add_neg_cancel_right] at hall
  exact ⟨⟨hall, hold⟩, fun q hq => (hlist q hq).1⟩

end Borrowed

/-- The directory to which a reference is lost. -/
def Exit.lost : Exit → Option Ptr
  | missing ip => some ip
  | notDirectory | parent _ | noElement | found _ => none

theorem namexExit_borrowed {e : Exit} (hs : Counted s) (hcwd : firstByte path ≠ slash → s.Live cwd)
    (h : (namexExit sb arena console stack nameiparent cwd path name).run s = .ok (e, name') s') :
    Borrowed (e.inode.toList ++ e.lost.toList) s s' := by
  obtain ⟨-, hmoved, hlive, hothers⟩ := namexExit_moved hs hcwd h
  have hkept : e.inode.toList ++ e.lost.toList = e.kept.toList := by cases e <;> rfl
  have hlisted : s'.listed e.kept.toList = s'.one e.kept := by
    cases e.kept with
    | none => rfl
    | some p => exact listed_cons.trans (add_zero _)
  rw [hkept]
  refine ⟨⟨?_, hothers⟩, fun p hp => hlive p (Option.mem_toList.mp hp)⟩
  rw [hlisted]
  exact hmoved

/-- `namei` up to the exit of its walk. -/
theorem namei_ok {r : Option Ptr} (hs : Counted s) (hcwd : firstByte path ≠ slash → s.Live cwd)
    (h : (namei sb arena console stack cwd path name).run s = .ok r s') :
    ∃ e name', (namexExit sb arena console stack false cwd path name).run s = .ok (e, name') s' ∧ r = e.inode ∧
      s'.locks ⊆ s.locks ∧ Borrowed (r.toList ++ e.lost.toList) s s' := by
  rw [namei, namex] at h
  obtain ⟨⟨r', name'⟩, s1, hrun, hret⟩ := bind_eq_ok h
  obtain ⟨⟨e, name''⟩, s2, hexit, hret'⟩ := bind_eq_ok hrun
  cases hret'
  cases hret
  exact ⟨e, name'', hexit, rfl, (namexExit_moved hs hcwd hexit).1, namexExit_borrowed hs hcwd hexit⟩

theorem Exit.lost_of_inode {e : Exit} (h : e.inode = some p) : e.lost = none := by
  cases e with
  | missing d => cases h
  | _ => rfl

/-! ### Owners -/

/-- The number of an inode, if there is one. -/
def Volume.numberOf (s : Volume) (o : Option Ptr) : Option Nat := o.map fun p => (s.heap p).inodeNo

theorem weight_numberOf (o : Option Ptr) : weight (s.numberOf o) = s.one o := by
  cases o with
  | none => rfl
  | some p => rfl

section Owned
variable {ι : Type} {owner : ι → Option Ptr} {x : ι}

/-- Owners have what they own, and `rest i` references to inode `i` have no owner. -/
structure Owned (rest : Nat → Int) (s : Volume) (owner : ι → Option Ptr) : Prop where
  counted : Counted s
  live : ∀ x p, owner x = some p → s.Live p
  refs : RefCounted (fun x => s.numberOf (owner x)) (s.count - rest)

/-- References gained by others. -/
theorem Owned.steady (h : Owned rest s owner) (hd : Steady d s s') : Owned (rest + d) s' owner := by
  have hnumber : (fun x => s'.numberOf (owner x)) = fun x => s.numberOf (owner x) := by
    funext x
    cases hx : owner x with
    | none => rfl
    | some p => exact congrArg some (hd.kept p (h.live x p hx)).2
  have hcount : s'.count - (rest + d) = s.count - rest := by
    funext i
    simp only [Pi.sub_apply, Pi.add_apply, hd.count]
    omega
  refine ⟨hd.counted, fun x p hx => (hd.kept p (h.live x p hx)).1, ?_⟩
  rw [hnumber, hcount]
  exact h.refs

variable [DecidableEq ι]

theorem numberOf_update (o : Option Ptr) : (fun y => s.numberOf (update owner x o y)) =
    update (fun y => s.numberOf (owner y)) x (s.numberOf o) := by
  funext y
  by_cases hy : y = x
  · rw [hy, update_self, update_self]
  · rw [update_of_ne hy, update_of_ne hy]

/-- A reference without an owner gets one. -/
theorem Owned.gain (h : Owned rest s owner) (hx : owner x = none) (hp : s.Live p)
    (hrest : rest = rest' + Pi.single (s.heap p).inodeNo 1) : Owned rest' s (update owner x (some p)) := by
  refine ⟨h.counted, fun y q hy => ?live, ?refs⟩
  case live =>
    by_cases he : y = x
    · rw [he, update_self] at hy
      cases hy
      exact hp
    · rw [update_of_ne he] at hy
      exact h.live y q hy
  case refs =>
    rw [numberOf_update]
    apply h.refs.update
    rw [hx, weight_numberOf, weight_numberOf, hrest]
    funext i
    show s.count i - rest' i = s.count i - (rest' i + s.one (some p) i) + s.one (some p) i - 0
    omega

/-- An owner gives its reference back. -/
theorem Owned.lose (h : Owned rest s owner) (hrest : ∀ i, 0 ≤ rest i) (hx : owner x = some p) {u : Unit}
    (hput : (inodePut sb p).run s = .ok u s') : Owned rest s' (update owner x none) := by
  have hp := h.live x p hx
  obtain ⟨hmoved, -, hothers⟩ := inodePut_moved h.counted hp hput
  -- an inode that has another owner stays
  have hkept : ∀ y ≠ x, ∀ q, owner y = some q → s'.Live q ∧ (s'.heap q).inodeNo = (s.heap q).inodeNo := by
    intro y hne q hy
    refine hothers q (h.live y q hy) fun he => ?_
    have htwo := h.refs.two_le (i := x) (j := y) (a := (s.heap p).inodeNo) (by rw [hx]; rfl) (by rw [hy, he]; rfl) hne
    have hpos := hrest (s.heap p).inodeNo
    rw [Pi.sub_apply, h.counted.count hp] at htwo
    omega
  refine ⟨hmoved.counted, fun y q hy => ?live, ?refs⟩
  case live =>
    by_cases he : y = x
    · rw [he, update_self] at hy
      cases hy
    · rw [update_of_ne he] at hy
      exact (hkept y he q hy).1
  case refs =>
    have hnumber : (fun y => s'.numberOf (update owner x none y)) =
        update (fun y => s.numberOf (owner y)) x none := by
      funext y
      by_cases he : y = x
      · rw [he, update_self, update_self]
        rfl
      · rw [update_of_ne he, update_of_ne he]
        cases hy : owner y with
        | none => rfl
        | some q => exact congrArg some (hkept y he q hy).2
    rw [hnumber]
    apply h.refs.update
    rw [hx, weight_numberOf]
    funext i
    have hcount : s'.count i = s.count i + -s.one (some p) i := by
      rw [hmoved.count, Pi.single_neg]
      rfl
    show s'.count i - rest i = s.count i - rest i + 0 - s.one (some p) i
    omega

end Owned

end OS2021.Fs
