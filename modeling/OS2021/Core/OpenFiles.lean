import OS2021.Core.Fork
import OS2021.Fs.Owners

/-! Reference counts of open files.

Two kinds of references are counted: descriptors refer to entries of the file table, and
open entries and current directories own references to inodes. `Tracked` says that both
counts are right. Between calls a descriptor and the count of its entry have changed
together; inside of a call the lemmas below take the changes in pairs. -/
namespace OS2021.Core
open Fs Lib Function

variable {env : Env} {sb : SuperBlock} {k k' k1 : Kernel} {p q : ProcId} {f : Fin nfile} {fd : Fin nofile}
  {ip : Ptr} {rest d : Nat → Int} {o : Option (Fin nfile)}

/-! ### Who refers to what -/

namespace Kernel

/-- What a descriptor of a process points to. -/
def slot (k : Kernel) (σ : ProcId × Fin nofile) : Option (Fin nfile) := (k.proc σ.1).ofile σ.2

/-- The inode of an open file, and the current directory of a process. -/
def owner (k : Kernel) : Fin nfile ⊕ ProcId → Option Ptr
  | .inl f => if 0 < (k.ftable f).ref then some (k.ftable f).ip else none
  | .inr p => (k.proc p).cwd

/-- The process has not come to life, or it has ended. -/
def Gone (k : Kernel) (p : ProcId) : Prop := (k.proc p).state = .unused ∨ (k.proc p).state = .zombie

instance (k : Kernel) (p : ProcId) : Decidable (k.Gone p) := inferInstanceAs (Decidable (_ ∨ _))

end Kernel

/-- Counts are right, up to `rest i` references to inode `i` that nobody here owns. -/
structure Tracked (rest : Nat → Int) (k : Kernel) : Prop where
  files : RefCounted k.slot fun f => (k.ftable f).ref
  type : ∀ f, (k.ftable f).type = if 0 < (k.ftable f).ref then .inode else .none
  gone : ∀ p, k.Gone p → (∀ fd, k.slot (p, fd) = none) ∧ (k.proc p).cwd = none
  pid : ∀ c, 0 ≤ (k.procs c).pid
  inodes : Owned rest k.vol k.owner

/-! ### Updates -/

section Updates
variable {f' : Proc → Proc} {g : File → File} {o : Option (Fin nfile)}

@[simp] theorem proc_setProc : (k.setProc p f').proc p = f' (k.proc p) := proc_setProc_self

@[simp] theorem counter_setProc {c : Nat} : ((k.setProc p f').procs c).pid = (k.procs c).pid := setProc_pid

theorem proc_setProc_ne (h : q ≠ p) : (k.setProc p f').proc q = k.proc q := proc_setProc_of_ne h

@[simp] theorem setFile_self : (k.setFile f g).ftable f = g (k.ftable f) := update_self ..

theorem setFile_of_ne {e : Fin nfile} (h : e ≠ f) : (k.setFile f g).ftable e = k.ftable e :=
  update_of_ne h ..

theorem slot_setSlot : (k.setSlot p fd o).slot = update k.slot (p, fd) o := by
  funext σ
  obtain ⟨q, e⟩ := σ
  by_cases hq : q = p
  · subst hq
    show ((k.setSlot q fd o).proc q).ofile e = _
    rw [Kernel.setSlot, proc_setProc]
    show update (k.proc q).ofile fd o e = _
    by_cases he : e = fd
    · rw [he, update_self, update_self]
    · rw [update_of_ne he, update_of_ne fun h => he (congrArg Prod.snd h)]
      rfl
  · show ((k.setSlot p fd o).proc q).ofile e = _
    rw [Kernel.setSlot, proc_setProc_ne hq, update_of_ne fun h => hq (congrArg Prod.fst h)]
    rfl

theorem setSlot_proc : ((k.setSlot p fd o).proc q).cwd = (k.proc q).cwd ∧
    ((k.setSlot p fd o).proc q).state = (k.proc q).state ∧ ((k.setSlot p fd o).proc q).pid = (k.proc q).pid := by
  by_cases hq : q = p
  · rw [hq, Kernel.setSlot, proc_setProc]
    exact ⟨rfl, rfl, rfl⟩
  · rw [Kernel.setSlot, proc_setProc_ne hq]
    exact ⟨rfl, rfl, rfl⟩

theorem gone_setSlot : (k.setSlot p fd o).Gone q ↔ k.Gone q := by
  rw [Kernel.Gone, Kernel.Gone, setSlot_proc.2.1]

/-- The descriptors are as `fdalloc` or `sys_close` leave them. -/
theorem slot_of_procs (h : k'.procs = (k.setSlot p fd o).procs) : k'.slot = update k.slot (p, fd) o := by
  rw [← slot_setSlot]
  funext σ
  rw [Kernel.slot, Kernel.proc, h]
  rfl

end Updates

/-- Descriptors and entries are as they were. -/
theorem Tracked.of_slot {rest' : Nat → Int} (h : Tracked rest k) (hftable : k'.ftable = k.ftable)
    (hslot : k'.slot = k.slot)
    (hgone : ∀ p, k'.Gone p → (∀ fd, k.slot (p, fd) = none) ∧ (k'.proc p).cwd = none)
    (hpid : ∀ c, (k.procs c).pid ≤ (k'.procs c).pid) (hinodes : Owned rest' k'.vol k'.owner) : Tracked rest' k' := by
  refine ⟨?_, ?_, fun p hp => ?_, fun c => (h.pid c).trans (hpid c), hinodes⟩
  · rw [hslot, hftable]
    exact h.files
  · rw [hftable]
    exact h.type
  · rw [hslot]
    exact hgone p hp

/-! ### Calls that touch neither descriptors nor entries -/

structure Idle (k k' : Kernel) : Prop where
  ftable : k'.ftable = k.ftable
  proc : ∀ p, (k'.proc p).ofile = (k.proc p).ofile ∧ (k'.proc p).cwd = (k.proc p).cwd
  gone : ∀ p, k'.Gone p → k.Gone p
  pid : ∀ c, (k.procs c).pid ≤ (k'.procs c).pid

namespace Idle

theorem of_eq (hftable : k'.ftable = k.ftable) (hprocs : k'.procs = k.procs) : Idle k k' := by
  have hproc : ∀ p, k'.proc p = k.proc p := fun p => by rw [Kernel.proc, hprocs]; rfl
  refine ⟨hftable, fun p => ?_, fun p hp => ?_, fun c => ?_⟩
  · rw [hproc]
    exact ⟨rfl, rfl⟩
  · rw [Kernel.Gone, hproc] at hp
    exact hp
  · rw [hprocs]

theorem trans (h : Idle k k1) (h' : Idle k1 k') : Idle k k' :=
  ⟨h'.ftable.trans h.ftable, fun p => ⟨(h'.proc p).1.trans (h.proc p).1, (h'.proc p).2.trans (h.proc p).2⟩,
    fun p hp => h.gone p (h'.gone p hp), fun c => (h.pid c).trans (h'.pid c)⟩

theorem setProc {g : Proc → Proc} (hofile : (g (k.proc p)).ofile = (k.proc p).ofile)
    (hcwd : (g (k.proc p)).cwd = (k.proc p).cwd) (hgone : (k.setProc p g).Gone p → k.Gone p) :
    Idle k (k.setProc p g) := by
  refine ⟨rfl, fun q => ?_, fun q hq => ?_, fun c => setProc_pid.ge⟩
  · by_cases he : q = p
    · rw [he, proc_setProc]
      exact ⟨hofile, hcwd⟩
    · rw [proc_setProc_ne he]
      exact ⟨rfl, rfl⟩
  · by_cases he : q = p
    · rw [he] at hq ⊢
      exact hgone hq
    · rw [Kernel.Gone, proc_setProc_ne he] at hq
      exact hq

/-- A process that was gone can change its state. -/
theorem revive (h : Idle k k1) (hp : k.Gone p) {g : Proc → Proc} (hofile : (g (k1.proc p)).ofile = (k1.proc p).ofile)
    (hcwd : (g (k1.proc p)).cwd = (k1.proc p).cwd) : Idle k (k1.setProc p g) := by
  refine ⟨h.ftable, fun q => ?_, fun q hq => ?_, fun c => (h.pid c).trans setProc_pid.ge⟩
  · by_cases he : q = p
    · rw [he, proc_setProc, hofile, hcwd]
      exact h.proc p
    · rw [proc_setProc_ne he]
      exact h.proc q
  · by_cases he : q = p
    · exact he ▸ hp
    · rw [Kernel.Gone, proc_setProc_ne he] at hq
      exact h.gone q hq

theorem slot (h : Idle k k') : k'.slot = k.slot := by
  funext σ
  exact congrFun (h.proc σ.1).1 σ.2

theorem owner (h : Idle k k') : k'.owner = k.owner := by
  funext x
  cases x with
  | inl f => rw [Kernel.owner, h.ftable, Kernel.owner]
  | inr p => exact (h.proc p).2

theorem tracked (h : Idle k k') (hk : Tracked rest k) (hvol : Steady d k.vol k'.vol) : Tracked (rest + d) k' := by
  refine hk.of_slot h.ftable h.slot (fun p hp => ?_) h.pid ?_
  · rw [(h.proc p).2]
    exact hk.gone p (h.gone p hp)
  · rw [h.owner]
    exact hk.inodes.steady hvol

/-- Inodes are not touched either. -/
theorem same (h : Idle k k') (hk : Tracked rest k) (hvol : k'.vol = k.vol) : Tracked rest k' := by
  have hsteady : Steady 0 k.vol k'.vol := by
    rw [hvol]
    exact hk.inodes.counted.steady
  have := h.tracked hk hsteady
  rwa [add_zero] at this

end Idle

/-! ### A descriptor and its entry -/

/-- A descriptor and an entry change together. -/
theorem Tracked.repoint {rest' : Nat → Int} (h : Tracked rest k) (file : File)
    (hftable : k'.ftable = update k.ftable f file) (hprocs : k'.procs = (k.setSlot p fd o).procs)
    (href : Pi.single f (file.ref - (k.ftable f).ref) = weight o - weight (k.slot (p, fd)))
    (htype : file.type = if 0 < file.ref then .inode else .none) (hp : o ≠ none → ¬ k.Gone p)
    (hinodes : Owned rest' k'.vol (update k.owner (.inl f) (if 0 < file.ref then some file.ip else none))) :
    Tracked rest' k' := by
  have hslots := slot_of_procs hprocs
  have hproc : ∀ q, k'.proc q = (k.setSlot p fd o).proc q := fun q => by rw [Kernel.proc, hprocs]; rfl
  constructor
  case files =>
    rw [hslots]
    apply h.files.update
    funext e
    have he := congrFun href e
    rw [Pi.single_apply, Pi.sub_apply] at he
    rw [hftable, update_apply, Pi.sub_apply, Pi.add_apply]
    split at he
    case isTrue hef =>
      rw [if_pos hef, hef] at *
      omega
    case isFalse hef =>
      rw [if_neg hef]
      omega
  case type =>
    intro e
    rw [hftable, update_apply]
    split
    · exact htype
    · exact h.type e
  case gone =>
    intro q hq
    rw [Kernel.Gone, hproc] at hq
    have hq' : k.Gone q := gone_setSlot.mp hq
    rw [hslots, hproc]
    refine ⟨fun e => ?_, setSlot_proc.1.trans (h.gone q hq').2⟩
    rw [update_apply]
    split
    case isTrue he =>
      cases he
      by_contra hne
      exact hp hne hq'
    case isFalse => exact (h.gone q hq').1 e
  case pid =>
    intro c
    rw [hprocs]
    exact (h.pid c).trans setProc_pid.ge
  case inodes =>
    have howner : k'.owner = update k.owner (.inl f) (if 0 < file.ref then some file.ip else none) := by
      funext x
      cases x with
      | inl e =>
        rw [Kernel.owner, hftable]
        by_cases he : e = f
        · rw [he, update_self, update_self]
        · rw [update_of_ne he, update_of_ne fun hx => he (Sum.inl.inj hx)]
          rfl
      | inr q =>
        rw [update_of_ne Sum.inr_ne_inl, Kernel.owner, hproc]
        exact setSlot_proc.1
    rw [howner]
    exact hinodes

/-- An entry that stays open keeps its reference to its inode. -/
theorem Tracked.repoint_open {n : Int} (h : Tracked rest k) (hf : 0 < (k.ftable f).ref)
    (hn : 0 < (k.ftable f).ref + n) (href : Pi.single f n = weight o - weight (k.slot (p, fd)))
    (hp : o ≠ none → ¬ k.Gone p) :
    Tracked rest ((k.setSlot p fd o).setFile f fun g => {g with ref := g.ref + n}) := by
  refine h.repoint {k.ftable f with ref := (k.ftable f).ref + n} rfl rfl ?_ ?_ hp ?_
  · rw [add_sub_cancel_left]
    exact href
  · show (k.ftable f).type = _
    rw [h.type, if_pos hf, if_pos hn]
  · rw [update_eq_self_iff.mpr]
    · exact h.inodes
    · rw [if_pos hn]
      exact (if_pos hf).symm

/-- A free descriptor is pointed to an open entry. -/
theorem Tracked.point (h : Tracked rest k) (hslot : k.slot (p, fd) = none) (hf : 1 ≤ (k.ftable f).ref)
    (hp : ¬ k.Gone p) : Tracked rest ((k.setSlot p fd (some f)).setFile f fun g => {g with ref := g.ref + 1}) := by
  refine h.repoint_open hf (by omega) ?_ fun _ => hp
  rw [hslot]
  exact (sub_zero _).symm

/-- What `fileclose` does to an entry and its inode. -/
inductive Closed (sb : SuperBlock) (f : Fin nfile) (k : Kernel) : Kernel → Prop
  | shared (h : 1 < (k.ftable f).ref) : Closed sb f k (k.setFile f fun g => {g with ref := g.ref - 1})
  | unset (h : (k.ftable f).ref = 1) (htype : (k.ftable f).type ≠ .inode) :
    Closed sb f k (k.setFile f fun g => {g with ref := 0, type := .none})
  | last (h : (k.ftable f).ref = 1) (htype : (k.ftable f).type = .inode) {vol : Volume}
    (hput : (inodePut sb (k.ftable f).ip).run k.vol = .ok () vol) :
    Closed sb f k {k.setFile f fun g => {g with ref := 0, type := .none} with vol}

theorem fileclose_ok {u : Unit} (h : (fileclose sb f).run k = .ok u k') : Closed sb f k k' := by
  rw [fileclose, bind_ok (get_run k)] at h
  dsimp only at h
  split at h
  case isTrue => cases h
  case isFalse hpos =>
    split at h
    case isTrue hmore =>
      cases h
      exact .shared (by omega)
    case isFalse hlast =>
      have hone : (k.ftable f).ref = 1 := by omega
      rw [bind_ok (set_run _ _)] at h
      split at h
      case isTrue htype =>
        rw [beginOp, bind_ok (modify_run _ _)] at h
        obtain ⟨_, k1, hput, hend⟩ := bind_eq_ok h
        obtain ⟨vol, hrun, rfl⟩ := onVol_ok hput
        have hk : k' = {k.setFile f fun g => {g with ref := 0, type := .none} with vol} := by
          cases hend
          simp [Kernel.setFile]
        rw [hk]
        exact .last hone htype hrun
      case isFalse htype =>
        cases h
        exact .unset hone htype

/-- A descriptor is cleared. -/
theorem Tracked.clear (h : Tracked rest k) (hrest : ∀ i, 0 ≤ rest i) (hslot : k.slot (p, fd) = some f)
    (hc : Closed sb f (k.setSlot p fd none) k') : Tracked rest k' := by
  have href : Pi.single f (-1) = weight none - weight (k.slot (p, fd)) := by
    rw [hslot, Pi.single_neg]
    exact (zero_sub _).symm
  cases hc with
  | shared hmore =>
    have hmore' : 1 < (k.ftable f).ref := hmore
    exact h.repoint_open (n := -1) (by omega) (by omega) href fun hn => absurd rfl hn
  | unset hone htype =>
    have hone' : (k.ftable f).ref = 1 := hone
    refine absurd ?_ htype
    show (k.ftable f).type = .inode
    rw [h.type, if_pos (by omega)]
  | last hone htype hput =>
    have hone' : (k.ftable f).ref = 1 := hone
    refine h.repoint {k.ftable f with ref := 0, type := .none} rfl rfl ?_ rfl (fun hn => absurd rfl hn) ?_
    · rw [hone']
      exact href
    · refine h.inodes.lose hrest ?_ hput
      show (if 0 < (k.ftable f).ref then some (k.ftable f).ip else none) = some (k.ftable f).ip
      rw [if_pos (by omega)]

/-! ### Opening a file -/

section Opening
variable {s s' : Volume} {cwd : Ptr} {path : List UInt8} {omode : Int32} {r : Option Ptr}

theorem sameRefs_dots (type : InodeType) (dp ip : Ptr) :
    Respects SameRefs (createDots env type dp ip) := by
  unfold createDots
  split
  · refine (sameRefs_edit dp _).bind fun _ => (sameRefs_sync dp true).bind fun _ s => ?_
    rw [bind_ok (get_run s)]
    exact ((sameRefs_insert _ _ ip _ _).bind fun _ => (sameRefs_insert _ _ ip _ _).bind fun _ => .pure _) s
  · exact .pure _

/-- `create` keeps the reference it returns, and loses the one that the walk loses. -/
theorem create_ok {type : InodeType} {major minor : UInt16} (hs : Counted s)
    (hcwd : firstByte path ≠ slash → s.Live cwd) (h : (create env cwd path type major minor).run s = .ok r s') :
    ∃ e name' s1, (namexExit env.sb env.arena env.console env.stack true cwd path
        (List.replicate fileNameMaxLength 0)).run s = .ok (e, name') s1 ∧
      (e.lost = none ∨ r = none ∧ s' = s1) ∧ Borrowed (r.toList ++ e.lost.toList) s s' := by
  rw [create, nameiParent] at h
  obtain ⟨⟨dir, nm⟩, s1, hwalk, h⟩ := bind_eq_ok h
  rw [namex] at hwalk
  obtain ⟨⟨e, name'⟩, s2, hexit, hret⟩ := bind_eq_ok hwalk
  cases hret
  have hb := namexExit_borrowed hs hcwd hexit
  refine ⟨e, name', s1, hexit, ?_⟩
  cases hdir : e.inode with
  | none =>
    rw [hdir] at h hb
    cases h
    exact ⟨Or.inr ⟨rfl, rfl⟩, hb⟩
  | some dp =>
    have hlost := Exit.lost_of_inode hdir
    rw [hdir, hlost] at hb
    rw [hdir] at h
    rw [hlost]
    refine ⟨Or.inl rfl, ?_⟩
    have hb : Borrowed [dp] s s1 := hb
    obtain ⟨_, s2, hlock, h⟩ := bind_eq_ok h
    obtain ⟨-, -, rfl⟩ := inodeLock_ok hlock
    have hb := hb.relock (hb.live dp List.mem_cons_self) true
    obtain ⟨found, s3, hlookup, h⟩ := bind_eq_ok h
    have hb := hb.same ((sameRefs_lookup _ dp _).of_ok hlookup)
    split at h
    case isTrue =>
      obtain ⟨ip, s4, hget, h⟩ := bind_eq_ok h
      have hb := (hb.get hget).perm (.swap dp ip [])
      obtain ⟨_, s5, hunlock, h⟩ := bind_eq_ok h
      obtain ⟨-, -, rfl⟩ := inodeUnlock_ok hunlock
      have hb := hb.relock (hb.live dp List.mem_cons_self) false
      obtain ⟨_, s6, hput, h⟩ := bind_eq_ok h
      have hb := hb.put hs hput
      obtain ⟨_, s7, hlock, h⟩ := bind_eq_ok h
      obtain ⟨-, -, rfl⟩ := inodeLock_ok hlock
      have hb := hb.relock (hb.live ip List.mem_cons_self) true
      rw [bind_ok (get_run _)] at h
      split at h
      case isTrue =>
        cases h
        exact hb
      case isFalse =>
        obtain ⟨_, s8, -, h⟩ := bind_eq_ok h
        cases h
    case isFalse =>
      obtain ⟨inum, s4, halloc, h⟩ := bind_eq_ok h
      have hb := hb.same ((sameRefs_alloc type).of_ok halloc)
      obtain ⟨ip, s5, hget, h⟩ := bind_eq_ok h
      have hb := (hb.get hget).perm (.swap dp ip [])
      obtain ⟨_, s6, hlock, h⟩ := bind_eq_ok h
      obtain ⟨-, -, rfl⟩ := inodeLock_ok hlock
      have hb := hb.relock (hb.live ip (by simp)) true
      obtain ⟨_, s7, hedit, h⟩ := bind_eq_ok h
      have hb := hb.same ((sameRefs_edit ip _).of_ok hedit)
      obtain ⟨_, s8, hsync, h⟩ := bind_eq_ok h
      have hb := hb.same ((sameRefs_sync ip true).of_ok hsync)
      obtain ⟨_, s9, hdots, h⟩ := bind_eq_ok h
      have hb := hb.same ((sameRefs_dots type dp ip).of_ok hdots)
      rw [bind_ok (get_run _)] at h
      obtain ⟨_, s10, hinsert, h⟩ := bind_eq_ok h
      have hb := hb.same ((sameRefs_insert _ _ dp _ _).of_ok hinsert)
      obtain ⟨_, s11, hunlock, h⟩ := bind_eq_ok h
      obtain ⟨-, -, rfl⟩ := inodeUnlock_ok hunlock
      have hb := hb.relock (hb.live dp List.mem_cons_self) false
      obtain ⟨_, s12, hput, h⟩ := bind_eq_ok h
      have hb := hb.put hs hput
      cases h
      exact hb

/-- The walk that `sys_openat` makes. -/
def openWalk (env : Env) (q : Proc) (path : List UInt8) (omode : Int32) : V (Exit × List UInt8) :=
  namexExit env.sb env.arena env.console env.stack (omode &&& oCreat ≠ 0) (q.cwd.getD 0) path
    (if omode &&& oCreat ≠ 0 then List.replicate fileNameMaxLength 0 else env.locals 7)

/-- A walk along a relative path starts in a directory that is there. -/
theorem walkFrom_ok {q : Proc} (hcwd : ∀ ip, q.cwd = some ip → k.vol.Live ip)
    (h : (walkFrom q path).run k = .ok cwd k') :
    k' = k ∧ q.cwd.getD 0 = cwd ∧ (firstByte path ≠ slash → k.vol.Live cwd) := by
  unfold walkFrom at h
  cases hq : q.cwd with
  | some ip =>
    rw [hq] at h
    cases h
    exact ⟨rfl, rfl, fun _ => hcwd _ hq⟩
  | none =>
    rw [hq] at h
    dsimp only at h
    split at h
    case isTrue habs =>
      cases h
      exact ⟨rfl, rfl, fun hrel => absurd habs hrel⟩
    case isFalse => cases h

theorem openInode_ok {q : Proc} (hs : Counted k.vol) (hcwd : ∀ ip, q.cwd = some ip → k.vol.Live ip)
    (h : (openInode env q path omode).run k = .ok r k') :
    ∃ e name' s1, (openWalk env q path omode).run k.vol = .ok (e, name') s1 ∧
      (e.lost = none ∨ r = none ∧ k'.vol = s1) ∧
      Borrowed (r.toList ++ e.lost.toList) k.vol k'.vol ∧ k'.ftable = k.ftable ∧ k'.procs = k.procs := by
  rw [openInode] at h
  obtain ⟨cwd, k1, hfrom, hrest⟩ := bind_eq_ok h
  clear h
  obtain ⟨rfl, hdir, hlive⟩ := walkFrom_ok hcwd hfrom
  rw [openWalk, hdir]
  split at hrest
  case isTrue hcreat =>
    obtain ⟨vol, hrun, rfl⟩ := onVol_ok hrest
    obtain ⟨e, name', s1, hexit, hlost, hb⟩ := create_ok hs hlive hrun
    rw [decide_eq_true hcreat, if_pos hcreat]
    exact ⟨e, name', s1, hexit, hlost, hb, rfl, rfl⟩
  case isFalse hcreat =>
    obtain ⟨o, k2, hnamei, h⟩ := bind_eq_ok hrest
    obtain ⟨vol, hrun, rfl⟩ := onVol_ok hnamei
    obtain ⟨e, name', hexit, rfl, -, hb⟩ := namei_ok hs hlive hrun
    rw [decide_eq_false hcreat, if_neg hcreat]
    refine ⟨e, name', vol, hexit, ?_⟩
    cases hi : e.inode with
    | none =>
      rw [hi] at h hb
      cases h
      exact ⟨Or.inr ⟨rfl, rfl⟩, hb, rfl, rfl⟩
    | some ip =>
      rw [hi] at h hb
      obtain ⟨_, k3, hlock, hret⟩ := bind_eq_ok h
      obtain ⟨vol', hlocked, rfl⟩ := onVol_ok hlock
      obtain ⟨-, -, rfl⟩ := inodeLock_ok hlocked
      cases hret
      exact ⟨Or.inl (Exit.lost_of_inode hi), hb.relock (hb.live ip (by simp)) true, rfl, rfl⟩

theorem filealloc_ok (h : filealloc.run k = .ok o k') : o = none ∧ k' = k ∨
    ∃ f, o = some f ∧ (k.ftable f).ref = 0 ∧ k' = k.setFile f fun g => {g with ref := 1} := by
  rw [filealloc, bind_ok (get_run k)] at h
  cases hfind : (List.finRange nfile).find? fun i => (k.ftable i).ref = 0 with
  | none =>
    rw [hfind] at h
    cases h
    exact Or.inl ⟨rfl, rfl⟩
  | some f =>
    rw [hfind] at h
    cases h
    have htest := List.find?_some hfind
    exact Or.inr ⟨f, rfl, of_decide_eq_true htest, rfl⟩

theorem fdalloc_ok {o : Option (Fin nofile)} (h : (fdalloc p f).run k = .ok o k') : o = none ∧ k' = k ∨
    ∃ fd, o = some fd ∧ k.slot (p, fd) = none ∧ k' = k.setSlot p fd (some f) := by
  rw [fdalloc, bind_ok (get_run k)] at h
  cases hfind : (List.finRange nofile).find? fun i => ((k.proc p).ofile i).isNone with
  | none =>
    rw [hfind] at h
    cases h
    exact Or.inl ⟨rfl, rfl⟩
  | some fd =>
    rw [hfind] at h
    cases h
    have htest := List.find?_some hfind
    exact Or.inr ⟨fd, rfl, Option.isNone_iff_eq_none.mp htest, rfl⟩

/-- An entry that was not opened is closed again. -/
theorem fileclose_new (hf : (k.ftable f).ref = 0) (htype : (k.ftable f).type = .none)
    (hc : Closed sb f (k.setFile f fun g => {g with ref := 1}) k') : k' = k := by
  cases hc with
  | shared h =>
    rw [setFile_self] at h
    exact absurd h (Int.lt_irrefl 1)
  | last h ht =>
    rw [setFile_self] at ht
    cases htype.symm.trans ht
  | unset h ht =>
    have hentry : {k.ftable f with ref := 0, type := .none} = k.ftable f := by rw [← hf, ← htype]
    rw [Kernel.setFile, setFile_self]
    simp only [Kernel.setFile, update_idem, hentry, update_eq_self]

theorem openFail_ok {n : Int} (hs : Counted s) (hb : Borrowed [ip] s k.vol)
    (h : (do onVol (inodeUnlock ip); onVol (inodePut env.sb ip); endOp; return -1 : K Int).run k = .ok n k') :
    n = -1 ∧ k'.ftable = k.ftable ∧ k'.procs = k.procs ∧ Borrowed [] s k'.vol := by
  obtain ⟨_, k1, hunlock, h⟩ := bind_eq_ok h
  obtain ⟨vol, hunlocked, rfl⟩ := onVol_ok hunlock
  obtain ⟨-, -, rfl⟩ := inodeUnlock_ok hunlocked
  obtain ⟨_, k2, hput, h⟩ := bind_eq_ok h
  obtain ⟨vol, hrun, rfl⟩ := onVol_ok hput
  have hb := (hb.relock (hb.live ip List.mem_cons_self) false).put hs hrun
  cases h
  exact ⟨rfl, rfl, rfl, hb⟩

/-- The inode gets an entry and a descriptor, or its reference is given back. -/
theorem openFile_ok {n : Int} (hs : Counted s) (hb : Borrowed [ip] s k.vol)
    (htype : ∀ f, (k.ftable f).ref = 0 → (k.ftable f).type = .none)
    (h : (openFile env p ip omode).run k = .ok n k') :
    (n = -1 ∧ k'.ftable = k.ftable ∧ k'.procs = k.procs ∧ Borrowed [] s k'.vol) ∨
    ∃ (f : Fin nfile) (fd : Fin nofile) (file : File), n = (fd : Nat) ∧ (k.ftable f).ref = 0 ∧ k.slot (p, fd) = none ∧
      (file.ref = 1 ∧ file.type = .inode ∧ file.ip = ip) ∧ k'.ftable = update k.ftable f file ∧
      k'.procs = (k.setSlot p fd (some f)).procs ∧ Borrowed [ip] s k'.vol := by
  rw [openFile] at h
  obtain ⟨o, k1, halloc, hrest⟩ := bind_eq_ok h
  clear h
  rcases filealloc_ok halloc with ⟨rfl, rfl⟩ | ⟨f, rfl, hf, rfl⟩
  · exact Or.inl (openFail_ok hs hb hrest)
  · obtain ⟨o, k2, hfd, hrest⟩ := bind_eq_ok hrest
    rcases fdalloc_ok hfd with ⟨rfl, rfl⟩ | ⟨fd, rfl, hslot, rfl⟩
    · left
      obtain ⟨_, k3, hclose, hfail⟩ := bind_eq_ok hrest
      have hk : k3 = k := fileclose_new hf (htype f hf) (fileclose_ok hclose)
      rw [hk] at hfail
      exact openFail_ok hs hb hfail
    · right
      obtain ⟨_, k3, hunlock, hrest⟩ := bind_eq_ok hrest
      obtain ⟨vol, hunlocked, rfl⟩ := onVol_ok hunlock
      obtain ⟨-, -, rfl⟩ := inodeUnlock_ok hunlocked
      cases hrest
      refine ⟨f, fd, _, rfl, hf, hslot, ⟨?_, ?_, ?_⟩, update_idem .., rfl,
        hb.relock (hb.live ip List.mem_cons_self) false⟩
      all_goals simp [Kernel.setFile, Kernel.setSlot, Kernel.setProc]

end Opening

end OS2021.Core
