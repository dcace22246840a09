import OS2021.Core.Proc
import OS2021.Lib.Runs

/-! Containers and process identifiers (`core/container.c`, `alloc_pcb_simple` of
`core/sched.c`, the process table in `alloc_proc`, `exit` and `wait` of `core/proc.c`).

A container has a process table and a table of the processes allocated in it and
in the containers below it. An allocation takes the first free entry of the second
table in its container and in every ancestor; nothing ever gives an entry back.
`pids_unique` is about runs in which the tables have room, `pid_given_twice` is what
happens in one that has none. -/
namespace OS2021.Core
open Lib Function

/-- `NPID` -/
abbrev npid : Nat := 64

/-- `struct pid_mapping` -/
structure PidMapping where
  valid : Bool
  pidLocal : Int
  p : ProcId

/-- `struct container`, with the counter and the process table of its scheduler. -/
structure Container where
  pid : Int
  proc : Fin nproc → Proc
  pmap : Fin npid → PidMapping

/-- `resource_t` -/
inductive Resource where
  | memory
  | pid
  | inode
  deriving DecidableEq

/-- The tree of containers, numbered as they are made; 0 is `root_container`. -/
structure ContainerTree where
  parent : Nat → Nat
  root : parent 0 = 0
  lt : ∀ c, c ≠ 0 → parent c < c

abbrev Containers := Nat → Container

def Containers.zero : Containers := fun _ => ⟨0, fun _ => .zero, fun _ => ⟨false, 0, (0, 0)⟩⟩

namespace Containers

def proc (s : Containers) (p : ProcId) : Proc := (s p.1).proc p.2

def setProc (s : Containers) (p : ProcId) (f : Proc → Proc) : Containers :=
  update s p.1 {s p.1 with proc := update (s p.1).proc p.2 (f ((s p.1).proc p.2))}

end Containers

/-! ### Allocation -/

/-- The entry a new process gets. -/
def Container.freeEntry (c : Container) : Option (Fin npid) :=
  (List.finRange npid).find? fun i => !(c.pmap i).valid

/-- The `PID` case of `alloc_resource`. -/
def Container.record (c : Container) (p : ProcId) : Container :=
  match c.freeEntry with
  | some i => {c with pid := c.pid + 1, pmap := update c.pmap i ⟨true, c.pid + 1, p⟩}
  | none => c

section Routines
variable (t : ContainerTree)

/-- `alloc_resource`, with `fuel` for the ancestors of `this`. It returns the counter
of `this` after the search, whether that has found an entry or not. -/
def allocResource (p : ProcId) : Nat → Nat → Resource → Containers → Int × Containers
  | 0, this, _, s => ((s this).pid, s)
  | fuel + 1, this, resource, s =>
    let s := if resource = .pid then update s this ((s this).record p) else s
    let s := if t.parent this ≠ this then (allocResource p fuel (t.parent this) .pid s).2 else s
    ((s this).pid, s)

/-- `alloc_pcb_simple` of the scheduler of container `this`, which has at most `this` ancestors. -/
def allocPcbSimple (this : Nat) (s : Containers) : Option ProcId × Containers :=
  match (List.finRange nproc).find? fun i => ((s this).proc i).state = .unused with
  | some i =>
    let r := allocResource t (this, i) (this + 1) this .pid s
    (some (this, i), r.2.setProc (this, i) fun q => {q with pid := r.1})
  | none => (none, s)

/-- `alloc_proc` and `fork` on the process table: an `EMBRYO`, or `UNUSED` again when
there is no memory for the rest of it. -/
def allocProc (this : Nat) (parent : Option ProcId) (memory : Bool) (s : Containers) : Containers :=
  match allocPcbSimple t this s with
  | (some p, s) =>
    s.setProc p fun q => if memory then {q with state := .embryo, parent} else {q with state := .unused}
  | (none, s) => s

end Routines

/-! ### The end of a process -/

/-- The children of `p` in its process table go to `initproc`. -/
def reparent (initproc p : ProcId) (s : Containers) : Containers :=
  update s p.1 {s p.1 with
    proc := fun i => if ((s p.1).proc i).parent = some p then {(s p.1).proc i with parent := some initproc}
      else (s p.1).proc i}

/-- `exit` under the lock of its scheduler. -/
def bury (initproc p : ProcId) (s : Containers) : Containers :=
  (reparent initproc p s).setProc p fun q => {q with state := .zombie}

/-- The dead child that `wait` finds. -/
def deadChild (p : ProcId) (s : Containers) : Option (Fin nproc) :=
  (List.finRange nproc).find? fun i => ((s p.1).proc i).parent = some p ∧ ((s p.1).proc i).state = .zombie

/-- `wait` on the process table, once it does not sleep. -/
def reap (p : ProcId) (s : Containers) : Containers :=
  match deadChild p s with
  | some i => s.setProc (p.1, i) fun q => {q with killed := false, state := .unused, pid := 0, parent := none}
  | none => s

/-! ### Runs -/

inductive Event where
  /-- `fork`, `spawn_container` or the like in container `this`. -/
  | alloc (this : Nat) (parent : Option ProcId) (memory : Bool)
  /-- A process is run, put to sleep or woken. -/
  | turn (p : ProcId) (state : ProcState)
  | exit (p : ProcId)
  | wait (p : ProcId)

/-- Processes act that are live; only `wait` makes one `UNUSED`. -/
def Event.exec (t : ContainerTree) (initproc : ProcId) (s : Containers) : Event → Option Containers
  | alloc this parent memory => some (allocProc t this parent memory s)
  | turn p state =>
    if (s.proc p).state ≠ .unused ∧ state ≠ .unused then some (s.setProc p fun q => {q with state}) else none
  | exit p => if (s.proc p).state ≠ .unused then some (bury initproc p s) else none
  | wait p => if (s.proc p).state ≠ .unused then some (reap p s) else none

/-- `this` and its ancestors. -/
inductive ContainerTree.Above (t : ContainerTree) (this : Nat) : Nat → Prop
  | self : t.Above this this
  | up {a : Nat} (h : t.Above this a) : t.Above this (t.parent a)

/-- The tables in which an allocation is to be recorded have a free entry. -/
def Event.HasRoom (t : ContainerTree) (s : Containers) : Event → Prop
  | alloc this _ _ => (∃ i, ((s this).proc i).state = .unused) →
      ∀ a, t.Above this a → ∃ k, ((s a).pmap k).valid = false
  | _ => True

variable {t : ContainerTree} {initproc p q : ProcId} {s s' : Containers} {this a : Nat} {c : Container}

/-! ### What a change of the process tables leaves alone -/

@[simp] theorem setProc_pmap {f : Proc → Proc} : (s.setProc p f a).pmap = (s a).pmap := by
  by_cases ha : a = p.1
  · rw [ha, Containers.setProc, update_self]
  · rw [Containers.setProc, update_of_ne ha]

@[simp] theorem setProc_pid {f : Proc → Proc} : (s.setProc p f a).pid = (s a).pid := by
  by_cases ha : a = p.1
  · rw [ha, Containers.setProc, update_self]
  · rw [Containers.setProc, update_of_ne ha]

@[simp] theorem proc_setProc_self {f : Proc → Proc} : (s.setProc p f).proc p = f (s.proc p) := by
  rw [Containers.proc, Containers.setProc, update_self]
  exact update_self ..

theorem proc_setProc_of_ne {f : Proc → Proc} (h : q ≠ p) : (s.setProc p f).proc q = s.proc q := by
  rw [Containers.proc, Containers.setProc]
  by_cases hc : q.1 = p.1
  · have hi : q.2 ≠ p.2 := fun hi => h (Prod.ext hc hi)
    rw [hc, update_self]
    show update (s p.1).proc p.2 _ q.2 = (s q.1).proc q.2
    rw [update_of_ne hi, hc]
  · rw [update_of_ne hc]
    rfl

theorem reparent_pmap : (reparent initproc p s a).pmap = (s a).pmap ∧ (reparent initproc p s a).pid = (s a).pid := by
  by_cases ha : a = p.1
  · rw [ha, reparent, update_self]
    exact ⟨rfl, rfl⟩
  · rw [reparent, update_of_ne ha]
    exact ⟨rfl, rfl⟩

theorem proc_reparent : ((reparent initproc p s).proc q).state = (s.proc q).state ∧
    ((reparent initproc p s).proc q).pid = (s.proc q).pid := by
  rw [Containers.proc, reparent]
  by_cases hc : q.1 = p.1
  · rw [hc, update_self, Containers.proc, hc]
    dsimp only
    split <;> exact ⟨rfl, rfl⟩
  · rw [update_of_ne hc]
    exact ⟨rfl, rfl⟩

/-! ### One table -/

/-- Entry `k` is for `p`. -/
def Container.Lists (c : Container) (p : ProcId) (k : Fin npid) : Prop := (c.pmap k).valid = true ∧ (c.pmap k).p = p

/-- The identifiers given out are different, and the counter is at the last one. -/
structure Numbered (c : Container) : Prop where
  le : ∀ k, (c.pmap k).valid = true → (c.pmap k).pidLocal ≤ c.pid
  inj : ∀ k k', (c.pmap k).valid = true → (c.pmap k').valid = true →
    (c.pmap k).pidLocal = (c.pmap k').pidLocal → k = k'

theorem Container.record_cases (c : Container) (p : ProcId) :
    (∃ i, (c.pmap i).valid = false ∧ (c.record p).pid = c.pid + 1 ∧
      (c.record p).pmap = update c.pmap i ⟨true, c.pid + 1, p⟩) ∨
    (∀ k, (c.pmap k).valid = true) ∧ c.record p = c := by
  rw [record]
  cases hf : c.freeEntry with
  | some i =>
    have hi := List.find?_some hf
    rw [Bool.not_eq_true'] at hi
    exact Or.inl ⟨i, hi, rfl, rfl⟩
  | none =>
    refine Or.inr ⟨fun k => ?_, rfl⟩
    have hk := List.find?_eq_none.mp hf k (List.mem_finRange k)
    simpa using hk

theorem Container.record_proc : (c.record p).proc = c.proc := by
  rw [record]
  split <;> rfl

theorem Numbered.record (h : Numbered c) (p : ProcId) : Numbered (c.record p) := by
  rcases c.record_cases p with ⟨i, hi, hpid, hmap⟩ | ⟨-, he⟩
  · -- the new entry has a number above all others
    have hnew : ∀ k, (c.pmap k).valid = true → (c.pmap k).pidLocal ≠ c.pid + 1 := fun k hk he => by
      have := h.le k hk
      omega
    constructor
    case le =>
      intro k hk
      rw [hmap] at hk
      rw [hmap, hpid]
      by_cases hki : k = i
      · rw [hki, update_self]
      · rw [update_of_ne hki] at hk ⊢
        have := h.le k hk
        omega
    case inj =>
      intro k k' hk hk' hp
      rw [hmap] at hk hk' hp
      by_cases hki : k = i
      · by_cases hki' : k' = i
        · rw [hki, hki']
        · rw [update_of_ne hki'] at hk'
          rw [hki, update_self, update_of_ne hki'] at hp
          exact absurd hp.symm (hnew k' hk')
      · rw [update_of_ne hki] at hk hp
        by_cases hki' : k' = i
        · rw [hki', update_self] at hp
          exact absurd hp (hnew k hk)
        · rw [update_of_ne hki'] at hk' hp
          exact h.inj k k' hk hk' hp
  · rw [he]
    exact h

/-- Entries stay. -/
theorem Container.record_keeps {k : Fin npid} (h : (c.pmap k).valid = true) : (c.record p).pmap k = c.pmap k := by
  rcases c.record_cases p with ⟨i, hi, -, hmap⟩ | ⟨-, he⟩
  · rw [hmap]
    refine update_of_ne (fun hk => ?_) ..
    rw [hk, hi] at h
    cases h
  · rw [he]

theorem Container.Lists.record {k : Fin npid} (h : c.Lists q k) : (c.record p).Lists q k := by
  rw [Lists, record_keeps h.1]
  exact h

/-- Where there is room, the process is listed under the new value of the counter. -/
theorem Container.record_lists (h : ∃ k, (c.pmap k).valid = false) :
    ∃ k, (c.record p).Lists p k ∧ ((c.record p).pmap k).pidLocal = (c.record p).pid := by
  rcases c.record_cases p with ⟨i, hi, hpid, hmap⟩ | ⟨hfull, -⟩
  · refine ⟨i, ?_⟩
    rw [Lists, hmap, hpid, update_self]
    exact ⟨⟨rfl, rfl⟩, rfl⟩
  · obtain ⟨k, hk⟩ := h
    rw [hfull k] at hk
    cases hk

/-! ### The tables of a container and its ancestors -/

theorem ContainerTree.parent_le (t : ContainerTree) (a : Nat) : t.parent a ≤ a := by
  by_cases ha : a = 0
  · rw [ha, t.root]
  · exact (t.lt a ha).le

theorem ContainerTree.Above.le (h : t.Above this a) : a ≤ this := by
  induction h with
  | self => exact le_rfl
  | up _ ih => exact (t.parent_le _).trans ih

/-- The ancestors of `this` are those of its parent. -/
theorem ContainerTree.above_iff : t.Above this a ↔ a = this ∨ t.Above (t.parent this) a := by
  constructor
  · intro h
    induction h with
    | self => exact Or.inl rfl
    | up h ih =>
      rcases ih with rfl | ih
      · exact Or.inr .self
      · exact Or.inr (.up ih)
  · intro h
    rcases h with rfl | h
    · exact .self
    · induction h with
      | self => exact .up .self
      | up _ ih => exact .up ih

theorem ContainerTree.above_root (hroot : t.parent this = this) : t.Above this a ↔ a = this := by
  refine ⟨fun ha => ?_, fun ha => ha ▸ .self⟩
  induction ha with
  | self => rfl
  | up _ ih => rw [ih, hroot]

open Classical in
/-- An allocation is recorded in `this` and every ancestor, and nowhere else. -/
theorem allocResource_spec {fuel : Nat} (h : this < fuel) :
    (allocResource t p fuel this .pid s).2 a = if t.Above this a then (s a).record p else s a := by
  induction fuel generalizing this s with
  | zero => exact absurd h (Nat.not_lt_zero _)
  | succ fuel ih =>
    rw [allocResource]
    dsimp only
    rw [if_pos rfl]
    by_cases hroot : t.parent this = this
    · rw [if_neg (not_not.mpr hroot)]
      by_cases ha : a = this
      · rw [if_pos ((ContainerTree.above_root hroot).mpr ha), ha, update_self]
      · rw [if_neg (mt (ContainerTree.above_root hroot).mp ha), update_of_ne ha]
    · have hlt : t.parent this < this := lt_of_le_of_ne (t.parent_le this) hroot
      rw [if_pos hroot, ih (by omega),
        show t.Above this a ↔ a = this ∨ t.Above (t.parent this) a from ContainerTree.above_iff]
      by_cases ha : a = this
      · have hnot : ¬ t.Above (t.parent this) a := fun hab => by
          have := hab.le
          omega
        rw [if_neg hnot, if_pos (Or.inl ha), ha, update_self]
      · rw [update_of_ne ha]
        simp only [ha, false_or]

/-! ### What every event keeps -/

def Containers.Live (s : Containers) (p : ProcId) : Prop := (s.proc p).state ≠ .unused

structure Recorded (t : ContainerTree) (s : Containers) : Prop where
  numbered : ∀ a, Numbered (s a)
  own : ∀ p, s.Live p → ∃ k, (s p.1).Lists p k ∧ ((s p.1).pmap k).pidLocal = (s.proc p).pid
  above : ∀ p, s.Live p → ∀ a, t.Above p.1 a → ∃ k, (s a).Lists p k

theorem recorded_zero (t : ContainerTree) : Recorded t .zero :=
  ⟨fun _ => ⟨nofun, nofun⟩, fun _ h => absurd rfl h, fun _ h => absurd rfl h⟩

/-- The tables are as they were, and no process has come to life. -/
theorem Recorded.congr (h : Recorded t s) (hmap : ∀ a, (s' a).pmap = (s a).pmap ∧ (s' a).pid = (s a).pid)
    (hproc : ∀ p, s'.Live p → s.Live p ∧ (s'.proc p).pid = (s.proc p).pid) : Recorded t s' := by
  constructor
  case numbered =>
    intro a
    constructor
    · rw [(hmap a).1, (hmap a).2]
      exact (h.numbered a).le
    · rw [(hmap a).1]
      exact (h.numbered a).inj
  case own =>
    intro p hp
    simp only [Container.Lists, (hmap p.1).1, (hproc p hp).2]
    exact h.own p (hproc p hp).1
  case above =>
    intro p hp a ha
    simp only [Container.Lists, (hmap a).1]
    exact h.above p (hproc p hp).1 a ha

open Classical in
/-- `p` has been recorded wherever it has to be, and nothing else has changed. -/
theorem Recorded.register (h : Recorded t s)
    (hmap : ∀ a, (s' a).pmap = (if t.Above p.1 a then (s a).record p else s a).pmap ∧
      (s' a).pid = (if t.Above p.1 a then (s a).record p else s a).pid)
    (hroom : ∀ a, t.Above p.1 a → ∃ k, ((s a).pmap k).valid = false)
    (hothers : ∀ q ≠ p, s'.proc q = s.proc q) (hpid : (s'.proc p).pid = (s' p.1).pid) : Recorded t s' := by
  have hold : ∀ a q k, (s a).Lists q k → (s' a).Lists q k ∧ (s' a).pmap k = (s a).pmap k := by
    intro a q k hk
    rw [Container.Lists, (hmap a).1]
    split
    case isTrue => exact ⟨hk.record, Container.record_keeps hk.1⟩
    case isFalse => exact ⟨hk, rfl⟩
  have hnew : ∀ a, t.Above p.1 a → ∃ k, (s' a).Lists p k ∧ ((s' a).pmap k).pidLocal = (s' a).pid := by
    intro a ha
    rw [(hmap a).2]
    simp only [Container.Lists, (hmap a).1, if_pos ha]
    exact Container.record_lists (hroom a ha)
  have hlive : ∀ q ≠ p, s'.Live q → s.Live q := fun q hq hl => by
    rw [Containers.Live, hothers q hq] at hl
    exact hl
  constructor
  case numbered =>
    intro a
    have hrec : Numbered (if t.Above p.1 a then (s a).record p else s a) := by
      split
      case isTrue => exact (h.numbered a).record p
      case isFalse => exact h.numbered a
    constructor
    · rw [(hmap a).1, (hmap a).2]
      exact hrec.le
    · rw [(hmap a).1]
      exact hrec.inj
  case own =>
    intro q hq
    by_cases he : q = p
    · rw [he, hpid]
      exact hnew p.1 .self
    · obtain ⟨k, hk, hkp⟩ := h.own q (hlive q he hq)
      refine ⟨k, (hold _ _ _ hk).1, ?_⟩
      rw [(hold _ _ _ hk).2, hothers q he, hkp]
  case above =>
    intro q hq a ha
    by_cases he : q = p
    · rw [he] at ha ⊢
      obtain ⟨k, hk, -⟩ := hnew a ha
      exact ⟨k, hk⟩
    · obtain ⟨k, hk⟩ := h.above q (hlive q he hq) a ha
      exact ⟨k, (hold _ _ _ hk).1⟩

theorem allocResource_fst {fuel : Nat} {resource : Resource} :
    (allocResource t p fuel this resource s).1 = ((allocResource t p fuel this resource s).2 this).pid := by
  cases fuel with
  | zero => rfl
  | succ fuel => rfl

open Classical in
/-- Recording touches no process. -/
theorem allocResource_proc {fuel : Nat} (h : this < fuel) :
    (allocResource t p fuel this .pid s).2.proc q = s.proc q := by
  rw [Containers.proc, allocResource_spec h]
  split
  case isTrue => rw [Container.record_proc]; rfl
  case isFalse => rfl

/-- What `alloc_pcb` does: the new process gets the value of the counter. -/
theorem allocPcbSimple_cases (t : ContainerTree) (this : Nat) (s : Containers) :
    (allocPcbSimple t this s).1 = none ∧ (allocPcbSimple t this s).2 = s ∨
    ∃ p, (allocPcbSimple t this s).1 = some p ∧ (s.proc p).state = .unused ∧
      (∀ q ≠ p, (allocPcbSimple t this s).2.proc q = s.proc q) ∧
      (allocPcbSimple t this s).2.proc p = {s.proc p with pid := ((allocPcbSimple t this s).2 this).pid} ∧
      ∀ a, (s a).pid ≤ ((allocPcbSimple t this s).2 a).pid := by
  rw [allocPcbSimple]
  cases hf : (List.finRange nproc).find? fun i => ((s this).proc i).state = .unused with
  | none => exact Or.inl ⟨rfl, rfl⟩
  | some i =>
    right
    have hlt : this < this + 1 := Nat.lt_succ_self this
    have htest := List.find?_some hf
    refine ⟨(this, i), rfl, of_decide_eq_true htest, fun q hq => ?_, ?_, fun a => ?_⟩
    · exact (proc_setProc_of_ne hq).trans (allocResource_proc hlt)
    · dsimp only
      rw [proc_setProc_self, allocResource_proc hlt, setProc_pid, allocResource_fst]
    · dsimp only
      rw [setProc_pid, allocResource_spec hlt]
      split
      case isTrue =>
        rcases (s a).record_cases (this, i) with ⟨_, -, hpid, -⟩ | ⟨-, he⟩
        · omega
        · rw [he]
      case isFalse => exact Int.le_refl _

theorem Recorded.allocProc (h : Recorded t s) {parent : Option ProcId} {memory : Bool}
    (hroom : (Event.alloc this parent memory).HasRoom t s) : Recorded t (allocProc t this parent memory s) := by
  rw [Core.allocProc, allocPcbSimple]
  cases hf : (List.finRange nproc).find? fun i => ((s this).proc i).state = .unused with
  | none => exact h
  | some i =>
    have htest := List.find?_some hf
    have hunused : (s.proc (this, i)).state = .unused := of_decide_eq_true htest
    dsimp only
    have hlt : this < this + 1 := Nat.lt_succ_self this
    refine h.register (p := (this, i)) (fun a => ?_) (hroom ⟨i, hunused⟩) (fun q hq => ?_) ?_
    · rw [setProc_pmap, setProc_pid, setProc_pmap, setProc_pid, allocResource_spec hlt]
      exact ⟨rfl, rfl⟩
    · rw [proc_setProc_of_ne hq, proc_setProc_of_ne hq, allocResource_proc hlt]
    · rw [proc_setProc_self, proc_setProc_self, setProc_pid, setProc_pid, ← allocResource_fst]
      split <;> rfl

theorem Recorded.setProc (h : Recorded t s) {f : Proc → Proc} (hlive : s.Live p ∨ (f (s.proc p)).state = .unused)
    (hpid : (f (s.proc p)).state ≠ .unused → (f (s.proc p)).pid = (s.proc p).pid) : Recorded t (s.setProc p f) := by
  refine h.congr (fun a => ⟨setProc_pmap, setProc_pid⟩) fun q hq => ?_
  by_cases he : q = p
  · rw [Containers.Live, he, proc_setProc_self] at hq
    rw [he, proc_setProc_self]
    exact ⟨hlive.resolve_right hq, hpid hq⟩
  · rw [Containers.Live, proc_setProc_of_ne he] at hq
    rw [proc_setProc_of_ne he]
    exact ⟨hq, rfl⟩

theorem Recorded.exec (h : Recorded t s) {e : Event} (hroom : e.HasRoom t s) (hs : e.exec t initproc s = some s') :
    Recorded t s' := by
  cases e with
  | alloc this parent memory =>
    cases hs
    exact h.allocProc hroom
  | turn p state =>
    obtain ⟨hok, rfl⟩ := Option.ite_some_none_eq_some.mp hs
    exact h.setProc (Or.inl hok.1) fun _ => rfl
  | exit p =>
    obtain ⟨hok, rfl⟩ := Option.ite_some_none_eq_some.mp hs
    have hre : Recorded t (reparent initproc p s) := h.congr (fun _ => reparent_pmap) fun q hq => by
      rw [Containers.Live, proc_reparent.1] at hq
      exact ⟨hq, proc_reparent.2⟩
    exact hre.setProc (Or.inl (by rw [Containers.Live, proc_reparent.1]; exact hok)) fun _ => rfl
  | wait p =>
    obtain ⟨-, rfl⟩ := Option.ite_some_none_eq_some.mp hs
    rw [reap]
    split
    case h_1 => exact h.setProc (Or.inr rfl) fun hne => absurd rfl hne
    case h_2 => exact h

/-- **Process identifiers are unique** as long as the tables have room: live processes
of a container have different pids, and each is listed in its container and every
ancestor, under a number no other live process has there. -/
theorem pids_unique (t : ContainerTree) (initproc : ProcId)
    (hrun : Reach (fun s e s' => Event.exec t initproc s e = some s') (fun s e => e.HasRoom t s) .zero s) :
    (∀ p q, s.Live p → s.Live q → p.1 = q.1 → (s.proc p).pid = (s.proc q).pid → p = q) ∧
      ∀ p, s.Live p → ∀ a, t.Above p.1 a → ∃ k, (s a).Lists p k ∧
        ∀ q, s.Live q → q ≠ p → ∀ k', (s a).Lists q k' → ((s a).pmap k').pidLocal ≠ ((s a).pmap k).pidLocal := by
  have h : Recorded t s := hrun.invariant (recorded_zero t) fun _ _ _ h hroom hs => h.exec hroom hs
  constructor
  · intro p q hp hq hc hpid
    obtain ⟨k, hk, hkp⟩ := h.own p hp
    obtain ⟨k', hk', hkq⟩ := h.own q hq
    rw [← hc] at hk' hkq
    have hsame := (h.numbered p.1).inj k k' hk.1 hk'.1 (by rw [hkp, hkq, hpid])
    rw [← hk.2, hsame, hk'.2]
  · intro p hp a ha
    obtain ⟨k, hk⟩ := h.above p hp a ha
    refine ⟨k, hk, fun q hq hne k' hk' hsame => hne ?_⟩
    rw [← hk'.2, (h.numbered a).inj k' k hk'.1 hk.1 hsame, hk.2]

/-- Containers directly below the root. -/
def flatTree : ContainerTree := ⟨fun _ => 0, rfl, fun _ h => Nat.pos_of_ne_zero h⟩

theorem flatTree_above (h : flatTree.Above this a) : a = this ∨ a = 0 := by
  induction h with
  | self => exact Or.inl rfl
  | up _ _ => exact Or.inr rfl

theorem flatTree_room {parent : Option ProcId} {memory : Bool}
    (h : ((s this).pmap 63).valid = false ∧ ((s 0).pmap 63).valid = false) :
    (Event.alloc this parent memory).HasRoom flatTree s := by
  intro _ a ha
  rcases flatTree_above ha with rfl | rfl
  · exact ⟨63, h.1⟩
  · exact ⟨63, h.2⟩

/-- The theorem on a process, its child, and a process of a container below. -/
theorem pids_unique_three : ∃ s : Containers, s.Live (0, 0) ∧ s.Live (0, 1) ∧ s.Live (1, 0) ∧
    (s.proc (0, 0)).pid ≠ (s.proc (0, 1)).pid ∧ ∃ k, (s 0).Lists (1, 0) k := by
  let s1 := allocProc flatTree 0 none true .zero
  let s2 := allocProc flatTree 0 (some (0, 0)) true s1
  let s3 := allocProc flatTree 1 none true s2
  have hrun : Reach (fun s e s' => Event.exec flatTree (0, 0) s e = some s') (fun s e => e.HasRoom flatTree s)
      .zero s3 := by
    have h1 : Event.exec flatTree (0, 0) .zero (.alloc 0 none true) = some s1 := rfl
    have h2 : Event.exec flatTree (0, 0) s1 (.alloc 0 (some (0, 0)) true) = some s2 := rfl
    have h3 : Event.exec flatTree (0, 0) s2 (.alloc 1 none true) = some s3 := rfl
    refine ((Reach.start.next (flatTree_room ?_) h1).next (flatTree_room ?_) h2).next (flatTree_room ?_) h3
    · decide
    · decide +kernel
    · decide +kernel
  obtain ⟨hpids, hlisted⟩ := pids_unique flatTree (0, 0) hrun
  have hlive : s3.Live (0, 0) ∧ s3.Live (0, 1) ∧ s3.Live (1, 0) := by
    unfold Containers.Live
    decide +kernel
  refine ⟨s3, hlive.1, hlive.2.1, hlive.2.2, fun he => ?_, ?_⟩
  · exact absurd (hpids _ _ hlive.1 hlive.2.1 rfl he) (by decide)
  · obtain ⟨k, hk, -⟩ := hlisted (1, 0) hlive.2.2 0 (.up .self)
    exact ⟨k, hk⟩

/-- A process forks until its table of identifiers is full, and twice more. -/
def forkForever : List Event :=
  .alloc 0 none true :: (List.replicate 63 [.alloc 0 (some (0, 0)) true, .exit (0, 1), .wait (0, 0)]).flatten ++
    [.alloc 0 (some (0, 0)) true, .alloc 0 (some (0, 0)) true]

/-- The 65th and the 66th process of a container have the same pid. -/
theorem pid_given_twice : ∃ s,
    Reach (fun s e s' => Event.exec flatTree (0, 0) s e = some s') (fun _ _ => True) .zero s ∧
      s.Live (0, 1) ∧ s.Live (0, 2) ∧ (s.proc (0, 1)).pid = (s.proc (0, 2)).pid := by
  have hrun : (runAll (Event.exec flatTree (0, 0)) (fun _ _ => True) .zero forkForever).any (fun s =>
      (s.proc (0, 1)).state != .unused && (s.proc (0, 2)).state != .unused &&
        (s.proc (0, 1)).pid == (s.proc (0, 2)).pid) = true := by
    decide +kernel
  obtain ⟨s, hs, htest⟩ := Reach.exists_of_any hrun
  simp only [Bool.and_eq_true, bne_iff_ne, beq_iff_eq] at htest
  exact ⟨s, hs, htest.1.1, htest.1.2, htest.2⟩

end OS2021.Core
