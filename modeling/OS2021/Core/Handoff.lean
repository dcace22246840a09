import OS2021.Core.Family

/-! Schedulers that hand CPUs over to each other (`core/sched.c`, `container_entry` of
`core/container.c`; `forkret`, `yield`, `sleep`, `wakeup` and `exit` of `core/proc.c`).

A CPU executes the scheduler of a container or a process. What it is about to do is a
`Code`; what `swtch` leaves behind is a context, one for each scheduler and CPU and one
for each process. The lock of a process table is taken by one context and given back by
another. -/
namespace OS2021.Core
open Lib Function

/-- `NCPU` -/
abbrev ncpu : Nat := 4

abbrev Cpu := Fin ncpu

/-- The containers there are, and the entries that stand for them in the tables of their parents. -/
structure Nesting where
  tree : ContainerTree
  /-- `c->p` -/
  slot : Nat → ProcId
  /-- `p->cont`, where `p->is_scheduler` -/
  cont : ProcId → Option Nat
  cont_slot : ∀ p c, cont p = some c → c ≠ 0 ∧ slot c = p ∧ p.1 = tree.parent c

/-! ### Code -/

/-- A routine that takes the lock of the process table. -/
inductive Routine where
  | yield
  | sleep (chan : Chan)
  | wakeup (chan : Chan)
  | exit
  deriving DecidableEq

/-- What a CPU is about to do. In the scheduler of `this` the loop is at slot `i`, and `k` is
where it goes on after `yield_scheduler`: after a slot, or at the end of the loop. -/
inductive Code where
  /-- `acquire_sched_lock()` in the loop -/
  | scan (this : Nat) (i : Fin nproc)
  /-- `if (p->state == RUNNABLE)` -/
  | look (this : Nat) (i : Fin nproc)
  /-- `swtch` to what is in the slot -/
  | run (this : Nat) (i : Fin nproc)
  /-- `c->proc = this->cont->p`, after that -/
  | back (this : Nat) (i : Fin nproc)
  /-- `if (this == this->parent)` in `yield_scheduler` -/
  | yieldUp (this : Nat) (k : Option (Fin nproc))
  /-- `acquire_ptable_lock(this->parent)` -/
  | lockParent (this : Nat) (k : Option (Fin nproc))
  /-- `thiscpu()->scheduler = this->parent`, up to `release_ptable_lock(this)` -/
  | giveUp (this : Nat) (k : Option (Fin nproc))
  /-- `swtch` to the parent -/
  | switchUp (this : Nat) (k : Option (Fin nproc))
  /-- `acquire_ptable_lock(this)`, after that -/
  | lockThis (this : Nat) (k : Option (Fin nproc))
  /-- `thiscpu()->scheduler = this; release_ptable_lock(this->parent)` -/
  | unlockParent (this : Nat) (k : Option (Fin nproc))
  /-- `release_sched_lock()` -/
  | unlock (this : Nat) (k : Option (Fin nproc))
  /-- `acquire_sched_lock()` after the loop -/
  | tail (this : Nat)
  /-- `release_sched_lock()` in `container_entry` -/
  | entry (c : Nat)
  /-- `thiscpu()->scheduler = ...; enter_scheduler()` -/
  | enter (c : Nat)
  /-- `release_sched_lock()` in `forkret`, `yield`, `sleep` and `wakeup` -/
  | resumed (p : ProcId)
  /-- Outside these routines. -/
  | user (p : ProcId)
  /-- `acquire_sched_lock()` -/
  | lock (p : ProcId) (f : Routine)
  /-- What the routine does under the lock. -/
  | inside (p : ProcId) (f : Routine)
  /-- `sched()` -/
  | leave (p : ProcId)
  deriving DecidableEq

/-- A context of a scheduler: new, or left by one of its two `swtch`. -/
inductive Context where
  | entry
  | picked (this : Nat) (i : Fin nproc)
  | yielded (this : Nat) (k : Option (Fin nproc))

/-- Where a context of the scheduler of `c` goes on. -/
def Context.code (c : Nat) : Context → Code
  | entry => .entry c
  | picked this i => .back this i
  | yielded this k => .lockThis this k

/-- `proc` and `sched` are `thiscpu()->proc` and `thiscpu()->scheduler`; a context of a process
is named by the process whose code is in it. -/
structure Cpus where
  table : Family
  lock : Nat → Option Cpu
  sched : Cpu → Nat
  proc : Cpu → Option ProcId
  code : Cpu → Code
  context : Nat → Cpu → Context
  procContext : ProcId → ProcId

namespace Cpus

/-- All CPUs enter the scheduler of the root container. -/
def start (procs : Containers) : Cpus where
  table := .start procs
  lock := fun _ => none
  sched := fun _ => 0
  proc := fun _ => none
  code := fun _ => .scan 0 0
  context := fun _ _ => .entry
  procContext := id

def goto (s : Cpus) (cpu : Cpu) (b : Code) : Cpus := {s with code := update s.code cpu b}

/-- `acquire_ptable_lock` of `c`, if it is free. -/
def acquire (s : Cpus) (cpu : Cpu) (c : Nat) (b : Code) : Option Cpus :=
  if s.lock c = none then some ({s with lock := update s.lock c (some cpu)}.goto cpu b) else none

def release (s : Cpus) (c : Nat) : Cpus := {s with lock := update s.lock c none}

def setState (s : Cpus) (p : ProcId) (state : ProcState) : Cpus :=
  {s with table := s.table.setProc p fun q => {q with state}}

def setContext (s : Cpus) (c : Nat) (cpu : Cpu) (x : Context) : Cpus :=
  {s with context := update s.context c (update (s.context c) cpu x)}

end Cpus

/-- `this->cont->p`, which the root container does not have. -/
def Nesting.contProc (L : Nesting) (this : Nat) : Option ProcId := if this = 0 then none else some (L.slot this)

/-- Where the loop goes on. -/
def nextSlot (this : Nat) : Option (Fin nproc) → Code
  | none => .scan this 0
  | some i => if h : i.val + 1 < nproc then .scan this ⟨i.val + 1, h⟩ else .tail this

/-- What a routine does under the lock, for the process that `thiscpu()->proc` points to, on
the table of `thiscpu()->scheduler`; `exit` of `initproc` is a panic. -/
def Routine.exec (initproc : ProcId) (sched : Nat) (q : ProcId) (table : Family) : Routine → Option Family
  | yield => some (table.setProc q fun q => {q with state := .runnable})
  | sleep chan => some (table.park q chan .sleep)
  | wakeup chan => some (table.wakeup1 (some q) sched chan)
  | exit => if q = initproc then none else some (table.exit initproc q)

/-- `wakeup` goes on to give the lock back, the others leave. -/
def Routine.next (p : ProcId) : Routine → Code
  | wakeup _ => .resumed p
  | yield | sleep _ | exit => .leave p

/-- One step of `cpu`; a process outside its routines calls `f`. -/
def Cpus.step (L : Nesting) (initproc : ProcId) (s : Cpus) (cpu : Cpu) (f : Routine) : Option Cpus :=
  match s.code cpu with
  | .scan this i => s.acquire cpu (s.sched cpu) (.look this i)
  | .look this i =>
    if (s.table.proc (this, i)).state = .runnable then
      some ({s.setState (this, i) .running with proc := update s.proc cpu (some (this, i))}.goto cpu
        (.run this i))
    else some (s.goto cpu (.unlock this (some i)))
  | .run this i =>
    let s := s.setContext (s.sched cpu) cpu (.picked this i)
    match L.cont (this, i) with
    | some c => some (s.goto cpu ((s.context c cpu).code c))
    | none => some (s.goto cpu (.resumed (s.procContext (this, i))))
  | .back this i => some ({s with proc := update s.proc cpu (L.contProc this)}.goto cpu
    (.yieldUp this (some i)))
  | .yieldUp this k =>
    if this = L.tree.parent this then some (s.goto cpu (.unlock this k)) else some (s.goto cpu (.lockParent this k))
  | .lockParent this k => s.acquire cpu (L.tree.parent this) (.giveUp this k)
  | .giveUp this k =>
    some (({s.setState (L.slot this) .runnable with
      sched := update s.sched cpu (L.tree.parent this)}.release this).goto cpu (.switchUp this k))
  | .switchUp this k =>
    let s := s.setContext this cpu (.yielded this k)
    some (s.goto cpu ((s.context (L.tree.parent this) cpu).code (L.tree.parent this)))
  | .lockThis this k => s.acquire cpu this (.unlockParent this k)
  | .unlockParent this k =>
    some (({s with sched := update s.sched cpu this}.release (L.tree.parent this)).goto cpu (.unlock this k))
  | .unlock this k =>
    let s := if k.isSome then {s with proc := update s.proc cpu (L.contProc this)} else s
    some ((s.release (s.sched cpu)).goto cpu (nextSlot this k))
  | .tail this => s.acquire cpu (s.sched cpu) (.yieldUp this none)
  | .entry c => some ((s.release (s.sched cpu)).goto cpu (.enter c))
  | .enter _ =>
    match (s.proc cpu).bind L.cont with
    | some c => some ({s with
        sched := update s.sched cpu c
        proc := update s.proc cpu (L.contProc c)}.goto cpu (.scan c 0))
    | none => none
  | .resumed p => some (({s with table := s.table.leaveSleep p}.release (s.sched cpu)).goto cpu (.user p))
  | .user p => some (s.goto cpu (.lock p f))
  | .lock p f => s.acquire cpu (s.sched cpu) (.inside p f)
  | .inside p f =>
    (s.proc cpu).bind fun q => (f.exec initproc (s.sched cpu) q s.table).map fun table =>
      {s with table}.goto cpu (f.next p)
  | .leave p =>
    -- `sched_simple` panics without the lock, and for a process that is `RUNNING`
    (s.proc cpu).bind fun q =>
      if s.lock (s.sched cpu) = none ∨ (s.table.proc q).state = .running then none
      else some ({s with procContext := update s.procContext q p}.goto cpu
        ((s.context (s.sched cpu) cpu).code (s.sched cpu)))

/-! ### What a place in the code says -/

namespace Code

/-- The container whose scheduler, or one of whose processes, is executed. -/
def container : Code → Nat
  | scan this _ | look this _ | run this _ | back this _ | yieldUp this _ | lockParent this _ | giveUp this _
  | switchUp this _ | lockThis this _ | unlockParent this _ | unlock this _ | tail this => this
  | entry c | enter c => c
  | resumed p | user p | lock p _ | inside p _ | leave p => p.1

/-- The process that is executed. -/
def process : Code → Option ProcId
  | resumed p | user p | lock p _ | inside p _ | leave p => some p
  | _ => none

/-- The slot that a scheduler has picked and not switched to yet. -/
def chosen : Code → Option ProcId
  | run this i => some (this, i)
  | _ => none

end Code

namespace Nesting
variable (L : Nesting)

/-- Whether the lock of `c` is held. -/
def holds (c : Nat) : Code → Bool
  | .look this _ | .run this _ | .back this _ | .yieldUp this _ | .lockParent this _ | .unlock this _ => c == this
  | .giveUp this _ | .unlockParent this _ => c == this || c == L.tree.parent this
  | .switchUp this _ | .lockThis this _ => c == L.tree.parent this
  | .entry d => c == L.tree.parent d
  | .resumed p | .inside p _ | .leave p => c == p.1
  | .scan _ _ | .tail _ | .enter _ | .user _ | .lock _ _ => false

/-- The lock that the code is to give back next. -/
def gives : Code → Option Nat
  | .look this _ | .run this _ | .back this _ | .yieldUp this _ | .lockParent this _ | .giveUp this _
  | .unlock this _ => some this
  | .switchUp this _ | .lockThis this _ | .unlockParent this _ => some (L.tree.parent this)
  | .entry c => some (L.tree.parent c)
  | .resumed p | .inside p _ | .leave p => some p.1
  | .scan _ _ | .tail _ | .enter _ | .user _ | .lock _ _ => none

/-- `thiscpu()->scheduler` -/
def scheduler : Code → Nat
  | .switchUp this _ | .lockThis this _ | .unlockParent this _ => L.tree.parent this
  | .entry c | .enter c => L.tree.parent c
  | a => a.container

/-- `thiscpu()->proc`, where it is followed. -/
def current : Code → Option ProcId
  | .run this i => some (this, i)
  | .entry c | .enter c => some (L.slot c)
  | a => a.process

/-- The process, or the container, that is about to be left, its state changed already. -/
def leaving : Code → Option ProcId
  | .leave p => some p
  | .switchUp this _ => some (L.slot this)
  | _ => none

/-- The processes and containers that a CPU executes. -/
def Occupies (a : Code) (p : ProcId) : Prop :=
  a.process = some p ∨ a.chosen = some p ∨ ∃ d, d ≠ 0 ∧ L.tree.Above a.container d ∧ L.slot d = p

end Nesting

/-- Inside `yield_scheduler` or `container_entry`, in a container that has a parent. -/
def Code.nested : Code → Bool
  | lockParent _ _ | giveUp _ _ | switchUp _ _ | lockThis _ _ | unlockParent _ _ | entry _ | enter _ => true
  | _ => false

/-! ### The hand-off -/

variable {L : Nesting} {initproc p q : ProcId} {s s' : Cpus} {cpu cpu' : Cpu} {a b : Code} {c d : Nat} {f : Routine}
  {this : Nat} {table : Family} {i : Fin nproc} {t : ContainerTree} {proc : Cpu → Option ProcId} {x : Context}

abbrev Cpus.Running (s : Cpus) (p : ProcId) : Prop := (s.table.proc p).state = .running

/-- What a place in the code says about the CPU that is at it. -/
structure Placed (L : Nesting) (s : Cpus) (cpu : Cpu) (a : Code) : Prop where
  sched : s.sched cpu = L.scheduler a
  proc : ∀ p, L.current a = some p → s.proc cpu = some p
  nested : a.nested = true → a.container ≠ 0
  /-- The schedulers above what it executes wait for its return, -/
  above : ∀ d, d ≠ 0 → L.tree.Above a.container d →
    L.cont (L.slot d) = some d ∧ s.context (L.tree.parent d) cpu = .picked (L.tree.parent d) (L.slot d).2
  own : ∀ p, a.process = some p → s.context p.1 cpu = .picked p.1 p.2
  /-- and the others can be entered. -/
  idle : ∀ c, ¬ L.tree.Above a.container c → s.context c cpu = .entry ∨ ∃ k, s.context c cpu = .yielded c k
  running : ∀ p, L.Occupies a p → L.leaving a ≠ some p → s.Running p
  left : ∀ p, a = .leave p → ¬ s.Running p

structure Handoff (L : Nesting) (s : Cpus) : Prop where
  lock : ∀ c, Guards (L.holds c) (s.lock c) s.code
  procContext : ∀ p, s.procContext p = p
  placed : ∀ cpu, Placed L s cpu (s.code cpu)
  exclusive : ∀ cpu cpu' p, L.Occupies (s.code cpu) p → L.Occupies (s.code cpu') p → cpu = cpu'

theorem Handoff.here (h : Handoff L s) (ha : s.code cpu = a) : Placed L s cpu a := ha ▸ h.placed cpu

theorem ContainerTree.above_zero (h : t.Above 0 d) : d = 0 := Nat.le_zero.mp h.le

theorem handoff_start (procs : Containers) : Handoff L (.start procs) := by
  have hnone : ∀ p, ¬ L.Occupies (.scan 0 0) p := by
    intro p hp
    rcases hp with hp | hp | ⟨d, hd, habove, -⟩
    · cases hp
    · cases hp
    · exact hd (ContainerTree.above_zero habove)
  refine ⟨fun c t => iff_of_false nofun nofun, fun _ => rfl, fun cpu => ?_, fun _ _ p hp => absurd hp (hnone p)⟩
  exact ⟨rfl, nofun, nofun, fun d hd habove => absurd (ContainerTree.above_zero habove) hd, nofun,
    fun _ _ => Or.inl rfl, fun p hp => absurd hp (hnone p), nofun⟩

/-- What a step of `cpu` to `b` leaves alone. -/
structure Moves (L : Nesting) (cpu : Cpu) (b : Code) (s s' : Cpus) : Prop where
  code : s'.code = update s.code cpu b
  lock : ∀ c, Guards (L.holds c) (s'.lock c) s'.code
  procContext : s'.procContext = s.procContext
  sched : ∀ u ≠ cpu, s'.sched u = s.sched u
  proc : ∀ u ≠ cpu, s'.proc u = s.proc u
  context : ∀ c, ∀ u ≠ cpu, s'.context c u = s.context c u

/-- A step of `cpu`. Nobody else executes what it executes, and nobody else starts or stops running. -/
theorem Handoff.step (h : Handoff L s) (hm : Moves L cpu b s s') (hself : Placed L s' cpu b)
    (honly : ∀ u p, u ≠ cpu → L.Occupies (s.code u) p → ¬ L.Occupies b p)
    (hothers : ∀ u p, u ≠ cpu → L.Occupies (s.code u) p → (s'.Running p ↔ s.Running p)) : Handoff L s' := by
  constructor
  case lock => exact hm.lock
  case procContext => exact hm.procContext ▸ h.procContext
  case placed =>
    intro u
    rw [hm.code, update_apply]
    split
    case isTrue hu => exact hu ▸ hself
    case isFalse hu =>
      obtain ⟨hsched, hproc, hnested, habove, hown, hidle, hrunning, hleft⟩ := h.placed u
      simp only [← hm.sched u hu, ← hm.proc u hu, ← hm.context _ u hu] at hsched hproc habove hown hidle
      refine ⟨hsched, hproc, hnested, habove, hown, hidle, fun p hp hl => ?_, fun p hp hr => hleft p hp ?_⟩
      · exact (hothers u p hu hp).mpr (hrunning p hp hl)
      · exact (hothers u p hu (Or.inl (by rw [hp]; rfl))).mp hr
  case exclusive =>
    intro u u' p hp hp'
    rw [hm.code, update_apply] at hp hp'
    by_cases hu : u = cpu <;> by_cases hu' : u' = cpu
    · rw [hu, hu']
    · rw [if_pos hu] at hp
      rw [if_neg hu'] at hp'
      exact absurd hp (honly u' p hu' hp')
    · rw [if_neg hu] at hp
      rw [if_pos hu'] at hp'
      exact absurd hp' (honly u p hu hp)
    · rw [if_neg hu] at hp
      rw [if_neg hu'] at hp'
      exact h.exclusive u u' p hp hp'

/-- `b` is in the container and in the process that `a` is in. -/
structure Stays (a b : Code) : Prop where
  container : b.container = a.container
  process : b.process = a.process

theorem Stays.occupies (hb : Stays a b) (hp : L.Occupies b p) : L.Occupies a p ∨ b.chosen = some p := by
  rcases hp with hp | hp | hp
  · exact Or.inl (Or.inl (hb.process ▸ hp))
  · exact Or.inr hp
  · exact Or.inl (Or.inr (Or.inr (hb.container ▸ hp)))

section
variable (h : Handoff L s) (ha : s.code cpu = a)
include h ha

/-- A step that is no switch. -/
theorem Handoff.move (hm : Moves L cpu b s s') (hb : Stays a b) (hcontext : s'.context = s.context)
    (hsched : s'.sched cpu = L.scheduler b) (hcurrent : ∀ p, L.current b = some p → s'.proc cpu = some p)
    (hnested : b.nested = true → b.container ≠ 0)
    (hchosen : ∀ p, b.chosen = some p → ∀ u, L.Occupies (s.code u) p → u = cpu)
    (hrunning : ∀ p, L.Occupies b p → L.leaving b ≠ some p → s'.Running p)
    (hleft : ∀ p, b = .leave p → ¬ s'.Running p)
    (hothers : ∀ u p, u ≠ cpu → L.Occupies (s.code u) p → (s'.Running p ↔ s.Running p)) : Handoff L s' := by
  have hat := h.here ha
  refine h.step hm ⟨hsched, hcurrent, hnested, ?_, ?_, ?_, hrunning, hleft⟩ (fun u p hu hup hp => hu ?_) hothers
  · rw [hcontext, hb.container]
    exact hat.above
  · rw [hcontext, hb.process]
    exact hat.own
  · rw [hcontext, hb.container]
    exact hat.idle
  · rcases hb.occupies hp with hp | hp
    · exact h.exclusive u cpu p hup (ha ▸ hp)
    · exact hchosen p hp u hup

/-- From `a` to `b` no process starts or stops running. -/
structure Passes (L : Nesting) (a b : Code) : Prop extends Stays a b where
  chosen : b.chosen = none
  leaving : L.leaving a = none
  left : ∀ p, b ≠ .leave p
  nested : b.nested = true → b.container ≠ 0

theorem Handoff.pass (hm : Moves L cpu b s s') (hb : Passes L a b) (hcontext : s'.context = s.context)
    (hsched : s'.sched cpu = L.scheduler b) (hcurrent : ∀ p, L.current b = some p → s'.proc cpu = some p)
    (hstate : ∀ p, s'.Running p ↔ s.Running p) : Handoff L s' := by
  have hnone : ∀ p, b.chosen ≠ some p := fun p hp => by rw [hb.chosen] at hp; cases hp
  refine h.move ha hm hb.toStays hcontext hsched hcurrent hb.nested (fun p hp => absurd hp (hnone p))
    (fun p hp _ => (hstate p).mpr ?_) (fun p hp => absurd hp (hb.left p)) fun _ p _ _ => hstate p
  have hp := (hb.toStays.occupies hp).resolve_right (hnone p)
  exact (h.here ha).running p hp (by rw [hb.leaving]; nofun)

/-! ### Steps in one container -/

/-- `cpu` takes a lock and goes on to `b`. -/
theorem Handoff.acquires (hs : s.acquire cpu c b = some s') (hb : Passes L a b) (hi : L.holds c b = true)
    (hj : ∀ c' ≠ c, L.holds c' b = L.holds c' a) (hsched : L.scheduler b = L.scheduler a)
    (hcurrent : ∀ p, L.current b = some p → L.current a = some p) : Handoff L s' := by
  have hat := h.here ha
  subst ha
  obtain ⟨hfree, rfl⟩ := Option.ite_some_none_eq_some.mp hs
  have hm : Moves L cpu b s ({s with lock := update s.lock c (some cpu)}.goto cpu b) :=
    ⟨rfl, guards_acquire h.lock hfree hi hj, rfl, fun _ _ => rfl, fun _ _ => rfl, fun _ _ _ => rfl⟩
  exact h.pass rfl hm hb rfl (hat.sched.trans hsched.symm) (fun p hp => hat.proc p (hcurrent p hp)) fun _ => Iff.rfl

/-- The lock of the scheduler that is executed. -/
theorem Handoff.enters (hs : s.acquire cpu (s.sched cpu) b = some s') (hb : Passes L a b)
    (hnone : ∀ c, L.holds c a = false) (hholds : ∀ c, L.holds c b = (c == L.scheduler a))
    (hsched : L.scheduler b = L.scheduler a) (hcurrent : ∀ p, L.current b = some p → L.current a = some p) :
    Handoff L s' := by
  rw [(h.here ha).sched] at hs
  refine h.acquires ha hs hb ?_ (fun c hc => ?_) hsched hcurrent
  · rw [hholds, beq_self_eq_true]
  · rw [hholds, hnone, beq_eq_false_iff_ne]
    exact hc

/-- `cpu` goes on to `b`. -/
theorem Handoff.goes (hb : Passes L a b) (hholds : ∀ c, L.holds c b = L.holds c a)
    (hsched : L.scheduler b = L.scheduler a) (hproc : ∀ u ≠ cpu, proc u = s.proc u)
    (hcurrent : ∀ p, L.current b = some p → proc cpu = some p)
    (hstate : ∀ p, (table.proc p).state = .running ↔ s.Running p) : Handoff L ({s with table, proc}.goto cpu b) := by
  have hat := h.here ha
  subst ha
  have hm : Moves L cpu b s ({s with table, proc}.goto cpu b) :=
    ⟨rfl, fun c => (h.lock c).move (hholds c), rfl, fun _ _ => rfl, hproc, fun _ _ _ => rfl⟩
  exact h.pass rfl hm hb rfl (hat.sched.trans hsched.symm) hcurrent hstate

/-- `cpu` gives the lock of `c` back and goes on to `b`. -/
theorem Handoff.releases (hb : Passes L a b) (ht : L.holds c a = true) (hi : L.holds c b = false)
    (hj : ∀ c' ≠ c, L.holds c' b = L.holds c' a) {sched : Cpu → Nat}
    (hsched : sched = update s.sched cpu (L.scheduler b)) (hproc : ∀ u ≠ cpu, proc u = s.proc u)
    (hcurrent : ∀ p, L.current b = some p → proc cpu = some p)
    (hstate : ∀ p, (table.proc p).state = .running ↔ s.Running p) :
    Handoff L (({s with table, sched, proc}.release c).goto cpu b) := by
  subst ha hsched
  refine h.pass rfl ?_ hb rfl (update_self ..) hcurrent hstate
  exact ⟨rfl, guards_release h.lock ht hi hj, rfl, fun u hu => update_of_ne hu .., hproc, fun _ _ _ => rfl⟩

theorem Handoff.same_sched (hb : L.scheduler b = L.scheduler a) : s.sched = update s.sched cpu (L.scheduler b) := by
  rw [hb, ← (h.here ha).sched, update_eq_self]

/-- `cpu` gives the lock of the scheduler it executes back, which is the only one it has. -/
theorem Handoff.exits (hb : Passes L a b) (hholds : ∀ c, L.holds c a = (c == L.scheduler a))
    (hnone : ∀ c, L.holds c b = false) (hsched : L.scheduler b = L.scheduler a) (table : Family)
    (proc : Cpu → Option ProcId) (hproc : ∀ u ≠ cpu, proc u = s.proc u)
    (hcurrent : ∀ p, L.current b = some p → proc cpu = some p)
    (hstate : ∀ p, (table.proc p).state = .running ↔ s.Running p) :
    Handoff L (({s with table, proc}.release (s.sched cpu)).goto cpu b) := by
  rw [(h.here ha).sched]
  refine h.releases ha hb ?_ (hnone _) (fun c hc => ?_) (h.same_sched ha hsched) hproc hcurrent hstate
  · rw [hholds, beq_self_eq_true]
  · rw [hholds, hnone, beq_eq_false_iff_ne.mpr hc]

end

theorem state_setState {state : ProcState} : ((s.setState p state).table.proc p).state = state :=
  congrArg Proc.state Family.proc_setProc

theorem running_setState_of_ne {state : ProcState} (hq : q ≠ p) : (s.setState p state).Running q ↔ s.Running q := by
  rw [Cpus.Running, show (s.setState p state).table.proc q = _ from Family.proc_setProc_of_ne hq]

/-- Who is about to be left is still guarded by the lock of its table. -/
theorem Placed.leaving_locked (h : Placed L s cpu a) (hp : L.leaving a = some p) : L.holds p.1 a = true := by
  cases a with
  | leave q =>
    cases hp
    exact beq_self_eq_true _
  | switchUp this k =>
    cases hp
    have hcont := (h.above this (h.nested rfl) .self).1
    rw [(L.cont_slot _ _ hcont).2.2]
    exact beq_self_eq_true _
  | _ => cases hp

section
variable (h : Handoff L s)
include h

/-- A process that is `RUNNABLE` while `cpu` has the lock of its table is executed by no other CPU. -/
theorem Handoff.unoccupied (hlock : L.holds p.1 (s.code cpu) = true) (hstate : (s.table.proc p).state = .runnable)
    (hocc : L.Occupies (s.code cpu') p) : cpu' = cpu := by
  by_cases hl : L.leaving (s.code cpu') = some p
  · exact (h.lock p.1).exclusive ((h.placed cpu').leaving_locked hl) hlock
  · have hrun := (h.placed cpu').running p hocc hl
    rw [Cpus.Running, hstate] at hrun
    cases hrun

/-- Only `r`, which no other CPU executes, starts or stops running. -/
theorem Handoff.change (ha : s.code cpu = a) (hm : Moves L cpu b s s') (hb : Stays a b)
    (hcontext : s'.context = s.context) (hsched : s'.sched cpu = L.scheduler b)
    (hcurrent : ∀ p, L.current b = some p → s'.proc cpu = some p) (hnested : b.nested = true → b.container ≠ 0)
    {r : ProcId} (hr : ∀ u, L.Occupies (s.code u) r → u = cpu) (hchosen : ∀ p, b.chosen = some p → p = r)
    (hleaving : L.leaving a = none) (hrunning : L.leaving b ≠ some r → s'.Running r)
    (hleft : ∀ p, b = .leave p → p = r ∧ ¬ s'.Running r) (hstate : ∀ p ≠ r, s'.Running p ↔ s.Running p) :
    Handoff L s' := by
  refine h.move ha hm hb hcontext hsched hcurrent hnested (fun p hp u hu => hr u (hchosen p hp ▸ hu))
    (fun p hp hl => ?_) (fun p hp => ?_) fun u p hu hup => hstate p fun he => hu (hr u (he ▸ hup))
  · by_cases he : p = r
    · rw [he] at hl ⊢
      exact hrunning hl
    · have hp := (hb.occupies hp).resolve_right fun hc => he (hchosen p hc)
      exact (hstate p he).mpr ((h.here ha).running p hp (by rw [hleaving]; nofun))
  · obtain ⟨rfl, hnot⟩ := hleft p hp
    exact hnot

/-- The scheduler picks a process. -/
theorem Handoff.picks (ha : s.code cpu = .look this i) (hstate : (s.table.proc (this, i)).state = .runnable) :
    Handoff L ({s.setState (this, i) .running with proc := update s.proc cpu (some (this, i))}.goto cpu
      (.run this i)) := by
  have hlock : L.holds this (s.code cpu) = true := by
    rw [ha]
    exact beq_self_eq_true this
  refine h.change (b := .run this i) (r := (this, i)) ha ?_ ⟨rfl, rfl⟩ rfl (h.here ha).sched (fun p hp => ?_) nofun
    (fun u => h.unoccupied hlock hstate) (fun p hp => (Option.some.inj hp).symm) rfl (fun _ => state_setState) nofun
    fun p hp => running_setState_of_ne hp
  · exact ⟨rfl, fun c => (h.lock c).move (by rw [ha]; rfl), rfl, fun _ _ => rfl,
      fun u hu => update_of_ne hu .., fun _ _ _ => rfl⟩
  · rw [← show some (this, i) = some p from hp]
    exact update_self ..

/-- The scheduler gives itself up to its parent. -/
theorem Handoff.givesUp {k : Option (Fin nproc)} (ha : s.code cpu = .giveUp this k) :
    Handoff L (({s.setState (L.slot this) .runnable with
      sched := update s.sched cpu (L.tree.parent this)}.release this).goto cpu (.switchUp this k)) := by
  have hne : this ≠ 0 := (h.here ha).nested rfl
  have hparent : L.tree.parent this ≠ this := (L.tree.lt this hne).ne
  have hslot : L.Occupies (s.code cpu) (L.slot this) := Or.inr (Or.inr ⟨this, hne, by rw [ha]; exact .self, rfl⟩)
  have hlock : ∀ c, Guards (L.holds c) (update s.lock this none c)
      (update s.code cpu (.switchUp this k)) := by
    refine guards_release h.lock ?_ ?_ fun c hc => ?_
    · rw [ha]
      simp [Nesting.holds]
    · simp [Nesting.holds, hparent.symm]
    · rw [ha]
      simp [Nesting.holds, hc]
  refine h.change (b := .switchUp this k) (r := L.slot this) ha ?_ ⟨rfl, rfl⟩ rfl (update_self ..)
    nofun (fun _ => hne) (fun u hu => h.exclusive u cpu _ hu hslot) nofun rfl (fun hl => absurd rfl hl) nofun
    fun p hp => running_setState_of_ne hp
  exact ⟨rfl, hlock, rfl, fun u hu => update_of_ne hu .., fun _ _ => rfl, fun _ _ _ => rfl⟩

/-- A process stops running, under the lock. -/
theorem Handoff.stops (ha : s.code cpu = .inside p f) (hself : (table.proc p).state ≠ .running)
    (hother : ∀ q ≠ p, (table.proc q).state = .running ↔ (s.table.proc q).state = .running) :
    Handoff L ({s with table}.goto cpu (.leave p)) := by
  have hocc : L.Occupies (s.code cpu) p := Or.inl (by rw [ha]; rfl)
  refine h.change (b := .leave p) ha ?_ ⟨rfl, rfl⟩ rfl (h.here ha).sched (h.here ha).proc nofun
    (fun u hu => h.exclusive u cpu p hu hocc) nofun rfl (fun hl => absurd rfl hl) (fun q hq => ?_) hother
  · exact ⟨rfl, fun c => (h.lock c).move (by rw [ha]; rfl), rfl, fun _ _ => rfl, fun _ _ => rfl, fun _ _ _ => rfl⟩
  · cases hq
    exact ⟨rfl, hself⟩

omit h in
theorem Rouses.running {f f' : Family} (h : Rouses f f') :
    (f'.proc p).state = .running ↔ (f.proc p).state = .running := by
  rcases h.state p with he | ⟨hs, hr⟩
  · rw [he]
  · rw [hs, hr]
    exact iff_of_false nofun nofun

/-- What a process does under the lock. -/
theorem Handoff.routine (ha : s.code cpu = .inside p f)
    (htable : f.exec initproc (s.sched cpu) p s.table = some table) :
    Handoff L ({s with table}.goto cpu (f.next p)) := by
  cases f with
  | yield =>
    cases htable
    refine h.stops ha (by rw [Family.proc_setProc]; nofun) fun q hq => ?_
    rw [Family.proc_setProc_of_ne hq]
  | sleep chan =>
    cases htable
    refine h.stops ha ?_ fun q hq => ?_
    · rw [show (s.table.park p chan .sleep).proc p = _ from Family.proc_setProc]
      nofun
    · rw [show (s.table.park p chan .sleep).proc q = _ from Family.proc_setProc_of_ne hq]
  | wakeup chan =>
    cases htable
    exact h.goes (b := .resumed p) ha ⟨⟨rfl, rfl⟩, rfl, rfl, nofun, nofun⟩ (fun _ => rfl) rfl (fun _ _ => rfl)
      (h.here ha).proc fun _ => wakeup1_rouses.running
  | exit =>
    obtain ⟨hne, he⟩ := Option.ite_none_left_eq_some.mp htable
    cases he
    have hexit : Exits initproc p s.table (s.table.exit initproc p) := exit_spec fun he => hne he.symm
    refine h.stops ha (by rw [hexit.dead]; nofun) fun q hq => ?_
    rcases hexit.state q hq with he | ⟨hs, hr⟩
    · rw [he]
    · rw [hs, hr]
      exact iff_of_false nofun nofun

/-! ### Switches -/

omit h in
theorem setContext_other (hu : cpu' ≠ cpu) : (s.setContext c cpu x).context d cpu' = s.context d cpu' := by
  show update s.context c (update (s.context c) cpu x) d cpu' = _
  rw [update_apply]
  split
  case isTrue hd => rw [hd, update_of_ne hu]
  case isFalse => rfl

omit h in
theorem setContext_own : (s.setContext c cpu x).context d cpu = if d = c then x else s.context d cpu := by
  show update s.context c (update (s.context c) cpu x) d cpu = _
  rw [update_apply]
  split
  case isTrue => rw [update_self]
  case isFalse => rfl

/-- A context switch: `cpu` goes on in another container or process, and leaves `x` in the context of `c`. -/
theorem Handoff.switch (ha : s.code cpu = a) (hholds : ∀ c, L.holds c b = L.holds c a)
    (hsched : L.scheduler b = L.scheduler a) (hcurrent : ∀ p, L.current b = some p → L.current a = some p)
    (hnested : b.nested = true → b.container ≠ 0) (hocc : ∀ p, L.Occupies b p → L.Occupies a p ∧ L.leaving a ≠ some p)
    (hleft : ∀ p, b ≠ .leave p)
    (habove : ∀ d, d ≠ 0 → L.tree.Above b.container d → L.cont (L.slot d) = some d ∧
      (if L.tree.parent d = c then x else s.context (L.tree.parent d) cpu) = .picked (L.tree.parent d) (L.slot d).2)
    (hown : ∀ p, b.process = some p → (if p.1 = c then x else s.context p.1 cpu) = .picked p.1 p.2)
    (hidle : ∀ d, ¬ L.tree.Above b.container d → (if d = c then x else s.context d cpu) = .entry ∨
      ∃ k, (if d = c then x else s.context d cpu) = .yielded d k) :
    Handoff L ((s.setContext c cpu x).goto cpu b) := by
  have hat := h.here ha
  subst ha
  have hm : Moves L cpu b s ((s.setContext c cpu x).goto cpu b) :=
    ⟨rfl, fun c => (h.lock c).move (hholds c), rfl, fun _ _ => rfl, fun _ _ => rfl, fun _ _ => setContext_other⟩
  have hctx : ∀ d, ((s.setContext c cpu x).goto cpu b).context d cpu = _ := fun d => setContext_own
  refine h.step hm ⟨hat.sched.trans hsched.symm, fun p hp => hat.proc p (hcurrent p hp), hnested, ?_, ?_, ?_,
    fun p hp _ => ?_, fun p hp => absurd hp (hleft p)⟩ (fun u p hu hup hp => ?_) fun _ _ _ _ => Iff.rfl
  · simpa only [hctx] using habove
  · simpa only [hctx] using hown
  · simpa only [hctx] using hidle
  · exact hat.running p (hocc p hp).1 (hocc p hp).2
  · exact hu (h.exclusive u cpu p hup (hocc p hp).1)

omit h in
theorem not_above_child (hc : c ≠ 0) : ¬ t.Above (t.parent c) c := by
  intro h
  have hle := h.le
  have hlt := t.lt c hc
  omega

/-- A container that the scheduler of `this` has picked, and where its scheduler goes on. -/
structure Entered (L : Nesting) (this : Nat) (i : Fin nproc) (c : Nat) (b : Code) : Prop where
  container : b.container = c
  process : b.process = none
  chosen : b.chosen = none
  scheduler : L.scheduler b = this
  gives : L.gives b = some this
  holds : ∀ d, L.holds d b = (d == this)
  left : ∀ p, b ≠ .leave p
  current : ∀ p, L.current b = some p → p = (this, i)

omit h in
theorem Placed.entered (h : Placed L s cpu (.run this i)) (hc : L.cont (this, i) = some c) :
    c ≠ 0 ∧ c ≠ this ∧ L.slot c = (this, i) ∧ L.tree.parent c = this ∧
      Entered L this i c ((s.context c cpu).code c) := by
  obtain ⟨hne, hslot, hparent⟩ := L.cont_slot _ _ hc
  have hparent : L.tree.parent c = this := hparent.symm
  have hnot : ¬ L.tree.Above this c := hparent ▸ not_above_child hne
  refine ⟨hne, fun he => hnot (he ▸ .self), hslot, hparent, ?_⟩
  rcases h.idle c hnot with he | ⟨k, he⟩
  · rw [he]
    refine ⟨rfl, rfl, rfl, hparent, congrArg some hparent, fun d => ?_, nofun, fun p hp => ?_⟩
    · rw [← hparent]
      rfl
    · rw [← hslot]
      exact (Option.some.inj hp).symm
  · rw [he]
    refine ⟨rfl, rfl, rfl, hparent, congrArg some hparent, fun d => ?_, nofun, nofun⟩
    rw [← hparent]
    rfl

omit h in
/-- What is above a container below `this` has not `this` for its parent. -/
theorem ContainerTree.Above.parent_ne (h : t.Above this d) (hd : d ≠ 0) : t.parent d ≠ this := by
  have hlt := t.lt d hd
  have hle := h.le
  omega

/-- The scheduler of `this` switches to container `c`, which it has picked. -/
theorem Handoff.switchTo (ha : s.code cpu = .run this i) (hc : L.cont (this, i) = some c) :
    Handoff L ((s.setContext this cpu (.picked this i)).goto cpu
      (((s.setContext this cpu (.picked this i)).context c cpu).code c)) := by
  have hat := h.here ha
  obtain ⟨hne, hcthis, hslot, hparent, hb⟩ := hat.entered hc
  rw [setContext_own, if_neg hcthis]
  have habove : ∀ d, L.tree.Above ((s.context c cpu).code c).container d ↔ d = c ∨ L.tree.Above this d := fun d => by
    rw [hb.container, ContainerTree.above_iff, hparent]
  refine h.switch ha hb.holds hb.scheduler (fun p hp => by rw [hb.current p hp]; rfl)
    (fun _ => by rw [hb.container]; exact hne) (fun p hp => ⟨?_, nofun⟩) hb.left (fun d hd hab => ?_)
    (fun p hp => by rw [hb.process] at hp; cases hp) fun d hd => ?_
  · rcases hp with hp | hp | ⟨d, hd, hab, hp⟩
    · rw [hb.process] at hp
      cases hp
    · rw [hb.chosen] at hp
      cases hp
    · rcases (habove d).mp hab with rfl | hab
      · exact Or.inr (Or.inl (by rw [← hp, hslot]; rfl))
      · exact Or.inr (Or.inr ⟨d, hd, hab, hp⟩)
  · rcases (habove d).mp hab with rfl | hab
    · rw [if_pos hparent, hparent, hslot]
      exact ⟨hc, rfl⟩
    · rw [if_neg (hab.parent_ne hd)]
      exact hat.above d hd hab
  · rw [habove, not_or] at hd
    rw [if_neg fun he : d = this => hd.2 (he ▸ .self)]
    exact hat.idle d hd.2

/-- The scheduler of `this` switches to a process. -/
theorem Handoff.switchProc (ha : s.code cpu = .run this i) :
    Handoff L ((s.setContext this cpu (.picked this i)).goto cpu (.resumed (this, i))) := by
  have hat := h.here ha
  refine h.switch ha (fun _ => rfl) rfl (fun _ hp => hp) nofun (fun p hp => ⟨?_, nofun⟩) nofun (fun d hd hab => ?_)
    (fun p hp => ?_) fun d hd => ?_
  · rcases hp with hp | hp | hp
    · exact Or.inr (Or.inl hp)
    · cases hp
    · exact Or.inr (Or.inr hp)
  · have hab : L.tree.Above this d := hab
    rw [if_neg (hab.parent_ne hd)]
    exact hat.above d hd hab
  · cases hp
    exact if_pos rfl
  · rw [if_neg fun he : d = this => hd (he ▸ .self)]
    exact hat.idle d hd

/-- `yield_scheduler` switches to the scheduler of the parent. -/
theorem Handoff.switchesUp {k : Option (Fin nproc)} (ha : s.code cpu = .switchUp this k) :
    Handoff L ((s.setContext this cpu (.yielded this k)).goto cpu
      (((s.setContext this cpu (.yielded this k)).context (L.tree.parent this) cpu).code (L.tree.parent this))) := by
  have hat := h.here ha
  have hne : this ≠ 0 := hat.nested rfl
  have hlt := L.tree.lt this hne
  obtain ⟨hcont, hctx⟩ := hat.above this hne .self
  rw [setContext_own, if_neg hlt.ne, hctx]
  have hup : ∀ {d}, L.tree.Above (L.tree.parent this) d → L.tree.Above this d := fun hab =>
    ContainerTree.above_iff.mpr (Or.inr hab)
  refine h.switch ha (fun _ => rfl) rfl nofun nofun (fun p hp => ?_) nofun (fun d hd hab => ?_) nofun fun d hd => ?_
  · rcases hp with hp | hp | ⟨d, hd, hab, hp⟩
    · cases hp
    · cases hp
    · refine ⟨Or.inr (Or.inr ⟨d, hd, hup hab, hp⟩), fun he => ?_⟩
      -- two containers do not have the same slot
      have hslot : L.slot this = p := Option.some.inj he
      have hcont' := (hat.above d hd (hup hab)).1
      rw [hp, ← hslot, hcont] at hcont'
      have hle : d ≤ L.tree.parent this := hab.le
      have hdthis : this = d := Option.some.inj hcont'
      omega
  · rw [if_neg ((hup hab).parent_ne hd)]
    exact hat.above d hd (hup hab)
  · by_cases hdthis : d = this
    · rw [if_pos hdthis, hdthis]
      exact Or.inr ⟨k, rfl⟩
    · rw [if_neg hdthis]
      exact hat.idle d fun hab => (ContainerTree.above_iff.mp hab).elim hdthis hd

/-- A process switches to the scheduler of its container. -/
theorem Handoff.leaves (ha : s.code cpu = .leave p) :
    Handoff L ({s with procContext := update s.procContext p p}.goto cpu
      ((s.context p.1 cpu).code p.1)) := by
  have hat := h.here ha
  have hsame : update s.procContext p p = s.procContext := by
    rw [update_eq_self_iff, h.procContext]
  have hkept : s.setContext p.1 cpu (s.context p.1 cpu) = s := by
    rw [Cpus.setContext, update_eq_self, update_eq_self]
  rw [hat.own p rfl, hsame, ← hkept]
  refine h.switch ha (fun _ => rfl) rfl nofun nofun (fun q hq => ?_) nofun (fun d hd hab => ?_) nofun fun d hd => ?_
  · rcases hq with hq | hq | ⟨d, hd, hab, hq⟩
    · cases hq
    · cases hq
    · refine ⟨Or.inr (Or.inr ⟨d, hd, hab, hq⟩), fun he => ?_⟩
      -- the process is not one of the containers around it
      have hslot : p = q := Option.some.inj he
      have hhome := (L.cont_slot _ _ (hat.above d hd hab).1).2.2
      rw [hq, ← hslot] at hhome
      exact hab.parent_ne hd hhome.symm
  · have hab : L.tree.Above p.1 d := hab
    rw [if_neg (hab.parent_ne hd)]
    exact hat.above d hd hab
  · rw [if_neg fun he : d = p.1 => hd (he ▸ .self)]
    exact hat.idle d hd

end

/-! ### Every step -/

theorem nextSlot_spec (this : Nat) (k : Option (Fin nproc)) : Passes L (.unlock this k) (nextSlot this k) ∧
    (∀ c, L.holds c (nextSlot this k) = false) ∧ L.scheduler (nextSlot this k) = this ∧
    L.current (nextSlot this k) = none := by
  cases k with
  | none => exact ⟨⟨⟨rfl, rfl⟩, rfl, rfl, nofun, nofun⟩, fun _ => rfl, rfl, rfl⟩
  | some i =>
    rw [nextSlot]
    split <;> exact ⟨⟨⟨rfl, rfl⟩, rfl, rfl, nofun, nofun⟩, fun _ => rfl, rfl, rfl⟩

theorem leaveSleep_state {f : Family} : ((f.leaveSleep p).proc q).state = (f.proc q).state := by
  rw [Family.leaveSleep]
  split <;> rfl

theorem Handoff.exec (h : Handoff L s) (hs : s.step L initproc cpu f = some s') : Handoff L s' := by
  rw [Cpus.step] at hs
  generalize ha : s.code cpu = a at hs
  have hat := h.here ha
  cases a with
  | scan this i | tail this =>
    exact h.enters ha hs ⟨⟨rfl, rfl⟩, rfl, rfl, nofun, nofun⟩ (fun _ => rfl) (fun _ => rfl) rfl nofun
  | look this i =>
    dsimp only at hs
    split at hs
    case isTrue hstate =>
      cases hs
      exact h.picks ha hstate
    case isFalse =>
      cases hs
      exact h.goes (b := .unlock this (some i)) ha ⟨⟨rfl, rfl⟩, rfl, rfl, nofun, nofun⟩ (fun _ => rfl) rfl
        (fun _ _ => rfl) nofun fun _ => Iff.rfl
  | run this i =>
    rw [hat.sched] at hs
    dsimp only at hs
    cases hc : L.cont (this, i) with
    | some c =>
      rw [hc] at hs
      cases hs
      exact h.switchTo ha hc
    | none =>
      rw [hc] at hs
      cases hs
      rw [show (s.setContext _ cpu _).procContext (this, i) = (this, i) from h.procContext _]
      exact h.switchProc ha
  | back this i =>
    cases hs
    exact h.goes (b := .yieldUp this (some i)) ha ⟨⟨rfl, rfl⟩, rfl, rfl, nofun, nofun⟩ (fun _ => rfl) rfl
      (fun u hu => update_of_ne hu ..) nofun fun _ => Iff.rfl
  | yieldUp this k =>
    dsimp only at hs
    split at hs
    case isTrue =>
      cases hs
      exact h.goes (b := .unlock this k) ha ⟨⟨rfl, rfl⟩, rfl, rfl, nofun, nofun⟩ (fun _ => rfl) rfl (fun _ _ => rfl)
        nofun fun _ => Iff.rfl
    case isFalse hparent =>
      cases hs
      have hne : this ≠ 0 := fun he => hparent (by rw [he, L.tree.root])
      exact h.goes (b := .lockParent this k) ha ⟨⟨rfl, rfl⟩, rfl, rfl, nofun, fun _ => hne⟩ (fun _ => rfl) rfl
        (fun _ _ => rfl) nofun fun _ => Iff.rfl
  | lockParent this k | lockThis this k =>
    refine h.acquires ha hs ⟨⟨rfl, rfl⟩, rfl, rfl, nofun, fun _ => hat.nested rfl⟩ ?_ (fun c hc => ?_) rfl nofun
    · simp [Nesting.holds]
    · simp [Nesting.holds, hc]
  | giveUp this k =>
    cases hs
    exact h.givesUp ha
  | switchUp this k =>
    cases hs
    exact h.switchesUp ha
  | unlockParent this k =>
    cases hs
    have hparent : L.tree.parent this ≠ this := (L.tree.lt this (hat.nested rfl)).ne
    refine h.releases (b := .unlock this k) ha ⟨⟨rfl, rfl⟩, rfl, rfl, nofun, nofun⟩ ?_ ?_ (fun c hc => ?_) rfl
      (fun _ _ => rfl) nofun fun _ => Iff.rfl
    · simp [Nesting.holds]
    · simp [Nesting.holds, hparent]
    · simp [Nesting.holds, hc]
  | unlock this k =>
    cases hs
    obtain ⟨hb, hholds, hscheduler, hcurrent⟩ := nextSlot_spec (L := L) this k
    have hnone : ∀ p, L.current (nextSlot this k) ≠ some p := fun p hp => by rw [hcurrent] at hp; cases hp
    cases k with
    | none =>
      exact h.exits ha hb (fun _ => rfl) hholds hscheduler s.table s.proc (fun _ _ => rfl)
        (fun p hp => absurd hp (hnone p)) fun _ => Iff.rfl
    | some i =>
      exact h.exits ha hb (fun _ => rfl) hholds hscheduler s.table (update s.proc cpu (L.contProc this))
        (fun u hu => update_of_ne hu ..) (fun p hp => absurd hp (hnone p)) fun _ => Iff.rfl
  | entry c =>
    cases hs
    exact h.exits (b := .enter c) ha ⟨⟨rfl, rfl⟩, rfl, rfl, nofun, fun _ => hat.nested rfl⟩ (fun _ => rfl)
      (fun _ => rfl) rfl s.table s.proc (fun _ _ => rfl) hat.proc fun _ => Iff.rfl
  | enter c =>
    rw [hat.proc (L.slot c) rfl, Option.bind_some, (hat.above c (hat.nested rfl) .self).1] at hs
    cases hs
    refine h.pass (b := .scan c 0) ha ?_ ⟨⟨rfl, rfl⟩, rfl, rfl, nofun, nofun⟩ rfl (update_self ..) nofun
      fun _ => Iff.rfl
    exact ⟨rfl, fun c' => (h.lock c').move (by rw [ha]; rfl), rfl, fun u hu => update_of_ne hu ..,
      fun u hu => update_of_ne hu .., fun _ _ _ => rfl⟩
  | resumed p =>
    cases hs
    exact h.exits (b := .user p) ha ⟨⟨rfl, rfl⟩, rfl, rfl, nofun, nofun⟩ (fun _ => rfl) (fun _ => rfl) rfl
      (s.table.leaveSleep p) s.proc (fun _ _ => rfl) hat.proc fun q => by rw [leaveSleep_state]
  | user p =>
    cases hs
    exact h.goes (b := .lock p f) ha ⟨⟨rfl, rfl⟩, rfl, rfl, nofun, nofun⟩ (fun _ => rfl) rfl (fun _ _ => rfl)
      hat.proc fun _ => Iff.rfl
  | lock p f =>
    exact h.enters ha hs ⟨⟨rfl, rfl⟩, rfl, rfl, nofun, nofun⟩ (fun _ => rfl) (fun _ => rfl) rfl fun _ hq => hq
  | inside p f =>
    rw [hat.proc p rfl, Option.bind_some] at hs
    obtain ⟨table, htable, rfl⟩ := Option.map_eq_some_iff.mp hs
    exact h.routine ha htable
  | leave p =>
    rw [hat.proc p rfl, Option.bind_some] at hs
    obtain ⟨-, he⟩ := Option.ite_none_left_eq_some.mp hs
    cases he
    rw [hat.sched]
    exact h.leaves ha

/-! ### Locks that are taken by one context and given back by another -/

theorem holds_of_gives (h : L.gives a = some c) : L.holds c a = true := by
  cases a <;> first | cases h; simp [Nesting.holds] | cases h

theorem code_goto : (s.goto cpu b).code cpu = b := update_self ..

/-- Until the code gives back the lock it is to give back, it goes on to do so. -/
theorem Handoff.keeps (h : Handoff L s) (hs : s.step L initproc cpu f = some s')
    (hgives : L.gives (s.code cpu) = some c) :
    s'.lock c = some cpu ∧ L.gives (s'.code cpu) = some c ∨ s'.lock c = none := by
  have hkeep : L.gives (s'.code cpu) = some c →
      s'.lock c = some cpu ∧ L.gives (s'.code cpu) = some c ∨ s'.lock c = none := fun hg =>
    Or.inl ⟨((h.exec hs).lock c cpu).mp (holds_of_gives hg), hg⟩
  rw [Cpus.step] at hs
  generalize ha : s.code cpu = a at hs hgives
  have hat := h.here ha
  cases a with
  | scan this i | tail this | enter c | user p | lock p f => cases hgives
  | look this _ | yieldUp this _ =>
    dsimp only at hs
    split at hs <;> obtain rfl := Option.some.inj hs <;> exact hkeep (by rw [code_goto]; exact hgives)
  | run this i =>
    obtain rfl : this = c := Option.some.inj hgives
    refine hkeep ?_
    rw [hat.sched] at hs
    dsimp only at hs
    cases hd : L.cont (this, i) with
    | some d =>
      rw [hd] at hs
      cases hs
      obtain ⟨-, hdthis, -, -, hb⟩ := hat.entered hd
      rw [code_goto, setContext_own, show L.scheduler (.run this i) = this from rfl, if_neg hdthis]
      exact hb.gives
    | none =>
      rw [hd] at hs
      cases hs
      rw [code_goto]
      exact congrArg (fun p : ProcId => some p.1) (h.procContext (this, i))
  | back this i =>
    cases hs
    exact hkeep (by rw [code_goto]; exact hgives)
  | lockParent this k | lockThis this k =>
    obtain ⟨-, rfl⟩ := Option.ite_some_none_eq_some.mp hs
    exact hkeep (by rw [code_goto]; exact hgives)
  | giveUp this k | unlockParent this k =>
    cases hs
    cases hgives
    exact Or.inr (update_self ..)
  | switchUp this k =>
    cases hs
    have hne : this ≠ 0 := hat.nested rfl
    refine hkeep ?_
    rw [code_goto, setContext_own, if_neg (L.tree.lt this hne).ne, (hat.above this hne .self).2]
    exact hgives
  | unlock this k =>
    cases hs
    obtain rfl : this = c := Option.some.inj hgives
    right
    have hlock : update s.lock (s.sched cpu) none this = none := by
      rw [hat.sched]
      exact update_self ..
    cases k with
    | none => exact hlock
    | some i => exact hlock
  | entry _ | resumed _ =>
    cases hs
    cases hgives
    right
    rw [hat.sched]
    exact update_self ..
  | inside p f =>
    obtain ⟨q, -, hq⟩ := Option.bind_eq_some_iff.mp hs
    obtain ⟨table, -, rfl⟩ := Option.map_eq_some_iff.mp hq
    refine hkeep ?_
    rw [code_goto]
    cases f <;> exact hgives
  | leave p =>
    obtain ⟨q, -, hq⟩ := Option.bind_eq_some_iff.mp hs
    obtain ⟨-, he⟩ := Option.ite_none_left_eq_some.mp hq
    cases he
    refine hkeep ?_
    rw [code_goto, hat.sched, show L.scheduler (.leave p) = p.1 from rfl, hat.own p rfl]
    exact hgives

/-- About to execute `swtch`. -/
def Code.switching : Code → Bool
  | run _ _ | switchUp _ _ | leave _ => true
  | _ => false

theorem holds_switching (h : a.switching = true) : L.gives a = some (L.scheduler a) ∧
    ∀ c, L.holds c a = (c == L.scheduler a) := by
  cases a <;> first | exact ⟨rfl, fun _ => rfl⟩ | cases h

/-- **CPUs are handed over one to one.** Every process, and every container below the root, is
executed by at most one CPU. A process that is executed without the lock of its table is
`RUNNING`, and what is picked was `RUNNABLE`. At every context switch the CPU has one lock of a
process table, that of `thiscpu()->scheduler`; the code it switches to is to give that lock
back, and goes on to do so. -/
theorem cpus_handed_over (L : Nesting) (initproc : ProcId) {procs : Containers}
    (hrun : Reach (fun s (e : Cpu × Routine) s' => Cpus.step L initproc s e.1 e.2 = some s') (fun _ _ => True)
      (.start procs) s) :
    (∀ cpu cpu' p, (s.code cpu).process = some p → (s.code cpu').process = some p → cpu = cpu') ∧
    (∀ cpu cpu' c, c ≠ 0 → L.tree.Above (s.code cpu).container c → L.tree.Above (s.code cpu').container c →
      cpu = cpu') ∧
    (∀ cpu p, (s.code cpu).process = some p → s.lock p.1 ≠ some cpu → (s.table.proc p).state = .running) ∧
    (∀ cpu f s' this i, s.step L initproc cpu f = some s' → s.code cpu = .look this i → s'.code cpu = .run this i →
      (s.table.proc (this, i)).state = .runnable) ∧
    (∀ cpu, (s.code cpu).switching = true →
      (∀ c, s.lock c = some cpu ↔ c = s.sched cpu) ∧ L.gives (s.code cpu) = some (s.sched cpu)) ∧
    (∀ cpu f s' c, s.step L initproc cpu f = some s' → L.gives (s.code cpu) = some c → s.lock c = some cpu ∧
      (s'.lock c = some cpu ∧ L.gives (s'.code cpu) = some c ∨ s'.lock c = none)) ∧
    ∀ cpu p, s.code cpu = .leave p → s.lock (s.sched cpu) = some cpu ∧ (s.table.proc p).state ≠ .running := by
  have h : Handoff L s := hrun.invariant (handoff_start procs) fun _ _ _ h _ hs => h.exec hs
  have hswitch : ∀ cpu, (s.code cpu).switching = true →
      (∀ c, s.lock c = some cpu ↔ c = s.sched cpu) ∧ L.gives (s.code cpu) = some (s.sched cpu) := by
    intro cpu hsw
    obtain ⟨hgives, hholds⟩ := holds_switching (L := L) hsw
    rw [(h.placed cpu).sched]
    refine ⟨fun c => ?_, hgives⟩
    rw [← h.lock c cpu, hholds, beq_iff_eq]
  refine ⟨fun cpu cpu' p hp hp' => h.exclusive cpu cpu' p (Or.inl hp) (Or.inl hp'),
    fun cpu cpu' c hc hab hab' => h.exclusive cpu cpu' (L.slot c) (Or.inr (Or.inr ⟨c, hc, hab, rfl⟩))
      (Or.inr (Or.inr ⟨c, hc, hab', rfl⟩)),
    fun cpu p hp hlock => ?_, fun cpu f s' this i hs ha hb => ?_, hswitch, fun cpu f s' c hs hgives => ?_,
    fun cpu p ha => ?_⟩
  · refine (h.placed cpu).running p (Or.inl hp) fun hl => hlock ?_
    exact (h.lock p.1 cpu).mp ((h.placed cpu).leaving_locked hl)
  · rw [Cpus.step, ha] at hs
    dsimp only at hs
    split at hs
    case isTrue hstate => exact hstate
    case isFalse =>
      cases hs
      rw [show Cpus.code _ cpu = _ from update_self ..] at hb
      cases hb
  · exact ⟨(h.lock c cpu).mp (holds_of_gives hgives), h.keeps hs hgives⟩
  · exact ⟨((hswitch cpu (by rw [ha]; rfl)).1 _).mpr rfl, (h.placed cpu).left p ha⟩

/-- One container below the root. -/
def oneContainer : Nesting where
  tree := flatTree
  slot := fun _ => (0, 0)
  cont := fun p => if p = (0, 0) then some 1 else none
  cont_slot := by
    intro p c hc
    split at hc
    case isTrue hp =>
      cases hc
      exact ⟨nofun, hp.symm, by rw [hp]; rfl⟩
    case isFalse => cases hc

/-- A process in that container. -/
def nestedProc : Containers :=
  (Containers.zero.setProc (0, 0) fun q => {q with state := .runnable}).setProc (1, 0)
    fun q => {q with state := .runnable}

/-- CPU 0 enters the container and runs the process in it. -/
theorem cpus_handed_over_nested : ∃ s,
    Reach (fun s (e : Cpu × Routine) s' => Cpus.step oneContainer (0, 1) s e.1 e.2 =
      some s') (fun _ _ => True) (.start nestedProc) s ∧ s.code 0 = .user (1, 0) ∧ s.lock 1 = none ∧
    (s.table.proc (1, 0)).state = .running := by
  have hany : (runAll (fun s (e : Cpu × Routine) => Cpus.step oneContainer (0, 1) s e.1 e.2) (fun _ _ => True)
      (.start nestedProc) (List.replicate 9 (0, .yield))).any
      (fun s => s.code 0 = .user (1, 0) ∧ s.lock 1 = none) = true := by
    decide +kernel
  obtain ⟨s, hreach, htest⟩ := Reach.exists_of_any hany
  obtain ⟨hcode, hlock⟩ := of_decide_eq_true htest
  obtain ⟨-, -, hrunning, -⟩ := cpus_handed_over oneContainer (0, 1) hreach
  exact ⟨s, hreach, hcode, hlock, hrunning 0 (1, 0) (by rw [hcode]; rfl) (by rw [hlock]; nofun)⟩

end OS2021.Core
