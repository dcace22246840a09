import OS2021.Core.Container
import OS2021.Lib.Threads

/-! The process table under several CPUs (`alloc_pcb_simple` of `core/sched.c`; `alloc_proc`,
`fork`, `exit` and `wait` of `core/proc.c`).

`alloc_pcb_simple` gives back the lock of the table with the slot it returns still `UNUSED`;
`alloc_proc` makes it an `EMBRYO` later, without the lock. Between the two the slot is not
reserved (`slot_handed_twice`). -/
namespace OS2021.Core
open Lib Function

/-! ### Steps -/

/-- Where a call of `fork` is: what `alloc_pcb` has returned to it, and whether it is marked. -/
inductive ForkStage where
  | handed (np : ProcId)
  | filling (np : ProcId)
  deriving DecidableEq

def ForkStage.slot : ForkStage → ProcId
  | handed np | filling np => np

def ForkStage.unmarked : ForkStage → Bool
  | handed _ => true
  | filling _ => false

/-- The process tables, the calls of `fork` under way, by their callers, and the slots that
are given out: returned by `alloc_pcb` and not released since. -/
structure Forks where
  procs : Containers
  call : ProcId → Option ForkStage
  out : ProcId → Bool

/-- No call is under way; the processes there are have their slots. -/
def Forks.start (procs : Containers) : Forks := ⟨procs, fun _ => none, fun p => (procs.proc p).state ≠ .unused⟩

/-- What a CPU does on a process table, from one acquisition or release of its lock to the next. -/
inductive TableStep where
  /-- `alloc_pcb_simple`, called by `p` in `fork` -/
  | alloc (p : ProcId)
  /-- `p->state = EMBRYO` in `alloc_proc` -/
  | mark (p : ProcId)
  /-- `kalloc` or `uvm_copy` fails: `state = UNUSED` -/
  | drop (p : ProcId)
  /-- `np->parent = p` -/
  | adopt (p : ProcId)
  /-- `np->state = RUNNABLE` -/
  | publish (p : ProcId)
  /-- The scheduler runs `p`, or `p` gives up its CPU, sleeps or is woken. -/
  | turn (p : ProcId) (state : ProcState)
  | exit (p : ProcId)
  | wait (p : ProcId)

/-- The states between which a process goes while it lives. -/
def ProcState.active : ProcState → Bool
  | .sleeping | .runnable | .running => true
  | .unused | .embryo | .zombie => false

namespace Forks

/-- The slot of `p`'s call gets a new state; the call goes on at `stage`. -/
def setNew (s : Forks) (p np : ProcId) (f : Proc → Proc) (stage : Option ForkStage) : Forks :=
  {s with procs := s.procs.setProc np f, call := update s.call p stage}

/-- The slot is given back. -/
def release (s : Forks) (np : ProcId) : Forks := {s with out := update s.out np false}

end Forks

open Forks in
/-- Only a running process makes calls, and one at a time. -/
def TableStep.exec (t : ContainerTree) (initproc : ProcId) (s : Forks) : TableStep → Option Forks
  | alloc p =>
    if (s.procs.proc p).state = .running ∧ s.call p = none then
      match allocPcbSimple t p.1 s.procs with
      | (some np, procs) => some ⟨procs, update s.call p (some (.handed np)), update s.out np true⟩
      | (none, procs) => some {s with procs}
    else none
  | mark p =>
    match s.call p with
    | some (.handed np) => some (s.setNew p np (fun q => {q with state := .embryo}) (some (.filling np)))
    | _ => none
  | drop p =>
    match s.call p with
    | some (.filling np) => some ((s.setNew p np (fun q => {q with state := .unused}) none).release np)
    | _ => none
  | adopt p =>
    match s.call p with
    | some (.filling np) => some (s.setNew p np (fun q => {q with parent := some p}) (some (.filling np)))
    | _ => none
  | publish p =>
    match s.call p with
    | some (.filling np) => some (s.setNew p np (fun q => {q with state := .runnable}) none)
    | _ => none
  | turn p state =>
    if (s.procs.proc p).state.active ∧ state.active then
      some {s with procs := s.procs.setProc p fun q => {q with state}}
    else none
  | exit p =>
    if (s.procs.proc p).state = .running ∧ s.call p = none then some {s with procs := bury initproc p s.procs}
    else none
  | wait p =>
    if (s.procs.proc p).state = .running ∧ s.call p = none then
      match deadChild p s.procs with
      | some i => some ({s with procs := reap p s.procs}.release (p.1, i))
      | none => some s
    else none

/-- Whether a call in container `this` has a slot that it has not marked. -/
def Forks.Unmarked (s : Forks) (this : Nat) : Prop :=
  ∃ i : Fin nproc, (s.call (this, i)).any ForkStage.unmarked = true

instance (s : Forks) (this : Nat) : Decidable (s.Unmarked this) :=
  inferInstanceAs (Decidable (∃ i : Fin nproc, (s.call (this, i)).any ForkStage.unmarked = true))

/-- No slot is given out while another one of the same table is unmarked. -/
def TableStep.Alone (s : Forks) : TableStep → Prop
  | alloc p => ¬ s.Unmarked p.1
  | _ => True

instance (s : Forks) (e : TableStep) : Decidable (e.Alone s) :=
  match e with
  | .alloc p => inferInstanceAs (Decidable (¬ s.Unmarked p.1))
  | .mark _ | .drop _ | .adopt _ | .publish _ | .turn _ _ | .exit _ | .wait _ => inferInstanceAs (Decidable True)

/-! ### Slots that are given out are reserved -/

structure Reserved (s : Forks) : Prop where
  /-- A slot that is given out is not `UNUSED`, or its call has not marked it yet. -/
  out : ∀ np, s.out np = true → (s.procs.proc np).state ≠ .unused ∨ ∃ p, s.call p = some (.handed np)
  filling : ∀ p np, s.call p = some (.filling np) → (s.procs.proc np).state = .embryo
  home : ∀ p σ, s.call p = some σ → σ.slot.1 = p.1
  distinct : ∀ p q σ σ', s.call p = some σ → s.call q = some σ' → σ.slot = σ'.slot → p = q

variable {t : ContainerTree} {initproc p q np : ProcId} {s s' : Forks} {σ : ForkStage}

theorem reserved_start (procs : Containers) : Reserved (.start procs) := by
  constructor
  case out =>
    intro np hout
    exact Or.inl (of_decide_eq_true hout)
  all_goals nofun

/-- Calls are as they were; slots are given back at most, and states change only of slots
that no call has. -/
theorem Reserved.congr (h : Reserved s) (hcall : s'.call = s.call) (hout : ∀ np, s'.out np = true → s.out np = true)
    (hstate : ∀ np, (s'.procs.proc np).state = (s.procs.proc np).state ∨ (s.procs.proc np).state ≠ .embryo ∧
      (s'.out np = true → (s'.procs.proc np).state ≠ .unused)) : Reserved s' := by
  constructor
  case out =>
    intro np hnp
    rcases hstate np with he | ⟨-, hused⟩
    · rw [he, hcall]
      exact h.out np (hout np hnp)
    · exact Or.inl (hused hnp)
  case filling =>
    intro p np hp
    rw [hcall] at hp
    rcases hstate np with he | ⟨hne, -⟩
    · rw [he]
      exact h.filling p np hp
    · exact absurd (h.filling p np hp) hne
  case home => rw [hcall]; exact h.home
  case distinct => rw [hcall]; exact h.distinct

/-- The call of `p` goes on with its slot, whose state is what `stage` says. -/
theorem Reserved.setNew (h : Reserved s) {f : Proc → Proc} {stage : Option ForkStage} (hp : s.call p = some σ)
    (hstage : ∀ σ', stage = some σ' → σ' = .filling σ.slot)
    (hnone : stage = none → s.out σ.slot = true → (f (s.procs.proc σ.slot)).state ≠ .unused)
    (hfill : stage ≠ none → (f (s.procs.proc σ.slot)).state = .embryo) : Reserved (s.setNew p σ.slot f stage) := by
  have hother : ∀ q σ', q ≠ p → s.call q = some σ' → σ'.slot ≠ σ.slot := fun q σ' hne hq he =>
    hne (h.distinct q p σ' σ hq hp he)
  have hslot : ∀ q σ', (s.setNew p σ.slot f stage).call q = some σ' →
      ∃ σ0, s.call q = some σ0 ∧ σ0.slot = σ'.slot := by
    intro q σ' hq
    rcases update_cases hq with ⟨hqp, he⟩ | ⟨-, hq⟩
    · rw [hqp, hstage σ' he]
      exact ⟨σ, hp, rfl⟩
    · exact ⟨σ', hq, rfl⟩
  constructor
  case out =>
    intro np hnp
    show ((s.procs.setProc _ _).proc np).state ≠ _ ∨ _
    by_cases hne : np = σ.slot
    · rw [hne, proc_setProc_self]
      cases hst : stage with
      | none => exact Or.inl (hnone hst (hne ▸ hnp))
      | some σ' =>
        left
        rw [hfill (by rw [hst]; nofun)]
        nofun
    · rw [proc_setProc_of_ne hne]
      rcases h.out np hnp with hused | ⟨q, hq⟩
      · exact Or.inl hused
      · right
        refine ⟨q, ?_⟩
        have hqp : q ≠ p := by
          intro hqp
          rw [hqp, hp] at hq
          exact hne (by rw [Option.some.inj hq]; rfl)
        exact (update_of_ne hqp ..).trans hq
  case filling =>
    intro q np hq
    show ((s.procs.setProc _ _).proc np).state = _
    rcases update_cases hq with ⟨-, he⟩ | ⟨hqp, hq⟩
    · have hnp : np = σ.slot := by
        cases hstage _ he
        rfl
      rw [hnp, proc_setProc_self]
      exact hfill (by rw [he]; nofun)
    · have hne : np ≠ σ.slot := hother q _ hqp hq
      rw [proc_setProc_of_ne hne]
      exact h.filling q np hq
  case home =>
    intro q σ' hq
    obtain ⟨σ0, hσ0, he⟩ := hslot q σ' hq
    rw [← he]
    exact h.home q σ0 hσ0
  case distinct =>
    intro q q' σ1 σ2 hq hq' he
    obtain ⟨σ3, h3, he3⟩ := hslot q σ1 hq
    obtain ⟨σ4, h4, he4⟩ := hslot q' σ2 hq'
    exact h.distinct q q' σ3 σ4 h3 h4 (by rw [he3, he4, he])

/-- What `alloc_pcb` returns while no slot of the table is unmarked is not given out. -/
theorem Reserved.alloc_fresh (h : Reserved s) (halone : ¬ s.Unmarked p.1) (hnp : np.1 = p.1)
    (hunused : (s.procs.proc np).state = .unused) : s.out np = false ∧ ∀ q σ, s.call q = some σ → σ.slot ≠ np := by
  have hcall : ∀ q σ, s.call q = some σ → σ.slot ≠ np := by
    intro q σ hq he
    cases σ with
    | handed np' =>
      have hhome : q.1 = p.1 := by rw [← h.home q _ hq, he, hnp]
      refine halone ⟨q.2, ?_⟩
      rw [← hhome, hq]
      rfl
    | filling np' =>
      have he' : np' = np := he
      rw [he'] at hq
      rw [h.filling q np hq] at hunused
      cases hunused
  refine ⟨?_, hcall⟩
  cases hout : s.out np with
  | false => rfl
  | true =>
    rcases h.out np hout with hused | ⟨q, hq⟩
    · exact absurd hunused hused
    · exact absurd rfl (hcall q _ hq)

theorem allocPcbSimple_home {this : Nat} {procs : Containers} (h : (allocPcbSimple t this procs).1 = some np) :
    np.1 = this := by
  rw [allocPcbSimple] at h
  split at h
  case h_1 => rw [← Option.some.inj h]
  case h_2 => cases h

theorem Reserved.alloc (h : Reserved s) (halone : ¬ s.Unmarked p.1)
    (hs : (TableStep.alloc p).exec t initproc s = some s') :
    Reserved s' := by
  obtain ⟨hok, hs⟩ := Option.ite_none_right_eq_some.mp hs
  rcases allocPcbSimple_cases t p.1 s.procs with ⟨hnone, he⟩ | ⟨np, hnp, hunused, hothers, hnew, -⟩
  · rw [show allocPcbSimple t p.1 s.procs = (none, s.procs) from Prod.ext hnone he] at hs
    cases hs
    exact h
  · have hhome := allocPcbSimple_home hnp
    obtain ⟨hfree, hcall⟩ := h.alloc_fresh halone hhome hunused
    rw [show allocPcbSimple t p.1 s.procs = (some np, (allocPcbSimple t p.1 s.procs).2) from Prod.ext hnp rfl] at hs
    cases hs
    constructor
    case out =>
      intro np' hout
      by_cases hne : np' = np
      · rw [hne]
        exact Or.inr ⟨p, update_self ..⟩
      · have hout' : s.out np' = true := by
          rw [← hout]
          exact (update_of_ne hne ..).symm
        dsimp only
        rw [hothers np' hne]
        rcases h.out np' hout' with hused | ⟨q, hq⟩
        · exact Or.inl hused
        · have hqp : q ≠ p := fun hqp => by
            rw [hqp, hok.2] at hq
            cases hq
          exact Or.inr ⟨q, (update_of_ne hqp ..).trans hq⟩
    case filling =>
      intro q np' hq
      rcases update_cases hq with ⟨-, he⟩ | ⟨-, hq⟩
      · cases he
      · dsimp only
        rw [hothers np' (hcall q _ hq)]
        exact h.filling q np' hq
    case home =>
      intro q σ hq
      rcases update_cases hq with ⟨hqp, he⟩ | ⟨-, hq⟩
      · rw [hqp, ← Option.some.inj he]
        exact hhome
      · exact h.home q σ hq
    case distinct =>
      intro q q' σ σ' hq hq' he
      rcases update_cases hq with ⟨hqp, hσ⟩ | ⟨-, hq⟩ <;> rcases update_cases hq' with ⟨hqp', hσ'⟩ | ⟨-, hq'⟩
      · rw [hqp, hqp']
      · rw [← Option.some.inj hσ] at he
        exact absurd he.symm (hcall q' σ' hq')
      · rw [← Option.some.inj hσ'] at he
        exact absurd he (hcall q σ hq)
      · exact h.distinct q q' σ σ' hq hq' he

theorem deadChild_some {procs : Containers} {i : Fin nproc} (h : deadChild p procs = some i) :
    (procs.proc (p.1, i)).parent = some p ∧ (procs.proc (p.1, i)).state = .zombie := by
  have htest := List.find?_some h
  exact of_decide_eq_true htest

theorem proc_bury_of_ne (h : q ≠ p) : ((bury initproc p s.procs).proc q).state = (s.procs.proc q).state := by
  rw [bury, proc_setProc_of_ne h, proc_reparent.1]

theorem Reserved.exec (h : Reserved s) {e : TableStep} (halone : e.Alone s) (hs : e.exec t initproc s = some s') :
    Reserved s' := by
  cases e with
  | alloc p => exact h.alloc halone hs
  | mark p =>
    rw [TableStep.exec] at hs
    split at hs
    case h_2 => cases hs
    case h_1 np hp =>
      cases hs
      exact h.setNew hp (fun σ' he => (Option.some.inj he).symm) (fun he => nomatch he) fun _ => rfl
  | drop p =>
    rw [TableStep.exec] at hs
    split at hs
    case h_2 => cases hs
    case h_1 np hp =>
      cases hs
      -- given back first, then marked: the same state
      have hrel : Reserved (s.release np) := h.congr rfl (fun np' hnp' => by
        rcases update_cases hnp' with ⟨-, hfalse⟩ | ⟨-, hnp'⟩
        · cases hfalse
        · exact hnp') fun _ => Or.inl rfl
      have hfree : (s.release np).out np ≠ true := by
        rw [show (s.release np).out np = false from update_self ..]
        nofun
      exact hrel.setNew (f := fun q => {q with state := .unused}) hp (fun _ he => nomatch he)
        (fun _ hout => absurd hout hfree) fun hne => absurd rfl hne
  | adopt p =>
    rw [TableStep.exec] at hs
    split at hs
    case h_2 => cases hs
    case h_1 np hp =>
      cases hs
      exact h.setNew hp (fun σ' he => (Option.some.inj he).symm) (fun he => nomatch he)
        fun _ => h.filling p np hp
  | publish p =>
    rw [TableStep.exec] at hs
    split at hs
    case h_2 => cases hs
    case h_1 np hp =>
      cases hs
      exact h.setNew hp (fun _ he => nomatch he) (fun _ _ => nofun) fun hne => absurd rfl hne
  | turn p state =>
    obtain ⟨hok, rfl⟩ := Option.ite_some_none_eq_some.mp hs
    refine h.congr rfl (fun _ hnp => hnp) fun np => ?_
    by_cases hnp : np = p
    · right
      refine ⟨fun he => ?_, fun _ he => ?_⟩
      · rw [← hnp, he] at hok
        cases hok.1
      · rw [hnp, proc_setProc_self] at he
        have he' : state = .unused := he
        rw [he'] at hok
        cases hok.2
    · exact Or.inl (congrArg _ (proc_setProc_of_ne hnp))
  | exit p =>
    obtain ⟨hok, rfl⟩ := Option.ite_some_none_eq_some.mp hs
    refine h.congr rfl (fun _ hnp => hnp) fun np => ?_
    by_cases hnp : np = p
    · right
      refine ⟨fun he => ?_, fun _ he => ?_⟩
      · rw [hnp, hok.1] at he
        cases he
      · rw [hnp, bury, proc_setProc_self] at he
        cases he
    · exact Or.inl (proc_bury_of_ne hnp)
  | wait p =>
    obtain ⟨hok, hs⟩ := Option.ite_none_right_eq_some.mp hs
    split at hs
    case h_2 =>
      cases hs
      exact h
    case h_1 i hdead =>
      cases hs
      have hzombie := (deadChild_some hdead).2
      have hreap : reap p s.procs = s.procs.setProc (p.1, i) fun q =>
          {q with killed := false, state := .unused, pid := 0, parent := none} := by rw [reap, hdead]
      refine h.congr rfl (fun np hnp => ?_) fun np => ?_
      · rcases update_cases hnp with ⟨-, hfalse⟩ | ⟨-, hnp⟩
        · cases hfalse
        · exact hnp
      · by_cases hnp : np = (p.1, i)
        · right
          refine ⟨fun he => ?_, fun hout => ?_⟩
          · rw [hnp, hzombie] at he
            cases he
          · rcases update_cases hout with ⟨-, hfalse⟩ | ⟨hne, -⟩
            · cases hfalse
            · exact absurd hnp hne
        · left
          show ((reap p s.procs).proc np).state = _
          rw [hreap, proc_setProc_of_ne hnp]

/-- **A slot is given out once**, if nothing is allocated in a table while a slot of it is
unmarked: what `alloc_pcb` returns is not given out already, and no two calls have the same
slot. -/
theorem slot_handed_once (t : ContainerTree) (initproc : ProcId) {procs : Containers}
    (hrun : Reach (fun s e s' => TableStep.exec t initproc s e = some s') (fun s e => e.Alone s) (.start procs) s) :
    (∀ p np s', (TableStep.alloc p).Alone s → (TableStep.alloc p).exec t initproc s = some s' →
      s'.call p = some (.handed np) → s.out np = false) ∧
    ∀ p q σ σ', s.call p = some σ → s.call q = some σ' → σ.slot = σ'.slot → p = q := by
  have h : Reserved s := hrun.invariant (reserved_start procs) fun _ _ _ h hok hs => h.exec hok hs
  refine ⟨fun p np s' halone hs hp => ?_, h.distinct⟩
  obtain ⟨hok, hs⟩ := Option.ite_none_right_eq_some.mp hs
  rcases allocPcbSimple_cases t p.1 s.procs with ⟨hnone, he⟩ | ⟨np', hnp, hunused, -⟩
  · rw [show allocPcbSimple t p.1 s.procs = (none, s.procs) from Prod.ext hnone he] at hs
    cases hs
    rw [hok.2] at hp
    cases hp
  · have hpair : allocPcbSimple t p.1 s.procs = (some np', (allocPcbSimple t p.1 s.procs).2) := Prod.ext hnp rfl
    rw [hpair] at hs
    cases hs
    have he : np' = np := by
      rcases update_cases hp with ⟨-, he⟩ | ⟨hne, -⟩
      · cases he
        rfl
      · exact absurd rfl hne
    rw [← he]
    exact (h.alloc_fresh halone (allocPcbSimple_home hnp) hunused).1

/-- Two processes of the root container run. -/
def twoRunning : Containers :=
  (Containers.zero.setProc (0, 0) fun q => {q with state := .running}).setProc (0, 1)
    fun q => {q with state := .running}

/-- The second of two processes forks when the first one has marked its slot. -/
theorem slot_handed_once_marked : ∃ s s', Reach (fun s e s' => TableStep.exec flatTree (0, 0) s e = some s')
    (fun s e => e.Alone s) (.start twoRunning) s ∧ (TableStep.alloc (0, 1)).exec flatTree (0, 0) s = some s' ∧
    s.call (0, 0) = some (.filling (0, 2)) ∧ s'.call (0, 1) = some (.handed (0, 3)) ∧ s.out (0, 3) = false := by
  have hany : (runAll (TableStep.exec flatTree (0, 0)) (fun s e => e.Alone s) (.start twoRunning)
      [.alloc (0, 0), .mark (0, 0)]).any (fun s => s.call (0, 0) = some (.filling (0, 2)) ∧
        (TableStep.alloc (0, 1)).Alone s ∧
        ((TableStep.alloc (0, 1)).exec flatTree (0, 0) s).any
          fun s' => s'.call (0, 1) = some (.handed (0, 3))) = true := by
    decide +kernel
  obtain ⟨s, hreach, htest⟩ := Reach.exists_of_any hany
  obtain ⟨hcall, halone, hs⟩ := of_decide_eq_true htest
  obtain ⟨s', hs', hnew⟩ := Option.any_eq_true _ _ |>.mp hs
  have hnew := of_decide_eq_true hnew
  exact ⟨s, s', hreach, hs', hcall, hnew, (slot_handed_once flatTree (0, 0) hreach).1 _ _ _ halone hs' hnew⟩

/-- Two processes fork at the same time and are given the same slot. -/
theorem slot_handed_twice : ∃ s s', Reach (fun s e s' => TableStep.exec flatTree (0, 0) s e = some s')
    (fun _ _ => True) (.start twoRunning) s ∧ (TableStep.alloc (0, 1)).exec flatTree (0, 0) s = some s' ∧
    s.out (0, 2) = true ∧ s'.call (0, 0) = some (.handed (0, 2)) ∧ s'.call (0, 1) = some (.handed (0, 2)) := by
  have hany : (runAll (TableStep.exec flatTree (0, 0)) (fun _ _ => True) (.start twoRunning) [.alloc (0, 0)]).any
      (fun s => s.out (0, 2) = true ∧ ((TableStep.alloc (0, 1)).exec flatTree (0, 0) s).any fun s' =>
        s'.call (0, 0) = some (.handed (0, 2)) ∧ s'.call (0, 1) = some (.handed (0, 2))) = true := by
    decide +kernel
  obtain ⟨s, hreach, htest⟩ := Reach.exists_of_any hany
  obtain ⟨hout, hs⟩ := of_decide_eq_true htest
  obtain ⟨s', hs', hcalls⟩ := Option.any_eq_true _ _ |>.mp hs
  have hcalls := of_decide_eq_true hcalls
  exact ⟨s, s', hreach, hs', hout, hcalls⟩

end OS2021.Core
