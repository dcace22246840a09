import OS2021.Core.Handout

/-! Parents and children (`fork`, `exit`, `wait`, `sleep`, `wakeup` of `core/proc.c`).

`fork` is one step here, and so is each section under the lock of the process table. A
process has a generation, which counts the processes its slot has had. -/
namespace OS2021.Core
open Lib Function

/-! ### The table -/

/-- An address that a process can sleep on. -/
inductive Chan where
  | null
  | proc (p : ProcId)
  | addr (a : Nat)
  deriving DecidableEq

/-- Where a process is: outside, or in a `sleep`, which may be that of `wait`. -/
inductive Place where
  | outside
  | sleep
  | wait
  deriving DecidableEq

/-- The process tables with the channels and places of the processes; which processes `fork`
has made that are not reaped; and those that have exited and that `wait` has returned. -/
structure Family where
  procs : Containers
  chan : ProcId → Chan
  place : ProcId → Place
  forked : ProcId → Bool
  gen : ProcId → Nat
  exited : List (ProcId × Nat)
  returned : List (ProcId × Nat)

namespace Family

def start (procs : Containers) : Family :=
  ⟨procs, fun _ => .null, fun _ => .outside, fun _ => false, fun _ => 0, [], []⟩

def proc (s : Family) (p : ProcId) : Proc := s.procs.proc p

def setProc (s : Family) (p : ProcId) (f : Proc → Proc) : Family := {s with procs := s.procs.setProc p f}

/-- `fork`; `memory` says whether `kalloc` and `uvm_copy` succeed. -/
def fork (t : ContainerTree) (p : ProcId) (memory : Bool) (s : Family) : Family :=
  match allocPcbSimple t p.1 s.procs with
  | (none, procs) => {s with procs}
  | (some np, procs) =>
    if memory then
      {s with
        procs := procs.setProc np fun q => {q with parent := some p, state := .runnable}
        place := update s.place np .outside
        forked := update s.forked np true
        gen := update s.gen np (s.gen np + 1)}
    else {s with procs := procs.setProc np fun q => {q with state := .unused}}

/-- `wakeup1` and the loop of `wakeup`, on a CPU that runs `cp` in container `this`. -/
def wakeup1 (cp : Option ProcId) (this : Nat) (chan : Chan) (s : Family) : Family :=
  {s with procs := update s.procs this {s.procs this with
    proc := fun i =>
      let p := (s.procs this).proc i
      if cp ≠ some (this, i) ∧ p.state = .sleeping ∧ s.chan (this, i) = chan then {p with state := .runnable} else p}}

/-- A parent pointer as an address. -/
def address : Option ProcId → Chan
  | none => .null
  | some p => .proc p

/-- One round of the loop of `exit`. -/
def passOn (initproc p : ProcId) (s : Family) (i : Fin nproc) : Family :=
  if (s.proc (p.1, i)).parent = some p then
    let s := s.setProc (p.1, i) fun q => {q with parent := some initproc}
    if (s.proc (p.1, i)).state = .zombie then s.wakeup1 (some p) p.1 (.proc initproc) else s
  else s

/-- `exit` under the lock. -/
def exit (initproc p : ProcId) (s : Family) : Family :=
  let s := s.wakeup1 (some p) p.1 (address (s.proc p).parent)
  let s := (List.finRange nproc).foldl (passOn initproc p) s
  {s.setProc p fun q => {q with state := .zombie} with exited := (p, s.gen p) :: s.exited}

/-- `p->chan = chan; p->state = SLEEPING;` -/
def park (p : ProcId) (chan : Chan) (place : Place) (s : Family) : Family :=
  {s.setProc p fun q => {q with state := .sleeping} with
    chan := update s.chan p chan
    place := update s.place p place}

/-- One round of the loop of `wait`: what it returns, or `none` when it sleeps. -/
def waitRound (p : ProcId) (s : Family) : Option Int × Family :=
  let leave := {s with place := update s.place p .outside}
  match deadChild p s.procs with
  | some i => (some (s.proc (p.1, i)).pid,
      {leave with
        procs := reap p s.procs
        forked := update s.forked (p.1, i) false
        returned := ((p.1, i), s.gen (p.1, i)) :: s.returned})
  | none =>
    if (∀ i, (s.proc (p.1, i)).parent ≠ some p) ∨ (s.proc p).killed then (some (-1), leave)
    else (none, s.park p (.proc p) .wait)

/-- The end of `sleep`, if `p` is in it: it clears its channel. In `wait` it goes on with the
loop. -/
def leaveSleep (p : ProcId) (s : Family) : Family :=
  match s.place p with
  | .outside => s
  | .sleep => {s with chan := update s.chan p .null, place := update s.place p .outside}
  | .wait => {s with chan := update s.chan p .null}

/-- The scheduler picks `p`. -/
def resume (p : ProcId) (s : Family) : Family := (s.setProc p fun q => {q with state := .running}).leaveSleep p

end Family

/-! ### Runs -/

inductive FamilyStep where
  | fork (p : ProcId) (memory : Bool)
  | exit (p : ProcId)
  /-- A round of the loop of `wait`. -/
  | wait (p : ProcId)
  | sleep (p : ProcId) (chan : Chan)
  /-- `wakeup` by the process `cp`, or on a CPU that runs none. -/
  | wakeup (cp : Option ProcId) (chan : Chan)
  | run (p : ProcId)
  | yield (p : ProcId)

/-- `p` runs in the container of `initproc`, outside `wait`. -/
def Family.Acts (s : Family) (initproc p : ProcId) : Prop :=
  p.1 = initproc.1 ∧ (s.proc p).state = .running ∧ s.place p = .outside

instance (s : Family) (initproc p : ProcId) : Decidable (s.Acts initproc p) := inferInstanceAs (Decidable (_ ∧ _))

/-- All is in the container of `initproc`. `exit` of `initproc` is a panic. -/
def FamilyStep.exec (t : ContainerTree) (initproc : ProcId) (s : Family) : FamilyStep → Option Family
  | fork p memory => if s.Acts initproc p then some (s.fork t p memory) else none
  | exit p => if s.Acts initproc p ∧ p ≠ initproc then some (s.exit initproc p) else none
  | wait p => if p.1 = initproc.1 ∧ (s.proc p).state = .running ∧ s.place p ≠ .sleep then some (s.waitRound p).2
    else none
  | sleep p chan => if s.Acts initproc p then some (s.park p chan .sleep) else none
  | wakeup cp chan => if ∀ p, cp = some p → (s.proc p).state = .running then some (s.wakeup1 cp initproc.1 chan)
    else none
  | run p => if p.1 = initproc.1 ∧ (s.proc p).state = .runnable then some (s.resume p) else none
  | yield p => if s.Acts initproc p then some (s.setProc p fun q => {q with state := .runnable}) else none

/-! ### What a section does to the table -/

variable {t : ContainerTree} {initproc p q r w : ProcId} {s s' s1 s2 : Family} {this : Nat} {i : Fin nproc}
  {cp : Option ProcId}

theorem Family.proc_setProc {f : Proc → Proc} : (s.setProc p f).proc p = f (s.proc p) := proc_setProc_self

theorem Family.proc_setProc_of_ne {f : Proc → Proc} (h : q ≠ p) : (s.setProc p f).proc q = s.proc q :=
  Core.proc_setProc_of_ne h

theorem proc_wakeup1 {chan : Chan} : (s.wakeup1 cp this chan).proc q =
    if q.1 = this ∧ cp ≠ some q ∧ (s.proc q).state = .sleeping ∧ s.chan q = chan then
      {s.proc q with state := .runnable} else s.proc q := by
  obtain ⟨c, j⟩ := q
  by_cases hc : c = this
  · subst hc
    show (update s.procs c _ c).proc j = _
    rw [update_self]
    simp only [true_and]
    rfl
  · show (update s.procs this _ c).proc j = _
    rw [update_of_ne hc, if_neg fun h => hc h.1]
    rfl

/-- Processes may be woken; channels and places stay, and so does what is recorded. -/
structure Rouses (s s' : Family) : Prop where
  rest : s' = {s with procs := s'.procs}
  state : ∀ q, (s'.proc q).state = (s.proc q).state ∨ (s.proc q).state = .sleeping ∧ (s'.proc q).state = .runnable

theorem Rouses.refl (s : Family) : Rouses s s := ⟨rfl, fun _ => Or.inl rfl⟩

theorem Rouses.trans (h : Rouses s s1) (h' : Rouses s1 s2) : Rouses s s2 := by
  refine ⟨?_, fun q => ?_⟩
  · rw [h'.rest, h.rest]
  · rcases h.state q with he | ⟨hs, hr⟩
    · rw [← he]
      exact h'.state q
    · refine Or.inr ⟨hs, ?_⟩
      rcases h'.state q with he' | ⟨hs', -⟩
      · rw [he', hr]
      · rw [hr] at hs'
        cases hs'

/-- A process that is awake stays so. -/
theorem Rouses.awake (h : Rouses s s') (hq : (s.proc q).state ≠ .sleeping) : (s'.proc q).state = (s.proc q).state :=
  (h.state q).resolve_right fun hs => hq hs.1

theorem Rouses.sleeping (h : Rouses s s') (hq : (s'.proc q).state = .sleeping) : (s.proc q).state = .sleeping := by
  rcases h.state q with he | ⟨hs, -⟩
  · rw [← he, hq]
  · exact hs

theorem Rouses.chan (h : Rouses s s') : s'.chan = s.chan := by rw [h.rest]

theorem wakeup1_rouses {chan : Chan} : Rouses s (s.wakeup1 cp this chan) := by
  refine ⟨rfl, fun q => ?_⟩
  rw [proc_wakeup1]
  split
  case isTrue h => exact Or.inr ⟨h.2.2.1, rfl⟩
  case isFalse => exact Or.inl rfl

theorem wakeup1_parent {chan : Chan} : ((s.wakeup1 cp this chan).proc q).parent = (s.proc q).parent := by
  rw [proc_wakeup1]
  split <;> rfl

theorem wakeup1_woken {chan : Chan} (hc : q.1 = this) (hcp : cp ≠ some q) (hchan : s.chan q = chan) :
    ((s.wakeup1 cp this chan).proc q).state ≠ .sleeping := by
  rw [proc_wakeup1]
  split
  case isTrue => nofun
  case isFalse h => exact fun hs => h ⟨hc, hcp, hs, hchan⟩

/-- The loop of `exit` has gone over the slots of `l`. -/
structure PassedOn (initproc p : ProcId) (l : List (Fin nproc)) (s s' : Family) : Prop where
  rouses : Rouses s s'
  parent : ∀ q, (s'.proc q).parent =
    if q.1 = p.1 ∧ q.2 ∈ l ∧ (s.proc q).parent = some p then some initproc else (s.proc q).parent
  woken : ∀ i ∈ l, (s.proc (p.1, i)).parent = some p → (s.proc (p.1, i)).state = .zombie →
    ∀ q, q.1 = p.1 → q ≠ p → s.chan q = .proc initproc → (s'.proc q).state ≠ .sleeping

theorem passOn_spec : PassedOn initproc p [i] s (s.passOn initproc p i) := by
  rw [Family.passOn]
  split
  case isFalse hno =>
    refine ⟨.refl s, fun q => ?_, fun j hj hparent => ?_⟩
    · rw [if_neg]
      intro ⟨hc, hi, hparent⟩
      refine hno ?_
      rw [← hc, ← List.mem_singleton.mp hi]
      exact hparent
    · rw [List.mem_singleton.mp hj] at hparent
      exact absurd hparent hno
  case isTrue hchild =>
    have hset : Rouses s (s.setProc (p.1, i) fun q => {q with parent := some initproc}) := by
      refine ⟨rfl, fun q => Or.inl ?_⟩
      by_cases hq : q = (p.1, i)
      · rw [hq, Family.proc_setProc]
      · rw [Family.proc_setProc_of_ne hq]
    have hparent : ∀ q, ((s.setProc (p.1, i) fun q => {q with parent := some initproc}).proc q).parent =
        if q.1 = p.1 ∧ q.2 ∈ [i] ∧ (s.proc q).parent = some p then some initproc else (s.proc q).parent := by
      intro q
      by_cases hq : q = (p.1, i)
      · rw [hq, Family.proc_setProc, if_pos ⟨rfl, List.mem_singleton_self i, hchild⟩]
      · rw [Family.proc_setProc_of_ne hq, if_neg fun h => hq (Prod.ext h.1 (List.mem_singleton.mp h.2.1))]
    dsimp only
    split
    case isTrue =>
      refine ⟨hset.trans wakeup1_rouses, fun q => wakeup1_parent.trans (hparent q), fun j _ _ _ q hc hq hchan => ?_⟩
      exact wakeup1_woken hc (fun he => hq (Option.some.inj he).symm) hchan
    case isFalse hlive =>
      refine ⟨hset, hparent, fun j hj _ hzombie => ?_⟩
      rw [List.mem_singleton.mp hj] at hzombie
      rw [Family.proc_setProc] at hlive
      exact absurd hzombie hlive

theorem PassedOn.append {l l' : List (Fin nproc)} (hne : initproc ≠ p) (h : PassedOn initproc p l s s1)
    (h' : PassedOn initproc p l' s1 s2) : PassedOn initproc p (l ++ l') s s2 := by
  refine ⟨h.rouses.trans h'.rouses, fun q => ?_, fun i hi hparent hzombie q hc hq hchan hs => ?_⟩
  · rw [h'.parent, h.parent]
    by_cases hchild : q.1 = p.1 ∧ (s.proc q).parent = some p
    · by_cases hl : q.2 ∈ l <;> by_cases hl' : q.2 ∈ l' <;> simp [hchild, hl, hl', hne]
    · have h1 : ∀ m : List (Fin nproc), ¬ (q.1 = p.1 ∧ q.2 ∈ m ∧ (s.proc q).parent = some p) := fun m hm =>
        hchild ⟨hm.1, hm.2.2⟩
      rw [if_neg (h1 l), if_neg (h1 l'), if_neg (h1 _)]
  · rcases List.mem_append.mp hi with hl | hl'
    · exact h.woken i hl hparent hzombie q hc hq hchan (h'.rouses.sleeping hs)
    · by_cases hl : i ∈ l
      · exact h.woken i hl hparent hzombie q hc hq hchan (h'.rouses.sleeping hs)
      · refine h'.woken i hl' ?_ ?_ q hc hq (h.rouses.chan ▸ hchan) hs
        · rw [h.parent, if_neg fun hm => hl hm.2.1]
          exact hparent
        · rw [h.rouses.awake (by rw [hzombie]; nofun), hzombie]

theorem foldl_passOn (hne : initproc ≠ p) (l : List (Fin nproc)) (s : Family) :
    PassedOn initproc p l s (l.foldl (Family.passOn initproc p) s) := by
  induction l generalizing s with
  | nil => exact ⟨.refl s, fun q => (if_neg fun h => nomatch h.2.1).symm, nofun⟩
  | cons i l ih => exact passOn_spec.append hne (ih _)

/-- What `exit` of `p` does. -/
structure Exits (initproc p : ProcId) (s s' : Family) : Prop where
  rest : s' = {s with procs := s'.procs, exited := (p, s.gen p) :: s.exited}
  dead : (s'.proc p).state = .zombie
  state : ∀ q ≠ p, (s'.proc q).state = (s.proc q).state ∨ (s.proc q).state = .sleeping ∧ (s'.proc q).state = .runnable
  parent : ∀ q, (s'.proc q).parent =
    if q.1 = p.1 ∧ (s.proc q).parent = some p then some initproc else (s.proc q).parent
  /-- The parent is woken, -/
  told : ∀ q ≠ p, q.1 = p.1 → s.chan q = Family.address (s.proc p).parent → (s'.proc q).state ≠ .sleeping
  /-- and `initproc` when it is handed a dead child. -/
  passed : ∀ z, z.1 = p.1 → (s.proc z).parent = some p → (s.proc z).state = .zombie →
    ∀ q ≠ p, q.1 = p.1 → s.chan q = .proc initproc → (s'.proc q).state ≠ .sleeping

theorem exit_spec (hne : initproc ≠ p) : Exits initproc p s (s.exit initproc p) := by
  have hwake : Rouses s (s.wakeup1 (some p) p.1 (Family.address (s.proc p).parent)) := wakeup1_rouses
  have hpass := foldl_passOn hne (List.finRange nproc) (s.wakeup1 (some p) p.1 (Family.address (s.proc p).parent))
  have hall := hwake.trans hpass.rouses
  constructor
  case rest =>
    rw [Family.exit]
    dsimp only
    rw [hall.rest]
    rfl
  case dead => exact congrArg Proc.state Family.proc_setProc
  case state =>
    intro q hq
    have he : (s.exit initproc p).proc q = _ := Family.proc_setProc_of_ne hq
    rw [he]
    exact hall.state q
  case parent =>
    intro q
    have hparent := hpass.parent q
    simp only [wakeup1_parent, List.mem_finRange, true_and] at hparent
    rw [← hparent]
    by_cases hq : q = p
    · rw [hq]
      show ((Family.setProc _ p _).proc p).parent = _
      rw [Family.proc_setProc]
    · exact congrArg Proc.parent (Family.proc_setProc_of_ne hq)
  case told =>
    intro q hq hc hchan
    have he : (s.exit initproc p).proc q = _ := Family.proc_setProc_of_ne hq
    rw [he]
    exact fun hs => wakeup1_woken hc (fun h => hq (Option.some.inj h).symm) hchan (hpass.rouses.sleeping hs)
  case passed =>
    intro z hz hparent hzombie q hq hc hchan
    have he : (s.exit initproc p).proc q = _ := Family.proc_setProc_of_ne hq
    rw [he]
    have hz' : z = (p.1, z.2) := Prod.ext hz rfl
    refine hpass.woken z.2 (List.mem_finRange _) ?_ ?_ q hc hq hchan
    · rw [wakeup1_parent, ← hz']
      exact hparent
    · rw [← hz', hwake.awake (by rw [hzombie]; nofun), hzombie]

/-! ### Wakeups

`wakeup` goes through the table of the scheduler of its CPU, which is that of the container
of the process that calls it. Locks and buffers, whose addresses are channels, are shared by
all containers. -/

/-- `wakeup(chan)`, called by `cp`. -/
def Family.wakeup (cp : ProcId) (chan : Chan) (s : Family) : Family := s.wakeup1 (some cp) cp.1 chan

/-- `q` sleeps on the channel. -/
def Family.SleepsOn (s : Family) (chan : Chan) (q : ProcId) : Prop := (s.proc q).state = .sleeping ∧ s.chan q = chan

/-- Processes of other containers are not seen. -/
theorem wakeup_elsewhere {cp : ProcId} {chan : Chan} (h : q.1 ≠ cp.1) : (s.wakeup cp chan).proc q = s.proc q := by
  rw [Family.wakeup, proc_wakeup1, if_neg fun hq => h hq.1]

/-- **`wakeup` reaches the sleepers of its own container**, and no others: none sleeps on the channel
afterwards, those that did are runnable and no other process has changed, exactly if all of them are
in the container of the caller. -/
theorem wakeup_own_container (s : Family) (cp : ProcId) (chan : Chan) :
    ((∀ q, q ≠ cp → ¬ (s.wakeup cp chan).SleepsOn chan q) ∧
      (∀ q, q ≠ cp → s.SleepsOn chan q → ((s.wakeup cp chan).proc q).state = .runnable) ∧
      ∀ q, (q ≠ cp → ¬ s.SleepsOn chan q) → (s.wakeup cp chan).proc q = s.proc q) ↔
    ∀ q, q ≠ cp → s.SleepsOn chan q → q.1 = cp.1 := by
  constructor
  · intro h q hq hsleeps
    by_contra hne
    have hstate : ((s.wakeup cp chan).proc q).state = .sleeping := by
      rw [wakeup_elsewhere hne]
      exact hsleeps.1
    exact h.1 q hq ⟨hstate, hsleeps.2⟩
  intro hown
  have hwoken : ∀ q, q ≠ cp → s.SleepsOn chan q → ((s.wakeup cp chan).proc q).state = .runnable := by
    intro q hq hsleeps
    rw [Family.wakeup, proc_wakeup1, if_pos ⟨hown q hq hsleeps, fun he => hq (Option.some.inj he).symm, hsleeps⟩]
  have hothers : ∀ q, (q ≠ cp → ¬ s.SleepsOn chan q) → (s.wakeup cp chan).proc q = s.proc q := by
    intro q hq
    rw [Family.wakeup, proc_wakeup1, if_neg fun hc => hq (fun he => hc.2.1 (congrArg some he.symm)) hc.2.2]
  refine ⟨fun q hq hsleeps => ?_, hwoken, hothers⟩
  by_cases hs : s.SleepsOn chan q
  · have hstate := hwoken q hq hs
    rw [hsleeps.1] at hstate
    cases hstate
  · have hsame := hothers q fun _ => hs
    exact hs ⟨hsame ▸ hsleeps.1, hsleeps.2⟩

/-- The process in slot 1 of the root sleeps on a lock, and the one in slot 0 of container 1 runs. -/
def lockWaiter : Family :=
  ((Family.start .zero).setProc (1, 0) fun q => {q with state := .running}).park (0, 1) (.addr 64) .sleep

/-- A process of the root container that waits for a lock is not woken when a process of container 1
releases it, whatever that process wakes. -/
theorem wakeup_misses_root : lockWaiter.SleepsOn (.addr 64) (0, 1) ∧
    ∀ chans : List Chan,
      (chans.foldl (fun s chan => s.wakeup (1, 0) chan) lockWaiter).SleepsOn (.addr 64) (0, 1) := by
  have hsleeps : lockWaiter.SleepsOn (.addr 64) (0, 1) := ⟨rfl, rfl⟩
  refine ⟨hsleeps, fun chans => ?_⟩
  generalize lockWaiter = s at hsleeps
  induction chans generalizing s with
  | nil => exact hsleeps
  | cons chan chans ih =>
    refine ih (s.wakeup (1, 0) chan) ⟨?_, hsleeps.2⟩
    rw [wakeup_elsewhere (by decide)]
    exact hsleeps.1

/-! ### No child is lost -/

/-- `p` is neither dead nor free. -/
def Family.Alive (s : Family) (p : ProcId) : Prop := (s.proc p).state ≠ .zombie ∧ (s.proc p).state ≠ .unused

/-- What is recorded of slot `q`: each process it has had that exited is returned, or is still there. -/
structure Noted (s : Family) (q : ProcId) : Prop where
  zombie : (s.proc q).state = .zombie → (q, s.gen q) ∈ s.exited
  exited : ∀ g, (q, g) ∈ s.exited → (q, g) ∈ s.returned ∨ g = s.gen q ∧ (s.proc q).state = .zombie
  returned : ∀ g, (q, g) ∈ s.returned →
    (q, g) ∈ s.exited ∧ (g = s.gen q → (s.proc q).state = .unused) ∧ g ≤ s.gen q

/-- A slot that stays dead, free or neither. -/
theorem Noted.same (h : Noted s q) (hgen : s'.gen q = s.gen q) (hexited : ∀ g, (q, g) ∈ s'.exited ↔ (q, g) ∈ s.exited)
    (hreturned : ∀ g, (q, g) ∈ s'.returned ↔ (q, g) ∈ s.returned)
    (hstate : ∀ st, st.active = false → ((s'.proc q).state = st ↔ (s.proc q).state = st)) : Noted s' q := by
  obtain ⟨hzombie, hexit, hreturn⟩ := h
  simp only [← hstate .zombie rfl, ← hstate .unused rfl, ← hgen, ← hexited, ← hreturned] at hzombie hexit hreturn
  exact ⟨hzombie, hexit, hreturn⟩

structure Kin (initproc : ProcId) (s : Family) : Prop where
  init : s.Alive initproc
  orphan : (s.proc initproc).parent = none
  home : ∀ q r, (s.proc q).parent = some r → q.1 = initproc.1 ∧ r ≠ q
  parent : ∀ q, s.forked q = true → ∃ r, (s.proc q).parent = some r ∧ s.Alive r
  /-- A process asleep in `wait` is where `exit` looks for it, and has no dead child. -/
  waiting : ∀ w, s.place w = .wait → (s.proc w).state = .sleeping →
    w.1 = initproc.1 ∧ s.chan w = .proc w ∧ ∀ q, (s.proc q).parent = some w → (s.proc q).state ≠ .zombie
  noted : ∀ q, Noted s q
  nodup : s.returned.Nodup

/-- The processes that the kernel starts: none is dead, and none has a parent. -/
structure Booted (initproc : ProcId) (procs : Containers) : Prop where
  init : (procs.proc initproc).state.active = true
  parent : ∀ p, (procs.proc p).parent = none
  zombie : ∀ p, (procs.proc p).state ≠ .zombie

theorem alive_of_active (h : (s.proc p).state.active = true) : s.Alive p := by
  constructor <;> intro he <;> rw [he] at h <;> cases h

theorem kin_start {procs : Containers} (h : Booted initproc procs) : Kin initproc (.start procs) := by
  constructor
  case init => exact alive_of_active h.init
  case orphan => exact h.parent initproc
  case home =>
    intro q r hq
    rw [show ((Family.start procs).proc q).parent = none from h.parent q] at hq
    cases hq
  case noted => exact fun q => ⟨fun hq => absurd hq (h.zombie q), nofun, nofun⟩
  case nodup => exact List.nodup_nil
  all_goals nofun

section
variable (h : Kin initproc s)
include h

/-- Processes that are alive sleep, wake or run. -/
theorem Kin.turn (hforked : s'.forked = s.forked) (hgen : s'.gen = s.gen) (hexited : s'.exited = s.exited)
    (hreturned : s'.returned = s.returned) (hparent : ∀ q, (s'.proc q).parent = (s.proc q).parent)
    (hstate : ∀ q, (s'.proc q).state = (s.proc q).state ∨
      (s.proc q).state.active = true ∧ (s'.proc q).state.active = true)
    (hwait : ∀ w, s'.place w = .wait → (s'.proc w).state = .sleeping →
      s.place w = .wait ∧ (s.proc w).state = .sleeping ∧ s'.chan w = s.chan w ∨
      w.1 = initproc.1 ∧ s'.chan w = .proc w ∧ ∀ q, (s.proc q).parent = some w → (s.proc q).state ≠ .zombie) :
    Kin initproc s' := by
  have halive : ∀ q, s.Alive q → s'.Alive q := by
    intro q hq
    rcases hstate q with he | ⟨-, hactive⟩
    · rw [Family.Alive, he]
      exact hq
    · exact alive_of_active hactive
  -- dead and free processes are the same before and after
  have hsame : ∀ q st, st.active = false → ((s'.proc q).state = st ↔ (s.proc q).state = st) := by
    intro q st hst
    rcases hstate q with he | ⟨hactive, hactive'⟩
    · rw [he]
    · constructor <;> intro he
      · rw [he, hst] at hactive'
        cases hactive'
      · rw [he, hst] at hactive
        cases hactive
  constructor
  case init => exact halive _ h.init
  case orphan => rw [hparent]; exact h.orphan
  case home =>
    intro q r hq
    rw [hparent] at hq
    exact h.home q r hq
  case parent =>
    intro q hq
    rw [hforked] at hq
    obtain ⟨r, hr, hlive⟩ := h.parent q hq
    exact ⟨r, by rw [hparent, hr], halive r hlive⟩
  case waiting =>
    intro w hw hs
    simp only [hparent, Ne, hsame _ .zombie rfl]
    rcases hwait w hw hs with ⟨hplace, hsleeping, hchan⟩ | hnew
    · rw [hchan]
      exact h.waiting w hplace hsleeping
    · exact hnew
  case noted =>
    intro q
    exact (h.noted q).same (by rw [hgen]) (fun _ => by rw [hexited]) (fun _ => by rw [hreturned]) (hsame q)
  case nodup => rw [hreturned]; exact h.nodup

theorem Kin.wakeup1 {chan : Chan} : Kin initproc (s.wakeup1 cp this chan) := by
  have hrouses : Rouses s (s.wakeup1 cp this chan) := wakeup1_rouses
  refine h.turn rfl rfl rfl rfl (fun _ => wakeup1_parent) (fun q => ?_) fun w hw hs => ?_
  · rcases hrouses.state q with he | ⟨hsleeping, hrunnable⟩
    · exact Or.inl he
    · rw [hsleeping, hrunnable]
      exact Or.inr ⟨rfl, rfl⟩
  · exact Or.inl ⟨hw, hrouses.sleeping hs, rfl⟩

/-- One process that is alive goes to another such state. -/
theorem Kin.setState {state : ProcState} {chan : ProcId → Chan} {place : ProcId → Place}
    (hold : (s.proc p).state.active = true) (hnew : state.active = true)
    (hothers : ∀ q ≠ p, chan q = s.chan q ∧ place q = s.place q)
    (hwait : place p = .wait → state = .sleeping →
      p.1 = initproc.1 ∧ chan p = .proc p ∧ ∀ q, (s.proc q).parent = some p → (s.proc q).state ≠ .zombie) :
    Kin initproc {s.setProc p fun q => {q with state} with chan, place} := by
  have hproc : ∀ q ≠ p, ({s.setProc p fun q => {q with state} with chan, place} : Family).proc q = s.proc q :=
    fun q hq => Family.proc_setProc_of_ne hq
  have hp : ({s.setProc p fun q => {q with state} with chan, place} : Family).proc p = {s.proc p with state} :=
    Family.proc_setProc
  refine h.turn rfl rfl rfl rfl (fun q => ?_) (fun q => ?_) fun w hw hs => ?_
  · by_cases hq : q = p
    · rw [hq, hp]
    · rw [hproc q hq]
  · by_cases hq : q = p
    · rw [hq, hp]
      exact Or.inr ⟨hold, hnew⟩
    · rw [hproc q hq]
      exact Or.inl rfl
  · by_cases hq : w = p
    · rw [hq] at hw hs ⊢
      rw [hp] at hs
      exact Or.inr (hwait hw hs)
    · rw [hproc w hq] at hs
      exact Or.inl ⟨(hothers w hq).2 ▸ hw, hs, (hothers w hq).1⟩

/-- Slot `c`, whose process is not alive, gets another process, or none. -/
theorem Kin.slot {c : ProcId} (hdead : ¬ s.Alive c) (hother : ∀ q ≠ c, s'.proc q = s.proc q)
    (hstate : (s'.proc c).state ≠ .zombie ∧ (s'.proc c).state ≠ .sleeping)
    (hparent : ∀ r, (s'.proc c).parent = some r → c.1 = initproc.1 ∧ s.Alive r)
    (hforked : ∀ q, s'.forked q = true → q ≠ c ∧ s.forked q = true ∨ q = c ∧ (s'.proc c).parent ≠ none)
    (hwait : ∀ w ≠ c, s'.place w = .wait → s.place w = .wait) (hchan : s'.chan = s.chan) (hnoted : ∀ q, Noted s' q)
    (hnodup : s'.returned.Nodup) : Kin initproc s' := by
  have hkeep : ∀ q, s.Alive q → q ≠ c := fun q hq he => hdead (he ▸ hq)
  have halive : ∀ q, s.Alive q → s'.Alive q := by
    intro q hq
    rw [Family.Alive, hother q (hkeep q hq)]
    exact hq
  refine ⟨halive _ h.init, ?orphan, ?home, ?parent, ?waiting, hnoted, hnodup⟩
  case orphan =>
    rw [hother _ (hkeep _ h.init)]
    exact h.orphan
  case home =>
    intro q r hq
    by_cases hqc : q = c
    · rw [hqc] at hq ⊢
      exact ⟨(hparent r hq).1, hkeep r (hparent r hq).2⟩
    · rw [hother q hqc] at hq
      exact h.home q r hq
  case parent =>
    intro q hq
    rcases hforked q hq with ⟨hqc, hq⟩ | ⟨rfl, hne⟩
    · obtain ⟨r, hr, hlive⟩ := h.parent q hq
      exact ⟨r, by rw [hother q hqc, hr], halive r hlive⟩
    · obtain ⟨r, hr⟩ := Option.ne_none_iff_exists'.mp hne
      exact ⟨r, hr, halive r (hparent r hr).2⟩
  case waiting =>
    intro w hw hs
    have hwc : w ≠ c := fun he => hstate.2 (he ▸ hs)
    rw [hother w hwc] at hs
    obtain ⟨hhome, hon, hkids⟩ := h.waiting w (hwait w hwc hw) hs
    refine ⟨hhome, by rw [hchan]; exact hon, fun q hq => ?_⟩
    by_cases hqc : q = c
    · rw [hqc]
      exact hstate.1
    · rw [hother q hqc] at hq ⊢
      exact hkids q hq

/-- Slot `np`, which was free, has a child of `p`. -/
theorem Kin.born {np : ProcId} (hp : s.Alive p) (hhome : np.1 = initproc.1) (hunused : (s.proc np).state = .unused)
    (hparent : (s'.proc np).parent = some p) (hstate : (s'.proc np).state = .runnable)
    (hother : ∀ q ≠ np, s'.proc q = s.proc q)
    (hrest : s' = {s with
      procs := s'.procs
      place := update s.place np .outside
      forked := update s.forked np true
      gen := update s.gen np (s.gen np + 1)}) : Kin initproc s' := by
  have hexited : s'.exited = s.exited := by rw [hrest]
  have hreturned : s'.returned = s.returned := by rw [hrest]
  have hgen : s'.gen = update s.gen np (s.gen np + 1) := by rw [hrest]
  refine h.slot (c := np) (fun hlive => hlive.2 hunused) hother ?_ (fun r hr => ?_) (fun q hq => ?_)
    (fun w hw hwait => ?_) (by rw [hrest]) (fun q => ?_) (by rw [hreturned]; exact h.nodup)
  · rw [hstate]
    exact ⟨nofun, nofun⟩
  · rw [hparent] at hr
    rw [← Option.some.inj hr]
    exact ⟨hhome, hp⟩
  · rw [hrest] at hq
    rcases update_cases hq with ⟨rfl, -⟩ | ⟨hne, hq⟩
    · exact Or.inr ⟨rfl, by rw [hparent]; nofun⟩
    · exact Or.inl ⟨hne, hq⟩
  · rw [hrest] at hwait
    exact (update_of_ne hw ..).symm.trans hwait
  · by_cases hq : q = np
    · subst hq
      refine ⟨fun hz => ?_, fun g hg => ?_, fun g hg => ?_⟩
      · rw [hstate] at hz
        cases hz
      · rw [hexited] at hg
        rw [hreturned]
        refine ((h.noted q).exited g hg).imp_right fun hz => ?_
        rw [hunused] at hz
        cases hz.2
      · rw [hreturned] at hg
        rw [hexited, hgen, update_self]
        obtain ⟨hmem, -, hle⟩ := (h.noted q).returned g hg
        exact ⟨hmem, fun he => by omega, by omega⟩
    · refine (h.noted q).same (by rw [hgen, update_of_ne hq]) (fun _ => by rw [hexited])
        (fun _ => by rw [hreturned]) fun st _ => by rw [hother q hq]

theorem Kin.fork {memory : Bool} (hc : p.1 = initproc.1) (hp : s.Alive p) : Kin initproc (s.fork t p memory) := by
  rw [Family.fork]
  rcases allocPcbSimple_cases t p.1 s.procs with ⟨hnone, he⟩ | ⟨np, hnp, hunused, hothers, hnew, -⟩
  · rw [show allocPcbSimple t p.1 s.procs = (none, s.procs) from Prod.ext hnone he]
    exact h
  · rw [show allocPcbSimple t p.1 s.procs = (some np, (allocPcbSimple t p.1 s.procs).2) from Prod.ext hnp rfl]
    dsimp only
    split
    case isTrue =>
      exact h.born hp ((allocPcbSimple_home hnp).trans hc) hunused (congrArg Proc.parent proc_setProc_self)
        (congrArg Proc.state proc_setProc_self) (fun q hq => (proc_setProc_of_ne hq).trans (hothers q hq)) rfl
    case isFalse =>
      have hsame : ∀ q, (((allocPcbSimple t p.1 s.procs).2.setProc np
          fun q => {q with state := .unused}).proc q).parent =
            (s.proc q).parent ∧
          (((allocPcbSimple t p.1 s.procs).2.setProc np fun q => {q with state := .unused}).proc q).state =
            (s.proc q).state := by
        intro q
        by_cases hq : q = np
        · rw [hq, proc_setProc_self, hnew]
          exact ⟨rfl, hunused.symm⟩
        · rw [proc_setProc_of_ne hq, hothers q hq]
          exact ⟨rfl, rfl⟩
      exact h.turn rfl rfl rfl rfl (fun q => (hsame q).1) (fun q => Or.inl (hsame q).2)
        fun w hw hs => Or.inl ⟨hw, (hsame w).2 ▸ hs, rfl⟩

theorem Kin.exit (hc : p.1 = initproc.1) (hp : (s.proc p).state = .running) (hne : initproc ≠ p)
    (hs : Exits initproc p s s') : Kin initproc s' := by
  have halive : ∀ q ≠ p, s.Alive q → s'.Alive q := by
    intro q hq hlive
    rcases hs.state q hq with he | ⟨-, hrunnable⟩
    · rw [Family.Alive, he]
      exact hlive
    · rw [Family.Alive, hrunnable]
      exact ⟨nofun, nofun⟩
  have hdead : ∀ q ≠ p, (s'.proc q).state = .zombie → (s.proc q).state = .zombie := by
    intro q hq hz
    rcases hs.state q hq with he | ⟨-, hrunnable⟩
    · rw [← he, hz]
    · rw [hrunnable] at hz
      cases hz
  have hnotself : (s.proc p).parent ≠ some p := fun he => (h.home p p he).2 rfl
  have hforked : s'.forked = s.forked := by rw [hs.rest]
  have hgen : s'.gen = s.gen := by rw [hs.rest]
  have hreturned : s'.returned = s.returned := by rw [hs.rest]
  have hexited : s'.exited = (p, s.gen p) :: s.exited := by rw [hs.rest]
  constructor
  case init => exact halive _ hne h.init
  case orphan =>
    rw [hs.parent, h.orphan, if_neg nofun]
  case home =>
    intro q r hq
    rw [hs.parent] at hq
    split at hq
    case isTrue hchild =>
      rw [← Option.some.inj hq]
      refine ⟨hchild.1.trans hc, fun he => ?_⟩
      rw [← he, h.orphan] at hchild
      cases hchild.2
    case isFalse => exact h.home q r hq
  case parent =>
    intro q hq
    rw [hforked] at hq
    obtain ⟨r, hr, hlive⟩ := h.parent q hq
    rw [hs.parent]
    split
    case isTrue => exact ⟨initproc, rfl, halive _ hne h.init⟩
    case isFalse hno =>
      refine ⟨r, hr, halive r (fun he => hno ⟨(h.home q r hr).1.trans hc.symm, by rw [hr, he]⟩) hlive⟩
  case waiting =>
    intro w hw hsleep
    have hwp : w ≠ p := by
      intro he
      rw [he, hs.dead] at hsleep
      cases hsleep
    have hold : (s.proc w).state = .sleeping := by
      rcases hs.state w hwp with he | ⟨hold, -⟩
      · rw [← he, hsleep]
      · exact hold
    obtain ⟨hhome, hchan, hkids⟩ := h.waiting w (by rw [← hw, hs.rest]) hold
    refine ⟨hhome, by rw [hs.rest]; exact hchan, fun q hq hz => ?_⟩
    have hwc : w.1 = p.1 := hhome.trans hc.symm
    rw [hs.parent] at hq
    by_cases hqp : q = p
    · -- the dead child is `p` itself: its parent has been woken
      rw [hqp, if_neg fun hself => hnotself hself.2] at hq
      exact hs.told w hwp hwc (by rw [hchan, hq]; rfl) hsleep
    · have hz := hdead q hqp hz
      split at hq
      case isTrue hchild =>
        refine hs.passed q hchild.1 hchild.2 hz w hwp hwc ?_ hsleep
        rw [hchan, Option.some.inj hq]
      case isFalse => exact hkids q hq hz
  case noted =>
    intro q
    by_cases hqp : q = p
    · subst hqp
      refine ⟨fun _ => ?_, fun g hg => ?_, fun g hg => ?_⟩
      · rw [hgen, hexited]
        exact List.mem_cons_self
      · rw [hexited, List.mem_cons, Prod.mk.injEq] at hg
        rw [hreturned, hgen]
        rcases hg with ⟨-, rfl⟩ | hg
        · exact Or.inr ⟨rfl, hs.dead⟩
        · exact ((h.noted q).exited g hg).imp_right fun hz => ⟨hz.1, hs.dead⟩
      · rw [hreturned] at hg
        obtain ⟨hmem, hfree, hle⟩ := (h.noted q).returned g hg
        rw [hexited, hgen]
        refine ⟨List.mem_cons_of_mem _ hmem, fun he => ?_, hle⟩
        have hunused := hfree he
        rw [hp] at hunused
        cases hunused
    · refine (h.noted q).same (by rw [hgen]) (fun g => ?_) (fun _ => by rw [hreturned]) fun st hst => ?_
      · simp [hexited, hqp]
      · rcases hs.state q hqp with he | ⟨hsleep, hrunnable⟩
        · rw [he]
        · rw [hsleep, hrunnable]
          constructor <;> intro he <;> rw [← he] at hst <;> cases hst
  case nodup => rw [hreturned]; exact h.nodup

/-- The dead child `c` of `p` is returned and its slot is free. -/
theorem Kin.reaped {c : ProcId} {place : ProcId → Place} (hdead : (s.proc c).state = .zombie)
    (hparent : (s'.proc c).parent = none) (hstate : (s'.proc c).state = .unused)
    (hother : ∀ q ≠ c, s'.proc q = s.proc q) (hplace : ∀ w, place w = .wait → s.place w = .wait)
    (hrest : s' = {s with
      procs := s'.procs
      place
      forked := update s.forked c false
      returned := (c, s.gen c) :: s.returned}) : Kin initproc s' := by
  have hexited : s'.exited = s.exited := by rw [hrest]
  have hreturned : s'.returned = (c, s.gen c) :: s.returned := by rw [hrest]
  have hgen : s'.gen = s.gen := by rw [hrest]
  have hnew : (c, s.gen c) ∉ s.returned := by
    intro hmem
    have hunused := ((h.noted c).returned _ hmem).2.1 rfl
    rw [hdead] at hunused
    cases hunused
  refine h.slot (c := c) (fun hlive => hlive.1 hdead) hother ?_ (fun r hr => ?_) (fun q hq => ?_)
    (fun w _ hw => hplace w (by rw [← hw, hrest])) (by rw [hrest]) (fun q => ?_)
    (by rw [hreturned]; exact List.nodup_cons.mpr ⟨hnew, h.nodup⟩)
  · rw [hstate]
    exact ⟨nofun, nofun⟩
  · rw [hparent] at hr
    cases hr
  · rw [hrest] at hq
    rcases update_cases hq with ⟨-, hfalse⟩ | hq
    · cases hfalse
    · exact Or.inl hq
  · by_cases hq : q = c
    · subst hq
      refine ⟨fun hz => ?_, fun g hg => ?_, fun g hg => ?_⟩
      · rw [hstate] at hz
        cases hz
      · rw [hexited] at hg
        rw [hreturned, List.mem_cons, Prod.mk.injEq]
        rcases (h.noted q).exited g hg with hret | ⟨he, -⟩
        · exact Or.inl (Or.inr hret)
        · exact Or.inl (Or.inl ⟨rfl, he⟩)
      · rw [hreturned, List.mem_cons, Prod.mk.injEq] at hg
        rw [hexited, hgen]
        rcases hg with ⟨-, rfl⟩ | hg
        · exact ⟨(h.noted q).zombie hdead, fun _ => hstate, le_rfl⟩
        · obtain ⟨hmem, -, hle⟩ := (h.noted q).returned g hg
          exact ⟨hmem, fun _ => hstate, hle⟩
    · refine (h.noted q).same (by rw [hgen]) (fun _ => by rw [hexited]) (fun g => ?_) fun st _ => by rw [hother q hq]
      simp [hreturned, hq]

omit h in
/-- What a round of `wait` returns: the pid of a dead child, or -1 if there is no child or the
caller is killed. -/
theorem waitRound_result {n : Int} (h : (s.waitRound p).1 = some n) :
    (∃ c, (s.proc c).parent = some p ∧ (s.proc c).state = .zombie ∧ (s.proc c).pid = n) ∨
    n = -1 ∧ ((∀ i, (s.proc (p.1, i)).parent ≠ some p) ∨ (s.proc p).killed = true) := by
  rw [Family.waitRound] at h
  split at h
  case h_1 i hdead => exact Or.inl ⟨(p.1, i), (deadChild_some hdead).1, (deadChild_some hdead).2, Option.some.inj h⟩
  case h_2 =>
    split at h
    case isTrue hnone => exact Or.inr ⟨(Option.some.inj h).symm, hnone⟩
    case isFalse => cases h

omit h in
theorem deadChild_none {procs : Containers} (h : deadChild p procs = none) (hq : q.1 = p.1)
    (hparent : (procs.proc q).parent = some p) : (procs.proc q).state ≠ .zombie := by
  intro hzombie
  have hno := List.find?_eq_none.mp h q.2 (List.mem_finRange _)
  rw [decide_eq_true_eq, ← hq] at hno
  exact hno ⟨hparent, hzombie⟩

omit h in
theorem place_leave (hw : update s.place p .outside w = .wait) : s.place w = .wait := by
  rcases update_cases hw with ⟨-, he⟩ | ⟨-, hw⟩
  · cases he
  · exact hw

theorem Kin.wait (hc : p.1 = initproc.1) (hp : (s.proc p).state = .running) : Kin initproc (s.waitRound p).2 := by
  rw [Family.waitRound]
  dsimp only
  split
  case h_1 i hdead =>
    have hreap : reap p s.procs = s.procs.setProc (p.1, i) fun q =>
        {q with killed := false, state := .unused, pid := 0, parent := none} := by rw [reap, hdead]
    rw [hreap]
    exact h.reaped (deadChild_some hdead).2 (congrArg Proc.parent proc_setProc_self)
      (congrArg Proc.state proc_setProc_self) (fun q hq => proc_setProc_of_ne hq) (fun w => place_leave) rfl
  case h_2 hnone =>
    split
    case isTrue =>
      refine h.turn rfl rfl rfl rfl (fun _ => rfl) (fun _ => Or.inl rfl) fun w hw hs => ?_
      exact Or.inl ⟨place_leave hw, hs, rfl⟩
    case isFalse =>
      refine h.setState (by rw [hp]; rfl) rfl (fun q hq => ?_) fun _ _ => ?_
      · exact ⟨update_of_ne hq .., update_of_ne hq ..⟩
      · refine ⟨hc, update_self .., fun q hq => ?_⟩
        exact deadChild_none hnone ((h.home q p hq).1.trans hc.symm) hq

theorem Kin.exec {e : FamilyStep} (hs : e.exec t initproc s = some s') : Kin initproc s' := by
  cases e with
  | fork p memory =>
    obtain ⟨⟨hc, hp, -⟩, rfl⟩ := Option.ite_some_none_eq_some.mp hs
    exact h.fork hc (alive_of_active (by rw [hp]; rfl))
  | exit p =>
    obtain ⟨⟨⟨hc, hp, -⟩, hne⟩, rfl⟩ := Option.ite_some_none_eq_some.mp hs
    exact h.exit hc hp hne.symm (exit_spec hne.symm)
  | wait p =>
    obtain ⟨⟨hc, hp, -⟩, rfl⟩ := Option.ite_some_none_eq_some.mp hs
    exact h.wait hc hp
  | sleep p chan =>
    obtain ⟨⟨hc, hp, -⟩, rfl⟩ := Option.ite_some_none_eq_some.mp hs
    refine h.setState (by rw [hp]; rfl) rfl (fun q hq => ?_) fun hplace => ?_
    · exact ⟨update_of_ne hq .., update_of_ne hq ..⟩
    · rw [update_self] at hplace
      cases hplace
  | wakeup cp chan =>
    obtain ⟨-, rfl⟩ := Option.ite_some_none_eq_some.mp hs
    exact h.wakeup1
  | run p =>
    obtain ⟨⟨hc, hp⟩, rfl⟩ := Option.ite_some_none_eq_some.mp hs
    have hold : (s.proc p).state.active = true := by rw [hp]; rfl
    rw [Family.resume, Family.leaveSleep]
    split
    case h_1 => exact h.setState hold rfl (fun _ _ => ⟨rfl, rfl⟩) fun _ => nofun
    case h_2 =>
      exact h.setState hold rfl (fun q hq => ⟨update_of_ne hq .., update_of_ne hq ..⟩)
        fun _ => nofun
    case h_3 => exact h.setState hold rfl (fun q hq => ⟨update_of_ne hq .., rfl⟩) fun _ => nofun
  | yield p =>
    obtain ⟨⟨hc, hp, -⟩, rfl⟩ := Option.ite_some_none_eq_some.mp hs
    exact h.setState (by rw [hp]; rfl) rfl (fun _ _ => ⟨rfl, rfl⟩) fun _ => nofun

end

/-- **No child is lost.** Every process that was forked and is not reaped has a parent that is
alive, and the children of a process that exits go to `initproc`; a process asleep in `wait`
has no dead child; `wait` returns the pid of a dead child, or -1 if there is none to wait for;
and every process that has exited is returned at most once, and is in its slot until then. -/
theorem children_kept (t : ContainerTree) (initproc : ProcId) {procs : Containers} (hboot : Booted initproc procs)
    (hrun : Reach (fun s e s' => FamilyStep.exec t initproc s e = some s') (fun _ _ => True) (.start procs) s) :
    (∀ q, s.forked q = true → ∃ r, (s.proc q).parent = some r ∧ s.Alive r) ∧
    (∀ p s', (FamilyStep.exit p).exec t initproc s = some s' →
      ∀ q, (s.proc q).parent = some p → (s'.proc q).parent = some initproc) ∧
    (∀ w q, s.place w = .wait → (s.proc w).state = .sleeping → (s.proc q).parent = some w →
      (s.proc q).state ≠ .zombie) ∧
    (∀ p n, (s.waitRound p).1 = some n →
      (∃ c, (s.proc c).parent = some p ∧ (s.proc c).state = .zombie ∧ (s.proc c).pid = n) ∨
      n = -1 ∧ ((∀ i, (s.proc (p.1, i)).parent ≠ some p) ∨ (s.proc p).killed = true)) ∧
    s.returned.Nodup ∧ (∀ x ∈ s.returned, x ∈ s.exited) ∧
    ∀ x ∈ s.exited, x ∉ s.returned → s.gen x.1 = x.2 ∧ (s.proc x.1).state = .zombie := by
  have h : Kin initproc s := hrun.invariant (kin_start hboot) fun _ _ _ h _ hs => h.exec hs
  refine ⟨h.parent, fun p s' hs q hq => ?_, fun w q hw hs hq => (h.waiting w hw hs).2.2 q hq,
    fun p n hn => waitRound_result hn, h.nodup, fun x hx => ((h.noted x.1).returned x.2 hx).1, fun x hx hnot => ?_⟩
  · obtain ⟨⟨⟨hc, -, -⟩, hne⟩, rfl⟩ := Option.ite_some_none_eq_some.mp hs
    rw [(exit_spec hne.symm).parent, if_pos ⟨(h.home q p hq).1.trans hc.symm, hq⟩]
  · obtain ⟨hgen, hzombie⟩ := ((h.noted x.1).exited x.2 hx).resolve_left hnot
    exact ⟨hgen.symm, hzombie⟩

/-- `initproc` runs alone. -/
def onlyInit : Containers := Containers.zero.setProc (0, 0) fun q => {q with state := .running}

theorem onlyInit_booted : Booted (0, 0) onlyInit := by
  have hproc : ∀ p, (onlyInit.proc p).parent = none ∧ (onlyInit.proc p).state ≠ .zombie := by
    intro p
    by_cases hp : p = (0, 0)
    · rw [hp]
      exact ⟨rfl, nofun⟩
    · rw [onlyInit, proc_setProc_of_ne hp]
      exact ⟨rfl, nofun⟩
  exact ⟨rfl, fun p => (hproc p).1, fun p => (hproc p).2⟩

/-- `initproc` waits for its child, which exits while it is asleep. -/
theorem children_kept_woken : ∃ s, Reach (fun s e s' => FamilyStep.exec flatTree (0, 0) s e = some s')
    (fun _ _ => True) (.start onlyInit) s ∧ s.returned = [((0, 1), 1)] ∧ ((0, 1), 1) ∈ s.exited := by
  have hany : (runAll (FamilyStep.exec flatTree (0, 0)) (fun _ _ => True) (.start onlyInit)
      [.fork (0, 0) true, .wait (0, 0), .run (0, 1), .exit (0, 1), .run (0, 0), .wait (0, 0)]).any
      (fun s => s.returned = [((0, 1), 1)]) = true := by
    decide +kernel
  obtain ⟨s, hreach, htest⟩ := Reach.exists_of_any hany
  have hreturned := of_decide_eq_true htest
  obtain ⟨-, -, -, -, -, hexited, -⟩ := children_kept flatTree (0, 0) onlyInit_booted hreach
  exact ⟨s, hreach, hreturned, hexited _ (by rw [hreturned]; exact List.mem_cons_self)⟩

end OS2021.Core
