import OS2021.Core.Family

/-! Sleeplocks (`core/sleeplock.c`, with `sleep` and `wakeup` of `core/proc.c`).

A sleeplock is named by its address. It has a spinlock of its own; `sleep` takes the lock of
the process table before it gives the spinlock back, and `release_sleeplock` wakes the
sleepers when it has given the spinlock back. A step here is what a process does between two
of these operations, or one of them. -/
namespace OS2021.Core
open Lib Function

/-! ### Steps -/

/-- What a process is about to do. -/
inductive LockPlace where
  /-- It is in neither routine. -/
  | outside
  /-- `acquire_spinlock(&lock->lock)` in `acquire_sleeplock`, or at the end of `sleep` -/
  | lock (a : Nat)
  /-- `while (lock->locked)` -/
  | test (a : Nat)
  /-- `acquire_sched_lock()` in `sleep` -/
  | table (a : Nat)
  /-- `release_spinlock(lock)` in `sleep` -/
  | unlockAsleep (a : Nat)
  /-- `p->chan = chan; p->state = SLEEPING; sched();` -/
  | park (a : Nat)
  /-- It is switched out. -/
  | parked (a : Nat)
  /-- `acquire_spinlock(&lock->lock)` in `release_sleeplock` -/
  | relock (a : Nat)
  /-- `lock->locked = false` -/
  | clear (a : Nat)
  /-- `release_spinlock(&lock->lock)` in `release_sleeplock` -/
  | unlock (a : Nat)
  /-- `acquire_sched_lock()` in `wakeup` -/
  | wakeup (a : Nat)
  /-- The loop of `wakeup`. -/
  | wake (a : Nat)
  deriving DecidableEq

namespace LockPlace

/-- In a section under the spinlock of `a`. -/
def underLock (a : Nat) : LockPlace → Bool
  | test b | table b | unlockAsleep b | clear b | unlock b => b == a
  | _ => false

/-- In a section under the lock of the process table. -/
def underTable : LockPlace → Bool
  | unlockAsleep _ | park _ | wake _ => true
  | _ => false

/-- On the way to sleep because `a` was held, its spinlock not given back. -/
def blocked (a : Nat) : LockPlace → Bool
  | table b | unlockAsleep b => b == a
  | _ => false

/-- In `release_sleeplock`, before it has cleared `a`. -/
def releasing (a : Nat) : LockPlace → Bool
  | relock b | clear b => b == a
  | _ => false

/-- In `release_sleeplock`, with `a` cleared and its wakeup not finished. -/
def waker (a : Nat) : LockPlace → Bool
  | unlock b | wakeup b | wake b => b == a
  | _ => false

end LockPlace

/-- The process tables, the sleeplocks and the locks; `inside a p` is that `p` is between its
acquire and its release of `a`. -/
structure Sleeplocks where
  table : Family
  locked : Nat → Bool
  lock : Nat → Option ProcId
  tableLock : Option ProcId
  place : ProcId → LockPlace
  inside : Nat → ProcId → Bool

namespace Sleeplocks

def start (procs : Containers) : Sleeplocks :=
  ⟨.start procs, fun _ => false, fun _ => none, none, fun _ => .outside, fun _ _ => false⟩

def goto (s : Sleeplocks) (p : ProcId) (a : LockPlace) : Sleeplocks := {s with place := update s.place p a}

def setLock (s : Sleeplocks) (a : Nat) (o : Option ProcId) : Sleeplocks := {s with lock := update s.lock a o}

def setInside (s : Sleeplocks) (a : Nat) (p : ProcId) (b : Bool) : Sleeplocks :=
  {s with
    locked := update s.locked a b, inside := update s.inside a (update (s.inside a) p b)}

/-- The next thing `p` does in its routine; it waits for a lock that is not free. -/
def advance (this : Nat) (s : Sleeplocks) (p : ProcId) : Option Sleeplocks :=
  match s.place p with
  | .outside | .parked _ => none
  | .lock a => if s.lock a = none then some ((s.setLock a (some p)).goto p (.test a)) else none
  | .test a =>
    if s.locked a then some (s.goto p (.table a))
    else some (((s.setInside a p true).setLock a none).goto p .outside)
  | .table a => if s.tableLock = none then some ({s with tableLock := some p}.goto p (.unlockAsleep a)) else none
  | .unlockAsleep a => some ((s.setLock a none).goto p (.park a))
  | .park a => some ({s with table := s.table.park p (.addr a) .sleep, tableLock := none}.goto p (.parked a))
  | .relock a => if s.lock a = none then some ((s.setLock a (some p)).goto p (.clear a)) else none
  | .clear a => some ((s.setInside a p false).goto p (.unlock a))
  | .unlock a => some ((s.setLock a none).goto p (.wakeup a))
  | .wakeup a => if s.tableLock = none then some ({s with tableLock := some p}.goto p (.wake a)) else none
  | .wake a => some ({s with table := s.table.wakeup1 (some p) this (.addr a), tableLock := none}.goto p .outside)

end Sleeplocks

inductive LockStep where
  /-- A call of `acquire_sleeplock` -/
  | acquire (p : ProcId) (a : Nat)
  /-- A call of `release_sleeplock` -/
  | release (p : ProcId) (a : Nat)
  | advance (p : ProcId)
  /-- The scheduler picks `p`. -/
  | run (p : ProcId)
  | yield (p : ProcId)
  /-- `sleep` and `wakeup` on something that is not a sleeplock -/
  | sleep (p : ProcId) (chan : Chan)
  | wakeup (p : ProcId) (chan : Chan)

def Chan.isAddr : Chan → Bool
  | addr _ => true
  | null | proc _ => false

/-- The processes of container `this`. A lock is released by a process that has it. -/
def LockStep.exec (this : Nat) (s : Sleeplocks) : LockStep → Option Sleeplocks
  | acquire p a =>
    if p.1 = this ∧ (s.table.proc p).state = .running ∧ s.place p = .outside then some (s.goto p (.lock a)) else none
  | release p a =>
    if p.1 = this ∧ (s.table.proc p).state = .running ∧ s.place p = .outside ∧ s.inside a p then
      some (s.goto p (.relock a))
    else none
  | advance p => if (s.table.proc p).state = .running then s.advance this p else none
  | run p =>
    if (s.table.proc p).state = .runnable ∧ s.tableLock = none then
      let s := {s with table := s.table.resume p}
      match s.place p with
      | .parked a => some (s.goto p (.lock a))
      | _ => some s
    else none
  | yield p =>
    if (s.table.proc p).state = .running ∧ s.tableLock = none then
      some {s with table := s.table.setProc p fun q => {q with state := .runnable}}
    else none
  | sleep p chan =>
    if (s.table.proc p).state = .running ∧ s.place p = .outside ∧ s.tableLock = none ∧ chan.isAddr = false then
      some {s with table := s.table.park p chan .sleep}
    else none
  | wakeup p chan =>
    if (s.table.proc p).state = .running ∧ s.place p = .outside ∧ s.tableLock = none then
      some {s with table := s.table.wakeup1 (some p) this chan}
    else none

/-! ### The protocol -/

variable {this a b : Nat} {p q : ProcId} {s s' : Sleeplocks} {place place' : LockPlace}

/-- Sleepers on `a` need not worry: it is held, or somebody is about to wake them. -/
def Sleeplocks.Excused (s : Sleeplocks) (a : Nat) : Prop := s.locked a = true ∨ ∃ q, (s.place q).waker a = true

structure Protocol (this : Nat) (s : Sleeplocks) : Prop where
  lock : ∀ a, Guards (LockPlace.underLock a) (s.lock a) s.place
  table : Guards LockPlace.underTable s.tableLock s.place
  /-- A lock is held by one process, from its acquire to its release. -/
  held : ∀ a p, s.inside a p = true → s.locked a = true
  one : ∀ a p q, s.inside a p = true → s.inside a q = true → p = q
  owner : ∀ a, s.locked a = true → ∃ p, s.inside a p = true
  releasing : ∀ a p, (s.place p).releasing a = true → s.inside a p = true
  blocked : ∀ a p, (s.place p).blocked a = true → s.locked a = true
  /-- Nobody goes to sleep, or sleeps, without an excuse. -/
  park : ∀ a p, s.place p = .park a → s.Excused a
  asleep : ∀ a p, (s.table.proc p).state = .sleeping → s.table.chan p = .addr a → s.Excused a
  home : ∀ p, s.place p ≠ .outside ∨ (s.table.proc p).state = .sleeping ∧ (s.table.chan p).isAddr = true → p.1 = this

theorem protocol_start (procs : Containers) : Protocol this (.start procs) := by
  constructor
  case lock => exact fun a t => iff_of_false nofun nofun
  case table => exact fun t => iff_of_false nofun nofun
  case home =>
    intro p hp
    rcases hp with hp | ⟨-, hp⟩
    · exact absurd rfl hp
    · cases hp
  all_goals nofun

/-- `p` moves on, maybe with a lock taken or given back. -/
theorem Protocol.goto (h : Protocol this s) (hp : s.place p = place) {lock : Nat → Option ProcId}
    {tableLock : Option ProcId}
    (hlock : ∀ a, Guards (LockPlace.underLock a) (lock a) (update s.place p place'))
    (htable : Guards LockPlace.underTable tableLock (update s.place p place'))
    (hhome : place = .outside → p.1 = this)
    (hreleasing : ∀ a, place'.releasing a = true → s.inside a p = true)
    (hblocked : ∀ a, place'.blocked a = true → s.locked a = true)
    (hpark : ∀ a, place' = .park a → s.locked a = true)
    (hwaker : ∀ a, place.waker a = true → place'.waker a = true ∨
      (∀ q, s.place q ≠ .park a) ∧ ∀ q, (s.table.proc q).state = .sleeping → s.table.chan q ≠ .addr a) :
    Protocol this {s with lock, tableLock, place := update s.place p place'} := by
  have hexcused : ∀ {a}, s.Excused a → (∃ q, s.place q = .park a) ∨
        (∃ q, (s.table.proc q).state = .sleeping ∧ s.table.chan q = .addr a) →
      ({s with lock, tableLock, place := update s.place p place'} : Sleeplocks).Excused a := by
    intro a ha hneed
    rcases ha with hlocked | ⟨q, hq⟩
    · exact Or.inl hlocked
    · refine Or.inr ⟨q, ?_⟩
      dsimp only
      by_cases hqp : q = p
      · rw [hqp, update_self]
        rw [hqp, hp] at hq
        refine (hwaker a hq).resolve_right fun ⟨hnopark, hnosleep⟩ => ?_
        rcases hneed with ⟨r, hr⟩ | ⟨r, hr, hchan⟩
        · exact hnopark r hr
        · exact hnosleep r hr hchan
      · rw [update_of_ne hqp]
        exact hq
  constructor
  case lock => exact hlock
  case table => exact htable
  case held => exact h.held
  case one => exact h.one
  case owner => exact h.owner
  case releasing =>
    exact fun a => (forall_update_iff s.place fun q place => place.releasing a = true → s.inside a q = true).mpr
      ⟨hreleasing a, fun q _ => h.releasing a q⟩
  case blocked =>
    exact fun a => (forall_update_iff s.place fun _ place => place.blocked a = true → s.locked a = true).mpr
      ⟨hblocked a, fun q _ => h.blocked a q⟩
  case park =>
    intro a q hq
    rcases update_cases hq with ⟨-, he⟩ | ⟨-, hq⟩
    · exact Or.inl (hpark a he)
    · exact hexcused (h.park a q hq) (Or.inl ⟨q, hq⟩)
  case asleep => exact fun a q hs hc => hexcused (h.asleep a q hs hc) (Or.inr ⟨q, hs, hc⟩)
  case home =>
    intro q hq
    by_cases hqp : q = p
    · by_cases hout : place = .outside
      · rw [hqp, hhome hout]
      · exact h.home q (Or.inl (by rw [hqp, hp]; exact hout))
    · refine h.home q (hq.imp_left fun hne => ?_)
      have hne : update s.place p place' q ≠ .outside := hne
      rw [update_of_ne hqp] at hne
      exact hne

/-- The process table changes: whoever falls asleep on a sleeplock has an excuse. -/
theorem Protocol.setTable (h : Protocol this s) {table : Family}
    (hsleep : ∀ a p, (table.proc p).state = .sleeping → table.chan p = .addr a →
      (s.table.proc p).state = .sleeping ∧ s.table.chan p = .addr a ∨ s.Excused a ∧ p.1 = this) :
    Protocol this {s with table} := by
  constructor
  case lock => exact h.lock
  case table => exact h.table
  case held => exact h.held
  case one => exact h.one
  case owner => exact h.owner
  case releasing => exact h.releasing
  case blocked => exact h.blocked
  case park => exact h.park
  case asleep =>
    intro a p hs hc
    rcases hsleep a p hs hc with ⟨hold, hchan⟩ | ⟨hexcused, -⟩
    · exact h.asleep a p hold hchan
    · exact hexcused
  case home =>
    intro p hp
    rcases hp with hp | ⟨hs, hc⟩
    · exact h.home p (Or.inl hp)
    · have hs : (table.proc p).state = .sleeping := hs
      cases hchan : table.chan p with
      | addr a =>
        rcases hsleep a p hs hchan with ⟨hold, hchan'⟩ | ⟨-, hhome⟩
        · exact h.home p (Or.inr ⟨hold, by rw [hchan']; rfl⟩)
        · exact hhome
      | null | proc q => rw [show (table.chan p).isAddr = false by rw [hchan]; rfl] at hc; cases hc

theorem underLock_of_blocked {place : LockPlace} (h : place.blocked a = true) : place.underLock a = true := by
  cases place with
  | table b => exact h
  | unlockAsleep b => exact h
  | _ => cases h

theorem inside_setInside {v : Bool} : (s.setInside a p v).inside b q = if b = a ∧ q = p then v else s.inside b q := by
  show update s.inside a (update (s.inside a) p v) b q = _
  by_cases hb : b = a
  · subst hb
    rw [update_self]
    by_cases hq : q = p
    · rw [hq, update_self, if_pos ⟨rfl, rfl⟩]
    · rw [update_of_ne hq, if_neg fun h => hq h.2]
  · rw [update_of_ne hb, if_neg fun h => hb h.1]

theorem locked_setInside {v : Bool} : (s.setInside a p v).locked b = if b = a then v else s.locked b :=
  update_apply ..

/-- `p` finds the lock free and takes it. -/
theorem Protocol.take (h : Protocol this s) (hfree : s.locked a = false) :
    Protocol this (s.setInside a p true) := by
  have hnone : ∀ q, s.inside a q ≠ true := by
    intro q hq
    rw [h.held a q hq] at hfree
    cases hfree
  have hmono : ∀ b, s.locked b = true → (s.setInside a p true).locked b = true := by
    intro b hb
    rw [locked_setInside]
    split
    case isTrue => rfl
    case isFalse => exact hb
  have hkeep : ∀ b q, s.inside b q = true → (s.setInside a p true).inside b q = true := by
    intro b q hq
    rw [inside_setInside]
    split
    case isTrue => rfl
    case isFalse => exact hq
  constructor
  case lock => exact h.lock
  case table => exact h.table
  case held =>
    intro b q hq
    rw [inside_setInside] at hq
    rw [locked_setInside]
    split
    case isTrue => rfl
    case isFalse hb =>
      rw [if_neg fun hbq => hb hbq.1] at hq
      exact h.held b q hq
  case one =>
    intro b q r hq hr
    rw [inside_setInside] at hq hr
    by_cases hb : b = a
    · subst hb
      have hself : ∀ q, (if b = b ∧ q = p then true else s.inside b q) = true → q = p := by
        intro q hq
        by_contra hne
        rw [if_neg fun hbq => hne hbq.2] at hq
        exact hnone q hq
      rw [hself q hq, hself r hr]
    · rw [if_neg fun hbq => hb hbq.1] at hq hr
      exact h.one b q r hq hr
  case owner =>
    intro b hb
    by_cases hba : b = a
    · refine ⟨p, ?_⟩
      rw [hba, inside_setInside, if_pos ⟨rfl, rfl⟩]
    · rw [locked_setInside, if_neg hba] at hb
      obtain ⟨q, hq⟩ := h.owner b hb
      exact ⟨q, hkeep b q hq⟩
  case releasing => exact fun b q hq => hkeep b q (h.releasing b q hq)
  case blocked => exact fun b q hq => hmono b (h.blocked b q hq)
  case park => exact fun b q hq => (h.park b q hq).imp_left (hmono b)
  case asleep => exact fun b q hs hc => (h.asleep b q hs hc).imp_left (hmono b)
  case home => exact h.home

/-- The holder clears the lock; it is to wake the sleepers. -/
theorem Protocol.clear (h : Protocol this s) (hp : s.place p = .clear a) :
    Protocol this ((s.setInside a p false).goto p (.unlock a)) := by
  have hin : s.inside a p = true := h.releasing a p (by rw [hp]; exact beq_self_eq_true a)
  have hother : ∀ q ≠ p, ((s.setInside a p false).goto p (.unlock a)).place q = s.place q := fun q hq =>
    update_of_ne hq ..
  have hself : ((s.setInside a p false).goto p (.unlock a)).place p = .unlock a := update_self ..
  have hmoved : ∀ (P : LockPlace → Prop) q, ¬ P (.unlock a) →
      P (((s.setInside a p false).goto p (.unlock a)).place q) → q ≠ p ∧ P (s.place q) := by
    intro P q hnot hq
    have hqp : q ≠ p := fun he => hnot (hself ▸ he ▸ hq)
    exact ⟨hqp, hother q hqp ▸ hq⟩
  have hsub : ∀ b q, (s.setInside a p false).inside b q = true → s.inside b q = true ∧ ¬ (b = a ∧ q = p) := by
    intro b q hq
    rw [inside_setInside] at hq
    split at hq
    case isTrue => cases hq
    case isFalse hne => exact ⟨hq, hne⟩
  have hkeep : ∀ b q, q ≠ p → s.inside b q = true → (s.setInside a p false).inside b q = true := by
    intro b q hqp hq
    rw [inside_setInside, if_neg fun hbq => hqp hbq.2]
    exact hq
  have hexcused : ∀ {b}, s.Excused b → ((s.setInside a p false).goto p (.unlock a)).Excused b := by
    intro b hb
    by_cases hba : b = a
    · refine Or.inr ⟨p, ?_⟩
      rw [hself, hba]
      exact beq_self_eq_true a
    · rcases hb with hlocked | ⟨q, hq⟩
      · left
        show (s.setInside a p false).locked b = true
        rw [locked_setInside, if_neg hba]
        exact hlocked
      · have hqp : q ≠ p := by
          intro he
          rw [he, hp] at hq
          cases hq
        exact Or.inr ⟨q, by rw [hother q hqp]; exact hq⟩
  constructor
  case lock => exact fun b => (h.lock b).move (by rw [hp]; rfl)
  case table => exact h.table.move (by rw [hp]; rfl)
  case held =>
    intro b q hq
    obtain ⟨hq, hne⟩ := hsub b q hq
    show (s.setInside a p false).locked b = true
    rw [locked_setInside, if_neg]
    · exact h.held b q hq
    · intro hba
      rw [hba] at hq hne
      exact hne ⟨rfl, h.one a q p hq hin⟩
  case one => exact fun b q r hq hr => h.one b q r (hsub b q hq).1 (hsub b r hr).1
  case owner =>
    intro b hb
    have hb : (s.setInside a p false).locked b = true := hb
    rw [locked_setInside] at hb
    split at hb
    case isTrue => cases hb
    case isFalse hba =>
      obtain ⟨q, hq⟩ := h.owner b hb
      refine ⟨q, ?_⟩
      show (s.setInside a p false).inside b q = true
      rw [inside_setInside, if_neg fun hbq => hba hbq.1]
      exact hq
  case releasing =>
    intro b q hq
    obtain ⟨hqp, hq⟩ := hmoved (·.releasing b = true) q nofun hq
    exact hkeep b q hqp (h.releasing b q hq)
  case blocked =>
    intro b q hq
    obtain ⟨hqp, hq⟩ := hmoved (·.blocked b = true) q nofun hq
    show (s.setInside a p false).locked b = true
    rw [locked_setInside, if_neg]
    · exact h.blocked b q hq
    · -- a process that is blocked on `a` has its spinlock, which `p` has
      intro hba
      rw [hba] at hq
      exact hqp ((h.lock a).exclusive (underLock_of_blocked hq) (by rw [hp]; exact beq_self_eq_true a))
  case park =>
    intro b q hq
    obtain ⟨-, hq⟩ := hmoved (· = .park b) q nofun hq
    exact hexcused (h.park b q hq)
  case asleep => exact fun b q hs hc => hexcused (h.asleep b q hs hc)
  case home =>
    intro q hq
    by_cases hqp : q = p
    · rw [hqp]
      exact h.home p (Or.inl (by rw [hp]; nofun))
    · rw [hother q hqp] at hq
      exact h.home q hq

/-! ### Locks taken and given back -/

section Locks
variable (h : Protocol this s) (hp : s.place p = place)
include h hp

theorem Protocol.lock_move (hsame : ∀ b, place'.underLock b = place.underLock b) (b : Nat) :
    Guards (LockPlace.underLock b) (s.lock b) (update s.place p place') :=
  (h.lock b).move (by rw [hp, hsame])

theorem Protocol.lock_acquire (hfree : s.lock a = none) (hout : ∀ b, place.underLock b = false)
    (hin : ∀ b, place'.underLock b = (a == b)) (b : Nat) :
    Guards (LockPlace.underLock b) (update s.lock a (some p) b) (update s.place p place') := by
  refine guards_acquire h.lock hfree ?_ (fun b hb => ?_) b
  · rw [hin]
    exact beq_self_eq_true a
  · rw [hp, hin, hout]
    exact beq_eq_false_iff_ne.mpr hb.symm

theorem Protocol.lock_release (hin : ∀ b, place.underLock b = (a == b)) (hout : ∀ b, place'.underLock b = false)
    (b : Nat) :
    Guards (LockPlace.underLock b) (update s.lock a none b) (update s.place p place') := by
  refine guards_release h.lock ?_ (hout a) (fun b hb => ?_) b
  · rw [hp, hin]
    exact beq_self_eq_true a
  · rw [hp, hin, hout]
    exact (beq_eq_false_iff_ne.mpr hb.symm).symm

theorem Protocol.table_move (hsame : place'.underTable = place.underTable) :
    Guards LockPlace.underTable s.tableLock (update s.place p place') := h.table.move (by rw [hp, hsame])

omit hp in
theorem Protocol.table_acquire (hfree : s.tableLock = none) (hin : place'.underTable = true) :
    Guards LockPlace.underTable (some p) (update s.place p place') := by
  have htable := h.table
  rw [hfree] at htable
  exact htable.acquire hin

theorem Protocol.table_release (hin : place.underTable = true) (hout : place'.underTable = false) :
    Guards LockPlace.underTable none (update s.place p place') := h.table.release (by rw [hp, hin]) hout

end Locks

/-! ### Sleeping and waking -/

theorem chan_park {f : Family} {chan : Chan} {place : Place} (hq : q ≠ p) :
    (f.park p chan place).proc q = f.proc q ∧ (f.park p chan place).chan q = f.chan q :=
  ⟨Family.proc_setProc_of_ne hq, update_of_ne hq ..⟩

/-- `p` goes to sleep. -/
theorem Protocol.parks (h : Protocol this s) (chan : Chan) (hchan : ∀ a, chan = .addr a → s.Excused a ∧ p.1 = this) :
    Protocol this {s with table := s.table.park p chan .sleep} := by
  refine h.setTable fun a q hs hc => ?_
  by_cases hqp : q = p
  · rw [hqp, show (s.table.park p chan .sleep).chan p = chan from update_self ..] at hc
    rw [hqp]
    exact Or.inr (hchan a hc)
  · rw [(chan_park hqp).1] at hs
    rw [(chan_park hqp).2] at hc
    exact Or.inl ⟨hs, hc⟩

theorem Protocol.wakes (h : Protocol this s) {cp : Option ProcId} {chan : Chan} :
    Protocol this {s with table := s.table.wakeup1 cp this chan} :=
  h.setTable fun _ _ hs hc => Or.inl ⟨wakeup1_rouses.sleeping hs, hc⟩

/-- A process that is running gets a state in which it is not asleep. -/
theorem Protocol.awake (h : Protocol this s) {table : Family} (hself : (table.proc p).state ≠ .sleeping)
    (hother : ∀ q ≠ p, table.proc q = s.table.proc q ∧ table.chan q = s.table.chan q) :
    Protocol this {s with table} := by
  refine h.setTable fun a q hs hc => Or.inl ?_
  have hqp : q ≠ p := fun he => hself (he ▸ hs)
  rw [← (hother q hqp).1, ← (hother q hqp).2]
  exact ⟨hs, hc⟩

theorem Protocol.advance (h : Protocol this s) (hstate : (s.table.proc p).state = .running)
    (hs : s.advance this p = some s') : Protocol this s' := by
  rw [Sleeplocks.advance] at hs
  generalize hp : s.place p = place at hs
  cases place with
  | outside | parked => cases hs
  | lock a =>
    obtain ⟨hfree, rfl⟩ := Option.ite_some_none_eq_some.mp hs
    exact h.goto hp (h.lock_acquire hp hfree (fun _ => rfl) fun _ => rfl) (h.table_move hp rfl)
      nofun nofun nofun nofun nofun
  | test a =>
    dsimp only at hs
    split at hs
    case isTrue hlocked =>
      cases hs
      refine h.goto hp (h.lock_move hp fun _ => rfl) (h.table_move hp rfl) nofun nofun (fun b hb => ?_) nofun nofun
      rw [← beq_iff_eq.mp hb]
      exact hlocked
    case isFalse hfree =>
      cases hs
      have ht := h.take (p := p) (Bool.eq_false_iff.mpr hfree)
      exact ht.goto hp (ht.lock_release hp (fun _ => rfl) fun _ => rfl) (ht.table_move hp rfl)
        nofun nofun nofun nofun nofun
  | table a =>
    obtain ⟨hfree, rfl⟩ := Option.ite_some_none_eq_some.mp hs
    exact h.goto hp (h.lock_move hp fun _ => rfl) (h.table_acquire hfree rfl) nofun nofun
      (fun b hb => h.blocked b p (by rw [hp]; exact hb)) nofun nofun
  | unlockAsleep a =>
    cases hs
    refine h.goto hp (h.lock_release hp (fun _ => rfl) fun _ => rfl) (h.table_move hp rfl) nofun nofun nofun
      (fun b hb => ?_) nofun
    cases hb
    exact h.blocked a p (by rw [hp]; exact beq_self_eq_true a)
  | park a =>
    cases hs
    have hparks := h.parks (p := p) (.addr a) fun b hb => by
      cases hb
      exact ⟨h.park a p hp, h.home p (Or.inl (by rw [hp]; nofun))⟩
    exact hparks.goto hp (h.lock_move hp fun _ => rfl) (h.table_release hp rfl rfl) nofun nofun nofun nofun nofun
  | relock a =>
    obtain ⟨hfree, rfl⟩ := Option.ite_some_none_eq_some.mp hs
    exact h.goto hp (h.lock_acquire hp hfree (fun _ => rfl) fun _ => rfl) (h.table_move hp rfl) nofun
      (fun b hb => h.releasing b p (by rw [hp]; exact hb)) nofun nofun nofun
  | clear a =>
    cases hs
    exact h.clear hp
  | unlock a =>
    cases hs
    exact h.goto hp (h.lock_release hp (fun _ => rfl) fun _ => rfl) (h.table_move hp rfl)
      nofun nofun nofun nofun fun b hw => Or.inl hw
  | wakeup a =>
    obtain ⟨hfree, rfl⟩ := Option.ite_some_none_eq_some.mp hs
    exact h.goto hp (h.lock_move hp fun _ => rfl) (h.table_acquire hfree rfl) nofun nofun nofun nofun
      fun b hw => Or.inl hw
  | wake a =>
    cases hs
    refine h.wakes.goto hp (h.lock_move hp fun _ => rfl) (h.table_release hp rfl rfl) nofun nofun nofun nofun
      fun b hw => Or.inr ⟨fun q hq => ?_, fun q hq hc => ?_⟩
    · -- nobody is on the way to sleep, since `p` has the table
      have hq : s.place q = .park b := hq
      have hqp := h.table.exclusive (t := q) (u := p) (by rw [hq]; rfl) (by rw [hp]; rfl)
      rw [hqp, hp] at hq
      cases hq
    · -- and those asleep are woken
      have hold : (s.table.proc q).state = .sleeping := wakeup1_rouses.sleeping hq
      have hqp : q ≠ p := by
        intro he
        rw [he, hstate] at hold
        cases hold
      have hc : s.table.chan q = .addr b := hc
      have hqhome : q.1 = this := h.home q (Or.inr ⟨hold, by rw [hc]; rfl⟩)
      exact wakeup1_woken hqhome (fun he => hqp (Option.some.inj he).symm) (by rw [hc, ← beq_iff_eq.mp hw]) hq

theorem resume_other (hq : q ≠ p) {f : Family} :
    (f.resume p).proc q = f.proc q ∧ (f.resume p).chan q = f.chan q := by
  rw [Family.resume, Family.leaveSleep]
  generalize (f.setProc p fun q => {q with state := .running}).place p = place
  cases place with
  | outside => exact ⟨Family.proc_setProc_of_ne hq, rfl⟩
  | sleep | wait => exact ⟨Family.proc_setProc_of_ne hq, update_of_ne hq ..⟩

theorem resume_running {f : Family} : ((f.resume p).proc p).state = .running := by
  rw [Family.resume, Family.leaveSleep]
  split <;> exact congrArg Proc.state Family.proc_setProc

theorem Protocol.exec (h : Protocol this s) {e : LockStep} (hs : e.exec this s = some s') : Protocol this s' := by
  cases e with
  | acquire p a =>
    obtain ⟨⟨hhome, -, hp⟩, rfl⟩ := Option.ite_some_none_eq_some.mp hs
    exact h.goto hp (h.lock_move hp fun _ => rfl) (h.table_move hp rfl) (fun _ => hhome) nofun nofun nofun nofun
  | release p a =>
    obtain ⟨⟨hhome, -, hp, hin⟩, rfl⟩ := Option.ite_some_none_eq_some.mp hs
    refine h.goto hp (h.lock_move hp fun _ => rfl) (h.table_move hp rfl) (fun _ => hhome) (fun b hb => ?_)
      nofun nofun nofun
    rw [← beq_iff_eq.mp hb]
    exact hin
  | advance p =>
    obtain ⟨hstate, he⟩ := Option.ite_none_right_eq_some.mp hs
    exact h.advance hstate he
  | run p =>
    obtain ⟨-, he⟩ := Option.ite_none_right_eq_some.mp hs
    have hrun : Protocol this {s with table := s.table.resume p} :=
      h.awake (p := p) (by rw [resume_running]; nofun) fun q hq => resume_other hq
    generalize hp : s.place p = place at he
    cases place with
    | parked a =>
      cases he
      exact hrun.goto hp (h.lock_move hp fun _ => rfl) (h.table_move hp rfl) nofun nofun nofun nofun nofun
    | _ =>
      cases he
      exact hrun
  | yield p =>
    obtain ⟨-, rfl⟩ := Option.ite_some_none_eq_some.mp hs
    exact h.awake (p := p) (by rw [Family.proc_setProc]; nofun) fun q hq => ⟨Family.proc_setProc_of_ne hq, rfl⟩
  | sleep p chan =>
    obtain ⟨⟨-, -, -, hchan⟩, rfl⟩ := Option.ite_some_none_eq_some.mp hs
    refine h.parks _ fun a ha => ?_
    rw [ha] at hchan
    cases hchan
  | wakeup p chan =>
    obtain ⟨-, rfl⟩ := Option.ite_some_none_eq_some.mp hs
    exact h.wakes

/-- **Sleeplocks exclude, and no wakeup is lost.** At most one process is between its acquire
and its release of a lock. While a process is asleep on a lock, some process has it, or has
cleared it and not finished its wakeup. -/
theorem sleeplock_protocol (this : Nat) {procs : Containers}
    (hrun : Reach (fun s e s' => LockStep.exec this s e = some s') (fun _ _ => True) (.start procs) s) :
    (∀ a p q, s.inside a p = true → s.inside a q = true → p = q) ∧
    ∀ a p, (s.table.proc p).state = .sleeping → s.table.chan p = .addr a →
      s.locked a = true ∧ (∃ q, s.inside a q = true) ∨ ∃ q, (s.place q).waker a = true := by
  have h : Protocol this s := hrun.invariant (protocol_start procs) fun _ _ _ h _ hs => h.exec hs
  refine ⟨h.one, fun a p hs hc => ?_⟩
  exact (h.asleep a p hs hc).imp_left fun hlocked => ⟨hlocked, h.owner a hlocked⟩

/-- Process 1 sleeps on a lock that process 0 has just cleared. -/
theorem sleeplock_protocol_cleared : ∃ s, Reach (fun s e s' => LockStep.exec 0 s e = some s') (fun _ _ => True)
    (.start twoRunning) s ∧ (s.table.proc (0, 1)).state = .sleeping ∧ s.locked 5 = false ∧
    ∃ q, (s.place q).waker 5 = true := by
  have hany : (runAll (LockStep.exec 0) (fun _ _ => True) (.start twoRunning)
      ([.acquire (0, 0) 5, .advance (0, 0), .advance (0, 0), .acquire (0, 1) 5] ++
        List.replicate 5 (.advance (0, 1)) ++ [.release (0, 0) 5, .advance (0, 0), .advance (0, 0)])).any
      (fun s => (s.table.proc (0, 1)).state = .sleeping ∧ s.table.chan (0, 1) = .addr 5 ∧ s.locked 5 = false)
      = true := by
    decide +kernel
  obtain ⟨s, hreach, htest⟩ := Reach.exists_of_any hany
  obtain ⟨hs, hc, hlocked⟩ := of_decide_eq_true htest
  refine ⟨s, hreach, hs, hlocked, ?_⟩
  refine ((sleeplock_protocol 0 hreach).2 5 (0, 1) hs hc).resolve_left fun hheld => ?_
  rw [hlocked] at hheld
  cases hheld.1

end OS2021.Core
