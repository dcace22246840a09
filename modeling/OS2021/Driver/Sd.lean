import Mathlib.Data.Fintype.Basic
import OS2021.Driver.Buf
import OS2021.Lib.Runs

/-! The requests to the SD card (`sdrw` and `sd_intr` of `driver/sd.c`).

Any number of threads put requests into one queue. The card works on one request at
a time: the first of the queue is started when it gets there, by `sdrw` if the queue
was empty and by the interrupt of the request before it if not. What happens under
`qlock` is one step; `sdlock` is only ever taken inside it. A thread in `sdrw` sleeps
on its buffer until the buffer is `B_VALID`.

The card finishes a request by moving the data and raising the interrupt of its
direction. `pushed`, `started` and `done` record the requests in the order in which
each happened to them.

The threads here are those of one container. `wakeup` of the kernel searches only the table of
the container it runs in (`Core/Family`); of the threads of another container what is said here
about the queue, the buffers and the order holds as well, but that they are awake does not. -/
namespace OS2021.Driver
open Fs (BlockData)
open Lib Function

abbrev bValid : UInt32 := 0x2
abbrev bDirty : UInt32 := 0x4

/-- `flags & B_DIRTY`: the request is a write. -/
def Buf.dirty (b : Buf) : Bool := b.flags &&& bDirty != 0

/-- What `EMMC_INTERRUPT` may hold, if it is not 0. -/
inductive Interrupt where
  | readRdy
  | dataDone
  | other
  deriving DecidableEq

/-- The interrupt that ends a request of this direction. -/
def Interrupt.ends (write : Bool) : Interrupt := if write then .dataDone else .readRdy

/-- A request as the card got it. -/
structure Flight where
  write : Bool
  bno : UInt32
  data : BlockData

structure Card where
  /-- `sdCard.type == SD_TYPE_2_HC` -/
  hc : Bool
  disk : UInt32 → BlockData
  flight : Option Flight
  interrupt : Option Interrupt
  /-- What the next 128 reads of `EMMC_DATA` give. -/
  fifo : BlockData

/-- A thread in the loop of `sdrw`: its buffer and the number of its request. -/
structure Wait where
  b : Addr
  ticket : Nat
  asleep : Bool
  deriving DecidableEq

structure Sd (ι : Type) where
  bufs : Bufs
  card : Card
  place : ι → Option Wait
  pushed : List Addr
  started : List Addr
  done : List Addr

namespace Sd
variable {ι : Type}

/-! ### The driver -/

def sdStart (s : Sd ι) (b : Addr) : Except Stop (Sd ι) :=
  let buf := s.bufs.mem b
  let bno := if s.card.hc then buf.blockno else buf.blockno <<< 9
  if s.card.interrupt.isSome then .error .pending
  else .ok {s with
    card := {s.card with flight := some ⟨buf.dirty, bno, buf.data⟩}
    started := s.started ++ [b]}

/-- `wakeup(b)`, of every thread: all of them are in the container the interrupt comes to. -/
def wakeup (s : Sd ι) (b : Addr) : Sd ι :=
  {s with place := fun x => (s.place x).map fun w => if w.b = b then {w with asleep := false} else w}

/-- `sd_intr` once it has the request: the data of a read, the flag and the wakeup. -/
def finish (s : Sd ι) (b : Addr) : Sd ι :=
  let data := if (s.bufs.mem b).dirty then (s.bufs.mem b).data else s.card.fifo
  {s with bufs := s.bufs.set b fun buf => {buf with data, flags := bValid}}.wakeup b

/-- The rest of `sd_intr`: the next request, if there is one, is started. -/
def advance (s : Sd ι) (b : Addr) : Except Stop (Sd ι) := do
  let bufs ← s.bufs.pop
  let t := {s with bufs, done := s.done ++ [b]}
  if bufs.empty then return t
  else do
    let next ← bufs.front
    t.sdStart next

def sdIntr (s : Sd ι) : Except Stop (Sd ι) :=
  if s.bufs.empty then .ok s
  else do
    let bid ← s.bufs.front
    match s.card.interrupt with
    | none | some .other => .error .unknown
    | some i =>
      if i ≠ .ends (s.bufs.mem bid).dirty then .error .mismatch
      else ({s with card := {s.card with interrupt := none}}.finish bid).advance bid

/-- The test of the loop of `sdrw`: the call returns or its thread sleeps. -/
def check [DecidableEq ι] (s : Sd ι) (x : ι) (w : Wait) : Sd ι :=
  let w' := if (s.bufs.mem w.b).flags = bValid then none else some {w with asleep := true}
  {s with place := update s.place x w'}

/-- The first half of `sdrw`: the buffer goes into the queue, and is started if it is alone there. -/
def enqueue (s : Sd ι) (b : Addr) : Except Stop (Sd ι) :=
  if s.bufs.empty then do
    let bufs ← s.bufs.push b
    let front ← bufs.front
    {s with bufs, pushed := s.pushed ++ [b]}.sdStart front
  else do
    let bufs ← s.bufs.push b
    return {s with bufs, pushed := s.pushed ++ [b]}

/-- `sdrw` up to its first sleep. -/
def sdrw [DecidableEq ι] (s : Sd ι) (x : ι) (b : Addr) : Except Stop (Sd ι) := do
  let t ← s.enqueue b
  return t.check x ⟨b, s.pushed.length, false⟩

/-! ### Runs -/

inductive Act (ι : Type) where
  /-- Memory that is in no request is written. -/
  | fill (b : Addr) (v : Buf)
  | call (x : ι) (b : Addr)
  | resume (x : ι)
  /-- The card is done with its request. -/
  | complete
  | intr

/-- The card moves the data and raises its interrupt. -/
def Card.complete (c : Card) : Card :=
  match c.flight with
  | none => c
  | some f => {c with
    disk := if f.write then update c.disk f.bno f.data else c.disk
    fifo := if f.write then c.fifo else c.disk f.bno
    flight := none
    interrupt := some (.ends f.write)}

def exec [DecidableEq ι] (s : Sd ι) : Act ι → Except Stop (Sd ι)
  | .fill b v => .ok {s with bufs := s.bufs.set b fun _ => v}
  | .call x b => s.sdrw x b
  | .resume x =>
    match s.place x with
    | none => .ok s
    | some w => .ok (s.check x w)
  | .complete => .ok {s with card := Card.complete s.card}
  | .intr => s.sdIntr

/-- Nobody is in `sdrw` with this buffer. -/
def Unused (s : Sd ι) (b : Addr) : Prop := ∀ x, ∀ w ∈ s.place x, w.b ≠ b

instance [Fintype ι] (s : Sd ι) (b : Addr) : Decidable (s.Unused b) :=
  inferInstanceAs (Decidable (∀ x, ∀ w ∈ s.place x, w.b ≠ b))

/-- One caller a buffer, a request that is clean or dirty but not just valid, a thread that
has been woken, and one interrupt for each request the card was given. -/
def Allowed (s : Sd ι) : Act ι → Prop
  | .fill b _ => s.Unused b
  | .call x b => s.place x = none ∧ s.Unused b ∧ ((s.bufs.mem b).flags = 0 ∨ (s.bufs.mem b).dirty = true)
  | .resume x => ∃ w ∈ s.place x, w.asleep = false
  | .complete => s.card.flight.isSome = true
  | .intr => s.card.interrupt.isSome = true ∨ s.bufs.sz = 0

instance [Fintype ι] (s : Sd ι) : (a : Act ι) → Decidable (s.Allowed a)
  | .fill b _ => inferInstanceAs (Decidable (s.Unused b))
  | .call x b => inferInstanceAs (Decidable (s.place x = none ∧ s.Unused b ∧ _))
  | .resume x => inferInstanceAs (Decidable (∃ w ∈ s.place x, w.asleep = false))
  | .complete => inferInstanceAs (Decidable (_ = true))
  | .intr => inferInstanceAs (Decidable (_ ∨ _))

/-- A step that does not panic. -/
def step [DecidableEq ι] (s : Sd ι) (a : Act ι) : Option (Sd ι) := (s.exec a).toOption

/-- The driver after `sd_init`: the memory and the disk may hold anything. -/
def start (ι : Type) (mem : Addr → Buf) (disk : UInt32 → BlockData) (hc : Bool) : Sd ι :=
  ⟨Bufs.initBufQueue ⟨mem, none, none, 0⟩, ⟨hc, disk, none, none, fun _ => 0⟩, fun _ => none, [], [], []⟩

/-- What `sd_read` puts on its stack; the links are whatever was there. -/
def sdRead (blockNo : UInt64) (stale : Buf) : Buf := {stale with blockno := blockNo.toUInt32, flags := 0}

/-- What `sd_write` puts on its stack. -/
def sdWrite (blockNo : UInt64) (data : BlockData) (stale : Buf) : Buf :=
  {stale with blockno := blockNo.toUInt32, flags := bDirty ||| bValid, data}

/-! ### The invariant -/

/-- The requests that are not completed, in the order of their pushes. -/
def queue (s : Sd ι) : List Addr := s.pushed.drop s.done.length

/-- The card works on a request of this direction, or has raised its interrupt. -/
def InFlight (c : Card) (write : Bool) : Prop :=
  (∃ f, c.flight = some f ∧ f.write = write ∧ c.interrupt = none) ∨
    c.flight = none ∧ c.interrupt = some (.ends write)

structure Served (s : Sd ι) : Prop where
  done : s.done <+: s.pushed
  spells : Spells s.bufs s.queue
  started : s.started = s.done ++ s.queue.take 1
  idle : s.queue = [] → s.card.flight = none ∧ s.card.interrupt = none
  busy : ∀ b ∈ s.queue.head?, InFlight s.card (s.bufs.mem b).dirty
  ticket : ∀ x w, s.place x = some w → s.pushed[w.ticket]? = some w.b
  served : ∀ x w, s.place x = some w → w.ticket < s.done.length →
    (s.bufs.mem w.b).flags = bValid ∧ w.asleep = false
  unserved : ∀ x w, s.place x = some w → s.done.length ≤ w.ticket → (s.bufs.mem w.b).flags ≠ bValid
  owned : ∀ k, s.done.length ≤ k → k < s.pushed.length → ∃ x w, s.place x = some w ∧ w.ticket = k
  single : ∀ x y w w', s.place x = some w → s.place y = some w' → w.b = w'.b → x = y

variable {s s' : Sd ι} {b : Addr} {x : ι}

theorem Served.pushed_eq (h : s.Served) : s.pushed = s.done ++ s.queue := by
  obtain ⟨t, ht⟩ := h.done
  rw [queue, ← ht, List.drop_left]

/-- A buffer of the queue belongs to a thread in `sdrw`. -/
theorem Served.owner (h : s.Served) (hb : b ∈ s.queue) : ∃ x w, s.place x = some w ∧ w.b = b := by
  obtain ⟨i, hi⟩ := List.mem_iff_getElem?.mp hb
  rw [queue, List.getElem?_drop] at hi
  obtain ⟨hlt, -⟩ := List.getElem?_eq_some_iff.mp hi
  obtain ⟨x, w, hx, hw⟩ := h.owned _ (Nat.le_add_right ..) hlt
  have hticket := h.ticket x w hx
  rw [hw, hi] at hticket
  exact ⟨x, w, hx, (Option.some.inj hticket).symm⟩

theorem Served.not_queued (h : s.Served) (hu : s.Unused b) : b ∉ s.queue := fun hb => by
  obtain ⟨x, w, hx, rfl⟩ := h.owner hb
  exact hu x w hx rfl

theorem served_start (mem : Addr → Buf) (disk : UInt32 → BlockData) (hc : Bool) :
    (start ι mem disk hc).Served where
  done := List.prefix_rfl
  spells := spells_init _
  started := rfl
  idle _ := ⟨rfl, rfl⟩
  busy _ hb := nomatch hb
  ticket _ _ h := nomatch h
  served _ _ h := nomatch h
  unserved _ _ h := nomatch h
  owned k _ hk := absurd hk (Nat.not_lt_zero k)
  single _ _ _ _ h := nomatch h

/-! ### The steps -/

theorem Served.fill (h : s.Served) (hu : s.Unused b) (v : Buf) :
    Served {s with bufs := s.bufs.set b fun _ => v} := by
  have hkeep : ∀ a, a ≠ b → (s.bufs.set b fun _ => v).mem a = s.bufs.mem a := fun a ha => set_of_ne ha
  have hq : ∀ a ∈ s.queue, a ≠ b := fun a ha he => h.not_queued hu (he ▸ ha)
  refine ⟨h.done, ?_, h.started, h.idle, fun a ha => ?_, h.ticket, fun x w hx hlt => ?_, fun x w hx hle => ?_,
    h.owned, h.single⟩
  · exact h.spells.congr rfl rfl rfl fun a ha => by rw [hkeep a (hq a ha)]; exact ⟨rfl, rfl⟩
  · show InFlight s.card ((s.bufs.set b fun _ => v).mem a).dirty
    rw [hkeep a (hq a (List.mem_of_mem_head? ha))]
    exact h.busy a ha
  · show ((s.bufs.set b fun _ => v).mem w.b).flags = _ ∧ _
    rw [hkeep _ (hu x w hx)]
    exact h.served x w hx hlt
  · show ((s.bufs.set b fun _ => v).mem w.b).flags ≠ _
    rw [hkeep _ (hu x w hx)]
    exact h.unserved x w hx hle

theorem Served.complete (h : s.Served) : Served {s with card := Card.complete s.card} := by
  refine ⟨h.done, h.spells, h.started, fun hq => ?_, fun b hb => ?_, h.ticket, h.served, h.unserved, h.owned,
    h.single⟩
  · obtain ⟨hflight, hint⟩ := h.idle hq
    show (Card.complete s.card).flight = none ∧ (Card.complete s.card).interrupt = none
    rw [Card.complete, hflight]
    exact ⟨hflight, hint⟩
  · show InFlight (Card.complete s.card) (s.bufs.mem b).dirty
    rcases h.busy b hb with ⟨f, hf, hw, -⟩ | ⟨hf, hi⟩
    · rw [Card.complete, hf]
      exact Or.inr ⟨rfl, congrArg (fun w => some (Interrupt.ends w)) hw⟩
    · rw [Card.complete, hf]
      exact Or.inr ⟨hf, hi⟩

theorem sdStart_eq (hi : s.card.interrupt = none) (b : Addr) :
    ∃ f, f.write = (s.bufs.mem b).dirty ∧ s.sdStart b =
      .ok {s with card := {s.card with flight := some f}, started := s.started ++ [b]} := by
  refine ⟨⟨_, _, _⟩, ?_, by rw [sdStart, hi]; rfl⟩
  rfl

theorem SamePayload.dirty {bufs bufs' : Bufs} (h : SamePayload bufs bufs') (a : Addr) :
    (bufs'.mem a).dirty = (bufs.mem a).dirty := by
  rw [Buf.dirty, Buf.dirty, h.flags]

theorem Served.queue_push (h : s.Served) (b : Addr) : (s.pushed ++ [b]).drop s.done.length = s.queue ++ [b] :=
  List.drop_append_of_le_length h.done.length_le

section Calls
variable [DecidableEq ι]

/-- A thread joins the queue; whether the card is started now is up to what was there. -/
theorem Served.join (h : s.Served) (hx : s.place x = none) (hu : s.Unused b)
    (hflags : (s.bufs.mem b).flags ≠ bValid) {bufs : Bufs} (hspells : Spells bufs (s.queue ++ [b]))
    (hpay : SamePayload s.bufs bufs) {card : Card} {started : List Addr}
    (hstarted : started = s.done ++ (s.queue ++ [b]).take 1)
    (hbusy : ∀ a ∈ (s.queue ++ [b]).head?, InFlight card (bufs.mem a).dirty) :
    Served ⟨bufs, card, update s.place x (some ⟨b, s.pushed.length, true⟩), s.pushed ++ [b], started,
      s.done⟩ := by
  have hqueue : queue ⟨bufs, card, update s.place x (some ⟨b, s.pushed.length, true⟩), s.pushed ++ [b],
      started, s.done⟩ = s.queue ++ [b] := h.queue_push b
  have hle : s.done.length ≤ s.pushed.length := h.done.length_le
  -- whoever is in `sdrw` afterwards is the new thread or was there before
  have hcases : ∀ y w, update s.place x (some ⟨b, s.pushed.length, true⟩) y = some w →
      y = x ∧ w = ⟨b, s.pushed.length, true⟩ ∨ s.place y = some w := fun y w hy => by
    by_cases hyx : y = x
    · subst hyx
      rw [update_self] at hy
      exact Or.inl ⟨rfl, (Option.some.inj hy).symm⟩
    · rw [update_of_ne hyx] at hy
      exact Or.inr hy
  refine ⟨h.done.trans (List.prefix_append ..), ?_, ?_, fun hnil => ?_, fun a ha => ?_, fun y w hy => ?_,
    fun y w hy hlt => ?_, fun y w hy hle' => ?_, fun k hk hlt => ?_, fun y z w w' hy hz he => ?_⟩
  · rw [hqueue]
    exact hspells
  · rw [hqueue]
    exact hstarted
  · rw [hqueue] at hnil
    simp at hnil
  · rw [hqueue] at ha
    exact hbusy a ha
  · rcases hcases y w hy with ⟨-, rfl⟩ | hy
    · simp
    · have hold := h.ticket y w hy
      obtain ⟨hlt, -⟩ := List.getElem?_eq_some_iff.mp hold
      show (s.pushed ++ [b])[w.ticket]? = _
      rw [List.getElem?_append_left hlt, hold]
  · rcases hcases y w hy with ⟨-, rfl⟩ | hy
    · exact absurd hlt (not_lt.mpr hle)
    · obtain ⟨hf, ha⟩ := h.served y w hy hlt
      exact ⟨(hpay.flags _).trans hf, ha⟩
  · show (bufs.mem w.b).flags ≠ bValid
    rw [hpay.flags]
    rcases hcases y w hy with ⟨-, rfl⟩ | hy
    · exact hflags
    · exact h.unserved y w hy hle'
  · by_cases hnew : k < s.pushed.length
    · obtain ⟨y, w, hy, hw⟩ := h.owned k hk hnew
      have hyx : y ≠ x := fun he => by
        rw [he, hx] at hy
        cases hy
      exact ⟨y, w, (update_of_ne hyx ..).trans hy, hw⟩
    · have hk' : k = s.pushed.length := by
        have : k < (s.pushed ++ [b]).length := hlt
        simp at this
        omega
      exact ⟨x, _, update_self .., hk'.symm⟩
  · rcases hcases y w hy with ⟨hyx, rfl⟩ | hold <;> rcases hcases z w' hz with ⟨hzx, rfl⟩ | hold'
    · exact hyx.trans hzx.symm
    · exact absurd he.symm (hu z w' hold')
    · exact absurd he (hu y w hold)
    · exact h.single y z w w' hold hold' he

/-- A new request is neither finished nor mistaken for a finished one. -/
theorem flags_ne {buf : Buf} (h : buf.flags = 0 ∨ buf.dirty = true) : buf.flags ≠ bValid := by
  intro he
  rw [Buf.dirty, he] at h
  exact absurd h (by decide)

theorem check_waits {w : Wait} (h : (s.bufs.mem w.b).flags ≠ bValid) :
    s.check x w = {s with place := update s.place x (some {w with asleep := true})} := by
  rw [check, if_neg h]

theorem Served.call (h : s.Served) (hx : s.place x = none) (hu : s.Unused b)
    (hf : (s.bufs.mem b).flags = 0 ∨ (s.bufs.mem b).dirty = true) :
    ∃ s', s.sdrw x b = .ok s' ∧ s'.Served ∧ (s'.place x).isSome = true := by
  have hflags := flags_ne hf
  have hin : ∀ w : Wait, (update s.place x (some w) x).isSome = true := fun w => by
    rw [update_self]
    rfl
  obtain ⟨bufs, hpush, hspells, hpay⟩ := h.spells.push (h.not_queued hu)
  have hcheck : (bufs.mem b).flags ≠ bValid := by rwa [hpay.flags]
  cases hq : s.queue with
  | nil =>
    have hempty : s.bufs.empty = true := h.spells.empty.mpr hq
    obtain ⟨-, hi⟩ := h.idle hq
    obtain ⟨f, hfw, hstart⟩ := sdStart_eq (s := {s with bufs, pushed := s.pushed ++ [b]}) hi b
    have hfront : bufs.front = .ok b := by
      rw [hq] at hspells
      exact hspells.front
    have henq : s.enqueue b = .ok {s with
        bufs, pushed := s.pushed ++ [b], card := {s.card with flight := some f}, started := s.started ++ [b]} := by
      rw [enqueue, if_pos hempty, hpush]
      show (bufs.front >>= Sd.sdStart _) = _
      rw [hfront]
      exact hstart
    refine ⟨_, by rw [sdrw, henq]; exact congrArg Except.ok (check_waits hcheck),
      h.join hx hu hflags hspells hpay ?_ ?_, hin _⟩
    · rw [h.started, hq]
      simp
    · rw [hq]
      intro a ha
      cases ha
      exact Or.inl ⟨f, rfl, hfw, hi⟩
  | cons c rest =>
    have hempty : ¬ s.bufs.empty = true := fun he => by
      rw [h.spells.empty.mp he] at hq
      cases hq
    have henq : s.enqueue b = .ok {s with bufs, pushed := s.pushed ++ [b]} := by
      rw [enqueue, if_neg hempty, hpush]
      rfl
    refine ⟨_, by rw [sdrw, henq]; exact congrArg Except.ok (check_waits hcheck),
      h.join hx hu hflags hspells hpay ?_ ?_, hin _⟩
    · rw [h.started, hq]
      rfl
    · intro a ha
      rw [hq] at ha
      cases ha
      show InFlight s.card (bufs.mem c).dirty
      rw [SamePayload.dirty hpay]
      exact h.busy c (by rw [hq]; rfl)

/-- Who is in `sdrw` after a thread has looked at its buffer: it has left if the buffer is
valid, and sleeps again if not. -/
theorem check_place {w v : Wait} {y : ι} (h : (s.check x w).place y = some v) :
    y = x ∧ (s.bufs.mem w.b).flags ≠ bValid ∧ v = {w with asleep := true} ∨ y ≠ x ∧ s.place y = some v := by
  have hplace : (s.check x w).place y = if y = x then
      (if (s.bufs.mem w.b).flags = bValid then none else some {w with asleep := true}) else s.place y :=
    update_apply ..
  rw [hplace] at h
  split at h
  case isTrue hy =>
    split at h
    case isTrue => cases h
    case isFalse hf => exact Or.inl ⟨hy, hf, (Option.some.inj h).symm⟩
  case isFalse hy => exact Or.inr ⟨hy, h⟩

theorem Served.check (h : s.Served) {w : Wait} (hx : s.place x = some w) : (s.check x w).Served where
  done := h.done
  spells := h.spells
  started := h.started
  idle := h.idle
  busy := h.busy
  ticket y v hy := by
    rcases check_place hy with ⟨-, -, rfl⟩ | ⟨-, hold⟩
    · exact h.ticket x w hx
    · exact h.ticket y v hold
  served y v hy hlt := by
    rcases check_place hy with ⟨-, hf, rfl⟩ | ⟨-, hold⟩
    · exact absurd (h.served x w hx hlt).1 hf
    · exact h.served y v hold hlt
  unserved y v hy hle := by
    rcases check_place hy with ⟨-, hf, rfl⟩ | ⟨-, hold⟩
    · exact hf
    · exact h.unserved y v hold hle
  owned k hk hlt := by
    obtain ⟨y, v, hy, hv⟩ := h.owned k hk hlt
    by_cases hyx : y = x
    · -- a request in the queue keeps its thread in the loop
      subst hyx
      obtain rfl : w = v := Option.some.inj (hx.symm.trans hy)
      have hf : (s.bufs.mem w.b).flags ≠ bValid := h.unserved y w hx (hv ▸ hk)
      exact ⟨y, {w with asleep := true}, by rw [check_waits hf]; exact update_self .., hv⟩
    · exact ⟨y, v, (update_of_ne hyx ..).trans hy, hv⟩
  single y z v v' hy hz he := by
    rcases check_place hy with ⟨hyx, -, rfl⟩ | ⟨-, hold⟩ <;> rcases check_place hz with ⟨hzx, -, rfl⟩ | ⟨-, hold'⟩
    · exact hyx.trans hzx.symm
    · exact hyx.trans (h.single x z w v' hx hold' he)
    · exact (h.single y x v w hold hx he).trans hzx.symm
    · exact h.single y z v v' hold hold' he

end Calls

/-! ### The interrupt -/

theorem finish_mem (s : Sd ι) (b a : Addr) : (s.finish b).bufs.mem a =
    if a = b then {s.bufs.mem b with
      data := if (s.bufs.mem b).dirty then (s.bufs.mem b).data else s.card.fifo, flags := bValid}
    else s.bufs.mem a :=
  update_apply ..

theorem finish_flags (s : Sd ι) (b a : Addr) :
    ((s.finish b).bufs.mem a).flags = if a = b then bValid else (s.bufs.mem a).flags := by
  rw [finish_mem]
  split <;> rfl

theorem finish_spells {l : List Addr} (h : Spells s.bufs l) (b : Addr) : Spells (s.finish b).bufs l := by
  refine h.congr rfl rfl rfl fun a _ => ?_
  rw [finish_mem]
  split
  case isTrue he =>
    subst he
    exact ⟨rfl, rfl⟩
  case isFalse => exact ⟨rfl, rfl⟩

/-- Who is in `sdrw` stays there; the thread of the finished request is awake. -/
theorem finish_place {w : Wait} (h : (s.finish b).place x = some w) :
    ∃ v, s.place x = some v ∧ w.b = v.b ∧ w.ticket = v.ticket ∧
      (v.b = b → w.asleep = false) ∧ (v.asleep = false → w.asleep = false) := by
  obtain ⟨v, hv, rfl⟩ := Option.map_eq_some_iff.mp h
  refine ⟨v, hv, ?_⟩
  split
  case isTrue => exact ⟨rfl, rfl, fun _ => rfl, fun _ => rfl⟩
  case isFalse hne => exact ⟨rfl, rfl, fun he => absurd he hne, id⟩

theorem finish_stays {v : Wait} (h : s.place x = some v) :
    ∃ w, (s.finish b).place x = some w ∧ w.ticket = v.ticket := by
  refine ⟨if v.b = b then {v with asleep := false} else v, ?_, by split <;> rfl⟩
  show (s.place x).map _ = _
  rw [h]
  rfl

/-- The first request is finished; whether the card is started again is up to what is left. -/
theorem Served.finished (h : s.Served) {rest : List Addr} (hq : s.queue = b :: rest) {bufs : Bufs}
    (hspells : Spells bufs rest) (hpay : SamePayload (s.finish b).bufs bufs) (card : Card) (started : List Addr)
    (hstarted : started = s.done ++ [b] ++ rest.take 1)
    (hidle : rest = [] → card.flight = none ∧ card.interrupt = none)
    (hbusy : ∀ a ∈ rest.head?, InFlight card (bufs.mem a).dirty) :
    Served ⟨bufs, card, (s.finish b).place, s.pushed, started, s.done ++ [b]⟩ := by
  have hfirst : s.pushed[s.done.length]? = some b := by
    rw [← Nat.add_zero s.done.length, ← List.getElem?_drop]
    exact congrArg (fun l : List Addr => l[0]?) hq
  have hqueue : queue ⟨bufs, card, (s.finish b).place, s.pushed, started, s.done ++ [b]⟩ = rest := by
    show s.pushed.drop (s.done ++ [b]).length = rest
    have htail : (s.pushed.drop s.done.length).tail = rest := congrArg List.tail hq
    rw [List.length_append, ← List.drop_drop]
    simpa using htail
  have hflags : ∀ a, (bufs.mem a).flags = if a = b then bValid else (s.bufs.mem a).flags := fun a => by
    rw [hpay.flags, finish_flags]
  have hlen : (s.done ++ [b]).length = s.done.length + 1 := by simp
  -- the thread of the first request is the only one with its buffer
  have hmine : ∀ y v, s.place y = some v → v.b = b → v.ticket = s.done.length := fun y v hy hvb => by
    obtain ⟨hlt, -⟩ := List.getElem?_eq_some_iff.mp hfirst
    obtain ⟨x, w, hx, hw⟩ := h.owned s.done.length le_rfl hlt
    have hwb : w.b = b := by
      have hticket := h.ticket x w hx
      rw [hw, hfirst] at hticket
      exact (Option.some.inj hticket).symm
    obtain rfl := h.single y x v w hy hx (hvb.trans hwb.symm)
    obtain rfl := Option.some.inj (hy.symm.trans hx)
    exact hw
  have hother : ∀ y v, s.place y = some v → v.b ≠ b → v.ticket ≠ s.done.length := fun y v hy hvb he => by
    have hticket := h.ticket y v hy
    rw [he, hfirst] at hticket
    exact hvb (Option.some.inj hticket).symm
  refine ⟨?_, ?_, ?_, fun hnil => hidle (hqueue.symm.trans hnil), fun a ha => hbusy a (hqueue ▸ ha), fun y w hy => ?_,
    fun y w hy hlt => ?_, fun y w hy hle => ?_, fun k hk hlt => ?_, fun y z w w' hy hz he => ?_⟩
  · exact ⟨rest, by rw [h.pushed_eq, hq, List.append_assoc]; rfl⟩
  · rw [hqueue]
    exact hspells
  · rw [hqueue]
    exact hstarted
  · obtain ⟨v, hv, hwb, hwt, -, -⟩ := finish_place hy
    rw [hwt, hwb]
    exact h.ticket y v hv
  · obtain ⟨v, hv, hwb, hwt, hwake, hstay⟩ := finish_place hy
    show (bufs.mem w.b).flags = bValid ∧ w.asleep = false
    rw [hflags, hwb]
    by_cases hvb : v.b = b
    · rw [if_pos hvb]
      exact ⟨rfl, hwake hvb⟩
    · have hne := hother y v hv hvb
      have hlt' : w.ticket < s.done.length + 1 := hlen ▸ hlt
      obtain ⟨hf, ha⟩ := h.served y v hv (by omega)
      rw [if_neg hvb]
      exact ⟨hf, hstay ha⟩
  · obtain ⟨v, hv, hwb, hwt, -, -⟩ := finish_place hy
    have hle' : s.done.length + 1 ≤ w.ticket := hlen ▸ hle
    have hvb : v.b ≠ b := fun he => by
      have := hmine y v hv he
      omega
    show (bufs.mem w.b).flags ≠ bValid
    rw [hflags, hwb, if_neg hvb]
    exact h.unserved y v hv (by omega)
  · have hk' : s.done.length + 1 ≤ k := hlen ▸ hk
    obtain ⟨y, v, hv, hvt⟩ := h.owned k (by omega) hlt
    obtain ⟨w, hw, hwt⟩ := finish_stays (b := b) hv
    exact ⟨y, w, hw, hwt.trans hvt⟩
  · obtain ⟨v, hv, hwb, -⟩ := finish_place hy
    obtain ⟨v', hv', hwb', -⟩ := finish_place hz
    exact h.single y z v v' hv hv' (hwb.symm.trans (he.trans hwb'))

/-- The interrupt of the first request finishes it and starts the next one. -/
theorem Served.intr (h : s.Served) (hi : s.card.interrupt.isSome = true ∨ s.bufs.sz = 0) :
    ∃ s', s.sdIntr = .ok s' ∧ s'.Served := by
  cases hq : s.queue with
  | nil => exact ⟨s, by rw [sdIntr, if_pos (h.spells.empty.mpr hq)], h⟩
  | cons b rest =>
    have hspells := h.spells
    rw [hq] at hspells
    have hempty : ¬ s.bufs.empty = true := fun he => by
      rw [h.spells.empty.mp he] at hq
      cases hq
    have hsz : s.bufs.sz ≠ 0 := by simp [hspells.sz]
    -- the interrupt is that of the first request
    obtain ⟨hflight, hint⟩ : s.card.flight = none ∧ s.card.interrupt = some (.ends (s.bufs.mem b).dirty) := by
      rcases h.busy b (by rw [hq]; rfl) with ⟨f, -, -, hnone⟩ | hdone
      · rw [hnone] at hi
        exact absurd hi (by simp [hsz])
      · exact hdone
    have hrun : s.sdIntr = ({s with card := {s.card with interrupt := none}}.finish b).advance b := by
      rw [sdIntr, if_neg hempty, hspells.front, hint]
      show (match some (Interrupt.ends (s.bufs.mem b).dirty) with
        | none | some .other => _
        | some i => if i ≠ Interrupt.ends (s.bufs.mem b).dirty then _ else _) = _
      cases (s.bufs.mem b).dirty <;> rfl
    obtain ⟨bufs, hpop, hrest, hpay⟩ := (finish_spells hspells b).pop
    have hbufs : ({s with card := {s.card with interrupt := none}}.finish b).bufs.pop = .ok bufs := hpop
    have hstarted : s.started = s.done ++ [b] := by rw [h.started, hq]; rfl
    cases rest with
    | nil =>
      have hlast : bufs.empty = true := hrest.empty.mpr rfl
      refine ⟨_, ?_, h.finished hq hrest hpay {s.card with interrupt := none} s.started
        (by simpa using hstarted) (fun _ => ⟨hflight, rfl⟩) fun _ ha => nomatch ha⟩
      rw [hrun, advance, hbufs]
      show (if bufs.empty then _ else _) = _
      rw [if_pos hlast]
      rfl
    | cons c rest =>
      have hmore : ¬ bufs.empty = true := fun he => nomatch hrest.empty.mp he
      obtain ⟨f, hfw, hstart⟩ := sdStart_eq (s := {s.finish b with
        bufs, card := {s.card with interrupt := none}, done := s.done ++ [b]}) rfl c
      refine ⟨_, ?_, h.finished hq hrest hpay {s.card with interrupt := none, flight := some f}
        (s.started ++ [c]) (by rw [hstarted]; rfl) (fun hnil => nomatch hnil) fun a ha => ?_⟩
      · rw [hrun, advance, hbufs]
        show (if bufs.empty then _ else bufs.front >>= Sd.sdStart _) = _
        rw [if_neg hmore, hrest.front]
        exact hstart
      · cases ha
        exact Or.inl ⟨f, rfl, hfw, rfl⟩

section Runs
variable [DecidableEq ι]

/-- Every step that is allowed is taken, and keeps the invariant. -/
theorem Served.step (h : s.Served) {a : Act ι} (hok : s.Allowed a) : ∃ s', s.exec a = .ok s' ∧ s'.Served := by
  cases a with
  | fill b v => exact ⟨_, rfl, h.fill hok v⟩
  | call x b =>
    obtain ⟨s', hs, hserved, -⟩ := h.call hok.1 hok.2.1 hok.2.2
    exact ⟨s', hs, hserved⟩
  | resume x =>
    obtain ⟨w, hx, -⟩ := hok
    exact ⟨s.check x w, by rw [exec, hx], h.check hx⟩
  | complete => exact ⟨_, rfl, h.complete⟩
  | intr => exact h.intr hok

/-- **Requests are served in order**, over any interleaving of callers, the card and its
interrupts, and whatever the buffers held before. The queue holds, in the order of
their pushes, the requests that are not completed; of these the first has been
started, once, and no other. A call returns only when its own request is completed,
with its buffer `B_VALID`, and its thread is awake by then. No allowed step panics. -/
theorem requests_in_order {mem : Addr → Buf} {disk : UInt32 → BlockData} {hc : Bool}
    (hreach : Reach (fun s a s' => s.step a = some s') Allowed (start ι mem disk hc) s) :
    Spells s.bufs s.queue ∧ s.pushed = s.done ++ s.queue ∧ s.started = s.done ++ s.queue.take 1 ∧
    (∀ a, s.Allowed a → ∃ s', s.exec a = .ok s') ∧
    (∀ x w, s.place x = some w → s.pushed[w.ticket]? = some w.b ∧
      (w.ticket < s.done.length → (s.bufs.mem w.b).flags = bValid ∧ w.asleep = false)) ∧
    (∀ x b s', s.Allowed (.call x b) → s.exec (.call x b) = .ok s' → (s'.place x).isSome = true) ∧
    ∀ x w s', s.place x = some w → s.exec (.resume x) = .ok s' → s'.place x = none →
      s.done[w.ticket]? = some w.b ∧ (s'.bufs.mem w.b).flags = bValid := by
  have h : s.Served := hreach.invariant (I := Served) (served_start mem disk hc) fun t a t' ht hok hs => by
    obtain ⟨u, hu, hserved⟩ := ht.step hok
    rw [Sd.step, hu] at hs
    exact Option.some.inj hs ▸ hserved
  refine ⟨h.spells, h.pushed_eq, h.started, fun a hok => (h.step hok).imp fun _ hs => hs.1,
    fun x w hx => ⟨h.ticket x w hx, h.served x w hx⟩, fun x b s' hok hs => ?_, fun x w s' hx hs hout => ?_⟩
  · obtain ⟨u, hu, -, hin⟩ := h.call hok.1 hok.2.1 hok.2.2
    have hsame : u = s' := Except.ok.inj (hu.symm.trans hs)
    exact hsame ▸ hin
  · have hcheck : s.check x w = s' := by
      rw [exec, hx] at hs
      exact Except.ok.inj hs
    subst hcheck
    have hf : (s.bufs.mem w.b).flags = bValid := by
      by_contra hne
      have hin : (s.check x w).place x = some {w with asleep := true} := by
        rw [check_waits hne]
        exact update_self ..
      exact nomatch hin.symm.trans hout
    have hdone : w.ticket < s.done.length := by
      by_contra hge
      exact h.unserved x w hx (Nat.le_of_not_lt hge) hf
    have hticket := h.ticket x w hx
    rw [h.pushed_eq, List.getElem?_append_left hdone] at hticket
    exact ⟨hticket, hf⟩

/-- A buffer full of stale links. -/
def staleBuf : Buf := ⟨bValid, 0, fun _ => 0, some 7, some 7⟩

/-- A read and a write; the interrupt of the read finishes it and starts the write. -/
theorem requests_in_order_two : ∃ s : Sd Bool,
    Reach (fun s a s' => s.step a = some s') Allowed (start Bool (fun _ => staleBuf) (fun _ _ => 0) true) s ∧
    (s.done = [5] ∧ s.queue = [7] ∧ s.place false = some ⟨5, 0, false⟩) ∧
    s.started = s.done ++ s.queue.take 1 ∧ Spells s.bufs s.queue ∧ (s.bufs.mem 5).flags = bValid := by
  obtain ⟨s, hreach, hs⟩ := Reach.exists_of_any (show
    (runAll step Allowed (start Bool (fun _ => staleBuf) (fun _ _ => 0) true)
      [.fill 5 (sdRead 30 staleBuf), .call false 5, .fill 7 (sdWrite 31 (fun _ => 1) staleBuf), .call true 7,
        .complete, .intr]).any
      (fun s => decide (s.done = [5] ∧ s.queue = [7] ∧ s.place false = some ⟨5, 0, false⟩)) = true by
      decide +kernel)
  have hstate := of_decide_eq_true hs
  obtain ⟨hspells, -, hstarted, -, hwait, -⟩ := requests_in_order hreach
  have hdone : 0 < s.done.length := by simp [hstate.1]
  exact ⟨s, hreach, hstate, hstarted, hspells, ((hwait false _ hstate.2.2).2 hdone).1⟩

end Runs

end Sd

end OS2021.Driver
