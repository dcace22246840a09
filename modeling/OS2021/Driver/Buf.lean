import Mathlib.Data.List.Chain
import Mathlib.Data.List.Nodup
import Mathlib.Logic.Function.Basic
import OS2021.Fs.Defines

/-! The queue of disk requests (`driver/buf.c`).

A `struct buf` lives wherever its caller put it and is linked into the queue by its
own `Prev` and `Next`, which keep whatever they held before. `Spells` says which
buffers the queue holds; it looks at no link but those between two of them. -/
namespace OS2021.Driver
open Function
open Fs (BlockData)

/-- The address of a `struct buf`. -/
abbrev Addr := Nat

structure Buf where
  flags : UInt32
  blockno : UInt32
  data : BlockData
  prev : Option Addr
  next : Option Addr

/-- Why the driver stops: its panics, a failed assertion, and a `NULL` that is followed. -/
inductive Stop where
  /-- `PANIC("EMPTY")` -/
  | empty
  /-- `PANIC("...")`: an interrupt that belongs to no request. -/
  | unknown
  /-- `PANIC(",,,")`: an interrupt of the wrong direction. -/
  | mismatch
  /-- "emmc interrupt flag should be empty" -/
  | pending
  | null
  deriving DecidableEq

/-- A `struct bufQueue` (`begin`, `end`, `sz`), with the memory of all buffers. -/
structure Bufs where
  mem : Addr → Buf
  first : Option Addr
  last : Option Addr
  sz : Nat

namespace Bufs

def set (s : Bufs) (a : Addr) (f : Buf → Buf) : Bufs := {s with mem := update s.mem a (f (s.mem a))}

def setPrev (s : Bufs) (a : Addr) (p : Option Addr) : Bufs := s.set a fun b => {b with prev := p}

def setNext (s : Bufs) (a : Addr) (n : Option Addr) : Bufs := s.set a fun b => {b with next := n}

def initBufQueue (s : Bufs) : Bufs := {s with first := none, last := none, sz := 0}

def push (s : Bufs) (y : Addr) : Except Stop Bufs :=
  if s.sz = 0 then .ok {s with first := some y, last := some y, sz := 1}
  else
    match s.last with
    | none => .error .null
    | some e =>
      .ok {(s.setNext e (some y)).setPrev y (some e) with last := some y, sz := s.sz + 1}

def pop (s : Bufs) : Except Stop Bufs :=
  if s.sz = 0 then .error .empty
  else if s.sz = 1 then .ok {s with first := none, last := none, sz := 0}
  else
    match s.first.bind fun b => (s.mem b).next with
    | none => .error .null
    | some n =>
      .ok {s.setPrev n none with first := some n, sz := s.sz - 1}

def front (s : Bufs) : Except Stop Addr :=
  if s.sz = 0 then .error .empty
  else
    match s.first with
    | none => .error .null
    | some b => .ok b

def empty (s : Bufs) : Bool := s.sz = 0

end Bufs

/-- One buffer is linked before another. -/
def Linked (mem : Addr → Buf) (a b : Addr) : Prop := (mem a).next = some b ∧ (mem b).prev = some a

/-- The queue holds the buffers of `l`, in this order. -/
structure Spells (s : Bufs) (l : List Addr) : Prop where
  sz : s.sz = l.length
  first : s.first = l.head?
  last : s.last = l.getLast?
  nodup : l.Nodup
  links : l.IsChain (Linked s.mem)

/-- What the queue operations leave alone. -/
structure SamePayload (s s' : Bufs) : Prop where
  flags : ∀ a, (s'.mem a).flags = (s.mem a).flags
  blockno : ∀ a, (s'.mem a).blockno = (s.mem a).blockno
  data : ∀ a, (s'.mem a).data = (s.mem a).data

variable {s s' : Bufs} {l : List Addr} {a b y : Addr} {f : Buf → Buf}

@[simp] theorem set_self : (s.set a f).mem a = f (s.mem a) := update_self ..

theorem set_of_ne (h : b ≠ a) : (s.set a f).mem b = s.mem b := update_of_ne h ..

theorem set_apply (x : Addr) : (s.set a f).mem x = if x = a then f (s.mem a) else s.mem x :=
  update_apply ..

theorem setPrev_prev {p : Option Addr} (x : Addr) :
    ((s.setPrev a p).mem x).prev = if x = a then p else (s.mem x).prev := by
  rw [Bufs.setPrev, set_apply]
  split <;> rfl

theorem setPrev_next {p : Option Addr} (x : Addr) : ((s.setPrev a p).mem x).next = (s.mem x).next := by
  rw [Bufs.setPrev, set_apply]
  split
  case isTrue h => rw [h]
  case isFalse => rfl

theorem setNext_next {n : Option Addr} (x : Addr) :
    ((s.setNext a n).mem x).next = if x = a then n else (s.mem x).next := by
  rw [Bufs.setNext, set_apply]
  split <;> rfl

theorem setNext_prev {n : Option Addr} (x : Addr) : ((s.setNext a n).mem x).prev = (s.mem x).prev := by
  rw [Bufs.setNext, set_apply]
  split
  case isTrue h => rw [h]
  case isFalse => rfl

/-- Only the links between buffers of the queue matter. -/
theorem Spells.congr (h : Spells s l) (hfirst : s'.first = s.first) (hlast : s'.last = s.last) (hsz : s'.sz = s.sz)
    (hmem : ∀ x ∈ l, (s'.mem x).next = (s.mem x).next ∧ (s'.mem x).prev = (s.mem x).prev) : Spells s' l where
  sz := hsz.trans h.sz
  first := hfirst.trans h.first
  last := hlast.trans h.last
  nodup := h.nodup
  links := h.links.imp_of_mem_imp fun x y hx hy hxy =>
    ⟨(hmem x hx).1.trans hxy.1, (hmem y hy).2.trans hxy.2⟩

theorem samePayload_set (hf : ∀ x, (f x).flags = x.flags ∧ (f x).blockno = x.blockno ∧ (f x).data = x.data) :
    SamePayload s (s.set a f) := by
  have hone : ∀ b, ((s.set a f).mem b).flags = (s.mem b).flags ∧ ((s.set a f).mem b).blockno = (s.mem b).blockno ∧
      ((s.set a f).mem b).data = (s.mem b).data := fun b => by
    by_cases hb : b = a
    · subst hb
      rw [set_self]
      exact hf _
    · rw [set_of_ne hb]
      exact ⟨rfl, rfl, rfl⟩
  exact ⟨fun b => (hone b).1, fun b => (hone b).2.1, fun b => (hone b).2.2⟩

theorem SamePayload.trans {s'' : Bufs} (h : SamePayload s s') (h' : SamePayload s' s'') : SamePayload s s'' :=
  ⟨fun a => (h'.flags a).trans (h.flags a), fun a => (h'.blockno a).trans (h.blockno a),
    fun a => (h'.data a).trans (h.data a)⟩

theorem spells_init (s : Bufs) : Spells s.initBufQueue [] := ⟨rfl, rfl, rfl, .nil, .nil⟩

theorem Spells.front (h : Spells s (a :: l)) : s.front = .ok a := by
  have hsz : s.sz ≠ 0 := by simp [h.sz]
  rw [Bufs.front, if_neg hsz, h.first]
  rfl

theorem Spells.empty (h : Spells s l) : s.empty = true ↔ l = [] := by
  rw [Bufs.empty, decide_eq_true_iff, h.sz, List.length_eq_zero_iff]

theorem samePayload_links (s : Bufs) (e y n : Addr) (p : Option Addr) :
    SamePayload s ((s.setNext e (some n)).setPrev y p) :=
  have hnext : SamePayload s (s.setNext e (some n)) := samePayload_set fun _ => ⟨rfl, rfl, rfl⟩
  hnext.trans (samePayload_set fun _ => ⟨rfl, rfl, rfl⟩)

/-- `push` puts a buffer behind the others, whatever its links hold. -/
theorem Spells.push (h : Spells s l) (hy : y ∉ l) :
    ∃ s', s.push y = .ok s' ∧ Spells s' (l ++ [y]) ∧ SamePayload s s' := by
  rcases List.eq_nil_or_concat l with rfl | ⟨front, e, rfl⟩
  · have hsz : s.sz = 0 := h.sz
    exact ⟨{s with first := some y, last := some y, sz := 1}, by rw [Bufs.push, if_pos hsz],
      ⟨rfl, rfl, rfl, List.nodup_singleton y, List.isChain_singleton y⟩, ⟨fun _ => rfl, fun _ => rfl, fun _ => rfl⟩⟩
  · rw [List.concat_eq_append] at h hy ⊢
    have hsz : s.sz ≠ 0 := by simp [h.sz]
    have hlast : s.last = some e := by simp [h.last]
    have hpay := samePayload_links s e y y (some e)
    obtain ⟨hfront, -, hend⟩ := List.isChain_append.mp h.links
    have hkeep : ∀ x ∈ front, ∀ z ∈ front ++ [e], Linked s.mem x z →
        Linked ((s.setNext e (some y)).setPrev y (some e)).mem x z := fun x hx z hz hxz => by
      have hxe : x ≠ e := fun he => (List.nodup_append.mp h.nodup).2.2 x hx e (List.mem_singleton_self e) he
      have hzy : z ≠ y := fun he => hy (he ▸ hz)
      rw [Linked, setPrev_next, setNext_next, setPrev_prev, setNext_prev, if_neg hxe, if_neg hzy]
      exact hxz
    refine ⟨{(s.setNext e (some y)).setPrev y (some e) with last := some y, sz := s.sz + 1},
      by rw [Bufs.push, if_neg hsz, hlast], ⟨?_, ?_, ?_, ?_, ?_⟩, ⟨hpay.flags, hpay.blockno, hpay.data⟩⟩
    · rw [h.sz]
      simp
    · show s.first = _
      rw [h.first]
      cases front <;> simp
    · simp
    · exact List.nodup_append.mpr ⟨h.nodup, List.nodup_singleton y, fun x hx z hz he =>
        hy (List.mem_singleton.mp hz ▸ he ▸ hx)⟩
    · refine List.isChain_append.mpr ⟨List.isChain_append.mpr ⟨?_, List.isChain_singleton e, ?_⟩,
        List.isChain_singleton y, ?_⟩
      · exact hfront.imp_of_mem_imp fun x z hx hz => hkeep x hx z (List.mem_append_left _ hz)
      · intro x hx z hz
        cases hz
        exact hkeep x (List.mem_of_mem_getLast? hx) e (by simp) (hend x hx e rfl)
      · intro x hx z hz
        obtain rfl : e = x := by simpa using hx
        cases hz
        rw [Linked, setPrev_next, setNext_next, setPrev_prev, if_pos rfl, if_pos rfl]
        exact ⟨rfl, rfl⟩

/-- `pop` takes the first buffer out and leaves the others linked. -/
theorem Spells.pop (h : Spells s (a :: l)) : ∃ s', s.pop = .ok s' ∧ Spells s' l ∧ SamePayload s s' := by
  have hsz : s.sz ≠ 0 := by simp [h.sz]
  cases l with
  | nil =>
    have hone : s.sz = 1 := h.sz
    exact ⟨{s with first := none, last := none, sz := 0}, by rw [Bufs.pop, if_neg hsz, if_pos hone],
      ⟨rfl, rfl, rfl, .nil, .nil⟩, ⟨fun _ => rfl, fun _ => rfl, fun _ => rfl⟩⟩
  | cons n rest =>
    have hmore : s.sz ≠ 1 := by simp [h.sz]
    obtain ⟨han, hrest⟩ := List.isChain_cons_cons.mp h.links
    have hnext : (s.first.bind fun b => (s.mem b).next) = some n := by
      rw [h.first]
      exact han.1
    have hpay : SamePayload s (s.setPrev n none) := samePayload_set fun _ => ⟨rfl, rfl, rfl⟩
    refine ⟨{s.setPrev n none with first := some n, sz := s.sz - 1},
      by rw [Bufs.pop, if_neg hsz, if_neg hmore, hnext], ⟨?_, rfl, ?_, (List.nodup_cons.mp h.nodup).2, ?_⟩,
      ⟨hpay.flags, hpay.blockno, hpay.data⟩⟩
    · rw [h.sz]
      simp
    · show s.last = _
      rw [h.last]
      simp
    · -- the `Prev` of the new first buffer is not one of the queue's links
      refine hrest.imp_of_mem_tail_imp fun x z _ hz hxz => ?_
      have hzn : z ≠ n := fun he => (List.nodup_cons.mp (List.nodup_cons.mp h.nodup).2).1 (he ▸ hz)
      rw [Linked, setPrev_next, setPrev_prev, if_neg hzn]
      exact hxz

end OS2021.Driver
