import Mathlib.Data.UInt
import OS2021.Lib.Runs
import OS2021.Lib.Window

/-! The line discipline of the console (`core/console.c`).

`console_intr` edits and commits what is typed, `console_read` hands it out. Both
work on one ring buffer with three indices that only ever wrap at `2 ^ 64`. A call
runs under `conslock`, so it is atomic up to the point where a reader sleeps;
sleeping readers keep what they have so far and go on at any later time.

`Tty` is what the terminal is for: the stream of committed bytes, how much of it
has been read, and the line being edited. The ring buffer always represents one
(`Rep`). The lock, unlock and `killed` of the caller's process are all that is
left of its surroundings; `panicked` is never set. -/
namespace OS2021.Core
open Lib Function

abbrev inputBuf : Nat := 128

/-- `C(x)`, Control-x. -/
def ctrl (x : Char) : UInt8 := x.toUInt8 - '@'.toUInt8

def newline : UInt8 := '\n'.toUInt8

/-! ### The buffer -/

/-- `input`, and what `consputc` has sent. -/
structure Input where
  buf : Fin inputBuf → UInt8
  r : UInt64
  w : UInt64
  e : UInt64
  echo : List UInt8

def uartPutChar (c : UInt8) : List UInt8 := if c = newline then [c, '\r'.toUInt8] else [c]

/-- What `consputc(BACKSPACE)` sends. -/
def rubOut : List UInt8 := [8, 32, 8]

namespace Input

/-- `input.buf[k % INPUT_BUF]` -/
def get (i : Input) (k : UInt64) : UInt8 := i.buf (Fin.ofNat inputBuf k.toNat)

/-- `input.e--; consputc(BACKSPACE)` -/
def rub (i : Input) : Input := {i with e := i.e - 1, echo := i.echo ++ rubOut}

/-- The loop of `C('U')`; a round brings `e` one step nearer to `w`. -/
def killLine : Nat → Input → Input
  | 0, i => i
  | n + 1, i => if i.e ≠ i.w ∧ i.get (i.e - 1) ≠ newline then killLine n i.rub else i

/-- `input.buf[input.e++ % INPUT_BUF] = c; consputc(c)`, and the commit. -/
def enter (i : Input) (c : UInt8) : Input :=
  let i := {i with
    buf := update i.buf (Fin.ofNat inputBuf i.e.toNat) c
    e := i.e + 1
    echo := i.echo ++ uartPutChar c}
  if c = newline ∨ c = ctrl 'D' ∨ i.e = i.r + inputBuf.toUInt64 then {i with w := i.e} else i

/-- The `switch` of `console_intr`. -/
def key (i : Input) (c : UInt8) : Input :=
  if c = ctrl 'P' then i
  else if c = ctrl 'U' then i.killLine (i.e - i.w).toNat
  else if c = ctrl 'H' ∨ c = 0x7f then if i.e ≠ i.w then i.rub else i
  else if c ≠ 0 ∧ i.e - i.r < inputBuf.toUInt64 then i.enter (if c = '\r'.toUInt8 then newline else c)
  else i

end Input

/-- `console_intr`; `getc` gives the characters of the list and then `0xff`. -/
def consoleIntr : List UInt8 → Input → Input
  | [], i => i
  | c :: rest, i => if c = 0xff then i else consoleIntr rest (i.key c)

/-- A `console_read` in its loop: `target`, `n`, and the bytes it has stored. -/
structure Reader where
  target : Nat
  left : Nat
  got : List UInt8
  deriving DecidableEq

/-- How a section of `console_read` under the lock ends. -/
inductive Outcome where
  | asleep (reader : Reader)
  | returns (value : Int) (got : List UInt8)
  deriving DecidableEq

/-- The reader that is left asleep. -/
def Outcome.reader : Outcome → Option Reader
  | .asleep rd => some rd
  | .returns _ _ => none

/-- The loop of `console_read` up to its sleep, with the bytes it takes out of the buffer. -/
def Input.read (killed : Bool) (target : Nat) : Nat → List UInt8 → Input → Input × List UInt8 × Outcome
  | 0, got, i => (i, [], .returns target got)
  | n + 1, got, i =>
    if i.r = i.w then (i, [], if killed then .returns (-1) got else .asleep ⟨target, n + 1, got⟩)
    else
      let c := i.get i.r
      let i := {i with r := i.r + 1}
      if c = ctrl 'D' then
        if n + 1 < target then ({i with r := i.r - 1}, [], .returns (target - (n + 1)) got)
        else (i, [c], .returns (target - (n + 1)) got)
      else if c = newline then (i, [c], .returns (target - n) (got ++ [c]))
      else
        let (i, eaten, o) := i.read killed target n (got ++ [c])
        (i, c :: eaten, o)

/-- A call of `console_read` for `n` bytes, with `n` as signed as it comes. -/
def consoleRead (n : Int) : Reader := ⟨n.toNat, n.toNat, []⟩

/-! ### What a terminal is -/

/-- The committed stream, the line being edited and how much of the stream has been
read; no more than a buffer of it is unread, and a line never holds a newline. -/
structure Tty where
  committed : List UInt8
  tail : List UInt8
  taken : Nat
  taken_le : taken ≤ committed.length
  fits : committed.length + tail.length ≤ taken + inputBuf
  plain : ∀ c ∈ tail, c ≠ newline

namespace Tty

def start : Tty := ⟨[], [], 0, le_rfl, Nat.zero_le _, by simp⟩

def unread (t : Tty) : List UInt8 := t.committed.drop t.taken

/-- Only the line being edited is ever shortened. -/
def erase (t : Tty) (keep : Nat) : Tty where
  committed := t.committed
  tail := t.tail.take keep
  taken := t.taken
  taken_le := t.taken_le
  fits := (Nat.add_le_add_left (List.length_take_le' keep t.tail) _).trans t.fits
  plain c hc := t.plain c (List.mem_of_mem_take hc)

/-- A character ends the line if it is a newline or an end of file, or if it fills the buffer. -/
def enter (t : Tty) (c : UInt8) (h : t.committed.length + t.tail.length < t.taken + inputBuf) : Tty :=
  if hc : c = newline ∨ c = ctrl 'D' ∨ t.committed.length + t.tail.length + 1 = t.taken + inputBuf then
    { committed := t.committed ++ (t.tail ++ [c])
      tail := []
      taken := t.taken
      taken_le := t.taken_le.trans (by simp)
      fits := by
        simp only [List.length_append, List.length_singleton, List.length_nil]
        omega
      plain := by simp }
  else
    { committed := t.committed
      tail := t.tail ++ [c]
      taken := t.taken
      taken_le := t.taken_le
      fits := by
        simp only [List.length_append, List.length_singleton]
        omega
      plain := fun x hx => by
        rcases List.mem_append.mp hx with hx | hx
        · exact t.plain x hx
        · obtain rfl := List.mem_singleton.mp hx
          exact fun he => hc (Or.inl he) }

/-- A typed character edits the line or, while there is room, is accepted. -/
def key (t : Tty) (c : UInt8) : Tty :=
  if c = ctrl 'P' then t
  else if c = ctrl 'U' then t.erase 0
  else if c = ctrl 'H' ∨ c = 0x7f then t.erase (t.tail.length - 1)
  else if h : c ≠ 0 ∧ t.committed.length + t.tail.length < t.taken + inputBuf then
    t.enter (if c = '\r'.toUInt8 then newline else c) h.2
  else t

def intr : List UInt8 → Tty → Tty
  | [], t => t
  | c :: rest, t => if c = 0xff then t else intr rest (t.key c)

/-- The next committed byte has been read. -/
def take (t : Tty) (h : t.taken < t.committed.length) : Tty where
  committed := t.committed
  tail := t.tail
  taken := t.taken + 1
  taken_le := h
  fits := t.fits.trans (by omega)
  plain := t.plain

/-- Reading: up to the limit, up to and with a newline, up to an end of file. -/
def read (killed : Bool) (target : Nat) : Nat → List UInt8 → Tty → Tty × Outcome
  | 0, got, t => (t, .returns target got)
  | n + 1, got, t =>
    if h : t.taken < t.committed.length then
      let c := t.committed[t.taken]
      if c = ctrl 'D' then (if n + 1 < target then t else t.take h, .returns (target - (n + 1)) got)
      else if c = newline then (t.take h, .returns (target - n) (got ++ [c]))
      else (t.take h).read killed target n (got ++ [c])
    else (t, if killed then .returns (-1) got else .asleep ⟨target, n + 1, got⟩)

end Tty

/-! ### The buffer represents a terminal -/

structure Rep (i : Input) (t : Tty) : Prop where
  r : i.r = UInt64.ofNat t.taken
  w : i.w = UInt64.ofNat t.committed.length
  e : i.e = UInt64.ofNat (t.committed.length + t.tail.length)
  held : Holds i.buf t.taken (t.committed ++ t.tail)

theorem rep_start : Rep ⟨fun _ => 0, 0, 0, 0, []⟩ .start := ⟨rfl, rfl, rfl, holds_nil⟩

variable {i : Input} {t : Tty} {c : UInt8}

section
variable (h : Rep i t)
include h

theorem Rep.get {k : Nat} (hlo : t.taken ≤ k) (hk : k < (t.committed ++ t.tail).length) :
    i.get (UInt64.ofNat k) = (t.committed ++ t.tail)[k] := by
  rw [Input.get, cell_toNat (by decide)]
  exact h.held k hlo hk

omit h in
theorem Tty.bound (t : Tty) : t.taken ≤ t.committed.length ∧ t.committed.length + t.tail.length ≤ t.taken + 128 :=
  ⟨t.taken_le, t.fits⟩

theorem Rep.e_eq_w : i.e = i.w ↔ t.tail.length = 0 := by
  have hbound := t.bound
  rw [h.e, h.w, eq_comm, ofNat_eq_iff (Nat.le_add_right ..) (by omega)]
  omega

theorem Rep.r_eq_w : i.r = i.w ↔ t.taken = t.committed.length := by
  have hbound := t.bound
  rw [h.r, h.w, ofNat_eq_iff t.taken_le (by omega)]

theorem Rep.room : i.e - i.r < inputBuf.toUInt64 ↔ t.committed.length + t.tail.length < t.taken + inputBuf := by
  have hbound := t.bound
  have hdist : (i.e - i.r).toNat = t.committed.length + t.tail.length - t.taken := by
    rw [h.e, h.r, toNat_sub_ofNat (by omega) (by omega)]
  rw [UInt64.lt_iff_toNat_lt, hdist]
  show _ < 128 ↔ _ < t.taken + 128
  omega

/-- Until the counters wrap the fields themselves are in order. -/
theorem Rep.in_order (hwrap : t.committed.length + t.tail.length < 2 ^ 64) :
    i.r ≤ i.w ∧ i.w ≤ i.e ∧ i.e.toNat ≤ i.r.toNat + inputBuf := by
  have hbound := t.bound
  have htoNat : ∀ k < 2 ^ 64, (UInt64.ofNat k).toNat = k := fun k hk => UInt64.toNat_ofNat_of_lt' hk
  rw [UInt64.le_iff_toNat_le, UInt64.le_iff_toNat_le, h.r, h.w, h.e, htoNat _ (by omega), htoNat _ (by omega),
    htoNat _ hwrap]
  exact ⟨hbound.1, Nat.le_add_right .., hbound.2⟩

/-! ### Typing -/

/-- A backspace takes the last character of the line. -/
theorem Rep.rub (ht : t.tail.length ≠ 0) : Rep i.rub (t.erase (t.tail.length - 1)) where
  r := h.r
  w := h.w
  e := by
    show i.e - 1 = UInt64.ofNat (t.committed.length + (t.tail.take (t.tail.length - 1)).length)
    rw [h.e, ofNat_sub_one (by omega), List.length_take]
    congr 1
    omega
  held := h.held.of_prefix (List.prefix_append_right_inj _ |>.mpr (List.take_prefix ..))

omit h in
theorem Tty.erase_of_le {k : Nat} (h : t.tail.length ≤ k) : t.erase k = t := by
  cases t
  simpa [Tty.erase] using h

omit h in
theorem Tty.erase_erase (t : Tty) (k : Nat) : (t.erase k).erase 0 = t.erase 0 := by
  simp [Tty.erase]

/-- The loop takes the whole line: it meets no newline on its way to `w`. -/
theorem Rep.killLine {n : Nat} (hn : t.tail.length = n) : Rep (i.killLine n) (t.erase 0) := by
  induction n generalizing i t with
  | zero =>
    rw [Tty.erase_of_le (by omega)]
    exact h
  | succ n ih =>
    have hne : i.e ≠ i.w := fun he => by
      have hzero := h.e_eq_w.mp he
      omega
    have hplain : i.get (i.e - 1) ≠ newline := by
      have hk : t.committed.length + t.tail.length - 1 < (t.committed ++ t.tail).length := by
        rw [List.length_append]
        omega
      rw [h.e, ofNat_sub_one (by omega), h.get (by have := t.taken_le; omega) hk,
        List.getElem_append_right (by omega)]
      exact t.plain _ (List.getElem_mem _)
    rw [Input.killLine, if_pos ⟨hne, hplain⟩, ← t.erase_erase (t.tail.length - 1)]
    refine ih (h.rub (by omega)) ?_
    show (t.tail.take (t.tail.length - 1)).length = n
    rw [List.length_take]
    omega

theorem Rep.enter (hroom : t.committed.length + t.tail.length < t.taken + inputBuf) :
    Rep (i.enter c) (t.enter c hroom) := by
  have hbound := t.bound
  have hheld : Holds (update i.buf (Fin.ofNat inputBuf i.e.toNat) c) t.taken
      ((t.committed ++ t.tail) ++ [c]) := by
    have hcell : Fin.ofNat inputBuf i.e.toNat = Fin.ofNat inputBuf (t.committed ++ t.tail).length := by
      rw [h.e, cell_toNat (by decide), List.length_append]
    rw [hcell]
    exact h.held.push (by rwa [List.length_append]) c
  have he : i.e + 1 = UInt64.ofNat (t.committed.length + t.tail.length + 1) := by
    rw [h.e, ofNat_add_one]
  have hfull : i.e + 1 = i.r + inputBuf.toUInt64 ↔
      t.committed.length + t.tail.length + 1 = t.taken + inputBuf := by
    have hr : i.r + inputBuf.toUInt64 = UInt64.ofNat (t.taken + inputBuf) := by
      rw [h.r]
      exact (UInt64.ofNat_add ..).symm
    rw [he, hr, ofNat_eq_iff hroom (show t.taken + 128 < _ by omega)]
  rw [Input.enter, Tty.enter]
  dsimp only
  simp only [hfull]
  split
  · exact ⟨h.r, by simp [he, Nat.add_assoc], by simp [he, Nat.add_assoc], by simpa using hheld⟩
  · exact ⟨h.r, h.w, by simp [he, Nat.add_assoc], by simpa using hheld⟩

/-- A character does to the buffer what it does to the terminal. -/
theorem Rep.key (c : UInt8) : Rep (i.key c) (t.key c) := by
  rw [Input.key, Tty.key]
  split
  · exact h
  split
  · have hbound := t.bound
    refine h.killLine ?_
    rw [h.e, h.w, toNat_sub_ofNat (Nat.le_add_right ..) (by omega), Nat.add_sub_cancel_left]
  split
  · split
    case isTrue hne => exact h.rub fun hz => hne (h.e_eq_w.mpr hz)
    case isFalse heq =>
      have hzero := h.e_eq_w.mp (not_not.mp heq)
      rw [Tty.erase_of_le (by omega)]
      exact h
  simp only [h.room]
  split
  · exact h.enter _
  · exact h

theorem Rep.intr (burst : List UInt8) : Rep (consoleIntr burst i) (t.intr burst) := by
  induction burst generalizing i t with
  | nil => exact h
  | cons c rest ih =>
    rw [consoleIntr, Tty.intr]
    split
    · exact h
    · exact ih (h.key c)

/-! ### Reading -/

theorem Rep.take (hlt : t.taken < t.committed.length) : Rep {i with r := i.r + 1} (t.take hlt) where
  r := by
    show i.r + 1 = UInt64.ofNat (t.taken + 1)
    rw [h.r, ofNat_add_one]
  w := h.w
  e := h.e
  held := h.held.advance (Nat.le_succ _)

theorem Rep.next (hlt : t.taken < t.committed.length) : i.get i.r = t.committed[t.taken] := by
  have hk : t.taken < (t.committed ++ t.tail).length := by
    rw [List.length_append]
    omega
  rw [h.r, h.get le_rfl hk, List.getElem_append_left hlt]

/-- A reader gets from the buffer what it gets from the terminal, and takes out what it gets. -/
theorem Rep.read (killed : Bool) (target n : Nat) (got : List UInt8) :
    ∃ i' eaten t' o, i.read killed target n got = (i', eaten, o) ∧ t.read killed target n got = (t', o) ∧
      Rep i' t' ∧ t'.committed = t.committed ∧
      t.committed.take t'.taken = t.committed.take t.taken ++ eaten := by
  induction n generalizing i t got with
  | zero => exact ⟨i, [], t, _, rfl, rfl, h, rfl, (List.append_nil _).symm⟩
  | succ n ih =>
    rw [Input.read, Tty.read]
    by_cases hlt : t.taken < t.committed.length
    case neg =>
      have hw : i.r = i.w := h.r_eq_w.mpr (Nat.le_antisymm t.taken_le (Nat.le_of_not_lt hlt))
      rw [if_pos hw, dif_neg hlt]
      exact ⟨i, [], t, _, rfl, rfl, h, rfl, (List.append_nil _).symm⟩
    case pos =>
      have hw : i.r ≠ i.w := fun he => by
        have heq := h.r_eq_w.mp he
        omega
      have heaten : t.committed.take (t.taken + 1) = t.committed.take t.taken ++ [t.committed[t.taken]] :=
        List.take_succ_eq_append_getElem hlt
      rw [if_neg hw, dif_pos hlt]
      simp only [h.next hlt]
      split
      · split
        · -- the end of file is put back
          have hback : i.r + 1 - 1 = i.r := UInt64.add_sub_cancel ..
          exact ⟨_, [], t, _, rfl, rfl, by simpa [hback] using h, rfl, (List.append_nil _).symm⟩
        · exact ⟨_, _, t.take hlt, _, rfl, rfl, h.take hlt, rfl, heaten⟩
      split
      · exact ⟨_, _, t.take hlt, _, rfl, rfl, h.take hlt, rfl, heaten⟩
      · obtain ⟨i', eaten, t', o, hi, ht, hrep, hcom, htake⟩ := ih (h.take hlt) (got ++ [t.committed[t.taken]])
        rw [hi, ht]
        refine ⟨i', _ :: eaten, t', o, rfl, rfl, hrep, hcom, ?_⟩
        have htake' : t.committed.take t'.taken = t.committed.take (t.taken + 1) ++ eaten := htake
        rw [htake', heaten, List.append_assoc]
        rfl

end

/-! ### What a call of `console_read` returns -/

/-- A reader still in its loop has met neither a newline nor an end of file. -/
structure Reader.InLoop (rd : Reader) : Prop where
  count : rd.got.length + rd.left = rd.target
  line : newline ∉ rd.got
  eof : ctrl 'D' ∉ rd.got

/-- A call that finds the terminal as `before` in its last section and leaves it as `after`. -/
structure Returned (target : Nat) (killed : Bool) (before after : Tty) (value : Int) (got : List UInt8) : Prop where
  limit : got.length ≤ target
  line : newline ∉ got.dropLast
  eof : ctrl 'D' ∉ got
  counted : value = got.length ∨ value = -1 ∧ killed = true
  /-- Killed, all it asked for, a whole line, an end of file that is left behind, or one that is taken. -/
  why : value = -1 ∨ got.length = target ∨ got.getLast? = some newline ∨
    got ≠ [] ∧ after.unread.head? = some (ctrl 'D') ∨ got = [] ∧ before.unread = ctrl 'D' :: after.unread

theorem Tty.unread_eq (h : t.taken < t.committed.length) :
    t.unread = t.committed[t.taken] :: (t.take h).unread :=
  List.drop_eq_getElem_cons h

/-- One section of a call: the reader sleeps in its loop or the call is over. -/
theorem Tty.read_cases {killed : Bool} {target n : Nat} {got : List UInt8} {o : Outcome} {t' : Tty}
    (hin : Reader.InLoop ⟨target, n, got⟩) (h : t.read killed target n got = (t', o)) :
    (∃ rd, o = .asleep rd ∧ rd.target = target ∧ rd.InLoop) ∨
      ∃ v g, o = .returns v g ∧ got <+: g ∧ Returned target killed t t' v g := by
  have hcount : got.length + n = target := hin.count
  have hline : newline ∉ got.dropLast := fun hmem => hin.line (List.mem_of_mem_dropLast hmem)
  induction n generalizing t got with
  | zero =>
    cases h
    exact Or.inr ⟨_, got, rfl, List.prefix_rfl, by omega, hline, hin.eof, Or.inl (by omega), Or.inr (Or.inl hcount)⟩
  | succ n ih =>
    rw [Tty.read] at h
    split at h
    case isFalse =>
      cases h
      cases killed with
      | true =>
        exact Or.inr ⟨-1, got, rfl, List.prefix_rfl, by omega, hline, hin.eof, Or.inr ⟨rfl, rfl⟩, Or.inl rfl⟩
      | false => exact Or.inl ⟨_, rfl, rfl, hin⟩
    case isTrue hlt =>
      dsimp only at h
      have hnext := t.unread_eq hlt
      split at h
      case isTrue heof =>
        rw [heof] at hnext
        cases h
        refine Or.inr ⟨_, got, rfl, List.prefix_rfl, by omega, hline, hin.eof, Or.inl (by omega),
          Or.inr (Or.inr (Or.inr ?_))⟩
        split
        · refine Or.inl ⟨fun hnil => ?_, by rw [hnext]; rfl⟩
          rw [hnil, List.length_nil] at hcount
          omega
        · exact Or.inr ⟨List.length_eq_zero_iff.mp (by omega), hnext⟩
      case isFalse heof =>
        split at h
        case isTrue hnl =>
          cases h
          have hlen : (got ++ [t.committed[t.taken]]).length = got.length + 1 := by simp
          refine Or.inr ⟨_, _, rfl, List.prefix_append .., by omega, ?_, ?_, Or.inl (by omega), ?_⟩
          · rw [List.dropLast_concat]
            exact hin.line
          · simp [hin.eof, Ne.symm heof]
          · exact Or.inr (Or.inr (Or.inl (by simp [hnl])))
        case isFalse hnl =>
          have hin' : Reader.InLoop ⟨target, n, got ++ [t.committed[t.taken]]⟩ :=
            ⟨by simp; omega, by simp [hin.line, Ne.symm hnl], by simp [hin.eof, Ne.symm heof]⟩
          rcases ih hin' h hin'.count (fun hmem => hin'.line (List.mem_of_mem_dropLast hmem)) with
            hsleep | ⟨v, g, ho, hpre, hret⟩
          · exact Or.inl hsleep
          · -- something has been read, so the last way to return is out
            have hne : g ≠ [] := fun hnil => by
              rw [hnil] at hpre
              simp at hpre
            refine Or.inr ⟨v, g, ho, (List.prefix_append ..).trans hpre, hret.limit, hret.line, hret.eof,
              hret.counted, ?_⟩
            exact hret.why.imp_right (Or.imp_right (Or.imp_right
              (Or.imp_right fun hlast => absurd hlast.1 hne)))

/-- A reader that comes to an end of file first gets nothing and takes it. -/
theorem Tty.read_eof (t : Tty) (killed : Bool) {n : Nat} (hn : 0 < n) (h : t.unread.head? = some (ctrl 'D')) :
    ∃ t', t.read killed n n [] = (t', .returns 0 []) ∧ t.unread = ctrl 'D' :: t'.unread := by
  obtain ⟨n, rfl⟩ := Nat.exists_eq_add_one.mpr hn
  have hlt : t.taken < t.committed.length := by
    by_contra hge
    rw [Tty.unread, List.drop_eq_nil_of_le (Nat.le_of_not_lt hge)] at h
    cases h
  have hnext := t.unread_eq hlt
  have heof : t.committed[t.taken] = ctrl 'D' := by
    rw [hnext] at h
    exact Option.some.inj h
  rw [heof] at hnext
  refine ⟨t.take hlt, ?_, hnext⟩
  rw [Tty.read, dif_pos hlt]
  simp [heof]

/-! ### Runs -/

structure Terminal (ι : Type) where
  input : Input
  tty : Tty
  /-- What readers have taken out of the buffer, in order. -/
  consumed : List UInt8
  /-- The threads asleep in `console_read`. -/
  reader : ι → Option Reader
  killed : ι → Bool

inductive Terminal.Act (ι : Type) where
  | intr (burst : List UInt8)
  | read (x : ι) (n : Int)
  | resume (x : ι)
  | kill (x : ι)

namespace Terminal
variable {ι : Type} [DecidableEq ι]

def start (ι : Type) : Terminal ι := ⟨⟨fun _ => 0, 0, 0, 0, []⟩, .start, [], fun _ => none, fun _ => false⟩

/-- Thread `x` runs the loop of `console_read` until it sleeps or returns. -/
def run (s : Terminal ι) (x : ι) (rd : Reader) : Terminal ι × Outcome :=
  let (input, eaten, o) := s.input.read (s.killed x) rd.target rd.left rd.got
  ({s with
    input
    tty := (s.tty.read (s.killed x) rd.target rd.left rd.got).1
    consumed := s.consumed ++ eaten
    reader := update s.reader x o.reader}, o)

def exec (s : Terminal ι) : Act ι → Option (Terminal ι)
  | .intr burst => some {s with input := consoleIntr burst s.input, tty := s.tty.intr burst}
  | .read x n => if s.reader x = none then some (s.run x (consoleRead n)).1 else none
  | .resume x => (s.reader x).map fun rd => (s.run x rd).1
  | .kill x => some {s with killed := update s.killed x true}

end Terminal

/-! ### The invariant -/

theorem Tty.enter_committed (t : Tty) (c : UInt8)
    (h : t.committed.length + t.tail.length < t.taken + inputBuf) :
    t.committed <+: (t.enter c h).committed ∧ (t.enter c h).taken = t.taken := by
  by_cases hc : c = newline ∨ c = ctrl 'D' ∨ t.committed.length + t.tail.length + 1 = t.taken + inputBuf
  · rw [Tty.enter, dif_pos hc]
    exact ⟨List.prefix_append .., rfl⟩
  · rw [Tty.enter, dif_neg hc]
    exact ⟨List.prefix_rfl, rfl⟩

/-- A character adds to the committed stream or leaves it alone, and reads nothing. -/
theorem Tty.key_committed (t : Tty) (c : UInt8) :
    t.committed <+: (t.key c).committed ∧ (t.key c).taken = t.taken := by
  rw [Tty.key]
  split
  · exact ⟨List.prefix_rfl, rfl⟩
  split
  · exact ⟨List.prefix_rfl, rfl⟩
  split
  · exact ⟨List.prefix_rfl, rfl⟩
  split
  · exact t.enter_committed _ _
  · exact ⟨List.prefix_rfl, rfl⟩

theorem Tty.intr_committed (t : Tty) (burst : List UInt8) :
    t.committed <+: (t.intr burst).committed ∧ (t.intr burst).taken = t.taken := by
  induction burst generalizing t with
  | nil => exact ⟨List.prefix_rfl, rfl⟩
  | cons c rest ih =>
    rw [Tty.intr]
    split
    · exact ⟨List.prefix_rfl, rfl⟩
    · obtain ⟨hkey, htaken⟩ := t.key_committed c
      obtain ⟨hrest, htaken'⟩ := ih (t.key c)
      exact ⟨hkey.trans hrest, htaken'.trans htaken⟩

namespace Terminal
variable {ι : Type} [DecidableEq ι] {s s' : Terminal ι} {x : ι} {rd : Reader}

structure Sound (s : Terminal ι) : Prop where
  rep : Rep s.input s.tty
  consumed : s.consumed = s.tty.committed.take s.tty.taken
  loops : ∀ x rd, s.reader x = some rd → rd.InLoop

theorem consoleRead_inLoop (n : Int) : (consoleRead n).InLoop :=
  ⟨by simp [consoleRead], by simp [consoleRead], by simp [consoleRead]⟩

omit [DecidableEq ι] in
theorem sound_start : (start ι).Sound := ⟨rep_start, rfl, fun _ _ h => nomatch h⟩

/-- A section of a call on the buffer is one on the terminal. -/
theorem Sound.run (h : s.Sound) (hrd : rd.InLoop) (x : ι) {o : Outcome} (hrun : s.run x rd = (s', o)) :
    s'.Sound ∧ s.tty.read (s.killed x) rd.target rd.left rd.got = (s'.tty, o) ∧
      s'.tty.committed = s.tty.committed ∧ s.consumed <+: s'.consumed := by
  obtain ⟨i', eaten, t', o', hi, ht, hrep, hcom, htake⟩ := h.rep.read (s.killed x) rd.target rd.left rd.got
  rw [Terminal.run, hi, ht] at hrun
  obtain ⟨rfl, rfl⟩ := Prod.mk.inj hrun
  refine ⟨⟨hrep, ?_, fun y rd' hy => ?_⟩, ht, hcom, List.prefix_append ..⟩
  · show s.consumed ++ eaten = t'.committed.take t'.taken
    rw [h.consumed, hcom, htake]
  · by_cases hyx : y = x
    · subst hyx
      have hy' : o'.reader = some rd' := by simpa using hy
      rcases Tty.read_cases hrd ht with ⟨rd'', rfl, -, hloop⟩ | ⟨v, g, rfl, -⟩
      · cases hy'
        exact hloop
      · cases hy'
    · exact h.loops y rd' (by simpa [update_of_ne hyx] using hy)

/-- What one step does to the streams. -/
theorem Sound.exec (h : s.Sound) {act : Act ι} (hs : s.exec act = some s') :
    s'.Sound ∧ s.tty.committed <+: s'.tty.committed ∧ s.consumed <+: s'.consumed := by
  cases act with
  | intr burst =>
    cases hs
    obtain ⟨hpre, htaken⟩ := s.tty.intr_committed burst
    refine ⟨⟨h.rep.intr burst, ?_, h.loops⟩, hpre, List.prefix_rfl⟩
    show s.consumed = (s.tty.intr burst).committed.take (s.tty.intr burst).taken
    obtain ⟨more, hmore⟩ := hpre
    rw [h.consumed, htaken, ← hmore, List.take_append_of_le_length s.tty.taken_le]
  | read x n =>
    rw [Terminal.exec] at hs
    split at hs
    case isTrue =>
      cases hs
      obtain ⟨hsound, -, hcom, hpre⟩ := h.run (consoleRead_inLoop n) x rfl
      exact ⟨hsound, hcom ▸ List.prefix_rfl, hpre⟩
    case isFalse => cases hs
  | resume x =>
    obtain ⟨rd, hrd, rfl⟩ := Option.map_eq_some_iff.mp hs
    obtain ⟨hsound, -, hcom, hpre⟩ := h.run (h.loops x rd hrd) x rfl
    exact ⟨hsound, hcom ▸ List.prefix_rfl, hpre⟩
  | kill x =>
    cases hs
    exact ⟨⟨h.rep, h.consumed, h.loops⟩, List.prefix_rfl, List.prefix_rfl⟩

/-- **The line discipline**, over any interleaving of interrupts and of any number of
readers. The fields `r`, `w` and `e` are the numbers of bytes read, committed and typed,
which are in order and never more than `INPUT_BUF` apart. What readers have taken out
of the buffer is the committed stream up to `r`, and what they have not is in the
buffer. Every step extends both streams. A call returns no more than it was asked for
and stops at a newline; an end of file that stops a call with something to return is
left, and a call that comes to it first returns 0. -/
theorem line_discipline (hreach : Reach (fun s act s' => s.exec act = some s') (fun _ _ => True) (start ι) s) :
    (s.input.r = .ofNat s.tty.taken ∧ s.input.w = .ofNat s.tty.committed.length ∧
      s.input.e = .ofNat (s.tty.committed.length + s.tty.tail.length) ∧ s.tty.taken ≤ s.tty.committed.length ∧
      s.tty.committed.length + s.tty.tail.length ≤ s.tty.taken + inputBuf) ∧
    (s.tty.committed.length + s.tty.tail.length < 2 ^ 64 → s.input.r ≤ s.input.w ∧ s.input.w ≤ s.input.e ∧
      s.input.e.toNat ≤ s.input.r.toNat + inputBuf) ∧
    s.consumed = s.tty.committed.take s.tty.taken ∧
    (∀ k, s.tty.taken ≤ k → ∀ hk : k < s.tty.committed.length,
      s.input.get (.ofNat k) = s.tty.committed[k]) ∧
    (∀ act s', s.exec act = some s' →
      s.tty.committed <+: s'.tty.committed ∧ s.consumed <+: s'.consumed) ∧
    (∀ x rd, (∃ n, rd = consoleRead n) ∨ s.reader x = some rd → ∀ s' v got, s.run x rd = (s', .returns v got) →
      Returned rd.target (s.killed x) s.tty s'.tty v got) ∧
    ∀ x n, 0 < n → s.tty.unread.head? = some (ctrl 'D') →
      ∃ s', s.run x (consoleRead n) = (s', .returns 0 []) ∧ s.tty.unread = ctrl 'D' :: s'.tty.unread := by
  have h : s.Sound := hreach.invariant (I := Sound) sound_start fun _ _ _ hs _ hstep => (hs.exec hstep).1
  refine ⟨⟨h.rep.r, h.rep.w, h.rep.e, s.tty.taken_le, s.tty.fits⟩, h.rep.in_order, h.consumed, fun k hlo hk => ?_,
    fun act s' hs => (h.exec hs).2, fun x rd hrd s' v got hrun => ?_, fun x n hn heof => ?_⟩
  · have hk' : k < (s.tty.committed ++ s.tty.tail).length := by
      rw [List.length_append]
      omega
    rw [h.rep.get hlo hk', List.getElem_append_left hk]
  · have hloop : rd.InLoop := by
      rcases hrd with ⟨n, rfl⟩ | hx
      · exact consoleRead_inLoop n
      · exact h.loops x rd hx
    rcases Tty.read_cases hloop (h.run hloop x hrun).2.1 with ⟨_, ho, -⟩ | ⟨v', g, ho, -, hret⟩
    · cases ho
    · obtain ⟨rfl, rfl⟩ := Outcome.returns.inj ho
      exact hret
  · obtain ⟨t', hread, hunread⟩ := s.tty.read_eof (s.killed x) (n := n.toNat) (by omega) heof
    cases hrun : s.run x (consoleRead n) with | mk s' o =>
    have hsame := hread.symm.trans (h.run (consoleRead_inLoop n) x hrun).2.1
    cases hsame
    exact ⟨s', rfl, hunread⟩

/-- A reader sleeps, `ab` is typed, corrected to `ac` and ended with an end of file; the
reader returns and leaves it to the next one. -/
theorem line_discipline_eof : ∃ s : Terminal Nat,
    Reach (fun s act s' => s.exec act = some s') (fun _ _ => True) (start Nat) s ∧
    s.consumed = ['a'.toUInt8, 'c'.toUInt8] ∧ s.consumed = s.tty.committed.take s.tty.taken ∧
    ∃ s', s.run 1 (consoleRead 5) = (s', .returns 0 []) ∧ s.tty.unread = ctrl 'D' :: s'.tty.unread := by
  obtain ⟨s, hreach, hs⟩ := Reach.exists_of_any (show
    (runAll exec (fun _ _ => True) (start Nat)
      [.read 0 10, .intr ['a'.toUInt8, 'b'.toUInt8, ctrl 'H', 'c'.toUInt8, ctrl 'D'], .resume 0]).any
        (fun s => decide (s.consumed = ['a'.toUInt8, 'c'.toUInt8] ∧
          s.tty.unread.head? = some (ctrl 'D'))) = true by decide +kernel)
  obtain ⟨hconsumed, heof⟩ := of_decide_eq_true hs
  obtain ⟨-, -, hstream, -, -, -, hnext⟩ := line_discipline hreach
  exact ⟨s, hreach, hconsumed, hstream, hnext 1 5 (by decide) heof⟩

end Terminal

end OS2021.Core
