import OS2021.Common.Bitmap
import OS2021.Common.ListNode
import OS2021.Lib.Runs
import OS2021.Lib.Tally

/-! The arena allocator (`core/arena.c`).

An arena hands out objects of one size from pages. A page keeps a bitmap of its
objects and how many are in use; the pages form one circular list, which the arena
enters at a page that has room if any has. Allocation moves the entry on when it
fills a page, and a free moves the page of the object to the front, so that behind
the entry the pages with room come before the full ones. `Rep` is that invariant. -/
namespace OS2021.Core.Objects
open Lib Common Function

abbrev arenaPageSize : Nat := 4096
abbrev arenaMinObjectSize : Nat := 16

/-- `sizeof(ArenaPage)`: the owner, two links, a bitmap of four cells and the count. -/
abbrev arenaPageHeader : Nat := 64

abbrev arenaPageCapacity : Nat := arenaPageSize - arenaPageHeader

/-- `ArenaPage` but for its links. -/
structure ArenaPage where
  arena : Option Nat
  used : Bitmap
  count : Nat

/-- An arena, where it is, and the memory of the pages. -/
structure Arena where
  self : Nat
  objectSize : Nat
  maxCount : Nat
  pages : Option Nat
  numObjects : Nat
  numPages : Nat
  page : Nat → ArenaPage
  links : Links Nat

/-- The assertions, a `NULL` that is followed, and a page of another arena. -/
inductive Failure where
  | tooSmall
  | tooLarge
  | misaligned
  | failedToAllocate
  | unexpectedOffset
  | doubleFree
  | null
  | foreign
  deriving DecidableEq

/-- `init_arena`; the memory of the pages may hold anything. -/
def initArena (self objectSize : Nat) (page : Nat → ArenaPage) (links : Links Nat) : Except Failure Arena :=
  if objectSize < arenaMinObjectSize then .error .tooSmall
  else if arenaPageCapacity < objectSize then .error .tooLarge
  else .ok
    { self, objectSize, maxCount := arenaPageCapacity / objectSize, pages := none, numObjects := 0, numPages := 0
      page, links }

namespace Arena

def setPage (s : Arena) (p : Nat) (pg : ArenaPage) : Arena := {s with page := update s.page p pg}

def initArenaPage (s : Arena) (p : Nat) : Arena :=
  {s.setPage p ⟨some s.self, initBitmap, 0⟩ with links := initListNode s.links p}

def insertPage (s : Arena) (p : Nat) : Arena :=
  match s.pages with
  | some head => {s with
    pages := (mergeList s.links (some p) (some head)).1
    links := (mergeList s.links (some p) (some head)).2}
  | none => {s with pages := some p}

/-- `add_page`, with what `allocate()` returns. -/
def addPage (s : Arena) : Option Nat → Except Failure Arena
  | none => .ok s
  | some p =>
    if p % arenaPageSize ≠ 0 then .error .misaligned
    else
      let s := (s.initArenaPage p).insertPage p
      .ok {s with numPages := s.numPages + 1}

def full (s : Arena) (p : Nat) : Prop := s.maxCount ≤ (s.page p).count

instance (s : Arena) (p : Nat) : Decidable (s.full p) := inferInstanceAs (Decidable (_ ≤ _))

/-- There is no page, or the first one is full. -/
def needsPage (s : Arena) : Bool := s.pages.all fun p => s.full p

/-- The loop over the slots of a page. -/
def freeSlot (s : Arena) (p : Nat) : Option Nat :=
  (List.range s.maxCount).find? fun index => bitmapGet (s.page p).used index = false

/-- `page->data + index * object_size` -/
def objectAt (s : Arena) (p : Nat) (index : Nat) : Nat := p + arenaPageHeader + index * s.objectSize

/-- A slot of a page is taken; a page that is full now is left behind. -/
def takeSlot (s : Arena) (p : Nat) (index : Nat) : Arena :=
  let pg := s.page p
  let s := {s.setPage p {pg with used := bitmapSet pg.used index, count := pg.count + 1} with
    numObjects := s.numObjects + 1}
  if s.full p then {s with pages := some (s.links.next p)} else s

/-- If there is no available slot, add a new page. -/
def makeRoom (s : Arena) (fresh : Option Nat) : Except Failure Arena :=
  if s.needsPage then s.addPage fresh else .ok s

/-- `alloc_object`; `fresh` is what `allocate()` returns if it is called. -/
def allocObject (s : Arena) (fresh : Option Nat) : Except Failure (Nat × Arena) := do
  let s ← s.makeRoom fresh
  match s.pages with
  | none => .error .null
  | some p =>
    match s.freeSlot p with
    | none => .error .failedToAllocate
    | some index => return (s.objectAt p index, s.takeSlot p index)

/-- `get_container_page` -/
def getContainerPage (object : Nat) : Nat := object - object % arenaPageSize

def movePageToHead (s : Arena) (p : Nat) : Arena :=
  if s.pages ≠ some p then {s with links := (detachFromList s.links p).2}.insertPage p else s

/-- `(usize)object - (usize)page->data` -/
def offset (object p : Nat) : Nat := (object + 2 ^ 64 - (p + arenaPageHeader)) % 2 ^ 64

/-- A slot of a page is given back, and the page comes to the front. -/
def dropSlot (s : Arena) (p : Nat) (index : Nat) : Arena :=
  let pg := s.page p
  let s := {s.setPage p {pg with used := bitmapClear pg.used index, count := pg.count - 1} with
    numObjects := s.numObjects - 1}
  s.movePageToHead p

def freeObject (s : Arena) (object : Nat) : Except Failure Arena :=
  let p := getContainerPage object
  if (s.page p).arena ≠ some s.self then .error .foreign
  else if offset object p % s.objectSize ≠ 0 then .error .unexpectedOffset
  else if bitmapGet (s.page p).used (offset object p / s.objectSize) = false then .error .doubleFree
  else .ok (s.dropSlot p (offset object p / s.objectSize))

end Arena

/-! ### The invariant -/

/-- The pages of the arena, from `arena->pages` on. -/
structure Rep (s : Arena) (l : List Nat) : Prop where
  size : arenaMinObjectSize ≤ s.objectSize ∧ s.objectSize ≤ arenaPageCapacity
  maxCount : s.maxCount = arenaPageCapacity / s.objectSize
  ring : Ring s.links l
  pages : s.pages = l.head?
  aligned : ∀ p ∈ l, p % arenaPageSize = 0
  mine : ∀ p ∈ l, (s.page p).arena = some s.self
  count : ∀ p ∈ l, (s.page p).count = numSet (s.page p).used s.maxCount
  numObjects : s.numObjects = total (fun p => (s.page p).count) l
  numPages : s.numPages = l.length
  order : l.Pairwise fun p q => s.full p → s.full q

variable {s s' : Arena} {l l' : List Nat} {p q : Nat} {i j : Nat} {pg : ArenaPage}

/-- A slot is in use. -/
def Occupied (s : Arena) (l : List Nat) (o : Nat) : Prop :=
  ∃ p ∈ l, ∃ i < s.maxCount, bitmapGet (s.page p).used i = true ∧ o = s.objectAt p i

section
variable (h : Rep s l)
include h

theorem Rep.maxCount_pos : 0 < s.maxCount := by
  rw [h.maxCount]
  exact Nat.div_pos h.size.2 (Nat.lt_of_lt_of_le (by decide) h.size.1)

/-- An object lies in its page, behind the header. -/
theorem Rep.inside (hi : i < s.maxCount) :
    p + arenaPageHeader ≤ s.objectAt p i ∧ s.objectAt p i + s.objectSize ≤ p + arenaPageSize := by
  have hmul : (i + 1) * s.objectSize ≤ arenaPageCapacity := by
    rw [h.maxCount] at hi
    exact (Nat.mul_le_mul_right _ hi).trans (Nat.div_mul_le_self ..)
  rw [Nat.add_mul, Nat.one_mul] at hmul
  refine ⟨Nat.le_add_right .., ?_⟩
  show p + 64 + i * s.objectSize + s.objectSize ≤ p + 4096
  have hcap : i * s.objectSize + s.objectSize ≤ 4032 := hmul
  omega

/-- `get_container_page` finds the page of an object. -/
theorem Rep.container (hp : p % arenaPageSize = 0) (hi : i < s.maxCount) :
    Arena.getContainerPage (s.objectAt p i) = p := by
  obtain ⟨hlo, hhi⟩ := h.inside (p := p) hi
  have hsize : 16 ≤ s.objectSize := h.size.1
  have hp' : p % 4096 = 0 := hp
  have hlo' : p + 64 ≤ s.objectAt p i := hlo
  have hhi' : s.objectAt p i + s.objectSize ≤ p + 4096 := hhi
  show s.objectAt p i - s.objectAt p i % 4096 = p
  omega

theorem Rep.offset (hi : i < s.maxCount) : Arena.offset (s.objectAt p i) p = i * s.objectSize := by
  have hhi : s.objectAt p i + s.objectSize ≤ p + 4096 := (h.inside (p := p) hi).2
  have hat : s.objectAt p i = p + 64 + i * s.objectSize := rfl
  show (s.objectAt p i + 2 ^ 64 - (p + 64)) % 2 ^ 64 = _
  have hsub : s.objectAt p i + 2 ^ 64 - (p + 64) = i * s.objectSize + 2 ^ 64 := by omega
  rw [hsub, Nat.add_mod_right, Nat.mod_eq_of_lt (by omega)]

section
variable (hp : p % arenaPageSize = 0) (hq : q % arenaPageSize = 0) (hi : i < s.maxCount) (hj : j < s.maxCount)
include hp hq hi hj

/-- Different slots are different objects, and do not overlap. -/
theorem Rep.objectAt_inj (he : s.objectAt p i = s.objectAt q j) : p = q ∧ i = j := by
  have hpq : p = q := by rw [← h.container hp hi, he, h.container hq hj]
  subst hpq
  refine ⟨rfl, ?_⟩
  have hmul : i * s.objectSize = j * s.objectSize := Nat.add_left_cancel he
  have hsize : 16 ≤ s.objectSize := h.size.1
  exact Nat.eq_of_mul_eq_mul_right (by omega) hmul

/-- Two objects of one size share no byte. -/
def Apart (size a b : Nat) : Prop := a + size ≤ b ∨ b + size ≤ a

theorem Rep.apart (hne : s.objectAt p i ≠ s.objectAt q j) : Apart s.objectSize (s.objectAt p i) (s.objectAt q j) := by
  by_cases hpq : p = q
  · subst hpq
    have hslots : ∀ {a b}, a < b → s.objectAt p a + s.objectSize ≤ s.objectAt p b := by
      intro a b hab
      have hmul := Nat.mul_le_mul_right s.objectSize (Nat.succ_le_of_lt hab)
      rw [Nat.succ_mul] at hmul
      show p + 64 + a * s.objectSize + s.objectSize ≤ p + 64 + b * s.objectSize
      omega
    have hij : i ≠ j := fun he => hne (he ▸ rfl)
    rcases Nat.lt_or_gt_of_ne hij with hlt | hlt
    · exact Or.inl (hslots hlt)
    · exact Or.inr (hslots hlt)
  · have hlo : p + 64 ≤ s.objectAt p i := (h.inside (p := p) hi).1
    have hhi : s.objectAt p i + s.objectSize ≤ p + 4096 := (h.inside (p := p) hi).2
    have hlo' : q + 64 ≤ s.objectAt q j := (h.inside (p := q) hj).1
    have hhi' : s.objectAt q j + s.objectSize ≤ q + 4096 := (h.inside (p := q) hj).2
    have hp' : p % 4096 = 0 := hp
    have hq' : q % 4096 = 0 := hq
    show _ ≤ _ ∨ _ ≤ _
    omega

end

theorem Occupied.apart {a b : Nat} (ha : Occupied s l a) (hb : Occupied s l b) (hne : a ≠ b) :
    Apart s.objectSize a b := by
  obtain ⟨p, hp, i, hi, -, rfl⟩ := ha
  obtain ⟨q, hq, j, hj, -, rfl⟩ := hb
  exact h.apart (h.aligned p hp) (h.aligned q hq) hi hj hne

/-- An object lies in a page, behind the header. -/
def Within (size p o : Nat) : Prop := p + arenaPageHeader ≤ o ∧ o + size ≤ p + arenaPageSize

theorem Occupied.within {o : Nat} (ho : Occupied s l o) : ∃ p ∈ l, Within s.objectSize p o := by
  obtain ⟨p, hp, i, hi, -, rfl⟩ := ho
  exact ⟨p, hp, h.inside hi⟩

/-! ### One page changes -/

omit h in
theorem total_perm {f : Nat → Nat} (h : l'.Perm l) : total f l' = total f l := (h.map f).sum_eq

/-- One page gets other bits, and the list may be read from elsewhere or respliced. -/
theorem Rep.change (hp : p ∈ l) (hperm : l'.Perm l) (hring : Ring s'.links l') (hpages : s'.pages = l'.head?)
    (hpage : s'.page = update s.page p pg) (hmine : pg.arena = some s.self)
    (hcount : pg.count = numSet pg.used s.maxCount) (hself : s'.self = s.self) (hsize : s'.objectSize = s.objectSize)
    (hmax : s'.maxCount = s.maxCount) (hobjects : s'.numObjects + (s.page p).count = s.numObjects + pg.count)
    (hnum : s'.numPages = s.numPages) (horder : l'.Pairwise fun a b => s'.full a → s'.full b) : Rep s' l' where
  size := hsize ▸ h.size
  maxCount := by rw [hmax, hsize, h.maxCount]
  ring := hring
  pages := hpages
  aligned q hq := h.aligned q (hperm.mem_iff.mp hq)
  mine q hq := by
    rw [hpage, hself, update_apply]
    split
    · exact hmine
    · exact h.mine q (hperm.mem_iff.mp hq)
  count q hq := by
    rw [hpage, hmax, update_apply]
    split
    · exact hcount
    · exact h.count q (hperm.mem_iff.mp hq)
  numObjects := by
    have htotal := total_change (f := fun q => (s.page q).count) (g := fun q => (s'.page q).count) h.ring.nodup hp
      fun q _ hne => by rw [hpage, update_of_ne hne]
    have hnew : (s'.page p).count = pg.count := by rw [hpage, update_self]
    rw [total_perm hperm]
    rw [hnew, ← h.numObjects] at htotal
    omega
  numPages := by rw [hnum, h.numPages, hperm.length_eq]
  order := horder

end

/-- Which slots are in use after one page has changed. -/
theorem occupied_change (hperm : l'.Perm l) (hpage : s'.page = update s.page p pg)
    (hsize : s'.objectSize = s.objectSize) (hmax : s'.maxCount = s.maxCount) (hp : p ∈ l) (o : Nat) :
    Occupied s' l' o ↔ (∃ i < s.maxCount, bitmapGet pg.used i = true ∧ o = s.objectAt p i) ∨
      ∃ q ∈ l, q ≠ p ∧ ∃ i < s.maxCount, bitmapGet (s.page q).used i = true ∧ o = s.objectAt q i := by
  have hat : ∀ q i, s'.objectAt q i = s.objectAt q i := fun q i => by
    rw [Arena.objectAt, Arena.objectAt, hsize]
  constructor
  · intro ho
    obtain ⟨q, hq, i, hi, hbit, rfl⟩ := ho
    rw [hmax] at hi
    rw [hat]
    by_cases hqp : q = p
    · subst hqp
      rw [hpage, update_self] at hbit
      exact Or.inl ⟨i, hi, hbit, rfl⟩
    · rw [hpage, update_of_ne hqp] at hbit
      exact Or.inr ⟨q, hperm.mem_iff.mp hq, hqp, i, hi, hbit, rfl⟩
  · intro ho
    rcases ho with ⟨i, hi, hbit, rfl⟩ | ⟨q, hq, hqp, i, hi, hbit, rfl⟩
    · exact ⟨p, hperm.mem_iff.mpr hp, i, hmax ▸ hi, by rw [hpage, update_self]; exact hbit, (hat p i).symm⟩
    · exact ⟨q, hperm.mem_iff.mpr hq, i, hmax ▸ hi, by rw [hpage, update_of_ne hqp]; exact hbit,
        (hat q i).symm⟩

theorem full_change (hpage : s'.page = update s.page p pg) (hmax : s'.maxCount = s.maxCount) (hq : q ≠ p) :
    s'.full q ↔ s.full q := by
  rw [Arena.full, Arena.full, hpage, hmax, update_of_ne hq]

/-- The pages behind are as before. -/
theorem order_change (h : l.Pairwise fun a b => s.full a → s.full b) (hp : p ∉ l)
    (hpage : s'.page = update s.page p pg) (hmax : s'.maxCount = s.maxCount) :
    l.Pairwise fun a b => s'.full a → s'.full b := by
  refine h.imp_of_mem fun {a b} ha hb hab => ?_
  have hne : ∀ q ∈ l, q ≠ p := fun q hq he => hp (he ▸ hq)
  rwa [full_change hpage hmax (hne a ha), full_change hpage hmax (hne b hb)]

/-! ### A new page -/

/-- What `add_page` leaves: an empty page, linked before the others. -/
theorem addPage_eq (hring : Ring s.links l) (hpages : s.pages = l.head?) (hp : p ∉ l)
    (halign : p % arenaPageSize = 0) :
    ∃ L, Ring L (p :: l) ∧ s.addPage (some p) = .ok {s with
      page := update s.page p ⟨some s.self, initBitmap, 0⟩
      links := L, pages := some p, numPages := s.numPages + 1} := by
  have hadd : s.addPage (some p) = .ok {(s.initArenaPage p).insertPage p with
      numPages := ((s.initArenaPage p).insertPage p).numPages + 1} := by
    rw [Arena.addPage, if_neg (not_not.mpr halign)]
  cases l with
  | nil =>
    have hnone : (s.initArenaPage p).pages = none := hpages
    refine ⟨initListNode s.links p, Ring.alone, ?_⟩
    rw [hadd, Arena.insertPage, hnone]
    rfl
  | cons head rest =>
    have hsome : (s.initArenaPage p).pages = some head := hpages
    have hout : ∀ x ∈ [p], x ∉ head :: rest := fun x hx => List.mem_singleton.mp hx ▸ hp
    refine ⟨(initListNode s.links p).join p head, ?_, ?_⟩
    · have hjoin := (Ring.alone (L := s.links)).join (hring.alone_of_not_mem hp) hout
      rwa [List.append_nil] at hjoin
    · rw [hadd, Arena.insertPage, hsome]
      rfl

/-- A fresh page goes to the front; it is not full. -/
theorem Rep.addPage (h : Rep s l) (hp : p ∉ l) (halign : p % arenaPageSize = 0) (hfull : ∀ q ∈ l, s.full q) :
    ∃ s', s.addPage (some p) = .ok s' ∧ Rep s' (p :: l) ∧ (∀ o, Occupied s' (p :: l) o ↔ Occupied s l o) ∧
      ¬ s'.full p ∧ s'.objectSize = s.objectSize := by
  obtain ⟨L, hring, hadd⟩ := addPage_eq h.ring h.pages hp halign
  have hold : ∀ q ∈ l, update s.page p ⟨some s.self, initBitmap, 0⟩ q = s.page q := fun q hq =>
    update_of_ne (fun he : q = p => hp (he ▸ hq)) _ _
  have hnew : update s.page p ⟨some s.self, initBitmap, 0⟩ p = ⟨some s.self, initBitmap, 0⟩ :=
    update_self ..
  have hroom : ¬ s.maxCount ≤ (update s.page p ⟨some s.self, initBitmap, 0⟩ p).count := by
    rw [hnew]
    exact not_le.mpr h.maxCount_pos
  refine ⟨_, hadd, ?_, fun o => ?_, hroom, rfl⟩
  · refine ⟨h.size, h.maxCount, hring, rfl, fun q hq => ?_, fun q hq => ?_, fun q hq => ?_, ?_, ?_, ?_⟩
    · rcases List.mem_cons.mp hq with rfl | hq
      · exact halign
      · exact h.aligned q hq
    · show (update s.page p _ q).arena = _
      rcases List.mem_cons.mp hq with rfl | hq
      · rw [hnew]
      · rw [hold q hq]
        exact h.mine q hq
    · show (update s.page p _ q).count = numSet (update s.page p _ q).used _
      rcases List.mem_cons.mp hq with rfl | hq
      · rw [hnew, numSet_init]
      · rw [hold q hq]
        exact h.count q hq
    · show s.numObjects = total (fun q => (update s.page p _ q).count) (p :: l)
      rw [total_cons, hnew, Nat.zero_add, h.numObjects]
      exact (total_congr fun q hq => by rw [hold q hq]).symm
    · show s.numPages + 1 = l.length + 1
      rw [h.numPages]
    · have hrest : ∀ q ∈ l, s.maxCount ≤ (update s.page p ⟨some s.self, initBitmap, 0⟩ q).count :=
        fun q hq => by rw [hold q hq]; exact hfull q hq
      exact List.pairwise_cons.mpr ⟨fun q _ hf => absurd hf hroom,
        List.pairwise_of_forall_mem_list fun _ _ q hq _ => hrest q hq⟩
  · constructor
    · intro ho
      obtain ⟨q, hq, i, hi, hbit, rfl⟩ := ho
      replace hbit : bitmapGet (update s.page p ⟨some s.self, initBitmap, 0⟩ q).used i = true := hbit
      rcases List.mem_cons.mp hq with rfl | hq
      · rw [hnew, bitmapGet_init] at hbit
        cases hbit
      · rw [hold q hq] at hbit
        exact ⟨q, hq, i, hi, hbit, rfl⟩
    · intro ho
      obtain ⟨q, hq, i, hi, hbit, rfl⟩ := ho
      refine ⟨q, List.mem_cons_of_mem p hq, i, hi, ?_, rfl⟩
      show bitmapGet (update s.page p ⟨some s.self, initBitmap, 0⟩ q).used i = true
      rw [hold q hq]
      exact hbit

/-! ### A slot is taken -/

/-- The slots in use, those of one page apart. -/
theorem occupied_split (hp : p ∈ l) (o : Nat) :
    Occupied s l o ↔ (∃ i < s.maxCount, bitmapGet (s.page p).used i = true ∧ o = s.objectAt p i) ∨
      ∃ q ∈ l, q ≠ p ∧ ∃ i < s.maxCount, bitmapGet (s.page q).used i = true ∧ o = s.objectAt q i :=
  occupied_change (.refl l) (update_eq_self p s.page).symm rfl rfl hp o

/-- A page with `index` taken. -/
def taken (pg : ArenaPage) (index : Nat) : ArenaPage :=
  {pg with used := bitmapSet pg.used index, count := pg.count + 1}

theorem takeSlot_page (s : Arena) (p i : Nat) :
    (s.takeSlot p i).page = update s.page p (taken (s.page p) i) ∧ (s.takeSlot p i).maxCount = s.maxCount ∧
      (s.takeSlot p i).objectSize = s.objectSize ∧ (s.takeSlot p i).self = s.self ∧
      (s.takeSlot p i).links = s.links ∧ (s.takeSlot p i).numObjects = s.numObjects + 1 ∧
      (s.takeSlot p i).numPages = s.numPages := by
  unfold Arena.takeSlot
  dsimp only
  split <;> exact ⟨rfl, rfl, rfl, rfl, rfl, rfl, rfl⟩

/-- The first page stays unless it is full now. -/
theorem takeSlot_pages (s : Arena) (p i : Nat) :
    (s.takeSlot p i).pages = if (s.takeSlot p i).full p then some (s.links.next p) else s.pages := by
  unfold Arena.takeSlot
  dsimp only
  split
  next hfull => exact (if_pos hfull).symm
  next => rfl

theorem Rep.takeSlot (h : Rep s (p :: l)) (hi : i < s.maxCount) (hfree : bitmapGet (s.page p).used i = false) :
    ∃ l', l'.Perm (p :: l) ∧ Rep (s.takeSlot p i) l' ∧
      ∀ o, Occupied (s.takeSlot p i) l' o ↔ o = s.objectAt p i ∨ Occupied s (p :: l) o := by
  have hp : p ∈ p :: l := List.mem_cons_self ..
  obtain ⟨hpage, hmax, hsize, hself, hlinks, hobjects, hnum⟩ := takeSlot_page s p i
  have hcount : (taken (s.page p) i).count = numSet (taken (s.page p) i).used s.maxCount := by
    show (s.page p).count + 1 = numSet (bitmapSet (s.page p).used i) s.maxCount
    rw [numSet_set hi hfree, h.count p hp]
  have hbits : ∀ l', l'.Perm (p :: l) →
      ∀ o, Occupied (s.takeSlot p i) l' o ↔ o = s.objectAt p i ∨ Occupied s (p :: l) o := by
    intro l' hperm o
    rw [occupied_change hperm hpage hsize hmax hp, occupied_split hp, ← or_assoc]
    refine or_congr_left ?_
    show (∃ j < s.maxCount, bitmapGet (bitmapSet (s.page p).used i) j = true ∧ _) ↔ _
    simp only [bitmapGet_set, Bool.or_eq_true, decide_eq_true_eq]
    constructor
    · intro ho
      obtain ⟨j, hj, rfl | hbit, hat⟩ := ho
      · exact Or.inl hat
      · exact Or.inr ⟨j, hj, hbit, hat⟩
    · intro ho
      rcases ho with hat | ⟨j, hj, hbit, hat⟩
      · exact ⟨i, hi, Or.inl rfl, hat⟩
      · exact ⟨j, hj, Or.inr hbit, hat⟩
  obtain ⟨hpl, hnl⟩ := List.nodup_cons.mp h.ring.nodup
  have hbehind := order_change (List.pairwise_cons.mp h.order).2 hpl hpage hmax
  have hsum : (s.takeSlot p i).numObjects + (s.page p).count = s.numObjects + (taken (s.page p) i).count := by
    rw [hobjects]
    show s.numObjects + 1 + _ = s.numObjects + ((s.page p).count + 1)
    omega
  by_cases hfull : (s.takeSlot p i).full p
  · -- the page is full now and becomes the last one
    have hperm : (l ++ [p]).Perm (p :: l) := List.perm_append_comm
    have hfront : Ring s.links ([p] ++ l) := h.ring
    refine ⟨l ++ [p], hperm, ?_, hbits _ hperm⟩
    refine h.change hp hperm (hlinks ▸ hfront.rotate) ?_ hpage (h.mine p hp) hcount hself hsize hmax hsum hnum ?_
    · rw [takeSlot_pages, if_pos hfull]
      have hnext : s.links.Adjacent p ((l ++ [p]).head (by simp)) := by
        cases l with
        | nil | cons q rest => exact (List.isChain_cons_cons.mp h.ring.round).1
      rw [hnext.1, List.head?_eq_some_head]
    · refine List.pairwise_append.mpr ⟨hbehind, List.pairwise_singleton _ p, fun a _ b hb _ => ?_⟩
      exact List.mem_singleton.mp hb ▸ hfull
  · refine ⟨p :: l, .refl _, ?_, hbits _ (.refl _)⟩
    refine h.change hp (.refl _) (hlinks ▸ h.ring) ?_ hpage (h.mine p hp) hcount hself hsize hmax hsum hnum ?_
    · rw [takeSlot_pages, if_neg hfull]
      exact h.pages
    · exact List.pairwise_cons.mpr ⟨fun _ _ hf => absurd hf hfull, hbehind⟩

/-! ### A slot is given back -/

/-- A page with `index` given back. -/
def dropped (pg : ArenaPage) (index : Nat) : ArenaPage :=
  {pg with used := bitmapClear pg.used index, count := pg.count - 1}

/-- The state of `dropSlot` before the page is moved. -/
def dropOnly (s : Arena) (p index : Nat) : Arena :=
  {s.setPage p (dropped (s.page p) index) with numObjects := s.numObjects - 1}

/-- The page comes to the front of the list. -/
theorem dropSlot_eq (hring : Ring s.links l) (hpages : s.pages = l.head?) (hp : p ∈ l) :
    ∃ L rest, Ring L (p :: rest) ∧ (p :: rest).Perm l ∧ rest.Sublist l ∧
      s.dropSlot p i = {dropOnly s p i with links := L, pages := some p} := by
  have hdrop : s.dropSlot p i = (dropOnly s p i).movePageToHead p := rfl
  cases l with
  | nil => cases hp
  | cons head behind =>
    have hhead : (dropOnly s p i).pages = some head := hpages
    by_cases hph : head = p
    · subst hph
      refine ⟨s.links, behind, hring, .refl _, List.sublist_cons_self .., ?_⟩
      rw [hdrop, Arena.movePageToHead, if_neg (not_not.mpr hhead), ← hhead]
      rfl
    · obtain ⟨l1, l2, rfl⟩ := List.append_of_mem ((List.mem_cons.mp hp).resolve_left (Ne.symm hph))
      have hmid : Ring s.links ((head :: l1) ++ p :: l2) := hring
      have hout : Ring (s.links.unlink p) (head :: (l1 ++ l2)) := hmid.unlink_middle
      have hperm : (p :: ((head :: l1) ++ l2)).Perm ((head :: l1) ++ p :: l2) := List.perm_middle.symm
      have hne : ∀ x ∈ [p], x ∉ head :: (l1 ++ l2) := fun x hx =>
        List.mem_singleton.mp hx ▸ (List.nodup_cons.mp (hperm.nodup_iff.mpr hring.nodup)).1
      refine ⟨(s.links.unlink p).join p head, head :: (l1 ++ l2), ?_, hperm, ?_, ?_⟩
      · have hjoin := (Ring.unlinked s.links p).join hout hne
        rwa [List.append_nil] at hjoin
      · exact ((List.sublist_cons_self p l2).append_left l1).cons_cons head
      · have hmoved : (dropOnly s p i).pages ≠ some p := by
          rw [hhead]
          exact fun he => hph (Option.some.inj he)
        rw [hdrop, Arena.movePageToHead, if_pos hmoved, Arena.insertPage]
        show (match (dropOnly s p i).pages with | some head => _ | none => _) = _
        rw [hhead]
        rfl

theorem Rep.dropSlot (h : Rep s l) (hp : p ∈ l) (hi : i < s.maxCount) (hused : bitmapGet (s.page p).used i = true) :
    ∃ l', l'.Perm l ∧ Rep (s.dropSlot p i) l' ∧
      ∀ o, Occupied (s.dropSlot p i) l' o ↔ Occupied s l o ∧ o ≠ s.objectAt p i := by
  obtain ⟨L, rest, hring, hperm, hsub, heq⟩ := dropSlot_eq (i := i) h.ring h.pages hp
  have hpage : (s.dropSlot p i).page = update s.page p (dropped (s.page p) i) := by rw [heq]; rfl
  have hmax : (s.dropSlot p i).maxCount = s.maxCount := by rw [heq]; rfl
  have hsize : (s.dropSlot p i).objectSize = s.objectSize := by rw [heq]; rfl
  have hbit := numSet_clear hi hused
  have hold := h.count p hp
  have hcount : (dropped (s.page p) i).count = numSet (dropped (s.page p) i).used s.maxCount := by
    show (s.page p).count - 1 = numSet (bitmapClear (s.page p).used i) s.maxCount
    omega
  have hroom : ¬ (s.dropSlot p i).full p := by
    have hle := numSet_le (s.page p).used s.maxCount
    rw [Arena.full, hmax, hpage, update_self, hcount]
    show ¬ s.maxCount ≤ numSet (bitmapClear (s.page p).used i) s.maxCount
    omega
  have hsum : (s.dropSlot p i).numObjects + (s.page p).count = s.numObjects + (dropped (s.page p) i).count := by
    have htotal := total_erase (fun q => (s.page q).count) hp
    have hall := h.numObjects
    rw [heq]
    show s.numObjects - 1 + (s.page p).count = s.numObjects + ((s.page p).count - 1)
    omega
  refine ⟨p :: rest, hperm, ?_, fun o => ?_⟩
  · refine h.change hp hperm (heq ▸ hring) (by rw [heq]; rfl) hpage (h.mine p hp) hcount (by rw [heq]; rfl) hsize hmax
      hsum (by rw [heq]; rfl) ?_
    have hpr := (List.nodup_cons.mp hring.nodup).1
    exact List.pairwise_cons.mpr
      ⟨fun _ _ hf => absurd hf hroom, order_change (h.order.sublist hsub) hpr hpage hmax⟩
  · rw [occupied_change hperm hpage hsize hmax hp, occupied_split hp, or_and_right]
    refine or_congr ?_ ?_
    · show (∃ j < s.maxCount, bitmapGet (bitmapClear (s.page p).used i) j = true ∧ _) ↔ _
      simp only [bitmapGet_clear, Bool.and_eq_true, Bool.not_eq_true', decide_eq_false_iff_not]
      constructor
      · intro ho
        obtain ⟨j, hj, ⟨hne, hbit⟩, rfl⟩ := ho
        exact ⟨⟨j, hj, hbit, rfl⟩, fun he => hne (h.objectAt_inj (h.aligned p hp) (h.aligned p hp) hj hi he).2⟩
      · intro ho
        obtain ⟨⟨j, hj, hbit, rfl⟩, hne⟩ := ho
        exact ⟨j, hj, ⟨fun he => hne (he ▸ rfl), hbit⟩, rfl⟩
    · refine iff_self_and.mpr fun ho he => ?_
      obtain ⟨q, hq, hqp, j, hj, -, rfl⟩ := ho
      exact hqp (h.objectAt_inj (h.aligned q hq) (h.aligned p hp) hj hi he).1

/-! ### The two calls -/

/-- The first page is full only if all are. -/
theorem Rep.needsPage_iff (h : Rep s l) : s.needsPage = true ↔ ∀ q ∈ l, s.full q := by
  rw [Arena.needsPage, h.pages]
  cases l with
  | nil => exact iff_of_true rfl fun q hq => absurd hq List.not_mem_nil
  | cons p rest =>
    show decide (s.full p) = true ↔ _
    rw [decide_eq_true_iff, List.forall_mem_cons]
    exact ⟨fun hp => ⟨hp, fun q hq => (List.pairwise_cons.mp h.order).1 q hq hp⟩, And.left⟩

/-- A page with room has a slot the loop finds. -/
theorem Rep.freeSlot (h : Rep s l) (hp : p ∈ l) (hroom : ¬ s.full p) :
    ∃ i < s.maxCount, s.freeSlot p = some i ∧ bitmapGet (s.page p).used i = false := by
  have hlt : numSet (s.page p).used s.maxCount < s.maxCount := by
    rw [← h.count p hp]
    exact not_le.mp hroom
  obtain ⟨j, hj, hfree⟩ := numSet_lt.mp hlt
  cases hfind : s.freeSlot p with
  | none => exact absurd (decide_eq_true hfree) (List.find?_eq_none.mp hfind j (List.mem_range.mpr hj))
  | some i =>
    have hfree := List.find?_some (p := fun index => decide (bitmapGet (s.page p).used index = false)) hfind
    exact ⟨i, List.mem_range.mp (List.mem_of_find?_eq_some hfind), rfl, of_decide_eq_true hfree⟩

/-- What `alloc_object` does with a page that has room at the front. -/
theorem Rep.allocObject_room (h : Rep s (p :: l)) (hroom : ¬ s.full p) :
    ∃ i < s.maxCount, s.freeSlot p = some i ∧ ¬ Occupied s (p :: l) (s.objectAt p i) ∧
      ∃ l', l'.Perm (p :: l) ∧ Rep (s.takeSlot p i) l' ∧
        ∀ x, Occupied (s.takeSlot p i) l' x ↔ x = s.objectAt p i ∨ Occupied s (p :: l) x := by
  have hp : p ∈ p :: l := List.mem_cons_self ..
  obtain ⟨i, hi, hslot, hfree⟩ := h.freeSlot hp hroom
  refine ⟨i, hi, hslot, fun ho => ?_, h.takeSlot hi hfree⟩
  obtain ⟨q, hq, j, hj, hbit, hat⟩ := ho
  obtain ⟨rfl, rfl⟩ := h.objectAt_inj (h.aligned p hp) (h.aligned q hq) hi hj hat
  rw [hfree] at hbit
  cases hbit

/-- The page `alloc_object` looks at is the first one of the list it then has. -/
theorem allocObject_eq {fresh : Option Nat} (hs : s.makeRoom fresh = .ok s')
    (hpages : s'.pages = some p) (hslot : s'.freeSlot p = some i) :
    s.allocObject fresh = .ok (s'.objectAt p i, s'.takeSlot p i) := by
  rw [Arena.allocObject, hs]
  show (match s'.pages with | none => _ | some p => _) = _
  rw [hpages]
  show (match s'.freeSlot p with | none => _ | some index => _) = _
  rw [hslot]
  rfl

theorem Rep.allocObject {fresh : Nat} (h : Rep s l)
    (hfresh : s.needsPage = true → fresh % arenaPageSize = 0 ∧ fresh ∉ l) :
    ∃ o s' l', s.allocObject (some fresh) = .ok (o, s') ∧ Rep s' l' ∧
      (∀ q ∈ l', q ∈ l ∨ s.needsPage = true ∧ q = fresh) ∧ ¬ Occupied s l o ∧
      (∀ x, Occupied s' l' x ↔ x = o ∨ Occupied s l x) ∧ s'.objectSize = s.objectSize := by
  by_cases hneeds : s.needsPage = true
  · obtain ⟨halign, hnew⟩ := hfresh hneeds
    obtain ⟨s1, hadd, h1, hocc, hroom, hsize⟩ := h.addPage hnew halign (h.needsPage_iff.mp hneeds)
    obtain ⟨i, hi, hslot, hout, l', hperm, h', hocc'⟩ := h1.allocObject_room hroom
    refine ⟨_, _, l', allocObject_eq ((if_pos hneeds).trans hadd) h1.pages hslot, h', fun q hq => ?_, ?_, fun x => ?_,
      (takeSlot_page s1 fresh i).2.2.1.trans hsize⟩
    · rcases List.mem_cons.mp (hperm.mem_iff.mp hq) with he | hq
      · exact Or.inr ⟨hneeds, he⟩
      · exact Or.inl hq
    · rwa [← hocc]
    · rw [hocc', hocc]
  · cases l with
    | nil => exact absurd (h.needsPage_iff.mpr fun q hq => absurd hq List.not_mem_nil) hneeds
    | cons p rest =>
      have hroom : ¬ s.full p := fun hf =>
        hneeds (h.needsPage_iff.mpr (List.forall_mem_cons.mpr ⟨hf, fun q hq =>
          (List.pairwise_cons.mp h.order).1 q hq hf⟩))
      obtain ⟨i, hi, hslot, hout, l', hperm, h', hocc'⟩ := h.allocObject_room hroom
      exact ⟨_, _, l', allocObject_eq (if_neg hneeds) h.pages hslot, h',
        fun q hq => Or.inl (hperm.mem_iff.mp hq), hout, hocc', (takeSlot_page s p i).2.2.1⟩

/-- The page and the slot that `free_object` works out. -/
theorem Rep.located (h : Rep s l) (hp : p ∈ l) (hi : i < s.maxCount) :
    Arena.getContainerPage (s.objectAt p i) = p ∧ Arena.offset (s.objectAt p i) p % s.objectSize = 0 ∧
      Arena.offset (s.objectAt p i) p / s.objectSize = i := by
  have hpos : 0 < s.objectSize := Nat.lt_of_lt_of_le (by decide) h.size.1
  rw [h.container (h.aligned p hp) hi, h.offset hi]
  exact ⟨rfl, Nat.mul_mod_left .., Nat.mul_div_cancel i hpos⟩

theorem Rep.freeObject (h : Rep s l) (hp : p ∈ l) (hi : i < s.maxCount) (hused : bitmapGet (s.page p).used i = true) :
    s.freeObject (s.objectAt p i) = .ok (s.dropSlot p i) := by
  obtain ⟨hpage, hmod, hdiv⟩ := h.located hp hi
  have hset : ¬ bitmapGet (s.page p).used i = false := by
    rw [hused]
    decide
  rw [Arena.freeObject, hpage, if_neg (not_not.mpr (h.mine p hp)), if_neg (not_not.mpr hmod), hdiv, if_neg hset]

/-! ### Histories -/

/-- An arena with the pages it was given and the objects that are out. -/
structure Heap where
  arena : Arena
  given : List Nat
  live : List Nat

/-- `alloc` has the page that `allocate()` would return. -/
inductive Call where
  | alloc (fresh : Nat)
  | free (object : Nat)
  deriving DecidableEq

namespace Heap

def exec (h : Heap) : Call → Except Failure Heap
  | .alloc fresh => do
    let (object, arena) ← h.arena.allocObject (some fresh)
    return ⟨arena, if h.arena.needsPage then fresh :: h.given else h.given, object :: h.live⟩
  | .free object => do
    let arena ← h.arena.freeObject object
    return ⟨arena, h.given, h.live.erase object⟩

/-- A page that is asked for is aligned and new; what is freed was allocated and not yet freed. -/
def Allowed (h : Heap) : Call → Prop
  | .alloc fresh => h.arena.needsPage = true → fresh % arenaPageSize = 0 ∧ fresh ∉ h.given
  | .free object => object ∈ h.live

instance (h : Heap) : (c : Call) → Decidable (h.Allowed c)
  | .alloc fresh => inferInstanceAs (Decidable (_ = true → fresh % arenaPageSize = 0 ∧ fresh ∉ h.given))
  | .free object => inferInstanceAs (Decidable (object ∈ h.live))

/-- A call that does not fail. -/
def step (h : Heap) (c : Call) : Option Heap := (h.exec c).toOption

/-- The objects that are out are the slots in use. -/
structure Valid (size : Nat) (h : Heap) (l : List Nat) : Prop where
  rep : Rep h.arena l
  objectSize : h.arena.objectSize = size
  given : ∀ p ∈ l, p ∈ h.given
  nodup : h.live.Nodup
  live : ∀ o, o ∈ h.live ↔ Occupied h.arena l o

variable {h h' : Heap} {size : Nat} {c : Call}

theorem Valid.alloc {fresh : Nat} (hv : Valid size h l) (hok : h.Allowed (.alloc fresh)) :
    ∃ o s', h.arena.allocObject (some fresh) = .ok (o, s') ∧ o ∉ h.live ∧
      ∃ l', (∀ q ∈ l', q ∈ l ∨ h.arena.needsPage = true ∧ q = fresh) ∧
        Valid size ⟨s', if h.arena.needsPage then fresh :: h.given else h.given, o :: h.live⟩ l' := by
  obtain ⟨o, s', l', halloc, hrep, hmem, hout, hocc, hsize⟩ :=
    hv.rep.allocObject fun hneeds => ⟨(hok hneeds).1, fun hin => (hok hneeds).2 (hv.given fresh hin)⟩
  have hnew : o ∉ h.live := fun hin => hout ((hv.live o).mp hin)
  refine ⟨o, s', halloc, hnew, l', hmem, hrep, hsize.trans hv.objectSize, fun q hq => ?_,
    List.nodup_cons.mpr ⟨hnew, hv.nodup⟩, fun x => ?_⟩
  · rcases hmem q hq with hq | ⟨hneeds, rfl⟩
    · show q ∈ if h.arena.needsPage then fresh :: h.given else h.given
      split
      · exact List.mem_cons_of_mem fresh (hv.given q hq)
      · exact hv.given q hq
    · show q ∈ if h.arena.needsPage then q :: h.given else h.given
      rw [if_pos hneeds]
      exact List.mem_cons_self ..
  · rw [hocc, List.mem_cons, hv.live]

theorem Valid.free {o : Nat} (hv : Valid size h l) (ho : o ∈ h.live) :
    ∃ p ∈ l, ∃ i < h.arena.maxCount, o = h.arena.objectAt p i ∧ bitmapGet (h.arena.page p).used i = true ∧
      h.arena.freeObject o = .ok (h.arena.dropSlot p i) ∧
      ∃ l', l'.Perm l ∧ Valid size ⟨h.arena.dropSlot p i, h.given, h.live.erase o⟩ l' := by
  obtain ⟨p, hp, i, hi, hbit, rfl⟩ := (hv.live o).mp ho
  obtain ⟨l', hperm, hrep, hocc⟩ := hv.rep.dropSlot hp hi hbit
  refine ⟨p, hp, i, hi, rfl, hbit, hv.rep.freeObject hp hi hbit, l', hperm, hrep, ?_,
    fun q hq => hv.given q (hperm.mem_iff.mp hq), hv.nodup.erase _, fun x => ?_⟩
  · obtain ⟨L, rest, -, -, -, heq⟩ := dropSlot_eq (i := i) hv.rep.ring hv.rep.pages hp
    rw [heq]
    exact hv.objectSize
  · rw [hocc, hv.nodup.mem_erase_iff, hv.live, and_comm]

/-- A call keeps the invariant. -/
theorem Valid.step (hv : ∃ l, Valid size h l) (hok : h.Allowed c) (hs : h.step c = some h') :
    ∃ l, Valid size h' l := by
  obtain ⟨l, hv⟩ := hv
  cases c with
  | alloc fresh =>
    obtain ⟨o, s', halloc, -, l', -, hv'⟩ := hv.alloc hok
    have hexec : h.step (.alloc fresh) =
        some ⟨s', if h.arena.needsPage then fresh :: h.given else h.given, o :: h.live⟩ := by
      rw [Heap.step, exec, halloc]
      rfl
    obtain rfl := Option.some.inj (hexec.symm.trans hs)
    exact ⟨l', hv'⟩
  | free o =>
    obtain ⟨p, -, i, -, -, -, hfree, l', -, hv'⟩ := hv.free hok
    have hexec : h.step (.free o) = some ⟨h.arena.dropSlot p i, h.given, h.live.erase o⟩ := by
      rw [Heap.step, exec, hfree]
      rfl
    obtain rfl := Option.some.inj (hexec.symm.trans hs)
    exact ⟨l', hv'⟩

/-- The objects that are out lie in the pages, and share nothing. -/
theorem Valid.objects (hv : Valid size h l) :
    h.live.Pairwise (Apart size) ∧ ∀ o ∈ h.live, ∃ p ∈ l, Within size p o := by
  constructor
  · refine hv.nodup.imp_of_mem fun {a b} ha hb hne => ?_
    exact hv.objectSize ▸ Occupied.apart hv.rep ((hv.live a).mp ha) ((hv.live b).mp hb) hne
  · intro o ho
    exact hv.objectSize ▸ Occupied.within hv.rep ((hv.live o).mp ho)

theorem initArena_valid (self : Nat) (page : Nat → ArenaPage) (links : Links Nat) (hlo : arenaMinObjectSize ≤ size)
    (hhi : size ≤ arenaPageCapacity) :
    ∃ a, initArena self size page links = .ok a ∧ Valid size ⟨a, [], []⟩ [] := by
  refine ⟨_, (if_neg (not_lt.mpr hlo)).trans (if_neg (not_lt.mpr hhi)), ⟨⟨hlo, hhi⟩, rfl,
    ⟨List.nodup_nil, Cycle.Chain.nil _⟩, rfl, ?_, ?_, ?_, rfl, rfl, List.Pairwise.nil⟩, rfl, ?_, List.nodup_nil, ?_⟩
  iterate 4 exact fun p hp => absurd hp List.not_mem_nil
  intro o
  refine iff_of_false List.not_mem_nil fun ho => ?_
  obtain ⟨p, hp, -⟩ := ho
  exact absurd hp List.not_mem_nil

/-- **The arena.** For every object size it accepts, after any calls that free only what is
out and get new pages: the pages form a ring with the right counts, those with room before
the full ones. A page is asked for only if all are full, an allocation succeeds and returns
bytes of a page that no object has, and a free finds its page and slot. -/
theorem arena_sound (self size : Nat) (page : Nat → ArenaPage) (links : Links Nat) (hlo : arenaMinObjectSize ≤ size)
    (hhi : size ≤ arenaPageCapacity) :
    ∃ a, initArena self size page links = .ok a ∧
      ∀ h, Reach (fun h c h' => step h c = some h') Allowed ⟨a, [], []⟩ h →
        ∃ l, Rep h.arena l ∧ h.arena.objectSize = size ∧
          h.live.Pairwise (Apart size) ∧ (∀ o ∈ h.live, ∃ p ∈ l, Within size p o) ∧
          (h.arena.needsPage = true ↔ ∀ p ∈ l, h.arena.full p) ∧
          ((∃ p ∈ l, ¬ h.arena.full p) → ∀ fresh, h.arena.allocObject fresh = h.arena.allocObject none) ∧
          (∀ fresh, h.Allowed (.alloc fresh) →
            ∃ o s', h.arena.allocObject (some fresh) = .ok (o, s') ∧ (∀ o' ∈ h.live, Apart size o o') ∧
              ∃ p, (p ∈ l ∨ h.arena.needsPage = true ∧ p = fresh) ∧ Within size p o) ∧
          ∀ o ∈ h.live, ∃ p ∈ l, ∃ i < h.arena.maxCount,
            o = h.arena.objectAt p i ∧ Arena.getContainerPage o = p ∧ Arena.offset o p / h.arena.objectSize = i ∧
            bitmapGet (h.arena.page p).used i = true ∧ h.arena.freeObject o = .ok (h.arena.dropSlot p i) := by
  obtain ⟨a, hinit, hstart⟩ := initArena_valid self page links hlo hhi
  refine ⟨a, hinit, fun h hreach => ?_⟩
  obtain ⟨l, hv⟩ := hreach.invariant (I := fun h => ∃ l, Valid size h l) ⟨[], hstart⟩
    fun _ _ _ hv hok hs => Valid.step hv hok hs
  obtain ⟨hapart, hwithin⟩ := hv.objects
  refine ⟨l, hv.rep, hv.objectSize, hapart, hwithin, hv.rep.needsPage_iff, fun hroom fresh => ?_, fun fresh hok => ?_,
    fun o ho => ?_⟩
  · obtain ⟨p, hp, hroom⟩ := hroom
    have hneeds : ¬ h.arena.needsPage = true := fun hn => hroom (hv.rep.needsPage_iff.mp hn p hp)
    have hsame : ∀ fresh, h.arena.makeRoom fresh = .ok h.arena := fun _ => if_neg hneeds
    rw [Arena.allocObject, Arena.allocObject, hsame, hsame]
  · obtain ⟨o, s', halloc, -, l', hmem, hv'⟩ := hv.alloc hok
    obtain ⟨hapart', hwithin'⟩ := hv'.objects
    obtain ⟨p, hp, hin⟩ := hwithin' o (List.mem_cons_self ..)
    exact ⟨o, s', halloc, (List.pairwise_cons.mp hapart').1, p, hmem p hp, hin⟩
  · obtain ⟨p, hp, i, hi, rfl, hbit, hfree, -⟩ := hv.free ho
    obtain ⟨hpage, -, hdiv⟩ := hv.rep.located hp hi
    exact ⟨p, hp, i, hi, rfl, hpage, hdiv, hbit, hfree⟩

/-- Objects of half a page: the first page fills, a second one comes, and a free brings the
first page back to the front. -/
theorem arena_sound_two_pages : ∃ a h l, initArena 0 2000 (fun _ => ⟨none, initBitmap, 0⟩) ⟨id, id⟩ = .ok a ∧
    Reach (fun h c h' => step h c = some h') Allowed ⟨a, [], []⟩ h ∧
    h.arena.pages = some 4096 ∧ h.given = [8192, 4096] ∧ h.live = [8256, 6160] ∧ Rep h.arena l ∧
    h.live.Pairwise (Apart 2000) := by
  obtain ⟨a, hinit, hall⟩ := arena_sound 0 2000 (fun _ => ⟨none, initBitmap, 0⟩) ⟨id, id⟩ (by decide) (by decide)
  obtain rfl := Except.ok.inj hinit
  obtain ⟨h, hreach, hh⟩ := Reach.exists_of_any (show
    (runAll step Allowed ⟨⟨0, 2000, 2, none, 0, 0, fun _ => ⟨none, initBitmap, 0⟩, ⟨id, id⟩⟩, [], []⟩
      [.alloc 4096, .alloc 0, .alloc 8192, .free 4160]).any (fun h => decide
      (h.arena.pages = some 4096 ∧ h.given = [8192, 4096] ∧ h.live = [8256, 6160])) = true by decide +kernel)
  obtain ⟨hpages, hgiven, hlive⟩ := of_decide_eq_true hh
  obtain ⟨l, hrep, -, hapart, -⟩ := hall h hreach
  exact ⟨_, h, l, rfl, hreach, hpages, hgiven, hlive, hrep, hapart⟩

end Heap

end OS2021.Core.Objects
