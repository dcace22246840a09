import OS2021.Fs.Contents

/-! In-memory inodes in step with the disk.

Consistency alone is not kept: when the last reference to an inode is dropped, the
entry on the disk takes the place of the one in memory. `Intact` adds that every
loaded entry is as on the disk. An inode then counts with its entry on the disk, so
what happens to the in-memory inodes alone cannot matter (`Intact.touch`), and an entry
on the disk that owns nothing can be replaced by another that owns nothing
(`Intact.replace`). -/
namespace OS2021.Fs
open Lib

variable {sb : SuperBlock} {s s' : Volume} {p q : Ptr} {i no : Nat} {e : InodeEntry}

structure Intact (sb : SuperBlock) (s : Volume) : Prop where
  consistent : Consistent sb s
  listed : Listed sb s
  coherent : Coherent sb s

theorem Coherent.entryOf (h : Coherent sb s) (i : Nat) : s.entryOf sb i = s.diskEntry sb i := by
  cases hq : s.holder i with
  | none => exact Volume.entryOf_free hq
  | some p =>
    obtain ⟨hload, hno⟩ := Volume.holder_some hq
    rw [Volume.entryOf_held hq, ← h p hload, hno]

theorem listed_nil (h : s.head = []) : Listed sb s := by
  have hnone : ∀ p, p ∉ s.head := fun p => by simp [h]
  refine ⟨by simp [h], fun p _ hp => absurd hp.1 (hnone p), fun p hp => absurd hp.1 (hnone p),
    fun p hp => absurd hp.1 (hnone p), fun p hp => absurd hp (hnone p)⟩

theorem coherent_nil (h : s.head = []) : Coherent sb s := fun p hp => absurd hp.1.1 (by simp [h])

section SameDisk
variable (h : Coherent sb s) (h' : Coherent sb s') (hb : s'.blocks = s.blocks)
include h h' hb

/-- Kernels in step with the same disk have the same files. -/
theorem Coherent.entryOf_eq (i : Nat) : s'.entryOf sb i = s.entryOf sb i := by
  rw [h'.entryOf, h.entryOf, Volume.diskEntry, Volume.diskEntry, hb]

theorem Coherent.addr_eq (k : Nat × Slot) : s'.addr sb k = s.addr sb k :=
  addr_congr (fun _ => h.entryOf_eq h' hb k.1) fun _ _ => by rw [hb]

theorem Coherent.content_eq (i : Nat) : s'.content sb i = s.content sb i := by
  rw [Volume.content, Volume.content, h.entryOf_eq h' hb]
  exact elements_congr fun j _ => byteAt_congr (h.addr_eq h' hb _) (by rw [hb])

theorem Coherent.files_eq : s'.files sb = s.files sb := by
  funext i
  have hall : s'.Allocated sb i ↔ s.Allocated sb i := allocated_congr fun _ => by rw [h.entryOf_eq h' hb]
  rw [Volume.files, Volume.files, h.entryOf_eq h' hb, h.content_eq h' hb]
  simp only [hall]

end SameDisk

/-! ### One in-memory inode changes -/

@[simp] theorem setInode_self {f : Inode → Inode} : (s.setInode p f).heap p = f (s.heap p) := Function.update_self ..

theorem setInode_of_ne {f : Inode → Inode} (h : q ≠ p) : (s.setInode p f).heap q = s.heap q :=
  Function.update_of_ne h ..

/-- A field that is kept. -/
theorem setInode_field {α : Type} {f : Inode → Inode} {g : Inode → α} (h : g (f (s.heap p)) = g (s.heap p)) :
    g ((s.setInode p f).heap q) = g (s.heap q) := by
  by_cases hq : q = p
  · rw [hq, setInode_self, h]
  · rw [setInode_of_ne hq]

theorem setInode_congr {f g : Inode → Inode} (h : f (s.heap p) = g (s.heap p)) : s.setInode p f = s.setInode p g := by
  rw [Volume.setInode, h]
  rfl

@[simp] theorem setInode_setInode {f g : Inode → Inode} :
    (s.setInode p f).setInode p g = s.setInode p fun ip => g (f ip) := by
  rw [Volume.setInode, setInode_self]
  exact congrArg (fun h => {s with heap := h}) (Function.update_idem ..)

/-- At most the in-memory inode at `p` has changed. -/
structure Touched (p : Ptr) (s s' : Volume) : Prop where
  blocks : s'.blocks = s.blocks
  others : ∀ q ≠ p, s'.heap q = s.heap q
  head : ∀ q ≠ p, q ∈ s'.head ↔ q ∈ s.head
  nodup : s'.head.Nodup

theorem Touched.live (ht : Touched p s s') (h : q ≠ p) : s'.Live q ↔ s.Live q := by
  rw [Volume.Live, Volume.Live, ht.head q h, ht.others q h]

section Touch
variable (ht : Touched p s s')
include ht

theorem Touched.diskEntry (i : Nat) : s'.diskEntry sb i = s.diskEntry sb i := by
  rw [Volume.diskEntry, Volume.diskEntry, ht.blocks]

/-- If it is loaded it must be as on the disk. -/
theorem Touched.coherent (h : Coherent sb s)
    (entry : s'.Loaded p → s.diskEntry sb (s'.heap p).inodeNo = (s'.heap p).entry) : Coherent sb s' := by
  intro q hq
  rw [ht.diskEntry]
  by_cases he : q = p
  · rw [he] at hq ⊢
    exact entry hq
  · rw [Volume.Loaded, ht.live he, ht.others q he] at hq
    rw [ht.others q he]
    exact h q hq

/-- If it is live it must be the only one for an inode that exists. -/
theorem Touched.listed (h : Listed sb s) (hall : ∀ i, s'.Allocated sb i ↔ s.Allocated sb i)
    (live : s'.Live p → 0 < (s'.heap p).inodeNo ∧ (s'.heap p).inodeNo < sb.numInodes.toNat ∧
      s.Allocated sb (s'.heap p).inodeNo ∧ ∀ q ≠ p, s.Live q → (s.heap q).inodeNo ≠ (s'.heap p).inodeNo)
    (unlocked : p ∈ s'.head → (s'.heap p).rc = 0 → (s'.heap p).locked = false) : Listed sb s' := by
  refine ⟨ht.nodup, ?unique, ?numbered, ?allocated, ?unlocked⟩
  case unique =>
    intro q r hq hr hno
    by_cases hqp : q = p
    · by_cases hrp : r = p
      · rw [hqp, hrp]
      · rw [hqp, ht.others r hrp] at hno
        exact absurd hno.symm ((live (hqp ▸ hq)).2.2.2 r hrp ((ht.live hrp).mp hr))
    · by_cases hrp : r = p
      · rw [hrp, ht.others q hqp] at hno
        exact absurd hno ((live (hrp ▸ hr)).2.2.2 q hqp ((ht.live hqp).mp hq))
      · rw [ht.others q hqp, ht.others r hrp] at hno
        exact h.unique q r ((ht.live hqp).mp hq) ((ht.live hrp).mp hr) hno
  case numbered =>
    intro q hq
    by_cases he : q = p
    · rw [he] at hq ⊢
      exact ⟨(live hq).1, (live hq).2.1⟩
    · rw [ht.others q he]
      exact h.numbered q ((ht.live he).mp hq)
  case allocated =>
    intro q hq
    rw [hall]
    by_cases he : q = p
    · rw [he] at hq ⊢
      exact (live hq).2.2.1
    · rw [ht.others q he]
      exact h.allocated q ((ht.live he).mp hq)
  case unlocked =>
    intro q hq hrc
    by_cases he : q = p
    · rw [he] at hq hrc ⊢
      exact unlocked hq hrc
    · rw [ht.others q he] at hrc ⊢
      exact h.unlocked q ((ht.head q he).mp hq) hrc

end Touch

/-- Both, in an intact state. -/
theorem Intact.touch (h : Intact sb s) (ht : Touched p s s')
    (live : s'.Live p → 0 < (s'.heap p).inodeNo ∧ (s'.heap p).inodeNo < sb.numInodes.toNat ∧
      s.Allocated sb (s'.heap p).inodeNo ∧ ∀ q ≠ p, s.Live q → (s.heap q).inodeNo ≠ (s'.heap p).inodeNo)
    (entry : s'.Loaded p → s.diskEntry sb (s'.heap p).inodeNo = (s'.heap p).entry)
    (unlocked : p ∈ s'.head → (s'.heap p).rc = 0 → (s'.heap p).locked = false) : Intact sb s' := by
  have hcoherent := ht.coherent h.coherent entry
  have hentry := h.coherent.entryOf_eq hcoherent ht.blocks
  refine ⟨h.consistent.congr (fun i _ => hentry i) (h.coherent.addr_eq hcoherent ht.blocks) fun _ _ => ?_,
    ht.listed h.listed (fun i => allocated_congr fun _ => by rw [hentry]) live unlocked, hcoherent⟩
  exact mem_used_congr (by rw [ht.blocks])

/-- The inode at `p` is somebody's, and keeps its number. -/
theorem Intact.setInode (h : Intact sb s) (hp : s.Live p) {f : Inode → Inode}
    (hno : (f (s.heap p)).inodeNo = (s.heap p).inodeNo)
    (entry : (f (s.heap p)).valid = true → s.diskEntry sb (s.heap p).inodeNo = (f (s.heap p)).entry)
    (unlocked : (f (s.heap p)).rc = 0 → (f (s.heap p)).locked = false) : Intact sb (s.setInode p f) := by
  have ht : Touched p s (s.setInode p f) := ⟨rfl, fun q hq => setInode_of_ne hq, fun _ _ => Iff.rfl, h.listed.nodup⟩
  obtain ⟨hpos, hlt⟩ := h.listed.numbered p hp
  refine h.touch ht (fun _ => ?_) (fun hload => ?_) fun _ hrc => ?_
  · rw [setInode_self, hno]
    exact ⟨hpos, hlt, h.listed.allocated p hp, fun q hq hlive he => hq (h.listed.unique q p hlive hp he)⟩
  · rw [Volume.Loaded, setInode_self] at hload
    rw [setInode_self, hno]
    exact entry hload.2
  · rw [setInode_self] at hrc ⊢
    exact unlocked hrc

/-- A change of its count and its lock. -/
theorem Intact.recount (h : Intact sb s) (hp : s.Live p) {r : Inode → Int} {l : Inode → Bool}
    (unlocked : r (s.heap p) = 0 → l (s.heap p) = false) :
    Intact sb (s.setInode p fun ip => {ip with rc := r ip, locked := l ip}) :=
  h.setInode hp rfl (fun hv => h.coherent p ⟨hp, hv⟩) unlocked

/-! ### One entry on the disk changes -/

/-- An entry that is free or empty owns nothing. -/
def InodeEntry.Bare (e : InodeEntry) : Prop :=
  e.type ≠ inodeInvalid → e.numBytes = 0 ∧ ∀ blocks σ, addrOf blocks e σ = 0

/-- Nobody holds the inode, and it owns nothing before and after. -/
theorem Intact.replace (h : Intact sb s) (hl : Layout sb) (hle : no ≤ sb.numInodes.toNat)
    (free : ∀ q, s.Live q → (s.heap q).inodeNo ≠ no) (before : ∀ σ, s.addr sb (no, σ) = 0) (after : e.Bare) :
    Intact sb (s.storeEntry sb no e) := by
  have hcoherent : Coherent sb (s.storeEntry sb no e) := fun q hq => by
    have hq' : s.Loaded q := hq
    show (s.storeEntry sb no e).diskEntry sb (s.heap q).inodeNo = (s.heap q).entry
    rw [diskEntry_storeEntry, if_neg (free q hq'.1)]
    exact h.coherent q hq'
  have hentry : ∀ i, (s.storeEntry sb no e).entryOf sb i = if i = no then e else s.entryOf sb i := fun i => by
    rw [hcoherent.entryOf, diskEntry_storeEntry, h.coherent.entryOf]
  have hblocks : ∀ x, sb.bitmapStart.toNat ≤ x → (s.storeEntry sb no e).blocks x = s.blocks x :=
    fun x hx => blocks_storeEntry hl hle hx
  have haddr : ∀ k, (s.storeEntry sb no e).addr sb k = s.addr sb k := by
    intro k
    by_cases hk : k.1 = no
    · rw [show k = (no, k.2) from Prod.ext hk rfl, before, Volume.addr]
      by_cases ha : (s.storeEntry sb no e).Allocated sb no
      · have htype := ha.2.2
        rw [hentry, if_pos rfl] at htype
        rw [if_pos ha, hentry, if_pos rfl]
        exact (after htype).2 _ _
      · rw [if_neg ha]
    · refine addr_congr (fun _ => ?_) fun _ hne => hblocks _ ?_
      · rw [hentry, if_neg hk]
      · exact hl.bitmapStart_le.trans (h.consistent.owned.range _ hne).1
  have hall : ∀ i ≠ no, ((s.storeEntry sb no e).Allocated sb i ↔ s.Allocated sb i) := fun i hi =>
    allocated_congr fun _ => by rw [hentry, if_neg hi]
  have helse : Elsewhere sb no s (s.storeEntry sb no e) :=
    ⟨fun i _ hne => by rw [hentry, if_neg hne], fun k _ => haddr k⟩
  have hused : ∀ x < sb.numBlocks.toNat, x ∈ (s.storeEntry sb no e).used sb ↔ x ∈ s.used sb := fun x _ =>
    mem_used_congr (hblocks _ (Layout.le_bitmapBlock sb x))
  have hunshared : Unshared sb (s.storeEntry sb no e) := by
    refine helse.unshared h.consistent.toUnshared (h.consistent.owned.congr haddr hused) fun ha => filled_of_empty ?_
    have htype := ha.2.2
    rw [hentry, if_pos rfl] at htype ⊢
    exact (after htype).1
  refine ⟨helse.consistent h.consistent hunshared (h.consistent.exact.congr haddr hused) ?trimmed,
    ⟨h.listed.nodup, h.listed.unique, h.listed.numbered, ?allocated, h.listed.unlocked⟩, hcoherent⟩
  case trimmed =>
    intro _ idx _ _
    rw [haddr, before]
  case allocated =>
    intro q hq
    exact (hall _ (free q hq)).mpr (h.listed.allocated q hq)

end OS2021.Fs
