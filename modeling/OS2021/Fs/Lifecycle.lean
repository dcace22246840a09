import OS2021.Fs.References

/-! The life cycle of in-memory inodes.

Callers get references to inodes by number, pass them on, change the number of links
and give the references back. However they do it, the count of an in-memory inode is
the number of references to it that are still out, and there is one in-memory inode
at most for a number. The one event that changes the disk by itself is that the last
reference to an inode without links is given back: the inode is then freed, with all
its blocks. -/
namespace OS2021.Fs
open Lib

variable {sb : SuperBlock} {arena : Arena} {s s' : Volume} {p q : Ptr} {i no : Nat} {σ : Slot}

/-! ### Freeing an inode -/

/-- The inode at `p` is freed on the disk, its blocks are not in use any more, and the
in-memory inode is out of the list. Nothing else has changed. -/
structure Discarded (sb : SuperBlock) (p : Ptr) (s s' : Volume) : Prop where
  head : s'.head = s.head.erase p
  others : ∀ q ≠ p, s'.heap q = s.heap q
  entry : ∀ i ≤ sb.numInodes.toNat, s'.diskEntry sb i = if i = (s.heap p).inodeNo
    then {(s.heap p).entry.emptied with type := inodeInvalid} else s.diskEntry sb i
  data : ∀ x, sb.dataStart ≤ x → s'.blocks x = s.blocks x
  used : s'.used sb = s.used sb \ s.blocksOf p

theorem inodePut_discards (hl : Layout sb) (hno : (s.heap p).inodeNo ≤ sb.numInodes.toNat)
    (ho : Owned sb.dataStart sb.numBlocks.toNat (s.slots p) (s.used sb)) (hlock : (s.heap p).locked = false)
    (hlast : (s.heap p).rc = 1 ∧ (s.heap p).valid = true ∧ (s.heap p).entry.numLinks = 0) :
    ∃ s', (inodePut sb p).run s = .ok () s' ∧ Discarded sb p s s' := by
  have hrc : 0 < (s.heap p).rc := by omega
  set s1 := s.setInode p fun ip => {ip with locked := true} with hs1
  have hp1 : s1.heap p = {s.heap p with locked := true} := setInode_self
  have hslots : s1.slots p = s.slots p := by
    unfold Volume.slots
    rw [hp1]
    rfl
  have hblocksOf : s1.blocksOf p = s.blocksOf p := by
    unfold Volume.blocksOf
    rw [hslots]
  obtain ⟨s2, hfree, hclear⟩ := inodeClear_run (p := p) (s := s1) hl (by rw [hslots]; exact ho)
    (by rw [hp1]; exact hlast.2.1)
  rw [hblocksOf, show (s1.heap p).entry = (s.heap p).entry by rw [hp1]] at hfree
  have hsame := hfree.same
  have hno2 : (s2.heap p).inodeNo = (s.heap p).inodeNo := by rw [hsame.inodeNo, hp1]
  have hsync : s2.synced sb p = s2.storeEntry sb (s.heap p).inodeNo (s.heap p).entry.emptied := by
    rw [Volume.synced, hno2, hfree.entry]
  obtain ⟨s3, hblocks, hothers, hhead, hrun⟩ := discard_run
    (s := s2.storeEntry sb (s.heap p).inodeNo (s.heap p).entry.emptied) (p := p) sb
    ((hsame.valid p).trans (by rw [hp1]; exact hlast.2.1)) ((hsame.locked p).trans (by rw [hp1]))
    (by rw [storeEntry_heap, hsame.rc, hp1]; exact hrc)
  rw [storeEntry_heap, hno2, hfree.entry] at hrun
  have hput : (inodePut sb p).run s = .ok () (s3.storeEntry sb (s.heap p).inodeNo
      {(s.heap p).entry.emptied with type := inodeInvalid}) := by
    rw [inodePut_last hlast, bind_ok (inodeLock_run hrc hlock), bind_ok hclear, hsync]
    exact hrun
  refine ⟨_, hput, ⟨?head, fun q hq => ?others, fun i hi => ?entry, fun x hx => ?data, ?used⟩⟩
  case head =>
    show s3.head = _
    rw [hhead]
    exact congrArg (List.erase · p) hsame.head
  case others =>
    show s3.heap q = _
    rw [hothers q hq, storeEntry_heap, hfree.others q hq]
    exact setInode_of_ne hq
  case entry =>
    have hold : s3.diskEntry sb i =
        if i = (s.heap p).inodeNo then (s.heap p).entry.emptied else s.diskEntry sb i := by
      have hinode : s2.diskEntry sb i = s.diskEntry sb i := by
        rw [Volume.diskEntry, Volume.diskEntry, hfree.blocks _ (Or.inl (hl.toBlockNo_lt hi))]
        rfl
      rw [← hinode, ← diskEntry_storeEntry, Volume.diskEntry, Volume.diskEntry, hblocks]
    rw [diskEntry_storeEntry, hold]
    split <;> rfl
  case data =>
    have hst := hl.bitmapStart_le
    rw [blocks_storeEntry hl hno (by omega), hblocks, blocks_storeEntry hl hno (by omega), hfree.blocks x (Or.inr hx)]
    rfl
  case used =>
    have hbits : ∀ x, x ∈ (s3.storeEntry sb (s.heap p).inodeNo
        {(s.heap p).entry.emptied with type := inodeInvalid}).used sb ↔ x ∈ s2.used sb := fun x => by
      apply mem_used_congr
      have hx := Layout.le_bitmapBlock sb x
      rw [blocks_storeEntry hl hno hx, hblocks, blocks_storeEntry hl hno hx]
    rw [← show s2.used sb = s.used sb \ s.blocksOf p from hfree.used]
    exact Set.ext hbits

/-! ### References that are out -/

/-- What slot `k.2` of inode `k.1` owns by the entries on the disk, those of free inodes
included. -/
def Volume.diskAddr (sb : SuperBlock) (s : Volume) (k : Nat × Slot) : Nat :=
  if 0 < k.1 ∧ k.1 < sb.numInodes.toNat then addrOf s.blocks (s.diskEntry sb k.1) k.2 else 0

/-- A change that leaves an inode what its entry lists leaves it its slots. -/
theorem diskAddr_congr {k : Nat × Slot} (ho : Owned sb.dataStart sb.numBlocks.toNat (s.diskAddr sb) (s.used sb))
    (data : ∀ x, sb.dataStart ≤ x → s'.blocks x = s.blocks x) (entry : k.1 ≤ sb.numInodes.toNat →
      ∀ blocks, addrOf blocks (s'.diskEntry sb k.1) = addrOf blocks (s.diskEntry sb k.1)) :
    s'.diskAddr sb k = s.diskAddr sb k := by
  rw [Volume.diskAddr, Volume.diskAddr]
  split
  case isFalse => rfl
  case isTrue hk =>
    rw [entry hk.2.le]
    apply addrOf_congr
    intro hne
    have htable : s.diskAddr sb (k.1, .table) = (s.diskEntry sb k.1).indirect.toNat := if_pos hk
    apply data
    rw [← htable]
    exact (ho.range _ (by rw [htable]; exact toNat_ne_zero.mpr hne)).1

/-- A reference: the number `inode_get` was asked for, and the inode it returned. -/
abbrev Reference := Nat × Ptr

/-- How many of the references are to the inode at `p`. -/
def refsTo (refs : List Reference) (p : Ptr) : Nat := refs.countP fun r => r.2 == p

/-- The list of in-memory inodes, with the references that are out. -/
structure Tracked (sb : SuperBlock) (refs : List Reference) (s : Volume) : Prop where
  counted : Counted s
  named : ∀ r ∈ refs, r.2 ∈ s.head ∧ (s.heap r.2).inodeNo = r.1
  rc : ∀ p ∈ s.head, (s.heap p).rc = refsTo refs p
  loaded : ∀ p, s.Live p → (s.heap p).valid = true ∧ s.diskEntry sb (s.heap p).inodeNo = (s.heap p).entry
  numbered : ∀ p, s.Live p → 0 < (s.heap p).inodeNo ∧ (s.heap p).inodeNo < sb.numInodes.toNat
  unlocked : ∀ p ∈ s.head, (s.heap p).locked = false
  owned : Owned sb.dataStart sb.numBlocks.toNat (s.diskAddr sb) (s.used sb)

variable {refs refs' : List Reference} {r : Reference}

theorem refsTo_cons : refsTo (r :: refs) p = refsTo refs p + if p = r.2 then 1 else 0 := by
  rw [refsTo, List.countP_cons]
  by_cases he : p = r.2
  · simp [refsTo, he]
  · simp [refsTo, he, Ne.symm he]

theorem refsTo_erase (hr : r ∈ refs) : refsTo (refs.erase r) p + (if p = r.2 then 1 else 0) = refsTo refs p := by
  have hcons : refsTo (r :: refs.erase r) p = refsTo refs p := (List.perm_cons_erase hr).symm.countP_eq _
  rw [← hcons, refsTo_cons]

theorem refsTo_pos : 0 < refsTo refs p ↔ ∃ r ∈ refs, r.2 = p := by
  simp [refsTo]

namespace Tracked

section
variable (h : Tracked sb refs s)
include h

theorem live (hr : r ∈ refs) : s.Live r.2 := by
  obtain ⟨hmem, -⟩ := h.named r hr
  have hpos := refsTo_pos.mpr ⟨r, hr, rfl⟩
  have hrc := h.rc r.2 hmem
  exact ⟨hmem, by omega⟩

theorem live_iff : s.Live p ↔ ∃ r ∈ refs, r.2 = p := by
  constructor
  · intro hp
    have hrc := h.rc p hp.1
    have hpos := hp.2
    exact refsTo_pos.mp (by omega)
  · intro hr
    obtain ⟨r, hr, rfl⟩ := hr
    exact h.live hr

/-- References to one number are to one inode. -/
theorem same (hr : r ∈ refs) {r' : Reference} (hr' : r' ∈ refs) (hno : r.1 = r'.1) : r.2 = r'.2 := by
  apply h.counted.unique _ _ (h.live hr) (h.live hr')
  rw [(h.named r hr).2, (h.named r' hr').2, hno]

/-- Counted by number or by inode, there are as many references. -/
theorem refsTo_eq (hr : r ∈ refs) : refsTo refs r.2 = refs.countP fun r' => r'.1 == r.1 := by
  apply List.countP_congr
  intro r' hr'
  simp only [beq_iff_eq]
  constructor
  · intro he
    rw [← (h.named r hr).2, ← (h.named r' hr').2, he]
  · exact fun he => h.same hr' hr he

/-- The count of an inode is the number of references to it. -/
theorem count (i : Nat) : s.count i = refs.countP fun r => r.1 == i := by
  by_cases hi : ∃ r ∈ refs, r.1 = i
  · obtain ⟨r, hr, rfl⟩ := hi
    rw [← h.refsTo_eq hr, ← h.rc r.2 (h.named r hr).1, ← h.counted.count (h.live hr), (h.named r hr).2]
  · have hzero : refs.countP (fun r => r.1 == i) = 0 := by
      rw [List.countP_eq_zero]
      intro r hr hno
      exact hi ⟨r, hr, eq_of_beq hno⟩
    rw [hzero]
    apply total_zero
    intro p hp
    unfold Inode.held
    split
    case isFalse => rfl
    case isTrue hno =>
      by_contra hrc
      have hlive : s.Live p := ⟨hp, lt_of_le_of_ne (h.counted.nonneg p hp) (Ne.symm hrc)⟩
      obtain ⟨r, hr, rfl⟩ := h.live_iff.mp hlive
      exact hi ⟨r, hr, by rw [← (h.named r hr).2, hno]⟩

/-- At most the in-memory inode at `p` changes. -/
theorem touch (ht : Touched p s s') (counted : Counted s')
    (named : ∀ r ∈ refs', r.2 ∈ s'.head ∧ (s'.heap r.2).inodeNo = r.1)
    (rc : ∀ q ∈ s'.head, (s'.heap q).rc = refsTo refs' q)
    (live : s'.Live p → ((s'.heap p).valid = true ∧ s.diskEntry sb (s'.heap p).inodeNo = (s'.heap p).entry) ∧
      0 < (s'.heap p).inodeNo ∧ (s'.heap p).inodeNo < sb.numInodes.toNat)
    (unlocked : p ∈ s'.head → (s'.heap p).locked = false) : Tracked sb refs' s' := by
  have hdisk : ∀ i, s'.diskEntry sb i = s.diskEntry sb i := fun i => by
    rw [Volume.diskEntry, Volume.diskEntry, ht.blocks]
  have haddr : s'.diskAddr sb = s.diskAddr sb := by
    funext k
    rw [Volume.diskAddr, Volume.diskAddr, hdisk, ht.blocks]
  have hused : s'.used sb = s.used sb := Set.ext fun x => mem_used_congr (by rw [ht.blocks])
  refine ⟨counted, named, rc, fun q hq => ?loaded, fun q hq => ?numbered, fun q hq => ?unlocked, ?owned⟩
  case loaded =>
    rw [hdisk]
    by_cases he : q = p
    · rw [he] at hq ⊢
      exact (live hq).1
    · rw [ht.others q he]
      exact h.loaded q ((ht.live he).mp hq)
  case numbered =>
    by_cases he : q = p
    · rw [he] at hq ⊢
      exact (live hq).2
    · rw [ht.others q he]
      exact h.numbered q ((ht.live he).mp hq)
  case unlocked =>
    by_cases he : q = p
    · rw [he] at hq ⊢
      exact unlocked hq
    · rw [ht.others q he]
      exact h.unlocked q ((ht.head q he).mp hq)
  case owned =>
    rw [haddr, hused]
    exact h.owned

/-- The count of an inode that somebody references changes. -/
theorem recount (hp : s.Live p) {n : Int} (hn : 0 ≤ (s.heap p).rc + n)
    (named : ∀ r ∈ refs', r.2 ∈ s.head ∧ (s.heap r.2).inodeNo = r.1)
    (rc : ∀ q ∈ s.head, (refsTo refs' q : Int) = refsTo refs q + if q = p then n else 0) :
    Tracked sb refs' (s.setInode p fun ip => {ip with rc := ip.rc + n}) := by
  have ht : Touched p s (s.setInode p fun ip => {ip with rc := ip.rc + n}) := (Touched.refl h.counted.nodup).setInode
  refine h.touch ht (h.counted.recount hp rfl rfl hn).counted (fun r hr => ?_) (fun q hq => ?_)
    (fun _ => ?_) fun _ => ?_
  · rw [inodeNo_setInode rfl]
    exact named r hr
  · rw [rc q hq, ← h.rc q hq]
    by_cases he : q = p
    · rw [he, setInode_self, if_pos rfl]
    · rw [setInode_of_ne he, if_neg he, Int.add_zero]
  · rw [setInode_self]
    exact ⟨h.loaded p hp, h.numbered p hp⟩
  · rw [setInode_self]
    exact h.unlocked p hp.1

theorem share (hp : s.Live p) :
    Tracked sb (((s.heap p).inodeNo, p) :: refs) (s.setInode p fun ip => {ip with rc := ip.rc + 1}) := by
  have hrc := hp.2
  refine h.recount hp (by omega) (fun r hr => ?_) fun q _ => ?_
  · rcases List.mem_cons.mp hr with rfl | hr
    · exact ⟨hp.1, rfl⟩
    · exact h.named r hr
  · rw [refsTo_cons]
    split <;> rfl

theorem get (hget : (inodeGet sb arena no).run s = .ok p s') : Tracked sb ((no, p) :: refs) s' := by
  obtain ⟨hpos, hlt, ⟨hp, hno, rfl⟩ | ⟨hnone, hslot, hlock, hs'⟩⟩ := inodeGet_ok hget
  · rw [← hno]
    exact h.share hp
  · have hcounted := (inodeGet_moved h.counted hget).1.counted
    obtain ⟨-, hmem, hrc, hp, hothers, hhead⟩ := slotFor_moved h.counted arena hslot
    have hblocks : (s.slotFor arena).2.blocks = s.blocks := slotFor_blocks
    generalize (s.slotFor arena).2 = s1 at *
    have hnew : s'.heap p = ⟨false, (s1.heap p).rc + 1, no, true, s.diskEntry sb no⟩ := by rw [hs', setInode_self]
    have hold : ∀ q ≠ p, s'.heap q = s.heap q := fun q hq => by rw [hs', setInode_of_ne hq, hothers q hq]
    have hin : s'.head = s1.head := by
      rw [hs']
      rfl
    have ht : Touched p s s' := by
      refine ⟨?_, hold, fun q hq => by rw [hin, hhead q hq], hcounted.nodup⟩
      rw [hs']
      exact hblocks
    -- nobody had a reference to the inode that is taken
    have hfree : refsTo refs p = 0 := by
      by_contra hne
      exact hp (h.live_iff.mpr (refsTo_pos.mp (Nat.pos_of_ne_zero hne)))
    refine h.touch ht hcounted (fun r hr => ?named) (fun q hq => ?rc) (fun _ => ?live) fun _ => ?unlocked
    case named =>
      rcases List.mem_cons.mp hr with rfl | hr
      · rw [hnew, hin]
        exact ⟨hmem, rfl⟩
      · have hne : r.2 ≠ p := fun he => hp (he ▸ h.live hr)
        rw [hold _ hne, hin, hhead _ hne]
        exact h.named r hr
    case rc =>
      rw [refsTo_cons]
      by_cases he : q = p
      · rw [he, hnew, hrc, hfree, if_pos rfl]
        rfl
      · rw [hold q he, if_neg he, h.rc q ((hhead q he).mp (hin ▸ hq)), Nat.add_zero]
    case live =>
      rw [hnew]
      exact ⟨⟨rfl, rfl⟩, hpos, hlt⟩
    case unlocked => rw [hnew]

/-- What the slots of a live inode own is what they own by its entry on the disk. -/
theorem slots (hp : s.Live p) (σ : Slot) : s.slots p σ = s.diskAddr sb ((s.heap p).inodeNo, σ) := by
  rw [Volume.slots, Volume.diskAddr, if_pos (h.numbered p hp), (h.loaded p hp).2]

theorem slots_owned (hp : s.Live p) : Owned sb.dataStart sb.numBlocks.toNat (s.slots p) (s.used sb) := by
  rw [funext (h.slots hp)]
  exact h.owned.comp fun _ _ he => congrArg Prod.snd he

theorem put_some (hr : r ∈ refs) :
    Tracked sb (refs.erase r) (s.setInode r.2 fun ip => {ip with rc := ip.rc - 1}) := by
  have hlive := h.live hr
  have hrc := hlive.2
  refine h.recount hlive (n := -1) (by omega) (fun r' hr' => h.named r' (List.mem_of_mem_erase hr')) fun q _ => ?_
  have hcount := refsTo_erase (p := q) hr
  split at hcount
  case isTrue he =>
    rw [if_pos he]
    omega
  case isFalse he =>
    rw [if_neg he]
    omega

/-- The last reference is given back, and the inode is freed. -/
theorem put_last (hr : r ∈ refs) (hlast : (s.heap r.2).rc = 1) (hs : Discarded sb r.2 s s') :
    Tracked sb (refs.erase r) s' := by
  have hlive := h.live hr
  have hnodup := h.counted.nodup
  have hnum := h.numbered r.2 hlive
  have hout : ∀ r' ∈ refs.erase r, r'.2 ≠ r.2 := by
    intro r' hr' he
    have hpos := refsTo_pos.mpr ⟨r', hr', he⟩
    have hcount := refsTo_erase (p := r.2) hr
    have hrc := h.rc r.2 hlive.1
    rw [if_pos rfl] at hcount
    omega
  have hin : ∀ q ∈ s'.head, q ≠ r.2 ∧ q ∈ s.head := by
    intro q hq
    rw [hs.head] at hq
    exact ⟨fun he => hnodup.not_mem_erase (he ▸ hq), List.mem_of_mem_erase hq⟩
  have hback : ∀ q, s'.Live q → q ≠ r.2 ∧ s.Live q := by
    intro q hq
    obtain ⟨hne, hmem⟩ := hin q hq.1
    exact ⟨hne, hmem, hs.others q hne ▸ hq.2⟩
  refine ⟨?counted, fun r' hr' => ?named, fun q hq => ?rc, fun q hq => ?loaded, fun q hq => ?numbered,
    fun q hq => ?unlocked, ?owned⟩
  case counted =>
    refine h.counted.of_others (p := r.2) (by rw [hs.head]; exact hnodup.erase _) (fun q _ hq => (hin q hq).2)
      (fun q hne => ?_) (fun hmem => absurd rfl (hin _ hmem).1) fun hlive => absurd rfl (hback _ hlive).1
    rw [hs.others q hne]
    exact ⟨rfl, rfl⟩
  case named =>
    have hne := hout r' hr'
    rw [hs.head, hs.others _ hne, List.mem_erase_of_ne hne]
    exact h.named r' (List.mem_of_mem_erase hr')
  case rc =>
    obtain ⟨hne, hmem⟩ := hin q hq
    have hcount := refsTo_erase (p := q) hr
    rw [if_neg hne] at hcount
    rw [hs.others q hne, h.rc q hmem, ← hcount, Nat.add_zero]
  case loaded =>
    obtain ⟨hne, hq⟩ := hback q hq
    have hother : (s.heap q).inodeNo ≠ (s.heap r.2).inodeNo := fun he => hne (h.counted.unique q r.2 hq hlive he)
    rw [hs.others q hne, hs.entry _ (h.numbered q hq).2.le, if_neg hother]
    exact h.loaded q hq
  case numbered =>
    obtain ⟨hne, hq⟩ := hback q hq
    rw [hs.others q hne]
    exact h.numbered q hq
  case unlocked =>
    obtain ⟨hne, hmem⟩ := hin q hq
    rw [hs.others q hne]
    exact h.unlocked q hmem
  case owned =>
    have haddr : ∀ k : Nat × Slot, s'.diskAddr sb k =
        if k.1 = (s.heap r.2).inodeNo then 0 else s.diskAddr sb k := by
      intro k
      split
      case isTrue hk =>
        rw [Volume.diskAddr, hk, if_pos hnum, hs.entry _ hnum.2.le, if_pos rfl]
        exact addrOf_emptied (e := {(s.heap r.2).entry with type := inodeInvalid}) _ _
      case isFalse hk =>
        refine diskAddr_congr h.owned hs.data fun hle _ => ?_
        rw [hs.entry _ hle, if_neg hk]
    have hused : s'.used sb = s.used sb \ {b | b ≠ 0 ∧ ∃ k, k.1 = (s.heap r.2).inodeNo ∧ s.diskAddr sb k = b} := by
      rw [hs.used]
      congr 1
      ext b
      refine and_congr_right fun _ => ⟨fun ⟨σ, hσ⟩ => ⟨(_, σ), rfl, ?_⟩, fun ⟨k, hk, hb⟩ => ⟨k.2, ?_⟩⟩
      · rw [← h.slots hlive, hσ]
      · rw [h.slots hlive, ← hk, hb]
    rw [hused]
    exact h.owned.drop haddr

/-- The entry of an inode changes, but not what it lists, and is stored. -/
theorem edit (hl : Layout sb) (hp : s.Live p) {f : InodeEntry → InodeEntry}
    (hf : ∀ blocks e, addrOf blocks (f e) = addrOf blocks e) : Tracked sb refs ((s.editEntry p f).synced sb p) := by
  have hnum := h.numbered p hp
  have hself : (s.editEntry p f).heap p = {s.heap p with entry := f (s.heap p).entry} := editEntry_self
  have hsame : SameInodes s ((s.editEntry p f).synced sb p) := (SameInodes.editEntry s p f).trans (.of_heap rfl rfl)
  have hrefs : SameRefs s ((s.editEntry p f).synced sb p) := ⟨hsame.head, fun q => by
    rw [Inode.ref, hsame.locked, hsame.rc, hsame.inodeNo, Inode.ref]⟩
  have hentry : ∀ i, ((s.editEntry p f).synced sb p).diskEntry sb i =
      if i = (s.heap p).inodeNo then f (s.heap p).entry else s.diskEntry sb i := fun i => by
    rw [diskEntry_synced, hself]
    rfl
  have hblocks : ∀ x, sb.bitmapStart.toNat ≤ x → ((s.editEntry p f).synced sb p).blocks x = s.blocks x :=
    fun x hx => by
    rw [Volume.synced, blocks_storeEntry hl (by rw [hself]; exact hnum.2.le) hx]
    rfl
  refine ⟨(hrefs.moved h.counted).counted, fun r hr => ?named, fun q hq => ?rc, fun q hq => ?loaded,
    fun q hq => ?numbered, fun q hq => ?unlocked, ?owned⟩
  case named =>
    rw [hsame.inodeNo]
    exact h.named r hr
  case rc =>
    rw [hsame.rc]
    exact h.rc q hq
  case loaded =>
    have hq' := hsame.live.mp hq
    rw [hsame.valid, hsame.inodeNo, hentry]
    refine ⟨(h.loaded q hq').1, ?_⟩
    by_cases he : q = p
    · rw [he, if_pos rfl, Volume.synced, storeEntry_heap, hself]
    · have hno : (s.heap q).inodeNo ≠ (s.heap p).inodeNo := fun hno => he (h.counted.unique q p hq' hp hno)
      rw [if_neg hno, Volume.synced, storeEntry_heap, editEntry_of_ne he]
      exact (h.loaded q hq').2
  case numbered =>
    rw [hsame.inodeNo]
    exact h.numbered q (hsame.live.mp hq)
  case unlocked =>
    rw [hsame.locked]
    exact h.unlocked q hq
  case owned =>
    have hst := hl.bitmapStart_le
    refine h.owned.congr (fun k => ?_) fun x _ => mem_used_congr (hblocks _ (Layout.le_bitmapBlock sb x))
    refine diskAddr_congr h.owned (fun x hx => hblocks x (by omega)) fun _ blocks => ?_
    rw [hentry]
    split
    case isTrue he => rw [he, (h.loaded p hp).2, hf]
    case isFalse => rfl

end

end Tracked

/-! ### Runs -/

/-- The inode layer, and the references that its callers have. -/
structure Clients where
  vol : Volume
  refs : List Reference

inductive RefCall where
  | get (inodeNo : Nat)
  | share (r : Reference)
  | put (r : Reference)
  /-- `num_links` is changed, and then `inode_sync` called. -/
  | setLinks (r : Reference) (numLinks : UInt16)

namespace RefCall

/-- Callers pass references that they have, and give back none twice. -/
def Legal (c : Clients) : RefCall → Prop
  | get _ => True
  | share r | put r | setLinks r _ => r ∈ c.refs

instance (c : Clients) (l : RefCall) : Decidable (l.Legal c) :=
  match l with
  | get _ => inferInstanceAs (Decidable True)
  | share r | put r | setLinks r _ => inferInstanceAs (Decidable (r ∈ c.refs))

/-- The call, with the inode it returns if it returns one. -/
def run (sb : SuperBlock) (arena : Arena) : RefCall → V (Option Ptr)
  | get inodeNo => do
    let p ← inodeGet sb arena inodeNo
    return some p
  | share r => do
    let p ← inodeShare r.2
    return some p
  | put r => do
    inodePut sb r.2
    return none
  | setLinks r numLinks => do
    modify fun s => s.editEntry r.2 fun e => {e with numLinks}
    inodeSync sb r.2 true
    return none

/-- The references after a call that has returned. -/
def refsAfter (refs : List Reference) : RefCall → Option Ptr → List Reference
  | get inodeNo, some p => (inodeNo, p) :: refs
  | share r, some p => (r.1, p) :: refs
  | put r, none => refs.erase r
  | _, _ => refs

def exec (sb : SuperBlock) (arena : Arena) (c : Clients) (l : RefCall) : Option Clients :=
  match (l.run sb arena).run c.vol with
  | .ok o s => some ⟨s, l.refsAfter c.refs o⟩
  | .error _ _ => none

end RefCall

/-- What giving back a reference does. -/
theorem Tracked.put (h : Tracked sb refs s) (hl : Layout sb) (hr : r ∈ refs) :
    ∃ s', (inodePut sb r.2).run s = .ok () s' ∧ Tracked sb (refs.erase r) s' ∧
      ((s.heap r.2).rc = 1 ∧ (s.heap r.2).entry.numLinks = 0 → Discarded sb r.2 s s') ∧
      (¬ ((s.heap r.2).rc = 1 ∧ (s.heap r.2).entry.numLinks = 0) → s'.blocks = s.blocks ∧ s'.head = s.head) := by
  have hlive := h.live hr
  by_cases hlast : (s.heap r.2).rc = 1 ∧ (s.heap r.2).entry.numLinks = 0
  · have hvalid := (h.loaded _ hlive).1
    obtain ⟨s', hrun, hs⟩ := inodePut_discards hl (h.numbered _ hlive).2.le (h.slots_owned hlive)
      (h.unlocked _ hlive.1) ⟨hlast.1, hvalid, hlast.2⟩
    exact ⟨s', hrun, h.put_last hr hlast.1 hs, fun _ => hs, fun hn => absurd hlast hn⟩
  · refine ⟨_, ?_, h.put_some hr, fun hn => absurd hn hlast, fun _ => ⟨rfl, rfl⟩⟩
    rw [inodePut, bind_ok (get_run s)]
    dsimp only
    rw [if_neg fun hn => hlast ⟨hn.1, hn.2.2⟩, modify_run]

theorem RefCall.exec_tracked {c c' : Clients} {l : RefCall} (hl : Layout sb) (h : Tracked sb c.refs c.vol)
    (hok : l.Legal c) (hexec : l.exec sb arena c = some c') : Tracked sb c'.refs c'.vol := by
  unfold exec at hexec
  split at hexec
  case h_2 => cases hexec
  case h_1 o s1 hrun =>
    cases hexec
    cases l with
    | get inodeNo =>
      obtain ⟨p, s2, hget, hret⟩ := bind_eq_ok hrun
      cases hret
      exact h.get hget
    | share r =>
      obtain ⟨p, s2, hshare, hret⟩ := bind_eq_ok hrun
      cases hret
      cases hshare
      have hlive := h.live hok
      rw [refsAfter, ← (h.named r hok).2]
      exact h.share hlive
    | put r =>
      obtain ⟨_, s2, hput, hret⟩ := bind_eq_ok hrun
      cases hret
      obtain ⟨s', hrun', hs', -⟩ := h.put hl hok
      rw [hrun'] at hput
      cases hput
      exact hs'
    | setLinks r numLinks =>
      have hlive := h.live hok
      rw [run, bind_ok (modify_run _ _),
        bind_ok (inodeSync_write (by rw [editEntry_self]; exact (h.loaded _ hlive).1))]
        at hrun
      cases hrun
      refine h.edit hl hlive fun blocks e => ?_
      funext σ
      cases σ <;> rfl

/-- The inode that `r` refers to has been freed. -/
def Reference.Freed (sb : SuperBlock) (r : Reference) (s s' : Volume) : Prop :=
  (s'.diskEntry sb r.1).type = inodeInvalid ∧
    (∀ σ, s.diskAddr sb (r.1, σ) ≠ 0 → s.diskAddr sb (r.1, σ) ∉ s'.used sb) ∧ r.2 ∉ s'.head

/-- **In-memory inodes live as long as there are references to them.** On a disk whose
inodes list different data blocks, all in use, and starting with no inode in memory: a
number has one live in-memory inode at most, whose count is the number of references
that are out; references to one number are the same pointer; and giving one back frees
the inode if it was the last and the inode has no links, and otherwise leaves the disk
alone. -/
theorem inode_lifecycle {s0 : Volume} {c : Clients} (hl : Layout sb) (hhead : s0.head = [])
    (howned : Owned sb.dataStart sb.numBlocks.toNat (s0.diskAddr sb) (s0.used sb))
    (hrun : Reach (fun c l c' => RefCall.exec sb arena c l = some c') RefCall.Legal ⟨s0, []⟩ c) :
    (∀ p q, c.vol.Live p → c.vol.Live q → (c.vol.heap p).inodeNo = (c.vol.heap q).inodeNo → p = q) ∧
    (∀ p, c.vol.Live p → (c.vol.heap p).rc = c.refs.countP fun r => r.1 == (c.vol.heap p).inodeNo) ∧
    (∀ r ∈ c.refs, c.vol.Live r.2 ∧ (c.vol.heap r.2).inodeNo = r.1 ∧ ∀ r' ∈ c.refs, r.1 = r'.1 → r.2 = r'.2) ∧
    ∀ r ∈ c.refs, ∃ s', (inodePut sb r.2).run c.vol = .ok () s' ∧
      (r.Freed sb c.vol s' ↔ (c.refs.countP fun r' => r'.1 == r.1) = 1 ∧ (c.vol.heap r.2).entry.numLinks = 0) ∧
      (¬ ((c.refs.countP fun r' => r'.1 == r.1) = 1 ∧ (c.vol.heap r.2).entry.numLinks = 0) →
        s'.blocks = c.vol.blocks) := by
  have hstart : Tracked sb [] s0 := by
    have hnil : ∀ p, p ∉ s0.head := fun p hp => by
      rw [hhead] at hp
      exact List.not_mem_nil hp
    exact ⟨⟨by rw [hhead]; exact .nil, fun p hp => absurd hp (hnil p), fun p _ hp => absurd hp.1 (hnil p)⟩, nofun,
      fun p hp => absurd hp (hnil p), fun p hp => absurd hp.1 (hnil p), fun p hp => absurd hp.1 (hnil p),
      fun p hp => absurd hp (hnil p), howned⟩
  have h : Tracked sb c.refs c.vol := hrun.invariant (I := fun c => Tracked sb c.refs c.vol) hstart
    fun _ _ _ hs hok hexec => RefCall.exec_tracked hl hs hok hexec
  refine ⟨h.counted.unique, fun p hp => ?count, fun r hr => ?refs, fun r hr => ?put⟩
  case count =>
    rw [← h.count, h.counted.count hp]
  case refs => exact ⟨h.live hr, (h.named r hr).2, fun r' hr' => h.same hr hr'⟩
  case put =>
    have hlive := h.live hr
    have hno := (h.named r hr).2
    have hlast : (c.refs.countP fun r' => r'.1 == r.1) = 1 ↔ (c.vol.heap r.2).rc = 1 := by
      rw [h.rc _ hlive.1, h.refsTo_eq hr]
      exact Int.natCast_inj.symm
    obtain ⟨s', hput, -, hfreed, hkept⟩ := h.put hl hr
    rw [hlast]
    refine ⟨s', hput, ⟨fun hf => ?_, fun hcond => ?_⟩, fun hcond => (hkept hcond).1⟩
    · by_contra hcond
      rw [Reference.Freed, (hkept hcond).2] at hf
      exact hf.2.2 hlive.1
    · have hs := hfreed hcond
      refine ⟨?_, fun σ hσ hused => ?_, ?_⟩
      · rw [hs.entry _ (hno ▸ (h.numbered _ hlive).2.le), if_pos hno.symm]
      · rw [hs.used] at hused
        exact hused.2 ⟨hσ, σ, by rw [h.slots hlive, hno]⟩
      · rw [hs.head]
        exact h.counted.nodup.not_mem_erase

/-- Inode 1 is a file of one block, without links, and not in memory; every byte of the bitmap is `bits`. -/
def orphan (bits : UInt8) : Volume where
  blocks := Function.update (Function.update (fun _ => zeroBlock)
    4 (setEntry zeroBlock 1 {oneBlockFile with numLinks := 0})) 5 fun _ => bits
  heap := fun _ => ⟨false, 0, 0, false, InodeEntry.zero⟩
  head := []
  allocs := 0

theorem orphan_diskAddr {bits : UInt8} (k : Nat × Slot) :
    (orphan bits).diskAddr oneBlockDisk k = if k = (1, .direct 0) then 7 else 0 := by
  obtain ⟨i, σ⟩ := k
  have hcases : i = 1 ∨ i = 2 ∨ ¬ (0 < i ∧ i < 3) := by omega
  rcases hcases with rfl | rfl | hi
  · have hentry : (orphan bits).diskEntry oneBlockDisk 1 = {oneBlockFile with numLinks := 0} :=
      (getEntry_setEntry ..).trans (if_pos rfl)
    have haddr : (orphan bits).diskAddr oneBlockDisk (1, σ) = addrOf _ ((orphan bits).diskEntry oneBlockDisk 1) σ :=
      if_pos ⟨Nat.one_pos, show 1 < 3 by decide⟩
    rw [haddr, hentry]
    cases σ with
    | direct a =>
      show UInt32.toNat (if a = 0 then 7 else 0) = _
      by_cases ha : a = 0
      · rw [if_pos ha, ha, if_pos rfl]
        rfl
      · rw [if_neg ha, if_neg fun he => ha (Slot.direct.inj (Prod.mk.inj he).2)]
        rfl
    | table => rfl
    | indirect j => rfl
  · have hentry : (orphan bits).diskEntry oneBlockDisk 2 = getEntry zeroBlock 2 :=
      (getEntry_setEntry ..).trans (if_neg (by decide))
    have haddr : (orphan bits).diskAddr oneBlockDisk (2, σ) = addrOf _ ((orphan bits).diskEntry oneBlockDisk 2) σ :=
      if_pos ⟨Nat.two_pos, show 2 < 3 by decide⟩
    rw [haddr, hentry, if_neg fun he => absurd (Prod.mk.inj he).1 (by decide)]
    cases σ with
    | direct a =>
      have hzero : ∀ a, ((getEntry zeroBlock 2).addrs a).toNat = 0 := by decide
      exact hzero a
    | table => rfl
    | indirect j => rfl
  · have hne : i ≠ 1 := by omega
    rw [if_neg fun he => hne (Prod.mk.inj he).1]
    exact if_neg hi

theorem orphan_owned : Owned oneBlockDisk.dataStart oneBlockDisk.numBlocks.toNat
    ((orphan 255).diskAddr oneBlockDisk) ((orphan 255).used oneBlockDisk) := by
  have hused : ∀ b < 8, b ∈ (orphan 255).used oneBlockDisk := by
    show ∀ b < 8, (orphan 255).isUsed oneBlockDisk b = true
    decide +kernel
  have hne : ∀ k, (orphan 255).diskAddr oneBlockDisk k ≠ 0 → k = (1, .direct 0) := by
    intro k hk
    rw [orphan_diskAddr] at hk
    by_contra he
    exact hk (if_neg he)
  refine ⟨by decide, by decide, fun k k' hk he => ?_, fun k hk => ?_, fun b hb => hused b ?_, fun k hk => ?_⟩
  · exact (hne k hk).trans (hne k' (he ▸ hk)).symm
  · rw [hne k hk, orphan_diskAddr, if_pos rfl]
    decide
  · exact hb.trans (by decide)
  · rw [hne k hk, orphan_diskAddr, if_pos rfl]
    exact hused 7 (by decide)

/-- The file is got, shared and put; the second put frees it. -/
theorem inode_lifecycle_freed : ∃ c : Clients,
    Reach (fun c l c' => RefCall.exec oneBlockDisk .next c l = some c') RefCall.Legal ⟨orphan 255, []⟩ c ∧
    c.refs = [(1, 1)] ∧ ∃ s', (inodePut oneBlockDisk 1).run c.vol = .ok () s' ∧
      Reference.Freed oneBlockDisk (1, 1) c.vol s' := by
  obtain ⟨c, hreach, htest⟩ := Reach.exists_of_any (f := RefCall.exec oneBlockDisk .next)
    (P := fun c : Clients => c.refs == [(1, 1)] && (c.vol.heap 1).entry.numLinks == 0)
    (show (runAll _ RefCall.Legal ⟨orphan 255, []⟩ [.get 1, .share (1, 1), .put (1, 1)]).any _ = true
      by decide +kernel)
  simp only [Bool.and_eq_true, beq_iff_eq] at htest
  obtain ⟨-, -, -, hput⟩ := inode_lifecycle oneBlockDisk_layout rfl orphan_owned hreach
  obtain ⟨s', hrun, hfreed, -⟩ := hput (1, 1) (by rw [htest.1]; exact List.mem_cons_self)
  refine ⟨c, hreach, htest.1, s', hrun, hfreed.mpr ⟨?_, htest.2⟩⟩
  rw [htest.1]
  rfl

/-- When the block of the file is marked free, the last put panics instead. -/
theorem put_of_inconsistent_panics : Layout oneBlockDisk ∧ ∃ c : Clients,
    Reach (fun c l c' => RefCall.exec oneBlockDisk .next c l = some c') RefCall.Legal ⟨orphan 127, []⟩ c ∧
    c.refs = [(1, 1)] ∧ (c.vol.heap 1).entry.numLinks = 0 ∧
    ∃ s', (inodePut oneBlockDisk 1).run c.vol = .error (.panic "freeing free block") s' := by
  obtain ⟨c, hreach, htest⟩ := Reach.exists_of_any (f := RefCall.exec oneBlockDisk .next)
    (P := fun c : Clients => c.refs == [(1, 1)] && (c.vol.heap 1).entry.numLinks == 0 &&
      stoppedWith (.panic "freeing free block") ((inodePut oneBlockDisk 1).run c.vol))
    (show (runAll _ RefCall.Legal ⟨orphan 127, []⟩ [.get 1]).any _ = true by decide +kernel)
  simp only [Bool.and_eq_true, beq_iff_eq] at htest
  exact ⟨oneBlockDisk_layout, c, hreach, htest.1.1, htest.1.2, exists_of_stoppedWith htest.2⟩

end OS2021.Fs
