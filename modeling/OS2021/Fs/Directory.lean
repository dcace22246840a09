import OS2021.Fs.Tree
import OS2021.Lib.Slots

/-! A directory is a finite map from names to inode numbers.

The bytes of a directory are a row of entries of 16 bytes. An entry with inode number
0 is free; the others hold a name, of which 14 characters count, and an inode number.
`inode_lookup` and `inode_insert` scan the row, `inode_remove` zeroes an entry: on the
slots that the entries are (`slotAt`) these are the operations of a finite map kept in
slots, and every history of them is one of the map. An insertion can only fail when it
has to make the directory longer: there is no block left or it is as long as a file
can be. -/
namespace OS2021.Fs
open Lib Function
open Common (cString cString_strncpy strncmp strncmp_eq_zero)

variable {sb : SuperBlock} {s s' s0 : Volume} {p : Ptr} {j n no : Nat} {src data de name : List UInt8}
  {console : Console} {de' : List UInt8}

/-! ### Names -/

/-- What directories tell names apart by. -/
def nameOf (name : List UInt8) : List UInt8 := cString fileNameMaxLength name

/-! ### Entries -/

/-- A free entry, or a name and its inode number. -/
def slotOf (de : List UInt8) : Option (List UInt8 × Nat) :=
  if direntInodeNo de = 0 then none else some (nameOf (de.drop 2), direntInodeNo de)

/-- The entries of a directory, by its bytes. -/
def slotAt (data : List UInt8) (j : Nat) : Option (List UInt8 × Nat) :=
  slotOf ((data.drop (j * dirEntrySize)).take dirEntrySize)

/-- `inode_read` leaves the rest of the buffer as it was; the entry does not depend on it. -/
theorem slotOf_append {rest : List UInt8} (h : de.length = dirEntrySize) : slotOf (de ++ rest) = slotOf de := by
  have hlen : de.length = 16 := h
  have hno : direntInodeNo (de ++ rest) = direntInodeNo de := by
    rw [direntInodeNo, direntInodeNo, List.getD_append _ _ _ _ (by omega), List.getD_append _ _ _ _ (by omega)]
  have hname : nameOf ((de ++ rest).drop 2) = nameOf (de.drop 2) := by
    have htake : ((de ++ rest).drop 2).take 14 = (de.drop 2).take 14 := by
      rw [List.drop_append_of_le_length (by omega), List.take_append_of_le_length (by rw [List.length_drop]; omega)]
    exact congrArg (List.takeWhile _) htake
  rw [slotOf, slotOf, hno, hname]

theorem slotOf_direntBytes (h : 0 < no) (h' : no < 65536) :
    slotOf (direntBytes no name) = some (nameOf name, no) := by
  have hno : direntInodeNo (direntBytes no name) = no := by
    have hle := leNat_leByte 2 no
    have hpair : direntInodeNo (direntBytes no name) = (leByte no 0).toNat + 256 * (leByte no 1).toNat := rfl
    simp only [leNat, Nat.zero_add] at hle
    rw [hpair]
    omega
  have hname : nameOf ((direntBytes no name).drop 2) = nameOf name := cString_strncpy name fileNameMaxLength
  rw [slotOf, hno, hname, if_neg (by omega)]

theorem slotOf_zero : slotOf (List.replicate dirEntrySize 0) = none := by decide

/-- Writing an entry changes one slot. -/
theorem slotAt_splice (hsrc : src.length = dirEntrySize) (hj : j * dirEntrySize ≤ data.length) :
    slotAt (splice data (j * dirEntrySize) src) = update (slotAt data) j (slotOf src) := by
  have hlen : src.length = 16 := hsrc
  have hoff : j * 16 ≤ data.length := hj
  have hfst : (data.take (j * 16)).length = j * 16 := List.length_take_of_le hoff
  funext i
  show slotOf (((data.take (j * 16) ++ src ++ data.drop (j * 16 + src.length)).drop (i * 16)).take 16) = _
  by_cases hij : i = j
  · subst hij
    rw [update_self, List.append_assoc, List.drop_left' hfst, List.take_left' hlen]
  · rw [update_of_ne hij]
    show _ = slotOf ((data.drop (i * 16)).take 16)
    rcases Nat.lt_or_gt_of_ne hij with hlt | hgt
    · rw [List.append_assoc, List.drop_append_of_le_length (by omega), List.drop_take,
        List.take_append_of_le_length (by rw [List.length_take, List.length_drop]; omega), List.take_take,
        Nat.min_eq_left (by omega)]
    · have hpair : (data.take (j * 16) ++ src).length = j * 16 + src.length := by rw [List.length_append, hfst]
      rw [List.drop_append, List.drop_eq_nil_of_le (by omega), hpair, List.nil_append, List.drop_drop]
      congr 3
      omega

/-! ### Scans -/

section Scan
variable {slots : Nat → Option (List UInt8 × Nat)}

/-- A scan ends at a hit and goes on behind anything else. -/
theorem lookupFrom_step {rest : List Nat} (hread : (readDirent sb console p (j * dirEntrySize) de).run s = .ok de' s)
    (hslot : slotOf de' = slots j) : (lookupFrom sb console p name (j * dirEntrySize :: rest) de).run s =
      match hit slots (nameOf name) j with
      | some r => .ok (r.1, some (r.2 * dirEntrySize)) s
      | none => (lookupFrom sb console p name rest de').run s := by
  rw [lookupFrom, bind_ok hread, hit, ← hslot, slotOf]
  by_cases hz : direntInodeNo de' = 0
  · rw [if_pos hz, if_pos hz]
    rfl
  · rw [if_neg hz, if_neg hz]
    by_cases hname : strncmp (de'.drop 2) name fileNameMaxLength = 0
    · have heq : nameOf (de'.drop 2) = nameOf name := strncmp_eq_zero.mp hname
      rw [if_pos hname, pure_run, Option.bind_some, if_pos heq]
    · have hne : nameOf (de'.drop 2) ≠ nameOf name := fun he => hname (strncmp_eq_zero.mpr he)
      rw [if_neg hname, Option.bind_some, if_neg hne]

/-- What is behind the first hit is not read. -/
theorem lookupFrom_found {a n : Nat} (ha : a ≤ j) (hj : j < a + n)
    (hread : ∀ i ≤ j, ∀ de, ∃ de', (readDirent sb console p (i * dirEntrySize) de).run s = .ok de' s ∧
      slotOf de' = slots i)
    (hmiss : ∀ i < j, hit slots (nameOf name) i = none) (hhit : hit slots (nameOf name) j = some (no, j))
    (de : List UInt8) :
    (lookupFrom sb console p name ((List.range' a n).map (· * dirEntrySize)) de).run s =
      .ok (no, some (j * dirEntrySize)) s := by
  induction n generalizing a de with
  | zero => omega
  | succ n ih =>
    obtain ⟨de', hrun, hslot⟩ := hread a ha de
    rw [List.range'_succ, List.map_cons, lookupFrom_step hrun hslot]
    by_cases he : a = j
    · rw [he, hhit]
    · rw [hmiss a (Nat.lt_of_le_of_ne ha he)]
      exact ih (Nat.lt_of_le_of_ne ha he) (by omega) de'

end Scan

/-! ### Directories -/

/-- The bytes of the inode at `p`. -/
def Volume.bytesOf (sb : SuperBlock) (s : Volume) (p : Ptr) : List UInt8 := s.content sb (s.heap p).inodeNo

/-- How many entries the directory has, free ones included. -/
def Volume.entries (s : Volume) (p : Ptr) : Nat := (s.heap p).entry.numBytes.toNat / dirEntrySize

/-- What a name is mapped to: its inode number, and the byte index of its entry. -/
def Volume.dirMap (sb : SuperBlock) (s : Volume) (p : Ptr) (name : List UInt8) : Option (Nat × Nat) :=
  (find (s.entries p) (slotAt (s.bytesOf sb p)) name).map fun r => (r.1, r.2 * dirEntrySize)

/-- A directory somebody holds, of whole entries with different names. -/
structure Directory (sb : SuperBlock) (p : Ptr) (s : Volume) : Prop where
  listed : Listed sb s
  unshared : Unshared sb s
  loaded : s.Loaded p
  type : (s.heap p).entry.type = inodeDirectory
  aligned : dirEntrySize ∣ (s.heap p).entry.numBytes.toNat
  distinct : Distinct (s.entries p) (slotAt (s.bytesOf sb p))

namespace Directory

section
variable (h : Directory sb p s)
include h

theorem notDevice : (s.heap p).entry.type ≠ inodeDevice := by
  rw [h.type]
  decide

theorem bytesOf_length : (s.bytesOf sb p).length = (s.heap p).entry.numBytes.toNat := by
  rw [Volume.bytesOf, Volume.content, elements_length, h.listed.entryOf h.loaded]

theorem numBytes : (s.heap p).entry.numBytes.toNat = s.entries p * dirEntrySize := (Nat.div_mul_cancel h.aligned).symm

theorem numBytes_le : s.entries p * dirEntrySize ≤ inodeMaxBytes := by
  rw [← h.numBytes]
  exact (h.unshared.loaded h.listed h.loaded h.notDevice).1

theorem offsets :
    direntOffsets (s.heap p).entry.numBytes.toNat = (List.range (s.entries p)).map (· * dirEntrySize) := by
  have hcount : (s.entries p * 16 + 16 - 1) / 16 = s.entries p := by omega
  rw [direntOffsets, h.numBytes]
  exact congrArg (fun n => (List.range n).map (· * dirEntrySize)) hcount

/-! ### Scans -/

theorem readDirent_run (hj : j < s.entries p) :
    ∃ de', (readDirent sb console p (j * dirEntrySize) de).run s = .ok de' s ∧
      slotOf de' = slotAt (s.bytesOf sb p) j := by
  have hsize : (s.heap p).entry.numBytes.toNat = s.entries p * 16 := h.numBytes
  have hmax : s.entries p * 16 ≤ 71680 := h.numBytes_le
  have hread : (inodeRead sb console p (j * 16) 16).run s = _ :=
    inodeRead_spec h.listed h.unshared h.loaded h.notDevice (by omega) (by omega)
  have hlen : (((s.bytesOf sb p).drop (j * 16)).take 16).length = 16 := by
    rw [List.length_take, List.length_drop, h.bytesOf_length]
    omega
  rw [readDirent]
  exact ⟨_, bind_ok hread, slotOf_append hlen⟩

theorem lookupFrom_run (name : List UInt8) (js : List Nat) (hjs : ∀ j ∈ js, j < s.entries p) (de : List UInt8) :
    (lookupFrom sb console p name (js.map (· * dirEntrySize)) de).run s =
      .ok (match js.findSome? (hit (slotAt (s.bytesOf sb p)) (nameOf name)) with
        | some r => (r.1, some (r.2 * dirEntrySize))
        | none => (0, none)) s := by
  induction js generalizing de with
  | nil => rfl
  | cons j js ih =>
    obtain ⟨de', hread, hslot⟩ := h.readDirent_run (hjs j (List.mem_cons_self ..))
    rw [List.map_cons, lookupFrom_step hread hslot, List.findSome?_cons]
    cases hit (slotAt (s.bytesOf sb p)) (nameOf name) j with
    | some r => rfl
    | none => exact ih (fun i hi => hjs i (List.mem_cons_of_mem _ hi)) de'

theorem freeDirent_run (stop : Nat) (js : List Nat) (hjs : ∀ j ∈ js, j < s.entries p) (de : List UInt8) :
    (freeDirent sb console p (stop * dirEntrySize) (js.map (· * dirEntrySize)) de).run s =
      .ok ((js.find? fun j => (slotAt (s.bytesOf sb p) j).isNone).getD stop * dirEntrySize) s := by
  induction js generalizing de with
  | nil => rfl
  | cons j js ih =>
    obtain ⟨de', hread, hslot⟩ := h.readDirent_run (hjs j (List.mem_cons_self ..))
    rw [List.map_cons, freeDirent, bind_ok hread, List.find?_cons, ← hslot, slotOf]
    by_cases hz : direntInodeNo de' = 0
    · rw [if_pos hz, if_pos hz]
      rfl
    · rw [if_neg hz, if_neg hz, ih fun i hi => hjs i (List.mem_cons_of_mem _ hi)]
      rfl

/-- `inode_lookup` looks the name up and changes nothing. -/
theorem lookup_run (de name : List UInt8) : (inodeLookup sb console de p name).run s =
    .ok (match s.dirMap sb p (nameOf name) with
      | some r => (r.1, some r.2)
      | none => (0, none)) s := by
  rw [inodeLookup, bind_ok (get_run s), bind_ok (assertThat_run h.type), h.offsets,
    h.lookupFrom_run name _ fun j hj => List.mem_range.mp hj]
  rw [Volume.dirMap, find]
  cases (List.range (s.entries p)).findSome? (hit (slotAt (s.bytesOf sb p)) (nameOf name)) with
  | none => rfl
  | some r => rfl

theorem of_dirMap {r : Nat × Nat} (hr : s.dirMap sb p name = some r) :
    r.1 ≠ 0 ∧ dirEntrySize ∣ r.2 ∧ r.2 < (s.heap p).entry.numBytes.toNat := by
  obtain ⟨⟨v, i⟩, hfind, hpair⟩ := Option.map_eq_some_iff.mp hr
  obtain ⟨hi, hslot⟩ := of_find_eq_some hfind
  subst hpair
  refine ⟨?_, Dvd.intro_left i rfl, ?_⟩
  · rw [slotAt, slotOf] at hslot
    split at hslot
    case isTrue => cases hslot
    case isFalse hne =>
      rw [(Prod.mk.inj (Option.some.inj hslot)).2] at hne
      exact hne
  · rw [h.numBytes]
    exact Nat.mul_lt_mul_of_pos_right hi (by decide)

end

/-! ### Writing an entry -/

section Write
variable (h : Directory sb p s) (hre : Rewritten sb p (splice (s.bytesOf sb p) (j * dirEntrySize) src) s s')
include h hre

theorem bytesOf_rewritten : s'.bytesOf sb p = splice (s.bytesOf sb p) (j * dirEntrySize) src := by
  have hdev : (s.entryOf sb (s.heap p).inodeNo).type ≠ inodeDevice := by
    rw [h.listed.entryOf h.loaded]
    exact h.notDevice
  rw [Volume.bytesOf, hre.same.inodeNo, hre.content _ (h.listed.allocated p h.loaded.1) hdev, if_pos rfl]

variable (hsrc : src.length = dirEntrySize) (hj : j ≤ s.entries p)
include hsrc hj

theorem slotAt_rewritten : slotAt (s'.bytesOf sb p) = update (slotAt (s.bytesOf sb p)) j (slotOf src) := by
  rw [h.bytesOf_rewritten hre]
  refine slotAt_splice hsrc ?_
  rw [h.bytesOf_length, h.numBytes]
  exact Nat.mul_le_mul_right _ hj

theorem numBytes_rewritten : (s'.heap p).entry.numBytes.toNat = max (s.entries p) (j + 1) * dirEntrySize := by
  have hlen : (s'.bytesOf sb p).length = (s'.heap p).entry.numBytes.toNat := by
    rw [Volume.bytesOf, Volume.content, elements_length,
      (hre.listed h.listed).entryOf (hre.same.loaded.mpr h.loaded)]
  have hold := h.bytesOf_length
  have hsize : (s.heap p).entry.numBytes.toNat = s.entries p * 16 := h.numBytes
  have hsrc' : src.length = 16 := hsrc
  rw [← hlen, h.bytesOf_rewritten hre]
  show (splice (s.bytesOf sb p) (j * 16) src).length = max (s.entries p) (j + 1) * 16
  rw [splice, List.length_append, List.length_append, List.length_take, List.length_drop]
  omega

theorem entries_rewritten : s'.entries p = max (s.entries p) (j + 1) := by
  rw [Volume.entries, h.numBytes_rewritten hre hsrc hj]
  exact Nat.mul_div_cancel _ (by decide)

/-- It is a directory still, if the names still differ. -/
theorem rewritten (hd : Distinct (max (s.entries p) (j + 1))
    (update (slotAt (s.bytesOf sb p)) j (slotOf src))) : Directory sb p s' where
  listed := hre.listed h.listed
  unshared := hre.unshared
  loaded := hre.same.loaded.mpr h.loaded
  type := by
    have hw := hre.listed h.listed
    have htype := hre.types _ (Nat.le_of_lt (h.listed.numbered p h.loaded.1).2)
    rw [h.listed.entryOf h.loaded, ← hre.same.inodeNo, hw.entryOf (hre.same.loaded.mpr h.loaded)] at htype
    rw [htype, h.type]
  aligned := Dvd.intro_left _ (h.numBytes_rewritten hre hsrc hj).symm
  distinct := by
    rw [h.entries_rewritten hre hsrc hj, h.slotAt_rewritten hre hsrc hj]
    exact hd

end Write

/-! ### Insertion and removal -/

/-- How an insertion stops: no block is left, or the directory cannot get longer. -/
def NoRoom (sb : SuperBlock) (s : Volume) (p : Ptr) (e : Halt) (s' : Volume) : Prop :=
  NoBlock sb e s' ∨
    e = .panic "assertion failed: \"end <= INODE_MAX_BYTES\"" ∧ (s.heap p).entry.numBytes.toNat = inodeMaxBytes

section Update
variable (h : Directory sb p s) (hl : Layout sb)
include h

theorem insert_present (hname : (s.dirMap sb p (nameOf name)).isSome) :
    (inodeInsert sb console de de' p name no).run s = .ok (2 ^ 64 - 1) s := by
  obtain ⟨r, hr⟩ := Option.isSome_iff_exists.mp hname
  rw [inodeInsert, bind_ok (get_run s), bind_ok (assertThat_run h.type), bind_ok (h.lookup_run de' name), hr,
    if_pos (h.of_dirMap hr).1, pure_run]

/-- What is left to do once the name has not been found. -/
theorem insert_run (hname : s.dirMap sb p (nameOf name) = none) :
    (inodeInsert sb console de de' p name no).run s = (do
      let _ ← inodeWrite sb p (direntBytes no name)
        (firstFree (s.entries p) (slotAt (s.bytesOf sb p)) * dirEntrySize)
      return firstFree (s.entries p) (slotAt (s.bytesOf sb p)) * dirEntrySize : V Nat).run s := by
  rw [inodeInsert, bind_ok (get_run s), bind_ok (assertThat_run h.type), bind_ok (h.lookup_run de' name), hname,
    if_neg (not_not.mpr rfl), h.offsets]
  dsimp only
  rw [List.length_map, List.length_range, bind_ok (h.freeDirent_run _ _ (fun j hj => List.mem_range.mp hj) de),
    ← firstFree]

include hl

/-- The first free entry gets the name, or a new entry at the end. -/
theorem insert_absent (hno : 0 < no) (hno' : no < 65536) (hname : s.dirMap sb p (nameOf name) = none) :
    Ends (fun r s' => r = firstFree (s.entries p) (slotAt (s.bytesOf sb p)) * dirEntrySize ∧ r ≠ 2 ^ 64 - 1 ∧
        Directory sb p s' ∧ s.entries p ≤ s'.entries p ∧
        s'.dirMap sb p = update (s.dirMap sb p) (nameOf name) (some (no, r)))
      (fun e s' => NoRoom sb s p e s' ∧ firstFree (s.entries p) (slotAt (s.bytesOf sb p)) = s.entries p)
      ((inodeInsert sb console de de' p name no).run s) := by
  have hlen := direntBytes_length no name
  have hfind : find (s.entries p) (slotAt (s.bytesOf sb p)) (nameOf name) = none := Option.map_eq_none_iff.mp hname
  obtain ⟨hle, -, hfree⟩ := firstFree_spec (s.entries p) (slotAt (s.bytesOf sb p))
  rw [h.insert_run hname]
  generalize firstFree (s.entries p) (slotAt (s.bytesOf sb p)) = j at hle hfree ⊢
  have hsize : (s.heap p).entry.numBytes.toNat = s.entries p * 16 := h.numBytes
  have hoff : j * dirEntrySize ≤ (s.heap p).entry.numBytes.toNat := by
    show j * 16 ≤ _
    omega
  have hmax : s.entries p * 16 ≤ 71680 := h.numBytes_le
  by_cases hfits : j * 16 + (direntBytes no name).length ≤ inodeMaxBytes
  · refine ((inodeWrite_spec hl h.listed h.unshared h.loaded h.notDevice hoff hfits).mono (fun _ _ hw => hw) ?_).bind
      fun _ s' _ hw => .ok ?_
    · intro e s' hstop
      have hgrow : s.entries p * 16 < j * 16 + 16 := by
        rw [hsize, hlen] at hstop
        exact hstop.2
      exact ⟨.inl hstop.1, by omega⟩
    · have hre : Rewritten sb p (splice (s.bytesOf sb p) (j * dirEntrySize) (direntBytes no name)) s s' := hw.2.1
      refine ⟨rfl, ?_, h.rewritten hre hlen hle ?_, ?_, ?_⟩
      · show j * 16 ≠ 2 ^ 64 - 1
        omega
      · rw [slotOf_direntBytes hno hno']
        exact h.distinct.store hfind hle
      · rw [h.entries_rewritten hre hlen hle]
        exact Nat.le_max_left ..
      · funext name'
        rw [Volume.dirMap, h.entries_rewritten hre hlen hle, h.slotAt_rewritten hre hlen hle,
          slotOf_direntBytes hno hno', h.distinct.find_store hfind hle hfree]
        by_cases heq : name' = nameOf name
        · rw [heq, update_self, update_self]
          rfl
        · rw [update_of_ne heq, update_of_ne heq, Volume.dirMap]
  · have hfits' : ¬ j * 16 + 16 ≤ 71680 := by
      rw [hlen] at hfits
      exact hfits
    have hstop : (inodeWrite sb p (direntBytes no name) (j * dirEntrySize)).run s =
        .error (.panic "assertion failed: \"end <= INODE_MAX_BYTES\"") s := by
      have hend : ¬ (j * dirEntrySize + (direntBytes no name).length) % 2 ^ 64 ≤ inodeMaxBytes := by
        rw [hlen]
        show ¬ (j * 16 + 16) % 2 ^ 64 ≤ 71680
        omega
      rw [inodeWrite]
      dsimp only
      rw [bind_ok (get_run s), if_neg h.notDevice, bind_ok (assertThat_run hoff), bind_error (assertThat_fails hend)]
      rfl
    rw [bind_error hstop]
    refine .error ⟨.inr ⟨rfl, ?_⟩, by omega⟩
    show (s.heap p).entry.numBytes.toNat = 71680
    omega

/-- The entry is free, and the name that was in it is mapped to nothing. -/
theorem remove_run (hj : j < s.entries p) : ∃ s', (inodeRemove sb p (j * dirEntrySize)).run s = .ok () s' ∧
    Directory sb p s' ∧ s'.entries p = s.entries p ∧
    s'.dirMap sb p = fun name =>
      if (s.dirMap sb p name).any (fun r => r.2 = j * dirEntrySize) then none else s.dirMap sb p name := by
  have hlen : (List.replicate dirEntrySize (0 : UInt8)).length = dirEntrySize := List.length_replicate ..
  have hsize : (s.heap p).entry.numBytes.toNat = s.entries p * 16 := h.numBytes
  have hmax : s.entries p * 16 ≤ 71680 := h.numBytes_le
  have hwithin : max (s.entries p) (j + 1) = s.entries p := by omega
  have hfits : j * 16 + (List.replicate dirEntrySize (0 : UInt8)).length ≤ inodeMaxBytes := by
    show j * 16 + 16 ≤ 71680
    omega
  have hwrite : Ends _ _ ((inodeWrite sb p (List.replicate dirEntrySize 0) (j * 16)).run s) :=
    inodeWrite_spec hl h.listed h.unshared h.loaded h.notDevice (by omega) hfits
  have hreturns : Ends (fun _ s' => Rewritten sb p
      (splice (s.bytesOf sb p) (j * dirEntrySize) (List.replicate dirEntrySize 0)) s s') (fun _ _ => False)
      ((inodeRemove sb p (j * dirEntrySize)).run s) := by
    rw [inodeRemove, bind_ok (get_run s), bind_ok (assertThat_run h.type)]
    refine (hwrite.mono (fun _ _ hw => hw) fun e s' hstop => ?_).bind fun _ s' _ hw => .ok hw.2.1
    have hgrow : s.entries p * 16 < j * 16 + 16 := hsize ▸ hstop.2
    omega
  cases hrun : (inodeRemove sb p (j * dirEntrySize)).run s with
  | error e s' => exact absurd (hreturns.of_error hrun) id
  | ok _ s' =>
    have hre := hreturns.of_ok hrun
    have hentries : s'.entries p = s.entries p := (h.entries_rewritten hre hlen (Nat.le_of_lt hj)).trans hwithin
    refine ⟨s', rfl, h.rewritten hre hlen (Nat.le_of_lt hj) ?_, hentries, ?_⟩
    · rw [hwithin, slotOf_zero]
      exact h.distinct.clear
    · funext name
      rw [Volume.dirMap, hentries, h.slotAt_rewritten hre hlen (Nat.le_of_lt hj), slotOf_zero,
        h.distinct.find_clear, Volume.dirMap]
      cases find (s.entries p) (slotAt (s.bytesOf sb p)) name with
      | none => rfl
      | some r =>
        have hiff : (r.2 * dirEntrySize = j * dirEntrySize) ↔ r.2 = j := Nat.mul_left_inj (by decide)
        simp only [Option.map_some, Option.any_some, hiff]
        split <;> rfl

end Update

end Directory

/-! ### Histories -/

/-- A volume, the map its directory should be, and the indices that lookups have found. -/
structure DirHistory where
  vol : Volume
  map : List UInt8 → Option (Nat × Nat)
  found : List Nat

/-- A call on the directory. `de` and `de'` are what the stack holds where the local
variables of `inode_insert` and `inode_lookup` are. -/
inductive DirCall where
  | lookup (de name : List UInt8)
  | insert (de de' name : List UInt8) (inodeNo : Nat)
  | remove (index : Nat)

namespace DirCall

/-- Inode numbers fit an entry, and an index to remove comes from a lookup. -/
def Legal (d : DirHistory) : DirCall → Prop
  | lookup _ _ => True
  | insert _ _ _ inodeNo => 0 < inodeNo ∧ inodeNo < 65536
  | remove index => index ∈ d.found

instance (d : DirHistory) : (c : DirCall) → Decidable (c.Legal d)
  | lookup _ _ => inferInstanceAs (Decidable True)
  | insert _ _ _ inodeNo => inferInstanceAs (Decidable (0 < inodeNo ∧ inodeNo < 65536))
  | remove index => inferInstanceAs (Decidable (index ∈ d.found))

/-- The call runs on the volume; what it returned is entered into the map. -/
def exec (sb : SuperBlock) (console : Console) (p : Ptr) (d : DirHistory) : DirCall → Option DirHistory
  | lookup de name =>
    match (inodeLookup sb console de p name).run d.vol with
    | .ok r s => some {d with vol := s, found := r.2.toList ++ d.found}
    | .error _ _ => none
  | insert de de' name inodeNo =>
    match (inodeInsert sb console de de' p name inodeNo).run d.vol with
    | .ok r s =>
      if r = 2 ^ 64 - 1 then some {d with vol := s}
      else some {d with vol := s, map := update d.map (nameOf name) (some (inodeNo, r))}
    | .error _ _ => none
  | remove index =>
    match (inodeRemove sb p index).run d.vol with
    | .ok _ s =>
      some {d with vol := s, map := fun name => if (d.map name).any (fun r => r.2 = index) then none else d.map name}
    | .error _ _ => none

end DirCall

/-- The directory is the map, and the indices found are those of entries. -/
structure DirHistory.Valid (sb : SuperBlock) (p : Ptr) (d : DirHistory) : Prop where
  directory : Directory sb p d.vol
  map : d.vol.dirMap sb p = d.map
  found : ∀ i ∈ d.found, ∃ j < d.vol.entries p, i = j * dirEntrySize

variable {d d' : DirHistory} {c : DirCall}

theorem DirHistory.Valid.exec (h : d.Valid sb p) (hl : Layout sb) (hok : c.Legal d)
    (hrun : c.exec sb console p d = some d') : d'.Valid sb p := by
  cases c with
  | lookup de name =>
    rw [DirCall.exec, h.directory.lookup_run, h.map] at hrun
    cases hrun
    refine ⟨h.directory, h.map, fun i hi => ?_⟩
    rcases List.mem_append.mp hi with hnew | hold
    · cases hr : d.map (nameOf name) with
      | none =>
        rw [hr] at hnew
        cases hnew
      | some r =>
        rw [hr] at hnew
        obtain rfl : i = r.2 := List.mem_singleton.mp hnew
        obtain ⟨-, ⟨j, hj⟩, hlt⟩ := h.directory.of_dirMap ((congrFun h.map _).trans hr)
        refine ⟨j, ?_, hj.trans (Nat.mul_comm ..)⟩
        rw [hj, Nat.mul_comm, h.directory.numBytes] at hlt
        exact Nat.lt_of_mul_lt_mul_right hlt
    · exact h.found i hold
  | insert de de' name no =>
    rw [DirCall.exec] at hrun
    by_cases hname : (d.map (nameOf name)).isSome
    · rw [h.directory.insert_present ((congrArg Option.isSome (congrFun h.map _)).trans hname)] at hrun
      cases hrun
      exact h
    · have habsent : d.vol.dirMap sb p (nameOf name) = none :=
        (congrFun h.map _).trans (Option.not_isSome_iff_eq_none.mp hname)
      cases hr : (inodeInsert sb console de de' p name no).run d.vol with
      | error e s =>
        rw [hr] at hrun
        cases hrun
      | ok r s =>
        obtain ⟨-, hne, hdir, hentries, hmap⟩ := (h.directory.insert_absent hl hok.1 hok.2 habsent).of_ok hr
        rw [hr] at hrun
        dsimp only at hrun
        rw [if_neg hne] at hrun
        cases hrun
        refine ⟨hdir, ?_, fun i hi => ?_⟩
        · rw [hmap, h.map]
        · obtain ⟨j, hj, rfl⟩ := h.found i hi
          exact ⟨j, lt_of_lt_of_le hj hentries, rfl⟩
  | remove index =>
    obtain ⟨j, hj, rfl⟩ := h.found index hok
    obtain ⟨s', hrun', hdir, hentries, hmap⟩ := h.directory.remove_run hl hj
    rw [DirCall.exec, hrun'] at hrun
    cases hrun
    refine ⟨hdir, ?_, ?_⟩
    · rw [hmap, h.map]
    · show ∀ i ∈ d.found, ∃ j < s'.entries p, i = j * dirEntrySize
      rw [hentries]
      exact h.found

/-- **A directory is a finite map.** From any directory with different names, in every
state that lookups, insertions and removals of found entries lead to: the names
differ; a lookup returns what the map has, 0 and no index for a name it does not have,
and changes nothing; inserting a name that is there returns -1 and changes nothing;
inserting another puts it into the first free entry, or into a new one if there is
none, and returns its index, and only then can it fail, if no block is left or the
directory is as long as files get; and removing an index found before always works.
The map is kept by the calls themselves: insertion changes it at one name, removal
takes out the name at that index. -/
theorem directory_is_finite_map (hl : Layout sb) (h0 : Directory sb p s0)
    (hrun : Reach (fun d c d' => DirCall.exec sb console p d c = some d') DirCall.Legal
      ⟨s0, s0.dirMap sb p, []⟩ d) :
    Distinct (d.vol.entries p) (slotAt (d.vol.bytesOf sb p)) ∧
    (∀ de name, (inodeLookup sb console de p name).run d.vol =
      .ok (match d.map (nameOf name) with
        | some r => (r.1, some r.2)
        | none => (0, none)) d.vol) ∧
    (∀ de de' name no, (d.map (nameOf name)).isSome →
      (inodeInsert sb console de de' p name no).run d.vol = .ok (2 ^ 64 - 1) d.vol) ∧
    (∀ de de' name no, 0 < no → no < 65536 → d.map (nameOf name) = none →
      Ends (fun r s' => r = firstFree (d.vol.entries p) (slotAt (d.vol.bytesOf sb p)) * dirEntrySize ∧
          r ≠ 2 ^ 64 - 1 ∧ s'.dirMap sb p = update d.map (nameOf name) (some (no, r)))
        (fun e s' => Directory.NoRoom sb d.vol p e s' ∧
          firstFree (d.vol.entries p) (slotAt (d.vol.bytesOf sb p)) = d.vol.entries p)
        ((inodeInsert sb console de de' p name no).run d.vol)) ∧
    ∀ i ∈ d.found, ∃ s', (inodeRemove sb p i).run d.vol = .ok () s' ∧
      s'.dirMap sb p = fun name => if (d.map name).any (fun r => r.2 = i) then none else d.map name := by
  have h : d.Valid sb p := hrun.invariant (I := fun d => d.Valid sb p) ⟨h0, rfl, nofun⟩
    fun _ _ _ hd hok hstep => hd.exec hl hok hstep
  refine ⟨h.directory.distinct, ?lookup, ?present, ?absent, ?remove⟩
  case lookup =>
    intro de name
    rw [h.directory.lookup_run, h.map]
  case present =>
    intro de de' name no hname
    exact h.directory.insert_present ((congrArg Option.isSome (congrFun h.map _)).trans hname)
  case absent =>
    intro de de' name no hno hno' hname
    refine (h.directory.insert_absent hl hno hno' ((congrFun h.map _).trans hname)).mono ?_ fun _ _ he => he
    intro r s' hr
    obtain ⟨hfree, hne, -, -, hmap⟩ := hr
    exact ⟨hfree, hne, h.map ▸ hmap⟩
  case remove =>
    intro i hi
    obtain ⟨j, hj, rfl⟩ := h.found i hi
    obtain ⟨s', hrun', -, -, hmap⟩ := h.directory.remove_run hl hj
    exact ⟨s', hrun', h.map ▸ hmap⟩

/-- Inode 1 is held and is an empty directory; every byte of the bitmap is `bits`. -/
def emptyDir (bits : UInt8) : Volume where
  blocks := update (update (fun _ => zeroBlock)
    4 (setEntry zeroBlock 1 {InodeEntry.zero with type := inodeDirectory, numLinks := 1})) 5 fun _ => bits
  heap := fun _ => ⟨false, 1, 1, true, {InodeEntry.zero with type := inodeDirectory, numLinks := 1}⟩
  head := [1]
  allocs := 1

section EmptyDir
variable {bits : UInt8}

theorem emptyDir_one : OneInode oneBlockDisk (emptyDir bits)
    {InodeEntry.zero with type := inodeDirectory, numLinks := 1} 0 where
  allocated _ := allocated_three rfl (show inodeDirectory ≠ inodeInvalid by decide) rfl rfl
  entry := rfl
  addrs := by decide
  indirect := rfl
  size := by decide

theorem emptyDir_directory (hbits : ∀ b < 7, b ∈ (emptyDir bits).used oneBlockDisk) :
    Directory oneBlockDisk 1 (emptyDir bits) := by
  constructor
  case listed => exact emptyDir_one.listed rfl rfl rfl (by decide)
  case unshared => exact emptyDir_one.unshared oneBlockDisk_layout (fun h => absurd rfl h) (by decide) hbits
  case loaded => exact ⟨⟨List.mem_singleton.mpr rfl, Int.zero_lt_one⟩, rfl⟩
  case type => rfl
  case aligned => exact Nat.dvd_zero _
  case distinct =>
    have hzero : (emptyDir bits).entries 1 = 0 := by
      show 0 / dirEntrySize = 0
      decide
    rw [hzero]
    exact fun i hi => absurd hi (Nat.not_lt_zero i)

end EmptyDir

/-- Two names are inserted and the first is removed. -/
theorem directory_is_finite_map_removed : ∃ d : DirHistory,
    Reach (fun d c d' => DirCall.exec oneBlockDisk (fun _ => (0, [])) 1 d c = some d') DirCall.Legal
      ⟨emptyDir 127, (emptyDir 127).dirMap oneBlockDisk 1, []⟩ d ∧
    (inodeLookup oneBlockDisk (fun _ => (0, [])) [] 1 [98]).run d.vol = .ok (2, some 16) d.vol ∧
    (inodeLookup oneBlockDisk (fun _ => (0, [])) [] 1 [97]).run d.vol = .ok (0, none) d.vol ∧
    ∃ s', (inodeRemove oneBlockDisk 1 0).run d.vol = .ok () s' := by
  have hbits : ∀ b < 7, b ∈ (emptyDir 127).used oneBlockDisk := by
    show ∀ b < 7, (emptyDir 127).isUsed oneBlockDisk b = true
    decide +kernel
  have hmap : (emptyDir 127).dirMap oneBlockDisk 1 = fun _ => none := rfl
  have hany : (runAll (DirCall.exec oneBlockDisk (fun _ => (0, [])) 1) DirCall.Legal ⟨emptyDir 127, fun _ => none, []⟩
      [.insert [] [] [97] 2, .insert [] [] [98] 2, .lookup [] [97], .remove 0]).any (fun d =>
        d.map (nameOf [98]) == some (2, 16) && d.map (nameOf [97]) == none && d.found == [0]) = true := by
    decide +kernel
  obtain ⟨d, hreach, htest⟩ := Reach.exists_of_any hany
  simp only [Bool.and_eq_true, beq_iff_eq] at htest
  obtain ⟨⟨hb, ha⟩, hfound⟩ := htest
  rw [← hmap] at hreach
  obtain ⟨-, hlookup, -, -, hremove⟩ :=
    directory_is_finite_map oneBlockDisk_layout (emptyDir_directory hbits) hreach
  refine ⟨d, hreach, ?_, ?_, ?_⟩
  · rw [hlookup, hb]
  · rw [hlookup, ha]
  · obtain ⟨s', hrun, -⟩ := hremove 0 (by rw [hfound]; exact List.mem_singleton.mpr rfl)
    exact ⟨s', hrun⟩

/-- Inode 1 is held and is a directory of 33 free entries whose two blocks are one block. -/
def foldedDir : Volume where
  blocks := update (fun _ => zeroBlock) 5 fun _ => 255
  heap := fun _ => ⟨false, 1, 1, true, {InodeEntry.zero with
    type := inodeDirectory, numLinks := 1, numBytes := 528, addrs := fun i => if i < 2 then 7 else 0}⟩
  head := [1]
  allocs := 1

/-- With every block in use, inserting a new name into an empty directory does not
return. If a block is in the directory twice, so is a name inserted into it. -/
theorem insert_needs_room_and_own_blocks :
    (Layout oneBlockDisk ∧ Directory oneBlockDisk 1 (emptyDir 255) ∧
      (emptyDir 255).dirMap oneBlockDisk 1 = (fun _ => none) ∧
      ∃ s', (inodeInsert oneBlockDisk (fun _ => (0, [])) [] [] 1 [97] 2).run (emptyDir 255) =
        .error (.panic "cache_alloc: no free block") s') ∧
    (∀ j, slotAt (foldedDir.bytesOf oneBlockDisk 1) j = none) ∧
    ∃ s', (inodeInsert oneBlockDisk (fun _ => (0, [])) [] [] 1 [97] 2).run foldedDir = .ok 0 s' ∧
      ¬ Distinct (s'.entries 1) (slotAt (s'.bytesOf oneBlockDisk 1)) := by
  have hbits : ∀ b < 7, b ∈ (emptyDir 255).used oneBlockDisk := by
    show ∀ b < 7, (emptyDir 255).isUsed oneBlockDisk b = true
    decide +kernel
  have hfree : ∀ j, slotAt (foldedDir.bytesOf oneBlockDisk 1) j = none := by
    have hbytes : foldedDir.bytesOf oneBlockDisk 1 = List.replicate 528 0 := by decide +kernel
    have hbelow : ∀ j < 33, slotAt (List.replicate 528 0) j = none := by decide +kernel
    intro j
    rw [hbytes]
    by_cases hj : j < 33
    · exact hbelow j hj
    · have hlen : (List.replicate 528 (0 : UInt8)).length ≤ j * dirEntrySize := by
        rw [List.length_replicate]
        show 528 ≤ j * 16
        omega
      rw [slotAt, List.drop_eq_nil_of_le hlen]
      rfl
  have htest : returnedWith (fun r s' => r == 0 && s'.entries 1 == 33 &&
      slotAt (s'.bytesOf oneBlockDisk 1) 0 == some ([97], 2) &&
      slotAt (s'.bytesOf oneBlockDisk 1) 32 == some ([97], 2))
      ((inodeInsert oneBlockDisk (fun _ => (0, [])) [] [] 1 [97] 2).run foldedDir) = true := by
    decide +kernel
  obtain ⟨r, s', hrun, htest⟩ := exists_of_returnedWith htest
  simp only [Bool.and_eq_true, beq_iff_eq] at htest
  obtain ⟨⟨⟨rfl, hentries⟩, hfst⟩, hsnd⟩ := htest
  refine ⟨⟨oneBlockDisk_layout, emptyDir_directory hbits, rfl, exists_of_stoppedWith (by decide +kernel)⟩, hfree, s',
    hrun, fun hd => ?_⟩
  rw [hentries] at hd
  exact absurd (hd 0 (by decide) 32 (by decide) _ _ _ hfst hsnd) (by decide)

end OS2021.Fs
