import OS2021.Core.FileCalls
import OS2021.Core.PageMap
import OS2021.Fs.Syncs

/-! What `filewrite` writes (`fs/file.c`).

It splits a write into operations of `mx` bytes, so that each stays within what the log has
room for, but it hands all `n` bytes to `inode_write` in the first one. A write of at most
`mx` bytes is one operation, and that syncs seven blocks at most; a longer one ends in a
panic. -/
namespace OS2021.Core
open Fs Lib Function

/-! ### The operations of a write -/

section Routines
variable (env : Env) (pgdir : Nat) (f : Fin nfile) (addr n : UInt64)

/-- The loop of `filewrite`, with the blocks that each of its operations syncs. -/
def filewriteFromSyncs : Nat → UInt64 → K (Int × List (List Nat))
  | 0, _ => throw .hang
  | fuel + 1, i =>
    if i < n then do
      let n1 := if mx < n - i then mx else n - i
      beginOp
      let ff := (← get).ftable f
      onVol (inodeLock ff.ip)
      let device := ((← get).vol.heap ff.ip).entry.type = inodeDevice
      let src ← onMem (writeSource pgdir device (addr + i) n)
      let sz ← onVol (inodeWriteSyncs env.sb ff.ip src ff.off.toNat)
      modify (·.setFile f fun g => {g with off := g.off + .ofNat sz.1})
      onVol (inodeUnlock ff.ip)
      endOp
      if .ofNat sz.1 ≠ n1 then throw (.panic "short filewrite")
      else do
        let r ← filewriteFromSyncs fuel (i + .ofNat sz.1)
        return (r.1, sz.2 :: r.2)
    else return (if i = n then isize n else -1, [])

def filewriteSyncs : K (Int × List (List Nat)) := do
  let ff := (← get).ftable f
  if !ff.writable then return (-1, [])
  else if ff.type = .inode then filewriteFromSyncs env pgdir f addr n (n.toNat + 1) 0
  else throw (.panic "not inode")

end Routines

section Erasure
variable {env : Env} {pgdir : Nat} {f : Fin nfile} {addr n : UInt64}

theorem filewriteFromSyncs_erases (fuel : Nat) (i : UInt64) :
    Erases (filewriteFromSyncs env pgdir f addr n fuel i) (filewriteFrom env pgdir f addr n fuel i) := by
  induction fuel generalizing i with
  | zero => exact .throw _
  | succ fuel ih =>
    refine .ite ?_ (.pure _ _)
    refine .seq fun _ => .seq fun k => .seq fun _ => .seq fun k' => .seq fun src => ?_
    refine (inodeWriteSyncs_erases _ _).onPart.bind fun sz => .seq fun _ => .seq fun _ => .seq fun _ => ?_
    refine .ite (.throw _) ?_
    have h := (ih (i + .ofNat sz.1)).bind fun r => Erases.pure r.1 (sz.2 :: r.2)
    rwa [bind_pure] at h

theorem filewriteSyncs_erases : Erases (filewriteSyncs env pgdir f addr n) (filewrite env pgdir f addr n) :=
  .seq fun _ => .ite (.pure _ _) (.ite (filewriteFromSyncs_erases _ _) (.throw _))

end Erasure

/-! ### The buffer -/

theorem loadUser_length {pgdir n : Nat} {va : UInt64} {m m' : Memory} {src : List UInt8}
    (h : (loadUser pgdir n va).run m = .ok src m') : src.length = n := by
  induction n generalizing va m src with
  | zero =>
    cases h
    rfl
  | succ n ih =>
    obtain ⟨b, m1, -, h⟩ := bind_eq_ok h
    obtain ⟨rest, m2, hrest, h⟩ := bind_eq_ok h
    cases h
    rw [List.length_cons, ih hrest]

/-- A buffer whose pages are mapped can be read. -/
theorem loadUser_mapped {r n : Nat} {va : UInt64} {m : Memory} (hva : va.toNat + n < 2 ^ 64)
    (hmap : ∀ x, va.toNat ≤ x → x < va.toNat + n →
      ∃ pte, m.slot r (x / pageSize) = some pte ∧ isValid (m.pte pte) = true) :
    ∃ src, (loadUser r n va).run m = .ok src m := by
  induction n generalizing va with
  | zero => exact ⟨[], rfl⟩
  | succ n ih =>
    have hnext : (va + 1).toNat = va.toNat + 1 := by
      rw [UInt64.toNat_add]
      exact Nat.mod_eq_of_lt (by show va.toNat + 1 < 2 ^ 64; omega)
    obtain ⟨rest, hrest⟩ : ∃ rest, (loadUser r n (va + 1)).run m = .ok rest m :=
      ih (by omega) fun x hx hx' => hmap x (by omega) (by omega)
    obtain ⟨pte, hslot, hvalid⟩ := hmap va.toNat le_rfl (by omega)
    have haddr : (userAddress r va).run m = .ok (pteAddress (m.pte pte) + (va % 4096).toNat) m := by
      rw [userAddress, bind_ok (pgdirWalk_lookup m r va), hslot]
      dsimp only
      rw [bind_ok (get_run m), if_pos hvalid]
      rfl
    have hbyte : (userByte r va).run m = .ok (m.byte (pteAddress (m.pte pte) + (va % 4096).toNat)) m := by
      rw [userByte, bind_ok haddr, bind_ok (get_run m)]
      rfl
    refine ⟨m.byte (pteAddress (m.pte pte) + (va % 4096).toNat) :: rest, ?_⟩
    rw [loadUser, bind_ok hbyte, bind_ok hrest]
    rfl

theorem isize_of_lt {n : UInt64} (h : n.toNat < 2 ^ 63) : isize n = n.toNat := by
  show n.toBitVec.toInt = n.toNat
  exact BitVec.toInt_eq_toNat_of_lt (by show 2 * n.toNat < 2 ^ 64; omega)

/-! ### One operation -/

/-- The file at `p` can take `n` bytes at `off`: the file system is intact, the file is regular
and not locked, and the slots `N`, which the write uses, own a block or can get one. -/
structure Accepts (sb : SuperBlock) (s : Volume) (p : Ptr) (N : Finset Slot) (off n : Nat) : Prop where
  layout : Layout sb
  intact : Intact sb s
  loaded : s.Loaded p
  unlocked : (s.heap p).locked = false
  regular : (s.heap p).entry.type = inodeRegular
  start : off ≤ (s.heap p).entry.numBytes.toNat
  max : off + n ≤ inodeMaxBytes
  slots : slotsFor off n ⊆ N
  room : Room sb s (s.heap p).inodeNo N

section File
variable {sb : SuperBlock} {s : Volume} {p : Ptr} {N : Finset Slot} {off n : Nat} {src : List UInt8}

/-- The size of a file that has been written to. -/
theorem numBytes_rewritten {s' : Volume} (hw : Listed sb s) (hp : s.Loaded p)
    (hdev : (s.heap p).entry.type ≠ inodeDevice) (hoff : off ≤ (s.heap p).entry.numBytes.toNat)
    (hre : Rewritten sb p (splice (s.content sb (s.heap p).inodeNo) off src) s s') :
    (s'.heap p).entry.numBytes.toNat = Nat.max (s.heap p).entry.numBytes.toNat (off + src.length) := by
  have hw' := hre.listed hw
  have hlen : (s.content sb (s.heap p).inodeNo).length = (s.heap p).entry.numBytes.toNat := by
    rw [Volume.content, elements_length, hw.entryOf hp]
  have hcontent := hre.content _ (hw.allocated p hp.1) (by rw [hw.entryOf hp]; exact hdev)
  rw [if_pos rfl] at hcontent
  have hlen' : (s'.content sb (s.heap p).inodeNo).length = (s'.heap p).entry.numBytes.toNat := by
    rw [Volume.content, elements_length, ← hre.same.inodeNo p, hw'.entryOf (hre.same.loaded.mpr hp)]
  rw [← hlen', hcontent, splice, List.length_append, List.length_append, List.length_take, List.length_drop, hlen]
  show _ = max _ _
  omega

/-- The file is locked, written and unlocked, and can take the bytes that are left. -/
theorem Accepts.write (h : Accepts sb s p N off (src.length + n)) : ∃ l s1 s2 s3,
    (inodeLock p).run s = .ok () s1 ∧ (s1.heap p).entry.type ≠ inodeDevice ∧
    (inodeWriteSyncs sb p src off).run s1 = .ok (src.length, l) s2 ∧ (inodeUnlock p).run s2 = .ok () s3 ∧
    (OneBitmap sb → l.toFinset.card ≤ N.card + 2) ∧ Accepts sb s3 p N (off + src.length) n ∧
    (s3.heap p).inodeNo = (s.heap p).inodeNo ∧
    s3.files sb = update (s.files sb) (s.heap p).inodeNo
      (some (splice (s.content sb (s.heap p).inodeNo) off src)) := by
  have hlive := h.loaded.1
  have hrc : 0 < (s.heap p).rc := hlive.2
  obtain ⟨s1, hs1⟩ : ∃ s1, s1 = s.setInode p fun ip => {ip with locked := true} := ⟨_, rfl⟩
  have hself : s1.heap p = {s.heap p with locked := true} := by rw [hs1, setInode_self]
  have hblocks : s1.blocks = s.blocks := by rw [hs1]; rfl
  have hintact : Intact sb s1 := by
    rw [hs1]
    exact h.intact.recount hlive fun hz => absurd hz hrc.ne'
  have hload : s1.Loaded p := by
    refine ⟨⟨?_, ?_⟩, ?_⟩
    · rw [hs1]
      exact hlive.1
    · rw [hself]
      exact hrc
    · rw [hself]
      exact h.loaded.2
  have hdev : (s1.heap p).entry.type ≠ inodeDevice := by
    rw [hself, h.regular]
    decide
  have haddr := h.intact.coherent.addr_eq hintact.coherent hblocks
  have hroom : Room sb s1 (s1.heap p).inodeNo N := by
    rw [hself]
    exact h.room.congr (fun x _ => mem_used_congr (by rw [hblocks])) haddr
  have hoff : off ≤ (s1.heap p).entry.numBytes.toNat := by rw [hself]; exact h.start
  have hmax := h.max
  have hmax1 : off + src.length ≤ inodeMaxBytes := by omega
  obtain ⟨l, s2, hrun, hcard, hroom2, hre, hintact2⟩ := inodeWriteSyncs_run h.layout hintact hload hdev hoff hmax1
    hroom ((slotsFor_subset le_rfl (by omega)).trans h.slots)
  have hload2 := hre.same.loaded.mpr hload
  have hlocked : (s2.heap p).locked = true := by rw [hre.same.locked, hself]
  have hrc2 : 0 < (s2.heap p).rc := hload2.1.2
  have hno : (s2.heap p).inodeNo = (s.heap p).inodeNo := by rw [hre.same.inodeNo, hself]
  have hsize := numBytes_rewritten hintact.listed hload hdev hoff hre
  have htype : (s2.heap p).entry.type = inodeRegular := by
    have hall := hintact.listed.allocated p hload.1
    have heq := hre.types _ hall.2.1
    rw [hintact.listed.entryOf hload, ← hre.same.inodeNo p, (hre.listed hintact.listed).entryOf hload2, hself] at heq
    exact heq.trans h.regular
  obtain ⟨s3, hs3⟩ : ∃ s3, s3 = s2.setInode p fun ip => {ip with locked := false} := ⟨_, rfl⟩
  have hself3 : s3.heap p = {s2.heap p with locked := false} := by rw [hs3, setInode_self]
  have hblocks3 : s3.blocks = s2.blocks := by rw [hs3]; rfl
  have hintact3 : Intact sb s3 := by
    rw [hs3]
    exact hintact2.recount hload2.1 fun _ => rfl
  refine ⟨l, s1, s2, s3, (inodeLock_run hrc h.unlocked).trans (by rw [hs1]), hdev, hrun,
    (inodeUnlock_run hrc2 hlocked).trans (by rw [hs3]), hcard, ?accepts, by rw [hself3]; exact hno, ?files⟩
  case accepts =>
    refine ⟨h.layout, hintact3, ⟨⟨?_, ?_⟩, ?_⟩, ?_, ?_, ?_, by omega, ?_, ?_⟩
    · rw [hs3]
      exact hload2.1.1
    · rw [hself3]
      exact hrc2
    · rw [hself3]
      exact hload2.2
    · rw [hself3]
    · rw [hself3]
      exact htype
    · rw [hself3]
      exact hsize ▸ Nat.le_max_right ..
    · exact (slotsFor_subset (Nat.le_add_right ..) (by omega)).trans h.slots
    · rw [hself3, hre.same.inodeNo]
      exact hroom2.congr (fun x _ => mem_used_congr (by rw [hblocks3]))
        (hintact2.coherent.addr_eq hintact3.coherent hblocks3)
  case files =>
    rw [hintact2.coherent.files_eq hintact3.coherent hblocks3, hre.files hintact.listed hload hdev, hself,
      h.intact.coherent.files_eq hintact.coherent hblocks, h.intact.coherent.content_eq hintact.coherent hblocks]

end File

section Round
variable {env : Env} {pgdir : Nat} {f : Fin nfile} {addr n : UInt64} {src : List UInt8} {k : Kernel}
  {N : Finset Slot} {rest : Nat}

/-- A write that there is room for: the file system is intact and has one block of bits, the
file is regular and not locked, and there are as many free blocks as it lacks. -/
structure CanWrite (env : Env) (k : Kernel) (f : Fin nfile) (n : Nat) : Prop where
  layout : Layout env.sb
  bits : env.sb.numBlocks.toNat ≤ bitPerBlock
  intact : Intact env.sb k.vol
  loaded : k.vol.Loaded (k.ftable f).ip
  unlocked : (k.vol.heap (k.ftable f).ip).locked = false
  regular : (k.vol.heap (k.ftable f).ip).entry.type = inodeRegular
  off : (k.ftable f).off.toNat ≤ (k.vol.heap (k.ftable f).ip).entry.numBytes.toNat
  max : (k.ftable f).off.toNat + n ≤ inodeMaxBytes
  room : Room env.sb k.vol (k.vol.heap (k.ftable f).ip).inodeNo (slotsFor (k.ftable f).off.toNat n)

/-- The bytes are in the file, and its offset is behind them. -/
structure Wrote (env : Env) (f : Fin nfile) (src : List UInt8) (k k' : Kernel) : Prop where
  off : (k'.ftable f).off.toNat = (k.ftable f).off.toNat + src.length
  files : k'.vol.files env.sb = update (k.vol.files env.sb) (k.vol.heap (k.ftable f).ip).inodeNo
    (some (splice (k.vol.content env.sb (k.vol.heap (k.ftable f).ip).inodeNo) (k.ftable f).off.toNat src))

/-- The open file `f` can take `n` bytes at its offset. -/
def Kernel.Accepts (k : Kernel) (env : Env) (f : Fin nfile) (N : Finset Slot) (n : Nat) : Prop :=
  Core.Accepts env.sb k.vol (k.ftable f).ip N (k.ftable f).off.toNat n

theorem CanWrite.accepts {n : Nat} (h : CanWrite env k f n) :
    k.Accepts env f (slotsFor (k.ftable f).off.toNat n) n :=
  ⟨h.layout, h.intact, h.loaded, h.unlocked, h.regular, h.off, h.max, Finset.Subset.refl _, h.room⟩

/-- A write to `f` and what it leaves alone; `rest` more bytes can be written. -/
structure Advanced (env : Env) (f : Fin nfile) (N : Finset Slot) (src : List UInt8) (rest : Nat) (k k' : Kernel) :
    Prop extends Wrote env f src k k' where
  accepts : k'.Accepts env f N rest
  inodeNo : (k'.vol.heap (k'.ftable f).ip).inodeNo = (k.vol.heap (k.ftable f).ip).inodeNo
  file : (k'.ftable f).writable = (k.ftable f).writable ∧ (k'.ftable f).type = (k.ftable f).type
  mem : k'.mem = k.mem
  procs : k'.procs = k.procs

/-- The first operation of a write puts all its bytes into the file. -/
theorem Kernel.Accepts.round (h : k.Accepts env f N (src.length + rest)) (hn : src.length = n.toNat) (hpos : 0 < n)
    (hbuf : (loadUser pgdir n.toNat addr).run k.mem = .ok src k.mem) (fuel : Nat) :
    ∃ l k', (filewriteFromSyncs env pgdir f addr n (fuel + 1) 0).run k =
        (if n ≠ (if mx < n then mx else n) then throw (.panic "short filewrite") else do
          let r ← filewriteFromSyncs env pgdir f addr n fuel n
          return (r.1, l :: r.2) : K (Int × List (List Nat))).run k' ∧
      (OneBitmap env.sb → l.toFinset.card ≤ N.card + 2) ∧ Advanced env f N src rest k k' := by
  obtain ⟨l, s1, s2, s3, hlock, hdev, hwrite, hunlock, hcard, haccepts, hno, hfiles⟩ := h.write
  have hsz : UInt64.ofNat src.length = n := by
    rw [hn]
    exact UInt64.ofNat_toNat
  have hmax : (k.ftable f).off.toNat + (src.length + rest) ≤ 71680 := h.max
  have hsource : (writeSource pgdir (decide ((s1.heap (k.ftable f).ip).entry.type = inodeDevice)) (addr + 0) n).run
      k.mem = .ok src k.mem := by
    have hle : n.toNat ≤ inodeMaxBytes := by
      show n.toNat ≤ 71680
      omega
    rw [writeSource, if_pos (Or.inl hle), UInt64.add_zero]
    exact hbuf
  obtain ⟨k', hk'⟩ : ∃ k' : Kernel, k' = {({k with vol := s2} : Kernel).setFile f fun g =>
      {g with off := g.off + n} with vol := s3, outstanding := k.outstanding + 1 - 1} := ⟨_, rfl⟩
  have hlock' : (onVol (inodeLock (k.ftable f).ip)).run {k with outstanding := k.outstanding + 1} =
      .ok () {k with outstanding := k.outstanding + 1, vol := s1} := onVol_run hlock
  have hsource' := onMem_run (k := {k with outstanding := k.outstanding + 1, vol := s1}) hsource
  have hwrite' : (onVol (inodeWriteSyncs env.sb (k.ftable f).ip src (k.ftable f).off.toNat)).run
      {k with outstanding := k.outstanding + 1, vol := s1} =
      .ok (src.length, l) {k with outstanding := k.outstanding + 1, vol := s2} := onVol_run hwrite
  have hunlock' := onVol_run (k := ({k with outstanding := k.outstanding + 1, vol := s2} : Kernel).setFile f fun g =>
    {g with off := g.off + n}) hunlock
  have hrun : (filewriteFromSyncs env pgdir f addr n (fuel + 1) 0).run k =
      (if n ≠ (if mx < n then mx else n) then throw (.panic "short filewrite") else do
        let r ← filewriteFromSyncs env pgdir f addr n fuel n
        return (r.1, l :: r.2) : K (Int × List (List Nat))).run k' := by
    rw [filewriteFromSyncs, if_pos hpos]
    dsimp only
    rw [beginOp, bind_ok (modify_run _ _), bind_ok (get_run _)]
    dsimp only
    rw [bind_ok hlock', bind_ok (get_run _)]
    dsimp only
    rw [bind_ok hsource', bind_ok hwrite']
    dsimp only
    rw [hsz, bind_ok (modify_run _ _), bind_ok hunlock', endOp, bind_ok (modify_run _ _), hk', UInt64.sub_zero,
      UInt64.zero_add]
    rfl
  have hfile : k'.ftable f = {k.ftable f with off := (k.ftable f).off + n} := by
    rw [hk']
    exact update_self ..
  have hoff : (k'.ftable f).off.toNat = (k.ftable f).off.toNat + src.length := by
    rw [hfile, UInt64.toNat_add, hn]
    exact Nat.mod_eq_of_lt (by omega)
  have hvol : k'.vol = s3 := by rw [hk']
  refine ⟨l, k', hrun, hcard, ⟨⟨hoff, ?_⟩, ?_, ?_, ?_, by rw [hk']; rfl, by rw [hk']; rfl⟩⟩
  · rw [hvol]
    exact hfiles
  · rw [Kernel.Accepts, hoff, hvol, hfile]
    exact haccepts
  · rw [hvol, hfile]
    exact hno
  · rw [hfile]
    exact ⟨rfl, rfl⟩

/-- Nothing is written. -/
theorem Kernel.Accepts.nothing (h : k.Accepts env f N rest) : Advanced env f N [] rest k k := by
  refine ⟨⟨rfl, ?_⟩, h, rfl, ⟨rfl, rfl⟩, rfl, rfl⟩
  rw [splice, List.append_nil, List.length_nil, Nat.add_zero, List.take_append_drop,
    ← files_loaded h.intact.listed h.loaded (by rw [h.regular]; decide), update_eq_self]

/-- Two writes, one behind the other, are one. -/
theorem Advanced.trans {n : Nat} {a b : List UInt8} {k1 k' : Kernel} (h0 : k.Accepts env f N n)
    (h : Advanced env f N a (b.length + rest) k k1) (h' : Advanced env f N b rest k1 k') :
    Advanced env f N (a ++ b) rest k k' := by
  have hlen : (k.vol.content env.sb (k.vol.heap (k.ftable f).ip).inodeNo).length =
      (k.vol.heap (k.ftable f).ip).entry.numBytes.toNat := by
    rw [Volume.content, elements_length, h0.intact.listed.entryOf h0.loaded]
  have hcontent : k1.vol.content env.sb (k.vol.heap (k.ftable f).ip).inodeNo =
      splice (k.vol.content env.sb (k.vol.heap (k.ftable f).ip).inodeNo) (k.ftable f).off.toNat a := by
    have hfile := files_loaded h.accepts.intact.listed h.accepts.loaded (by rw [h.accepts.regular]; decide)
    rw [h.inodeNo, h.files, update_self] at hfile
    exact (Option.some.inj hfile).symm
  refine ⟨⟨?_, ?_⟩, h'.accepts, h'.inodeNo.trans h.inodeNo, ⟨h'.file.1.trans h.file.1, h'.file.2.trans h.file.2⟩,
    h'.mem.trans h.mem, h'.procs.trans h.procs⟩
  · rw [h'.off, h.off, List.length_append, Nat.add_assoc]
  · rw [h'.files, h.inodeNo, h.files, hcontent, h.off, update_idem, splice_splice (hlen ▸ h0.start)]

section
variable (h : k.Accepts env f N (src.length + rest)) (hwritable : (k.ftable f).writable = true)
  (htype : (k.ftable f).type = .inode) (hbuf : (loadUser pgdir n.toNat addr).run k.mem = .ok src k.mem)
include h hwritable htype hbuf

/-- A write of at most `mx` bytes is no operation or one. -/
theorem Kernel.Accepts.filewriteSyncs_run (hmx : n ≤ mx) :
    ∃ ops k', (filewriteSyncs env pgdir f addr n).run k = .ok ((n.toNat : Int), ops) k' ∧
      Advanced env f N src rest k k' ∧ (OneBitmap env.sb → ∀ op ∈ ops, op.toFinset.card ≤ N.card + 2) := by
  have hlen := loadUser_length hbuf
  have hle : n.toNat ≤ 1536 := UInt64.le_iff_toNat_le.mp hmx
  have hsize := isize_of_lt (by omega : n.toNat < 2 ^ 63)
  rw [filewriteSyncs, bind_ok (get_run k)]
  dsimp only
  rw [hwritable, htype, Bool.not_true, if_neg Bool.false_ne_true, if_pos rfl]
  by_cases hpos : 0 < n
  · obtain ⟨l, k', hround, hcard, hadvanced⟩ := h.round hlen hpos hbuf n.toNat
    refine ⟨[l], k', ?_, hadvanced, fun hone op hop => ?_⟩
    · obtain ⟨fuel, hfuel⟩ : ∃ fuel, n.toNat = fuel + 1 :=
        Nat.exists_eq_succ_of_ne_zero (Nat.pos_iff_ne_zero.mp (UInt64.lt_iff_toNat_lt.mp hpos))
      rw [hround, if_neg (UInt64.not_lt.mpr hmx), if_neg (fun hne => hne rfl), hfuel, filewriteFromSyncs,
        if_neg (UInt64.lt_irrefl n), if_pos rfl, hsize, hfuel]
      rfl
    · rw [List.mem_singleton.mp hop]
      exact hcard hone
  · have hzero : n.toNat = 0 := by
      by_contra hne
      exact hpos (UInt64.lt_iff_toNat_lt.mpr (Nat.pos_of_ne_zero hne))
    obtain rfl : src = [] := List.eq_nil_of_length_eq_zero (hlen.trans hzero)
    rw [List.length_nil, Nat.zero_add] at h
    refine ⟨[], k, ?_, h.nothing, fun _ op hop => absurd hop List.not_mem_nil⟩
    have hn : 0 = n := UInt64.toNat_inj.mp (show (0 : UInt64).toNat = _ from hzero.symm)
    rw [filewriteFromSyncs, if_neg hpos, if_pos hn, hsize]
    rfl

/-- A longer write ends in a panic, however much room there is: the first operation writes all
the bytes, and its count is compared with `mx`. -/
theorem Kernel.Accepts.filewriteSyncs_long (hmx : mx < n) :
    ∃ k', (filewriteSyncs env pgdir f addr n).run k = .error (.panic "short filewrite") k' := by
  obtain ⟨l, k', hround, -⟩ := h.round (loadUser_length hbuf) (UInt64.lt_of_le_of_lt (by decide) hmx) hbuf n.toNat
  refine ⟨k', ?_⟩
  rw [filewriteSyncs, bind_ok (get_run k)]
  dsimp only
  rw [hwritable, htype, Bool.not_true, if_neg Bool.false_ne_true, if_pos rfl, hround, if_pos hmx,
    if_pos (UInt64.ne_of_lt hmx).symm]
  rfl

end

end Round

/-- **A write of at most `mx` bytes writes what it is asked to**, and no longer one does. It
returns `n`, moves the offset by `n`, replaces the bytes at the offset by those of the buffer,
and the one operation it opens syncs no more blocks than an operation may. -/
theorem filewrite_writes (env : Env) (k : Kernel) (pgdir : Nat) (f : Fin nfile) (addr n : UInt64) (src : List UInt8)
    (hwritable : (k.ftable f).writable = true) (htype : (k.ftable f).type = .inode) (h : CanWrite env k f n.toNat)
    (hbuf : (loadUser pgdir n.toNat addr).run k.mem = .ok src k.mem) :
    (∃ ops k', (filewriteSyncs env pgdir f addr n).run k = .ok ((n.toNat : Int), ops) k' ∧
      (filewrite env pgdir f addr n).run k = .ok (n.toNat : Int) k' ∧ Wrote env f src k k' ∧
      ∀ op ∈ ops, op.toFinset.card ≤ opMaxNumBlocks) ↔ n ≤ mx := by
  have haccepts : k.Accepts env f (slotsFor (k.ftable f).off.toNat n.toNat) (src.length + 0) := by
    rw [loadUser_length hbuf]
    exact h.accepts
  refine ⟨fun ⟨ops, k', hrun, _⟩ => ?_, fun hmx => ?_⟩
  · refine UInt64.not_lt.mp fun hlt => ?_
    obtain ⟨k'', hpanic⟩ := haccepts.filewriteSyncs_long hwritable htype hbuf hlt
    rw [hpanic] at hrun
    cases hrun
  have hle : n.toNat ≤ 1536 := UInt64.le_iff_toNat_le.mp hmx
  obtain ⟨ops, k', hrun, hadvanced, hops⟩ := haccepts.filewriteSyncs_run hwritable htype hbuf hmx
  refine ⟨ops, k', hrun, filewriteSyncs_erases.of_ok hrun, hadvanced.toWrote, fun op hop => ?_⟩
  have hslots : (slotsFor (k.ftable f).off.toNat n.toNat).card ≤ 5 := card_slotsFor (show n.toNat ≤ 3 * 512 by omega)
  exact (hops h.bits op hop).trans (by show _ ≤ 10; omega)

/-! ### A disk with room for a file -/

/-- Inode 1 is held and is an empty regular file; no data block is in use. -/
def emptyFile : Volume where
  blocks := update (update (fun _ => zeroBlock)
    4 (setEntry zeroBlock 1 {InodeEntry.zero with type := inodeRegular, numLinks := 1}))
    5 fun i => if i = 0 then 127 else 0
  heap := fun _ => ⟨false, 1, 1, true, {InodeEntry.zero with type := inodeRegular, numLinks := 1}⟩
  head := [1]
  allocs := 1

theorem emptyFile_one :
    OneInode roomyDisk emptyFile {InodeEntry.zero with type := inodeRegular, numLinks := 1} 0 where
  allocated _ := allocated_three rfl (show inodeRegular ≠ inodeInvalid by decide) rfl rfl
  entry := rfl
  addrs := by decide
  indirect := rfl
  size := by decide

theorem emptyFile_intact : Intact roomyDisk emptyFile := by
  have hused : ∀ b < 12, emptyFile.isUsed roomyDisk b = decide (b < 7) := by decide +kernel
  refine ⟨emptyFile_one.consistent roomyDisk_layout (fun h => absurd rfl h) (by decide) (fun b hb => ?below)
    (fun b hb hge hlt => ?exact), emptyFile_one.listed rfl rfl rfl (by decide), ?coherent⟩
  case below =>
    have hb' : b < 7 := hb
    exact (hused b (by omega)).trans (decide_eq_true hb')
  case exact =>
    have hb' : decide (b < 7) = true := (hused b hlt).symm.trans hb
    exact absurd (of_decide_eq_true hb') (not_lt.mpr hge)
  case coherent =>
    intro p _
    have hblock : emptyFile.blocks 4 =
        setEntry zeroBlock 1 {InodeEntry.zero with type := inodeRegular, numLinks := 1} := rfl
    show getEntry (emptyFile.blocks (toBlockNo roomyDisk 1)) 1 = _
    rw [show toBlockNo roomyDisk 1 = 4 by decide, hblock, getEntry_setEntry, if_pos rfl]
    rfl

/-- A kernel that has the file open for writing, and a page of zeros mapped at address 0. -/
def writer : Kernel where
  vol := emptyFile
  mem := pageWith fun _ => 0
  procs := Containers.zero
  ftable := fun _ => ⟨.inode, 1, false, true, 1, 0⟩
  outstanding := 0

theorem writer_canWrite {n : Nat} (hmax : n ≤ inodeMaxBytes) (hn : (slotsFor 0 n).card ≤ 5) :
    CanWrite {smallEnv with sb := roomyDisk} writer 0 n := by
  constructor
  case layout => exact roomyDisk_layout
  case bits => decide
  case intact => exact emptyFile_intact
  case loaded => exact ⟨⟨List.mem_singleton.mpr rfl, Int.zero_lt_one⟩, rfl⟩
  case unlocked => rfl
  case regular => rfl
  case off => exact Nat.zero_le _
  case max =>
    show 0 + n ≤ inodeMaxBytes
    omega
  case room =>
    have hfree : (emptyFile.free roomyDisk).card = 5 := by decide +kernel
    exact (Finset.card_filter_le _ _).trans (hn.trans hfree.ge)

theorem writer_buffer {n : Nat} (hn : n ≤ 4096) :
    ∃ src, (loadUser 0x1000 n 0).run writer.mem = .ok src writer.mem := by
  refine loadUser_mapped (by show 0 + n < 2 ^ 64; omega) fun x _ hx => ?_
  have hx' : x < 0 + n := hx
  rw [Nat.div_eq_of_lt (by show x < 4096; omega)]
  exact ⟨_, rfl, by decide⟩

/-- Two blocks and a byte are written to the empty file. -/
theorem filewrite_writes_three_blocks : ∃ src ops k',
    (loadUser 0x1000 1025 0).run writer.mem = .ok src writer.mem ∧
    (filewriteSyncs {smallEnv with sb := roomyDisk} 0x1000 0 0 1025).run writer = .ok (1025, ops) k' ∧
    Wrote {smallEnv with sb := roomyDisk} 0 src writer k' ∧ ∀ op ∈ ops, op.toFinset.card ≤ opMaxNumBlocks := by
  obtain ⟨src, hsrc⟩ := writer_buffer (show 1025 ≤ 4096 by decide)
  obtain ⟨ops, k', hrun, -, hwrote, hops⟩ := (filewrite_writes {smallEnv with sb := roomyDisk} writer 0x1000 0 0 1025
    src rfl rfl (writer_canWrite (by decide) (card_slotsFor (by decide))) hsrc).mpr (by decide)
  exact ⟨src, ops, k', hsrc, hrun, hwrote, hops⟩

/-- A write of one byte more than `mx` ends in a panic. -/
theorem filewrite_short : (writer.ftable 0).writable = true ∧ (writer.ftable 0).type = .inode ∧
    CanWrite {smallEnv with sb := roomyDisk} writer 0 1537 ∧
    (∃ src, (loadUser 0x1000 1537 0).run writer.mem = .ok src writer.mem) ∧
    ∃ k', (filewrite {smallEnv with sb := roomyDisk} 0x1000 0 0 1537).run writer =
      .error (.panic "short filewrite") k' := by
  have hcan := writer_canWrite (show 1537 ≤ inodeMaxBytes by decide) (by decide +kernel)
  obtain ⟨src, hsrc⟩ := writer_buffer (show 1537 ≤ 4096 by decide)
  refine ⟨rfl, rfl, hcan, ⟨src, hsrc⟩, ?_⟩
  have hlen : src.length = 1537 := loadUser_length hsrc
  rw [← hlen] at hcan
  have haccepts : writer.Accepts {smallEnv with sb := roomyDisk} 0 _ (src.length + 0) := hcan.accepts
  obtain ⟨k', hpanic⟩ := haccepts.filewriteSyncs_long (n := 1537) rfl rfl hsrc (by decide)
  exact ⟨k', filewriteSyncs_erases.of_error hpanic⟩

end OS2021.Core
