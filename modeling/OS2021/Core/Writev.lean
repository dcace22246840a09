import OS2021.Core.Filewrite
import OS2021.Core.UserMemory

/-! Writing from several buffers (`sys_writev`, `core/sysfile.c`).

Each buffer is a `filewrite` of its own, and the results are added up. Buffers that have room
in one operation together are written as their concatenation would be. The results of writes
that are refused are added up as well, and `iovcnt` has eight bytes, of which `argint` stores
four. -/
namespace OS2021.Core
open Fs Lib

/-! ### `sys_writev` -/

/-- What the upper half of `iovcnt` holds. -/
def iovcntHigh (env : Env) : Nat := leNat 4 fun j => (env.locals 11).getD (4 + j) 0

/-- `iovcnt` after `argint` has stored `n` at its address. -/
def iovcntOf (env : Env) (n : Int32) : UInt64 := .ofNat (n.toUInt32.toNat + 2 ^ 32 * iovcntHigh env)

section Routines
variable (env : Env) (q : Proc) (f : Fin nfile)

/-- The loop of `sys_writev`, `n` buffers before its end. -/
def writevFrom : (n : Nat) → (p tot : UInt64) → K Int
  | 0, _, tot => return isize tot
  | n + 1, p, tot => do
    let iovBase ← onMem (loadWord q.pgdir.toNat p)
    let iovLen ← onMem (loadWord q.pgdir.toNat (p + 8))
    if inUser q iovBase iovLen then do
      let r ← filewrite env q.pgdir.toNat f iovBase iovLen
      writevFrom n (p + 16) (tot + .ofInt r)
    else return -1

/-- How many buffers `sys_writev` goes through until `p` is `iov + iovcnt`. -/
def writevCount (iov iovcnt : UInt64) : Nat :=
  if iov < iov + iovcnt * 16 then ((iov + iovcnt * 16 - iov) / 16).toNat else 0

end Routines

def sysWritev (env : Env) (p : ProcId) : K Int := do
  let q := (← get).proc p
  match argfd q 0, argint q 2 with
  | some (_, f), some n => do
    let iovcnt := iovcntOf env n
    match argptr q 1 (iovcnt * 16) with
    | some iov => writevFrom env q f (writevCount iov iovcnt) iov 0
    | none => return -1
  | _, _ => return -1

/-! ### Buffers -/

/-- The array at `iov` describes buffers with the given bytes, which lie in user space. -/
structure Described (m : Memory) (q : Proc) (iov : UInt64) (bufs : List (UInt64 × List UInt8)) : Prop where
  fits : iov.toNat + 16 * bufs.length ≤ usertop.toNat
  words : m.HasBytes q.pgdir.toNat iov.toNat (wordBytes (bufs.flatMap fun b => [b.1, .ofNat b.2.length]))
  buffers : ∀ b ∈ bufs, inUser q b.1 (.ofNat b.2.length) = true ∧ b.1.toNat + b.2.length ≤ usertop.toNat ∧
    m.HasBytes q.pgdir.toNat b.1.toNat b.2

/-- What the buffers hold together. -/
def gathered (bufs : List (UInt64 × List UInt8)) : List UInt8 := bufs.flatMap Prod.snd

variable {env : Env} {m : Memory} {k : Kernel} {q : Proc} {f : Fin nfile} {N : Finset Slot} {rest : Nat}
  {buf : UInt64 × List UInt8} {bufs : List (UInt64 × List UInt8)} {p tot : UInt64}

theorem ofInt_natCast (n : Nat) : UInt64.ofInt n = .ofNat n := by
  have hmod : ((n : Int) % 2 ^ 64).toNat = n % 2 ^ 64 := by omega
  rw [UInt64.ofInt, hmod]
  exact UInt64.ofNat_mod_size

namespace Described

/-- The two words of the first buffer. -/
theorem head (h : Described m q p (buf :: bufs)) :
    (loadWord q.pgdir.toNat p).run m = .ok buf.1 m ∧
      (loadWord q.pgdir.toNat (p + 8)).run m = .ok (.ofNat buf.2.length) m := by
  have hfits : p.toNat + 16 * (bufs.length + 1) ≤ 2 ^ 48 := h.fits
  have hnext : (p + 8).toNat = p.toNat + 8 := toNat_add_of_lt (by show p.toNat + 8 < 2 ^ 64; omega)
  have hrest := (hasBytes_wordBytes_cons.mp h.words).2
  rw [← hnext] at hrest
  exact ⟨loadWord_run (by omega) h.words, loadWord_run (by omega) hrest⟩

theorem tail (h : Described m q p (buf :: bufs)) : Described m q (p + 16) bufs := by
  have hfits : p.toNat + 16 * (bufs.length + 1) ≤ 2 ^ 48 := h.fits
  have hnext : (p + 16).toNat = p.toNat + 16 := toNat_add_of_lt (by show p.toNat + 16 < 2 ^ 64; omega)
  refine ⟨?_, ?_, fun b hb => h.buffers b (List.mem_cons_of_mem buf hb)⟩
  · rw [hnext]
    show p.toNat + 16 + 16 * bufs.length ≤ 2 ^ 48
    omega
  · rw [hnext]
    exact (hasBytes_wordBytes_cons.mp (hasBytes_wordBytes_cons.mp h.words).2).2

/-- A round of the loop. -/
theorem round (h : Described k.mem q p (buf :: bufs)) (n : Nat) :
    (writevFrom env q f (n + 1) p tot).run k = (do
      let r ← filewrite env q.pgdir.toNat f buf.1 (.ofNat buf.2.length)
      writevFrom env q f n (p + 16) (tot + .ofInt r) : K Int).run k := by
  obtain ⟨hbase, hlen⟩ := h.head
  rw [writevFrom, bind_ok (onMem_run hbase), bind_ok (onMem_run hlen),
    if_pos (h.buffers buf List.mem_cons_self).1]

end Described

/-- `filewrite` from a buffer of the process. -/
theorem filewrite_buffer {pgdir : Nat} {addr : UInt64} {src : List UInt8} (h : k.Accepts env f N (src.length + rest))
    (hwritable : (k.ftable f).writable = true) (htype : (k.ftable f).type = .inode)
    (hfits : addr.toNat + src.length ≤ usertop.toNat) (hbytes : k.mem.HasBytes pgdir addr.toNat src)
    (hmx : src.length ≤ mx.toNat) :
    ∃ k', (filewrite env pgdir f addr (.ofNat src.length)).run k = .ok (src.length : Int) k' ∧
      Advanced env f N src rest k k' := by
  have hfits' : addr.toNat + src.length ≤ 2 ^ 48 := hfits
  have hlen : (UInt64.ofNat src.length).toNat = src.length := Nat.mod_eq_of_lt (by omega)
  have hbuf : (loadUser pgdir (UInt64.ofNat src.length).toNat addr).run k.mem = .ok src k.mem := by
    rw [hlen]
    exact loadUser_run (by omega) hbytes
  obtain ⟨ops, k', hrun, hadvanced, -⟩ := h.filewriteSyncs_run hwritable htype hbuf
    (UInt64.le_iff_toNat_le.mpr (by rw [hlen]; exact hmx))
  rw [hlen] at hrun
  exact ⟨k', filewriteSyncs_erases.of_ok hrun, hadvanced⟩

/-! ### Whole calls -/

/-- Buffers that are written one by one are written as one. -/
theorem writevFrom_run (tot : UInt64) (hd : Described k.mem q p bufs) (hwritable : (k.ftable f).writable = true)
    (htype : (k.ftable f).type = .inode) (haccepts : k.Accepts env f N ((gathered bufs).length + rest))
    (hmx : tot.toNat + (gathered bufs).length ≤ mx.toNat) :
    ∃ k', (writevFrom env q f bufs.length p tot).run k = .ok ((tot.toNat + (gathered bufs).length : Nat) : Int) k' ∧
      Advanced env f N (gathered bufs) rest k k' := by
  induction bufs generalizing k p tot with
  | nil =>
    have htot : tot.toNat ≤ 1536 := hmx
    rw [gathered, List.flatMap_nil, List.length_nil, Nat.zero_add] at haccepts
    refine ⟨k, ?_, haccepts.nothing⟩
    rw [List.length_nil, writevFrom, pure_run, isize_of_lt (by omega)]
    rfl
  | cons buf bufs ih =>
    have hgather : gathered (buf :: bufs) = buf.2 ++ gathered bufs := List.flatMap_cons
    have hmx' : tot.toNat + (buf.2.length + (gathered bufs).length) ≤ 1536 := by
      rw [← List.length_append, ← hgather]
      exact hmx
    rw [hgather, List.length_append, Nat.add_assoc] at haccepts
    obtain ⟨-, hfits, hbytes⟩ := hd.buffers buf List.mem_cons_self
    obtain ⟨k1, hrun, hadvanced⟩ := filewrite_buffer haccepts hwritable htype hfits hbytes
      (by show _ ≤ 1536; omega)
    have hd1 : Described k1.mem q (p + 16) bufs := by
      rw [hadvanced.mem]
      exact hd.tail
    have hsum : (tot + .ofNat buf.2.length).toNat = tot.toNat + buf.2.length := by
      have hlen : (UInt64.ofNat buf.2.length).toNat = buf.2.length := Nat.mod_eq_of_lt (by omega)
      rw [toNat_add_of_lt (by rw [hlen]; omega), hlen]
    obtain ⟨k', hrest, hadvanced'⟩ := ih (tot + .ofNat buf.2.length) hd1 (hadvanced.file.1.trans hwritable)
      (hadvanced.file.2.trans htype) hadvanced.accepts (by rw [hsum]; show _ ≤ 1536; omega)
    refine ⟨k', ?_, hgather ▸ hadvanced.trans haccepts hadvanced'⟩
    rw [List.length_cons, hd.round, bind_ok hrun, ofInt_natCast, hrest, hsum, hgather, List.length_append,
      Nat.add_assoc]

/-- Refused writes are counted. -/
theorem writevFrom_refused (hd : Described k.mem q p bufs) (hwritable : (k.ftable f).writable = false) :
    (writevFrom env q f bufs.length p tot).run k = .ok (isize (tot - .ofNat bufs.length)) k := by
  have hrefuse : ∀ addr n, (filewrite env q.pgdir.toNat f addr n).run k = .ok (-1) k := fun addr n => by
    rw [filewrite, bind_ok (get_run k)]
    dsimp only
    rw [hwritable]
    rfl
  induction bufs generalizing p tot with
  | nil =>
    show EStateM.Result.ok (isize tot) k = .ok (isize (tot - 0)) k
    rw [UInt64.sub_zero]
  | cons buf bufs ih =>
    have hcount : tot + .ofInt (-1) - .ofNat bufs.length = tot - .ofNat (bufs.length + 1) := by
      rw [UInt64.ofInt_neg_one, UInt64.ofNat_add, UInt64.sub_eq_add_neg, UInt64.sub_eq_add_neg tot, UInt64.neg_add,
        UInt64.add_assoc, UInt64.sub_eq_add_neg, UInt64.add_comm (-1)]
      rfl
    rw [List.length_cons, hd.round, bind_ok (hrefuse ..), ih hd.tail, hcount]

/-- Of the upper half of `iovcnt` the size of the array keeps 28 bits. -/
theorem iovcntOf_eq {n : Int32} {cnt : Nat} (hn : n.toInt = cnt) (hhigh : iovcntHigh env % 2 ^ 28 = 0) :
    iovcntOf env n * 16 = .ofNat (16 * cnt) := by
  have hcases :
      n.toInt = if 2 * n.toUInt32.toNat < 2 ^ 32 then (n.toUInt32.toNat : Int) else n.toUInt32.toNat - 2 ^ 32 :=
    BitVec.toInt_eq_toNat_cond n.toBitVec
  have hlt : n.toUInt32.toNat < 2 ^ 32 := n.toUInt32.toNat_lt
  have heq : n.toUInt32.toNat = cnt := by
    rw [hn] at hcases
    split at hcases
    · omega
    · omega
  apply UInt64.toNat_inj.mp
  rw [iovcntOf, heq, UInt64.toNat_mul, UInt64.toNat_ofNat', UInt64.toNat_ofNat']
  show (cnt + 2 ^ 32 * iovcntHigh env) % 2 ^ 64 * 16 % 2 ^ 64 = _
  omega

theorem writevCount_eq {iov iovcnt : UInt64} {cnt : Nat} (hcnt : iovcnt * 16 = .ofNat (16 * cnt))
    (h : iov.toNat + 16 * cnt < 2 ^ 64) : writevCount iov iovcnt = cnt := by
  have hsize : (UInt64.ofNat (16 * cnt)).toNat = 16 * cnt := Nat.mod_eq_of_lt (by omega)
  have hend : (iov + .ofNat (16 * cnt)).toNat = iov.toNat + 16 * cnt := by
    rw [toNat_add_of_lt (by rw [hsize]; exact h), hsize]
  rw [writevCount, hcnt]
  by_cases hpos : 0 < cnt
  · have hlt : iov < iov + .ofNat (16 * cnt) := UInt64.lt_iff_toNat_lt.mpr (by omega)
    have hsub : (iov + .ofNat (16 * cnt) - iov).toNat = 16 * cnt := by
      rw [UInt64.toNat_sub_of_le _ _ (UInt64.le_of_lt hlt), hend]
      omega
    rw [if_pos hlt, UInt64.toNat_div, hsub]
    show 16 * cnt / 16 = cnt
    omega
  · have hnot : ¬ iov < iov + .ofNat (16 * cnt) := fun hlt => by
      have := UInt64.lt_iff_toNat_lt.mp hlt
      omega
    rw [if_neg hnot]
    omega

/-- A call that has proper arguments is its loop. -/
theorem sysWritev_loop {pid : ProcId} {fd : Fin nofile} (hfd : argfd (k.proc pid) 0 = some (fd, f))
    (hd : Described k.mem (k.proc pid) ((k.proc pid).tf.x 1) bufs)
    (harea : inUser (k.proc pid) ((k.proc pid).tf.x 1) (.ofNat (16 * bufs.length)) = true)
    (hcnt : (toInt ((k.proc pid).tf.x 2)).toInt = bufs.length) (hhigh : iovcntHigh env % 2 ^ 28 = 0) :
    (sysWritev env pid).run k =
      (writevFrom env (k.proc pid) f bufs.length ((k.proc pid).tf.x 1) 0).run k := by
  have hfits : ((k.proc pid).tf.x 1).toNat + 16 * bufs.length ≤ 2 ^ 48 := hd.fits
  have hint : argint (k.proc pid) 2 = some (toInt ((k.proc pid).tf.x 2)) := rfl
  have hsize := iovcntOf_eq hcnt hhigh
  have hptr : argptr (k.proc pid) 1 (iovcntOf env (toInt ((k.proc pid).tf.x 2)) * 16) =
      some ((k.proc pid).tf.x 1) := by
    rw [hsize]
    exact if_pos harea
  rw [sysWritev, bind_ok (get_run k)]
  dsimp only
  rw [hfd, hint]
  dsimp only
  rw [hptr]
  dsimp only
  rw [writevCount_eq hsize (by omega)]

/-- What is not an array in user space is refused. -/
theorem sysWritev_outside {pid : ProcId} {fd : Fin nofile} (hfd : argfd (k.proc pid) 0 = some (fd, f))
    (hout : inUser (k.proc pid) ((k.proc pid).tf.x 1) (iovcntOf env (toInt ((k.proc pid).tf.x 2)) * 16) = false) :
    (sysWritev env pid).run k = .ok (-1) k := by
  have hint : argint (k.proc pid) 2 = some (toInt ((k.proc pid).tf.x 2)) := rfl
  have hptr : argptr (k.proc pid) 1 (iovcntOf env (toInt ((k.proc pid).tf.x 2)) * 16) = none :=
    if_neg (Bool.eq_false_iff.mp hout)
  rw [sysWritev, bind_ok (get_run k)]
  dsimp only
  rw [hfd, hint]
  dsimp only
  rw [hptr]
  rfl

/-- `n` refusals are -1 for `n = 1` only. -/
theorem isize_refusals {n : Nat} (hn : n < 2 ^ 31) : isize (0 - .ofNat n) = -1 ↔ n = 1 := by
  have hnat : (0 - UInt64.ofNat n).toBitVec.toNat = (2 ^ 64 - n) % 2 ^ 64 := by
    show (0 - UInt64.ofNat n).toNat = _
    rw [UInt64.toNat_sub, UInt64.toNat_ofNat']
    show (2 ^ 64 - n % 2 ^ 64 + 0) % 2 ^ 64 = _
    omega
  show (0 - UInt64.ofNat n).toBitVec.toInt = -1 ↔ n = 1
  rw [BitVec.toInt_eq_toNat_cond, hnat]
  split <;> omega

/-- **`sys_writev` is one write**: a file that is not writable is refused; otherwise the call
returns the sum of the lengths, and the files and the offset are what one `filewrite` of the
concatenation leaves, wherever that is in memory. When the upper half of `iovcnt` does not
change the size of the array this holds exactly if the file is writable or there is exactly
one buffer; when it does and the array is refused, exactly if the file is not writable. -/
theorem sysWritev_writes (env : Env) (pid : ProcId) (k : Kernel) (fd : Fin nofile) (f : Fin nfile)
    (bufs : List (UInt64 × List UInt8)) (hfd : argfd (k.proc pid) 0 = some (fd, f))
    (htype : (k.ftable f).type = .inode) (hd : Described k.mem (k.proc pid) ((k.proc pid).tf.x 1) bufs)
    (harea : inUser (k.proc pid) ((k.proc pid).tf.x 1) (.ofNat (16 * bufs.length)) = true)
    (hcnt : (toInt ((k.proc pid).tf.x 2)).toInt = bufs.length) (hmx : (gathered bufs).length ≤ mx.toNat)
    (haccepts : k.Accepts env f (slotsFor (k.ftable f).off.toNat (gathered bufs).length) (gathered bufs).length)
    (hseen : iovcntHigh env % 2 ^ 28 = 0 ∨
      inUser (k.proc pid) ((k.proc pid).tf.x 1) (iovcntOf env (toInt ((k.proc pid).tf.x 2)) * 16) = false) :
    (((k.ftable f).writable = false → (sysWritev env pid).run k = .ok (-1) k) ∧
      ((k.ftable f).writable = true → ∃ k', (sysWritev env pid).run k = .ok ((gathered bufs).length : Int) k' ∧
        ∀ (mem : Memory) (pgdir : Nat) (addr : UInt64), addr.toNat + (gathered bufs).length ≤ usertop.toNat →
          mem.HasBytes pgdir addr.toNat (gathered bufs) →
          ∃ k1, (filewrite env pgdir f addr (.ofNat (gathered bufs).length)).run {k with mem} =
              .ok ((gathered bufs).length : Int) k1 ∧
            k1.vol.files env.sb = k'.vol.files env.sb ∧ (k1.ftable f).off = (k'.ftable f).off)) ↔
    if iovcntHigh env % 2 ^ 28 = 0 then (k.ftable f).writable = true ∨ bufs.length = 1
    else (k.ftable f).writable = false := by
  by_cases hhigh : iovcntHigh env % 2 ^ 28 = 0
  · rw [if_pos hhigh, sysWritev_loop hfd hd harea hcnt hhigh]
    cases hwritable : (k.ftable f).writable with
    | false =>
      have hlt : bufs.length < 2 ^ 31 := by
        have hbound := (toInt ((k.proc pid).tf.x 2)).toInt_lt
        omega
      rw [writevFrom_refused hd hwritable]
      refine ⟨fun h => Or.inr ?_, fun h => ⟨fun _ => ?_, nofun⟩⟩
      · exact (isize_refusals hlt).mp (EStateM.Result.ok.inj (h.1 rfl)).1
      · rw [(isize_refusals hlt).mpr (h.resolve_left Bool.false_ne_true)]
    | true =>
      have haccepts0 : k.Accepts env f _ ((gathered bufs).length + 0) := haccepts
      obtain ⟨k', hrun, hadvanced⟩ := writevFrom_run 0 hd hwritable htype haccepts0
        (by rw [UInt64.toNat_zero, Nat.zero_add]; exact hmx)
      rw [UInt64.toNat_zero, Nat.zero_add] at hrun
      refine iff_of_true ⟨nofun, fun _ => ⟨k', hrun, fun mem pgdir addr hfits hbytes => ?_⟩⟩ (Or.inl rfl)
      obtain ⟨k1, hrun1, hadvanced1⟩ := filewrite_buffer (k := {k with mem}) haccepts0 hwritable htype hfits
        hbytes hmx
      refine ⟨k1, hrun1, hadvanced1.files.trans hadvanced.files.symm, UInt64.toNat_inj.mp ?_⟩
      rw [hadvanced1.off, hadvanced.off]
  · rw [if_neg hhigh, sysWritev_outside hfd (hseen.resolve_left hhigh)]
    cases (k.ftable f).writable with
    | false => exact iff_of_true ⟨fun _ => rfl, nofun⟩ rfl
    | true =>
      refine iff_of_false (fun h => ?_) nofun
      obtain ⟨k', hrun, -⟩ := h.2 rfl
      have hneg : (-1 : Int) = (gathered bufs).length := (EStateM.Result.ok.inj hrun).1
      omega

/-! ### A process that writes from three buffers -/

/-- A page with `"ab"` at 0x800, and at 16 an array for its first byte, nothing, and both bytes. -/
def iovPage : Memory := pageWith fun i =>
  if i = 256 then 0x6261 else [0, 0, 0x800, 1, 0x800, 0, 0x800, 2].getD i 0

def threeBuffers : List (UInt64 × List UInt8) := [(0x800, [97]), (0x800, []), (0x800, [97, 98])]

/-- It has an empty file open. -/
def gatherer (writable : Bool) : Kernel := {writer with
  mem := iovPage
  procs := Containers.zero.setProc (0, 0) fun q => {q with
    sz := 4096, pgdir := 0x1000, ofile := fun fd => if fd = 0 then some 0 else none
    tf := ⟨fun i => if i = 1 then 16 else if i = 2 then 3 else 0, 0, 0⟩}
  ftable := fun _ => ⟨.inode, 1, false, writable, 1, 0⟩}

theorem gatherer_described : Described iovPage ((gatherer true).proc (0, 0)) 16 threeBuffers := by
  refine ⟨by decide, ?_, ?_⟩
  · show iovPage.HasBytes 0x1000 16 _
    decide +kernel
  · show ∀ b ∈ threeBuffers, inUser ((gatherer true).proc (0, 0)) b.1 (.ofNat b.2.length) = true ∧
      b.1.toNat + b.2.length ≤ usertop.toNat ∧ iovPage.HasBytes 0x1000 b.1.toNat b.2
    decide +kernel

theorem gatherer_accepts (writable : Bool) :
    (gatherer writable).Accepts {smallEnv with sb := roomyDisk} 0 (slotsFor 0 3) 3 :=
  (writer_canWrite (n := 3) (by decide) (card_slotsFor (by decide))).accepts

/-- Three bytes are written. -/
theorem sysWritev_writes_three : ∃ k',
    (sysWritev {smallEnv with sb := roomyDisk} (0, 0)).run (gatherer true) = .ok 3 k' ∧
    ∃ k1, (filewrite {smallEnv with sb := roomyDisk} 0x1000 0 0x800 3).run
        {gatherer true with mem := pageWith fun i => if i = 256 then 0x626161 else 0} = .ok 3 k1 ∧
      k1.vol.files roomyDisk = k'.vol.files roomyDisk ∧ (k1.ftable 0).off = (k'.ftable 0).off := by
  obtain ⟨k', hrun, hsame⟩ := ((sysWritev_writes {smallEnv with sb := roomyDisk} (0, 0) (gatherer true) 0 0
    threeBuffers rfl rfl gatherer_described (by decide) (by decide) (by decide) (gatherer_accepts true)
    (Or.inl rfl)).mpr (Or.inl rfl)).2 rfl
  have hbytes : (pageWith fun i => if i = 256 then 0x626161 else 0).HasBytes 0x1000 0x800 [97, 97, 98] := by
    decide +kernel
  obtain ⟨k1, hrun1, hfiles, hoff⟩ := hsame _ 0x1000 0x800 (by decide) hbytes
  exact ⟨k', hrun, k1, hrun1, hfiles, hoff⟩

/-- The file is not writable, and the call returns -3: three refusals. -/
theorem sysWritev_adds_refusals : argfd ((gatherer false).proc (0, 0)) 0 = some (0, 0) ∧
    Described (gatherer false).mem ((gatherer false).proc (0, 0)) 16 threeBuffers ∧
    (gatherer false).Accepts {smallEnv with sb := roomyDisk} 0 (slotsFor 0 3) 3 ∧
    ((gatherer false).ftable 0).writable = false ∧
    (sysWritev {smallEnv with sb := roomyDisk} (0, 0)).run (gatherer false) = .ok (-3) (gatherer false) := by
  have hd : Described (gatherer false).mem ((gatherer false).proc (0, 0)) 16 threeBuffers := gatherer_described
  have hfd : argfd ((gatherer false).proc (0, 0)) 0 = some (0, 0) := rfl
  refine ⟨hfd, hd, gatherer_accepts false, rfl, ?_⟩
  rw [sysWritev_loop hfd hd (by decide) (by decide) rfl]
  exact writevFrom_refused hd rfl

end OS2021.Core
