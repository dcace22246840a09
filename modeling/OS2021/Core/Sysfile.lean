import OS2021.Core.Kernel

/-! Open files (`fs/file.c`) and the system calls on them (`core/sysfile.c`). -/
namespace OS2021.Core
open Fs Lib

/-! ### The file table -/

/-- The first entry that is free. -/
def filealloc : K (Option (Fin nfile)) := do
  let k ← get
  match (List.finRange nfile).find? fun i => (k.ftable i).ref = 0 with
  | none => return none
  | some f => do
    set (k.setFile f fun g => {g with ref := 1})
    return some f

def filedup (f : Fin nfile) : K (Fin nfile) := do
  let k ← get
  if (k.ftable f).ref < 1 then throw (.panic "up a ref0 file")
  else do
    set (k.setFile f fun g => {g with ref := g.ref + 1})
    return f

def fileclose (sb : SuperBlock) (f : Fin nfile) : K Unit := do
  let k ← get
  let ff := k.ftable f
  if ff.ref < 1 then throw (.panic "close a ref0 file")
  else if 0 < ff.ref - 1 then set (k.setFile f fun g => {g with ref := g.ref - 1})
  else do
    set (k.setFile f fun g => {g with ref := 0, type := .none})
    if ff.type = .inode then do
      beginOp
      onVol (inodePut sb ff.ip)
      endOp
    else pure ()

/-- `usize` to `isize` -/
def isize (n : UInt64) : Int := n.toInt64.toInt

/-- `fileread` by a process whose page table is `pgdir`. -/
def fileread (env : Env) (pgdir : Nat) (f : Fin nfile) (addr n : UInt64) : K Int := do
  let ff := (← get).ftable f
  if !ff.readable then return -1
  else if ff.type = .inode then do
    onVol (inodeLock ff.ip)
    let r ← onVol (inodeRead env.sb env.console ff.ip ff.off.toNat n.toNat)
    onMem (storeUser pgdir r.2 addr)
    modify (·.setFile f fun g => {g with off := g.off + .ofNat r.1})
    onVol (inodeUnlock ff.ip)
    return isize (.ofNat r.1)
  else throw (.panic "not inode")

/-- The most that one operation is to write. -/
abbrev mx : UInt64 := .ofNat ((opMaxNumBlocks - 1 - 1 - 2) / 2 * blockSize)

/-- The bytes at `addr` that a write of `n` bytes uses. The assertions of `inode_write`
stop one of more bytes than a file can have, and `console_write` takes none if `n` is negative. -/
def writeSource (pgdir : Nat) (device : Bool) (addr n : UInt64) : MemM (List UInt8) :=
  if n.toNat ≤ inodeMaxBytes ∨ device ∧ 0 < isize n then loadUser pgdir n.toNat addr
  else return List.replicate n.toNat 0

/-- The loop of `filewrite`; every round moves `i` on. It writes all `n` bytes in each round. -/
def filewriteFrom (env : Env) (pgdir : Nat) (f : Fin nfile) (addr n : UInt64) : Nat → UInt64 → K Int
  | 0, _ => throw .hang
  | fuel + 1, i =>
    if i < n then do
      let n1 := if mx < n - i then mx else n - i
      beginOp
      let ff := (← get).ftable f
      onVol (inodeLock ff.ip)
      let device := ((← get).vol.heap ff.ip).entry.type = inodeDevice
      let src ← onMem (writeSource pgdir device (addr + i) n)
      let sz ← onVol (inodeWrite env.sb ff.ip src ff.off.toNat)
      modify (·.setFile f fun g => {g with off := g.off + .ofNat sz})
      onVol (inodeUnlock ff.ip)
      endOp
      if .ofNat sz ≠ n1 then throw (.panic "short filewrite")
      else filewriteFrom env pgdir f addr n fuel (i + .ofNat sz)
    else return if i = n then isize n else -1

def filewrite (env : Env) (pgdir : Nat) (f : Fin nfile) (addr n : UInt64) : K Int := do
  let ff := (← get).ftable f
  if !ff.writable then return -1
  else if ff.type = .inode then filewriteFrom env pgdir f addr n (n.toNat + 1) 0
  else throw (.panic "not inode")

/-! ### Descriptors -/

def argfd (p : Proc) (n : Nat) : Option (Fin nofile × Fin nfile) :=
  (argint p n).bind fun fd =>
    if h : 0 ≤ fd.toInt ∧ fd.toInt < nofile then
      (p.ofile ⟨fd.toInt.toNat, by omega⟩).map fun f => (⟨fd.toInt.toNat, by omega⟩, f)
    else none

/-- The first descriptor that is free. -/
def fdalloc (p : ProcId) (f : Fin nfile) : K (Option (Fin nofile)) := do
  let k ← get
  match (List.finRange nofile).find? fun i => ((k.proc p).ofile i).isNone with
  | none => return none
  | some fd => do
    set (k.setSlot p fd (some f))
    return some fd

def sysDup (p : ProcId) : K Int := do
  match argfd ((← get).proc p) 0 with
  | none => return -1
  | some (_, f) =>
    match ← fdalloc p f with
    | none => return -1
    | some fd => do
      let _ ← filedup f
      return fd

def sysClose (sb : SuperBlock) (p : ProcId) : K Int := do
  match argfd ((← get).proc p) 0 with
  | none => return -1
  | some (fd, f) => do
    modify (·.setSlot p fd none)
    fileclose sb f
    return 0

/-- The arguments of `sys_read` and `sys_write`: the file, the buffer and its length. -/
def rwArgs (p : Proc) : Option (Fin nfile × UInt64 × UInt64) := do
  let fd ← argfd p 0
  let n ← argint p 2
  let addr ← argptr p 1 (ofInt n)
  return (fd.2, addr, ofInt n)

def sysRead (env : Env) (p : ProcId) : K Int := do
  let q := (← get).proc p
  match rwArgs q with
  | none => return -1
  | some (f, addr, n) => fileread env q.pgdir.toNat f addr n

def sysWrite (env : Env) (p : ProcId) : K Int := do
  let q := (← get).proc p
  match rwArgs q with
  | none => return -1
  | some (f, addr, n) => filewrite env q.pgdir.toNat f addr n

/-! ### Opening a file -/

/-- A new directory gets `"."` and `".."`. `inodes.insert` returns a `usize`, which is not
less than 0, so its failure is not seen. -/
def createDots (env : Env) (type : InodeType) (dp ip : Ptr) : V Unit :=
  if type = inodeDirectory then do
    modify fun s => s.editEntry dp fun e => {e with numLinks := e.numLinks + 1}
    inodeSync env.sb dp true
    let s ← get
    let _ ← inodeInsert env.sb env.console (env.locals 1) (env.locals 2) ip [46] (s.heap ip).inodeNo
    let _ ← inodeInsert env.sb env.console (env.locals 3) (env.locals 4) ip [46, 46] (s.heap dp).inodeNo
    return ()
  else return ()

/-- `create`, with `cwd` for the current directory. Where it has found something else
than a regular file it calls `inodes.put(ip, ctx)`, whose arguments are the wrong way
round: what is at `ctx` is taken for an inode. -/
def create (env : Env) (cwd : Ptr) (path : List UInt8) (type : InodeType)
    (major minor : UInt16) : V (Option Ptr) := do
  let r ← nameiParent env.sb env.arena env.console env.stack cwd path (List.replicate fileNameMaxLength 0)
  match r.1 with
  | none => return none
  | some dp => do
    let nm := r.2
    inodeLock dp
    let found ← inodeLookup env.sb env.console (env.locals 0) dp nm
    if found.1 ≠ 0 then do
      let ip ← inodeGet env.sb env.arena found.1
      inodeUnlock dp
      inodePut env.sb dp
      inodeLock ip
      let s ← get
      if type = inodeRegular ∧ (s.heap ip).entry.type = inodeRegular then return some ip
      else do
        inodeUnlock ip
        throw .fault
    else do
      let inum ← inodeAlloc env.sb type
      let ip ← inodeGet env.sb env.arena inum
      inodeLock ip
      modify fun s => s.editEntry ip fun e => {e with major, minor, numLinks := 1}
      inodeSync env.sb ip true
      createDots env type dp ip
      let s ← get
      let _ ← inodeInsert env.sb env.console (env.locals 5) (env.locals 6) dp nm (s.heap ip).inodeNo
      inodeUnlock dp
      inodePut env.sb dp
      return some ip

/-- `AT_FDCWD` -/
abbrev atFdcwd : Int32 := -100

/-- `O_WRONLY` -/
abbrev oWronly : Int32 := 0o1

/-- `O_RDWR` -/
abbrev oRdwr : Int32 := 0o2

/-- `O_CREAT` -/
abbrev oCreat : Int32 := 0o100

/-- The current directory for a walk along `path`. A walk that starts in the directory of
a process that has none follows a null pointer. -/
def walkFrom (p : Proc) (path : List UInt8) : K Ptr :=
  match p.cwd with
  | some cwd => return cwd
  | none => if firstByte path = slash then return 0 else throw .fault

/-- The inode to open, with its lock. -/
def openInode (env : Env) (p : Proc) (path : List UInt8) (omode : Int32) : K (Option Ptr) := do
  let cwd ← walkFrom p path
  if omode &&& oCreat ≠ 0 then onVol (create env cwd path inodeRegular 0 0)
  else
    match ← onVol (namei env.sb env.arena env.console env.stack cwd path (env.locals 7)) with
    | none => return none
    | some ip => do
      onVol (inodeLock ip)
      return some ip

/-- An entry and a descriptor for the inode. -/
def openFile (env : Env) (p : ProcId) (ip : Ptr) (omode : Int32) : K Int := do
  let fail : K Int := do
    onVol (inodeUnlock ip)
    onVol (inodePut env.sb ip)
    endOp
    return -1
  match ← filealloc with
  | none => fail
  | some f =>
    match ← fdalloc p f with
    | none => do
      fileclose env.sb f
      fail
    | some fd => do
      onVol (inodeUnlock ip)
      endOp
      modify (·.setFile f fun g => {g with
        type := .inode, ip, off := 0, readable := omode &&& oWronly = 0,
        writable := omode &&& oWronly ≠ 0 ∨ omode &&& oRdwr ≠ 0})
      return fd

/-- The arguments of `sys_openat`. -/
def openArgs (p : Proc) : MemM (Option (List UInt8 × Int32)) := do
  match argint p 0 with
  | none => return none
  | some dirfd =>
    match ← argstr p 1, argint p 2 with
    | some path, some omode => return if dirfd = atFdcwd then some (path, omode) else none
    | _, _ => return none

def sysOpenat (env : Env) (p : ProcId) : K Int := do
  let q := (← get).proc p
  match ← onMem (openArgs q) with
  | none => return -1
  | some (path, omode) => do
    beginOp
    match ← openInode env q path omode with
    | none => do
      endOp
      return -1
    | some ip => openFile env p ip omode

/-! ### User buffers -/

/-- The `n` bytes from `s` on are in the program's memory or in its stack. -/
def InUser (p : Proc) (s n : Nat) : Prop :=
  p.base.toNat ≤ s ∧ s + n ≤ p.sz.toNat ∨ usertop.toNat - p.stksz.toNat ≤ s ∧ s + n ≤ usertop.toNat

/-- The end of the buffer is an address, or the address it wraps around to is refused as well. -/
def EndRefused (p : Proc) (s n : Nat) : Prop :=
  s + n < 2 ^ 64 ∨ (s < p.base.toNat ∨ p.sz.toNat + 2 ^ 64 < s + n) ∧
    (s < usertop.toNat - p.stksz.toNat ∨ usertop.toNat + 2 ^ 64 < s + n)

instance (p : Proc) (s n : Nat) : Decidable (InUser p s n) := inferInstanceAs (Decidable (_ ∧ _ ∨ _ ∧ _))

instance (p : Proc) (s n : Nat) : Decidable (EndRefused p s n) := inferInstanceAs (Decidable (_ ∨ (_ ∨ _) ∧ (_ ∨ _)))

variable {env : Env} {pid : ProcId} {p : Proc} {s n : UInt64} {k : Kernel}

theorem inUser_exact (hsz : p.sz ≤ usertop) (hstk : p.stksz ≤ usertop) :
    (inUser p s n = true ↔ InUser p s.toNat n.toNat) ↔ EndRefused p s.toNat n.toNat := by
  have hsum : (s + n).toNat = (s.toNat + n.toNat) % 2 ^ 64 := UInt64.toNat_add s n
  have htop : (usertop - p.stksz).toNat = usertop.toNat - p.stksz.toNat := UInt64.toNat_sub_of_le _ _ hstk
  have hsz' := UInt64.le_iff_toNat_le.mp hsz
  have huser : usertop.toNat = 2 ^ 48 := rfl
  have hs := s.toNat_lt
  have hn := n.toNat_lt
  simp only [inUser, InUser, EndRefused, Bool.or_eq_true, Bool.and_eq_true, decide_eq_true_eq, UInt64.le_iff_toNat_le,
    hsum, htop]
  by_cases hwrap : s.toNat + n.toNat < 2 ^ 64
  · rw [Nat.mod_eq_of_lt hwrap]
    exact iff_of_true Iff.rfl (Or.inl hwrap)
  -- over the integers the end is beyond user space, so the test has to fail
  · rw [Nat.mod_eq_sub_mod (not_lt.mp hwrap), Nat.mod_eq_of_lt (by omega)]
    omega

/-- A negative `int` becomes a length that no user memory has. -/
theorem ofInt_of_neg {a : Int32} (h : a < 0) : usertop.toNat < (ofInt a).toNat := by
  have hneg : a.toInt < 0 := Int32.lt_iff_toInt_lt.mp h
  have hle := a.le_toInt
  have hlen := a.toInt64.toBitVec.toInt_eq_toNat_cond
  rw [Int64.toInt_toBitVec, Int32.toInt_toInt64] at hlen
  have htop : usertop.toNat = 2 ^ 48 := rfl
  show usertop.toNat < a.toInt64.toBitVec.toNat
  split at hlen <;> omega

theorem argptr_of_neg (hsz : p.sz ≤ usertop) (hstk : p.stksz ≤ usertop) {a : Int32} (h : a < 0) :
    argptr p 1 (ofInt a) = none ↔ EndRefused p (p.tf.x 1).toNat (ofInt a).toNat := by
  have hlong := ofInt_of_neg h
  have hsz' := UInt64.le_iff_toNat_le.mp hsz
  have hout : ¬ InUser p (p.tf.x 1).toNat (ofInt a).toNat := by
    intro hin
    rcases hin with hin | hin
    · omega
    · omega
  rw [← inUser_exact hsz hstk, iff_false_right hout]
  show (if inUser p (p.tf.x 1) (ofInt a) then some (p.tf.x 1) else none) = none ↔ _
  split <;> simp_all

/-- A call without proper arguments does nothing. -/
theorem rw_refused (hp : rwArgs (k.proc pid) = none) :
    (sysRead env pid).run k = .ok (-1) k ∧ (sysWrite env pid).run k = .ok (-1) k := by
  rw [sysRead, sysWrite, bind_ok (get_run k), bind_ok (get_run k)]
  dsimp only
  rw [hp]
  exact ⟨rfl, rfl⟩

/-- **User buffers are checked, unless their end wraps around into user space.** `in_user`
accepts what lies in the program's memory or in its stack and nothing else exactly if the end
of the buffer is an address or wraps around to one that is refused; and then, and only then,
`sys_read` and `sys_write` on an open descriptor refuse a negative length. -/
theorem user_buffers_checked (pid : ProcId) (k : Kernel) (hsz : (k.proc pid).sz ≤ usertop)
    (hstk : (k.proc pid).stksz ≤ usertop) :
    (∀ s n : UInt64, (inUser (k.proc pid) s n = true ↔ InUser (k.proc pid) s.toNat n.toNat) ↔
      EndRefused (k.proc pid) s.toNat n.toNat) ∧
    (toInt ((k.proc pid).tf.x 2) < 0 →
      ((rwArgs (k.proc pid) = none ∧
          ∀ env : Env, (sysRead env pid).run k = .ok (-1) k ∧ (sysWrite env pid).run k = .ok (-1) k) ↔
        argfd (k.proc pid) 0 = none ∨
        EndRefused (k.proc pid) ((k.proc pid).tf.x 1).toNat (ofInt (toInt ((k.proc pid).tf.x 2))).toNat)) := by
  refine ⟨fun s n => inUser_exact hsz hstk, fun hneg => ?_⟩
  have hargs : rwArgs (k.proc pid) = none ↔ argfd (k.proc pid) 0 = none ∨
      argptr (k.proc pid) 1 (ofInt (toInt ((k.proc pid).tf.x 2))) = none := by
    rw [rwArgs]
    cases argfd (k.proc pid) 0 with
    | none => exact iff_of_true rfl (Or.inl rfl)
    | some fd =>
      show (argptr (k.proc pid) 1 (ofInt (toInt ((k.proc pid).tf.x 2)))).bind _ = none ↔ _
      cases argptr (k.proc pid) 1 (ofInt (toInt ((k.proc pid).tf.x 2))) with
      | none => exact iff_of_true rfl (Or.inr rfl)
      | some addr => exact iff_of_false nofun (by simp)
  rw [← argptr_of_neg hsz hstk hneg, ← hargs]
  exact and_iff_left_of_imp fun hnone env => rw_refused hnone

/-- A process with one page that has opened an empty file. It calls with the buffer at
`addr` and length -1. -/
def emptyReader (addr : UInt64) : Kernel where
  vol := {
    blocks := fun _ => zeroBlock
    heap := fun _ => ⟨false, 1, 1, true, {InodeEntry.zero with type := inodeRegular, numLinks := 1}⟩
    head := [1]
    allocs := 1 }
  mem := ⟨fun _ _ => 0, []⟩
  procs := Containers.zero.setProc (0, 0) fun q => {q with
    sz := 4096, state := .running, ofile := fun fd => if fd = 0 then some 0 else none
    tf := ⟨fun i => if i = 1 then addr else if i = 2 then 0xffffffff else 0, 0, 0⟩ }
  ftable := fun _ => ⟨.inode, 1, true, true, 1, 0⟩
  outstanding := 0

/-- At address 0 the end of the buffer is one, and the call is refused. -/
theorem user_buffers_checked_null : inUser ((emptyReader 0).proc (0, 0)) 4000 96 = true ∧
    ∀ env : Env, (sysRead env (0, 0)).run (emptyReader 0) = .ok (-1) (emptyReader 0) := by
  have h := user_buffers_checked (0, 0) (emptyReader 0) (by decide) (by decide)
  have hrefused := (h.2 (by decide)).mpr (Or.inr (by decide))
  exact ⟨((h.1 4000 96).mpr (by decide)).mpr (by decide), fun env => (hrefused.2 env).1⟩

/-- At address 1 the end of the buffer wraps around to 0. The call reads from the file, of
which it gets all that there is. -/
theorem negative_length_read : ((emptyReader 1).proc (0, 0)).base ≤ ((emptyReader 1).proc (0, 0)).sz ∧
    ((emptyReader 1).proc (0, 0)).sz ≤ usertop ∧ ((emptyReader 1).proc (0, 0)).stksz ≤ usertop ∧
    inUser ((emptyReader 1).proc (0, 0)) 1 0xffffffffffffffff = true ∧
    ¬ InUser ((emptyReader 1).proc (0, 0)) 1 0xffffffffffffffff ∧
    toInt (((emptyReader 1).proc (0, 0)).tf.x 2) = -1 ∧
    ∀ env : Env, ∃ k', (sysRead env (0, 0)).run (emptyReader 1) = .ok 0 k' ∧
      (sysRead env (0, 0)).run (emptyReader 1) = (fileread env 0 0 1 0xffffffffffffffff).run (emptyReader 1) := by
  refine ⟨by decide, by decide, by decide, by decide, by decide, by decide, fun env => ?_⟩
  have htest : returnedWith (fun r _ => r == 0) ((sysRead env (0, 0)).run (emptyReader 1)) = true := by rfl
  obtain ⟨r, k', hrun, hr⟩ := exists_of_returnedWith htest
  rw [beq_iff_eq] at hr
  subst hr
  exact ⟨k', hrun, rfl⟩

end OS2021.Core
