import OS2021.Core.Exec
import OS2021.Core.UserMemory

/-! The arguments of `execve` (`sys_exec`, `core/sysfile.c`).

`sys_exec` collects pointers into the memory of the process, up to the null pointer that ends
the vector. There is room for 32 of them with the null pointer. A vector that does not fit is
to be refused, but the pointers are given to `kfree` first, which panics: they are not pages
of the kernel. -/
namespace OS2021.Core
open Fs Lib

/-! ### `sys_exec` -/

/-- The word at `addr`, which is not tested. -/
def fetchint (pgdir : Nat) (addr : UInt64) : MemM UInt64 := loadWord pgdir addr

/-- How the loop over the vector ends, with what it has put into `argv`: the pointers, and the
strings they point to. -/
inductive Fetched where
  | args (argv : List (UInt64 × List UInt8))
  | bad
  /-- `bbad` -/
  | full (argv : List (UInt64 × List UInt8))

section Routines
variable (q : Proc) (uargv : UInt64)

/-- The loop over the vector; `argv` has room for `n` more. -/
def fetchArgvFrom : Nat → List (UInt64 × List UInt8) → MemM Fetched
  | 0, argv => return .full argv
  | n + 1, argv => do
    let uarg ← fetchint q.pgdir.toNat (uargv + .ofNat (8 * argv.length))
    if uarg = 0 then return .args argv
    else
      match ← fetchstr q uarg with
      | none => return .bad
      | some s => fetchArgvFrom n (argv ++ [(uarg, s)])

def fetchArgv : MemM Fetched := if uargv = 0 then return .args [] else fetchArgvFrom q uargv 32 []

end Routines

/-- `kfree` of any pointer; what is not in the kernel's half of the addresses is below `end`. -/
def kfreeAt (kend : Nat) (a : UInt64) : MemM Unit :=
  if a.toNat < kernbase then throw (.panic "ERR ADDR") else kfree kend (a.toNat - kernbase)

def sysExec (env : Env) (p : ProcId) : K Int := do
  let q := (← get).proc p
  match ← onMem (argstr q 0), argu64 q 1, argu64 q 2 with
  | some path, some uargv, some _ => do
    match ← onMem (fetchArgv q uargv) with
    | .args argv => execve env p path (argv.map Prod.snd)
    | .bad => return -1
    | .full argv => do
      onMem (argv.forM fun a => kfreeAt env.kend a.1)
      return -1
  | _, _, _ => return -1

/-! ### Vectors -/

/-- A vector of pointers to strings at `uargv`, with the null pointer behind it. -/
structure ArgVector (m : Memory) (q : Proc) (uargv : UInt64) (args : List (UInt64 × List UInt8)) : Prop where
  nonnull : uargv ≠ 0
  fits : uargv.toNat + 8 * (args.length + 1) ≤ usertop.toNat
  words : m.HasBytes q.pgdir.toNat uargv.toNat (wordBytes (args.map Prod.fst ++ [0]))
  strings : ∀ a ∈ args, a.1 ≠ 0 ∧ UserString m q a.1 a.2

variable {m : Memory} {q : Proc} {uargv : UInt64} {args : List (UInt64 × List UInt8)} {k : Kernel} {env : Env}
  {p : ProcId} {path : List UInt8} {argv : List (UInt64 × List UInt8)}

/-- What the loop makes of the rest of a vector. -/
def fetched (n : Nat) (argv args : List (UInt64 × List UInt8)) : Fetched :=
  if args.length < n then .args (argv ++ args) else .full (argv ++ args.take n)

theorem fetched_zero (argv args : List (UInt64 × List UInt8)) : fetched 0 argv args = .full argv := by
  rw [fetched, if_neg (Nat.not_lt_zero _), List.take_zero, List.append_nil]

theorem fetched_nil (n : Nat) (argv : List (UInt64 × List UInt8)) : fetched (n + 1) argv [] = .args argv := by
  rw [fetched, List.length_nil, if_pos (Nat.succ_pos n), List.append_nil]

theorem fetched_cons (n : Nat) (argv args : List (UInt64 × List UInt8)) (arg : UInt64 × List UInt8) :
    fetched (n + 1) argv (arg :: args) = fetched n (argv ++ [arg]) args := by
  simp only [fetched, List.length_cons, Nat.add_lt_add_iff_right, List.take_succ_cons, List.append_assoc,
    List.cons_append, List.nil_append]

theorem toNat_slot {i : Nat} (h : uargv.toNat + 8 * i < 2 ^ 64) :
    (uargv + .ofNat (8 * i)).toNat = uargv.toNat + 8 * i := by
  rw [UInt64.toNat_add, UInt64.toNat_ofNat']
  omega

theorem fetchArgvFrom_run {n : Nat} (hfits : uargv.toNat + 8 * (argv.length + args.length + 1) ≤ usertop.toNat)
    (hwords : m.HasBytes q.pgdir.toNat (uargv.toNat + 8 * argv.length) (wordBytes (args.map Prod.fst ++ [0])))
    (hstrings : ∀ a ∈ args, a.1 ≠ 0 ∧ UserString m q a.1 a.2) (hint : ∀ a ∈ args, a.2.length < 2 ^ 31) :
    (fetchArgvFrom q uargv n argv).run m = .ok (fetched n argv args) m := by
  induction args generalizing n argv with
  | nil =>
    have htop : uargv.toNat + 8 * (argv.length + 0 + 1) ≤ 2 ^ 48 := hfits
    rw [← toNat_slot (by omega)] at hwords
    cases n with
    | zero => rw [fetchArgvFrom, pure_run, fetched_zero]
    | succ n =>
      rw [fetchArgvFrom, fetchint, bind_ok (loadWord_run (by rw [toNat_slot (by omega)]; omega) hwords), if_pos rfl,
        pure_run, fetched_nil]
  | cons arg args ih =>
    have htop : uargv.toNat + 8 * (argv.length + (args.length + 1) + 1) ≤ 2 ^ 48 := hfits
    have hslot : (uargv + .ofNat (8 * argv.length)).toNat = uargv.toNat + 8 * argv.length := toNat_slot (by omega)
    obtain ⟨hne, hstring⟩ := hstrings arg List.mem_cons_self
    have hfetch := hstring.fetchstr_run (hint arg List.mem_cons_self)
    cases n with
    | zero => rw [fetchArgvFrom, pure_run, fetched_zero]
    | succ n =>
      have hrest := (hasBytes_wordBytes_cons.mp hwords).2
      have hword : (fetchint q.pgdir.toNat (uargv + .ofNat (8 * argv.length))).run m = .ok arg.1 m :=
        loadWord_run (by omega) (by rw [hslot]; exact hwords)
      have hlen : (argv ++ [arg]).length = argv.length + 1 := List.length_append
      have htail : (fetchArgvFrom q uargv n (argv ++ [arg])).run m = .ok (fetched n (argv ++ [arg]) args) m := by
        refine ih ?_ ?_ (fun a ha => hstrings a (List.mem_cons_of_mem arg ha))
          fun a ha => hint a (List.mem_cons_of_mem arg ha)
        · rw [hlen, Nat.add_right_comm argv.length 1]
          exact hfits
        · rw [hlen]
          exact hrest
      rw [fetchArgvFrom, bind_ok hword, if_neg hne, bind_ok hfetch]
      dsimp only
      rw [htail, fetched_cons]

theorem ArgVector.fetchArgv_run (h : ArgVector m q uargv args) (hint : ∀ a ∈ args, a.2.length < 2 ^ 31) :
    (fetchArgv q uargv).run m = .ok (fetched 32 [] args) m := by
  rw [fetchArgv, if_neg h.nonnull]
  exact fetchArgvFrom_run (by simpa using h.fits) h.words h.strings hint

/-! ### What becomes of a vector -/

section
variable (hpath : UserString k.mem (k.proc p) ((k.proc p).tf.x 0) path) (hint : path.length < 2 ^ 31)
  (hargs : ArgVector k.mem (k.proc p) ((k.proc p).tf.x 1) args) (hints : ∀ a ∈ args, a.2.length < 2 ^ 31)
include hpath hint hargs hints

/-- Up to the end of the vector the call reads only. -/
theorem sysExec_fetched : (sysExec env p).run k = (match fetched 32 [] args with
      | .args argv => execve env p path (argv.map Prod.snd)
      | .bad => return -1
      | .full argv => do
        onMem (argv.forM fun a => kfreeAt env.kend a.1)
        return -1 : K Int).run k := by
  have hstr : (onMem (argstr (k.proc p) 0)).run k = .ok (some path) k := onMem_run (hpath.fetchstr_run hint)
  have hvec : (onMem (fetchArgv (k.proc p) ((k.proc p).tf.x 1))).run k = .ok (fetched 32 [] args) k :=
    onMem_run (hargs.fetchArgv_run hints)
  rw [sysExec, bind_ok (get_run k)]
  dsimp only
  rw [bind_ok hstr]
  show ((onMem (fetchArgv (k.proc p) ((k.proc p).tf.x 1))).bind _).run k = _
  exact bind_ok hvec

/-- A longer vector is a panic: its first pointer is no page of the kernel. -/
theorem sysExec_full (hsz : (k.proc p).sz ≤ usertop) (hlen : 32 ≤ args.length) :
    (sysExec env p).run k = .error (.panic "ERR ADDR") k := by
  rw [sysExec_fetched hpath hint hargs hints, fetched, if_neg (not_lt.mpr hlen)]
  cases args with
  | nil => exact absurd hlen (by decide)
  | cons arg args =>
    have hlow : arg.1.toNat < kernbase := by
      have htop : (k.proc p).sz.toNat ≤ 2 ^ 48 := UInt64.le_iff_toNat_le.mp hsz
      show arg.1.toNat < 0xffff000000000000
      rcases (hargs.strings arg List.mem_cons_self).2.area with ⟨-, hend⟩ | ⟨-, -, hend⟩
      · omega
      · have hend' : arg.1.toNat + arg.2.length < 2 ^ 48 := hend
        omega
    have hfree : (((arg :: args).take 32).forM fun a => kfreeAt env.kend a.1 : MemM Unit).run k.mem =
        .error (.panic "ERR ADDR") k.mem := by
      have hpanic : (kfreeAt env.kend arg.1).run k.mem = .error (.panic "ERR ADDR") k.mem := by
        rw [kfreeAt, if_pos hlow]
        rfl
      exact bind_error hpanic
    exact bind_error (onPart_stop hfree)

end

theorem kfreeAt_grows {kend : Nat} {a : UInt64} {m' : Memory} (h : (kfreeAt kend a).run m = .ok () m') :
    m'.free.length = m.free.length + 1 := by
  rw [kfreeAt] at h
  split at h
  case isTrue => cases h
  case isFalse =>
    rw [kfree] at h
    split at h
    case isTrue => cases h
    case isFalse => cases h; rfl

theorem forM_kfreeAt_grows {kend : Nat} {m' : Memory}
    (h : (argv.forM fun a => kfreeAt kend a.1 : MemM Unit).run m = .ok () m') :
    m'.free.length = m.free.length + argv.length := by
  induction argv generalizing m with
  | nil => cases h; rfl
  | cons arg argv ih =>
    obtain ⟨⟨⟩, m1, hfirst, hrest⟩ := bind_eq_ok h
    rw [ih hrest, kfreeAt_grows hfirst, List.length_cons, Nat.add_right_comm, Nat.add_assoc]

/-- **The strings of a vector go to `execve`, as they are and in their order, or the call
returns -1 with nothing changed, exactly when there are less than 32 of them**: behind a longer
vector the pointers are freed as pages. -/
theorem sysExec_passes (env : Env) (p : ProcId) (k : Kernel) (path : List UInt8) (args : List (UInt64 × List UInt8))
    (hpath : UserString k.mem (k.proc p) ((k.proc p).tf.x 0) path)
    (hargs : ArgVector k.mem (k.proc p) ((k.proc p).tf.x 1) args)
    (hint : path.length < 2 ^ 31 ∧ ∀ a ∈ args, a.2.length < 2 ^ 31) :
    (sysExec env p).run k =
        (if args.length < 32 then (execve env p path (args.map Prod.snd)).run k else .ok (-1) k) ↔
      args.length < 32 := by
  rw [sysExec_fetched hpath hint.1 hargs hint.2, fetched]
  refine ⟨fun h => ?_, fun hlen => by rw [if_pos hlen, if_pos hlen]; rfl⟩
  by_contra hlen
  rw [if_neg hlen, if_neg hlen] at h
  -- a run that gets through the cleanup has 32 more pages on the free list
  obtain ⟨⟨⟩, k', hfree, hret⟩ := bind_eq_ok h
  cases hret
  obtain ⟨m', hmem, hk⟩ := onMem_ok hfree
  obtain rfl : k.mem = m' := congrArg Kernel.mem hk
  have hgrown := forM_kfreeAt_grows hmem
  rw [List.nil_append, List.length_take] at hgrown
  omega

/-! ### Two vectors -/

/-- A page at address 0 with the string `"a"` at 0x800, and `n` pointers to it from 8 on. -/
def vectorPage (n : Nat) : Memory :=
  pageWith fun i => if i = 256 then 0x61 else if 1 ≤ i ∧ i ≤ n then 0x800 else 0

/-- A process that calls `execve("a", argv)` with that vector. -/
def caller (n : Nat) : Kernel := {opener with
  mem := vectorPage n
  procs := Containers.zero.setProc (0, 0) fun q => {q with
    sz := 4096, pgdir := 0x1000, tf := ⟨fun i => if i = 0 then 0x800 else if i = 1 then 8 else 0, 0, 0⟩}}

theorem caller_string {n : Nat} (h : (vectorPage n).HasBytes 0x1000 0x800 [97, 0]) :
    UserString (caller n).mem ((caller n).proc (0, 0)) 0x800 [97] :=
  ⟨Or.inl ⟨show (0 : UInt64) ≤ 0x800 by decide, show (0x800 : UInt64).toNat + 1 < (4096 : UInt64).toNat by decide⟩, h,
    by decide⟩

theorem caller_vector {n : Nat} (hstring : (vectorPage n).HasBytes 0x1000 0x800 [97, 0])
    (hfits : 8 + 8 * (n + 1) ≤ 2 ^ 48)
    (hwords : (vectorPage n).HasBytes 0x1000 8 (wordBytes (List.replicate n 0x800 ++ [0]))) :
    ArgVector (caller n).mem ((caller n).proc (0, 0)) 8 (List.replicate n (0x800, [97])) := by
  refine ⟨by decide, ?_, ?_, fun a ha => ?_⟩
  · rw [List.length_replicate]
    exact hfits
  · rw [List.map_replicate]
    exact hwords
  · obtain rfl := (List.mem_replicate.mp ha).2
    exact ⟨by decide, caller_string hstring⟩

/-- Two arguments. -/
theorem sysExec_passes_two :
    (sysExec smallEnv (0, 0)).run (caller 2) = (execve smallEnv (0, 0) [97] [[97], [97]]).run (caller 2) := by
  have hstring : (vectorPage 2).HasBytes 0x1000 0x800 [97, 0] := by decide +kernel
  have hwords : (vectorPage 2).HasBytes 0x1000 8 (wordBytes [0x800, 0x800, 0]) := by decide +kernel
  exact (sysExec_passes smallEnv (0, 0) (caller 2) [97] (List.replicate 2 (0x800, [97])) (caller_string hstring)
    (caller_vector hstring (by decide) hwords) ⟨by decide, by decide⟩).mpr (by decide)

/-- With 32 arguments the kernel panics. -/
theorem sysExec_panics : UserString (caller 32).mem ((caller 32).proc (0, 0)) 0x800 [97] ∧
    ArgVector (caller 32).mem ((caller 32).proc (0, 0)) 8 (List.replicate 32 (0x800, [97])) ∧
    (sysExec smallEnv (0, 0)).run (caller 32) = .error (.panic "ERR ADDR") (caller 32) := by
  have hstring : (vectorPage 32).HasBytes 0x1000 0x800 [97, 0] := by decide +kernel
  have hwords : (vectorPage 32).HasBytes 0x1000 8 (wordBytes (List.replicate 32 0x800 ++ [0])) := by decide +kernel
  have hpath := caller_string hstring
  have hargs := caller_vector hstring (by decide) hwords
  refine ⟨hpath, hargs, sysExec_full hpath (by decide) hargs (fun a ha => ?_) ?_ ?_⟩
  · rw [(List.mem_replicate.mp ha).2]
    decide
  · show (4096 : UInt64) ≤ usertop
    decide
  · rw [List.length_replicate]

end OS2021.Core
