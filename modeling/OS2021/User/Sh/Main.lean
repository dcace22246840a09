import Mathlib.Logic.Function.Basic
import OS2021.Lib.Follows

/-! The shell's parser (`user/sh/main.c`).

`parsecmd` reads a line with one character of lookahead and builds the command as nodes
that `malloc1` takes from a fixed array. A node is stored at its offset in that array, and
a string is an offset in the line. An exec node is filled while redirections are already
around it, so the nodes are kept in memory here as they are there. At the end
`nulterminate` puts a NUL after every word, in the line itself. -/
namespace OS2021.User.Sh
open Lib

/-! ### Constants -/

/-- `MAXARGS` -/
abbrev maxargs : Nat := 10

/-- `MAXN` -/
abbrev maxn : Nat := 10000

abbrev oRdonly : Int32 := 0
abbrev oWronly : Int32 := 1
abbrev oCreat : Int32 := 0o100

/-- A character of the source. -/
def byte (c : Char) : UInt8 := c.toUInt8

def whitespace : List UInt8 := [byte ' ', byte '\t', byte '\r', byte '\n', byte '\x0b']

def symbols : List UInt8 := [byte '<', byte '|', byte '>', byte '&', byte ';', byte '(', byte ')']

/-! ### State -/

/-- A command in memory. -/
inductive Node where
  | execcmd (argv eargv : List (Option Nat))
  | redircmd (cmd file efile : Nat) (mode fd : Int32)
  | pipecmd (left right : Nat)
  | listcmd (left right : Nat)
  | backcmd (cmd : Nat)

/-- How the process ends in the parser; its exit status is 1. -/
inductive Stop where
  /-- `"malloc1: memory used out"` -/
  | memoryUsedOut
  /-- `PANIC(s)` -/
  | panic (s : String)
  /-- `"leftovers: %s"`, then `PANIC("syntax")` -/
  | leftovers (s : List UInt8)
  /-- An access outside of a node; this does not happen. -/
  | fault
  /-- A bound on recursion in the model is used up; this does not happen when it is large enough. -/
  | hang
  deriving DecidableEq

structure State where
  /-- The line; its NUL is where the list ends. -/
  buf : List UInt8
  /-- `*ps` -/
  s : Nat
  /-- `malloc1`'s `i` -/
  i : Nat
  /-- `malloc1`'s `mem` -/
  mem : Nat → Option Node

abbrev P := EStateM Stop State

/-! ### Constructors -/

def malloc1 (sz : Nat) : P Nat := do
  modify fun st => {st with i := st.i + sz}
  let st ← get
  if st.i > maxn then throw .memoryUsedOut
  return st.i - sz

def State.store (st : State) (p : Nat) (node : Node) : State := {st with mem := Function.update st.mem p (some node)}

/-- `malloc1(sizeof(*cmd))`, and the fields of `*cmd` are set. -/
def newcmd (sz : Nat) (node : Node) : P Nat := do
  let cmd ← malloc1 sz
  modify fun st => st.store cmd node
  return cmd

def execcmd : P Nat := newcmd 168 (.execcmd (List.replicate maxargs none) (List.replicate maxargs none))

def redircmd (subcmd file efile : Nat) (mode fd : Int32) : P Nat := newcmd 40 (.redircmd subcmd file efile mode fd)

def pipecmd (left right : Nat) : P Nat := newcmd 24 (.pipecmd left right)

def listcmd (left right : Nat) : P Nat := newcmd 24 (.listcmd left right)

def backcmd (subcmd : Nat) : P Nat := newcmd 16 (.backcmd subcmd)

/-! ### Tokens -/

/-- Whether `strchr` finds `c`; the NUL at the end of a string is found too. -/
def strchr (cs : List UInt8) (c : UInt8) : Bool := c = 0 ∨ c ∈ cs

def charAt (buf : List UInt8) (s : Nat) : UInt8 := buf.getD s 0

/-- `while (s < es && p(*s)) s++` -/
def skip (p : UInt8 → Bool) (buf : List UInt8) (es s : Nat) : Nat := s + (((buf.take es).drop s).takeWhile p).length

/-- The `switch` of `gettoken`: what is returned, and where the token that starts at `s` ends. -/
def scan (buf : List UInt8) (es s : Nat) : UInt8 × Nat :=
  let c := charAt buf s
  if c = 0 then (c, s)
  else if c ∈ [byte '|', byte '(', byte ')', byte ';', byte '&', byte '<'] then (c, s + 1)
  else if c = byte '>' then
    if charAt buf (s + 1) = byte '>' then (byte '+', s + 2) else (c, s + 1)
  else (byte 'a', skip (fun c => !strchr whitespace c && !strchr symbols c) buf es s)

/-- The token's code, and where it starts and ends. -/
def gettoken (es : Nat) : P (UInt8 × Nat × Nat) := do
  let st ← get
  let q := skip (strchr whitespace) st.buf es st.s
  let (ret, eq) := scan st.buf es q
  set {st with s := skip (strchr whitespace) st.buf es eq}
  return (ret, q, eq)

def peek (es : Nat) (toks : List UInt8) : P Bool := do
  let st ← get
  let s := skip (strchr whitespace) st.buf es st.s
  set {st with s := s}
  return charAt st.buf s ≠ 0 ∧ strchr toks (charAt st.buf s)

/-! ### Commands -/

def parseredirs (es : Nat) : Nat → Nat → P Nat
  | 0, _ => throw .hang
  | n + 1, cmd => do
    if ← peek es [byte '<', byte '>'] then
      let (tok, _, _) ← gettoken es
      let (tok', q, eq) ← gettoken es
      if tok' ≠ byte 'a' then throw (.panic "missing file for redirection")
      let cmd ←
        if tok = byte '<' then redircmd cmd q eq oRdonly 0
        else if tok = byte '>' then redircmd cmd q eq (oWronly ||| oCreat) 1
        else if tok = byte '+' then redircmd cmd q eq (oWronly ||| oCreat) 1
        else pure cmd
      parseredirs es n cmd
    else return cmd

/-- `cmd->argv[argc] = q; cmd->eargv[argc] = eq` -/
def setArg (cmd argc : Nat) (q eq : Option Nat) : P Unit := do
  let st ← get
  match st.mem cmd with
  | some (.execcmd argv eargv) =>
    if argc < maxargs then set (st.store cmd (.execcmd (argv.set argc q) (eargv.set argc eq)))
    else throw .fault
  | _ => throw .fault

/-- The loop of `parseexec`; `argc` and `ret` when it is left are returned. -/
def parseargs (es : Nat) (cmd : Nat) : Nat → Nat → Nat → P (Nat × Nat)
  | 0, _, _ => throw .hang
  | n + 1, argc, ret => do
    if ← peek es [byte '|', byte ')', byte '&', byte ';'] then return (argc, ret)
    else
      let (tok, q, eq) ← gettoken es
      if tok = 0 then return (argc, ret)
      else
        if tok ≠ byte 'a' then throw (.panic "syntax")
        setArg cmd argc (some q) (some eq)
        if argc + 1 ≥ maxargs then throw (.panic "too many args")
        let ret ← parseredirs es n ret
        parseargs es cmd n (argc + 1) ret

/-- The first loop of `parseline`. -/
def parsebacks (es : Nat) : Nat → Nat → P Nat
  | 0, _ => throw .hang
  | n + 1, cmd => do
    if ← peek es [byte '&'] then
      let _ ← gettoken es
      let cmd ← backcmd cmd
      parsebacks es n cmd
    else return cmd

mutual

def parseline (es : Nat) : Nat → P Nat
  | 0 => throw .hang
  | n + 1 => do
    let cmd ← parsepipe es n
    let cmd ← parsebacks es n cmd
    if ← peek es [byte ';'] then
      let _ ← gettoken es
      let right ← parseline es n
      listcmd cmd right
    else return cmd

def parsepipe (es : Nat) : Nat → P Nat
  | 0 => throw .hang
  | n + 1 => do
    let cmd ← parseexec es n
    if ← peek es [byte '|'] then
      let _ ← gettoken es
      let right ← parsepipe es n
      pipecmd cmd right
    else return cmd

def parseblock (es : Nat) : Nat → P Nat
  | 0 => throw .hang
  | n + 1 => do
    if !(← peek es [byte '(']) then throw (.panic "parseblock")
    let _ ← gettoken es
    let cmd ← parseline es n
    if !(← peek es [byte ')']) then throw (.panic "syntax - missing )")
    let _ ← gettoken es
    parseredirs es n cmd

def parseexec (es : Nat) : Nat → P Nat
  | 0 => throw .hang
  | n + 1 => do
    if ← peek es [byte '('] then parseblock es n
    else
      let cmd ← execcmd
      let ret ← parseredirs es n cmd
      let (argc, ret) ← parseargs es cmd n 0 ret
      setArg cmd argc none none
      return ret

end

/-! ### Strings -/

/-- `*s = 0` -/
def putNul (s : Nat) : P Unit := modify fun st => {st with buf := st.buf.set s 0}

/-- `for (i = 0; ecmd->argv[i]; i++) *ecmd->eargv[i] = 0` -/
def nulterminateArgs : List (Option Nat) → List (Option Nat) → P Unit
  | none :: _, _ => pure ()
  | some _ :: argv, some e :: eargv => do
    putNul e
    nulterminateArgs argv eargv
  | _, _ => throw .fault

def nulterminate : Nat → Nat → P Unit
  | 0, _ => throw .hang
  | n + 1, cmd => do
    match (← get).mem cmd with
    | some (.execcmd argv eargv) => nulterminateArgs argv eargv
    | some (.redircmd cmd _ efile _ _) =>
      nulterminate n cmd
      putNul efile
    | some (.pipecmd left right) =>
      nulterminate n left
      nulterminate n right
    | some (.listcmd left right) =>
      nulterminate n left
      nulterminate n right
    | some (.backcmd cmd) => nulterminate n cmd
    | none => throw .fault

/-- The offset of the first NUL. -/
def strlen (s : List UInt8) : Nat := (s.takeWhile (· ≠ 0)).length

/-- Recursion is at most `n` deep. -/
def parsecmd (n : Nat) (s : List UInt8) : P Nat := do
  modify fun st => {st with buf := s, s := 0}
  let es := strlen s
  let cmd ← parseline es n
  let _ ← peek es []
  let st ← get
  if st.s ≠ es then throw (.leftovers ((st.buf.drop st.s).takeWhile (· ≠ 0)))
  nulterminate n cmd
  return cmd

end OS2021.User.Sh
