import Mathlib.Logic.Function.Iterate
import OS2021.User.Sh.Main

/-! The shell's grammar.

    line  ::= pipe '&'* [';' line]
    pipe  ::= exec ['|' pipe]
    exec  ::= '(' line ')' redir* | redir* (word redir*)*
    redir ::= ('<' | '>' | '>>') word

Tokens are these symbols and words, which are the longest runs of other characters that
are not blank. A derivation has a tree: `'&'` nests to the left, `'|'` and `';'` to the
right, and a later redirection is around an earlier one. -/
namespace OS2021.User.Sh

/-! ### Tokens -/

inductive RedirOp where
  | lt
  | gt
  | gtgt
  deriving DecidableEq

inductive Token where
  | word (w : List UInt8)
  | redir (op : RedirOp)
  | bar
  | amp
  | semi
  | lparen
  | rparen
  deriving DecidableEq

def IsWordChar (c : UInt8) : Prop := c ∉ whitespace ∧ c ∉ symbols

instance : DecidablePred IsWordChar := fun _ => inferInstanceAs (Decidable (_ ∧ _))

/-- A symbol of one character other than `'>'`. -/
inductive IsSymbol : UInt8 → Token → Prop
  | lt : IsSymbol (byte '<') (.redir .lt)
  | bar : IsSymbol (byte '|') .bar
  | amp : IsSymbol (byte '&') .amp
  | semi : IsSymbol (byte ';') .semi
  | lparen : IsSymbol (byte '(') .lparen
  | rparen : IsSymbol (byte ')') .rparen

/-- The tokens of a string. -/
inductive Lexes : List UInt8 → List Token → Prop
  | nil : Lexes [] []
  | blank {c cs ts} (hc : c ∈ whitespace) (h : Lexes cs ts) : Lexes (c :: cs) ts
  | symbol {c t cs ts} (hc : IsSymbol c t) (h : Lexes cs ts) : Lexes (c :: cs) (t :: ts)
  | gtgt {cs ts} (h : Lexes cs ts) : Lexes (byte '>' :: byte '>' :: cs) (.redir .gtgt :: ts)
  | gt {cs ts} (hmax : byte '>' ∉ cs.head?) (h : Lexes cs ts) : Lexes (byte '>' :: cs) (.redir .gt :: ts)
  | word {w cs ts} (hne : w ≠ []) (hw : ∀ c ∈ w, IsWordChar c) (hmax : ∀ c ∈ cs.head?, ¬ IsWordChar c)
      (h : Lexes cs ts) : Lexes (w ++ cs) (.word w :: ts)

/-! ### Trees -/

/-- A command over words of type `W`. -/
inductive Cmd (W : Type) where
  | exec (argv : List W)
  | redir (cmd : Cmd W) (file : W) (mode fd : Int32)
  | pipe (left right : Cmd W)
  | list (left right : Cmd W)
  | back (cmd : Cmd W)

structure Redir (W : Type) where
  op : RedirOp
  file : W

def RedirOp.mode : RedirOp → Int32
  | .lt => oRdonly
  | .gt | .gtgt => oWronly ||| oCreat

def RedirOp.fd : RedirOp → Int32
  | .lt => 0
  | .gt | .gtgt => 1

/-- A command in its redirections, the last one outermost. -/
def wrap {W : Type} (rs : List (Redir W)) (c : Cmd W) : Cmd W :=
  rs.foldl (fun c r => .redir c r.file r.op.mode r.op.fd) c

/-! ### Derivations -/

inductive Nonterminal where
  | line
  | pipe
  | exec

/-- The tokens of `redir*`. -/
def redirTokens (rs : List (Redir (List UInt8))) : List Token := rs.flatMap fun r => [.redir r.op, .word r.file]

/-- The tokens of `(word redir*)*`. -/
def argTokens (args : List (List UInt8 × List (Redir (List UInt8)))) : List Token :=
  args.flatMap fun a => .word a.1 :: redirTokens a.2

theorem redirTokens_cons (r : Redir (List UInt8)) (rs : List (Redir (List UInt8))) :
    redirTokens (r :: rs) = .redir r.op :: .word r.file :: redirTokens rs := rfl

theorem argTokens_cons (w : List UInt8) (rs : List (Redir (List UInt8)))
    (args : List (List UInt8 × List (Redir (List UInt8)))) :
    argTokens ((w, rs) :: args) = .word w :: (redirTokens rs ++ argTokens args) := rfl

/-- The tokens can be derived from the nonterminal, with this tree. -/
inductive Derives : Nonterminal → List Token → Cmd (List UInt8) → Prop
  | block {ts c} (h : Derives .line ts c) (rs : List (Redir (List UInt8))) :
      Derives .exec (.lparen :: (ts ++ .rparen :: redirTokens rs)) (wrap rs c)
  | simple (rs : List (Redir (List UInt8))) (args : List (List UInt8 × List (Redir (List UInt8))))
      (hargs : args.length < maxargs) :
      Derives .exec (redirTokens rs ++ argTokens args)
        (wrap (rs ++ args.flatMap Prod.snd) (.exec (args.map Prod.fst)))
  | exec {ts c} (h : Derives .exec ts c) : Derives .pipe ts c
  | pipe {ts us c d} (hl : Derives .exec ts c) (hr : Derives .pipe us d) :
      Derives .pipe (ts ++ .bar :: us) (.pipe c d)
  | line {ts c} (h : Derives .pipe ts c) (k : Nat) : Derives .line (ts ++ List.replicate k .amp) (Cmd.back^[k] c)
  | list {ts us c d} (hl : Derives .pipe ts c) (k : Nat) (hr : Derives .line us d) :
      Derives .line (ts ++ (List.replicate k .amp ++ .semi :: us)) (.list (Cmd.back^[k] c) d)

/-- The string is a line, with this tree. -/
def Parses (s : List UInt8) (t : Cmd (List UInt8)) : Prop := ∃ ts, Lexes s ts ∧ Derives .line ts t

end OS2021.User.Sh
