import OS2021.User.Sh.Grammar

/-! Recursive descent over tokens.

These are the parser's functions without characters and memory: they take tokens from the
front of a list and return trees. Here the parser is compared with the grammar. What it
accepts can be derived, by following its runs (`Parsed`); what can be derived it accepts,
by induction on the derivation, when the token after it is one that may follow
(`Tokens.accepted`); and with enough depth it always ends (`Tokens.parse_ended`). -/
namespace OS2021.User.Sh
open Lib

/-! ### The parser on tokens -/

namespace Tokens

def redirs : Nat → List Token → Except Stop (List (Redir (List UInt8)) × List Token)
  | 0, _ => .error .hang
  | n + 1, .redir op :: .word w :: ts => do
    let (rs, ts) ← redirs n ts
    return (⟨op, w⟩ :: rs, ts)
  | _ + 1, .redir _ :: _ => .error (.panic "missing file for redirection")
  | _ + 1, ts => .ok ([], ts)

def args : Nat → Nat → List Token → Except Stop (List (List UInt8 × List (Redir (List UInt8))) × List Token)
  | 0, _, _ => .error .hang
  | n + 1, argc, .word w :: ts =>
    if argc + 1 ≥ maxargs then .error (.panic "too many args")
    else do
      let (rs, ts) ← redirs n ts
      let (as, ts) ← args n (argc + 1) ts
      return ((w, rs) :: as, ts)
  | _ + 1, _, .lparen :: _ => .error (.panic "syntax")
  | _ + 1, _, .redir _ :: _ => .error (.panic "syntax")
  | _ + 1, _, ts => .ok ([], ts)

def backs : Nat → List Token → Except Stop (Nat × List Token)
  | 0, _ => .error .hang
  | n + 1, .amp :: ts => do
    let (k, ts) ← backs n ts
    return (k + 1, ts)
  | _ + 1, ts => .ok (0, ts)

mutual

def line : Nat → List Token → Except Stop (Cmd (List UInt8) × List Token)
  | 0, _ => .error .hang
  | n + 1, ts => do
    let (c, ts) ← pipe n ts
    let (k, ts) ← backs n ts
    match ts with
    | .semi :: ts =>
      let (d, ts) ← line n ts
      return (.list (Cmd.back^[k] c) d, ts)
    | ts => return (Cmd.back^[k] c, ts)

def pipe : Nat → List Token → Except Stop (Cmd (List UInt8) × List Token)
  | 0, _ => .error .hang
  | n + 1, ts => do
    let (c, ts) ← exec n ts
    match ts with
    | .bar :: ts =>
      let (d, ts) ← pipe n ts
      return (.pipe c d, ts)
    | ts => return (c, ts)

def block : Nat → List Token → Except Stop (Cmd (List UInt8) × List Token)
  | 0, _ => .error .hang
  | n + 1, .lparen :: ts => do
    let (c, ts) ← line n ts
    match ts with
    | .rparen :: ts =>
      let (rs, ts) ← redirs n ts
      return (wrap rs c, ts)
    | _ => .error (.panic "syntax - missing )")
  | _ + 1, _ => .error (.panic "parseblock")

def exec : Nat → List Token → Except Stop (Cmd (List UInt8) × List Token)
  | 0, _ => .error .hang
  | n + 1, .lparen :: ts => block n (.lparen :: ts)
  | n + 1, ts => do
    let (rs, ts) ← redirs n ts
    let (as, ts) ← args n 0 ts
    return (wrap (rs ++ as.flatMap Prod.snd) (.exec (as.map Prod.fst)), ts)

end

def parse : Nonterminal → Nat → List Token → Except Stop (Cmd (List UInt8) × List Token)
  | .line => line
  | .pipe => pipe
  | .exec => exec

variable {n k argc : Nat} {ts us : List Token} {rs : List (Redir (List UInt8))}
  {as : List (List UInt8 × List (Redir (List UInt8)))}

/-! ### What is accepted can be derived -/

theorem redirs_sound (h : redirs n ts = .ok (rs, us)) : ts = redirTokens rs ++ us := by
  fun_induction redirs n ts generalizing rs with
  | case1 => cases h
  | case2 n op w ts ih =>
    obtain ⟨⟨rs', us'⟩, hrest, hret⟩ := of_bind_eq_ok h
    cases hret
    rw [ih hrest]
    rfl
  | case3 => cases h
  | case4 =>
    cases h
    rfl

theorem args_sound (h : args n argc ts = .ok (as, us)) :
    ts = argTokens as ++ us ∧ (argc < maxargs → argc + as.length < maxargs) := by
  fun_induction args n argc ts generalizing as with
  | case1 => cases h
  | case2 => cases h
  | case3 n argc w ts hargc ih =>
    obtain ⟨⟨rs, us1⟩, hredirs, hrest⟩ := of_bind_eq_ok h
    obtain ⟨⟨as', us'⟩, hargs, hret⟩ := of_bind_eq_ok hrest
    cases hret
    obtain ⟨rfl, hlen⟩ := ih us1 hargs
    rw [redirs_sound hredirs]
    refine ⟨?_, fun _ => ?_⟩
    · rw [argTokens_cons, List.cons_append, List.append_assoc]
    · have := hlen (Nat.lt_of_not_le hargc)
      rw [List.length_cons]
      omega
  | case4 => cases h
  | case5 => cases h
  | case6 =>
    cases h
    exact ⟨rfl, fun hlt => hlt⟩

theorem backs_sound (h : backs n ts = .ok (k, us)) : ts = List.replicate k .amp ++ us := by
  fun_induction backs n ts generalizing k with
  | case1 => cases h
  | case2 n ts ih =>
    obtain ⟨⟨k', us'⟩, hrest, hret⟩ := of_bind_eq_ok h
    cases hret
    rw [ih hrest]
    rfl
  | case3 =>
    cases h
    rfl

/-- If the result is a tree, it is one of the tokens taken. -/
def Parsed (nt : Nonterminal) (ts : List Token) (r : Except Stop (Cmd (List UInt8) × List Token)) : Prop :=
  ∀ t us, r = .ok (t, us) → ∃ vs, ts = vs ++ us ∧ Derives nt vs t

theorem line_parsed (hpipe : ∀ ts, Parsed .pipe ts (pipe n ts)) (hline : ∀ ts, Parsed .line ts (line n ts)) :
    Parsed .line ts (line (n + 1) ts) := by
  intro t us h
  rw [line] at h
  obtain ⟨⟨c, ts1⟩, hc, h1⟩ := of_bind_eq_ok h
  obtain ⟨⟨k, ts2⟩, hk, h2⟩ := of_bind_eq_ok h1
  obtain ⟨vs, rfl, hderives⟩ := hpipe _ _ _ hc
  obtain rfl := backs_sound hk
  dsimp only at h2
  split at h2
  case h_1 ts3 =>
    obtain ⟨⟨d, ts4⟩, hd, hret⟩ := of_bind_eq_ok h2
    cases hret
    obtain ⟨vs', rfl, hderives'⟩ := hline _ _ _ hd
    refine ⟨_, ?_, .list hderives k hderives'⟩
    rw [List.append_assoc, List.append_assoc, List.cons_append]
  case h_2 =>
    cases h2
    exact ⟨_, (List.append_assoc ..).symm, .line hderives k⟩

theorem pipe_parsed (hexec : ∀ ts, Parsed .exec ts (exec n ts)) (hpipe : ∀ ts, Parsed .pipe ts (pipe n ts)) :
    Parsed .pipe ts (pipe (n + 1) ts) := by
  intro t us h
  rw [pipe] at h
  obtain ⟨⟨c, ts1⟩, hc, h1⟩ := of_bind_eq_ok h
  obtain ⟨vs, rfl, hderives⟩ := hexec _ _ _ hc
  dsimp only at h1
  split at h1
  case h_1 ts2 =>
    obtain ⟨⟨d, ts3⟩, hd, hret⟩ := of_bind_eq_ok h1
    cases hret
    obtain ⟨vs', rfl, hderives'⟩ := hpipe _ _ _ hd
    refine ⟨_, ?_, .pipe hderives hderives'⟩
    rw [List.append_assoc, List.cons_append]
  case h_2 =>
    cases h1
    exact ⟨vs, rfl, .exec hderives⟩

theorem block_parsed (hline : ∀ ts, Parsed .line ts (line n ts)) : Parsed .exec ts (block (n + 1) ts) := by
  intro t us h
  rcases ts with _ | ⟨t0, ts⟩
  case nil => cases h
  cases t0 with
  | lparen =>
    rw [block] at h
    obtain ⟨⟨c, ts1⟩, hc, h1⟩ := of_bind_eq_ok h
    obtain ⟨vs, rfl, hderives⟩ := hline _ _ _ hc
    dsimp only at h1
    split at h1
    case h_1 ts2 =>
      obtain ⟨⟨rs, ts3⟩, hrs, hret⟩ := of_bind_eq_ok h1
      cases hret
      obtain rfl := redirs_sound hrs
      refine ⟨_, ?_, .block hderives rs⟩
      rw [List.cons_append, List.append_assoc, List.cons_append]
    case h_2 => cases h1
  | _ => cases h

theorem exec_simple (h : ∀ ts', ts ≠ .lparen :: ts') : exec (n + 1) ts = (do
    let (rs, ts) ← redirs n ts
    let (as, ts) ← args n 0 ts
    return (wrap (rs ++ as.flatMap Prod.snd) (.exec (as.map Prod.fst)), ts)) := by
  rw [exec]
  exact h

theorem exec_parsed (hblock : ∀ ts, Parsed .exec ts (block n ts)) : Parsed .exec ts (exec (n + 1) ts) := by
  intro t us h
  by_cases hparen : ∃ ts', ts = .lparen :: ts'
  case pos =>
    obtain ⟨ts', rfl⟩ := hparen
    exact hblock _ _ _ h
  case neg =>
    rw [exec_simple fun ts' he => hparen ⟨ts', he⟩] at h
    obtain ⟨⟨rs, ts1⟩, hrs, h1⟩ := of_bind_eq_ok h
    obtain ⟨⟨as, ts2⟩, has, hret⟩ := of_bind_eq_ok h1
    cases hret
    obtain rfl := redirs_sound hrs
    obtain ⟨rfl, hlen⟩ := args_sound has
    refine ⟨_, (List.append_assoc ..).symm, .simple rs as ?_⟩
    have hargs := hlen (by decide)
    rwa [Nat.zero_add] at hargs

/-- **What the parser accepts can be derived**, from the tokens it has taken. -/
theorem parse_parsed (nt : Nonterminal) (ts : List Token) : Parsed nt ts (parse nt n ts) := by
  have hall : (∀ ts, Parsed .line ts (line n ts)) ∧ (∀ ts, Parsed .pipe ts (pipe n ts)) ∧
      (∀ ts, Parsed .exec ts (exec n ts)) ∧ ∀ ts, Parsed .exec ts (block n ts) := by
    induction n with
    | zero => refine ⟨?_, ?_, ?_, ?_⟩ <;> exact fun ts t us h => nomatch h
    | succ n ih =>
      obtain ⟨hline, hpipe, hexec, hblock⟩ := ih
      exact ⟨fun ts => line_parsed hpipe hline, fun ts => pipe_parsed hexec hpipe, fun ts => exec_parsed hblock,
        fun ts => block_parsed hline⟩
  cases nt with
  | line => exact hall.1 ts
  | pipe => exact hall.2.1 ts
  | exec => exact hall.2.2.1 ts

/-! ### What can be derived is accepted -/

/-- Whether the token may stand after the nonterminal. -/
def mayFollow : Nonterminal → Token → Bool
  | _, .rparen => true
  | .pipe, .amp | .pipe, .semi => true
  | .exec, .amp | .exec, .semi | .exec, .bar => true
  | _, _ => false

def CanFollow (nt : Nonterminal) (us : List Token) : Prop := ∀ t ∈ us.head?, mayFollow nt t = true

/-- How deep the recursion has to be for the nonterminal, for so many tokens. -/
def depthFor (len : Nat) : Nonterminal → Nat
  | .line => 4 * len + 4
  | .pipe => 4 * len + 3
  | .exec => 4 * len + 2

theorem redirs_complete (hn : rs.length < n) (hus : ∀ op, .redir op ∉ us.head?) :
    redirs n (redirTokens rs ++ us) = .ok (rs, us) := by
  induction rs generalizing n with
  | nil =>
    obtain ⟨n, rfl⟩ := Nat.exists_eq_add_one.mpr hn
    rcases us with _ | ⟨t, us⟩
    case nil => rfl
    cases t with
    | redir op => exact absurd rfl (hus op)
    | _ => rfl
  | cons r rs ih =>
    obtain ⟨n, rfl⟩ := Nat.exists_eq_add_one.mpr (Nat.zero_lt_of_lt hn)
    rw [redirTokens_cons, List.cons_append, List.cons_append, redirs, ih (Nat.lt_of_succ_lt_succ hn)]
    rfl

theorem length_redirTokens (rs : List (Redir (List UInt8))) : (redirTokens rs).length = 2 * rs.length := by
  induction rs with
  | nil => rfl
  | cons r rs ih =>
    rw [redirTokens_cons, List.length_cons, List.length_cons, ih, List.length_cons]
    omega

theorem CanFollow.not_redir (hus : CanFollow .exec us) (op : RedirOp) : .redir op ∉ us.head? := fun hop => by
  cases hus _ hop

/-- After redirections there are none. -/
theorem redir_not_mem_head (hus : CanFollow .exec us) (op : RedirOp) : .redir op ∉ (argTokens as ++ us).head? := by
  cases as with
  | nil => exact hus.not_redir op
  | cons => exact fun hop => nomatch hop

theorem args_complete (hn : (argTokens as).length < n) (hlen : argc + as.length < maxargs)
    (hus : CanFollow .exec us) :
    args n argc (argTokens as ++ us) = .ok (as, us) := by
  induction as generalizing n argc with
  | nil =>
    obtain ⟨n, rfl⟩ := Nat.exists_eq_add_one.mpr hn
    rcases us with _ | ⟨t, us⟩
    case nil => rfl
    have ht := hus t rfl
    cases t with
    | word | redir | lparen => cases ht
    | bar | amp | semi | rparen => rfl
  | cons a as ih =>
    obtain ⟨w, rs⟩ := a
    obtain ⟨n, rfl⟩ := Nat.exists_eq_add_one.mpr (Nat.zero_lt_of_lt hn)
    rw [argTokens_cons, List.length_cons, List.length_append, length_redirTokens] at hn
    rw [List.length_cons] at hlen
    rw [argTokens_cons, List.cons_append, List.append_assoc, args, if_neg (by omega),
      redirs_complete (by omega) (redir_not_mem_head hus)]
    show (args n (argc + 1) (argTokens as ++ us) >>= _) = _
    rw [ih (by omega) (by omega)]
    rfl

theorem backs_complete (hn : k < n) (hus : .amp ∉ us.head?) :
    backs n (List.replicate k .amp ++ us) = .ok (k, us) := by
  induction k generalizing n with
  | zero =>
    obtain ⟨n, rfl⟩ := Nat.exists_eq_add_one.mpr hn
    rcases us with _ | ⟨t, us⟩
    case nil => rfl
    cases t with
    | amp => exact absurd rfl hus
    | _ => rfl
  | succ k ih =>
    obtain ⟨n, rfl⟩ := Nat.exists_eq_add_one.mpr (Nat.zero_lt_of_lt hn)
    rw [List.replicate_succ, List.cons_append, backs, ih (Nat.lt_of_succ_lt_succ hn)]
    rfl

/-- `"("` is not what a simple command starts with. -/
theorem simple_ne_lparen (hus : CanFollow .exec us) (ts' : List Token) :
    redirTokens rs ++ (argTokens as ++ us) ≠ .lparen :: ts' := by
  intro he
  rcases rs with _ | ⟨r, rs⟩
  case cons => cases he
  rcases as with _ | ⟨a, as⟩
  case cons => cases he
  have hus' : us = .lparen :: ts' := he
  cases hus .lparen (by rw [hus']; rfl)

/-! Each case of a derivation is one way through a function. -/

section Steps
variable {c d : Cmd (List UInt8)} {vs : List Token}

theorem block_eq (hc : line n ts = .ok (c, .rparen :: us)) (hrs : redirs n us = .ok (rs, vs)) :
    block (n + 1) (.lparen :: ts) = .ok (wrap rs c, vs) := by
  rw [block, hc]
  show (redirs n us >>= _) = _
  rw [hrs]
  rfl

theorem simple_eq (hts : ∀ ts', ts ≠ .lparen :: ts') (hrs : redirs n ts = .ok (rs, us))
    (has : args n 0 us = .ok (as, vs)) :
    exec (n + 1) ts = .ok (wrap (rs ++ as.flatMap Prod.snd) (.exec (as.map Prod.fst)), vs) := by
  rw [exec_simple hts, hrs]
  show (args n 0 us >>= _) = _
  rw [has]
  rfl

theorem pipe_last (hc : exec n ts = .ok (c, us)) (hus : .bar ∉ us.head?) : pipe (n + 1) ts = .ok (c, us) := by
  rw [pipe, hc]
  rcases us with _ | ⟨t, us⟩
  case nil => rfl
  cases t with
  | bar => exact absurd rfl hus
  | _ => rfl

theorem pipe_bar (hc : exec n ts = .ok (c, .bar :: us)) (hd : pipe n us = .ok (d, vs)) :
    pipe (n + 1) ts = .ok (.pipe c d, vs) := by
  rw [pipe, hc]
  show (pipe n us >>= _) = _
  rw [hd]
  rfl

theorem line_last (hc : pipe n ts = .ok (c, us)) (hk : backs n us = .ok (k, vs)) (hvs : .semi ∉ vs.head?) :
    line (n + 1) ts = .ok (Cmd.back^[k] c, vs) := by
  rw [line, hc]
  show (backs n us >>= _) = _
  rw [hk]
  rcases vs with _ | ⟨t, vs⟩
  case nil => rfl
  cases t with
  | semi => exact absurd rfl hvs
  | _ => rfl

theorem line_semi {vs' : List Token} (hc : pipe n ts = .ok (c, us)) (hk : backs n us = .ok (k, .semi :: vs))
    (hd : line n vs = .ok (d, vs')) : line (n + 1) ts = .ok (.list (Cmd.back^[k] c) d, vs') := by
  rw [line, hc]
  show (backs n us >>= _) = _
  rw [hk]
  show (line n vs >>= _) = _
  rw [hd]
  rfl

end Steps

theorem canFollow_cons {nt : Nonterminal} {t : Token} (ht : mayFollow nt t = true) : CanFollow nt (t :: us) := by
  intro t' ht'
  cases ht'
  exact ht

theorem CanFollow.exec (hus : CanFollow .pipe us) : CanFollow .exec us := by
  intro t ht
  have hmay := hus t ht
  cases t with
  | amp | semi | rparen => rfl
  | _ => cases hmay

theorem CanFollow.pipe (hus : CanFollow .line us) : CanFollow .pipe us := by
  intro t ht
  have hmay := hus t ht
  cases t with
  | rparen => rfl
  | _ => cases hmay

theorem canFollow_backs (hus : CanFollow .pipe us) : CanFollow .pipe (List.replicate k .amp ++ us) := by
  cases k with
  | zero => exact hus
  | succ k => exact canFollow_cons rfl

/-- **What can be derived is accepted**, and no more is taken, when what comes after it may
follow the nonterminal. -/
theorem accepted {nt : Nonterminal} {t : Cmd (List UInt8)} (h : Derives nt ts t)
    (hn : depthFor ts.length nt ≤ n) (hus : CanFollow nt us) : parse nt n (ts ++ us) = .ok (t, us) := by
  induction h generalizing n us with
  | @block ts c h rs ih =>
    have hn' : 4 * (ts ++ .rparen :: redirTokens rs).length + 6 ≤ n := hn
    rw [List.length_append, List.length_cons, length_redirTokens] at hn'
    obtain ⟨n, rfl⟩ : ∃ m, n = m + 1 + 1 := ⟨n - 2, by omega⟩
    have hline : line n (ts ++ .rparen :: (redirTokens rs ++ us)) = .ok (c, .rparen :: (redirTokens rs ++ us)) :=
      ih (by show 4 * _ + 4 ≤ n; omega) (canFollow_cons rfl)
    rw [List.cons_append, List.append_assoc, List.cons_append]
    exact block_eq hline (redirs_complete (by omega) hus.not_redir)
  | simple rs as hargs =>
    have hn' : 4 * (redirTokens rs ++ argTokens as).length + 2 ≤ n := hn
    rw [List.length_append, length_redirTokens] at hn'
    obtain ⟨n, rfl⟩ : ∃ m, n = m + 1 := ⟨n - 1, by omega⟩
    rw [List.append_assoc]
    exact simple_eq (simple_ne_lparen hus) (redirs_complete (by omega) (redir_not_mem_head hus))
      (args_complete (by omega) (by omega) hus)
  | exec h ih =>
    obtain ⟨n, rfl⟩ := Nat.exists_eq_add_one.mpr (Nat.zero_lt_of_lt hn)
    exact pipe_last (ih (Nat.le_of_succ_le_succ hn) hus.exec) fun hbar => nomatch hus _ hbar
  | @pipe ts us' c d hl hr ihl ihr =>
    have hn' : 4 * (ts ++ .bar :: us').length + 3 ≤ n := hn
    rw [List.length_append, List.length_cons] at hn'
    obtain ⟨n, rfl⟩ : ∃ m, n = m + 1 := ⟨n - 1, by omega⟩
    have hleft : exec n (ts ++ .bar :: (us' ++ us)) = .ok (c, .bar :: (us' ++ us)) :=
      ihl (by show 4 * _ + 2 ≤ n; omega) (canFollow_cons rfl)
    rw [List.append_assoc, List.cons_append]
    exact pipe_bar hleft (ihr (by show 4 * _ + 3 ≤ n; omega) hus)
  | @line ts c h k ih =>
    have hn' : 4 * (ts ++ List.replicate k Token.amp).length + 4 ≤ n := hn
    rw [List.length_append, List.length_replicate] at hn'
    obtain ⟨n, rfl⟩ : ∃ m, n = m + 1 := ⟨n - 1, by omega⟩
    rw [List.append_assoc]
    exact line_last (ih (by show 4 * _ + 3 ≤ n; omega) (canFollow_backs hus.pipe))
      (backs_complete (by omega) fun hamp => nomatch hus _ hamp) fun hsemi => nomatch hus _ hsemi
  | @list ts us' c d hl k hr ihl ihr =>
    have hn' : 4 * (ts ++ (List.replicate k Token.amp ++ Token.semi :: us')).length + 4 ≤ n := hn
    rw [List.length_append, List.length_append, List.length_replicate, List.length_cons] at hn'
    obtain ⟨n, rfl⟩ : ∃ m, n = m + 1 := ⟨n - 1, by omega⟩
    rw [List.append_assoc, List.append_assoc, List.cons_append]
    exact line_semi (ihl (by show 4 * _ + 3 ≤ n; omega) (canFollow_backs (canFollow_cons rfl)))
      (backs_complete (by omega) fun hamp => nomatch hamp) (ihr (by show 4 * _ + 4 ≤ n; omega) hus)

/-! ### The parser ends -/

/-- The result is a return or a panic. -/
inductive Ended {α : Type} : Except Stop α → Prop
  | ok (a : α) : Ended (.ok a)
  | panic (s : String) : Ended (.error (.panic s))

theorem Ended.bind {α β : Type} {y : Except Stop α} {g : α → Except Stop β} (hy : Ended y)
    (hg : ∀ a, y = .ok a → Ended (g a)) : Ended (y >>= g) := by
  cases hy with
  | ok a => exact hg a rfl
  | panic s => exact .panic s

theorem redirs_ended (hn : ts.length < n) : Ended (redirs n ts) := by
  fun_induction redirs n ts with
  | case1 => exact absurd hn (Nat.not_lt_zero _)
  | case2 n op w ts ih =>
    rw [List.length_cons, List.length_cons] at hn
    exact (ih (by omega)).bind fun a _ => .ok _
  | case3 => exact .panic _
  | case4 => exact .ok _

theorem backs_ended (hn : ts.length < n) : Ended (backs n ts) := by
  fun_induction backs n ts with
  | case1 => exact absurd hn (Nat.not_lt_zero _)
  | case2 n ts ih => exact (ih (Nat.lt_of_succ_lt_succ hn)).bind fun a _ => .ok _
  | case3 => exact .ok _

theorem args_ended (hn : ts.length < n) : Ended (args n argc ts) := by
  fun_induction args n argc ts with
  | case1 => exact absurd hn (Nat.not_lt_zero _)
  | case2 => exact .panic _
  | case3 n argc w ts hargc ih =>
    rw [List.length_cons] at hn
    refine (redirs_ended (by omega)).bind fun a ha => ?_
    have hlen := congrArg List.length (redirs_sound ha)
    rw [List.length_append] at hlen
    exact (ih a.2 (by omega)).bind fun a _ => .ok _
  | case4 => exact .panic _
  | case5 => exact .panic _
  | case6 => exact .ok _

theorem Parsed.length_le {nt : Nonterminal} {r : Except Stop (Cmd (List UInt8) × List Token)}
    {a : Cmd (List UInt8) × List Token} (h : Parsed nt ts r) (hr : r = .ok a) : a.2.length ≤ ts.length := by
  obtain ⟨vs, rfl, -⟩ := h a.1 a.2 hr
  rw [List.length_append]
  exact Nat.le_add_left ..

theorem line_ended (hpipe : ∀ ts, depthFor ts.length .pipe ≤ n → Ended (pipe n ts))
    (hline : ∀ ts, depthFor ts.length .line ≤ n → Ended (line n ts)) (hn : 4 * ts.length + 3 ≤ n) :
    Ended (line (n + 1) ts) := by
  rw [line]
  refine (hpipe ts hn).bind fun a ha => ?_
  have hlen := (parse_parsed .pipe ts).length_le ha
  refine (backs_ended (by omega)).bind fun b hb => ?_
  have hlen' := congrArg List.length (backs_sound hb)
  rw [List.length_append] at hlen'
  obtain ⟨k, us⟩ := b
  dsimp only at hlen' ⊢
  split
  case h_1 us =>
    rw [List.length_cons] at hlen'
    exact (hline us (by show 4 * _ + 4 ≤ n; omega)).bind fun c _ => .ok _
  case h_2 => exact .ok _

theorem pipe_ended (hexec : ∀ ts, depthFor ts.length .exec ≤ n → Ended (exec n ts))
    (hpipe : ∀ ts, depthFor ts.length .pipe ≤ n → Ended (pipe n ts)) (hn : 4 * ts.length + 2 ≤ n) :
    Ended (pipe (n + 1) ts) := by
  rw [pipe]
  refine (hexec ts hn).bind fun a ha => ?_
  have hlen := (parse_parsed .exec ts).length_le ha
  obtain ⟨c, us⟩ := a
  dsimp only at hlen ⊢
  split
  case h_1 us =>
    rw [List.length_cons] at hlen
    exact (hpipe us (by show 4 * _ + 3 ≤ n; omega)).bind fun c _ => .ok _
  case h_2 => exact .ok _

theorem block_ended (hline : ∀ ts, depthFor ts.length .line ≤ n → Ended (line n ts)) (hn : 4 * ts.length + 4 ≤ n) :
    Ended (block (n + 1) (.lparen :: ts)) := by
  rw [block]
  refine (hline ts hn).bind fun a ha => ?_
  have hlen := (parse_parsed .line ts).length_le ha
  obtain ⟨c, us⟩ := a
  dsimp only at hlen ⊢
  split
  case h_1 us =>
    rw [List.length_cons] at hlen
    exact (redirs_ended (by omega)).bind fun c _ => .ok _
  case h_2 => exact .panic _

theorem exec_ended (hblock : ∀ ts, 4 * ts.length + 5 ≤ n → Ended (block n (.lparen :: ts)))
    (hn : 4 * ts.length + 1 ≤ n) : Ended (exec (n + 1) ts) := by
  by_cases hparen : ∃ ts', ts = .lparen :: ts'
  case pos =>
    obtain ⟨ts', rfl⟩ := hparen
    rw [exec]
    rw [List.length_cons] at hn
    exact hblock ts' (by omega)
  case neg =>
    rw [exec_simple fun ts' he => hparen ⟨ts', he⟩]
    refine (redirs_ended (by omega)).bind fun a ha => ?_
    have hlen := congrArg List.length (redirs_sound ha)
    rw [List.length_append] at hlen
    exact (args_ended (by omega)).bind fun b _ => .ok _

/-- **The parser ends**, with a tree or a panic, when the recursion may be deep enough. -/
theorem parse_ended (nt : Nonterminal) (hn : depthFor ts.length nt ≤ n) : Ended (parse nt n ts) := by
  have hall : (∀ ts, depthFor ts.length .line ≤ n → Ended (line n ts)) ∧
      (∀ ts, depthFor ts.length .pipe ≤ n → Ended (pipe n ts)) ∧
      (∀ ts, depthFor ts.length .exec ≤ n → Ended (exec n ts)) ∧
      ∀ ts, 4 * ts.length + 5 ≤ n → Ended (block n (.lparen :: ts)) := by
    clear hn
    induction n with
    | zero => refine ⟨?_, ?_, ?_, ?_⟩ <;> exact fun ts hn => absurd hn (Nat.not_succ_le_zero _)
    | succ n ih =>
      obtain ⟨hline, hpipe, hexec, hblock⟩ := ih
      exact ⟨fun ts hn => line_ended hpipe hline (Nat.le_of_succ_le_succ hn),
        fun ts hn => pipe_ended hexec hpipe (Nat.le_of_succ_le_succ hn),
        fun ts hn => exec_ended hblock (Nat.le_of_succ_le_succ hn),
        fun ts hn => block_ended hline (Nat.le_of_succ_le_succ hn)⟩
  cases nt with
  | line => exact hall.1 ts hn
  | pipe => exact hall.2.1 ts hn
  | exec => exact hall.2.2.1 ts hn

/-- Nothing is left of a line exactly if it can be derived. -/
theorem line_eq_ok {t : Cmd (List UInt8)} (hn : depthFor ts.length .line ≤ n) :
    line n ts = .ok (t, []) ↔ Derives .line ts t := by
  constructor
  · intro h
    obtain ⟨vs, hvs, hderives⟩ := parse_parsed .line ts t [] h
    rwa [hvs, List.append_nil]
  · intro h
    have hline : line n (ts ++ []) = .ok (t, []) := accepted h hn fun t ht => nomatch ht
    rwa [List.append_nil] at hline

end Tokens

theorem Derives.unique {ts : List Token} {t t' : Cmd (List UInt8)} (h : Derives .line ts t)
    (h' : Derives .line ts t') : t = t' := by
  cases ((Tokens.line_eq_ok (Nat.le_refl _)).mpr h).symm.trans ((Tokens.line_eq_ok (Nat.le_refl _)).mpr h')
  rfl

end OS2021.User.Sh
