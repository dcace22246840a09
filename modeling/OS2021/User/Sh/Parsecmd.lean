import OS2021.User.Sh.Parse

/-! The parser implements its grammar.

`parsecmd` parses a line, checks that nothing is left of it, and ends its words. What is
returned is a tree in memory whose strings are read from the line: it is the tree of the
line in the grammar. Each word is ended outside of all words, so the others are kept. -/
namespace OS2021.User.Sh
open Lib

variable {line : List UInt8} {st : State} {ts : List Token} {n p : Nat} {t : Cmd (List UInt8)} {nt : Nonterminal}

/-! ### Depth -/

theorem depth_wrap {W : Type} (rs : List (Redir W)) (c : Cmd W) : (wrap rs c).depth = c.depth + rs.length := by
  induction rs generalizing c with
  | nil => rfl
  | cons r rs ih =>
    refine (ih _).trans ?_
    rw [Cmd.depth, List.length_cons]
    omega

theorem depth_back {W : Type} (k : Nat) (c : Cmd W) : (Cmd.back^[k] c).depth = c.depth + k := by
  induction k generalizing c with
  | zero => rfl
  | succ k ih =>
    rw [Function.iterate_succ_apply, ih, Cmd.depth]
    omega

theorem length_redirs_le (args : List (List UInt8 × List (Redir (List UInt8)))) :
    (args.flatMap Prod.snd).length ≤ (argTokens args).length := by
  induction args with
  | nil => exact le_rfl
  | cons a args ih =>
    rw [List.flatMap_cons, List.length_append, argTokens_cons, List.length_cons, List.length_append,
      Tokens.length_redirTokens]
    omega

/-- A tree is not deeper than it has tokens. -/
theorem Derives.depth_le (h : Derives nt ts t) : t.depth ≤ ts.length + 1 := by
  induction h with
  | block h rs ih =>
    rw [depth_wrap, List.length_cons, List.length_append, List.length_cons, Tokens.length_redirTokens]
    omega
  | simple rs args hargs =>
    have hle := length_redirs_le args
    rw [depth_wrap, Cmd.depth, List.length_append, List.length_append, Tokens.length_redirTokens]
    omega
  | exec h ih => exact ih
  | pipe hl hr ihl ihr =>
    rw [Cmd.depth, List.length_append, List.length_cons]
    omega
  | line h k ih =>
    rw [depth_back, List.length_append, List.length_replicate]
    omega
  | list hl k hr ihl ihr =>
    rw [Cmd.depth, depth_back, List.length_append, List.length_append, List.length_replicate, List.length_cons]
    omega

/-! ### The line -/

/-- The command at `p`, with its words read as strings, is `t`. -/
def State.Tree (st : State) (p : Nat) (t : Cmd (List UInt8)) : Prop :=
  ∃ c, IsTree st.mem st.i p c ∧ c.map (fun w => cstr st.buf w.1) = t

/-- A syntax error is reported. -/
inductive Stop.IsSyntax : Stop → Prop
  | panic (s : String) : Stop.IsSyntax (.panic s)
  | leftovers (s : List UInt8) : Stop.IsSyntax (.leftovers s)

theorem State.Tree.unique {t' : Cmd (List UInt8)} (h : st.Tree p t) (h' : st.Tree p t') : t = t' := by
  obtain ⟨c, hc, rfl⟩ := h
  obtain ⟨c', hc', rfl⟩ := h'
  rw [hc.unique hc']

theorem strlen_eq (hzero : ∀ c ∈ line, c ≠ 0) : strlen line = line.length := by
  rw [strlen, List.takeWhile_eq_self_iff.mpr fun c hc => decide_eq_true (hzero c hc)]

/-- The tree at `p` has its words in the line, one after the other, and a NUL is after each. -/
structure State.Ended (line : List UInt8) (st : State) (p : Nat) (c : Cmd Span) : Prop where
  tree : IsTree st.mem st.i p c
  words : ∀ w ∈ c.words, IsWord line w ∧ w.1 < w.2
  order : c.InOrder
  buf : st.buf = nuls (c.words.map Prod.snd) line

theorem State.Stored.ended {lo hi : Nat} (h : st.Stored line lo hi p t) (hbuf : st.buf = line) (hn : t.depth ≤ n) :
    ∃ c st', (nulterminate n p).run st = .ok () st' ∧ st'.Ended line p c ∧ c.map (text line) = t := by
  obtain ⟨c, hc, hwords, horder, rfl⟩ := h
  rw [Cmd.depth_map] at hn
  exact ⟨c, _, nulterminate_run hc rfl hn, ⟨hc, fun w hw => ⟨(hwords w hw).1, (hwords w hw).2.2.1⟩, horder,
    by rw [hbuf]⟩, rfl⟩

/-- Each word is the string that starts where it does. -/
theorem State.Ended.cstr {c : Cmd Span} (h : st.Ended line p c) (hzero : ∀ c ∈ line, c ≠ 0) {w : Span}
    (hw : w ∈ c.words) : cstr st.buf w.1 = text line w := by
  rw [h.buf]
  refine cstr_nuls (h.words w hw).1 (List.mem_map_of_mem hw) hzero fun e he => ?_
  obtain ⟨w', hw', rfl⟩ := List.mem_map.mp he
  exact (h.words w' hw').1.stop

/-- Whatever the tokens of the line are, `parsecmd` returns their tree or reports an error,
and then they have none. -/
theorem parsecmd_run (hzero : ∀ c ∈ line, c ≠ 0) (hlex : Lexes line ts) (hn : 4 * line.length + 4 ≤ n)
    (hmem : ∀ st', (parsecmd n line).run st ≠ .error .memoryUsedOut st') :
    (∃ c p st', Derives .line ts (c.map (text line)) ∧ (parsecmd n line).run st = .ok p st' ∧ st'.Ended line p c) ∨
      ∃ e st', (parsecmd n line).run st = .error e st' ∧ e.IsSyntax ∧ ∀ t, ¬ Derives .line ts t := by
  have hlen := hlex.length_le
  have hdepth : Tokens.depthFor ts.length .line ≤ n := by
    show 4 * ts.length + 4 ≤ n
    omega
  obtain ⟨st0, hst0⟩ : ∃ st0 : State, st0 = {st with buf := line, s := 0} := ⟨_, rfl⟩
  have hreads : st0.Reads line ts := by
    rw [hst0]
    exact ⟨rfl, Nat.zero_le _, hlex⟩
  rw [parsecmd, bind_ok (modify_run ..), strlen_eq hzero, ← hst0] at hmem ⊢
  dsimp only at hmem ⊢
  have hsim := parseline_simulates hzero (n := n) st0 ts hreads
  rcases hsim.cases fun e s he hout => hmem s (hout ▸ bind_error he) with
    ⟨⟨t, us⟩, p, st1, hline, hrun, -, h1, hstored⟩ | ⟨e, st1, hline, hrun⟩
  · rw [bind_ok hrun]
    cases us with
    | nil =>
      have hderives := (Tokens.line_eq_ok hdepth).mp hline
      obtain ⟨st2, hpeek, hm2, hend⟩ := peek_end hzero h1 []
      have hbuf2 : st2.buf = line := by
        obtain ⟨s, -, rfl⟩ := hm2
        exact h1.buf
      have hdeep : t.depth ≤ n := by
        have hle := hderives.depth_le
        omega
      obtain ⟨c, st3, hnul, hended, rfl⟩ := (hstored.grows hm2.grows).ended hbuf2 hdeep
      refine .inl ⟨c, p, st3, hderives, ?_, hended⟩
      rw [bind_ok hpeek, bind_ok (get_run _), if_neg (not_not.mpr hend), bind_ok hnul]
      rfl
    | cons t0 us =>
      obtain ⟨st2, hpeek, -, h2⟩ := peek_run h1 hzero [] fun c hc => absurd hc List.not_mem_nil
      have hleft : st2.s ≠ line.length := fun hend => by
        have hrest := h2.rest
        rw [hend, List.drop_length] at hrest
        exact Nat.not_succ_le_zero _ hrest.length_le
      refine .inr ⟨.leftovers ((st2.buf.drop st2.s).takeWhile (· ≠ 0)), st2, ?_, .leftovers _, fun t' hderives => ?_⟩
      · rw [bind_ok hpeek, bind_ok (get_run _), if_pos hleft]
        rfl
      · cases ((Tokens.line_eq_ok hdepth).mpr hderives).symm.trans hline
  · refine .inr ⟨e, st1, bind_error hrun, ?_, fun t hderives => ?_⟩
    · have hended := Tokens.parse_ended .line hdepth
      rw [show Tokens.parse .line n ts = .error e from hline] at hended
      cases hended
      exact .panic _
    · cases ((Tokens.line_eq_ok hdepth).mpr hderives).symm.trans hline

theorem pipe_returns : returnedWith (fun _ _ => true)
    ((parsecmd 44 [97, 32, 62, 98, 32, 124, 32, 99, 32, 38]).run ⟨[], 0, 0, fun _ => none⟩) = true := by
  decide +kernel

/-- **The parser implements its grammar.** For a line without a NUL for which memory suffices,
`parsecmd` ends, and reports a syntax error or returns a tree. It returns a tree exactly if
the line is derived from the grammar with that tree, and there is at most one. -/
theorem parsecmd_parses (n : Nat) (line : List UInt8) (st : State) (hzero : ∀ c ∈ line, c ≠ 0)
    (hn : 4 * line.length + 4 ≤ n) (hmem : ∀ st', (parsecmd n line).run st ≠ .error .memoryUsedOut st') :
    ((∃ e st', (parsecmd n line).run st = .error e st' ∧ e.IsSyntax) ∨
      ∃ p st' t, (parsecmd n line).run st = .ok p st' ∧ st'.Tree p t) ∧
    (∀ t, (∃ p st', (parsecmd n line).run st = .ok p st' ∧ st'.Tree p t) ↔ Parses line t) ∧
    ∀ t t', Parses line t → Parses line t' → t = t' := by
  have hread : ∀ {p c} {st' : State}, st'.Ended line p c → st'.Tree p (c.map (text line)) := fun hended =>
    ⟨_, hended.tree, Cmd.map_congr fun w hw => hended.cstr hzero hw⟩
  have hreturns : ∀ t, Parses line t → ∃ p st', (parsecmd n line).run st = .ok p st' ∧ st'.Tree p t := by
    intro t hparses
    obtain ⟨ts, hlex, hderives⟩ := hparses
    rcases parsecmd_run hzero hlex hn hmem with ⟨c, p, st', hderives', hrun, hended⟩ | ⟨e, st', -, -, hnone⟩
    · exact ⟨p, st', hrun, hderives.unique hderives' ▸ hread hended⟩
    · exact absurd hderives (hnone t)
  obtain ⟨ts, hlex⟩ := exists_lexes line
  refine ⟨?_, fun t => ⟨fun hreturned => ?_, hreturns t⟩, fun t t' ht ht' => ?_⟩
  · rcases parsecmd_run hzero hlex hn hmem with ⟨c, p, st', -, hrun, hended⟩ | ⟨e, st', hrun, hsyntax, -⟩
    · exact .inr ⟨p, st', _, hrun, hread hended⟩
    · exact .inl ⟨e, st', hrun, hsyntax⟩
  · obtain ⟨p, st', hrun, htree⟩ := hreturned
    rcases parsecmd_run hzero hlex hn hmem with ⟨c, p', st'', hderives, hrun', hended⟩ | ⟨e, st'', hrun', -⟩
    · cases hrun.symm.trans hrun'
      exact ⟨ts, hlex, htree.unique (hread hended) ▸ hderives⟩
    · cases hrun.symm.trans hrun'
  · obtain ⟨p, st', hrun, htree⟩ := hreturns t ht
    obtain ⟨p', st'', hrun', htree'⟩ := hreturns t' ht'
    cases hrun.symm.trans hrun'
    exact htree.unique htree'

/-- The line `a >b | c &`. -/
theorem parsecmd_parses_pipe : ∃ p st' t,
    (parsecmd 44 [97, 32, 62, 98, 32, 124, 32, 99, 32, 38]).run ⟨[], 0, 0, fun _ => none⟩ = .ok p st' ∧ st'.Tree p t ∧
      Parses [97, 32, 62, 98, 32, 124, 32, 99, 32, 38] t := by
  obtain ⟨p, st', hrun, -⟩ := exists_of_returnedWith pipe_returns
  obtain ⟨hended, hiff, -⟩ := parsecmd_parses 44 [97, 32, 62, 98, 32, 124, 32, 99, 32, 38] ⟨[], 0, 0, fun _ => none⟩
    (by decide +kernel) (by decide) fun st'' he => nomatch hrun.symm.trans he
  rcases hended with ⟨e, st'', he, -⟩ | ⟨p', st'', t, hrun', htree⟩
  · cases hrun.symm.trans he
  · exact ⟨p', st'', t, hrun', htree, (hiff t).mp ⟨p', st'', hrun', htree⟩⟩

/-! ### The words -/

/-- **Words are ended in place.** In the tree of a line that `parsecmd` accepts all strings lie in the
line, apart from each other and in the order of the line. `nulterminate` writes to one place after each
word, whatever stands behind the line, and none of these places is in a word, so all the words are
strings of the tree afterwards. Every array of arguments ends in a null pointer. -/
theorem parsecmd_ends_words (n : Nat) (line : List UInt8) (st : State) (p : Nat) (st' : State)
    (hzero : ∀ c ∈ line, c ≠ 0) (hn : 4 * line.length + 4 ≤ n) (hrun : (parsecmd n line).run st = .ok p st') :
    ∃ c, IsTree st'.mem st'.i p c ∧ (∀ w ∈ c.words, w.1 < w.2 ∧ w.2 ≤ strlen line) ∧
      c.words.Pairwise Apart ∧ c.InOrder ∧
      (∀ rest, (nulterminate n p).run {st' with buf := line ++ 0 :: rest} =
        .ok () {st' with buf := nuls (c.words.map Prod.snd) (line ++ 0 :: rest)}) ∧
      st'.buf = nuls (c.words.map Prod.snd) line ∧
      (∀ e ∈ c.words.map Prod.snd, e ≤ strlen line ∧ ∀ w ∈ c.words, ¬ (w.1 ≤ e ∧ e < w.2)) ∧
      (∀ w ∈ c.words, cstr st'.buf w.1 = text line w) ∧
      ∀ q argv eargv, Below st'.mem p q → st'.mem q = some (.execcmd argv eargv) →
        argv.length = maxargs ∧ none ∈ argv := by
  obtain ⟨ts, hlex⟩ := exists_lexes line
  have hmem : ∀ st'', (parsecmd n line).run st ≠ .error .memoryUsedOut st'' := fun _ he => nomatch hrun.symm.trans he
  rcases parsecmd_run hzero hlex hn hmem with
    ⟨c, p', st'', hderives, hrun', hended⟩ | ⟨e, st'', hrun', -⟩
  case inr => cases hrun.symm.trans hrun'
  cases hrun.symm.trans hrun'
  have hdepth : c.depth ≤ n := by
    have hle := hderives.depth_le
    have hlen := hlex.length_le
    rw [Cmd.depth_map] at hle
    omega
  rw [strlen_eq hzero]
  refine ⟨c, hended.tree, fun w hw => ⟨(hended.words w hw).2, (hended.words w hw).1.le_length⟩, hended.order.apart,
    hended.order, fun rest => nulterminate_run hended.tree rfl hdepth, hended.buf, fun e he => ?_,
    fun w hw => hended.cstr hzero hw, fun q argv eargv hq hnode => ?_⟩
  · obtain ⟨w, hw, rfl⟩ := List.mem_map.mp he
    have hisword := (hended.words w hw).1
    exact ⟨hisword.le_length, fun v hv => (hended.words v hv).1.not_mem hisword.stop⟩
  · obtain ⟨d, hd⟩ := hended.tree.of_below hq
    exact hd.argv hnode

/-- The line `a >b | c &`. -/
theorem parsecmd_ends_words_pipe : ∃ p st' c,
    (parsecmd 44 [97, 32, 62, 98, 32, 124, 32, 99, 32, 38]).run ⟨[], 0, 0, fun _ => none⟩ = .ok p st' ∧
      IsTree st'.mem st'.i p c ∧ c.words.Pairwise Apart ∧
      ∀ w ∈ c.words, cstr st'.buf w.1 = text [97, 32, 62, 98, 32, 124, 32, 99, 32, 38] w := by
  obtain ⟨p, st', hrun, -⟩ := exists_of_returnedWith pipe_returns
  obtain ⟨c, htree, -, hapart, -, -, -, -, hstrings, -⟩ :=
    parsecmd_ends_words 44 _ _ p st' (by decide +kernel) (by decide) hrun
  exact ⟨p, st', c, hrun, htree, hapart, hstrings⟩

end OS2021.User.Sh
