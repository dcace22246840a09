import Mathlib.Data.List.TakeWhile
import OS2021.User.Sh.Grammar

/-! `gettoken` and `peek` take the tokens of the line.

The cursor stands for the tokens of the characters after it. Blanks before a token are
skipped by whoever looks at it first, so they do not matter: `peek` leaves the tokens as
they are, and `gettoken` takes the first one. -/
namespace OS2021.User.Sh
open Lib

/-! ### Codes -/

/-- What `gettoken` returns. -/
def Token.code : Token → UInt8
  | .word _ => byte 'a'
  | .redir .lt => byte '<'
  | .redir .gt => byte '>'
  | .redir .gtgt => byte '+'
  | .bar => byte '|'
  | .amp => byte '&'
  | .semi => byte ';'
  | .lparen => byte '('
  | .rparen => byte ')'

/-- What `peek` looks at, for a symbol. -/
def Token.symbol : Token → Option UInt8
  | .word _ => none
  | .redir .gtgt => some (byte '>')
  | t => some t.code

def codeOf : List Token → UInt8
  | [] => 0
  | t :: _ => t.code

/-- What `peek` returns. -/
def peeks (toks : List UInt8) : List Token → Bool
  | [] => false
  | t :: _ =>
    match t.symbol with
    | some c => c ∈ toks
    | none => false

/-! ### Words of the line -/

/-- Where a string starts and ends. -/
abbrev Span := Nat × Nat

def text (line : List UInt8) (w : Span) : List UInt8 := (line.drop w.1).take (w.2 - w.1)

/-- The span is of a run of word characters that cannot be continued. -/
structure IsWord (line : List UInt8) (w : Span) : Prop where
  le : w.1 ≤ w.2
  le_length : w.2 ≤ line.length
  chars : ∀ c ∈ text line w, IsWordChar c
  stop : ∀ c ∈ (line.drop w.2).head?, ¬ IsWordChar c

/-- The span is between two places, and not empty. -/
def Within (lo hi : Nat) (w : Span) : Prop := lo ≤ w.1 ∧ w.1 < w.2 ∧ w.2 ≤ hi

/-! ### Characters -/

variable {line cs : List UInt8} {ts : List Token} {q s : Nat} {c : UInt8} {t : Token}

theorem strchr_iff (hc : c ≠ 0) : strchr cs c = true ↔ c ∈ cs := by
  rw [strchr, decide_eq_true_iff, or_iff_right hc]

theorem charAt_eq (h : line.drop s = c :: cs) : charAt line s = c := by
  rw [charAt, List.getD_eq_getElem?_getD, ← List.head?_drop, h]
  rfl

theorem charAt_end (h : line.drop s = []) : charAt line s = 0 := by
  rw [charAt, List.getD_eq_getElem?_getD, ← List.head?_drop, h]
  rfl

theorem drop_succ (h : line.drop s = c :: cs) : line.drop (s + 1) = cs := by
  rw [← List.drop_drop, h]
  rfl

theorem succ_le_length (h : line.drop s = c :: cs) : s + 1 ≤ line.length := by
  have hlen := congrArg List.length h
  rw [List.length_drop, List.length_cons] at hlen
  omega

theorem drop_skip (p : UInt8 → Bool) (line : List UInt8) (s : Nat) :
    line.drop (skip p line line.length s) = (line.drop s).dropWhile p := by
  rw [skip, List.take_length, ← List.drop_drop]
  calc (line.drop s).drop ((line.drop s).takeWhile p).length
      = ((line.drop s).takeWhile p ++ (line.drop s).dropWhile p).drop ((line.drop s).takeWhile p).length := by
        rw [List.takeWhile_append_dropWhile]
    _ = (line.drop s).dropWhile p := List.drop_left ..

/-- The first character of a token that is not a word. -/
theorem IsSymbol.spec (h : IsSymbol c t) : c = t.code ∧ t.symbol = some c ∧ c ∉ whitespace ∧
    c ∈ [byte '|', byte '(', byte ')', byte ';', byte '&', byte '<'] := by
  cases h <;> decide

/-! ### Blanks -/

theorem dropWhile_blank (hc : c ∉ whitespace) (hzero : c ≠ 0) :
    (c :: cs).dropWhile (strchr whitespace) = c :: cs :=
  List.dropWhile_cons_of_neg (mt (strchr_iff hzero).mp hc)

theorem Lexes.skipBlanks (h : Lexes cs ts) (hzero : ∀ c ∈ cs, c ≠ 0) :
    Lexes (cs.dropWhile (strchr whitespace)) ts := by
  induction h with
  | nil => exact .nil
  | blank hc h ih =>
    rw [List.forall_mem_cons] at hzero
    rw [List.dropWhile_cons_of_pos ((strchr_iff hzero.1).mpr hc)]
    exact ih hzero.2
  | symbol hc h =>
    rw [dropWhile_blank hc.spec.2.2.1 (hzero _ (List.mem_cons_self ..))]
    exact .symbol hc h
  | gtgt h =>
    rw [dropWhile_blank (by decide) (by decide)]
    exact .gtgt h
  | gt hmax h =>
    rw [dropWhile_blank (by decide) (by decide)]
    exact .gt hmax h
  | @word w cs ts hne hw hmax h =>
    obtain ⟨a, w, rfl⟩ := List.exists_cons_of_ne_nil hne
    rw [List.cons_append, dropWhile_blank (hw a (List.mem_cons_self ..)).1 (hzero a (List.mem_cons_self ..))]
    exact .word hne hw hmax h

/-- Where the blanks end. -/
theorem head_skipBlanks (hc : c ∈ (cs.dropWhile (strchr whitespace)).head?) (hzero : ∀ c ∈ cs, c ≠ 0) :
    c ∉ whitespace := by
  have hnot := List.head?_dropWhile_not (strchr whitespace) cs
  rw [Option.mem_def] at hc
  rw [hc] at hnot
  have hmem : c ∈ cs := (List.dropWhile_sublist _).mem (List.mem_of_mem_head? hc)
  exact fun hblank => absurd ((strchr_iff (hzero c hmem)).mpr hblank) (Bool.eq_false_iff.mp hnot)

/-! ### One token -/

/-- The character that ends a word's run is not one of its characters. -/
theorem takeWhile_word {w : List UInt8} (hw : ∀ c ∈ w, IsWordChar c) (hmax : ∀ c ∈ cs.head?, ¬ IsWordChar c)
    (hzero : ∀ c ∈ w ++ cs, c ≠ 0) :
    (w ++ cs).takeWhile (fun c => !strchr whitespace c && !strchr symbols c) = w := by
  have hchar : ∀ c, c ≠ 0 → ((!strchr whitespace c && !strchr symbols c) = true ↔ IsWordChar c) := fun c hc => by
    rw [Bool.and_eq_true, Bool.not_eq_true', Bool.not_eq_true', ← Bool.not_eq_true, ← Bool.not_eq_true, strchr_iff hc,
      strchr_iff hc]
    rfl
  rw [List.takeWhile_append_of_pos fun c hc => (hchar c (hzero c (List.mem_append_left _ hc))).mpr (hw c hc)]
  cases cs with
  | nil => rw [List.takeWhile_nil, List.append_nil]
  | cons c cs =>
    have hstop := hmax c rfl
    rw [List.takeWhile_cons_of_neg, List.append_nil]
    rwa [hchar c (hzero c (List.mem_append_right _ (List.mem_cons_self ..)))]

section Scan
variable {w : List UInt8} (hline : line.drop q = w ++ cs) (hne : w ≠ []) (hw : ∀ c ∈ w, IsWordChar c)
  (hmax : ∀ c ∈ cs.head?, ¬ IsWordChar c)
include hline

theorem text_word : text line (q, q + w.length) = w := by
  rw [text, Nat.add_sub_cancel_left, hline, List.take_left]

theorem drop_word : line.drop (q + w.length) = cs := by
  rw [← List.drop_drop, hline, List.drop_left]

theorem word_le_length (hq : q ≤ line.length) : q + w.length ≤ line.length := by
  have hlen := congrArg List.length hline
  rw [List.length_drop, List.length_append] at hlen
  omega

include hw hmax

theorem isWord_word (hq : q ≤ line.length) : IsWord line (q, q + w.length) := by
  refine ⟨Nat.le_add_right .., word_le_length hline hq, ?_, ?_⟩
  · rw [text_word hline]
    exact hw
  · rw [show line.drop (q, q + w.length).2 = cs from drop_word hline]
    exact hmax

include hne

theorem scan_word (hzero : ∀ c ∈ w ++ cs, c ≠ 0) : scan line line.length q = (byte 'a', q + w.length) := by
  obtain ⟨a, w', rfl⟩ := List.exists_cons_of_ne_nil hne
  have ha := hw a (List.mem_cons_self ..)
  have hsub : ∀ c ∈ [byte '|', byte '(', byte ')', byte ';', byte '&', byte '<'], c ∈ symbols := by decide +kernel
  have hgt : a ≠ byte '>' := fun he => ha.2 (he ▸ by decide)
  have hchar : charAt line q = a := charAt_eq hline
  rw [scan, hchar, if_neg (hzero a (List.mem_cons_self ..)), if_neg fun hmem => ha.2 (hsub a hmem), if_neg hgt, skip,
    List.take_length, hline, takeWhile_word hw hmax hzero]

end Scan

/-- **One token is scanned.** The code is that of the first token of what stands at `q`, and
after its end are the other tokens. -/
theorem scan_token (h : Lexes (line.drop q) ts) (hq : q ≤ line.length) (hzero : ∀ c ∈ line, c ≠ 0)
    (hblank : ∀ c ∈ (line.drop q).head?, c ∉ whitespace) :
    ∃ e, scan line line.length q = (codeOf ts, e) ∧ e ≤ line.length ∧ Lexes (line.drop e) ts.tail ∧
      q ≤ e ∧ ∀ w, .word w ∈ ts.head? → IsWord line (q, e) ∧ text line (q, e) = w ∧ q < e := by
  have hzero' : ∀ c ∈ line.drop q, c ≠ 0 := fun c hc => hzero c (List.mem_of_mem_drop hc)
  generalize hline : line.drop q = cs at h hblank hzero'
  cases h with
  | nil =>
    refine ⟨q, ?_, hq, ?_, le_rfl, fun w hw => nomatch hw⟩
    · rw [scan, charAt_end hline, if_pos rfl]
      rfl
    · rw [hline]
      exact .nil
  | blank hc h => exact absurd hc (hblank _ rfl)
  | @symbol c t cs ts hc h =>
    obtain ⟨hcode, -, -, hmem⟩ := hc.spec
    refine ⟨q + 1, ?_, succ_le_length hline, drop_succ hline ▸ h, Nat.le_add_right .., fun w hw => ?_⟩
    · rw [scan, charAt_eq hline, if_neg (hzero' c (List.mem_cons_self ..)), if_pos hmem]
      exact congrArg (·, q + 1) hcode
    · cases hw
      cases hc
  | @gtgt cs ts h =>
    have hnext := drop_succ hline
    refine ⟨q + 2, ?_, succ_le_length hnext, drop_succ hnext ▸ h, Nat.le_add_right .., fun w hw => nomatch hw⟩
    rw [scan, charAt_eq hline, if_neg (by decide), if_neg (by decide), if_pos rfl, charAt_eq hnext, if_pos rfl]
    rfl
  | @gt cs ts hmax h =>
    have hnext : charAt line (q + 1) ≠ byte '>' := by
      have hdrop := drop_succ hline
      cases cs with
      | nil =>
        rw [charAt_end hdrop]
        decide
      | cons c cs =>
        rw [charAt_eq hdrop]
        exact fun he => hmax (he ▸ rfl)
    refine ⟨q + 1, ?_, succ_le_length hline, drop_succ hline ▸ h, Nat.le_add_right .., fun w hw => nomatch hw⟩
    rw [scan, charAt_eq hline, if_neg (by decide), if_neg (by decide), if_pos rfl, if_neg hnext]
    rfl
  | @word w cs ts hne hw hmax h =>
    refine ⟨q + w.length, scan_word hline hne hw hmax hzero', word_le_length hline hq, drop_word hline ▸ h,
      Nat.le_add_right .., fun w' hw' => ?_⟩
    cases hw'
    exact ⟨isWord_word hline hw hmax hq, text_word hline, Nat.lt_add_of_pos_right (List.length_pos_iff.mpr hne)⟩

theorem Lexes.eq_nil (h : Lexes cs []) (hblank : ∀ c ∈ cs.head?, c ∉ whitespace) : cs = [] := by
  cases h with
  | nil => rfl
  | blank hc => exact absurd hc (hblank _ rfl)

/-- What `peek` looks at is the symbol that a token is or starts with. -/
theorem charAt_token {toks : List UInt8} (h : Lexes (line.drop q) (t :: ts)) (hzero : ∀ c ∈ line, c ≠ 0)
    (hblank : ∀ c ∈ (line.drop q).head?, c ∉ whitespace) (htoks : ∀ c ∈ toks, c ∈ symbols) :
    charAt line q ≠ 0 ∧ (charAt line q ∈ toks ↔ peeks toks (t :: ts) = true) := by
  have hzero' : ∀ c ∈ line.drop q, c ≠ 0 := fun c hc => hzero c (List.mem_of_mem_drop hc)
  generalize hline : line.drop q = cs at h hblank hzero'
  cases h with
  | blank hc h => exact absurd hc (hblank _ rfl)
  | @symbol c _ cs _ hc h =>
    rw [charAt_eq hline, peeks, hc.spec.2.1]
    exact ⟨hzero' c (List.mem_cons_self ..), decide_eq_true_iff.symm⟩
  | gtgt h | gt hmax h =>
    rw [charAt_eq hline]
    exact ⟨by decide, decide_eq_true_iff.symm⟩
  | @word w cs _ hne hw hmax h =>
    obtain ⟨a, w, rfl⟩ := List.exists_cons_of_ne_nil hne
    have hchar : charAt line q = a := charAt_eq hline
    rw [hchar]
    refine ⟨hzero' a (List.mem_cons_self ..), fun hmem => ?_, fun hany => nomatch hany⟩
    exact absurd (htoks a hmem) (hw a (List.mem_cons_self ..)).2

/-! ### Every string has tokens -/

theorem exists_isSymbol (hc : c ∈ symbols) (hgt : c ≠ byte '>') : ∃ t, IsSymbol c t := by
  simp only [symbols, List.mem_cons, List.not_mem_nil, or_false] at hc
  rcases hc with rfl | rfl | rfl | rfl | rfl | rfl | rfl
  · exact ⟨_, .lt⟩
  · exact ⟨_, .bar⟩
  · exact absurd rfl hgt
  · exact ⟨_, .amp⟩
  · exact ⟨_, .semi⟩
  · exact ⟨_, .lparen⟩
  · exact ⟨_, .rparen⟩

/-- The longest word at the front. -/
theorem exists_word (hc : IsWordChar c) (cs : List UInt8) : ∃ w rest, c :: cs = w ++ rest ∧ w ≠ [] ∧
    (∀ c ∈ w, IsWordChar c) ∧ (∀ c ∈ rest.head?, ¬ IsWordChar c) ∧ rest.length ≤ cs.length := by
  refine ⟨c :: cs.takeWhile (IsWordChar ·), cs.dropWhile (IsWordChar ·), ?_, List.cons_ne_nil _ _, ?_, fun d hd => ?_,
    (List.dropWhile_sublist _).length_le⟩
  · rw [List.cons_append, List.takeWhile_append_dropWhile]
  · refine List.forall_mem_cons.mpr ⟨hc, fun d hd => ?_⟩
    have htake := List.mem_takeWhile_imp hd
    exact of_decide_eq_true htake
  · have hnot := List.head?_dropWhile_not (IsWordChar ·) cs
    rw [Option.mem_def] at hd
    rw [hd] at hnot
    exact of_decide_eq_false hnot

theorem exists_lexes (cs : List UInt8) : ∃ ts, Lexes cs ts := by
  induction hlen : cs.length using Nat.strong_induction_on generalizing cs with
  | _ len ih =>
    subst hlen
    rcases cs with _ | ⟨c, cs⟩
    case nil => exact ⟨[], .nil⟩
    obtain ⟨ts, hts⟩ := ih cs.length (Nat.lt_succ_self _) cs rfl
    by_cases hblank : c ∈ whitespace
    case pos => exact ⟨ts, .blank hblank hts⟩
    by_cases hgt : c = byte '>'
    case pos =>
      subst hgt
      by_cases hmax : byte '>' ∈ cs.head?
      case neg => exact ⟨_, .gt hmax hts⟩
      obtain ⟨cs, rfl⟩ := List.head?_eq_some_iff.mp hmax
      obtain ⟨ts, hts⟩ := ih cs.length (Nat.lt_succ_of_lt (Nat.lt_succ_self _)) cs rfl
      exact ⟨_, .gtgt hts⟩
    by_cases hsymbol : c ∈ symbols
    case pos =>
      obtain ⟨t, ht⟩ := exists_isSymbol hsymbol hgt
      exact ⟨t :: ts, .symbol ht hts⟩
    case neg =>
      obtain ⟨w, rest, hsplit, hne, hw, hmax, hlen⟩ := exists_word ⟨hblank, hsymbol⟩ cs
      obtain ⟨ts, hts⟩ := ih rest.length (Nat.lt_succ_of_le hlen) rest rfl
      rw [hsplit]
      exact ⟨_, .word hne hw hmax hts⟩

theorem Lexes.length_le (h : Lexes cs ts) : ts.length ≤ cs.length := by
  induction h with
  | nil => exact le_rfl
  | blank hc h ih => exact Nat.le_succ_of_le ih
  | symbol hc h ih | gt hmax h ih => exact Nat.succ_le_succ ih
  | gtgt h ih => exact Nat.succ_le_succ (Nat.le_succ_of_le ih)
  | word hne hw hmax h ih =>
    have hpos := List.length_pos_iff.mpr hne
    rw [List.length_append, List.length_cons]
    omega

/-! ### The cursor -/

/-- The tokens `ts` of the line are left. -/
structure State.Reads (line : List UInt8) (ts : List Token) (st : State) : Prop where
  buf : st.buf = line
  le : st.s ≤ line.length
  rest : Lexes (line.drop st.s) ts

/-- Only the cursor has moved, and not back. -/
def State.Moved (st st' : State) : Prop := ∃ s, st.s ≤ s ∧ st' = {st with s := s}

variable {st : State}

theorem skip_le (p : UInt8 → Bool) (hs : s ≤ line.length) : skip p line line.length s ≤ line.length := by
  have hlen := (List.takeWhile_sublist p (l := line.drop s)).length_le
  rw [List.length_drop] at hlen
  rw [skip, List.take_length]
  omega

section Cursor
variable (h : st.Reads line ts) (hzero : ∀ c ∈ line, c ≠ 0)
include h hzero

theorem State.Reads.skip : ∃ s, s = skip (strchr whitespace) line line.length st.s ∧ st.s ≤ s ∧ s ≤ line.length ∧
    Lexes (line.drop s) ts ∧ ∀ c ∈ (line.drop s).head?, c ∉ whitespace := by
  have hrest : ∀ c ∈ line.drop st.s, c ≠ 0 := fun c hc => hzero c (List.mem_of_mem_drop hc)
  refine ⟨_, rfl, Nat.le_add_right .., skip_le _ h.le, ?_, ?_⟩
  · rw [drop_skip]
    exact h.rest.skipBlanks hrest
  · rw [drop_skip]
    exact fun c hc => head_skipBlanks hc hrest

/-- **`peek` looks at the first token**, and takes none. -/
theorem peek_run (toks : List UInt8) (htoks : ∀ c ∈ toks, c ∈ symbols) :
    ∃ st', (peek line.length toks).run st = .ok (peeks toks ts) st' ∧ st.Moved st' ∧ st'.Reads line ts := by
  obtain ⟨s, hs, hmove, hle, hlexes, hblank⟩ := h.skip hzero
  have hvalue : decide (charAt line s ≠ 0 ∧ strchr toks (charAt line s) = true) = peeks toks ts := by
    cases ts with
    | nil =>
      rw [charAt_end (hlexes.eq_nil hblank)]
      rfl
    | cons t ts =>
      obtain ⟨hne, hmem⟩ := charAt_token hlexes hzero hblank htoks
      rw [Bool.eq_iff_iff, decide_eq_true_iff, and_iff_right hne, strchr_iff hne]
      exact hmem
  refine ⟨{st with s := s}, ?_, ⟨s, hmove, rfl⟩, h.buf, hle, hlexes⟩
  rw [peek, bind_ok (get_run _)]
  dsimp only
  rw [h.buf, ← hs, hvalue]
  rfl

omit h in
/-- At the end of the line there is nothing but blanks. -/
theorem peek_end (h : st.Reads line []) (toks : List UInt8) :
    ∃ st', (peek line.length toks).run st = .ok false st' ∧ st.Moved st' ∧ st'.s = line.length := by
  obtain ⟨s, hs, hmove, hle, hlexes, hblank⟩ := h.skip hzero
  have hnil := hlexes.eq_nil hblank
  refine ⟨{st with s := s}, ?_, ⟨s, hmove, rfl⟩, le_antisymm hle (List.drop_eq_nil_iff.mp hnil)⟩
  rw [peek, bind_ok (get_run _)]
  dsimp only
  rw [h.buf, ← hs, charAt_end hnil]
  rfl

/-- **`gettoken` takes the first token**: it returns its code, and where it is if it is a word. -/
theorem gettoken_run : ∃ q e st', (gettoken line.length).run st = .ok (codeOf ts, q, e) st' ∧ st.Moved st' ∧
    st'.Reads line ts.tail ∧
    ∀ w, .word w ∈ ts.head? → IsWord line (q, e) ∧ text line (q, e) = w ∧ Within st.s st'.s (q, e) := by
  obtain ⟨q, hq, hmove, hle, hlexes, hblank⟩ := h.skip hzero
  obtain ⟨e, hscan, he, hrest, hqe, hword⟩ := scan_token hlexes hle hzero hblank
  have hafter : State.Reads line ts.tail {st with s := e} := ⟨h.buf, he, hrest⟩
  obtain ⟨s, hs, hmove', hle', hlexes', -⟩ := hafter.skip hzero
  refine ⟨q, e, {st with s := s}, ?_, ⟨s, (hmove.trans hqe).trans hmove', rfl⟩, ⟨h.buf, hle', hlexes'⟩,
    fun w hw => ?_⟩
  · rw [gettoken, bind_ok (get_run _)]
    dsimp only at hs ⊢
    rw [h.buf, ← hq, hscan]
    dsimp only
    rw [← hs]
    rfl
  · obtain ⟨hisword, htext, hlt⟩ := hword w hw
    exact ⟨hisword, htext, hmove, hlt, hmove'⟩

omit h in
theorem gettoken_cons (h : st.Reads line (t :: ts)) :
    ∃ q e st', (gettoken line.length).run st = .ok (t.code, q, e) st' ∧ st.Moved st' ∧ st'.Reads line ts := by
  obtain ⟨q, e, st', hrun, hmoved, hreads, -⟩ := gettoken_run h hzero
  exact ⟨q, e, st', hrun, hmoved, hreads⟩

end Cursor

end OS2021.User.Sh
