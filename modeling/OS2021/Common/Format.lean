import OS2021.Common.CString
import OS2021.Lib.Numeral

/-! Formatted output (`common/format.c`).

`put_char` is any function of the context and a character, so what a call emits is
the context after all its characters. An access outside `_print_int`'s buffer or
its table of digits, and an argument of another type than a directive asks for,
have no result. -/
namespace OS2021.Common
open Lib Function

variable {σ : Type}

/-- A `char`. -/
abbrev byte (c : Char) : UInt8 := c.toNat.toUInt8

/-! ### Printing a number -/

/-- `sizeof(buf)` -/
abbrev bufSize : Nat := 64

/-- The static buffer of `_print_int`. -/
abbrev Buf := Fin bufSize → UInt8

/-- The static table `digit`, with the zero at its end. -/
def digit : List UInt8 :=
  ['0', '1', '2', '3', '4', '5', '6', '7', '8', '9', 'a', 'b', 'c', 'd', 'e', 'f'].map byte ++ [0]

/-- The loop that stores digits: `*pos++ = digit[v % base]` while `v /= base`. -/
def storeDigits (base v : UInt64) (buf : Buf) (pos : Nat) : Option (Buf × Nat) :=
  match digit[(v % base).toNat]? with
  | none => none
  | some c =>
    if h : pos < bufSize then
      if v / base = 0 then some (update buf ⟨pos, h⟩ c, pos + 1)
      else storeDigits base (v / base) (update buf ⟨pos, h⟩ c) (pos + 1)
    else none
termination_by bufSize - pos

/-- The loop that emits them: `put_char(ctx, *(--pos))` while `pos != buf`. -/
def putDigits (putChar : σ → UInt8 → σ) (buf : Buf) : Nat → σ → Option σ
  | 0, _ => none
  | pos + 1, ctx =>
    if h : pos < bufSize then
      if pos = 0 then some (putChar ctx (buf ⟨pos, h⟩))
      else putDigits putChar buf pos (putChar ctx (buf ⟨pos, h⟩))
    else none

/-- `(u64)_base` -/
def radix (base : Int32) : UInt64 := base.toInt64.toUInt64

/-- `_print_int` -/
def printInt (putChar : σ → UInt8 → σ) (u : Int64) (base : Int32) (isSigned : Bool) (s : Buf × σ) :
    Option (Buf × σ) := do
  let v := u.toUInt64
  let (v, ctx) := if isSigned ∧ u < 0 then (-v, putChar s.2 (byte '-')) else (v, s.2)
  let (buf, pos) ← storeDigits (radix base) v s.1 0
  let ctx ← putDigits putChar buf pos ctx
  return (buf, ctx)

/-! ### Format strings -/

/-- What a `va_list` holds: a value of 32 or 64 bits, or a string that may be `NULL`. -/
inductive Arg where
  | word (v : UInt32)
  | long (v : UInt64)
  | string (s : Option (List UInt8))

/-- The types of the integer directives; `usize` is `u64` and `isize` is `i64`. -/
inductive IntType where
  | u32
  | u64
  | i32
  | i64
  deriving DecidableEq

/-- `(i64)va_arg(arg, type)` -/
def vaArg : IntType → List Arg → Option (Int64 × List Arg)
  | .u32, .word v :: arg => some (v.toUInt64.toInt64, arg)
  | .i32, .word v :: arg => some (v.toInt32.toInt64, arg)
  | .u64, .long v :: arg => some (v.toInt64, arg)
  | .i64, .long v :: arg => some (v.toInt64, arg)
  | _, _ => none

/-- `(char)va_arg(arg, int)` -/
def vaChar : List Arg → Option (UInt8 × List Arg)
  | .word v :: arg => some (v.toUInt8, arg)
  | _ => none

/-- `va_arg(arg, const char *)`, with `(null)` for `NULL`. -/
def vaString : List Arg → Option (List UInt8 × List Arg)
  | .string s :: arg => some (s.getD (['(', 'n', 'u', 'l', 'l', ')'].map byte), arg)
  | _ => none

/-- The arguments of `_INT_CASE`. -/
structure IntCase where
  ident : List UInt8
  type : IntType
  base : Int32
  sign : Bool

/-- The uses of `_INT_CASE`, in order. -/
def intCases : List IntCase :=
  [⟨['u'].map byte, .u32, 10, false⟩, ⟨['l', 'l', 'u'].map byte, .u64, 10, false⟩,
    ⟨['d'].map byte, .i32, 10, true⟩, ⟨['l', 'l', 'd'].map byte, .i64, 10, true⟩,
    ⟨['x'].map byte, .u32, 16, false⟩, ⟨['l', 'l', 'x'].map byte, .u64, 16, false⟩,
    ⟨['p'].map byte, .u64, 16, false⟩, ⟨['z', 'u'].map byte, .u64, 10, false⟩,
    ⟨['z', 'd'].map byte, .i64, 10, true⟩]

/-- The loop of the `%s` directive. -/
def putString (putChar : σ → UInt8 → σ) : List UInt8 → σ → σ
  | [], ctx => ctx
  | c :: s, ctx => if c = 0 then ctx else putString putChar s (putChar ctx c)

/-- `vformat`; what is left of the `va_list` is returned with the context. -/
def vformat (putChar : σ → UInt8 → σ) : List UInt8 → List Arg → Buf × σ → Option (List Arg × Buf × σ)
  | [], arg, s => some (arg, s)
  | c :: pos, arg, s =>
    if c = 0 then some (arg, s)
    else if c = byte '%' then
      if pos.getD 0 0 = byte '%' then vformat putChar pos.tail arg (s.1, putChar s.2 (byte '%'))
      else if pos.getD 0 0 = byte 'c' then do
        let (v, arg) ← vaChar arg
        vformat putChar pos.tail arg (s.1, putChar s.2 v)
      else if pos.getD 0 0 = byte 's' then do
        let (text, arg) ← vaString arg
        vformat putChar pos.tail arg (s.1, putString putChar text s.2)
      else match intCases.find? fun k => strncmp pos k.ident k.ident.length = 0 with
        | some k => do
          let (u, arg) ← vaArg k.type arg
          let s ← printInt putChar u k.base k.sign s
          vformat putChar (pos.drop k.ident.length) arg s
        -- not `special`: the `%` itself is put
        | none => vformat putChar pos arg (s.1, putChar s.2 c)
    else vformat putChar pos arg (s.1, putChar s.2 c)
termination_by fmt => fmt.length

/-! ### What is printed -/

variable {putChar : σ → UInt8 → σ} {buf : Buf} {ctx : σ} {cs : List UInt8} {base v : UInt64} {b : Nat}

def digitChar (d : Nat) : UInt8 := digit.getD d 0

/-- The number that `_print_int` is given, which has 64 bits. -/
def numberOf (isSigned : Bool) (u : Int64) : Int := if isSigned then u.toInt else u.toUInt64.toNat

/-- A number as text. -/
def numberText (b : Nat) (n : Int) : List UInt8 :=
  (if n < 0 then [byte '-'] else []) ++ (numeral b n.natAbs).reverse.map digitChar

theorem digit_eq : ∀ d < 16, digit[d]? = some (digitChar d) := by decide

/-- The first places of the buffer. -/
def Holds (buf : Buf) (cs : List UInt8) : Prop := ∀ i : Fin bufSize, ∀ c ∈ cs[i.val]?, buf i = c

theorem Holds.push {c : UInt8} (h : Holds buf cs) (hpos : cs.length < bufSize) :
    Holds (update buf ⟨cs.length, hpos⟩ c) (cs ++ [c]) := by
  intro i d hd
  by_cases hi : i.val < cs.length
  · rw [List.getElem?_append_left hi] at hd
    rw [update_of_ne (by simp [Fin.ext_iff]; omega)]
    exact h i d hd
  · rw [List.getElem?_append_right (by omega)] at hd
    have hlast : i.val = cs.length := by
      have := (List.getElem?_eq_some_iff.mp hd).1
      simp at this
      omega
    have hplace : i = ⟨cs.length, hpos⟩ := Fin.ext hlast
    simp only [hlast, Nat.sub_self, List.getElem?_cons_zero, Option.mem_some_iff] at hd
    rw [hplace, update_self, hd]

/-- The first loop appends the numeral, digit by digit. -/
theorem storeDigits_spec (hb : 1 < base.toNat) (hb' : base.toNat ≤ 16) (h : Holds buf cs)
    (hroom : cs.length + (numeral base.toNat v.toNat).length ≤ bufSize) :
    ∃ buf', storeDigits base v buf cs.length =
        some (buf', (cs ++ (numeral base.toNat v.toNat).map digitChar).length) ∧
      Holds buf' (cs ++ (numeral base.toNat v.toNat).map digitChar) := by
  induction hn : v.toNat using Nat.strong_induction_on generalizing v buf cs with
  | _ n ih =>
    subst hn
    have hmod : (v % base).toNat = v.toNat % base.toNat := UInt64.toNat_mod ..
    have hdiv : (v / base).toNat = v.toNat / base.toNat := UInt64.toNat_div ..
    have hlt : v.toNat % base.toNat < base.toNat := Nat.mod_lt _ (by omega)
    have hzero : v / base = 0 ↔ v.toNat / base.toNat = 0 := by
      rw [← hdiv, ← UInt64.toNat_inj]
      rfl
    rw [numeral_eq hb] at hroom ⊢
    have hpos : cs.length < bufSize := by
      simp only [List.length_cons] at hroom
      omega
    rw [storeDigits, hmod, digit_eq _ (by omega)]
    simp only [dif_pos hpos, hzero]
    by_cases hlast : v.toNat / base.toNat = 0
    · simp only [if_pos hlast]
      exact ⟨_, by simp, h.push hpos⟩
    · rw [if_neg hlast, if_neg hlast] at *
      have hsmall : v.toNat / base.toNat < v.toNat := by
        apply Nat.div_lt_self _ hb
        exact Nat.pos_of_ne_zero fun hz => hlast (by simp [hz])
      rw [← hdiv] at hroom hsmall ⊢
      obtain ⟨buf', hrun, hholds⟩ := ih _ hsmall (h.push hpos) (by simp at hroom ⊢; omega) rfl
      refine ⟨buf', ?_, by simpa using hholds⟩
      rw [List.length_append, List.length_singleton] at hrun
      simpa using hrun

/-- The second loop emits what is stored, the last place first. -/
theorem putDigits_spec (h : Holds buf cs) (hne : cs ≠ []) (hroom : cs.length ≤ bufSize) :
    putDigits putChar buf cs.length ctx = some (cs.reverse.foldl putChar ctx) := by
  induction cs using List.reverseRecOn generalizing ctx with
  | nil => exact absurd rfl hne
  | append_singleton cs c ih =>
    rw [List.length_append, List.length_singleton] at hroom ⊢
    have hpos : cs.length < bufSize := hroom
    have hc : buf ⟨cs.length, hpos⟩ = c := h ⟨cs.length, hpos⟩ c (by simp)
    rw [putDigits, dif_pos hpos, hc, List.reverse_append]
    split
    case isTrue hz => simp [List.length_eq_zero_iff.mp hz]
    case isFalse hz =>
      have hheld : Holds buf cs := fun i d hd => h i d (by
        rw [List.getElem?_append_left (List.getElem?_eq_some_iff.mp hd).1]
        exact hd)
      rw [ih hheld (by simpa using hz) hpos.le]
      rfl

/-- A sign is printed before a negative number, and the digits are those of its absolute value. -/
theorem numberOf_neg {isSigned : Bool} {u : Int64} : (isSigned ∧ u < 0) ↔ numberOf isSigned u < 0 := by
  unfold numberOf
  cases isSigned with
  | true => simp [Int64.lt_iff_toInt_lt]
  | false => simp

theorem natAbs_numberOf (isSigned : Bool) (u : Int64) : (numberOf isSigned u).natAbs =
    (if numberOf isSigned u < 0 then -u.toUInt64 else u.toUInt64).toNat := by
  unfold numberOf
  cases isSigned with
  | false =>
    rw [if_neg (by simp), if_neg (by omega)]
    rfl
  | true =>
    have hint : u.toInt = if 2 * u.toUInt64.toNat < 2 ^ 64 then (u.toUInt64.toNat : Int)
        else u.toUInt64.toNat - (2 ^ 64 : Nat) := BitVec.toInt_eq_toNat_cond u.toBitVec
    have hlt := u.toUInt64.toNat_lt
    have hneg : (-u.toUInt64).toNat = (2 ^ 64 - u.toUInt64.toNat) % 2 ^ 64 := UInt64.toNat_neg u.toUInt64
    rw [if_pos rfl, hint]
    split
    case isTrue => rw [if_neg (by omega), Int.natAbs_natCast]
    case isFalse hbig =>
      rw [if_pos (by omega), hneg]
      omega

/-- `_print_int` in any base that has digits: the buffer has room for any number in base two. -/
theorem printInt_spec {base : Int32} (hb : 1 < (radix base).toNat) (hb' : (radix base).toNat ≤ 16) (u : Int64)
    (isSigned : Bool) : ∃ buf', printInt putChar u base isSigned (buf, ctx) =
      some (buf', (numberText (radix base).toNat (numberOf isSigned u)).foldl putChar ctx) := by
  have hempty : Holds buf [] := fun i c hc => by simp at hc
  have habs := natAbs_numberOf isSigned u
  generalize hv : (if numberOf isSigned u < 0 then -u.toUInt64 else u.toUInt64) = v at habs
  have hlen : (numeral (radix base).toNat v.toNat).length ≤ bufSize := by
    apply numeral_length_le hb (by decide)
    exact v.toNat_lt.trans_le (Nat.pow_le_pow_left hb 64)
  obtain ⟨buf', hstore, hholds⟩ := storeDigits_spec hb hb' hempty (by simpa using hlen)
  simp only [List.nil_append, List.length_nil] at hstore hholds
  have hne := numeral_ne_nil (radix base).toNat v.toNat
  have hput : ∀ ctx : σ, putDigits putChar buf' _ ctx = _ := fun ctx =>
    putDigits_spec hholds (by simpa using hne) (by simpa using hlen)
  refine ⟨buf', ?_⟩
  unfold printInt numberText
  simp only [numberOf_neg, habs]
  split
  case isTrue hneg =>
    rw [if_pos hneg] at hv
    simp only [hv, hstore, Option.bind_eq_bind, Option.bind_some, hput, List.map_reverse]
    rfl
  case isFalse hneg =>
    rw [if_neg hneg] at hv
    simp only [hv, hstore, Option.bind_eq_bind, Option.bind_some, hput, List.map_reverse]
    rfl

/-! ### Reading it back -/

/-- Which digit a character is. -/
def digitValue (c : UInt8) : Option Nat :=
  if byte '0' ≤ c ∧ c ≤ byte '9' then some (c - byte '0').toNat
  else if byte 'a' ≤ c ∧ c ≤ byte 'f' then some ((c - byte 'a').toNat + 10)
  else none

def readNat (b : Nat) (cs : List UInt8) : Option Nat := if cs = [] then none else readDigits digitValue b 0 cs

def readInt (b : Nat) (cs : List UInt8) : Option Int :=
  if cs.head? = some (byte '-') then (readNat b cs.tail).map fun n : Nat => -(n : Int)
  else (readNat b cs).map fun n : Nat => (n : Int)

/-- A number in base `b` with a sign if it is negative, without leading zeros, that reads back. -/
structure Numeral (b : Nat) (n : Int) (text : List UInt8) : Prop where
  split : ∃ ds, text = (if n < 0 then [byte '-'] else []) ++ ds ∧ ds ≠ [] ∧
    (∀ c ∈ ds, ∃ d < b, digitValue c = some d) ∧ (ds.head? = some (byte '0') → n = 0 ∧ ds = [byte '0'])
  reads : readInt b text = some n

theorem digitValue_digitChar : ∀ d < 16, digitValue (digitChar d) = some d := by decide

theorem digitChar_ne_minus : ∀ d < 16, digitChar d ≠ byte '-' := by decide

theorem digitChar_eq_zero : ∀ d < 16, digitChar d = byte '0' → d = 0 := by decide

theorem numberText_numeral (hb : 1 < b) (hb' : b ≤ 16) (n : Int) : Numeral b n (numberText b n) := by
  have hdigit : ∀ d < b, digitValue (digitChar d) = some d := fun d hd => digitValue_digitChar d (by omega)
  have hlt : ∀ d ∈ numeral b n.natAbs, d < b := fun d => lt_of_mem_numeral hb
  have hne : (numeral b n.natAbs).reverse.map digitChar ≠ [] := by simpa using numeral_ne_nil b n.natAbs
  have hread : readNat b ((numeral b n.natAbs).reverse.map digitChar) = some n.natAbs := by
    rw [readNat, if_neg hne]
    exact readDigits_numeral hdigit hb _
  refine ⟨⟨_, rfl, hne, ?digits, ?leading⟩, ?reads⟩
  case digits =>
    intro c hc
    obtain ⟨d, hd, rfl⟩ := List.mem_map.mp hc
    have hd' := hlt d (List.mem_reverse.mp hd)
    exact ⟨d, hd', hdigit d hd'⟩
  case leading =>
    intro hzero
    rw [List.head?_map, List.head?_reverse] at hzero
    obtain ⟨d, hlast, hd⟩ := Option.map_eq_some_iff.mp hzero
    have hd0 : d = 0 := digitChar_eq_zero d ((hlt d (List.mem_of_getLast? hlast)).trans_le hb') hd
    have hall := numeral_of_getLast (hd0 ▸ hlast)
    have hn := ofDigits_numeral b n.natAbs
    rw [hall] at hn ⊢
    exact ⟨Int.natAbs_eq_zero.mp hn.symm, rfl⟩
  case reads =>
    unfold readInt numberText
    by_cases hneg : n < 0
    · have habs : -(n.natAbs : Int) = n := by omega
      simp only [if_pos hneg, List.singleton_append, List.head?_cons, if_true, List.tail_cons, hread,
        Option.map_some, habs]
    · have habs : (n.natAbs : Int) = n := by omega
      have hminus : ((numeral b n.natAbs).reverse.map digitChar).head? ≠ some (byte '-') := by
        intro hhead
        obtain ⟨d, hd, hc⟩ := List.mem_map.mp (List.mem_of_mem_head? hhead)
        exact digitChar_ne_minus d ((hlt d (List.mem_reverse.mp hd)).trans_le hb') hc
      rw [if_neg hneg, List.nil_append, if_neg hminus, hread, Option.map_some, habs]

/-! ### What a format string stands for -/

/-- The number an argument is, as a value of a type. -/
def Arg.value : IntType → Arg → Option Int
  | .u32, .word v => some v.toNat
  | .i32, .word v => some v.toInt32.toInt
  | .u64, .long v => some v.toNat
  | .i64, .long v => some v.toInt64.toInt
  | _, _ => none

/-- The text of a string: what is before its zero. -/
def stringText : Option (List UInt8) → List UInt8
  | none => ['(', 'n', 'u', 'l', 'l', ')'].map byte
  | some s => s.takeWhile (· ≠ 0)

/-- `Formats fmt arg text`: the format string `fmt` is made of literal characters and directives, `arg` has
an argument of the right type for each directive other than `%%`, and `text` is `fmt` with each directive
replaced by its argument's text. -/
inductive Formats : List UInt8 → List Arg → List UInt8 → Prop
  | nil : Formats [] [] []
  | literal {fmt arg text} {c : UInt8} (hpercent : c ≠ byte '%') (hzero : c ≠ 0) (h : Formats fmt arg text) :
    Formats (c :: fmt) arg (c :: text)
  | percent {fmt arg text} (h : Formats fmt arg text) : Formats (byte '%' :: byte '%' :: fmt) arg (byte '%' :: text)
  | char {fmt arg text} (v : UInt32) (h : Formats fmt arg text) :
    Formats (byte '%' :: byte 'c' :: fmt) (.word v :: arg) (v.toUInt8 :: text)
  | string {fmt arg text} (s : Option (List UInt8)) (h : Formats fmt arg text) :
    Formats (byte '%' :: byte 's' :: fmt) (.string s :: arg) (stringText s ++ text)
  | int {fmt arg text} {k : IntCase} {a : Arg} {n : Int} (hk : k ∈ intCases) (hn : a.value k.type = some n)
    (h : Formats fmt arg text) :
    Formats (byte '%' :: (k.ident ++ fmt)) (a :: arg) (numberText (radix k.base).toNat n ++ text)

variable {k : IntCase} {a : Arg} {arg : List Arg} {fmt text : List UInt8} {n : Int}

/-- The signed types. -/
def IntType.signed : IntType → Bool
  | .u32 | .u64 => false
  | .i32 | .i64 => true

theorem sign_of_intCases : ∀ k ∈ intCases, k.sign = k.type.signed := by decide

theorem base_of_intCases : ∀ k ∈ intCases, 1 < (radix k.base).toNat ∧
    (radix k.base).toNat ≤ 16 := by decide

/-- The conversion to `i64` keeps the number, given how it is printed. -/
theorem vaArg_of_value {t : IntType} (hn : a.value t = some n) :
    ∃ u, vaArg t (a :: arg) = some (u, arg) ∧ numberOf t.signed u = n := by
  unfold Arg.value at hn
  split at hn
  all_goals try cases hn
  all_goals exact ⟨_, rfl, by simp [numberOf, IntType.signed]⟩

/-- No directive begins another one. -/
theorem find_ident (hk : k ∈ intCases) (fmt : List UInt8) :
    intCases.find? (fun k' => strncmp (k.ident ++ fmt) k'.ident k'.ident.length = 0) = some k := by
  simp only [intCases, List.mem_cons, List.not_mem_nil, or_false] at hk
  rcases hk with rfl | rfl | rfl | rfl | rfl | rfl | rfl | rfl | rfl
  all_goals simp [intCases, strncmp]

theorem ident_head : ∀ k ∈ intCases, k.ident.head? ≠ none ∧
    ∀ c ∈ k.ident.head?, c ≠ byte '%' ∧ c ≠ byte 'c' ∧ c ≠ byte 's' := by
  decide +kernel

/-! The loop of `vformat`, directive by directive. -/

section Steps
variable {s s' : Buf × σ}

theorem vformat_literal {c : UInt8} (hpercent : c ≠ byte '%') (hzero : c ≠ 0) :
    vformat putChar (c :: fmt) arg s = vformat putChar fmt arg (s.1, putChar s.2 c) := by
  rw [vformat, if_neg hzero, if_neg hpercent]

theorem vformat_percent : vformat putChar (byte '%' :: byte '%' :: fmt) arg s =
    vformat putChar fmt arg (s.1, putChar s.2 (byte '%')) := by
  rw [vformat]
  simp

theorem vformat_char (v : UInt32) : vformat putChar (byte '%' :: byte 'c' :: fmt) (.word v :: arg) s =
    vformat putChar fmt arg (s.1, putChar s.2 v.toUInt8) := by
  rw [vformat]
  simp [vaChar]

theorem vformat_string (text : Option (List UInt8)) :
    vformat putChar (byte '%' :: byte 's' :: fmt) (.string text :: arg) s =
      vformat putChar fmt arg (s.1, (stringText text).foldl putChar s.2) := by
  have hput : ∀ cs : List UInt8, putString putChar cs s.2 = (cs.takeWhile (· ≠ 0)).foldl putChar s.2 := by
    intro cs
    generalize s.2 = ctx
    induction cs generalizing ctx with
    | nil => rfl
    | cons c cs ih =>
      by_cases hc : c = 0
      · simp [putString, hc]
      · simp [putString, hc, ih]
  rw [vformat]
  cases text with
  | none | some text => simp [vaString, hput, stringText]

theorem vformat_int {arg' : List Arg} {u : Int64} (hk : k ∈ intCases) (hu : vaArg k.type arg = some (u, arg'))
    (hs : printInt putChar u k.base k.sign s = some s') :
    vformat putChar (byte '%' :: (k.ident ++ fmt)) arg s = vformat putChar fmt arg' s' := by
  obtain ⟨hne, hhead⟩ := ident_head k hk
  obtain ⟨c, hc⟩ := Option.ne_none_iff_exists'.mp hne
  obtain ⟨hpercent, hchar, hstring⟩ := hhead c hc
  have hfirst : (k.ident ++ fmt).getD 0 0 = c := by
    rw [List.getD_eq_getElem?_getD, ← List.head?_eq_getElem?, List.head?_append, hc]
    rfl
  rw [vformat, if_neg (by decide), if_pos rfl, hfirst, if_neg hpercent, if_neg hchar, if_neg hstring,
    find_ident hk]
  simp [hu, hs]

end Steps

/-- **A format string is replaced by its text**, and the arguments of its directives are consumed. -/
theorem vformat_spec (h : Formats fmt arg text) (rest : List Arg) : ∃ buf', vformat putChar fmt (arg ++ rest)
    (buf, ctx) = some (rest, buf', text.foldl putChar ctx) := by
  induction h generalizing buf ctx with
  | nil => exact ⟨buf, by simp [vformat]⟩
  | literal hpercent hzero _ ih =>
    rw [vformat_literal hpercent hzero]
    exact ih
  | percent _ ih =>
    rw [vformat_percent]
    exact ih
  | char v _ ih =>
    rw [List.cons_append, vformat_char]
    exact ih
  | string s _ ih =>
    rw [List.cons_append, vformat_string, List.foldl_append]
    exact ih
  | int hk hn _ ih =>
    obtain ⟨u, hu, hvalue⟩ := vaArg_of_value hn
    obtain ⟨hb, hb'⟩ := base_of_intCases _ hk
    rw [← sign_of_intCases _ hk] at hvalue
    obtain ⟨buf1, hprint⟩ := printInt_spec hb hb' u _
    rw [List.cons_append, vformat_int hk hu hprint, List.foldl_append, hvalue]
    exact ih

/-- **Numbers and format strings as text.** In base 10 and 16 `_print_int` stays inside its buffer and emits a
numeral that reads back as the number it was given, and `vformat` emits the text its format string stands for
and takes one argument for each directive other than `%%`. -/
theorem format_text (putChar : σ → UInt8 → σ) :
    (∀ (u : Int64) (base : Int32) (isSigned : Bool) (buf : Buf) (ctx : σ), base = 10 ∨ base = 16 →
      Numeral (radix base).toNat (numberOf isSigned u) (numberText (radix base).toNat (numberOf isSigned u)) ∧
      ∃ buf', printInt putChar u base isSigned (buf, ctx) =
        some (buf', (numberText (radix base).toNat (numberOf isSigned u)).foldl putChar ctx)) ∧
    ∀ (fmt : List UInt8) (arg rest : List Arg) (text : List UInt8) (buf : Buf) (ctx : σ), Formats fmt arg text →
      ∃ buf', vformat putChar fmt (arg ++ rest) (buf, ctx) = some (rest, buf', text.foldl putChar ctx) := by
  constructor
  · intro u base isSigned buf ctx hbase
    have hb : 1 < (radix base).toNat ∧ (radix base).toNat ≤ 16 := by
      rcases hbase with rfl | rfl
      · decide
      · decide
    exact ⟨numberText_numeral hb.1 hb.2 _, printInt_spec hb.1 hb.2 u isSigned⟩
  · intro fmt arg rest text buf ctx h
    exact vformat_spec h rest

/-- `%d=%s%%` on `-42` and `NULL`, with an argument left over. -/
theorem sample_formats : Formats (['%', 'd', '=', '%', 's', '%', '%'].map byte) [.word 0xffffffd6, .string none]
    (['-', '4', '2', '=', '(', 'n', 'u', 'l', 'l', ')', '%'].map byte) := by
  have htext : ['-', '4', '2', '=', '(', 'n', 'u', 'l', 'l', ')', '%'].map byte =
      numberText 10 (-42) ++ byte '=' :: (stringText none ++ [byte '%']) := by
    decide +kernel
  rw [htext]
  exact .int (k := ⟨['d'].map byte, .i32, 10, true⟩) (by simp [intCases]) rfl
    (.literal (by decide) (by decide) (.string none (.percent .nil)))

/-- The least number of 64 bits is printed, and a format string with three directives. -/
theorem format_text_sample :
    (∃ buf', printInt (fun out c => out ++ [c]) Int64.minValue 10 true (fun _ => 0, []) =
      some (buf', "-9223372036854775808".toList.map byte)) ∧
    ∃ buf', vformat (fun out c => out ++ [c]) (['%', 'd', '=', '%', 's', '%', '%'].map byte)
      [.word 0xffffffd6, .string none, .long 5] (fun _ => 0, []) =
        some ([.long 5], buf', ['-', '4', '2', '=', '(', 'n', 'u', 'l', 'l', ')', '%'].map byte) := by
  have h := format_text fun (out : List UInt8) c => out ++ [c]
  refine ⟨?_, ?_⟩
  · obtain ⟨-, buf', hrun⟩ := h.1 Int64.minValue 10 true (fun _ => 0) [] (Or.inl rfl)
    refine ⟨buf', hrun.trans ?_⟩
    have htext : numberText (radix 10).toNat (numberOf true Int64.minValue) =
        "-9223372036854775808".toList.map byte := by
      decide +kernel
    simp [htext]
  · exact h.2 _ _ [.long 5] _ (fun _ => 0) [] sample_formats

end OS2021.Common
