import Mathlib.Data.Nat.ModEq

/-! Little-endian words in byte arrays.

A byte array is read at an index as a function `Nat → UInt8`. `wordAt w d i` is
the `i`-th word of `w` bytes of the array; `ofWords` lays words out and `setWord`
replaces one. The three are related by the two read-back laws at the end, for
every width. -/
namespace OS2021.Lib

/-- The number whose little-endian bytes are `f 0, …, f (n - 1)`. -/
def leNat : Nat → (Nat → UInt8) → Nat
  | 0, _ => 0
  | n + 1, f => (f 0).toNat + 256 * leNat n fun k => f (k + 1)

/-- Byte `k` of the little-endian representation of `x`. -/
def leByte (x k : Nat) : UInt8 := UInt8.ofNat (x / 256 ^ k)

/-- The `i`-th word of `w` bytes of an array. -/
def wordAt (w : Nat) (d : Nat → UInt8) (i : Nat) : Nat := leNat w fun k => d (w * i + k)

/-- The array whose `i`-th word of `w` bytes is `f i`. -/
def ofWords (w : Nat) (f : Nat → Nat) (j : Nat) : UInt8 := leByte (f (j / w)) (j % w)

/-- The array with its `i`-th word of `w` bytes replaced. -/
def setWord (w : Nat) (d : Nat → UInt8) (i x j : Nat) : UInt8 :=
  if j / w = i then leByte x (j % w) else d j

theorem leNat_congr {n : Nat} {f g : Nat → UInt8} (h : ∀ k, k < n → f k = g k) :
    leNat n f = leNat n g := by
  induction n generalizing f g with
  | zero => rfl
  | succ n ih =>
    simp only [leNat]
    rw [h 0 (Nat.zero_lt_succ n), ih fun k hk => h (k + 1) (Nat.succ_lt_succ hk)]

theorem leNat_lt (n : Nat) (f : Nat → UInt8) : leNat n f < 256 ^ n := by
  induction n generalizing f with
  | zero => exact Nat.one_pos
  | succ n ih =>
    have hfirst : (f 0).toNat < 256 := (f 0).toNat_lt
    have hrest := ih fun k => f (k + 1)
    rw [leNat, Nat.pow_succ']
    omega

/-- Reading the bytes of `x` back gives `x`, as far as `n` bytes go. -/
theorem leNat_leByte (n x : Nat) : leNat n (leByte x) = x % 256 ^ n := by
  induction n generalizing x with
  | zero => rw [leNat, Nat.pow_zero, Nat.mod_one]
  | succ n ih =>
    have hshift : (fun k => leByte x (k + 1)) = leByte (x / 256) := by
      funext k
      rw [leByte, leByte, Nat.pow_succ', Nat.div_div_eq_div_mul]
    have hfirst : (leByte x 0).toNat = x % 256 := by
      rw [leByte, Nat.pow_zero, Nat.div_one, UInt8.toNat_ofNat']
    rw [leNat, hshift, ih, hfirst, Nat.pow_succ', Nat.mod_mul]

/-! ### Reading words back -/

private theorem word_index {w i k : Nat} (hk : k < w) : (w * i + k) / w = i ∧ (w * i + k) % w = k := by
  have hw : 0 < w := by omega
  exact ⟨by rw [Nat.mul_add_div hw, Nat.div_eq_of_lt hk, Nat.add_zero],
    by rw [Nat.mul_add_mod, Nat.mod_eq_of_lt hk]⟩

theorem wordAt_congr {w i : Nat} {d e : Nat → UInt8} (h : ∀ k, k < w → d (w * i + k) = e (w * i + k)) :
    wordAt w d i = wordAt w e i :=
  leNat_congr h

theorem wordAt_ofWords (w : Nat) (f : Nat → Nat) (i : Nat) :
    wordAt w (ofWords w f) i = f i % 256 ^ w := by
  rw [← leNat_leByte w (f i)]
  apply leNat_congr
  intro k hk
  rw [ofWords, (word_index hk).1, (word_index hk).2]

theorem wordAt_setWord (w : Nat) (d : Nat → UInt8) (i x j : Nat) :
    wordAt w (setWord w d i x) j = if j = i then x % 256 ^ w else wordAt w d j := by
  split
  case isTrue h =>
    rw [h, ← leNat_leByte w x]
    apply leNat_congr
    intro k hk
    rw [setWord, (word_index hk).1, (word_index hk).2, if_pos rfl]
  case isFalse h =>
    apply leNat_congr
    intro k hk
    rw [setWord, (word_index hk).1, if_neg h]

end OS2021.Lib
