import OS2021.Lib.Parts

/-! Programs that keep a record.

A program can be written a second time so that it returns, beside its result, a record of
what it has done. `Erases y x` says that `y` is `x` with such a record. It follows the
shape of the two programs, and what `y` returns is then what `x` returns. -/
namespace OS2021.Lib

variable {ε σ τ α β ρ ω : Type} {k : α → EStateM ε σ β}

def dropRecord : EStateM.Result ε σ (α × ρ) → EStateM.Result ε σ α
  | .ok r s => .ok r.1 s
  | .error e s => .error e s

/-- Without its record `y` is `x`. -/
def Erases (y : EStateM ε σ (α × ρ)) (x : EStateM ε σ α) : Prop := ∀ s, dropRecord (y.run s) = x.run s

namespace Erases
variable {y : EStateM ε σ (α × ρ)} {x : EStateM ε σ α} {s s' : σ} {r : α × ρ}

theorem of_ok (h : Erases y x) (hrun : y.run s = .ok r s') : x.run s = .ok r.1 s' := by
  rw [← h s, hrun]
  rfl

theorem of_error {e : ε} (h : Erases y x) (hrun : y.run s = .error e s') : x.run s = .error e s' := by
  rw [← h s, hrun]
  rfl

theorem pure (a : α) (w : ρ) : Erases (pure (a, w) : EStateM ε σ (α × ρ)) (pure a) := fun _ => rfl

theorem throw (e : ε) : Erases (throw e : EStateM ε σ (α × ρ)) (throw e) := fun _ => rfl

/-- A part of the program that keeps a record too. -/
theorem bind {k' : α × ρ → EStateM ε σ (β × ω)} (h : Erases y x) (hk : ∀ r, Erases (k' r) (k r.1)) :
    Erases (y >>= k') (x >>= k) := fun s => by
  have hs := h s
  cases hy : y.run s with
  | ok r s' =>
    rw [hy] at hs
    rw [bind_ok hy, bind_ok hs.symm]
    exact hk r s'
  | error e s' =>
    rw [hy] at hs
    rw [bind_error hy, bind_error hs.symm]
    rfl

/-- A part that keeps none. -/
theorem seq {z : EStateM ε σ α} {k' : α → EStateM ε σ (β × ω)} (hk : ∀ a, Erases (k' a) (k a)) :
    Erases (z >>= k') (z >>= k) := fun s => by
  cases hz : z.run s with
  | ok a s' =>
    rw [bind_ok hz, bind_ok hz]
    exact hk a s'
  | error e s' =>
    rw [bind_error hz, bind_error hz]
    rfl

theorem ite {c : Prop} [Decidable c] {y' : EStateM ε σ (α × ρ)} {x' : EStateM ε σ α} (h : Erases y x)
    (h' : Erases y' x') : Erases (if c then y else y') (if c then x else x') := by
  split
  · exact h
  · exact h'

theorem onPart {part : τ → σ} {put : σ → τ → τ} (h : Erases y x) :
    Erases (onPart part put y) (onPart part put x) := fun s => by
  have hs := h (part s)
  cases hy : y.run (part s) with
  | ok r t =>
    rw [hy] at hs
    rw [onPart_run hy, onPart_run hs.symm]
    rfl
  | error e t =>
    rw [hy] at hs
    rw [onPart_stop hy, onPart_stop hs.symm]
    rfl

end Erases

end OS2021.Lib
