import OS2021.Lib.Exits

/-! Programs on a part of a state.

A state is made of parts, each with programs of its own. `onPart part put x` runs the
program `x` on the part that `part` reads and `put` writes. -/
namespace OS2021.Lib

variable {ε σ τ α : Type} (part : σ → τ) (put : τ → σ → σ)

def onPart (x : EStateM ε τ α) : EStateM ε σ α := fun s =>
  match x.run (part s) with
  | .ok a t => .ok a (put t s)
  | .error e t => .error e (put t s)

variable {part put} {x : EStateM ε τ α} {s s' : σ} {t : τ} {a : α} {e : ε}

theorem onPart_run (h : x.run (part s) = .ok a t) : (onPart part put x).run s = .ok a (put t s) := by
  show (match x.run (part s) with
    | .ok a t => .ok a (put t s)
    | .error e t => .error e (put t s) : EStateM.Result ε σ α) = _
  rw [h]

theorem onPart_stop (h : x.run (part s) = .error e t) : (onPart part put x).run s = .error e (put t s) := by
  show (match x.run (part s) with
    | .ok a t => .ok a (put t s)
    | .error e t => .error e (put t s) : EStateM.Result ε σ α) = _
  rw [h]

theorem onPart_ok (h : (onPart part put x).run s = .ok a s') : ∃ t, x.run (part s) = .ok a t ∧ s' = put t s := by
  cases hx : x.run (part s) with
  | ok b t =>
    rw [onPart_run hx] at h
    cases h
    exact ⟨t, rfl, rfl⟩
  | error e t =>
    rw [onPart_stop hx] at h
    cases h

end OS2021.Lib
