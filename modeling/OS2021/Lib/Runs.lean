/-! Runs of a labelled step relation.

`Reach step ok s0 s` says that a run from `s0` arrives at `s` and that each of its
steps met `ok` in the state it was taken in; a run without conditions has
`fun _ _ => True` there. -/
namespace OS2021.Lib

variable {σ ℓ : Type}

inductive Reach (step : σ → ℓ → σ → Prop) (ok : σ → ℓ → Prop) (s0 : σ) : σ → Prop
  | start : Reach step ok s0 s0
  | next {s s' : σ} {l : ℓ} (h : Reach step ok s0 s) (hok : ok s l) (hs : step s l s') : Reach step ok s0 s'

variable {step : σ → ℓ → σ → Prop} {ok : σ → ℓ → Prop} {s0 s : σ}

/-- What holds at the start and is kept by every step holds wherever a run arrives. -/
theorem Reach.invariant {I : σ → Prop} (h : Reach step ok s0 s) (h0 : I s0)
    (hstep : ∀ s l s', I s → ok s l → step s l s' → I s') : I s := by
  induction h with
  | start => exact h0
  | next _ hok hs ih => exact hstep _ _ _ ih hok hs

/-! ### Runs one can evaluate -/

section Run
variable (f : σ → ℓ → Option σ) (ok : σ → ℓ → Prop) [∀ s l, Decidable (ok s l)]

/-- The state a list of labels leads to, if every step is taken and meets `ok`. -/
def runAll : σ → List ℓ → Option σ
  | s, [] => some s
  | s, l :: ls => if ok s l then (f s l).bind fun s' => runAll s' ls else none

variable {f ok}

theorem Reach.of_runAll {ls : List ℓ} {s1 s2 : σ} (h : Reach (fun s l s' => f s l = some s') ok s0 s1)
    (hrun : runAll f ok s1 ls = some s2) : Reach (fun s l s' => f s l = some s') ok s0 s2 := by
  induction ls generalizing s1 with
  | nil =>
    cases hrun
    exact h
  | cons l ls ih =>
    obtain ⟨hok, hrun⟩ := Option.ite_none_right_eq_some.mp hrun
    obtain ⟨s', hs, hrest⟩ := Option.bind_eq_some_iff.mp hrun
    exact ih (h.next hok hs) hrest

/-- A run whose last state passes a test. -/
theorem Reach.exists_of_any {ls : List ℓ} {P : σ → Bool} (h : (runAll f ok s0 ls).any P = true) :
    ∃ s, Reach (fun s l s' => f s l = some s') ok s0 s ∧ P s = true := by
  cases hs : runAll f ok s0 ls with
  | none =>
    rw [hs] at h
    cases h
  | some s =>
    rw [hs] at h
    exact ⟨s, Reach.start.of_runAll hs, h⟩

end Run

end OS2021.Lib
