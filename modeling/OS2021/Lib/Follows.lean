import OS2021.Lib.Exits

/-! A program with state that follows a pure one.

The pure program says what is computed, and the other keeps the result in its state.
When the pure program returns, the other returns and `Q` relates the two; when it stops,
the other stops in the same way. The other may also stop for reasons of its own, which
`A` lists: a resource the pure program does not have is used up. -/
namespace OS2021.Lib

variable {ε σ α α' β β' : Type} {A : ε → Prop} {Q : α → β → σ → Prop} {R : α' → β' → σ → Prop}
  {r : EStateM.Result ε σ β} {y : Except ε α} {g : α → Except ε α'} {f : β → EStateM ε σ β'}

/-- What a composition of pure programs returns, its first half returned. -/
theorem of_bind_eq_ok {b : α'} (h : (y >>= g) = .ok b) : ∃ a, y = .ok a ∧ g a = .ok b := by
  cases y with
  | ok a => exact ⟨a, rfl, h⟩
  | error e => cases h

inductive Follows (A : ε → Prop) (Q : α → β → σ → Prop) : Except ε α → EStateM.Result ε σ β → Prop
  | ok {a : α} {b : β} {s : σ} (h : Q a b s) : Follows A Q (.ok a) (.ok b s)
  | error (e : ε) (s : σ) : Follows A Q (.error e) (.error e s)
  | aside {e : ε} (y : Except ε α) (s : σ) (h : A e) : Follows A Q y (.error e s)

theorem Follows.mono {Q' : α → β → σ → Prop} {r : EStateM.Result ε σ β} (h : Follows A Q y r)
    (hQ : ∀ a b s, Q a b s → Q' a b s) : Follows A Q' y r := by
  cases h with
  | ok h => exact .ok (hQ _ _ _ h)
  | error e s => exact .error e s
  | aside y s h => exact .aside y s h

/-- The pure program has returned, and the other may stop only for a reason of its own. -/
theorem Follows.of_ends {P : β → σ → Prop} {a : α} (h : Ends P (fun e _ => A e) r) (hQ : ∀ b s, P b s → Q a b s) :
    Follows A Q (.ok a) r := by
  cases h with
  | ok h => exact .ok (hQ _ _ h)
  | error h => exact .aside _ _ h

/-- Both programs take a step. -/
theorem Follows.bind {x : EStateM ε σ β} {s : σ} (h : Follows A Q y (x.run s))
    (hnext : ∀ a b s', Q a b s' → Follows A R (g a) ((f b).run s')) : Follows A R (y >>= g) ((x >>= f).run s) := by
  generalize hr : x.run s = r at h
  cases h with
  | ok h =>
    rw [bind_ok hr]
    exact hnext _ _ _ h
  | error e s' =>
    rw [bind_error hr]
    exact .error e s'
  | aside y s' h =>
    rw [bind_error hr]
    exact .aside _ s' h

/-- Only the program with state takes a step, which may stop for a reason of its own. -/
theorem Follows.skip {P : β → σ → Prop} {y : Except ε α'} {x : EStateM ε σ β} {s : σ}
    (h : Ends P (fun e _ => A e) (x.run s)) (hnext : ∀ b s', P b s' → Follows A R y ((f b).run s')) :
    Follows A R y ((x >>= f).run s) := by
  generalize hr : x.run s = r at h
  cases h with
  | ok h =>
    rw [bind_ok hr]
    exact hnext _ _ h
  | error h =>
    rw [bind_error hr]
    exact .aside _ _ h

/-- Only the pure program has something left to do, which is to return. -/
theorem Follows.map {Q' : α' → β → σ → Prop} (h : Follows A Q y r)
    (hg : ∀ a b s, Q a b s → ∃ a', g a = .ok a' ∧ Q' a' b s) : Follows A Q' (y >>= g) r := by
  cases h with
  | @ok a b s h =>
    obtain ⟨a', hret, h'⟩ := hg _ _ _ h
    show Follows A Q' (g a) _
    rw [hret]
    exact .ok h'
  | error e s => exact .error e s
  | aside y s h => exact .aside _ s h

/-- What the pure program returns or how it stops, when the other does not stop for a
reason of its own. -/
theorem Follows.cases (h : Follows A Q y r) (hA : ∀ e s, r = .error e s → ¬ A e) :
    (∃ a b s, y = .ok a ∧ r = .ok b s ∧ Q a b s) ∨ ∃ e s, y = .error e ∧ r = .error e s := by
  cases h with
  | ok h => exact .inl ⟨_, _, _, rfl, rfl, h⟩
  | error e s => exact .inr ⟨e, s, rfl, rfl⟩
  | aside y s h => exact absurd h (hA _ s rfl)

end OS2021.Lib
