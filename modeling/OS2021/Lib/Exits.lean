import Mathlib.Order.Defs.Unbundled

/-! Programs with two ways out.

A kernel routine returns, or it stops: it panics, sleeps, or loses its device
under it. `EStateM` keeps the state on both ways out, so a specification says
what holds on each. `Ends Q E` is that specification of a result; `Triple P x Q E`
is it for every state that satisfies `P`. A crash condition is the `E` of a
triple: it is owed at every point at which the program can stop, so a loop's
invariant has to give it at every iteration (`Triple.forM`). -/
namespace OS2021.Lib

variable {ε σ α β : Type}

/-- The result is a return that satisfies `Q` or a stop that satisfies `E`. -/
inductive Ends (Q : α → σ → Prop) (E : ε → σ → Prop) : EStateM.Result ε σ α → Prop
  | ok {a : α} {s : σ} (h : Q a s) : Ends Q E (.ok a s)
  | error {e : ε} {s : σ} (h : E e s) : Ends Q E (.error e s)

/-- Run in any state that satisfies `P`, the program ends as `Ends Q E` says. -/
def Triple (P : σ → Prop) (x : EStateM ε σ α) (Q : α → σ → Prop) (E : ε → σ → Prop) : Prop :=
  ∀ s, P s → Ends Q E (x.run s)

/-! ### Results -/

variable {P : σ → Prop} {Q Q' : α → σ → Prop} {R : β → σ → Prop} {E E' : ε → σ → Prop} {r : EStateM.Result ε σ α}
  {x : EStateM ε σ α} {f : α → EStateM ε σ β} {s s' : σ} {a : α} {e : ε}

theorem Ends.mono (h : Ends Q E r) (hQ : ∀ a s, Q a s → Q' a s) (hE : ∀ e s, E e s → E' e s) : Ends Q' E' r := by
  cases h with
  | ok h => exact .ok (hQ _ _ h)
  | error h => exact .error (hE _ _ h)

theorem Ends.of_ok (h : Ends Q E r) (hr : r = .ok a s) : Q a s := by
  rw [hr] at h
  cases h with
  | ok h => exact h

theorem Ends.of_error (h : Ends Q E r) (hr : r = .error e s) : E e s := by
  rw [hr] at h
  cases h with
  | error h => exact h

/-- A program that cannot stop returns. -/
theorem Ends.returns (h : Ends Q E r) (hE : ∀ e s, ¬ E e s) : ∃ a s, r = .ok a s ∧ Q a s := by
  cases h with
  | ok h => exact ⟨_, _, rfl, h⟩
  | error h => exact absurd h (hE _ _)

/-- The state in which a program ends, either way. -/
def final : EStateM.Result ε σ α → σ
  | .ok _ s => s
  | .error _ s => s

theorem Ends.final (h : Ends (fun _ => P) (fun _ => P) r) : P (final r) := by
  cases h with
  | ok h => exact h
  | error h => exact h

/-- Whether a result is a return, for programs one can evaluate. -/
def returned : EStateM.Result ε σ α → Bool
  | .ok _ _ => true
  | .error _ _ => false

theorem eq_ok_of_returned {r : EStateM.Result ε σ Unit} (h : returned r = true) : r = .ok () (final r) := by
  cases r with
  | ok a s => rfl
  | error e s => cases h

/-- Whether a result is a return that satisfies a test. -/
def returnedWith (P : α → σ → Bool) : EStateM.Result ε σ α → Bool
  | .ok a s => P a s
  | .error _ _ => false

theorem exists_of_returnedWith {P : α → σ → Bool} (h : returnedWith P r = true) :
    ∃ a s, r = .ok a s ∧ P a s = true := by
  cases r with
  | ok a s => exact ⟨a, s, rfl, h⟩
  | error e s => cases h

/-- Whether a result is the stop `e`. -/
def stoppedWith [DecidableEq ε] (e : ε) : EStateM.Result ε σ α → Bool
  | .ok _ _ => false
  | .error e' _ => e' = e

theorem exists_of_stoppedWith [DecidableEq ε] (h : stoppedWith e r = true) : ∃ s, r = .error e s := by
  cases r with
  | ok a s => cases h
  | error e' s =>
    obtain rfl := of_decide_eq_true h
    exact ⟨s, rfl⟩

/-! ### Running a program -/

@[simp] theorem pure_run (a : α) (s : σ) : (pure a : EStateM ε σ α).run s = .ok a s := rfl

@[simp] theorem throw_run (e : ε) (s : σ) : (throw e : EStateM ε σ α).run s = .error e s := rfl

@[simp] theorem get_run (s : σ) : (get : EStateM ε σ σ).run s = .ok s s := rfl

@[simp] theorem set_run (s t : σ) : (set t : EStateM ε σ PUnit).run s = .ok ⟨⟩ t := rfl

@[simp] theorem modify_run (f : σ → σ) (s : σ) : (modify f : EStateM ε σ PUnit).run s = .ok ⟨⟩ (f s) := rfl

/-- A returning first half hands over to the second. -/
theorem bind_ok (h : x.run s = .ok a s') : (x >>= f).run s = (f a).run s' := by
  show EStateM.bind x f s = f a s'
  have h' : x s = .ok a s' := h
  rw [EStateM.bind, h']

/-- A first half that stops stops the whole. -/
theorem bind_error (h : x.run s = .error e s') : (x >>= f).run s = .error e s' := by
  show EStateM.bind x f s = .error e s'
  have h' : x s = .error e s' := h
  rw [EStateM.bind, h']

@[simp] theorem ite_run {c : Prop} [Decidable c] (x y : EStateM ε σ α) (s : σ) :
    (if c then x else y).run s = if c then x.run s else y.run s := by
  split <;> rfl

/-- What a composition returns, its first half returned. -/
theorem bind_eq_ok {t : σ} {b : β} (h : (x >>= f).run s = .ok b t) :
    ∃ a s', x.run s = .ok a s' ∧ (f a).run s' = .ok b t := by
  cases hx : x.run s with
  | ok a s' =>
    rw [bind_ok hx] at h
    exact ⟨a, s', rfl, h⟩
  | error e s' =>
    rw [bind_error hx] at h
    cases h

/-! ### Composition -/

theorem Ends.bind (hx : Ends Q E (x.run s))
    (hf : ∀ a s', x.run s = .ok a s' → Q a s' → Ends R E ((f a).run s')) : Ends R E ((x >>= f).run s) := by
  cases h : x.run s with
  | ok a s' =>
    rw [bind_ok h]
    exact hf a s' h (hx.of_ok h)
  | error e s' =>
    rw [bind_error h]
    exact .error (hx.of_error h)

/-- A triple that promises nothing for a stop. -/
theorem Triple.of_ok (h : ∀ s a s', P s → x.run s = .ok a s' → Q a s') :
    Triple P x Q fun _ _ => True := fun s hs => by
  cases hr : x.run s with
  | ok a s' => exact .ok (h s a s' hs hr)
  | error e s' => exact .error trivial

theorem Triple.bind (hx : Triple P x Q E) (hf : ∀ a, Triple (Q a) (f a) R E) : Triple P (x >>= f) R E :=
  fun s hs => (hx s hs).bind fun a s' _ hq => hf a s' hq

/-- A loop over a list: the invariant counts the iterations done, and an iteration
that stops owes the loop's exit condition. -/
theorem Triple.forM (xs : List α) (body : α → EStateM ε σ PUnit) (I : Nat → σ → Prop)
    (E : ε → σ → Prop)
    (h : ∀ (i : Nat) (hi : i < xs.length), Triple (I i) (body xs[i]) (fun _ => I (i + 1)) E) :
    Triple (I 0) (xs.forM body) (fun _ => I xs.length) E := by
  induction xs generalizing I with
  | nil => exact fun s hs => .ok hs
  | cons x rest ih =>
    show Triple (I 0) (body x >>= fun _ => rest.forM body) _ _
    refine (h 0 (Nat.zero_lt_succ _)).bind fun _ => ?_
    exact ih (fun i => I (i + 1)) fun i hi => h (i + 1) (Nat.succ_lt_succ hi)

theorem Triple.forM_range {n : Nat} {body : Nat → EStateM ε σ PUnit} {I : Nat → σ → Prop} {E : ε → σ → Prop}
    (h : ∀ i < n, Triple (I i) (body i) (fun _ => I (i + 1)) E) :
    Triple (I 0) ((List.range n).forM body) (fun _ => I n) E := by
  have hloop := Triple.forM (List.range n) body I E fun i hi => by
    rw [List.length_range] at hi
    rw [List.getElem_range]
    exact h i hi
  rwa [List.length_range] at hloop

/-! ### Relations a program respects -/

/-- Wherever the program ends, `R` relates the state it started in to the state it is in. -/
def Respects (R : σ → σ → Prop) (x : EStateM ε σ α) : Prop := ∀ s, R s (final (x.run s))

section Respects
variable {R : σ → σ → Prop}

theorem Respects.mono {R' : σ → σ → Prop} (h : Respects R x) (hR : ∀ s s', R s s' → R' s s') : Respects R' x :=
  fun s => hR _ _ (h s)

theorem Respects.of_ok (h : Respects R x) (hrun : x.run s = .ok a s') : R s s' := by
  have hs := h s
  rw [hrun] at hs
  exact hs

theorem Respects.bind [IsTrans σ R] (hx : Respects R x) (hf : ∀ a, Respects R (f a)) :
    Respects R (x >>= f) := fun s => by
  have h := hx s
  cases hr : x.run s with
  | ok a s' =>
    rw [hr] at h
    rw [bind_ok hr]
    exact trans_of R h (hf a s')
  | error e s' =>
    rw [hr] at h
    rw [bind_error hr]
    exact h

theorem Respects.modify {f : σ → σ} (h : ∀ s, R s (f s)) :
    Respects R (modify f : EStateM ε σ PUnit) := h

theorem Respects.pure [Std.Refl R] (a : α) : Respects R (pure a : EStateM ε σ α) := fun s => refl_of R s

theorem Respects.throw [Std.Refl R] (e : ε) : Respects R (throw e : EStateM ε σ α) := fun s => refl_of R s

theorem Respects.get [Std.Refl R] : Respects R (get : EStateM ε σ σ) := fun s => refl_of R s

theorem Respects.ite {c : Prop} [Decidable c] {x y : EStateM ε σ α} (hx : Respects R x) (hy : Respects R y) :
    Respects R (if c then x else y) := by
  split
  · exact hx
  · exact hy

theorem Respects.forM [Std.Refl R] [IsTrans σ R] (xs : List α) {body : α → EStateM ε σ PUnit}
    (h : ∀ a, Respects R (body a)) : Respects R (xs.forM body) := by
  induction xs with
  | nil => exact fun s => refl_of R s
  | cons x rest ih => exact (h x).bind fun _ => ih

end Respects

end OS2021.Lib
