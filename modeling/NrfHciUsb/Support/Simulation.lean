import NrfHciUsb.Support.Machine

/-!
# Support — Simulation

What a machine shows of its runs, to whoever sees neither its state nor its steps, and machines
that follow another so that they show the same.

* `Machine.Shows`, `Machine.shown`: what a run shows, as a relation and computed from its actions.
* `Simulates.shows`: a machine that can match each step of another, by any number of its own that
  show the same, can match each run.  The steps need matching only up to a bound, a property of
  states that no step brings back once it is lost.
-/

namespace NrfHciUsb.Support

variable {σ τ α β ε : Type}

/-- A run of `m` from one state to another, and what it shows: an action `a` in a state `s` shows
`obs s a`. -/
inductive Machine.Shows (m : Machine σ α) (obs : σ → α → List ε) : σ → List ε → σ → Prop where
  | refl (s : σ) : m.Shows obs s [] s
  | step {s s₁ s' : σ} {a : α} {es : List ε} (hs : m.step s a = some s₁)
      (h : m.Shows obs s₁ es s') : m.Shows obs s (obs s a ++ es) s'

namespace Machine.Shows

variable {m : Machine σ α} {obs : σ → α → List ε} {s s₁ s' : σ} {es es' : List ε}

theorem one {a : α} (hs : m.step s a = some s') : m.Shows obs s (obs s a) s' := by
  have h : m.Shows obs s (obs s a ++ []) s' := .step hs (.refl s')
  rwa [List.append_nil] at h

theorem trans (h : m.Shows obs s es s₁) (h' : m.Shows obs s₁ es' s') :
    m.Shows obs s (es ++ es') s' := by
  induction h with
  | refl => exact h'
  | step hs _ ih =>
      rw [List.append_assoc]
      exact .step hs (ih h')

/-- Where each step shows at most one thing, a run can be cut at any point of what it shows. -/
theorem split (hone : ∀ s a, (obs s a).length ≤ 1) (h : m.Shows obs s (es ++ es') s') :
    ∃ s₁, m.Shows obs s es s₁ ∧ m.Shows obs s₁ es' s' := by
  generalize hes : es ++ es' = all at h
  induction h generalizing es with
  | refl s =>
      obtain ⟨rfl, rfl⟩ := List.append_eq_nil_iff.mp hes
      exact ⟨s, .refl s, .refl s⟩
  | @step s s₁ s' a rest hs hrest ih =>
      cases es with
      | nil =>
          rw [List.nil_append] at hes
          exact ⟨s, .refl s, hes ▸ .step hs hrest⟩
      | cons e es =>
          have hlen := hone s a
          cases hobs : obs s a with
          | nil =>
              rw [hobs, List.nil_append] at hes
              obtain ⟨s₂, hleft, hright⟩ := ih hes
              exact ⟨s₂, by simpa [hobs] using Shows.step hs hleft, hright⟩
          | cons e' l =>
              rw [hobs, List.length_cons] at hlen
              obtain rfl : l = [] := List.eq_nil_of_length_eq_zero (by omega)
              rw [hobs, List.cons_append, List.singleton_append] at hes
              obtain ⟨rfl, hrest⟩ := List.cons_eq_cons.mp hes
              obtain ⟨s₂, hleft, hright⟩ := ih hrest
              exact ⟨s₂, by simpa [hobs] using Shows.step hs hleft, hright⟩

/-- What every step preserves, a run preserves. -/
theorem invariant {P : σ → Prop} (hstep : ∀ s a s', P s → m.step s a = some s' → P s')
    (h : m.Shows obs s es s') (hs : P s) : P s' := by
  induction h with
  | refl => exact hs
  | step hst _ ih => exact ih (hstep _ _ _ hs hst)

/-- What no step brings back, held all along. -/
theorem back {P : σ → Prop} (hback : ∀ s a s', m.step s a = some s' → P s' → P s)
    (h : m.Shows obs s es s') (hs : P s') : P s := by
  induction h with
  | refl => exact hs
  | step hst _ ih => exact hback _ _ _ hst (ih hs)

end Machine.Shows

/-- What a list of actions shows. -/
def Machine.shown (m : Machine σ α) (obs : σ → α → List ε) (s : σ) : List α → List ε
  | [] => []
  | a :: as =>
      match m.step s a with
      | some s' => obs s a ++ m.shown obs s' as
      | none => []

theorem Machine.shows_of_runFrom {m : Machine σ α} (obs : σ → α → List ε) {s s' : σ}
    {as : List α} (h : m.runFrom s as = some s') : m.Shows obs s (m.shown obs s as) s' := by
  induction as generalizing s with
  | nil =>
      cases h
      exact .refl _
  | cons a as ih =>
      obtain ⟨s₁, h₁, h₂⟩ := Option.bind_eq_some_iff.mp h
      rw [Machine.shown, h₁]
      exact .step h₁ (ih h₂)

/-- What is shown is shown by some list of actions. -/
theorem Machine.Shows.exists_run {m : Machine σ α} {obs : σ → α → List ε} {s s' : σ} {es : List ε}
    (h : m.Shows obs s es s') : ∃ as, m.runFrom s as = some s' ∧ m.shown obs s as = es := by
  induction h with
  | refl => exact ⟨[], rfl, rfl⟩
  | step hs _ ih =>
      obtain ⟨as, hrun, hshown⟩ := ih
      refine ⟨_ :: as, (Machine.runFrom_cons hs as).trans hrun, ?_⟩
      rw [Machine.shown, hs, ← hshown]

/-- `m'` follows `m` in the states related by `R`, up to the bound `P`. -/
structure Simulates (m : Machine σ α) (obs : σ → α → List ε) (m' : Machine τ β)
    (obs' : τ → β → List ε) (P : σ → Prop) (R : σ → τ → Prop) : Prop where
  init : R m.init m'.init
  back : ∀ s a s', m.step s a = some s' → P s' → P s
  step : ∀ s a s' t, m.step s a = some s' → P s' → R s t →
    ∃ t', m'.Shows obs' t (obs s a) t' ∧ R s' t'

/-- **Simulation.**  Whatever a run shows, a run of the following machine shows. -/
theorem Simulates.shows {m : Machine σ α} {obs : σ → α → List ε} {m' : Machine τ β}
    {obs' : τ → β → List ε} {P : σ → Prop} {R : σ → τ → Prop} (hsim : Simulates m obs m' obs' P R)
    {s s' : σ} {es : List ε} {t : τ} (h : m.Shows obs s es s') (hp : P s') (hr : R s t) :
    ∃ t', m'.Shows obs' t es t' ∧ R s' t' := by
  induction h generalizing t with
  | refl => exact ⟨t, .refl t, hr⟩
  | step hs hrest ih =>
      obtain ⟨t₁, h₁, hr₁⟩ := hsim.step _ _ _ t hs (hrest.back hsim.back hp) hr
      obtain ⟨t', h', hr'⟩ := ih hp hr₁
      exact ⟨t', h₁.trans h', hr'⟩

end NrfHciUsb.Support
