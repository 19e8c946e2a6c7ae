import NrfHciUsb.Support.Simulation

/-!
# Support — Compose

Machines as parts of a larger system.

* `Machine.par`: two machines side by side, that know nothing of each other.
* `Around`, `Machine.within`: what is around a machine.  It follows what the machine shows, and may
  keep it from happening.
* `Simulates.par`, `Simulates.within`: in either place, a machine can be exchanged for one that
  follows it.
-/

namespace NrfHciUsb.Support

variable {σ τ σ₂ τ₂ α β α₂ β₂ ε ε₂ κ γ : Type}

/-! ### Side by side -/

def Machine.par (m : Machine σ α) (m₂ : Machine σ₂ α₂) : Machine (σ × σ₂) (α ⊕ α₂) where
  init := (m.init, m₂.init)
  step s
    | .inl a => (m.step s.1 a).map fun s₁ => (s₁, s.2)
    | .inr a => (m₂.step s.2 a).map fun s₂ => (s.1, s₂)

/-- What is shown, and by which of the two. -/
def parShows (obs : σ → α → List ε) (obs₂ : σ₂ → α₂ → List ε₂) (s : σ × σ₂) :
    α ⊕ α₂ → List (ε ⊕ ε₂)
  | .inl a => (obs s.1 a).map .inl
  | .inr a => (obs₂ s.2 a).map .inr

section
variable {m : Machine σ α} {obs : σ → α → List ε} {m' : Machine τ β} {obs' : τ → β → List ε}
  {m₂ : Machine σ₂ α₂} {obs₂ : σ₂ → α₂ → List ε₂} {m₂' : Machine τ₂ β₂}
  {obs₂' : τ₂ → β₂ → List ε₂}

theorem Machine.Shows.par_left {s s' : σ} {es : List ε} (h : m.Shows obs s es s') (s₂ : σ₂) :
    (m.par m₂).Shows (parShows obs obs₂) (s, s₂) (es.map .inl) (s', s₂) := by
  induction h with
  | refl s => exact .refl _
  | @step s s₁ s' a es hs _ ih =>
      have hstep : (m.par m₂).step (s, s₂) (.inl a) = some (s₁, s₂) := by
        simp only [Machine.par, hs, Option.map_some]
      rw [List.map_append]
      exact .step hstep ih

theorem Machine.Shows.par_right {s s' : σ₂} {es : List ε₂} (h : m₂.Shows obs₂ s es s') (s₁ : σ) :
    (m.par m₂).Shows (parShows obs obs₂) (s₁, s) (es.map .inr) (s₁, s') := by
  induction h with
  | refl s => exact .refl _
  | @step s s₂ s' a es hs _ ih =>
      have hstep : (m.par m₂).step (s₁, s) (.inr a) = some (s₁, s₂) := by
        simp only [Machine.par, hs, Option.map_some]
      rw [List.map_append]
      exact .step hstep ih

theorem Machine.Reachable.of_par {s : σ × σ₂} (h : (m.par m₂).Reachable s) :
    m.Reachable s.1 ∧ m₂.Reachable s.2 := by
  refine h.invariant (P := fun s => m.Reachable s.1 ∧ m₂.Reachable s.2) ⟨.init m, .init m₂⟩ ?_
  rintro s (a | a) s' ⟨h₁, h₂⟩ hs
  · obtain ⟨s₁, hs₁, rfl⟩ := Option.map_eq_some_iff.mp hs
    exact ⟨h₁.step hs₁, h₂⟩
  · obtain ⟨s₂, hs₂, rfl⟩ := Option.map_eq_some_iff.mp hs
    exact ⟨h₁, h₂.step hs₂⟩

theorem Simulates.par {P : σ → Prop} {R : σ → τ → Prop} {P₂ : σ₂ → Prop} {R₂ : σ₂ → τ₂ → Prop}
    (h : Simulates m obs m' obs' P R) (h₂ : Simulates m₂ obs₂ m₂' obs₂' P₂ R₂) :
    Simulates (m.par m₂) (parShows obs obs₂) (m'.par m₂') (parShows obs' obs₂')
      (fun s => P s.1 ∧ P₂ s.2) (fun s t => R s.1 t.1 ∧ R₂ s.2 t.2) where
  init := ⟨h.init, h₂.init⟩
  back := by
    rintro s (a | a) s' hs ⟨hp, hp₂⟩
    · obtain ⟨s₁, hs₁, rfl⟩ := Option.map_eq_some_iff.mp hs
      exact ⟨h.back _ _ _ hs₁ hp, hp₂⟩
    · obtain ⟨s₂, hs₂, rfl⟩ := Option.map_eq_some_iff.mp hs
      exact ⟨hp, h₂.back _ _ _ hs₂ hp₂⟩
  step := by
    rintro s (a | a) s' t hs ⟨hp, hp₂⟩ ⟨hr, hr₂⟩
    · obtain ⟨s₁, hs₁, rfl⟩ := Option.map_eq_some_iff.mp hs
      obtain ⟨t₁, ht, hr'⟩ := h.step _ _ _ _ hs₁ hp hr
      exact ⟨(t₁, t.2), ht.par_left t.2, hr', hr₂⟩
    · obtain ⟨s₂, hs₂, rfl⟩ := Option.map_eq_some_iff.mp hs
      obtain ⟨t₂, ht, hr'⟩ := h₂.step _ _ _ _ hs₂ hp₂ hr₂
      exact ⟨(t.1, t₂), ht.par_right t.1, hr, hr'⟩

end

/-! ### Inside of something -/

/-- What is around a machine: its own steps, and what it makes of what the machine shows, unless it
does not let that happen. -/
structure Around (κ γ ε : Type) where
  init : κ
  step : κ → γ → Option κ
  see : κ → ε → Option κ

def Around.seeAll (c : Around κ γ ε) (k : κ) : List ε → Option κ
  | [] => some k
  | e :: es => (c.see k e).bind fun k' => c.seeAll k' es

theorem Around.seeAll_cons (c : Around κ γ ε) {k k' : κ} {e : ε} (h : c.see k e = some k')
    (es : List ε) : c.seeAll k (e :: es) = c.seeAll k' es := by
  rw [Around.seeAll, h, Option.bind_some]

theorem Around.seeAll_append (c : Around κ γ ε) (k : κ) (es es' : List ε) :
    c.seeAll k (es ++ es') = (c.seeAll k es).bind fun k' => c.seeAll k' es' := by
  induction es generalizing k with
  | nil => rfl
  | cons e es ih =>
      cases h : c.see k e with
      | none => simp [Around.seeAll, h]
      | some k' => simp [Around.seeAll, h, ih]

theorem Around.seeAll_singleton (c : Around κ γ ε) (k : κ) (e : ε) :
    c.seeAll k [e] = c.see k e := by
  cases h : c.see k e <;> simp [Around.seeAll, h]

theorem Around.seeAll_invariant (c : Around κ γ ε) {P : κ → Prop}
    (hsee : ∀ k e k', P k → c.see k e = some k' → P k') {es : List ε} {k k' : κ} (hp : P k)
    (hk : c.seeAll k es = some k') : P k' := by
  induction es generalizing k with
  | nil =>
      cases hk
      exact hp
  | cons e es ih =>
      obtain ⟨k₁, hk₁, hk⟩ := Option.bind_eq_some_iff.mp hk
      exact ih (hsee k e k₁ hp hk₁) hk

/-- The machine, and what is around it. -/
def Machine.within (m : Machine σ α) (obs : σ → α → List ε) (c : Around κ γ ε) :
    Machine (σ × κ) (α ⊕ γ) where
  init := (m.init, c.init)
  step x
    | .inl a => (m.step x.1 a).bind fun s => (c.seeAll x.2 (obs x.1 a)).map fun k => (s, k)
    | .inr g => (c.step x.2 g).map fun k => (x.1, k)

section
variable {m : Machine σ α} {obs : σ → α → List ε} {m' : Machine τ β} {obs' : τ → β → List ε}
  {c : Around κ γ ε}

theorem Machine.within_inner {s s' : σ} {k k' : κ} {a : α} :
    (m.within obs c).step (s, k) (.inl a) = some (s', k') ↔
      m.step s a = some s' ∧ c.seeAll k (obs s a) = some k' := by
  simp [Machine.within, Option.bind_eq_some_iff]

theorem Machine.within_outer {s s' : σ} {k k' : κ} {g : γ} :
    (m.within obs c).step (s, k) (.inr g) = some (s', k') ↔ c.step k g = some k' ∧ s = s' := by
  simp [Machine.within]

/-- What is around the machine lets a step happen if it takes what the step shows. -/
theorem Machine.within_inner_none {s : σ} {k : κ} {a : α}
    (h : (m.within obs c).step (s, k) (.inl a) = none)
    (hsee : (c.seeAll k (obs s a)).isSome = true) : m.step s a = none := by
  obtain ⟨k', hk⟩ := Option.isSome_iff_exists.mp hsee
  cases hs : m.step s a with
  | none => rfl
  | some s' =>
      rw [Machine.within_inner.mpr ⟨hs, hk⟩] at h
      cases h

/-- Steps of the machine, and those steps of what is around it that are of `G`. -/
def Around.Outer (G : γ → Prop) : α ⊕ γ → Prop
  | .inl _ => True
  | .inr g => G g

instance {G : γ → Prop} [DecidablePred G] : DecidablePred (Around.Outer G : α ⊕ γ → Prop)
  | .inl _ => isTrue trivial
  | .inr g => inferInstanceAs (Decidable (G g))

/-- What holds of the machine and what is around it, step by step. -/
theorem Machine.ReachableBy.within_invariant {G : γ → Prop} {P : σ → κ → Prop}
    (hinit : P m.init c.init)
    (hinner : ∀ s a s' k k', P s k → m.step s a = some s' → c.seeAll k (obs s a) = some k' →
      P s' k')
    (houter : ∀ s k g k', G g → P s k → c.step k g = some k' → P s k') {s : σ} {k : κ}
    (h : (m.within obs c).ReachableBy (Around.Outer G) (s, k)) : P s k := by
  refine h.invariant (P := fun x => P x.1 x.2) hinit ?_
  rintro ⟨s, k⟩ (a | g) ⟨s', k'⟩ hg hp hs
  · obtain ⟨hs', hk⟩ := Machine.within_inner.mp hs
    exact hinner s a s' k k' hp hs' hk
  · obtain ⟨hk, rfl⟩ := Machine.within_outer.mp hs
    exact houter s k g k' hg hp hk

theorem Machine.Reachable.within_invariant {P : σ → κ → Prop} (hinit : P m.init c.init)
    (hinner : ∀ s a s' k k', P s k → m.step s a = some s' → c.seeAll k (obs s a) = some k' →
      P s' k')
    (houter : ∀ s k g k', P s k → c.step k g = some k' → P s k') {s : σ} {k : κ}
    (h : (m.within obs c).Reachable (s, k)) : P s k :=
  Machine.ReachableBy.within_invariant (G := fun _ => True) hinit hinner
    (fun s k g k' _ => houter s k g k') (h.byAny.mono fun a _ => by cases a <;> trivial)

/-- Its runs are runs of its own. -/
theorem Machine.Reachable.of_within {s : σ} {k : κ} (h : (m.within obs c).Reachable (s, k)) :
    m.Reachable s :=
  h.within_invariant (P := fun s _ => m.Reachable s) (.init m)
    (fun _ _ _ _ _ ih hs _ => ih.step hs) fun _ _ _ _ ih _ => ih

/-- A run that what is around follows. -/
theorem Machine.Shows.within {s s' : σ} {es : List ε} (h : m.Shows obs s es s') {k k' : κ}
    (hr : (m.within obs c).Reachable (s, k)) (hk : c.seeAll k es = some k') :
    (m.within obs c).Reachable (s', k') := by
  induction h generalizing k with
  | refl s =>
      cases hk
      exact hr
  | @step s s₁ s' a es hs _ ih =>
      rw [Around.seeAll_append] at hk
      obtain ⟨k₁, hk₁, hk⟩ := Option.bind_eq_some_iff.mp hk
      exact ih (hr.step (Machine.within_inner.mpr ⟨hs, hk₁⟩)) hk

/-- **Exchange.**  What is around a machine can be as it is around one that follows the machine. -/
theorem Simulates.within {P : σ → Prop} {R : σ → τ → Prop} (hsim : Simulates m obs m' obs' P R)
    {s : σ} {k : κ} (h : (m.within obs c).Reachable (s, k)) (hp : P s) :
    ∃ t, (m'.within obs' c).Reachable (t, k) ∧ R s t := by
  refine h.within_invariant
    (P := fun s k => P s → ∃ t, (m'.within obs' c).Reachable (t, k) ∧ R s t)
    (fun _ => ⟨m'.init, .init _, hsim.init⟩) ?_ ?_ hp
  · intro s a s' k k' ih hs hk hp
    obtain ⟨t, ht, hr⟩ := ih (hsim.back s a s' hs hp)
    obtain ⟨t', hshows, hr'⟩ := hsim.step s a s' t hs hp hr
    exact ⟨t', hshows.within ht hk, hr'⟩
  · intro s k g k' ih hk hp
    obtain ⟨t, ht, hr⟩ := ih hp
    exact ⟨t, ht.step (Machine.within_outer.mpr ⟨hk, rfl⟩), hr⟩

end

end NrfHciUsb.Support
