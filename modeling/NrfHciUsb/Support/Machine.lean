import Mathlib.Logic.Function.Basic

/-!
# Support — Machine

Transition systems with an executable step.  A machine takes an action in a state or refuses
it; a state is reachable when some list of actions leads to it from the initial one.

* `Machine.Reachable.invariant`: what holds initially and survives every step holds of every
  reachable state.
* `Machine.ReachableBy`: the states that actions of a kind lead to.  Where something is assumed of
  who makes the actions, it is assumed here, and the machine is left as it is.
* `Machine.Leads.exists_run`: a state that can be led to, step by step, is at the end of a run.
* `Machine.exists_of_run`: a run that can be computed leads to a state one can decide about.
-/

namespace NrfHciUsb.Support

/-- An initial state, and what each action does where it is enabled. -/
structure Machine (σ α : Type) where
  init : σ
  step : σ → α → Option σ

namespace Machine

variable {σ α : Type}

/-- The state a list of actions leads to from `s`, if each is enabled in its turn. -/
def runFrom (m : Machine σ α) (s : σ) : List α → Option σ
  | [] => some s
  | a :: as => (m.step s a).bind fun s' => m.runFrom s' as

/-- A run from the initial state. -/
def run (m : Machine σ α) (as : List α) : Option σ := m.runFrom m.init as

def Reachable (m : Machine σ α) (s : σ) : Prop := ∃ as, m.run as = some s

theorem runFrom_cons {m : Machine σ α} {s s' : σ} {a : α} (h : m.step s a = some s')
    (as : List α) : m.runFrom s (a :: as) = m.runFrom s' as := by
  simp [runFrom, h]

theorem runFrom_append (m : Machine σ α) (s : σ) (as bs : List α) :
    m.runFrom s (as ++ bs) = (m.runFrom s as).bind fun s' => m.runFrom s' bs := by
  induction as generalizing s with
  | nil => rfl
  | cons a as ih =>
      cases h : m.step s a with
      | none => simp [runFrom, h]
      | some s' => simp [runFrom, h, ih]

theorem Reachable.init (m : Machine σ α) : m.Reachable m.init := ⟨[], rfl⟩

theorem Reachable.step {m : Machine σ α} {s s' : σ} {a : α} (h : m.Reachable s)
    (hs : m.step s a = some s') : m.Reachable s' := by
  obtain ⟨as, has⟩ := h
  refine ⟨as ++ [a], ?_⟩
  rw [run] at has
  rw [run, runFrom_append, has]
  exact runFrom_cons hs []

/-- A run that can be computed, and what can be decided of the state it leads to. -/
theorem exists_of_run (m : Machine σ α) (as : List α) (P : σ → Prop) [DecidablePred P]
    (h : ((m.run as).any fun s => P s) = true) : ∃ s, m.run as = some s ∧ P s := by
  obtain ⟨s, hs, hp⟩ := (Option.any_eq_true _ _).mp h
  exact ⟨s, hs, of_decide_eq_true hp⟩

/-- Actions of `A` can lead from `s` to a state with `P`. -/
inductive Leads (m : Machine σ α) (A : α → Prop) (P : σ → Prop) : σ → Prop where
  | here {s : σ} (h : P s) : m.Leads A P s
  | step {s s' : σ} {a : α} (ha : A a) (hs : m.step s a = some s') (h : m.Leads A P s') :
      m.Leads A P s

theorem Leads.exists_run {m : Machine σ α} {A : α → Prop} {P : σ → Prop} {s : σ}
    (h : m.Leads A P s) : ∃ as s', (∀ a ∈ as, A a) ∧ m.runFrom s as = some s' ∧ P s' := by
  induction h with
  | here h => exact ⟨[], _, nofun, rfl, h⟩
  | step ha hs _ ih =>
      obtain ⟨as, s', has, hrun, hp⟩ := ih
      exact ⟨_ :: as, s', List.forall_mem_cons.mpr ⟨ha, has⟩, (runFrom_cons hs as).trans hrun, hp⟩

/-! ### Actions of a kind -/

/-- Actions of `A` alone lead to `s`. -/
def ReachableBy (m : Machine σ α) (A : α → Prop) (s : σ) : Prop :=
  ∃ as, (∀ a ∈ as, A a) ∧ m.run as = some s

section
variable {m : Machine σ α} {A : α → Prop} {s s' : σ}

theorem ReachableBy.reachable (h : m.ReachableBy A s) : m.Reachable s := by
  obtain ⟨as, -, hrun⟩ := h
  exact ⟨as, hrun⟩

theorem Reachable.byAny (h : m.Reachable s) : m.ReachableBy (fun _ => True) s := by
  obtain ⟨as, hrun⟩ := h
  exact ⟨as, fun _ _ => trivial, hrun⟩

theorem ReachableBy.mono {B : α → Prop} (h : m.ReachableBy A s) (hAB : ∀ a, A a → B a) :
    m.ReachableBy B s := by
  obtain ⟨as, has, hrun⟩ := h
  exact ⟨as, fun a ha => hAB a (has a ha), hrun⟩

/-- A run of such actions goes on from there. -/
theorem ReachableBy.runFrom (h : m.ReachableBy A s) {as : List α} (has : ∀ a ∈ as, A a)
    (hrun : m.runFrom s as = some s') : m.ReachableBy A s' := by
  obtain ⟨before, hbefore, hs⟩ := h
  refine ⟨before ++ as, fun a ha => ?_, ?_⟩
  · exact (List.mem_append.mp ha).elim (hbefore a) (has a)
  · rw [run] at hs
    rw [run, runFrom_append, hs, Option.bind_some, hrun]

/-- What a step of such an action preserves, a run of them preserves. -/
theorem runFrom_invariant {P : σ → Prop}
    (hstep : ∀ s a s', A a → P s → m.step s a = some s' → P s') {as : List α}
    (has : ∀ a ∈ as, A a) (hs : P s) (h : m.runFrom s as = some s') : P s' := by
  induction as generalizing s with
  | nil => cases h; exact hs
  | cons a as ih =>
      obtain ⟨ha, has⟩ := List.forall_mem_cons.mp has
      obtain ⟨s₁, h₁, h₂⟩ := Option.bind_eq_some_iff.mp h
      exact ih has (hstep s a s₁ ha hs h₁) h₂

/-- What holds initially and survives every such step holds of every state they lead to. -/
theorem ReachableBy.invariant {P : σ → Prop} (hinit : P m.init)
    (hstep : ∀ s a s', A a → P s → m.step s a = some s' → P s') (h : m.ReachableBy A s) : P s := by
  obtain ⟨as, has, hrun⟩ := h
  exact runFrom_invariant hstep has hinit hrun

/-- What holds initially and survives every step holds of every reachable state. -/
theorem Reachable.invariant {P : σ → Prop} (hinit : P m.init)
    (hstep : ∀ s a s', P s → m.step s a = some s' → P s') (h : m.Reachable s) : P s :=
  h.byAny.invariant hinit fun s a s' _ => hstep s a s'

end

end Machine

end NrfHciUsb.Support
