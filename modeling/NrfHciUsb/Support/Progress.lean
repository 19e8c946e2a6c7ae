import Mathlib.Data.Nat.Notation
import NrfHciUsb.Support.Machine

/-!
# Support — Progress

Machines some of whose actions cannot go on for ever.  `Settles A Q P`: as long as the states are
of `Q`, every action of `A` leaves less to do, where `P s k` says that there is `k` to do in `s`.

* `Machine.runFrom_le`: a count that no step raises by more than one.
* `Settles.length_le`: there are at most as many actions of `A` in a row as there is to do.
* `Settles.exists_atRest`: they can be made until none of them is enabled, or one leads out of `Q`.
-/

namespace NrfHciUsb.Support

variable {σ α : Type}

namespace Machine

/-- What a step adds at most one to, a run adds at most its length to. -/
theorem runFrom_le {m : Machine σ α} {f : σ → ℕ}
    (hstep : ∀ s a s', m.step s a = some s' → f s' ≤ f s + 1) {s s' : σ} {as : List α}
    (hrun : m.runFrom s as = some s') : f s' ≤ f s + as.length := by
  induction as generalizing s with
  | nil =>
      cases hrun
      exact Nat.le_refl _
  | cons a as ih =>
      obtain ⟨s₁, h₁, h₂⟩ := Option.bind_eq_some_iff.mp hrun
      have hfirst := hstep s a s₁ h₁
      have hrest := ih h₂
      rw [List.length_cons]
      omega

/-- No action of `A` is enabled. -/
def AtRest (m : Machine σ α) (A : α → Prop) (s : σ) : Prop := ∀ a, A a → m.step s a = none

/-- Between states of `Q` the actions of `A` leave less to do. -/
structure Settles (m : Machine σ α) (A : α → Prop) (Q : σ → Prop) (P : σ → ℕ → Prop) : Prop where
  back : ∀ s a s', m.step s a = some s' → Q s' → Q s
  lowers : ∀ s a s' k, A a → m.step s a = some s' → Q s' → P s k → ∃ k' < k, P s' k'

namespace Settles

variable {m : Machine σ α} {A : α → Prop} {Q : σ → Prop} {P : σ → ℕ → Prop} {s s' : σ} {k : ℕ}

theorem back_run (h : m.Settles A Q P) {as : List α} (hrun : m.runFrom s as = some s')
    (hq : Q s') : Q s := by
  induction as generalizing s with
  | nil =>
      cases hrun
      exact hq
  | cons a as ih =>
      obtain ⟨s₁, h₁, h₂⟩ := Option.bind_eq_some_iff.mp hrun
      exact h.back s a s₁ h₁ (ih h₂)

theorem length_le (h : m.Settles A Q P) (hs : P s k) {as : List α} (has : ∀ a ∈ as, A a)
    (hrun : m.runFrom s as = some s') (hq : Q s') : ∃ k', as.length + k' ≤ k ∧ P s' k' := by
  induction as generalizing s k with
  | nil =>
      cases hrun
      exact ⟨k, Nat.le_of_eq (Nat.zero_add _), hs⟩
  | cons a as ih =>
      obtain ⟨s₁, h₁, h₂⟩ := Option.bind_eq_some_iff.mp hrun
      obtain ⟨k₁, hlt, hs₁⟩ := h.lowers s a s₁ k (has a List.mem_cons_self) h₁
        (h.back_run h₂ hq) hs
      obtain ⟨k', hle, hs'⟩ := ih hs₁ (fun b hb => has b (List.mem_cons_of_mem _ hb)) h₂
      rw [List.length_cons]
      exact ⟨k', by omega, hs'⟩

/-- The actions of `A`, made as long as there is one that stays in `Q`. -/
theorem exists_atRest (h : m.Settles A Q P) (hs : P s k) (hq : Q s) :
    ∃ as s', (∀ a ∈ as, A a) ∧ m.runFrom s as = some s' ∧ Q s' ∧
      (m.AtRest A s' ∨ ∃ a s'', A a ∧ m.step s' a = some s'' ∧ ¬ Q s'') := by
  induction k using Nat.strongRecOn generalizing s with
  | ind k ih =>
      by_cases hstop : m.AtRest A s ∨ ∃ a s'', A a ∧ m.step s a = some s'' ∧ ¬ Q s''
      · exact ⟨[], s, nofun, rfl, hq, hstop⟩
      · obtain ⟨hgo, hin⟩ := not_or.mp hstop
        obtain ⟨a, ha⟩ := Classical.not_forall.mp hgo
        obtain ⟨ha, hne⟩ := Classical.not_imp.mp ha
        obtain ⟨s₁, hs₁⟩ := Option.ne_none_iff_exists'.mp hne
        have hq₁ : Q s₁ := Classical.not_not.mp fun hn => hin ⟨a, s₁, ha, hs₁, hn⟩
        obtain ⟨k₁, hlt, hp₁⟩ := h.lowers s a s₁ k ha hs₁ hq₁ hs
        obtain ⟨as, s', has, hrun, hend⟩ := ih k₁ hlt hp₁ hq₁
        exact ⟨a :: as, s', List.forall_mem_cons.mpr ⟨ha, has⟩,
          (runFrom_cons hs₁ as).trans hrun, hend⟩

/-- Fewer actions leave less to do as well. -/
theorem mono (h : m.Settles A Q P) {B : α → Prop} (hBA : ∀ a, B a → A a) : m.Settles B Q P :=
  ⟨h.back, fun s a s' k hb => h.lowers s a s' k (hBA a hb)⟩

/-- Where no state is excluded, they can be made until none of them is enabled. -/
theorem exists_rest (h : m.Settles A (fun _ => True) P) (hs : P s k) :
    ∃ as s', (∀ a ∈ as, A a) ∧ m.runFrom s as = some s' ∧ m.AtRest A s' := by
  obtain ⟨as, s', has, hrun, -, hrest | ⟨a, s'', -, -, hout⟩⟩ := h.exists_atRest hs trivial
  · exact ⟨as, s', has, hrun, hrest⟩
  · exact absurd trivial hout

end Settles

end Machine

end NrfHciUsb.Support
