import Mathlib.Data.Nat.Notation

/-!
# Support — Noninterference

Calls of several owners on one state.  An owner sees the results of its own calls and a part of
the state, given by the relation of looking alike to it.

`Unwinding.purge`: if an owner's calls depend on nothing else and the calls of the others change
none of it, it sees what it would see if the others made no calls.
-/

namespace NrfHciUsb.Support

variable {D ι ρ σ : Type} [DecidableEq D]

/-- A list of calls, each with its owner, from one state to the next. -/
def runCalls (step : D → ι → σ → ρ × σ) : σ → List (D × ι) → List (D × ρ) × σ
  | s, [] => ([], s)
  | s, (d, c) :: cs =>
      let r := step d c s
      let rs := runCalls step r.2 cs
      ((d, r.1) :: rs.1, rs.2)

/-- The calls or the results of one owner. -/
def ofOwner {β : Type} (d : D) (l : List (D × β)) : List (D × β) := l.filter fun x => x.1 = d

theorem ofOwner_cons_self {β : Type} (d : D) (x : β) (l : List (D × β)) :
    ofOwner d ((d, x) :: l) = (d, x) :: ofOwner d l :=
  List.filter_cons_of_pos (decide_eq_true rfl)

theorem ofOwner_cons_of_ne {β : Type} {d e : D} (h : e ≠ d) (x : β) (l : List (D × β)) :
    ofOwner d ((e, x) :: l) = ofOwner d l :=
  List.filter_cons_of_neg (by simpa using h)

/-- States that look alike to `d` give its calls the same results, and look alike after them; and
a call of another owner leaves a state that looks the same. -/
structure Unwinding (step : D → ι → σ → ρ × σ) (d : D) (alike : σ → σ → Prop) : Prop where
  trans : ∀ {s₁ s₂ s₃}, alike s₁ s₂ → alike s₂ s₃ → alike s₁ s₃
  own : ∀ {s s'} (c : ι), alike s s' →
    (step d c s).1 = (step d c s').1 ∧ alike (step d c s).2 (step d c s').2
  other : ∀ {e} (c : ι) (s : σ), e ≠ d → alike (step e c s).2 s

/-- **Noninterference.**  The results of an owner's calls, and what it sees at the end, are those
of its calls alone. -/
theorem Unwinding.purge {step : D → ι → σ → ρ × σ} {d : D} {alike : σ → σ → Prop}
    (h : Unwinding step d alike) (cs : List (D × ι)) {s s' : σ} (hs : alike s s') :
    ofOwner d (runCalls step s cs).1 = (runCalls step s' (ofOwner d cs)).1 ∧
      alike (runCalls step s cs).2 (runCalls step s' (ofOwner d cs)).2 := by
  induction cs generalizing s s' with
  | nil => exact ⟨rfl, hs⟩
  | cons x cs ih =>
      obtain ⟨e, c⟩ := x
      by_cases he : e = d
      · subst he
        obtain ⟨hres, hnext⟩ := h.own c hs
        obtain ⟨htail, hend⟩ := ih hnext
        rw [ofOwner_cons_self, runCalls, runCalls, ofOwner_cons_self, htail, hres]
        exact ⟨rfl, hend⟩
      · rw [ofOwner_cons_of_ne he, runCalls, ofOwner_cons_of_ne he]
        exact ih (h.trans (h.other c s he) hs)

end NrfHciUsb.Support
