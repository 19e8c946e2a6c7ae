import Mathlib.Data.Nat.Notation
import NrfHciUsb.Support.Program

/-!
# Support — Handler

A program over large operations, each of which is itself a program over smaller ones.

* `Prog.Yields`: the operations a program can perform, each with its answer, and what it returns
  after them.
* `Prog.attach`: a program that returns its values together with what is known of them.
* `Prog.subst`: the operations replaced by programs.  `yields_subst`: the program does what it did
  before, and each operation is answered by what its program returns (`Expands`).
-/

namespace NrfHciUsb.Support

namespace Prog

variable {Op Op' σ α β : Type} {Res : Op → Type} {Res' : Op' → Type}

/-- Operations, each with its answer. -/
abbrev History (Res : Op → Type) := List ((o : Op) × Res o)

/-- With the operations so answered, the program returns `a`. -/
inductive Yields : Prog Res α → History Res → α → Prop where
  | ret (a : α) : Yields (.ret a) [] a
  | vis {o : Op} {k : Res o → Prog Res α} (x : Res o) {h : History Res} {a : α}
      (hk : Yields (k x) h a) : Yields (.vis o k) (⟨o, x⟩ :: h) a

theorem yields_ret_iff {a b : α} {h : History Res} :
    Yields (.ret a) h b ↔ h = [] ∧ b = a := by
  constructor
  · intro hy
    cases hy
    exact ⟨rfl, rfl⟩
  · rintro ⟨rfl, rfl⟩
    exact .ret _

theorem yields_vis_iff {o : Op} {k : Res o → Prog Res α} {h : History Res} {a : α} :
    Yields (.vis o k) h a ↔ ∃ x h', h = ⟨o, x⟩ :: h' ∧ Yields (k x) h' a := by
  constructor
  · intro hy
    cases hy with
    | vis x hk => exact ⟨x, _, rfl, hk⟩
  · rintro ⟨x, h', rfl, hk⟩
    exact .vis x hk

/-- A run is one of the histories of the program. -/
theorem yields_history (perform : (o : Op) → σ → Res o × σ) (p : Prog Res α) (s : σ) :
    Yields p (history perform p s) (run perform p s).1 := by
  induction p generalizing s with
  | ret a => exact .ret a
  | vis o k ih => exact .vis _ (ih _ _)

theorem yields_bind_iff {p : Prog Res α} {f : α → Prog Res β} {h : History Res} {b : β} :
    Yields (p >>= f) h b ↔ ∃ h₁ a h₂, h = h₁ ++ h₂ ∧ Yields p h₁ a ∧ Yields (f a) h₂ b := by
  show Yields (p.bind f) h b ↔ _
  induction p generalizing h with
  | ret a =>
      constructor
      · intro hy
        exact ⟨[], a, h, rfl, .ret a, hy⟩
      · rintro ⟨h₁, a', h₂, rfl, hp, hf⟩
        obtain ⟨rfl, rfl⟩ := yields_ret_iff.mp hp
        exact hf
  | vis o k ih =>
      constructor
      · intro hy
        obtain ⟨x, h', rfl, hk⟩ := yields_vis_iff.mp hy
        obtain ⟨h₁, a, h₂, rfl, hp, hf⟩ := (ih x).mp hk
        exact ⟨⟨o, x⟩ :: h₁, a, h₂, rfl, .vis x hp, hf⟩
      · rintro ⟨h₁, a, h₂, rfl, hp, hf⟩
        obtain ⟨x, h', rfl, hk⟩ := yields_vis_iff.mp hp
        exact .vis x ((ih x).mpr ⟨h', a, h₂, rfl, hk, hf⟩)

theorem yields_map_iff {p : Prog Res α} {f : α → β} {h : History Res} {b : β} :
    Yields (f <$> p) h b ↔ ∃ a, Yields p h a ∧ b = f a := by
  rw [map_eq_pure_bind, yields_bind_iff]
  constructor
  · rintro ⟨h₁, a, h₂, rfl, hp, hf⟩
    obtain ⟨rfl, rfl⟩ := yields_ret_iff.mp hf
    exact ⟨a, by rwa [List.append_nil], rfl⟩
  · rintro ⟨a, hp, rfl⟩
    exact ⟨h, a, [], (List.append_nil h).symm, hp, .ret _⟩

/-! ### Values with what is known of them -/

/-- The program, its value with the fact that it is one the program can return. -/
def attach {Q : α → Prop} : (p : Prog Res α) → Ensures Q p → Prog Res {a // Q a}
  | .ret a, hq => .ret ⟨a, hq⟩
  | .vis o k, hq => .vis o fun x => (k x).attach (hq x)

/-! ### Operations replaced by programs -/

/-- Each operation `o` replaced by `impl o`. -/
def subst (impl : (o : Op) → Prog Res' (Res o)) : Prog Res α → Prog Res' α
  | .ret a => .ret a
  | .vis o k => (impl o).bind fun x => subst impl (k x)

variable (impl : (o : Op) → Prog Res' (Res o))

/-- A history of large operations, and one of the small operations that make them up. -/
inductive Expands : History Res → History Res' → Prop where
  | nil : Expands [] []
  | cons {o : Op} {x : Res o} {h : History Res} {h₁ h₂ : History Res'}
      (ho : Yields (impl o) h₁ x) (h' : Expands h h₂) : Expands (⟨o, x⟩ :: h) (h₁ ++ h₂)

/-- **Substitution.**  What the program does with its operations replaced, it does with them, each
answered by what its program returns. -/
theorem yields_subst {p : Prog Res α} {h : History Res'} {a : α}
    (hy : Yields (p.subst impl) h a) : ∃ h', Yields p h' a ∧ Expands impl h' h := by
  induction p generalizing h with
  | ret b =>
      obtain ⟨rfl, rfl⟩ := yields_ret_iff.mp hy
      exact ⟨[], .ret _, .nil⟩
  | vis o k ih =>
      obtain ⟨h₁, x, h₂, rfl, ho, hk⟩ := yields_bind_iff.mp hy
      obtain ⟨h', hy', hexp⟩ := ih x hk
      exact ⟨⟨o, x⟩ :: h', .vis x hy', .cons ho hexp⟩

/-- Operations replaced by others: the history is the same under the new names. -/
theorem expands_access {f : Op → Op'} {h : History fun o => Res' (f o)} {h' : History Res'}
    (hexp : Expands (fun o => access (f o)) h h') :
    h' = h.map fun w => ⟨f w.1, w.2⟩ := by
  induction hexp with
  | nil => rfl
  | @cons o x h h₁ h₂ ho _ ih =>
      obtain ⟨x', h₃, rfl, hret⟩ := yields_vis_iff.mp ho
      obtain ⟨rfl, rfl⟩ := yields_ret_iff.mp hret
      rw [ih]
      rfl

end Prog

end NrfHciUsb.Support
