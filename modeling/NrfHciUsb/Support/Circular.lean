import Mathlib.Data.Set.Function
import Mathlib.Order.Interval.Set.Basic

/-!
# Support — Circular

A list kept in a store, its positions counted from `r` on and each position placed by a map
`slot` (`Holds`).  Reading a prefix and dropping one need nothing of `slot`; appending needs
the new position's cell to be none of those in use, which is what injectivity of `slot` on the
window of positions gives (`Holds.store`, `Holds.storeAll`).
-/

namespace NrfHciUsb.Support

variable {ι α : Type} {slot : ℕ → ι} {data : ι → α} {r : ℕ} {l : List α}

/-- `data` holds `l` at the positions from `r` on. -/
def Holds (slot : ℕ → ι) (data : ι → α) (r : ℕ) (l : List α) : Prop :=
  ∀ i (h : i < l.length), data (slot (r + i)) = l[i]

theorem Holds.nil : Holds slot data r [] := by
  intro i h
  exact absurd h (Nat.not_lt_zero i)

theorem holds_append {l₁ l₂ : List α} : Holds slot data r (l₁ ++ l₂) ↔
    Holds slot data r l₁ ∧ Holds slot data (r + l₁.length) l₂ := by
  constructor
  · intro h
    constructor
    · intro i hi
      rw [h i (by simp; omega), List.getElem_append_left hi]
    · intro i hi
      rw [Nat.add_assoc, h (l₁.length + i) (by simp; omega)]
      simp
  · rintro ⟨h₁, h₂⟩ i hi
    rw [List.length_append] at hi
    by_cases h : i < l₁.length
    · rw [h₁ i h, List.getElem_append_left h]
    · have := h₂ (i - l₁.length) (by omega)
      rw [List.getElem_append_right (by omega), ← this]
      congr 2
      omega

theorem Holds.left {l₁ l₂ : List α} (h : Holds slot data r (l₁ ++ l₂)) : Holds slot data r l₁ :=
  (holds_append.mp h).1

theorem Holds.right {l₁ l₂ : List α} (h : Holds slot data r (l₁ ++ l₂)) :
    Holds slot data (r + l₁.length) l₂ :=
  (holds_append.mp h).2

theorem holds_cons {a : α} : Holds slot data r (a :: l) ↔
    data (slot r) = a ∧ Holds slot data (r + 1) l := by
  rw [← List.singleton_append, holds_append]
  refine and_congr_left fun _ => ⟨fun h => h 0 (by simp), fun h i hi => ?_⟩
  obtain rfl : i = 0 := by simpa using hi
  exact h

/-- Only the cells of the positions in use matter. -/
theorem Holds.congr {data' : ι → α} (h : Holds slot data r l)
    (he : ∀ x, r ≤ x → x < r + l.length → data' (slot x) = data (slot x)) :
    Holds slot data' r l := by
  intro i hi
  rw [he _ (by omega) (by omega)]
  exact h i hi

/-- Positions in a window where `slot` is injective. -/
theorem slot_ne_of_injOn {k x y : ℕ} (hs : Set.InjOn slot (Set.Ico r (r + k))) (hx : r ≤ x)
    (hxy : x < y) (hy : y < r + k) : slot x ≠ slot y := by
  intro e
  exact absurd (hs ⟨hx, by omega⟩ ⟨by omega, hy⟩ e) (by omega)

section Store

variable [DecidableEq ι]

/-- Storing the next element extends the list, if its cell is none of those in use. -/
theorem Holds.store {a : α} (h : Holds slot data r l)
    (hs : ∀ x, r ≤ x → x < r + l.length → slot x ≠ slot (r + l.length)) :
    Holds slot (Function.update data (slot (r + l.length)) a) r (l ++ [a]) := by
  rw [holds_append]
  refine ⟨h.congr fun x h₁ h₂ => Function.update_of_ne (hs x h₁ h₂) _ _, ?_⟩
  rw [holds_cons]
  exact ⟨Function.update_self _ _ _, .nil⟩

/-- Stores the elements of a list at the positions from `w` on, in order. -/
def storeAll (slot : ℕ → ι) : ℕ → List α → (ι → α) → ι → α
  | _, [], data => data
  | w, a :: l, data => storeAll slot (w + 1) l (Function.update data (slot w) a)

/-- A cell of none of the positions stored to keeps its element. -/
theorem storeAll_of_ne {w : ℕ} {l : List α} {data : ι → α} {c : ι}
    (hc : ∀ x, w ≤ x → x < w + l.length → slot x ≠ c) : storeAll slot w l data c = data c := by
  induction l generalizing w data with
  | nil => rfl
  | cons a l ih =>
      simp only [List.length_cons] at hc
      rw [storeAll, ih fun x h₁ h₂ => hc x (by omega) (by omega)]
      exact Function.update_of_ne (hc w le_rfl (by omega)).symm _ _

/-- Storing a list after the one in use extends it, if the whole window keeps its cells
apart. -/
theorem Holds.storeAll {l₂ : List α} (h : Holds slot data r l)
    (hs : Set.InjOn slot (Set.Ico r (r + (l.length + l₂.length)))) :
    Holds slot (storeAll slot (r + l.length) l₂ data) r (l ++ l₂) := by
  induction l₂ generalizing l data with
  | nil => simpa [Support.storeAll] using h
  | cons a l₂ ih =>
      have h' : Holds slot (Function.update data (slot (r + l.length)) a) r (l ++ [a]) :=
        h.store fun x h₁ h₂ => slot_ne_of_injOn hs h₁ h₂ (by simp)
      have := ih h' (by simpa [Nat.add_assoc, Nat.add_comm 1] using hs)
      simpa [Support.storeAll, Nat.add_assoc] using this

end Store

end NrfHciUsb.Support
