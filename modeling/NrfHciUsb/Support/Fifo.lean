import Mathlib.Algebra.BigOperators.Group.List.Basic
import Mathlib.Algebra.GroupWithZero.Nat

/-!
# Support — Fifo

Bounded queues.  Each element has a weight, and a queue holds no more than its capacity; the
bound is a field of the queue, so an overfull one cannot be built.  `push?` refuses an element
there is no room for, `pop?` takes the oldest.

With weight `1` this is a channel of a given depth; with the size of an element as its weight,
a byte buffer.
-/

namespace NrfHciUsb.Support

/-- A queue of elements, oldest first, of total weight at most `cap`. -/
structure Fifo (α : Type) (weight : α → ℕ) (cap : ℕ) where
  items : List α
  fits : (items.map weight).sum ≤ cap

namespace Fifo

variable {α : Type} {weight : α → ℕ} {cap : ℕ}

@[ext] theorem ext {q q' : Fifo α weight cap} (h : q.items = q'.items) : q = q' := by
  cases q; cases q'; cases h; rfl

/-- The weight in use. -/
def load (q : Fifo α weight cap) : ℕ := (q.items.map weight).sum

def empty : Fifo α weight cap := ⟨[], Nat.zero_le _⟩

@[simp] theorem empty_items : (empty : Fifo α weight cap).items = [] := rfl

/-- Appends an element, if there is room for it. -/
def push? (q : Fifo α weight cap) (a : α) : Option (Fifo α weight cap) :=
  if h : q.load + weight a ≤ cap then some ⟨q.items ++ [a], by simpa [load] using h⟩ else none

/-- Takes the oldest element. -/
def pop? (q : Fifo α weight cap) : Option (α × Fifo α weight cap) :=
  match q with
  | ⟨[], _⟩ => none
  | ⟨a :: l, h⟩ => some (a, ⟨l, by simp only [List.map_cons, List.sum_cons] at h; omega⟩)

theorem push?_eq_some_iff {q q' : Fifo α weight cap} {a : α} :
    q.push? a = some q' ↔ q.load + weight a ≤ cap ∧ q'.items = q.items ++ [a] := by
  unfold push?
  split
  · simp [Fifo.ext_iff, eq_comm, *]
  · simp [*]

theorem push?_eq_none_iff {q : Fifo α weight cap} {a : α} :
    q.push? a = none ↔ cap < q.load + weight a := by
  unfold push?
  split <;> simp <;> omega

theorem pop?_eq_none_iff {q : Fifo α weight cap} : q.pop? = none ↔ q.items = [] := by
  obtain ⟨_ | ⟨a, l⟩, h⟩ := q <;> simp [pop?]

theorem pop?_eq_some_iff {q q' : Fifo α weight cap} {a : α} :
    q.pop? = some (a, q') ↔ q.items = a :: q'.items := by
  obtain ⟨_ | ⟨b, l⟩, h⟩ := q <;> simp [pop?, Fifo.ext_iff, eq_comm]

/-- A channel refuses an element exactly when it is full. -/
theorem push?_eq_none_iff_length {q : Fifo α (fun _ => 1) cap} {a : α} :
    q.push? a = none ↔ q.items.length = cap := by
  have hload : (q.items.map fun _ => 1).sum = q.items.length := by simp
  have hfits := q.fits
  rw [hload] at hfits
  rw [push?_eq_none_iff, load, hload]
  omega

end Fifo

end NrfHciUsb.Support
