import Mathlib.Data.Set.Function
import Mathlib.Data.Nat.ModEq
import Mathlib.Order.Interval.Set.Basic

/-!
# Support — Window

Positions counted by an index that is never reset, kept in a word of `m` values, and folded
onto a store of `n` cells: position `i` lives in cell `i % m % n` (`slot`).

A window of `k ≤ n` consecutive positions uses `k` different cells as long as the word does not
overflow inside it.  Where it does, the cells after the overflow start again at `0` instead of
following on, and the window keeps its cells apart only if it is no longer than `m % n`
(`injOn_slot_iff`).
-/

namespace NrfHciUsb.Support

/-- The cell of position `i`: the index word is taken modulo `m`, the cell modulo `n`. -/
def slot (m n i : ℕ) : ℕ := i % m % n

theorem slot_of_lt {m n i : ℕ} (h : i < m) : slot m n i = i % n := by
  rw [slot, Nat.mod_eq_of_lt h]

/-- Two numbers less than `n` apart are different modulo `n`. -/
theorem mod_ne_of_lt_add {n x y : ℕ} (hxy : x < y) (hy : y < x + n) : x % n ≠ y % n := by
  intro h
  have hd : n ∣ y - x := (Nat.modEq_iff_dvd' hxy.le).mp h
  have := Nat.le_of_dvd (by omega) hd
  omega

/-- `x + d`'s word, for a step shorter than the word. -/
theorem add_mod_cases {m x d : ℕ} (hd : d < m) :
    (x + d) % m = if x % m + d < m then x % m + d else x % m + d - m := by
  have hm : x % m < m := Nat.mod_lt _ (by omega)
  rw [Nat.add_mod, Nat.mod_eq_of_lt hd]
  split
  · exact Nat.mod_eq_of_lt ‹_›
  · rw [Nat.mod_eq_sub_mod (by omega), Nat.mod_eq_of_lt (by omega)]

/-- Two positions less than `n` apart share a cell exactly when the word overflows between
them and their distance is `m % n`. -/
theorem slot_add_eq_iff {m n x d : ℕ} (hnm : n ≤ m) (h0 : 0 < d) (hd : d < n) :
    slot m n x = slot m n (x + d) ↔ m ≤ x % m + d ∧ m % n = d := by
  have hm : x % m < m := Nat.mod_lt _ (by omega)
  rw [slot, slot, add_mod_cases (by omega : d < m)]
  split
  · constructor
    · intro h
      exact absurd h (mod_ne_of_lt_add (by omega) (by omega))
    · intro h
      exact absurd h.1 (by omega)
  · -- `x % m` is `m - d` past the wrapped position
    have hle : x % m + d - m ≤ x % m := by omega
    have hsub : x % m - (x % m + d - m) = m - d := by omega
    have key : (x % m + d - m) % n = x % m % n ↔ d % n = m % n := by
      constructor
      · intro h
        have := (Nat.modEq_iff_dvd' hle).mp h
        rw [hsub] at this
        exact (Nat.modEq_iff_dvd' (by omega)).mpr this
      · intro h
        have := (Nat.modEq_iff_dvd' (by omega : d ≤ m)).mp h
        rw [← hsub] at this
        exact (Nat.modEq_iff_dvd' hle).mpr this
    rw [Nat.mod_eq_of_lt hd] at key
    constructor
    · intro h; exact ⟨by omega, (key.mp h.symm).symm⟩
    · rintro ⟨-, h⟩; exact (key.mpr h.symm).symm

/-- **Windows.**  `k ≤ n` consecutive positions from `r` on have different cells exactly when
the word does not overflow among them, or they fit in `m % n` cells, or `n` divides `m`. -/
theorem injOn_slot_iff {m n r k : ℕ} (hnm : n ≤ m) (hk : k ≤ n) :
    Set.InjOn (slot m n) (Set.Ico r (r + k)) ↔ r % m + k ≤ m ∨ k ≤ m % n ∨ m % n = 0 := by
  constructor
  · intro h
    by_contra hno
    simp only [not_or, not_le] at hno
    obtain ⟨h₁, h₂, h₃⟩ := hno
    have hm : r % m < m := Nat.mod_lt _ (by omega)
    have hmn : m % n < n := Nat.mod_lt _ (by omega)
    -- the last position before the overflow at distance `m % n`, or `r` itself
    obtain ⟨x, hx, hx'⟩ : ∃ x, x < r + k - m % n ∧ r ≤ x ∧ m ≤ x % m + m % n := by
      by_cases hd : m % n ≤ m - r % m
      · refine ⟨r + (m - r % m - m % n), by omega, by omega, ?_⟩
        rw [add_mod_cases (by omega), if_pos (by omega)]
        omega
      · exact ⟨r, by omega, le_rfl, by omega⟩
    have hs := (slot_add_eq_iff (x := x) hnm (by omega) hmn).mpr ⟨hx'.2, rfl⟩
    have := h ⟨hx'.1, by omega⟩ ⟨by omega, by omega⟩ hs
    omega
  · intro h
    -- it is enough to separate a position from a later one
    have main : ∀ x y, r ≤ x → x < y → y < r + k → slot m n x ≠ slot m n y := by
      intro x y hrx hxy hy hs
      obtain ⟨d, rfl⟩ := Nat.exists_eq_add_of_lt hxy
      rw [Nat.add_assoc] at hs
      obtain ⟨h₁, h₂⟩ := (slot_add_eq_iff hnm (by omega) (by omega)).mp hs
      obtain ⟨e, rfl⟩ := Nat.exists_eq_add_of_le hrx
      rw [add_mod_cases (by omega)] at h₁
      split at h₁ <;> omega
    intro x hx y hy hs
    rcases lt_trichotomy x y with hlt | heq | hgt
    · exact absurd hs (main x y hx.1 hlt hy.2)
    · exact heq
    · exact absurd hs.symm (main y x hy.1 hgt hx.2)

/-- Below the first overflow every window of at most `n` positions keeps its cells apart. -/
theorem injOn_slot_of_le {m n r k : ℕ} (hk : k ≤ n) (h : r + k ≤ m) :
    Set.InjOn (slot m n) (Set.Ico r (r + k)) := by
  intro x hx y hy hs
  simp only [Set.mem_Ico] at hx hy
  rw [slot_of_lt (by omega), slot_of_lt (by omega)] at hs
  rcases lt_trichotomy x y with hlt | heq | hgt
  · exact absurd hs (mod_ne_of_lt_add hlt (by omega))
  · exact heq
  · exact absurd hs.symm (mod_ne_of_lt_add hgt (by omega))

end NrfHciUsb.Support
