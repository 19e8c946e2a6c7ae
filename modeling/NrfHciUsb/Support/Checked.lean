import Mathlib.Data.Nat.Notation

/-!
# Support — Checked

Indices and slices that are checked.  A program that goes out of bounds ends there, in whatever
monad it runs, with the index or slice it asked for.

`frame_bind`: a header, the data copied behind it and the slice up to the data's end are the header
and the data.
-/

namespace NrfHciUsb.Support

variable {α β : Type} {m : Type → Type} [Monad m]

/-- An index or slice expression out of bounds. -/
inductive Panic where
  | index (i len : ℕ)
  | slice (start stop len : ℕ)
  deriving DecidableEq, Repr

/-- `l[i]`. -/
def index (l : List α) (i : ℕ) : ExceptT Panic m α :=
  match l[i]? with
  | some a => pure a
  | none => throw (.index i l.length)

/-- `&l[a..b]`. -/
def slice (l : List α) (a b : ℕ) : ExceptT Panic m (List α) :=
  if a ≤ b ∧ b ≤ l.length then pure ((l.take b).drop a) else throw (.slice a b l.length)

/-- `buf[a..b].copy_from_slice(src)`, with `src` of `b - a` elements. -/
def copyFromSlice (buf : List α) (a b : ℕ) (src : List α) :
    ExceptT Panic m {l : List α // l.length = buf.length} :=
  if h : a ≤ b ∧ b ≤ buf.length ∧ src.length = b - a then
    pure ⟨buf.take a ++ src ++ buf.drop b, by simp; omega⟩
  else throw (.slice a b buf.length)

theorem index_of_lt {l : List α} {i : ℕ} (h : i < l.length) :
    (index l i : ExceptT Panic m α) = pure l[i] := by
  rw [index, List.getElem?_eq_getElem h]

theorem index_of_le {l : List α} {i : ℕ} (h : l.length ≤ i) :
    (index l i : ExceptT Panic m α) = throw (.index i l.length) := by
  rw [index, List.getElem?_eq_none h]

theorem slice_of_le {l : List α} {a b : ℕ} (h : a ≤ b) (h' : b ≤ l.length) :
    (slice l a b : ExceptT Panic m (List α)) = pure ((l.take b).drop a) := if_pos ⟨h, h'⟩

theorem copyFromSlice_of_le {buf src : List α} {a b : ℕ} (h : a ≤ b) (h' : b ≤ buf.length)
    (hs : src.length = b - a) : (copyFromSlice buf a b src : ExceptT Panic m _) =
      pure ⟨buf.take a ++ src ++ buf.drop b, by simp; omega⟩ := dif_pos ⟨h, h', hs⟩

/-- Data copied behind a header, and the slice up to their end, in a buffer with room for both. -/
theorem frame_bind [LawfulMonad m] (header : List α) {data pad : List α} {k n : ℕ}
    (hk : header.length = k) (hn : data.length = n) (h : n ≤ pad.length)
    (f : List α → ExceptT Panic m β) :
    (do let buf ← copyFromSlice (header ++ pad) k (k + n) data
        let frame ← slice buf.val 0 (k + n)
        f frame) = f (header ++ data) := by
  subst hk hn
  rw [copyFromSlice_of_le (Nat.le_add_right _ _) (by simp; omega) (by omega), pure_bind,
    slice_of_le (Nat.zero_le _) (by simp), pure_bind, List.drop_zero]
  refine congrArg f ?_
  simp only
  rw [List.take_left, ← List.length_append, List.take_left]

end NrfHciUsb.Support
