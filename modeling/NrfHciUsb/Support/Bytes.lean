import Mathlib.Algebra.GroupWithZero.Nat
import Mathlib.Data.List.Nodup
import Mathlib.Data.Nat.Notation
import Mathlib.Logic.Function.Basic

/-!
# Support — Bytes

Numbers in a memory of bytes.  A number takes the bytes at a list of addresses, the least
significant first; the addresses need not be consecutive, only different.

* `loadLe_storeLe`: what was stored is read back.
* `storeLe_of_notMem`, `loadLe_congr`: a store changes, and a load depends on, no other byte.
-/

namespace NrfHciUsb.Support

variable {A : Type} [DecidableEq A]

/-- The number in the bytes at `as`. -/
def loadLe (m : A → UInt8) : List A → ℕ
  | [] => 0
  | a :: as => (m a).toNat + 256 * loadLe m as

/-- Stores as much of a number as the bytes at `as` hold. -/
def storeLe (m : A → UInt8) : List A → ℕ → A → UInt8
  | [], _ => m
  | a :: as, n => Function.update (storeLe m as (n / 256)) a (UInt8.ofNat n)

omit [DecidableEq A] in
theorem loadLe_congr {m m' : A → UInt8} {as : List A} (h : ∀ a ∈ as, m a = m' a) :
    loadLe m as = loadLe m' as := by
  induction as with
  | nil => rfl
  | cons a as ih =>
      obtain ⟨ha, has⟩ := List.forall_mem_cons.mp h
      rw [loadLe, loadLe, ha, ih has]

omit [DecidableEq A] in
theorem loadLe_lt (m : A → UInt8) (as : List A) : loadLe m as < 256 ^ as.length := by
  induction as with
  | nil => exact Nat.one_pos
  | cons a as ih =>
      have ha : (m a).toNat < 256 := (m a).toNat_lt
      rw [loadLe, List.length_cons, Nat.pow_succ']
      omega

theorem storeLe_of_notMem {m : A → UInt8} {as : List A} {n : ℕ} {a : A} (h : a ∉ as) :
    storeLe m as n a = m a := by
  induction as generalizing n with
  | nil => rfl
  | cons b as ih =>
      rw [List.mem_cons, not_or] at h
      rw [storeLe, Function.update_of_ne h.1, ih h.2]

/-- What a store leaves in a byte depends on that byte only. -/
theorem storeLe_congr {m m' : A → UInt8} (as : List A) (n : ℕ) {a : A} (h : m a = m' a) :
    storeLe m as n a = storeLe m' as n a := by
  induction as generalizing n with
  | nil => exact h
  | cons b as ih =>
      rw [storeLe, storeLe]
      by_cases hab : a = b
      · subst hab
        rw [Function.update_self, Function.update_self]
      · rw [Function.update_of_ne hab, Function.update_of_ne hab, ih]

theorem loadLe_storeLe {as : List A} (h : as.Nodup) (m : A → UInt8) (n : ℕ) :
    loadLe (storeLe m as n) as = n % 256 ^ as.length := by
  induction as generalizing n with
  | nil => exact (Nat.mod_one n).symm
  | cons a as ih =>
      obtain ⟨ha, has⟩ := List.nodup_cons.mp h
      have htail : loadLe (storeLe m (a :: as) n) as = loadLe (storeLe m as (n / 256)) as := by
        refine loadLe_congr fun b hb => Function.update_of_ne ?_ _ _
        rintro rfl
        exact ha hb
      have hhead : (storeLe m (a :: as) n a).toNat = n % 256 := by
        rw [storeLe, Function.update_self, UInt8.toNat_ofNat']
      rw [loadLe, htail, hhead, ih has, List.length_cons, Nat.pow_succ', Nat.mod_mul]

end NrfHciUsb.Support
