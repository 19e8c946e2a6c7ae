import NrfHciUsb.Ipc.Accounting

/-!
# Ipc — Drain

The inner loop of both consumers, `while let Some(n) = rb_read(.., &mut buf) { .. }`, with no
write in between.

`drain_eq`: the loop returns the unread frames up to the first that does not fit the buffer,
removes that one too, and stops there, since `rb_read` reports a discarded frame as `None`.
`drain_empties_iff`: so it returns every frame that fits and leaves the ring empty exactly when
no frame but the last is too large.
-/

namespace NrfHciUsb
open Support

/-- The loop: the payloads `out[..n]` it is given, in order, and the ring it leaves.  No result
if `fuel` reads are not enough. -/
def drain (n : Usize) : ℕ → List UInt8 → Ring → Option (List (List UInt8) × Ring)
  | 0, _, _ => none
  | fuel + 1, out, m =>
      match (rbRead n out).run Ring.perform m with
      | ((none, _), m') => some ([], m')
      | ((some k, out'), m') => (drain n fuel out' m').map fun r => (out'.take k :: r.1, r.2)

/-- **The loop.**  It stops at the first frame larger than the buffer, which it removes. -/
theorem drain_eq {n : Usize} (hn : n.toNat ≤ 65537) {q : List (List UInt8)} {m : Ring} {R : ℕ}
    (h : Contents n m R q) (out : List UInt8) {fuel : ℕ} (hf : q.length < fuel) :
    ∃ m' R', drain n fuel out m = some (q.takeWhile fun p => p.length ≤ out.length, m') ∧
      Contents n m' R' ((q.dropWhile fun p => p.length ≤ out.length).drop 1) := by
  obtain ⟨fuel, rfl⟩ := Nat.exists_eq_add_of_lt hf
  clear hf
  induction q generalizing m R out with
  | nil =>
      refine ⟨m, R, ?_, h⟩
      simp [drain, run_rbRead_nil h]
  | cons p q ih =>
      by_cases hfit : p.length ≤ out.length
      · obtain ⟨m', R', hd, hm'⟩ := ih h.release (p ++ out.drop p.length)
        have hlen : (p ++ out.drop p.length).length = out.length := by simp; omega
        simp only [hlen] at hd hm'
        refine ⟨m', R', ?_, by simpa [List.dropWhile_cons, hfit] using hm'⟩
        rw [show (p :: q).length + fuel + 1 = (q.length + fuel + 1) + 1 by simp; omega, drain,
          run_rbRead_cons hn h, if_pos hfit]
        simp [hd, hfit]
      · refine ⟨m.released R p.length, R + (2 + p.length), ?_, ?_⟩
        · rw [drain, run_rbRead_cons hn h, if_neg hfit]
          simp [hfit]
        · simpa [List.dropWhile_cons, hfit] using h.release

/-- Nothing is left behind the first element that fails, and none that passes is lost, exactly
when only the last may fail. -/
theorem takeWhile_all_iff {α : Type} (P : α → Bool) (l : List α) :
    l.takeWhile P = l.filter P ∧ (l.dropWhile P).drop 1 = [] ↔ ∀ a ∈ l.dropLast, P a := by
  induction l with
  | nil => simp
  | cons a l ih =>
      cases hP : P a with
      | true =>
          rcases l.eq_nil_or_concat with rfl | ⟨l', b, rfl⟩
          · simp [hP]
          · have hlast : (a :: (l' ++ [b])).dropLast = a :: l' := by
              rw [← List.cons_append, List.dropLast_concat]
            simpa [hP, hlast] using ih
      | false =>
          cases l with
          | nil => simp [hP]
          | cons b l => simp [hP]

/-- **Draining.**  After any run of fewer than `2^32` bytes the loop terminates; it returns in
order exactly the unread frames that fit and leaves the indices equal if and only if every
unread frame but the last fits. -/
theorem drain_empties_iff (m : Ring) (cs : List RingCall)
    (hb : (ipcInit m).bytesWritten bufSize cs < 2 ^ 32) (out : List UInt8) {fuel : ℕ}
    (hf : (unread cs).items.length < fuel) :
    ∃ returned m', drain bufSize fuel out ((ipcInit m).calls bufSize cs).2 = some (returned, m') ∧
      ((returned = ((unread cs).items.filter fun p => p.length ≤ out.length) ∧
          m'.readIdx = m'.writeIdx) ↔
        ∀ p ∈ (unread cs).items.dropLast, p.length ≤ out.length) := by
  obtain ⟨R, hR, -⟩ := contents_after m hb
  obtain ⟨m', R', hd, hm'⟩ := drain_eq bufSize_le hR out hf
  refine ⟨_, m', hd, ?_⟩
  rw [eq_comm (a := m'.readIdx), hm'.idx_eq_iff, takeWhile_all_iff]
  simp

theorem drain_empties_iff_pair :
    ∃ returned m', drain bufSize 3 [0, 0]
        ((ipcInit ⟨0, 0, fun _ => 0⟩).calls bufSize [.write [1], .write [2, 3]]).2 =
          some (returned, m') ∧
      ((returned = ((unread [.write [1], .write [2, 3]]).items.filter fun p => p.length ≤ 2) ∧
          m'.readIdx = m'.writeIdx) ↔
        ∀ p ∈ (unread [.write [1], .write [2, 3]]).items.dropLast, p.length ≤ 2) :=
  drain_empties_iff _ _ (by decide) [0, 0] (by decide)

/-- A frame of two bytes in front of one of one byte, and a buffer of one byte: the first read
discards the large frame and ends the loop, and the frame that fits stays in the ring. -/
theorem drain_stops_early :
    (unread [.write [1, 2], .write [3]]).items = [[1, 2], [3]] ∧
      ¬ ∃ fuel m', drain bufSize fuel [0]
          ((ipcInit ⟨0, 0, fun _ => 0⟩).calls bufSize [.write [1, 2], .write [3]]).2 =
            some ([[3]], m') ∧ m'.readIdx = m'.writeIdx := by
  refine ⟨by decide, ?_⟩
  rintro ⟨fuel, m', hd, -⟩
  cases fuel with
  | zero => cases hd
  | succ fuel =>
      have hread : ((rbRead bufSize [0]).run Ring.perform
          ((ipcInit ⟨0, 0, fun _ => 0⟩).calls bufSize [.write [1, 2], .write [3]]).2).1 =
            (none, [0]) := by decide
      rw [drain] at hd
      split at hd
      · cases hd
      · rename_i hr
        rw [hr] at hread
        cases hread

end NrfHciUsb
