import Mathlib.Data.List.Basic

/-!
# Support — Segments

Messages over a channel of packets of at most `m` elements that marks no boundary: a message is
cut every `m` elements, and a packet shorter than `m` ends it.

* `segments_eq`: the segments are the chunks of the message and, if the last of these is not
  short, an empty packet.
* `reassemble_segments`: the messages are read back from their segments, and nothing is left.
-/

namespace NrfHciUsb.Support

variable {α : Type} {m : ℕ} {l : List α}

/-- The elements of `l` from `m * i` on, `m` of them if there are as many. -/
def cut (m : ℕ) (l : List α) (i : ℕ) : List α := (l.drop (m * i)).take m

/-- `l` cut every `m` elements, without an empty piece. -/
def chunks (m : ℕ) (l : List α) : List (List α) :=
  (List.range ((l.length + (m - 1)) / m)).map (cut m l)

/-- `l` cut every `m` elements, the last piece short. -/
def segments (m : ℕ) (l : List α) : List (List α) :=
  (List.range (l.length / m + 1)).map (cut m l)

theorem cut_zero (m : ℕ) (l : List α) : cut m l 0 = l.take m := rfl

theorem cut_succ (m : ℕ) (l : List α) (i : ℕ) : cut m l (i + 1) = cut m (l.drop m) i := by
  rw [cut, cut, List.drop_drop, Nat.mul_succ, Nat.add_comm]

theorem segments_of_lt (h : l.length < m) : segments m l = [l] := by
  rw [segments, Nat.div_eq_of_lt h, Nat.zero_add, List.range_one, List.map_singleton, cut_zero,
    List.take_of_length_le (Nat.le_of_lt h)]

theorem segments_of_le (hm : 0 < m) (h : m ≤ l.length) :
    segments m l = l.take m :: segments m (l.drop m) := by
  have hdiv : l.length / m = (l.drop m).length / m + 1 := by
    rw [List.length_drop, Nat.div_eq_sub_div hm h]
  rw [segments, hdiv, List.range_succ_eq_map, List.map_cons, List.map_map, cut_zero, segments]
  exact congrArg _ (List.map_congr_left fun i _ => cut_succ m l i)

/-- The segments are the chunks, and an empty packet where the last chunk is not short. -/
theorem segments_eq (hm : 0 < m) (l : List α) :
    segments m l = chunks m l ++ if l.length % m = 0 then [[]] else [] := by
  have hdiv := Nat.div_add_mod l.length m
  by_cases h : l.length % m = 0
  · have hceil : (l.length + (m - 1)) / m = l.length / m := by
      rw [Nat.div_eq_iff hm]
      rw [h, Nat.add_zero, Nat.mul_comm] at hdiv
      omega
    have hlast : cut m l (l.length / m) = [] := by
      rw [h, Nat.add_zero] at hdiv
      rw [cut, hdiv, List.drop_length, List.take_nil]
    rw [if_pos h, segments, chunks, hceil, List.range_succ, List.map_append, List.map_singleton,
      hlast]
  · have hceil : (l.length + (m - 1)) / m = l.length / m + 1 := by
      have hmod := Nat.mod_lt l.length hm
      rw [Nat.div_eq_iff hm, Nat.add_mul, Nat.mul_comm]
      omega
    rw [if_neg h, List.append_nil, segments, chunks, hceil]

/-! ### Reassembly -/

/-- The messages whose last packet has come, with `acc` before the first packet, and what is left
of another. -/
def reassembleFrom (m : ℕ) : List α → List (List α) → List (List α) × List α
  | acc, [] => ([], acc)
  | acc, p :: ps =>
      if p.length < m then
        let r := reassembleFrom m [] ps
        ((acc ++ p) :: r.1, r.2)
      else reassembleFrom m (acc ++ p) ps

/-- The receiver: packets are put together up to the first short one. -/
def reassemble (m : ℕ) (ps : List (List α)) : List (List α) × List α := reassembleFrom m [] ps

/-- A message is complete with its segments, and not before. -/
theorem reassembleFrom_segments (hm : 0 < m) (acc l : List α) (ps : List (List α)) :
    reassembleFrom m acc (segments m l ++ ps) =
      ((acc ++ l) :: (reassemble m ps).1, (reassemble m ps).2) := by
  by_cases h : l.length < m
  · rw [segments_of_lt h, List.singleton_append, reassembleFrom, if_pos h, reassemble]
  · have hle : m ≤ l.length := Nat.le_of_not_lt h
    have hfull : (l.take m).length = m := List.length_take_of_le hle
    have ih := reassembleFrom_segments hm (acc ++ l.take m) (l.drop m) ps
    rw [segments_of_le hm hle, List.cons_append, reassembleFrom, if_neg (by omega), ih,
      List.append_assoc, List.take_append_drop]
termination_by l.length
decreasing_by
  rw [List.length_drop]
  omega

/-- Packets that are not short complete nothing. -/
theorem reassembleFrom_full {ps : List (List α)} (acc : List α) (h : ∀ p ∈ ps, m ≤ p.length) :
    reassembleFrom m acc ps = ([], acc ++ ps.flatten) := by
  induction ps generalizing acc with
  | nil => rw [List.flatten_nil, List.append_nil, reassembleFrom]
  | cons p ps ih =>
      obtain ⟨hp, hps⟩ := List.forall_mem_cons.mp h
      rw [reassembleFrom, if_neg (Nat.not_lt_of_le hp), ih _ hps, List.flatten_cons,
        List.append_assoc]

/-- Only the last segment is short. -/
theorem le_length_of_segments_eq (hm : 0 < m) (l : List α) {ds ps : List (List α)} {p : List α}
    (h : segments m l = ds ++ p :: ps) : ∀ d ∈ ds, m ≤ d.length := by
  cases ds with
  | nil => exact fun _ hd => absurd hd List.not_mem_nil
  | cons d ds =>
      by_cases hlt : l.length < m
      · rw [segments_of_lt hlt, List.cons_append] at h
        exact absurd (List.cons.inj h).2.symm (by simp)
      · have hle : m ≤ l.length := Nat.le_of_not_lt hlt
        rw [segments_of_le hm hle, List.cons_append] at h
        obtain ⟨rfl, hrest⟩ := List.cons.inj h
        have ih := le_length_of_segments_eq hm (l.drop m) hrest
        exact List.forall_mem_cons.mpr ⟨Nat.le_of_eq (List.length_take_of_le hle).symm, ih⟩
termination_by l.length
decreasing_by
  rw [List.length_drop]
  omega

/-- **Reassembly.**  The messages are read back from their segments, and nothing is left. -/
theorem reassemble_segments (hm : 0 < m) (msgs : List (List α)) :
    reassemble m (msgs.flatMap (segments m)) = (msgs, []) := by
  induction msgs with
  | nil => rfl
  | cons l msgs ih =>
      rw [List.flatMap_cons, reassemble, reassembleFrom_segments hm, ih, List.nil_append]

end NrfHciUsb.Support
