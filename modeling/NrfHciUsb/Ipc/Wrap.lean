import NrfHciUsb.Ipc.Accounting
import Mathlib.Data.List.Nodup
import Mathlib.Data.List.Range

/-!
# Ipc — Wrap

The indices of a ring wrap at `2^32`, and the data area has `14328` bytes, which does not divide
`2^32`: the byte after index `2^32 - 1`, at offset `6015`, is at offset `0`.

* `slots_nodup_iff`: the unread bytes and an accepted frame have different offsets exactly when
  they lie on one side of the wrap or take at most `2^32 % 14328 = 6016` bytes together.
* `wrapSafe_exact`, by `calls_refine`: a run whose accepted writes all meet this condition is a run
  of the queue, however long it is.
* `wrap_collides`: a run that does not, and the frame it loses.
-/

namespace NrfHciUsb
open Support

/-- The offsets of the unread bytes. -/
def Ring.unreadSlots (n : Usize) (m : Ring) : List Usize :=
  (List.range (m.writeIdx - m.readIdx).toNat).map fun k => (m.readIdx + UInt32.ofNat k) % n

/-- The offsets a frame of `payload` is stored at. -/
def Ring.frameSlots (n : Usize) (m : Ring) (payload : List UInt8) : List Usize :=
  (List.range (2 + payload.length)).map fun k => (m.writeIdx + UInt32.ofNat k) % n

/-- The unread bytes and the frame are one window of consecutive positions. -/
theorem Ring.slots_eq (n : Usize) (m : Ring) (payload : List UInt8) :
    m.unreadSlots n ++ m.frameSlots n payload =
      (List.range ((m.writeIdx - m.readIdx).toNat + (2 + payload.length))).map
        fun k => ringSlot n (m.readIdx.toNat + k) := by
  have hr : ∀ k, (m.readIdx + UInt32.ofNat k) % n = ringSlot n (m.readIdx.toNat + k) := by
    intro k
    rw [ringSlot_add, UInt32.ofNat_toNat]
  have hw : ∀ k, (m.writeIdx + UInt32.ofNat k) % n =
      ringSlot n (m.readIdx.toNat + ((m.writeIdx - m.readIdx).toNat + k)) := by
    intro k
    rw [ringSlot_add, UInt32.ofNat_add, UInt32.ofNat_toNat, UInt32.ofNat_toNat,
      ← UInt32.add_assoc, UInt32.add_comm m.readIdx, UInt32.sub_add_cancel]
  rw [List.range_add, List.map_append, List.map_map]
  simp only [Ring.unreadSlots, Ring.frameSlots, hr, hw, Function.comp_def]

/-- **Slots.**  The unread bytes and an accepted frame have different offsets exactly when the
write is `WrapSafe`. -/
theorem slots_nodup_iff {n : Usize} {m : Ring} (hused : (m.writeIdx - m.readIdx).toNat ≤ n.toNat)
    {payload : List UInt8} (ha : m.Accepts n payload) :
    (m.unreadSlots n ++ m.frameSlots n payload).Nodup ↔ m.WrapSafe n payload := by
  have hroom : (m.writeIdx - m.readIdx).toNat + (2 + payload.length) ≤ n.toNat := by
    have := ha.2
    rw [UInt32.toNat_sub_of_le _ _ (UInt32.le_iff_toNat_le.mpr hused)] at this
    omega
  have hn := n.toNat_lt
  rw [m.slots_eq, List.nodup_map_iff_inj_on List.nodup_range, Ring.WrapSafe,
    ← Nat.mod_eq_of_lt m.readIdx.toNat_lt, ← injOn_slot_iff (by omega) hroom, ← injOn_ringSlot,
    Nat.mod_eq_of_lt m.readIdx.toNat_lt]
  simp only [List.mem_range]
  constructor
  · intro h x hx y hy e
    obtain ⟨i, rfl⟩ := Nat.exists_eq_add_of_le hx.1
    obtain ⟨j, rfl⟩ := Nat.exists_eq_add_of_le hy.1
    have := hx.2
    have := hy.2
    rw [h i (by omega) j (by omega) e]
  · intro h i hi j hj e
    have := h ⟨Nat.le_add_right _ i, by omega⟩ ⟨Nat.le_add_right _ j, by omega⟩ e
    omega

/-- **Runs of any length.**  The offsets of the unread bytes and of an accepted frame differ
exactly when the write is `WrapSafe`; and in a run from `ipc_init` whose accepted writes all are,
every call returns what the queue returns, there are never more unread bytes than cells, and a
further such write leaves every unread byte alone. -/
theorem wrapSafe_exact (m : Ring) :
    (∀ payload, (m.writeIdx - m.readIdx).toNat ≤ bufSize.toNat → m.Accepts bufSize payload →
      ((m.unreadSlots bufSize ++ m.frameSlots bufSize payload).Nodup ↔
        m.WrapSafe bufSize payload)) ∧
    ∀ cs m', (ipcInit m).SafeCalls bufSize cs → m' = ((ipcInit m).calls bufSize cs).2 →
      ((ipcInit m).calls bufSize cs).1 =
          (FrameQueue.calls (Fifo.empty : FrameQueue bufSize) cs).1 ∧
        (m'.writeIdx - m'.readIdx).toNat ≤ bufSize.toNat ∧
        ∀ payload, m'.Accepts bufSize payload → m'.WrapSafe bufSize payload →
          ∀ a ∈ m'.unreadSlots bufSize,
            (m'.call bufSize (.write payload)).2.data a = m'.data a := by
  refine ⟨fun payload hu ha => slots_nodup_iff hu ha, ?_⟩
  rintro cs m' hs rfl
  have h₀ : Contents bufSize (ipcInit m) 0 (Fifo.empty : FrameQueue bufSize).items :=
    contents_ipcInit _ _
  obtain ⟨hres, R, h, -⟩ := calls_refine bufSize_le h₀ cs hs
  refine ⟨hres, h.used ▸ h.fits, ?_⟩
  intro payload ha hsafe a hmem
  simp only [Ring.unreadSlots, List.mem_map, List.mem_range] at hmem
  obtain ⟨k, hk, rfl⟩ := hmem
  rw [h.used] at hk
  have hslot : (((ipcInit m).calls bufSize cs).2.readIdx + UInt32.ofNat k) % bufSize =
      ringSlot bufSize (R + k) := by
    rw [ringSlot_add, h.readIdx]
  rw [hslot, Ring.call, run_rbWrite _ h.writeIdx, if_pos ha]
  exact Ring.stored_data ((h.wrapSafe_iff ha).mp hsafe) (Nat.le_add_right _ _) (by omega)

/-- A frame across `2^32` behind 6012 unread bytes, the largest that is safe there. -/
theorem wrapSafe_exact_small :
    ((Ring.unreadSlots bufSize ⟨4294967293, 4294961281, fun _ => 0⟩ ++
        Ring.frameSlots bufSize ⟨4294967293, 4294961281, fun _ => 0⟩ [1, 2]).Nodup ↔
      Ring.WrapSafe bufSize ⟨4294967293, 4294961281, fun _ => 0⟩ [1, 2]) ∧
    ((ipcInit ⟨0, 0, fun _ => 0⟩).calls bufSize [.write [1], .read [0]]).1 =
      (FrameQueue.calls (Fifo.empty : FrameQueue bufSize) [.write [1], .read [0]]).1 :=
  ⟨(wrapSafe_exact _).1 _ (by decide) (by decide),
    ((wrapSafe_exact ⟨0, 0, fun _ => 0⟩).2 [.write [1], .read [0]] _
      ⟨fun _ => by decide, trivial, trivial⟩ rfl).1⟩

/-! ### A run across the wrap -/

/-- A frame written to an empty ring below the wrap and read back. -/
theorem Contents.round {n : Usize} (hn : n.toNat ≤ 65537) {m : Ring} {R : ℕ}
    (h : Contents n m R []) {p : List UInt8} (hp : 2 + p.length ≤ n.toNat)
    (hR : R + (2 + p.length) ≤ 2 ^ 32) (out : List UInt8) :
    Contents n (m.calls n [.write p, .read out]).2 (R + (2 + p.length)) [] := by
  have ha : m.Accepts n p := (h.accepts_iff p).mpr (by simpa using hp)
  have hs : Set.InjOn (ringSlot n) (Set.Ico R (R + (ringBytes [] + (2 + p.length)))) :=
    injOn_ringSlot.mpr (injOn_slot_of_le (by simpa using hp) (by simpa using hR))
  exact (h.call_write ha hs).call_read hn out

/-- `k` times a frame written and read back. -/
def rounds (p : List UInt8) (k : ℕ) : List RingCall :=
  (List.replicate k [.write p, .read p]).flatten

theorem rounds_succ (p : List UInt8) (k : ℕ) :
    rounds p (k + 1) = rounds p k ++ [.write p, .read p] := by
  simp [rounds, List.replicate_succ', List.flatten_append]

theorem contents_rounds {n : Usize} (hn : n.toNat ≤ 65537) (m : Ring) {p : List UInt8}
    (hp : 2 + p.length ≤ n.toNat) {k : ℕ} (hk : k * (2 + p.length) ≤ 2 ^ 32) :
    Contents n ((ipcInit m).calls n (rounds p k)).2 (k * (2 + p.length)) [] := by
  induction k with
  | zero =>
      rw [Nat.zero_mul]
      exact contents_ipcInit n m
  | succ k ih =>
      rw [Nat.succ_mul] at hk ⊢
      rw [rounds_succ, Ring.calls_append]
      exact (ih (by omega)).round hn hp hk p

theorem FrameQueue.push?_empty {n : Usize} {p : List UInt8} (hp : 2 + p.length ≤ n.toNat) :
    ∃ q, (Fifo.empty : FrameQueue n).push? p = some q ∧ q.items = [p] := by
  have h : (Fifo.empty : FrameQueue n).load + (2 + p.length) ≤ n.toNat := by
    simpa [Fifo.load] using hp
  exact ⟨_, dif_pos h, rfl⟩

/-- The queue agrees: each round leaves nothing unread. -/
theorem unread_rounds {n : Usize} {p : List UInt8} (hp : 2 + p.length ≤ n.toNat) (k : ℕ) :
    (FrameQueue.calls (Fifo.empty : FrameQueue n) (rounds p k)).2 = Fifo.empty := by
  induction k with
  | zero => rfl
  | succ k ih =>
      obtain ⟨q, hq, hitems⟩ := FrameQueue.push?_empty hp
      have hpop : q.pop? = some (p, Fifo.empty) := by
        rw [Fifo.pop?_eq_some_iff, hitems]
        rfl
      rw [rounds_succ, FrameQueue.calls_append, ih]
      simp only [FrameQueue.calls, FrameQueue.call, FrameQueue.send, FrameQueue.recv, hq, hpop]

/-- A payload whose frame fills the ring. -/
def fullPayload : List UInt8 := List.replicate 14326 0

/-- A payload whose frame takes `6016` bytes. -/
def tailPayload : List UInt8 := List.replicate 6014 0

/-- `299760` full rings written and read back, then a frame that ends at the wrap. -/
def wrapRun : List RingCall := rounds fullPayload 299760 ++ [.write tailPayload]

theorem fullPayload_length : fullPayload.length = 14326 := List.length_replicate

theorem tailPayload_length : tailPayload.length = 6014 := List.length_replicate

theorem bufSize_toNat : bufSize.toNat = 14328 := by decide

/-- From an empty ring whose next position is `6016` bytes below the wrap, the frame of
`tailPayload` ends at the wrap. -/
theorem contents_tail {m : Ring} (h : Contents bufSize m 4294961280 []) :
    Contents bufSize (m.call bufSize (.write tailPayload)).2 4294961280 [tailPayload] := by
  have ha := (h.accepts_iff tailPayload).mpr (by
    rw [tailPayload_length, bufSize_toNat, ringBytes_nil]; decide)
  have hs : Set.InjOn (ringSlot bufSize)
      (Set.Ico 4294961280 (4294961280 + (ringBytes [] + (2 + tailPayload.length)))) :=
    injOn_ringSlot.mpr (injOn_slot_of_le
      (by rw [tailPayload_length, bufSize_toNat, ringBytes_nil]; decide)
      (by rw [tailPayload_length, ringBytes_nil]; decide))
  exact h.call_write ha hs

theorem contents_wrapRun (m : Ring) :
    Contents bufSize ((ipcInit m).calls bufSize wrapRun).2 4294961280 [tailPayload] := by
  have h := contents_rounds bufSize_le m (p := fullPayload) (k := 299760)
    (by rw [fullPayload_length, bufSize_toNat]) (by rw [fullPayload_length]; decide)
  rw [fullPayload_length, show 299760 * (2 + 14326) = 4294961280 from by decide] at h
  rw [wrapRun, Ring.calls_append, Ring.calls_singleton]
  exact contents_tail h

theorem unread_wrapRun : (unread wrapRun).items = [tailPayload] := by
  obtain ⟨q, hq, hitems⟩ := FrameQueue.push?_empty (n := bufSize) (p := tailPayload)
    (by rw [tailPayload_length, bufSize_toNat]; decide)
  rw [unread, wrapRun, FrameQueue.calls_append,
    unread_rounds (by rw [fullPayload_length, bufSize_toNat])]
  simp only [FrameQueue.calls, FrameQueue.call, FrameQueue.send, hq, hitems]

/-- A length header of zero is read as an empty payload, whatever else is in the ring. -/
theorem call_read_zero {n : Usize} {m : Ring} (hne : m.writeIdx ≠ m.readIdx)
    (hlo : m.data (m.readIdx % n) = 0) (hhi : m.data ((m.readIdx + 1) % n) = 0)
    (out : List UInt8) : (m.call n (.read out)).1 = .readBack (some 0) out := by
  have hz : (u16FromLeBytes 0 0).toNat = 0 := by decide
  simp [Ring.call, rbRead, RingProg.loadWriteIdx, RingProg.loadReadIdx, RingProg.loadData,
    RingProg.storeReadIdx, Ring.perform, hne, hlo, hhi, hz, rbReadPayload]

/-- With that frame unread, the header of an empty one lands on its header. -/
theorem tail_collides {m : Ring} (h : Contents bufSize m 4294961280 [tailPayload]) :
    m.Accepts bufSize [] ∧ ¬ (m.unreadSlots bufSize ++ m.frameSlots bufSize []).Nodup ∧
      ((m.call bufSize (.write [])).2.call bufSize (.read tailPayload)).1 =
        .readBack (some 0) tailPayload := by
  have hbytes : ringBytes [tailPayload] = 6016 := by
    rw [ringBytes_cons, tailPayload_length, ringBytes_nil]
  have hused := h.used
  have hW := h.writeIdx
  rw [hbytes] at hused hW
  have ha : m.Accepts bufSize [] := (h.accepts_iff []).mpr (by
    rw [hbytes, bufSize_toNat]; decide)
  have hunsafe : ¬ m.WrapSafe bufSize [] := by
    rw [Ring.WrapSafe, hused, h.readIdx]
    decide
  refine ⟨ha, mt (slots_nodup_iff (by rw [hused]; decide) ha).mp hunsafe, ?_⟩
  rw [Ring.call, run_rbWrite bufSize hW, if_pos ha]
  -- the cells of the new header, at position `2^32`
  have hs0 : ringSlot bufSize (4294961280 + 6016) = 0 := by decide
  have hs1 : ringSlot bufSize (4294961280 + 6016 + 1) = 1 := by decide
  apply call_read_zero
  · simp only [Ring.stored, h.readIdx]
    decide
  · simp only [Ring.stored, h.readIdx, frame, storeAll, hs0, hs1,
      show UInt32.ofNat 4294961280 % bufSize = 0 by decide]
    rfl
  · simp only [Ring.stored, h.readIdx, frame, storeAll, hs0, hs1,
      show (UInt32.ofNat 4294961280 + 1) % bufSize = 1 by decide]
    rfl

/-- **A frame is lost at the wrap.**  After `wrapRun` one frame of `6014` payload bytes is
unread; a write of an empty payload is accepted, two of its offsets are the unread frame's, and
the next read returns an empty payload in place of the `6014` bytes. -/
theorem wrap_collides :
    (unread wrapRun).items = [tailPayload] ∧
      ((ipcInit ⟨0, 0, fun _ => 0⟩).calls bufSize wrapRun).2.Accepts bufSize [] ∧
      ¬ (((ipcInit ⟨0, 0, fun _ => 0⟩).calls bufSize wrapRun).2.unreadSlots bufSize ++
        ((ipcInit ⟨0, 0, fun _ => 0⟩).calls bufSize wrapRun).2.frameSlots bufSize []).Nodup ∧
      ((((ipcInit ⟨0, 0, fun _ => 0⟩).calls bufSize wrapRun).2.call bufSize (.write [])).2.call
        bufSize (.read tailPayload)).1 = .readBack (some 0) tailPayload :=
  ⟨unread_wrapRun, tail_collides (contents_wrapRun _)⟩

end NrfHciUsb
