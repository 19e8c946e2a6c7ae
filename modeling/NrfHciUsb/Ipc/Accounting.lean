import NrfHciUsb.Ipc.Queue

/-!
# Ipc — Accounting

The accounting of a ring, after any sequence of whole calls from `ipc_init` that writes fewer
than `2^32` bytes: what the indices say about the unread frames, and how far each exit of
`rb_write` and `rb_read` moves them (`Accounts`, `calls_account`).
-/

namespace NrfHciUsb
open Support

/-- The ring after its first frame, of `k` payload bytes, is released: `read_idx` alone moves. -/
def Ring.advance (m : Ring) (k : ℕ) : Ring := { m with readIdx := m.readIdx + UInt32.ofNat (2 + k) }

/-- What the words and bytes of `m` say about the unread frames `q`, and what each exit of a
call changes. -/
structure Accounts (n : Usize) (m : Ring) (q : FrameQueue n) : Prop where
  /-- `write_idx - read_idx` is the sum of `2 + len`, … -/
  used : m.readIdx.toNat + ringBytes q.items = m.writeIdx.toNat
  /-- … so that it is never more than the data bytes, and zero only for an empty ring. -/
  fits : ringBytes q.items ≤ n.toNat
  empty_iff : m.writeIdx = m.readIdx ↔ q.items = []
  /-- A write succeeds exactly when there is room. -/
  write_iff (payload : List UInt8) : (m.call n (.write payload)).1 = .wrote true ↔
    2 + payload.length ≤ n.toNat - ringBytes q.items
  /-- A write that fails changes nothing. -/
  write_false (payload : List UInt8) : (m.call n (.write payload)).1 = .wrote false →
    (m.call n (.write payload)).2 = m
  /-- A read of an empty ring changes nothing. -/
  read_empty (out : List UInt8) : q.items = [] →
    m.call n (.read out) = (.readBack none out, m)
  /-- A frame larger than `out` is removed, and nothing but `read_idx` changes. -/
  read_discard (out p : List UInt8) (q' : FrameQueue n) : q.pop? = some (p, q') →
    out.length < p.length → m.call n (.read out) = (.readBack none out, m.advance p.length)
  /-- A frame that fits is removed and copied to the front of `out`, and nothing but `read_idx`
  changes. -/
  read_some (out p : List UInt8) (q' : FrameQueue n) : q.pop? = some (p, q') →
    p.length ≤ out.length →
    m.call n (.read out) = (.readBack (some p.length) (p ++ out.drop p.length), m.advance p.length)
  /-- After either, the later frames are still there, in order. -/
  read_later (p : List UInt8) (q' : FrameQueue n) : q.pop? = some (p, q') →
    ∀ outs : List (List UInt8), ((m.advance p.length).calls n (outs.map .read)).1 =
      (FrameQueue.calls q' (outs.map .read)).1

theorem Contents.released_eq_advance {n : Usize} {m : Ring} {R : ℕ} {q : List (List UInt8)}
    (h : Contents n m R q) (k : ℕ) : m.released R k = m.advance k := by
  rw [Ring.released, Ring.advance, h.readIdx, UInt32.ofNat_add]

/-- Reads write nothing. -/
theorem safeCalls_reads {n : Usize} (m : Ring) (outs : List (List UInt8)) :
    m.SafeCalls n (outs.map .read) := by
  induction outs generalizing m with
  | nil => trivial
  | cons out outs ih => exact ⟨trivial, ih _⟩

/-- A ring that holds its frames below position `2^32` accounts for them. -/
theorem Contents.accounts {n : Usize} (hn : n.toNat ≤ 65537) {m : Ring} {R : ℕ}
    {q : FrameQueue n} (h : Contents n m R q.items) (hlt : R + ringBytes q.items < 2 ^ 32) :
    Accounts n m q where
  used := by
    rw [h.readIdx, h.writeIdx, toNat_ofNat_of_lt (by omega),
      toNat_ofNat_of_lt hlt]
  fits := h.fits
  empty_iff := h.idx_eq_iff
  write_iff payload := by
    rw [← h.accepts_iff, Ring.call, run_rbWrite n h.writeIdx]
    split <;> simp [*]
  write_false payload := by
    rw [Ring.call, run_rbWrite n h.writeIdx]
    split <;> simp
  read_empty out hq := by
    rw [hq] at h
    rw [Ring.call, run_rbRead_nil h]
  read_discard out p q' hq hlt := by
    rw [Fifo.pop?_eq_some_iff.mp hq] at h
    rw [Ring.call, run_rbRead_cons hn h, if_neg (by omega), h.released_eq_advance]
  read_some out p q' hq hle := by
    rw [Fifo.pop?_eq_some_iff.mp hq] at h
    rw [Ring.call, run_rbRead_cons hn h, if_pos hle, h.released_eq_advance]
  read_later p q' hq outs := by
    rw [Fifo.pop?_eq_some_iff.mp hq] at h
    rw [← h.released_eq_advance]
    exact (calls_refine hn h.release _ (safeCalls_reads _ outs)).1

theorem bufSize_le : bufSize.toNat ≤ 65537 := by decide

/-- The unread frames after a sequence of calls from `ipc_init`. -/
def unread (cs : List RingCall) : FrameQueue bufSize := (FrameQueue.calls Fifo.empty cs).2

/-- A ring after a sequence of calls from `ipc_init` holds the unread frames. -/
theorem contents_after (m : Ring) {cs : List RingCall}
    (hb : (ipcInit m).bytesWritten bufSize cs < 2 ^ 32) :
    ∃ R, Contents bufSize ((ipcInit m).calls bufSize cs).2 R (unread cs).items ∧
      R + ringBytes (unread cs).items < 2 ^ 32 := by
  have h : Contents bufSize (ipcInit m) 0 (Fifo.empty : FrameQueue bufSize).items :=
    contents_ipcInit _ _
  have hs := safeCalls_of_bytesWritten bufSize_le h cs (by simpa using hb.le)
  obtain ⟨-, R, hR, hend⟩ := calls_refine bufSize_le h cs hs
  exact ⟨R, hR, by rw [unread, hend]; simpa using hb⟩

/-- **Ring accounting is exact and failures are atomic.** -/
theorem calls_account (m : Ring) (cs : List RingCall)
    (hb : (ipcInit m).bytesWritten bufSize cs < 2 ^ 32) :
    ((ipcInit m).calls bufSize cs).1 =
        (FrameQueue.calls (Fifo.empty : FrameQueue bufSize) cs).1 ∧
      Accounts bufSize ((ipcInit m).calls bufSize cs).2 (unread cs) := by
  have h : Contents bufSize (ipcInit m) 0 (Fifo.empty : FrameQueue bufSize).items :=
    contents_ipcInit _ _
  have hs := safeCalls_of_bytesWritten bufSize_le h cs (by simpa using hb.le)
  obtain ⟨R, hR, hlt⟩ := contents_after m hb
  exact ⟨(calls_refine bufSize_le h cs hs).1, hR.accounts bufSize_le hlt⟩

/-- Two writes of different length and a read into a buffer too small for the first. -/
theorem calls_account_discard :
    (ipcInit ⟨7, 9, fun _ => 0⟩).bytesWritten bufSize
        [.write [1, 2], .write [3], .read [0]] < 2 ^ 32 ∧
      Accounts bufSize
        ((ipcInit ⟨7, 9, fun _ => 0⟩).calls bufSize [.write [1, 2], .write [3], .read [0]]).2
        (unread [.write [1, 2], .write [3], .read [0]]) :=
  have hb : (ipcInit ⟨7, 9, fun _ => 0⟩).bytesWritten bufSize
      [.write [1, 2], .write [3], .read [0]] < 2 ^ 32 := by decide
  ⟨hb, (calls_account _ _ hb).2⟩

end NrfHciUsb
