import NrfHciUsb.Ipc.Calls
import NrfHciUsb.Support.Fifo

/-!
# Ipc — Queue

A ring is a queue of payloads.  `FrameQueue n` is the queue a ring of `n` data bytes stands
for, each payload weighing its frame, and `FrameQueue.call` says what `rb_write` and `rb_read`
are for: append if there is room, take the oldest, which is lost if it does not fit the reader's
buffer.

`call_refines`: from a ring that holds a queue's payloads, a call returns what the queue's
call returns and leaves a ring that holds the resulting queue, provided an accepted frame and
the unread bytes have different cells (`Ring.WrapSafe`).  Before `2^32` bytes are written
nothing needs to be assumed (`safeCalls_of_bytesWritten`).
-/

namespace NrfHciUsb
open Support

/-- The queue of payloads a ring of `n` data bytes stands for. -/
abbrev FrameQueue (n : Usize) := Fifo (List UInt8) (fun p => 2 + p.length) n.toNat

/-- A whole call on a ring. -/
inductive RingCall where
  | write (payload : List UInt8)
  | read (out : List UInt8)

/-- What a call returns: `rb_write`'s flag, or `rb_read`'s `Option<usize>` and its buffer. -/
inductive RingResult where
  | wrote (ok : Bool)
  | readBack (n : Option ℕ) (out : List UInt8)
  deriving DecidableEq, Repr

def Ring.call (n : Usize) (m : Ring) : RingCall → RingResult × Ring
  | .write payload =>
      let r := (rbWrite n payload).run Ring.perform m
      (.wrote r.1, r.2)
  | .read out =>
      let r := (rbRead n out).run Ring.perform m
      (.readBack r.1.1 r.1.2, r.2)

/-- A sequence of whole calls. -/
def Ring.calls (n : Usize) (m : Ring) : List RingCall → List RingResult × Ring
  | [] => ([], m)
  | c :: cs =>
      let r := m.call n c
      let rs := Ring.calls n r.2 cs
      (r.1 :: rs.1, rs.2)

/-- What `rb_write` is for. -/
def FrameQueue.send {n : Usize} (q : FrameQueue n) (payload : List UInt8) :
    Bool × FrameQueue n :=
  match q.push? payload with
  | some q' => (true, q')
  | none => (false, q)

/-- The `Option<usize>` and the buffer of a read that finds the frame of `p`. -/
def received (p out : List UInt8) : Option ℕ × List UInt8 :=
  if p.length ≤ out.length then (some p.length, p ++ out.drop p.length) else (none, out)

/-- What `rb_read` is for. -/
def FrameQueue.recv {n : Usize} (q : FrameQueue n) (out : List UInt8) :
    (Option ℕ × List UInt8) × FrameQueue n :=
  match q.pop? with
  | some (p, q') => (received p out, q')
  | none => ((none, out), q)

def FrameQueue.call {n : Usize} (q : FrameQueue n) : RingCall → RingResult × FrameQueue n
  | .write payload => (.wrote (q.send payload).1, (q.send payload).2)
  | .read out => (.readBack (q.recv out).1.1 (q.recv out).1.2, (q.recv out).2)

def FrameQueue.calls {n : Usize} (q : FrameQueue n) : List RingCall → List RingResult × FrameQueue n
  | [] => ([], q)
  | c :: cs =>
      let r := FrameQueue.call q c
      let rs := FrameQueue.calls r.2 cs
      (r.1 :: rs.1, rs.2)

theorem Ring.calls_append (n : Usize) (m : Ring) (cs ds : List RingCall) :
    (m.calls n (cs ++ ds)).2 = ((m.calls n cs).2.calls n ds).2 := by
  induction cs generalizing m with
  | nil => rfl
  | cons c cs ih => exact ih _

theorem Ring.calls_singleton (n : Usize) (m : Ring) (c : RingCall) :
    (m.calls n [c]).2 = (m.call n c).2 := rfl

theorem FrameQueue.calls_append {n : Usize} (q : FrameQueue n) (cs ds : List RingCall) :
    (FrameQueue.calls q (cs ++ ds)).2 = (FrameQueue.calls (FrameQueue.calls q cs).2 ds).2 := by
  induction cs generalizing q with
  | nil => rfl
  | cons c cs ih => exact ih _

theorem FrameQueue.load_eq {n : Usize} (q : FrameQueue n) : q.load = ringBytes q.items := rfl

theorem FrameQueue.send_cases {n : Usize} (q : FrameQueue n) (p : List UInt8) :
    ((q.send p).1 = true ∧ (q.send p).2.items = q.items ++ [p]) ∨
    ((q.send p).1 = false ∧ (q.send p).2 = q ∧ n.toNat < ringBytes q.items + (2 + p.length)) := by
  rw [FrameQueue.send]
  cases hq : q.push? p with
  | some q' => exact .inl ⟨rfl, (Fifo.push?_eq_some_iff.mp hq).2⟩
  | none => exact .inr ⟨rfl, rfl, Fifo.push?_eq_none_iff.mp hq⟩

theorem FrameQueue.recv_cases {n : Usize} (q : FrameQueue n) (out : List UInt8) :
    (q.items = [] ∧ q.recv out = ((none, out), q)) ∨
    ∃ p q', q.items = p :: q'.items ∧ q.recv out = (received p out, q') := by
  rw [FrameQueue.recv]
  cases hq : q.pop? with
  | none => exact .inl ⟨Fifo.pop?_eq_none_iff.mp hq, rfl⟩
  | some x => exact .inr ⟨x.1, x.2, Fifo.pop?_eq_some_iff.mp hq, rfl⟩

/-! ### Calls whose cells do not collide -/

/-- The unread bytes and the frame of `payload` lie on one side of the overflow of the index
words, or fit in `2^32 % n` cells. -/
def Ring.WrapSafe (n : Usize) (m : Ring) (payload : List UInt8) : Prop :=
  m.readIdx.toNat + ((m.writeIdx - m.readIdx).toNat + (2 + payload.length)) ≤ 2 ^ 32 ∨
    (m.writeIdx - m.readIdx).toNat + (2 + payload.length) ≤ 2 ^ 32 % n.toNat ∨
    2 ^ 32 % n.toNat = 0

instance (n : Usize) (m : Ring) (payload : List UInt8) : Decidable (m.WrapSafe n payload) :=
  inferInstanceAs (Decidable (_ ∨ _ ∨ _))

/-- A write, if accepted, is `WrapSafe`. -/
def Ring.SafeCall (n : Usize) (m : Ring) : RingCall → Prop
  | .write payload => m.Accepts n payload → m.WrapSafe n payload
  | .read _ => True

/-- Every accepted write of a sequence of calls is `WrapSafe`. -/
def Ring.SafeCalls (n : Usize) (m : Ring) : List RingCall → Prop
  | [] => True
  | c :: cs => m.SafeCall n c ∧ Ring.SafeCalls n (m.call n c).2 cs

/-- In terms of positions: `WrapSafe` says that the window of the unread bytes and the frame
keeps its cells apart. -/
theorem Contents.wrapSafe_iff {n : Usize} {m : Ring} {R : ℕ} {q : List (List UInt8)}
    (h : Contents n m R q) {payload : List UInt8} (ha : m.Accepts n payload) :
    m.WrapSafe n payload ↔
      Set.InjOn (ringSlot n) (Set.Ico R (R + (ringBytes q + (2 + payload.length)))) := by
  have hroom := (h.accepts_iff payload).mp ha
  have hn := n.toNat_lt
  rw [injOn_ringSlot, injOn_slot_iff (by omega) (by omega), Ring.WrapSafe, h.used, h.readIdx,
    UInt32.toNat_ofNat']

/-! ### Refinement -/

/-- The ring bytes a call writes, by its result. -/
def RingCall.bytes : RingCall → RingResult → ℕ
  | .write payload, .wrote true => 2 + payload.length
  | _, _ => 0

/-- The ring bytes a sequence of calls writes. -/
def Ring.bytesWritten (n : Usize) (m : Ring) : List RingCall → ℕ
  | [] => 0
  | c :: cs => c.bytes (m.call n c).1 + Ring.bytesWritten n (m.call n c).2 cs

/-- An accepted write, as a call. -/
theorem Contents.call_write {n : Usize} {m : Ring} {R : ℕ} {q : List (List UInt8)}
    (h : Contents n m R q) {p : List UInt8} (ha : m.Accepts n p)
    (hs : Set.InjOn (ringSlot n) (Set.Ico R (R + (ringBytes q + (2 + p.length))))) :
    Contents n (m.call n (.write p)).2 R (q ++ [p]) := by
  rw [Ring.call, run_rbWrite n h.writeIdx, if_pos ha]
  exact h.write ha hs

/-- A read of a ring with an unread frame, as a call. -/
theorem Contents.call_read {n : Usize} (hn : n.toNat ≤ 65537) {m : Ring} {R : ℕ}
    {p : List UInt8} {q : List (List UInt8)} (h : Contents n m R (p :: q)) (out : List UInt8) :
    Contents n (m.call n (.read out)).2 (R + (2 + p.length)) q := by
  rw [Ring.call, run_rbRead_cons hn h]
  exact h.release

/-- **One call** of the ring is one call of the queue.  The position behind the unread bytes
moves by the bytes written. -/
theorem call_refines {n : Usize} (hn : n.toNat ≤ 65537) {m : Ring} {R : ℕ} {q : FrameQueue n}
    (h : Contents n m R q.items) (c : RingCall) (hs : m.SafeCall n c) :
    (m.call n c).1 = (FrameQueue.call q c).1 ∧
      ∃ R', Contents n (m.call n c).2 R' (FrameQueue.call q c).2.items ∧
        R' + ringBytes (FrameQueue.call q c).2.items =
          R + ringBytes q.items + c.bytes (m.call n c).1 := by
  cases c with
  | write payload =>
      rw [Ring.call, run_rbWrite n h.writeIdx]
      by_cases ha : m.Accepts n payload
      · have hroom := (h.accepts_iff payload).mp ha
        have hpush : q.load + (2 + payload.length) ≤ n.toNat := by
          rw [FrameQueue.load_eq]; omega
        obtain ⟨q', hq'⟩ : ∃ q', q.push? payload = some q' := ⟨_, dif_pos hpush⟩
        rw [FrameQueue.call, FrameQueue.send, hq', if_pos ha, (Fifo.push?_eq_some_iff.mp hq').2]
        refine ⟨rfl, R, h.write ha ((h.wrapSafe_iff ha).mp (hs ha)), ?_⟩
        simp [RingCall.bytes, Nat.add_assoc]
      · have hroom := mt (h.accepts_iff payload).mpr ha
        have hpush : q.push? payload = none := by
          rw [Fifo.push?_eq_none_iff, FrameQueue.load_eq]
          have := h.fits
          omega
        rw [FrameQueue.call, FrameQueue.send, hpush, if_neg ha]
        exact ⟨rfl, R, h, rfl⟩
  | read out =>
      cases hq : q.pop? with
      | none =>
          have h₀ := h
          rw [Fifo.pop?_eq_none_iff.mp hq] at h₀
          rw [Ring.call, run_rbRead_nil h₀, FrameQueue.call, FrameQueue.recv, hq]
          exact ⟨rfl, R, h, rfl⟩
      | some pq =>
          obtain ⟨p, q'⟩ := pq
          rw [Fifo.pop?_eq_some_iff.mp hq] at h ⊢
          rw [Ring.call, run_rbRead_cons hn h, FrameQueue.call, FrameQueue.recv, hq]
          have hend : R + (2 + p.length) + ringBytes q'.items =
              R + ringBytes (p :: q'.items) + 0 := by
            simp [Nat.add_assoc]
          exact ⟨rfl, _, h.release, hend⟩

/-- **Every sequence of calls** of the ring is the same sequence of calls of the queue. -/
theorem calls_refine {n : Usize} (hn : n.toNat ≤ 65537) {m : Ring} {R : ℕ} {q : FrameQueue n}
    (h : Contents n m R q.items) (cs : List RingCall) (hs : m.SafeCalls n cs) :
    (m.calls n cs).1 = (FrameQueue.calls q cs).1 ∧
      ∃ R', Contents n (m.calls n cs).2 R' (FrameQueue.calls q cs).2.items ∧
        R' + ringBytes (FrameQueue.calls q cs).2.items =
          R + ringBytes q.items + m.bytesWritten n cs := by
  induction cs generalizing m R q with
  | nil => exact ⟨rfl, R, h, rfl⟩
  | cons c cs ih =>
      obtain ⟨hres, R', h', hend⟩ := call_refines hn h c hs.1
      obtain ⟨hres', R'', h'', hend'⟩ := ih h' hs.2
      simp only [Ring.calls, FrameQueue.calls, Ring.bytesWritten, hres']
      refine ⟨by rw [hres], R'', h'', ?_⟩
      rw [hend', hend, Nat.add_assoc]

/-- A call that ends no later than position `2^32` is safe. -/
theorem safeCall_of_le {n : Usize} {m : Ring} {R : ℕ} {q : List (List UInt8)}
    (h : Contents n m R q) {c : RingCall}
    (hb : R + ringBytes q + c.bytes (m.call n c).1 ≤ 2 ^ 32) : m.SafeCall n c := by
  cases c with
  | read out => trivial
  | write payload =>
      intro ha
      have hroom := (h.accepts_iff payload).mp ha
      simp only [Ring.call, run_rbWrite n h.writeIdx, if_pos ha, RingCall.bytes] at hb
      rw [h.wrapSafe_iff ha, injOn_ringSlot]
      exact injOn_slot_of_le (by omega) (by omega)

/-- **Before `2^32` bytes are written** every sequence of calls is safe. -/
theorem safeCalls_of_bytesWritten {n : Usize} (hn : n.toNat ≤ 65537) {m : Ring} {R : ℕ}
    {q : FrameQueue n} (h : Contents n m R q.items) (cs : List RingCall)
    (hb : R + ringBytes q.items + m.bytesWritten n cs ≤ 2 ^ 32) : m.SafeCalls n cs := by
  induction cs generalizing m R q with
  | nil => trivial
  | cons c cs ih =>
      rw [Ring.bytesWritten] at hb
      have hs : m.SafeCall n c := safeCall_of_le h (by omega)
      obtain ⟨-, R', h', hend⟩ := call_refines hn h c hs
      exact ⟨hs, ih h' (by omega)⟩

end NrfHciUsb
