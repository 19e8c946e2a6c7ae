import NrfHciUsb.Ipc.Calls
import NrfHciUsb.Support.Thread
import NrfHciUsb.Support.Machine

/-!
# Ipc — Interleave

One ring between the two cores, an access at a time: a producer that runs `rb_write` again and
again and a consumer that runs `rb_read` again and again, under a sequentially consistent memory
in which an index or a byte is read and written whole (`Link`, `link`).

The producer checks for room against a `read_idx` that may since have moved on, and the consumer
looks for a frame with a `write_idx` that may since have moved on.  Both only ever err on the
safe side: `LinkInv` says that the bytes from `read_idx` on are the published frames the consumer
has not released and then the part of the producer's frame that is stored, and that the producer
stays within the `n` bytes from `read_idx` on.
-/

namespace NrfHciUsb
open Support

/-! ### The system -/

/-- What the consumer did with a frame: returned its payload, or discarded it because it exceeds a
buffer of `outLen` bytes. -/
inductive Taken where
  | returned (payload : List UInt8)
  | discarded (payload : List UInt8) (outLen : ℕ)
  deriving DecidableEq, Repr

def Taken.payload : Taken → List UInt8
  | .returned p => p
  | .discarded p _ => p

/-- A ring and its two ends.  `accepted` are the payloads whose `rb_write` returned `true`,
`consumed` what came of the frames read and `written` the ring bytes stored, all since
`ipc_init`. -/
structure Link where
  ring : Ring
  producer : Thread RingOp.Res (List UInt8) Bool
  consumer : Thread RingOp.Res (List UInt8) (Option ℕ × List UInt8)
  accepted : List (List UInt8)
  consumed : List Taken
  written : ℕ

/-- The next thing to happen: a call begins, or a core makes its next access. -/
inductive LinkAct where
  | write (payload : List UInt8)
  | read (out : List UInt8)
  | producer
  | consumer

/-- The payload bytes between `read_idx` and the index a discarded frame ends at. -/
def Ring.skipped (n : Usize) (m : Ring) (v : UInt32) : List UInt8 :=
  (List.range (v - m.readIdx - 2).toNat).map fun i =>
    m.data ((m.readIdx + 2 + UInt32.ofNat i) % n)

/-- What comes of a frame with an access of the consumer: `rb_read` returns `Some` with it, or it
returns `None` with a store of `read_idx`. -/
def Ring.taken (n : Usize) (m : Ring)
    (e : Thread.Event RingOp (List UInt8) (Option ℕ × List UInt8)) : Option Taken :=
  match e.result, e.op with
  | some (some k, out), _ => some (.returned (out.take k))
  | some (none, out), .storeReadIdx v => some (.discarded (m.skipped n v) out.length)
  | _, _ => none

/-- After an access of the producer. -/
def Link.produced (s : Link) (e : Thread.Event RingOp (List UInt8) Bool)
    (t : Thread RingOp.Res (List UInt8) Bool) (m : Ring) : Link :=
  { s with
    ring := m
    producer := t
    accepted := if e.result = some true then s.accepted ++ [e.input] else s.accepted
    written := match e.op with
      | .storeData _ _ => s.written + 1
      | _ => s.written }

/-- After an access of the consumer. -/
def Link.consumedBy (n : Usize) (s : Link)
    (e : Thread.Event RingOp (List UInt8) (Option ℕ × List UInt8))
    (t : Thread RingOp.Res (List UInt8) (Option ℕ × List UInt8)) (m : Ring) : Link :=
  { s with
    ring := m
    consumer := t
    consumed := s.consumed ++ (s.ring.taken n e).toList }

def Link.step (n : Usize) (s : Link) : LinkAct → Option Link
  | .write payload =>
      (s.producer.start payload (rbWrite n payload)).map fun t => { s with producer := t }
  | .read out => (s.consumer.start out (rbRead n out)).map fun t => { s with consumer := t }
  | .producer =>
      (s.producer.step Ring.perform s.ring).map fun (e, t, m) => s.produced e t m
  | .consumer =>
      (s.consumer.step Ring.perform s.ring).map fun (e, t, m) => s.consumedBy n e t m

/-- From `ipc_init` on, with no call under way. -/
def link (n : Usize) (ring : Ring) : Machine Link LinkAct where
  init := ⟨ipcInit ring, .idle, .idle, [], [], 0⟩
  step := Link.step n

/-! ### The accesses of a write, in order -/

/-- The stores of the bytes `bs` from index `w + j` on, then of `write_idx`. -/
def storeFrom (n w : Usize) (v : UInt32) : ℕ → List UInt8 → RingProg Bool
  | _, [] => .vis (.storeWriteIdx v) fun _ => .ret true
  | j, b :: bs => .vis (.storeData ((w + UInt32.ofNat j) % n) b) fun _ => storeFrom n w v (j + 1) bs

/-- `rb_write` once it has loaded both indices. -/
def writeChecked (n : Usize) (payload : List UInt8) (w r : UInt32) : RingProg Bool :=
  if (n - (w - r)).toNat < 2 + payload.length then .ret false
  else storeFrom n w (w + UInt32.ofNat (2 + payload.length)) 0 (frame payload)

theorem rbWritePayload_storeFrom (n w : Usize) (v : UInt32) (i : ℕ) (bs : List UInt8) :
    (rbWritePayload n w i bs >>= fun _ => RingProg.storeWriteIdx v >>= fun _ => pure true) =
      storeFrom n w v (2 + i) bs := by
  induction bs generalizing i with
  | nil => rfl
  | cons b bs ih =>
      have hidx : w + 2 + UInt32.ofNat i = w + UInt32.ofNat (2 + i) := by
        rw [UInt32.ofNat_add, UInt32.add_assoc]; rfl
      rw [storeFrom, ← hidx, Nat.add_assoc 2 i 1, ← ih]
      rfl

theorem rbWrite_eq {n : Usize} {payload : List UInt8} (h : 2 + payload.length ≤ n.toNat) :
    rbWrite n payload =
      .vis .loadWriteIdx fun w => .vis .loadReadIdx (writeChecked n payload w) := by
  rw [rbWrite, if_neg (by omega)]
  refine congrArg (Prog.vis _) (funext fun w => congrArg (Prog.vis _) (funext fun r => ?_))
  show (if _ then _ else _) = writeChecked n payload w r
  rw [writeChecked]
  congr 1
  have h0 : w % n = (w + UInt32.ofNat 0) % n := congrArg (· % n) (UInt32.add_zero w).symm
  rw [frame, storeFrom, storeFrom, ← h0, show 0 + 1 + 1 = 2 + 0 from rfl,
    ← rbWritePayload_storeFrom]
  rfl

/-- A payload that does not fit the ring at all is refused without an access. -/
theorem rbWrite_eq_ret {n : Usize} {payload : List UInt8} (h : n.toNat < 2 + payload.length) :
    rbWrite n payload = .ret false := by
  rw [rbWrite, if_pos h]; rfl

/-! ### The accesses of a read, in order -/

/-- The loads of the payload bytes from byte `i` on, then the store of `read_idx`. -/
def readBody (n r : Usize) (k i : ℕ) (out : List UInt8) : RingProg (Option ℕ × List UInt8) := do
  let out ← rbReadPayload n r i (k - i) out
  RingProg.storeReadIdx (r + 2 + UInt32.ofNat k)
  pure (some k, out)

/-- `rb_read` once it knows the length of the frame. -/
def readLen (n r : Usize) (out : List UInt8) (k : ℕ) : RingProg (Option ℕ × List UInt8) :=
  if k > out.length then .vis (.storeReadIdx (r + 2 + UInt32.ofNat k)) fun _ => .ret (none, out)
  else readBody n r k 0 out

/-- `rb_read` once it has loaded both indices and they differ. -/
def readHead (n r : Usize) (out : List UInt8) : RingProg (Option ℕ × List UInt8) :=
  .vis (.loadData (r % n)) fun lo =>
    .vis (.loadData ((r + 1) % n)) fun hi => readLen n r out (u16FromLeBytes lo hi).toNat

/-- `rb_read` once it has loaded `write_idx`. -/
def readChecked (n : Usize) (out : List UInt8) (w r : UInt32) :
    RingProg (Option ℕ × List UInt8) :=
  if w = r then .ret (none, out) else readHead n r out

theorem rbRead_eq (n : Usize) (out : List UInt8) :
    rbRead n out = .vis .loadWriteIdx fun w => .vis .loadReadIdx (readChecked n out w) := rfl

theorem readBody_lt {n r : Usize} {k i : ℕ} (h : i < k) (out : List UInt8) :
    readBody n r k i out =
      .vis (.loadData ((r + 2 + UInt32.ofNat i) % n)) fun b =>
        readBody n r k (i + 1) (out.set i b) := by
  obtain ⟨d, rfl⟩ := Nat.exists_eq_add_of_lt h
  rw [readBody, show i + d + 1 - i = (i + d + 1 - (i + 1)) + 1 by omega]
  rfl

theorem readBody_self (n r : Usize) (k : ℕ) (out : List UInt8) :
    readBody n r k k out =
      .vis (.storeReadIdx (r + 2 + UInt32.ofNat k)) fun _ => .ret (some k, out) := by
  rw [readBody, Nat.sub_self]
  rfl

end NrfHciUsb
