import Mathlib.Data.Nat.Notation
import NrfHciUsb.Support.Program

/-!
# Ipc — Ring

The ring buffer of the `thingy53-ipc` crate (`ipc/src/lib.rs`): the shared words and bytes of
one ring, the accesses the two cores make to them, and `rb_write`, `rb_read` and `ipc_init` as
programs over these accesses.

A frame is `[length : u16 LE][payload bytes…]`.  The two indices run freely over `u32`; `usize`
is 32 bits on both targets (`thumbv8m.main`), and release arithmetic wraps, so an address
computation is `UInt32` arithmetic.  The fences order accesses and access nothing; under a
sequentially consistent memory they do nothing, and the programs leave them out.
-/

namespace NrfHciUsb
open Support (Prog)

/-- `usize` on `thumbv8m.main`. -/
abbrev Usize := UInt32

/-- `u16::to_le_bytes`. -/
def u16ToLeBytes (x : UInt16) : UInt8 × UInt8 :=
  (UInt8.ofNat (x.toNat % 256), UInt8.ofNat (x.toNat / 256))

/-- `u16::from_le_bytes`. -/
def u16FromLeBytes (lo hi : UInt8) : UInt16 := UInt16.ofNat (lo.toNat + 256 * hi.toNat)

theorem u16FromLeBytes_toNat (lo hi : UInt8) :
    (u16FromLeBytes lo hi).toNat = lo.toNat + 256 * hi.toNat := by
  have h₁ := lo.toNat_lt
  have h₂ := hi.toNat_lt
  exact UInt16.toNat_ofNat_of_lt (by show _ < 65536; omega)

theorem u16FromLeBytes_toLeBytes (x : UInt16) :
    u16FromLeBytes (u16ToLeBytes x).1 (u16ToLeBytes x).2 = x := by
  have h := x.toNat_lt
  have hlo : (u16ToLeBytes x).1.toNat = x.toNat % 256 :=
    UInt8.toNat_ofNat_of_lt (by show _ < 256; omega)
  have hhi : (u16ToLeBytes x).2.toNat = x.toNat / 256 :=
    UInt8.toNat_ofNat_of_lt (by show _ < 256; omega)
  apply UInt16.toNat_inj.mp
  rw [u16FromLeBytes_toNat, hlo, hhi]
  omega

theorem u16ToLeBytes_fromLeBytes (lo hi : UInt8) :
    u16ToLeBytes (u16FromLeBytes lo hi) = (lo, hi) := by
  have h₁ := lo.toNat_lt
  have h₂ := hi.toNat_lt
  have hlo : (lo.toNat + 256 * hi.toNat) % 256 = lo.toNat := by omega
  have hhi : (lo.toNat + 256 * hi.toNat) / 256 = hi.toNat := by omega
  rw [u16ToLeBytes, u16FromLeBytes_toNat, hlo, hhi, UInt8.ofNat_toNat, UInt8.ofNat_toNat]

/-! ### The shared memory of a ring -/

/-- One ring: `write_idx` at offset 0, `read_idx` at offset 4, `data` from offset 8 on. -/
structure Ring where
  writeIdx : UInt32
  readIdx : UInt32
  data : Usize → UInt8

/-- The accesses of `rb_write` and `rb_read` to a ring: `rb_write_idx`, `rb_read_idx` and the
bytes of `rb_data` at an offset. -/
inductive RingOp where
  | loadWriteIdx
  | loadReadIdx
  | loadData (offset : Usize)
  | storeData (offset : Usize) (b : UInt8)
  | storeWriteIdx (v : UInt32)
  | storeReadIdx (v : UInt32)
  deriving DecidableEq, Repr

@[reducible] def RingOp.Res : RingOp → Type
  | .loadWriteIdx | .loadReadIdx => UInt32
  | .loadData _ => UInt8
  | .storeData _ _ | .storeWriteIdx _ | .storeReadIdx _ => Unit

/-- One access. -/
def Ring.perform : (o : RingOp) → Ring → o.Res × Ring
  | .loadWriteIdx, m => (m.writeIdx, m)
  | .loadReadIdx, m => (m.readIdx, m)
  | .loadData a, m => (m.data a, m)
  | .storeData a b, m => ((), { m with data := Function.update m.data a b })
  | .storeWriteIdx v, m => ((), { m with writeIdx := v })
  | .storeReadIdx v, m => ((), { m with readIdx := v })

abbrev RingProg := Prog RingOp.Res

namespace RingProg

def loadWriteIdx : RingProg UInt32 := Prog.access RingOp.loadWriteIdx
def loadReadIdx : RingProg UInt32 := Prog.access RingOp.loadReadIdx
def loadData (offset : Usize) : RingProg UInt8 := Prog.access (RingOp.loadData offset)
def storeData (offset : Usize) (b : UInt8) : RingProg Unit :=
  Prog.access (RingOp.storeData offset b)
def storeWriteIdx (v : UInt32) : RingProg Unit := Prog.access (RingOp.storeWriteIdx v)
def storeReadIdx (v : UInt32) : RingProg Unit := Prog.access (RingOp.storeReadIdx v)

end RingProg

/-! ### The primitives -/

open RingProg

/-- `N2A_BUF_SIZE` and `A2N_BUF_SIZE`. -/
def bufSize : Usize := 14 * 1024 - 8

/-- The loop of `rb_write` over the payload, from its byte `i` on. -/
def rbWritePayload (bufSize w : Usize) : ℕ → List UInt8 → RingProg Unit
  | _, [] => pure ()
  | i, b :: bs => do
      storeData ((w + 2 + UInt32.ofNat i) % bufSize) b
      rbWritePayload bufSize w (i + 1) bs

/-- `rb_write`.  `total` does not wrap: a slice has at most `isize::MAX` bytes. -/
def rbWrite (bufSize : Usize) (payload : List UInt8) : RingProg Bool :=
  let total := 2 + payload.length
  if total > bufSize.toNat then
    pure false
  else do
    let w ← loadWriteIdx
    let r ← loadReadIdx
    let used := w - r
    let free := bufSize - used
    if free.toNat < total then
      pure false
    else
      let len := u16ToLeBytes (UInt16.ofNat payload.length)
      storeData (w % bufSize) len.1
      storeData ((w + 1) % bufSize) len.2
      rbWritePayload bufSize w 0 payload
      storeWriteIdx (w + UInt32.ofNat total)
      pure true

/-- The loop of `rb_read`: `k` more bytes of the payload, from its byte `i` on, into `out`. -/
def rbReadPayload (bufSize r : Usize) : ℕ → ℕ → List UInt8 → RingProg (List UInt8)
  | _, 0, out => pure out
  | i, k + 1, out => do
      let b ← loadData ((r + 2 + UInt32.ofNat i) % bufSize)
      rbReadPayload bufSize r (i + 1) k (out.set i b)

/-- `rb_read`: the `Option<usize>` it returns and what it leaves in `out`. -/
def rbRead (bufSize : Usize) (out : List UInt8) : RingProg (Option ℕ × List UInt8) := do
  let w ← loadWriteIdx
  let r ← loadReadIdx
  if w = r then
    pure (none, out)
  else
    let lo ← loadData (r % bufSize)
    let hi ← loadData ((r + 1) % bufSize)
    let pktLen := (u16FromLeBytes lo hi).toNat
    if pktLen > out.length then
      -- the frame is skipped, and the caller sees the same `None` as for an empty ring
      storeReadIdx (r + 2 + UInt32.ofNat pktLen)
      pure (none, out)
    else
      let out ← rbReadPayload bufSize r 0 pktLen out
      storeReadIdx (r + 2 + UInt32.ofNat pktLen)
      pure (some pktLen, out)

/-- `ipc_init` on one ring: the headers are zeroed, the data bytes are left as they are. -/
def ipcInit (m : Ring) : Ring := { m with writeIdx := 0, readIdx := 0 }

end NrfHciUsb
