import NrfHciUsb.Ipc.Ring
import NrfHciUsb.Support.Window
import NrfHciUsb.Support.Circular

/-!
# Ipc — Calls

What a whole `rb_write` and a whole `rb_read` do to a ring.  `Contents n m R q` says that the
ring `m` of `n` data bytes holds the unread frames `q`, the first of them at the absolute
position `R`: positions count every ring byte since `ipc_init` and never wrap, and the ring's
words are their residues modulo `2^32`.

* `run_rbWrite`: a write either changes nothing or stores the frame after the unread bytes and
  moves `write_idx` past it.
* `Contents.write`: if the unread bytes and the frame have different cells, the ring then holds
  the frame behind the others.
* `run_rbRead_nil`, `run_rbRead_cons`: a read takes the first frame, whether or not it fits.
-/

namespace NrfHciUsb
open Support

/-! ### Words and cells of a position -/

/-- The offset of position `i`: the index word's residue modulo the data size. -/
def ringSlot (n : Usize) (i : ℕ) : Usize := UInt32.ofNat i % n

theorem ringSlot_toNat (n : Usize) (i : ℕ) : (ringSlot n i).toNat = slot (2 ^ 32) n.toNat i := by
  rw [ringSlot, UInt32.toNat_mod, UInt32.toNat_ofNat', slot]

theorem ringSlot_inj {n : Usize} {i j : ℕ} :
    ringSlot n i = ringSlot n j ↔ slot (2 ^ 32) n.toNat i = slot (2 ^ 32) n.toNat j := by
  rw [← ringSlot_toNat, ← ringSlot_toNat, UInt32.toNat_inj]

theorem injOn_ringSlot {n : Usize} {s : Set ℕ} :
    Set.InjOn (ringSlot n) s ↔ Set.InjOn (slot (2 ^ 32) n.toNat) s :=
  ⟨fun h _ hx _ hy e => h hx hy (ringSlot_inj.mpr e),
    fun h _ hx _ hy e => h hx hy (ringSlot_inj.mp e)⟩

/-- The cell `k` positions on. -/
theorem ringSlot_add (n : Usize) (i k : ℕ) :
    ringSlot n (i + k) = (UInt32.ofNat i + UInt32.ofNat k) % n := by
  rw [ringSlot, UInt32.ofNat_add]

/-- The index behind a frame of `k` payload bytes at position `R`. -/
theorem ofNat_frame_end (R k : ℕ) :
    UInt32.ofNat R + 2 + UInt32.ofNat k = UInt32.ofNat (R + (2 + k)) := by
  rw [← Nat.add_assoc, UInt32.ofNat_add, UInt32.ofNat_add]
  rfl

/-- The cell of byte `i` of that payload. -/
theorem ringSlot_payload (n : Usize) (R i : ℕ) :
    (UInt32.ofNat R + 2 + UInt32.ofNat i) % n = ringSlot n (R + 2 + i) := by
  rw [ofNat_frame_end, ringSlot, Nat.add_assoc]

theorem toNat_ofNat_of_lt {i : ℕ} (h : i < 2 ^ 32) : (UInt32.ofNat i).toNat = i :=
  UInt32.toNat_ofNat_of_lt' h

/-- The distance of two words of positions less than `2^32` apart. -/
theorem ofNat_add_sub_toNat {R k : ℕ} (hk : k < 2 ^ 32) :
    (UInt32.ofNat (R + k) - UInt32.ofNat R).toNat = k := by
  rw [Nat.add_comm, UInt32.ofNat_add, UInt32.add_sub_cancel, toNat_ofNat_of_lt hk]

theorem ofNat_add_eq_iff {R k : ℕ} (hk : k < 2 ^ 32) :
    UInt32.ofNat (R + k) = UInt32.ofNat R ↔ k = 0 := by
  constructor
  · intro h
    rw [← ofNat_add_sub_toNat (R := R) hk, h, UInt32.sub_self]
    rfl
  · intro h
    rw [h, Nat.add_zero]

/-! ### Frames -/

/-- A frame as `rb_write` lays it down: `[length : u16 LE][payload bytes…]`. -/
def frame (payload : List UInt8) : List UInt8 :=
  (u16ToLeBytes (UInt16.ofNat payload.length)).1 ::
    (u16ToLeBytes (UInt16.ofNat payload.length)).2 :: payload

@[simp] theorem frame_length (payload : List UInt8) :
    (frame payload).length = 2 + payload.length := by
  simp [frame]; omega

/-- The ring bytes a list of frames takes: the sum of `2 + len`. -/
def ringBytes (q : List (List UInt8)) : ℕ := (q.map fun p => 2 + p.length).sum

@[simp] theorem ringBytes_nil : ringBytes [] = 0 := rfl

@[simp] theorem ringBytes_cons (p : List UInt8) (q : List (List UInt8)) :
    ringBytes (p :: q) = 2 + p.length + ringBytes q := by
  simp [ringBytes]

@[simp] theorem ringBytes_append (q₁ q₂ : List (List UInt8)) :
    ringBytes (q₁ ++ q₂) = ringBytes q₁ + ringBytes q₂ := by
  simp [ringBytes]

@[simp] theorem flatMap_frame_length (q : List (List UInt8)) :
    (q.flatMap frame).length = ringBytes q := by
  induction q with
  | nil => rfl
  | cons p q ih => simp [ih]

/-- The length header of a frame is read back. -/
theorem frame_header {payload : List UInt8} (h : payload.length < 65536) :
    (u16FromLeBytes (u16ToLeBytes (UInt16.ofNat payload.length)).1
      (u16ToLeBytes (UInt16.ofNat payload.length)).2).toNat = payload.length := by
  rw [u16FromLeBytes_toLeBytes, UInt16.toNat_ofNat_of_lt' h]

theorem holds_frame {n : Usize} {data : Usize → UInt8} {R : ℕ} {payload : List UInt8} :
    Holds (ringSlot n) data R (frame payload) ↔
      data (ringSlot n R) = (u16ToLeBytes (UInt16.ofNat payload.length)).1 ∧
      data (ringSlot n (R + 1)) = (u16ToLeBytes (UInt16.ofNat payload.length)).2 ∧
      Holds (ringSlot n) data (R + 2) payload := by
  rw [frame, holds_cons, holds_cons]

/-! ### One write -/

/-- The ring has room for `payload`: both tests of `rb_write` pass. -/
def Ring.Accepts (n : Usize) (m : Ring) (payload : List UInt8) : Prop :=
  2 + payload.length ≤ n.toNat ∧ 2 + payload.length ≤ (n - (m.writeIdx - m.readIdx)).toNat

instance (n : Usize) (m : Ring) (payload : List UInt8) : Decidable (m.Accepts n payload) :=
  inferInstanceAs (Decidable (_ ∧ _))

/-- The ring after an accepted write from position `W`. -/
def Ring.stored (n : Usize) (m : Ring) (W : ℕ) (payload : List UInt8) : Ring :=
  { m with
    data := storeAll (ringSlot n) W (frame payload) m.data
    writeIdx := UInt32.ofNat (W + (2 + payload.length)) }

theorem run_rbWritePayload (n : Usize) (W i : ℕ) (bs : List UInt8) (m : Ring) :
    (rbWritePayload n (UInt32.ofNat W) i bs).run Ring.perform m =
      ((), { m with data := storeAll (ringSlot n) (W + 2 + i) bs m.data }) := by
  induction bs generalizing i m with
  | nil => rfl
  | cons b bs ih =>
      simp only [rbWritePayload, RingProg.storeData, Prog.run_bind, Prog.run_access, Ring.perform,
        ih, storeAll, ringSlot_payload]
      rfl

/-- **One write.**  With room for the frame it is stored from position `W` on, and without,
nothing changes. -/
theorem run_rbWrite (n : Usize) {m : Ring} {W : ℕ} (hW : m.writeIdx = UInt32.ofNat W)
    (payload : List UInt8) : (rbWrite n payload).run Ring.perform m =
      if m.Accepts n payload then (true, m.stored n W payload) else (false, m) := by
  have h0 : UInt32.ofNat W % n = ringSlot n W := rfl
  have h1 : (UInt32.ofNat W + 1) % n = ringSlot n (W + 1) := (ringSlot_add n W 1).symm
  have hend : UInt32.ofNat W + UInt32.ofNat (2 + payload.length) =
      UInt32.ofNat (W + (2 + payload.length)) := (UInt32.ofNat_add _ _).symm
  by_cases hbig : 2 + payload.length > n.toNat
  · rw [if_neg fun h => absurd h.1 (by omega)]
    simp [rbWrite, hbig]
  · by_cases hroom : (n - (m.writeIdx - m.readIdx)).toNat < 2 + payload.length
    · rw [if_neg fun h => absurd h.2 (by omega)]
      simp [rbWrite, hbig, RingProg.loadWriteIdx, RingProg.loadReadIdx, Ring.perform, hroom]
    · rw [if_pos ⟨by omega, by omega⟩]
      rw [hW] at hroom
      simp only [rbWrite, hbig, if_false, RingProg.loadWriteIdx, RingProg.loadReadIdx,
        RingProg.storeData, RingProg.storeWriteIdx, Prog.run_bind, Prog.run_access, Ring.perform,
        hroom, Prog.run_pure, hW, run_rbWritePayload, h0, h1, hend, Ring.stored, frame, storeAll]

/-! ### What a ring holds -/

/-- `m` holds the unread frames `q`, the first of them at position `R`. -/
structure Contents (n : Usize) (m : Ring) (R : ℕ) (q : List (List UInt8)) : Prop where
  readIdx : m.readIdx = UInt32.ofNat R
  writeIdx : m.writeIdx = UInt32.ofNat (R + ringBytes q)
  fits : ringBytes q ≤ n.toNat
  holds : Holds (ringSlot n) m.data R (q.flatMap frame)

theorem contents_ipcInit (n : Usize) (m : Ring) : Contents n (ipcInit m) 0 [] where
  readIdx := rfl
  writeIdx := rfl
  fits := Nat.zero_le _
  holds := .nil

namespace Contents

variable {n : Usize} {m : Ring} {R : ℕ} {q : List (List UInt8)}

theorem ringBytes_lt (h : Contents n m R q) : ringBytes q < 2 ^ 32 :=
  h.fits.trans_lt n.toNat_lt

/-- **Accounting.**  The indices differ by the bytes of the unread frames. -/
theorem used (h : Contents n m R q) : (m.writeIdx - m.readIdx).toNat = ringBytes q := by
  rw [h.readIdx, h.writeIdx, ofNat_add_sub_toNat h.ringBytes_lt]

/-- The ring is empty exactly when the indices agree; a full one is not taken for it. -/
theorem idx_eq_iff (h : Contents n m R q) : m.writeIdx = m.readIdx ↔ q = [] := by
  rw [h.readIdx, h.writeIdx, ofNat_add_eq_iff h.ringBytes_lt]
  cases q with
  | nil => simp
  | cons p q => simp

theorem accepts_iff (h : Contents n m R q) (payload : List UInt8) :
    m.Accepts n payload ↔ 2 + payload.length ≤ n.toNat - ringBytes q := by
  have hle : m.writeIdx - m.readIdx ≤ n := by
    rw [UInt32.le_iff_toNat_le, h.used]; exact h.fits
  rw [Ring.Accepts, UInt32.toNat_sub_of_le _ _ hle, h.used]
  omega

/-- An accepted frame joins the unread ones, if their bytes and its own have different
cells. -/
theorem write (h : Contents n m R q) {payload : List UInt8} (ha : m.Accepts n payload)
    (hs : Set.InjOn (ringSlot n) (Set.Ico R (R + (ringBytes q + (2 + payload.length))))) :
    Contents n (m.stored n (R + ringBytes q) payload) R (q ++ [payload]) where
  readIdx := h.readIdx
  writeIdx := by simp [Ring.stored, Nat.add_assoc]
  fits := by
    have := (h.accepts_iff payload).mp ha
    have := h.fits
    simp; omega
  holds := by
    have hs' : Set.InjOn (ringSlot n) (Set.Ico R
        (R + ((q.flatMap frame).length + (frame payload).length))) := by
      rwa [flatMap_frame_length, frame_length]
    have := h.holds.storeAll hs'
    rw [flatMap_frame_length] at this
    simpa [Ring.stored] using this

/-- The first unread frame. -/
theorem head {p : List UInt8} (h : Contents n m R (p :: q)) :
    Holds (ringSlot n) m.data R (frame p) := by
  have := h.holds
  rw [List.flatMap_cons] at this
  exact this.left

end Contents

/-- The bytes of `k` positions are left alone by a frame stored behind them, if the cells of all
of these are different. -/
theorem Ring.stored_data {n : Usize} {m : Ring} {R k x : ℕ} {payload : List UInt8}
    (hs : Set.InjOn (ringSlot n) (Set.Ico R (R + (k + (2 + payload.length))))) (h₁ : R ≤ x)
    (h₂ : x < R + k) : (m.stored n (R + k) payload).data (ringSlot n x) = m.data (ringSlot n x) :=
  storeAll_of_ne fun y hy hy' =>
    (slot_ne_of_injOn hs h₁ (by omega) (by simp at hy'; omega)).symm

/-! ### One read -/

/-- The ring after the frame of `k` payload bytes at position `R` is released. -/
def Ring.released (m : Ring) (R k : ℕ) : Ring := { m with readIdx := UInt32.ofNat (R + (2 + k)) }

theorem run_rbReadPayload {n : Usize} {m : Ring} {R : ℕ} (i : ℕ) {bs : List UInt8}
    (out : List UInt8) (hb : Holds (ringSlot n) m.data (R + 2 + i) bs)
    (ho : i + bs.length ≤ out.length) :
    (rbReadPayload n (UInt32.ofNat R) i bs.length out).run Ring.perform m =
      (out.take i ++ bs ++ out.drop (i + bs.length), m) := by
  induction bs generalizing i out with
  | nil => simp [rbReadPayload]
  | cons b bs ih =>
      obtain ⟨hb₀, hb'⟩ := holds_cons.mp hb
      simp only [List.length_cons] at ho
      simp only [List.length_cons, rbReadPayload, RingProg.loadData, Prog.run_bind,
        Prog.run_access, Ring.perform, ringSlot_payload, hb₀]
      rw [ih (i + 1) _ hb' (by simp; omega)]
      have hi : i < out.length := by omega
      have htake : (out.set i b).take (i + 1) = out.take i ++ [b] := by
        have hlen : (out.take i).length = i := List.length_take_of_le hi.le
        rw [List.set_eq_take_append_cons_drop, if_pos hi, List.take_append, hlen,
          List.take_of_length_le (by omega), Nat.add_sub_cancel_left]
        rfl
      rw [htake, List.drop_set_of_lt (by omega), Nat.add_assoc i 1, Nat.add_comm 1]
      simp

/-- **A read of an empty ring** changes nothing. -/
theorem run_rbRead_nil {n : Usize} {m : Ring} {R : ℕ} (h : Contents n m R []) (out : List UInt8) :
    (rbRead n out).run Ring.perform m = ((none, out), m) := by
  have he : m.writeIdx = m.readIdx := h.idx_eq_iff.mpr rfl
  simp [rbRead, RingProg.loadWriteIdx, RingProg.loadReadIdx, Ring.perform, he]

/-- **A read of a ring with an unread frame** releases the first one; it is copied to the front
of `out` if it fits, and `out` is left alone if not. -/
theorem run_rbRead_cons {n : Usize} (hn : n.toNat ≤ 65537) {m : Ring} {R : ℕ} {p : List UInt8}
    {q : List (List UInt8)} (h : Contents n m R (p :: q)) (out : List UInt8) :
    (rbRead n out).run Ring.perform m =
      (if p.length ≤ out.length then (some p.length, p ++ out.drop p.length) else (none, out),
        m.released R p.length) := by
  have hread := h.readIdx
  have hne : m.writeIdx ≠ UInt32.ofNat R := by
    rw [← hread]
    exact fun e => absurd (h.idx_eq_iff.mp e) (by simp)
  have hlen : p.length < 65536 := by
    have := h.fits
    simp only [ringBytes_cons] at this
    omega
  obtain ⟨hlo, hhi, hbody⟩ := holds_frame.mp h.head
  have h0 : UInt32.ofNat R % n = ringSlot n R := rfl
  have h1 : (UInt32.ofNat R + 1) % n = ringSlot n (R + 1) := (ringSlot_add n R 1).symm
  by_cases hfit : p.length ≤ out.length
  · have hpay := run_rbReadPayload 0 out hbody (by omega)
    simp only [List.take_zero, List.nil_append, Nat.zero_add] at hpay
    simp only [rbRead, RingProg.loadWriteIdx, RingProg.loadReadIdx, RingProg.loadData,
      RingProg.storeReadIdx, Prog.run_bind, Prog.run_access, Ring.perform, hne, if_false, hread,
      h0, h1, hlo, hhi, frame_header hlen, not_lt.mpr hfit, hpay, ofNat_frame_end, Prog.run_pure,
      Ring.released, if_pos hfit]
  · simp only [rbRead, RingProg.loadWriteIdx, RingProg.loadReadIdx, RingProg.loadData,
      RingProg.storeReadIdx, Prog.run_bind, Prog.run_access, Ring.perform, hne, if_false, hread,
      h0, h1, hlo, hhi, frame_header hlen, not_le.mp hfit, if_true, ofNat_frame_end, Prog.run_pure,
      Ring.released, if_neg hfit]

/-- A released frame is gone, and the others are where they were. -/
theorem Contents.release {n : Usize} {m : Ring} {R : ℕ} {p : List UInt8}
    {q : List (List UInt8)} (h : Contents n m R (p :: q)) :
    Contents n (m.released R p.length) (R + (2 + p.length)) q where
  readIdx := rfl
  writeIdx := by rw [Ring.released, h.writeIdx, ringBytes_cons, ← Nat.add_assoc]
  fits := by
    have := h.fits
    simp only [ringBytes_cons] at this
    omega
  holds := by
    have := h.holds
    rw [List.flatMap_cons] at this
    simpa [Ring.released] using this.right

end NrfHciUsb
