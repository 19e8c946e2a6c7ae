import NrfHciUsb.Ipc.Queue
import NrfHciUsb.Support.Bytes

/-!
# Ipc — Shmem

The two rings at their addresses in one memory of bytes (`ipc/src/lib.rs`).  `Shmem.perform base`
makes an access of a ring to the memory, for the ring at `base`, by the address arithmetic of
`rb_write_idx`, `rb_read_idx` and `rb_data`; a word is four bytes, the least significant first.

* `Shmem.perform_of_notMem`, `Shmem.answer_congr`, `Shmem.byte_congr`: an access changes and reads
  the bytes at its addresses only.
* `mem_region_of_mem_addrs`: the addresses of a ring's accesses are in its 14 KiB.
* `Represents.perform`: in a memory that represents a ring, an access does what it does on the
  ring.
-/

namespace NrfHciUsb
open Support

/-! ### Layout -/

/-- The memory the two cores share, and any other. -/
abbrev Shmem := Usize → UInt8

/-- `IPC_SHMEM_BASE`. -/
def ipcShmemBase : Usize := 0x20038000

/-- The rings, by the direction of their frames. -/
inductive Dir where
  | n2a
  | a2n
  deriving DecidableEq, Repr

/-- `N2A_BASE` and `A2N_BASE`. -/
def Dir.base : Dir → Usize
  | .n2a => ipcShmemBase
  | .a2n => ipcShmemBase + 14 * 1024

/-- The bytes of the word at an address. -/
def wordAddrs (a : Usize) : List Usize := [a, a + 1, a + 2, a + 3]

/-- `rb_write_idx`. -/
def rbWriteIdx (base : Usize) : List Usize := wordAddrs base

/-- `rb_read_idx`. -/
def rbReadIdx (base : Usize) : List Usize := wordAddrs (base + 4)

/-- `rb_data`. -/
def rbData (base : Usize) : Usize := base + 8

/-- The addresses of an access. -/
def RingOp.addrs (base : Usize) : RingOp → List Usize
  | .loadWriteIdx | .storeWriteIdx _ => rbWriteIdx base
  | .loadReadIdx | .storeReadIdx _ => rbReadIdx base
  | .loadData a | .storeData a _ => [rbData base + a]

/-- Those of its stores. -/
def RingOp.stores (base : Usize) : RingOp → List Usize
  | .loadWriteIdx | .loadReadIdx | .loadData _ => []
  | .storeWriteIdx _ => rbWriteIdx base
  | .storeReadIdx _ => rbReadIdx base
  | .storeData a _ => [rbData base + a]

/-- One access. -/
def Shmem.perform (base : Usize) : (o : RingOp) → Shmem → o.Res × Shmem
  | .loadWriteIdx, m => (UInt32.ofNat (loadLe m (rbWriteIdx base)), m)
  | .loadReadIdx, m => (UInt32.ofNat (loadLe m (rbReadIdx base)), m)
  | .loadData a, m => (m (rbData base + a), m)
  | .storeData a b, m => ((), Function.update m (rbData base + a) b)
  | .storeWriteIdx v, m => ((), storeLe m (rbWriteIdx base) v.toNat)
  | .storeReadIdx v, m => ((), storeLe m (rbReadIdx base) v.toNat)

/-- `ipc_init`. -/
def Shmem.ipcInit (m : Shmem) : Shmem :=
  storeLe (storeLe (storeLe (storeLe m (rbWriteIdx Dir.n2a.base) 0) (rbReadIdx Dir.n2a.base) 0)
    (rbWriteIdx Dir.a2n.base) 0) (rbReadIdx Dir.a2n.base) 0

/-! ### Calls -/

/-- The program of a call, with what it returns. -/
def RingCall.prog : RingCall → RingProg RingResult
  | .write payload => RingResult.wrote <$> rbWrite bufSize payload
  | .read out => (fun r => .readBack r.1 r.2) <$> rbRead bufSize out

/-- A whole call on the ring of one direction. -/
def Shmem.call (d : Dir) (c : RingCall) (m : Shmem) : RingResult × Shmem :=
  c.prog.run (Shmem.perform d.base) m

/-- The addresses it touches, in order. -/
def Shmem.touched (d : Dir) (c : RingCall) (m : Shmem) : List Usize :=
  (c.prog.trace (Shmem.perform d.base) m).flatMap (RingOp.addrs d.base)

theorem Ring.call_eq_run (m : Ring) (c : RingCall) :
    m.call bufSize c = c.prog.run Ring.perform m := by
  cases c with
  | write payload => rw [Ring.call, RingCall.prog, Prog.run_map]
  | read out => rw [Ring.call, RingCall.prog, Prog.run_map]

/-! ### The bytes of an access -/

variable {base : Usize} {o : RingOp} {m m' : Shmem} {a : Usize}

theorem RingOp.stores_subset (o : RingOp) : o.stores base ⊆ o.addrs base := by
  cases o with
  | loadWriteIdx | loadReadIdx | loadData _ => exact List.nil_subset _
  | storeData _ _ | storeWriteIdx _ | storeReadIdx _ => exact List.Subset.refl _

/-- An access changes no byte but those it stores to. -/
theorem Shmem.perform_of_notMem (h : a ∉ o.stores base) : (Shmem.perform base o m).2 a = m a := by
  cases o with
  | loadWriteIdx | loadReadIdx | loadData _ => rfl
  | storeData b x =>
      refine Function.update_of_ne ?_ _ _
      rintro rfl
      exact h (List.mem_singleton.mpr rfl)
  | storeWriteIdx v => exact storeLe_of_notMem h
  | storeReadIdx v => exact storeLe_of_notMem h

/-- Its answer depends on the bytes at its addresses only, … -/
theorem Shmem.answer_congr (h : ∀ a ∈ o.addrs base, m a = m' a) :
    (Shmem.perform base o m).1 = (Shmem.perform base o m').1 := by
  cases o with
  | loadWriteIdx => exact congrArg UInt32.ofNat (loadLe_congr h)
  | loadReadIdx => exact congrArg UInt32.ofNat (loadLe_congr h)
  | loadData b => exact h _ (List.mem_singleton.mpr rfl)
  | storeData _ _ | storeWriteIdx _ | storeReadIdx _ => rfl

/-- … and what it leaves in a byte on that byte. -/
theorem Shmem.byte_congr (o : RingOp) (h : m a = m' a) :
    (Shmem.perform base o m).2 a = (Shmem.perform base o m').2 a := by
  cases o with
  | loadWriteIdx | loadReadIdx | loadData _ => exact h
  | storeData b x =>
      show Function.update m _ x a = Function.update m' _ x a
      by_cases hab : a = rbData base + b
      · rw [hab, Function.update_self, Function.update_self]
      · rw [Function.update_of_ne hab, Function.update_of_ne hab, h]
  | storeWriteIdx v => exact storeLe_congr _ _ h
  | storeReadIdx v => exact storeLe_congr _ _ h

/-! ### The region of a ring -/

/-- The 14 KiB of a ring. -/
def Dir.region (d : Dir) : Set Usize :=
  {a | d.base.toNat ≤ a.toNat ∧ a.toNat < d.base.toNat + 14 * 1024}

/-- Its data bytes. -/
def Dir.dataBytes (d : Dir) : Set Usize :=
  {a | d.base.toNat + 8 ≤ a.toNat ∧ a.toNat < d.base.toNat + 14 * 1024}

/-- The offset of the access, if it has one, is within the data bytes. -/
def RingOp.InBounds : RingOp → Prop
  | .loadData a | .storeData a _ => a < bufSize
  | .loadWriteIdx | .loadReadIdx | .storeWriteIdx _ | .storeReadIdx _ => True

/-- The two regions follow each other, well below the end of the address space. -/
theorem Dir.base_toNat (d : Dir) : d.base.toNat = 0x20038000 ∧ d = .n2a ∨
    d.base.toNat = 0x20038000 + 14 * 1024 ∧ d = .a2n := by
  cases d with
  | n2a => exact .inl ⟨rfl, rfl⟩
  | a2n => exact .inr ⟨rfl, rfl⟩

/-- Address arithmetic within a region does not wrap. -/
theorem Dir.base_add_toNat (d : Dir) {i j : Usize} (h : i.toNat + j.toNat < 14 * 1024) :
    (d.base + i + j).toNat = d.base.toNat + i.toNat + j.toNat := by
  rw [UInt32.toNat_add, UInt32.toNat_add]
  rcases d.base_toNat with ⟨hb, -⟩ | ⟨hb, -⟩ <;> omega

theorem rbData_toNat (d : Dir) {a : Usize} (h : a < bufSize) :
    (rbData d.base + a).toNat = d.base.toNat + 8 + a.toNat := by
  have ha : a.toNat < 14 * 1024 - 8 := h
  have h8 : (8 : Usize).toNat = 8 := rfl
  rw [rbData, d.base_add_toNat (by omega), h8]

theorem wordAddrs_bounds (d : Dir) {i a : Usize} (hi : i.toNat < 8)
    (h : a ∈ wordAddrs (d.base + i)) :
    d.base.toNat + i.toNat ≤ a.toNat ∧ a.toNat < d.base.toNat + i.toNat + 4 := by
  obtain ⟨j, hj, rfl⟩ : ∃ j : Usize, j.toNat < 4 ∧ a = d.base + i + j := by
    simp only [wordAddrs, List.mem_cons, List.not_mem_nil, or_false] at h
    rcases h with rfl | rfl | rfl | rfl
    · exact ⟨0, by decide, (UInt32.add_zero _).symm⟩
    · exact ⟨1, by decide, rfl⟩
    · exact ⟨2, by decide, rfl⟩
    · exact ⟨3, by decide, rfl⟩
  rw [d.base_add_toNat (by omega)]
  omega

theorem rbWriteIdx_bounds {d : Dir} {a : Usize} (h : a ∈ rbWriteIdx d.base) :
    d.base.toNat ≤ a.toNat ∧ a.toNat < d.base.toNat + 4 := by
  rw [rbWriteIdx, ← UInt32.add_zero d.base] at h
  exact wordAddrs_bounds d (by decide) h

theorem rbReadIdx_bounds {d : Dir} {a : Usize} (h : a ∈ rbReadIdx d.base) :
    d.base.toNat + 4 ≤ a.toNat ∧ a.toNat < d.base.toNat + 8 :=
  wordAddrs_bounds d (by decide) h

/-- The accesses of a ring are within its 14 KiB. -/
theorem mem_region_of_mem_addrs {d : Dir} {o : RingOp} (ho : o.InBounds) {a : Usize}
    (h : a ∈ o.addrs d.base) : a ∈ d.region := by
  cases o with
  | loadWriteIdx | storeWriteIdx _ =>
      have := rbWriteIdx_bounds h
      exact ⟨by omega, by omega⟩
  | loadReadIdx | storeReadIdx _ =>
      have := rbReadIdx_bounds h
      exact ⟨by omega, by omega⟩
  | loadData b | storeData b _ =>
      have hb : b.toNat < 14 * 1024 - 8 := ho
      have hdata := rbData_toNat d ho
      rw [List.mem_singleton.mp h]
      exact ⟨by omega, by omega⟩

/-- Different rings have no byte in common. -/
theorem Dir.notMem_region {d e : Dir} (h : e ≠ d) {a : Usize} (ha : a ∈ d.region) :
    a ∉ e.region := by
  obtain ⟨hd, hd'⟩ := ha
  rintro ⟨he, he'⟩
  rcases d.base_toNat with ⟨hb, rfl⟩ | ⟨hb, rfl⟩ <;>
    rcases e.base_toNat with ⟨hb', rfl⟩ | ⟨hb', rfl⟩
  · exact h rfl
  · omega
  · omega
  · exact h rfl

/-- The shared memory ends at `0x2003FFFF`. -/
theorem Dir.region_bounds {d : Dir} {a : Usize} (h : a ∈ d.region) :
    0x20038000 ≤ a.toNat ∧ a.toNat ≤ 0x2003FFFF := by
  obtain ⟨hlo, hhi⟩ := h
  rcases d.base_toNat with ⟨hb, -⟩ | ⟨hb, -⟩ <;> omega

/-! ### The ring a memory represents -/

/-- The words and the data bytes of the ring are those in the memory. -/
structure Represents (d : Dir) (r : Ring) (m : Shmem) : Prop where
  writeIdx : loadLe m (rbWriteIdx d.base) = r.writeIdx.toNat
  readIdx : loadLe m (rbReadIdx d.base) = r.readIdx.toNat
  data : ∀ b < bufSize, m (rbData d.base + b) = r.data b

theorem wordAddrs_nodup (a : Usize) : (wordAddrs a).Nodup := by
  have hmap : wordAddrs a = ([0, 1, 2, 3] : List Usize).map (a + ·) := by
    simp [wordAddrs]
  rw [hmap]
  exact List.Nodup.map (fun _ _ h => (UInt32.add_right_inj a).mp h) (by decide)

theorem loadLe_storeLe_word (m : Shmem) (a : Usize) (v : UInt32) :
    loadLe (storeLe m (wordAddrs a) v.toNat) (wordAddrs a) = v.toNat := by
  have hlen : (wordAddrs a).length = 4 := rfl
  rw [loadLe_storeLe (wordAddrs_nodup a), hlen]
  exact Nat.mod_eq_of_lt v.toNat_lt

theorem rbReadIdx_notMem {d : Dir} {a : Usize} (h : a ∈ rbReadIdx d.base) :
    a ∉ rbWriteIdx d.base := by
  intro h'
  have := rbReadIdx_bounds h
  have := rbWriteIdx_bounds h'
  omega

theorem rbData_notMem (d : Dir) {b : Usize} (hb : b < bufSize) :
    rbData d.base + b ∉ rbWriteIdx d.base ∧ rbData d.base + b ∉ rbReadIdx d.base := by
  have hdata := rbData_toNat d hb
  constructor
  · intro h
    have := rbWriteIdx_bounds h
    omega
  · intro h
    have := rbReadIdx_bounds h
    omega

/-- An access to the memory is the access to the ring. -/
theorem Represents.perform {d : Dir} {r : Ring} (h : Represents d r m) (ho : o.InBounds) :
    (Ring.perform o r).1 = (Shmem.perform d.base o m).1 ∧
      Represents d (Ring.perform o r).2 (Shmem.perform d.base o m).2 := by
  cases o with
  | loadWriteIdx =>
      refine ⟨?_, h⟩
      show r.writeIdx = UInt32.ofNat (loadLe m (rbWriteIdx d.base))
      rw [h.writeIdx, UInt32.ofNat_toNat]
  | loadReadIdx =>
      refine ⟨?_, h⟩
      show r.readIdx = UInt32.ofNat (loadLe m (rbReadIdx d.base))
      rw [h.readIdx, UInt32.ofNat_toNat]
  | loadData b => exact ⟨(h.data b ho).symm, h⟩
  | storeData b x =>
      obtain ⟨hw, hr⟩ := rbData_notMem d ho
      refine ⟨rfl, ?_, ?_, ?_⟩
      · refine (loadLe_congr fun a ha => Function.update_of_ne ?_ _ _).trans h.writeIdx
        rintro rfl
        exact hw ha
      · refine (loadLe_congr fun a ha => Function.update_of_ne ?_ _ _).trans h.readIdx
        rintro rfl
        exact hr ha
      · intro c hc
        show Function.update m _ x _ = Function.update r.data b x c
        by_cases hcb : c = b
        · rw [hcb, Function.update_self, Function.update_self]
        · rw [Function.update_of_ne hcb, ← h.data c hc]
          exact Function.update_of_ne (fun heq => hcb ((UInt32.add_right_inj _).mp heq)) _ _
  | storeWriteIdx v =>
      refine ⟨rfl, loadLe_storeLe_word m _ v, ?_, ?_⟩
      · exact (loadLe_congr fun a ha => storeLe_of_notMem (rbReadIdx_notMem ha)).trans h.readIdx
      · intro b hb
        exact (storeLe_of_notMem (rbData_notMem d hb).1).trans (h.data b hb)
  | storeReadIdx v =>
      refine ⟨rfl, ?_, loadLe_storeLe_word m _ v, ?_⟩
      · exact (loadLe_congr fun a ha => storeLe_of_notMem fun ha' =>
          rbReadIdx_notMem ha' ha).trans h.writeIdx
      · intro b hb
        exact (storeLe_of_notMem (rbData_notMem d hb).2).trans (h.data b hb)

end NrfHciUsb
