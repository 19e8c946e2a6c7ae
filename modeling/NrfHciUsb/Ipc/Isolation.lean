import NrfHciUsb.Ipc.Shmem
import NrfHciUsb.Support.Noninterference

/-!
# Ipc — Isolation

The two rings share a memory and nothing else.  Nothing is assumed of its contents: an index word
can have any value, and a length header any of 16 bits.

* `rbWrite_only`, `rbRead_only`: the accesses a call can make, whatever it reads.
* `rings_isolated`: the calls on one ring return the same, and leave the same in its region,
  whether or not there are calls on the other in between.
* `Represents.runCalls`: in any such sequence each ring is the `Ring` that its region represents,
  and so, from `ipc_init` on, a queue (`rings_are_queues`).
-/

namespace NrfHciUsb
open Support

/-! ### The accesses of a call -/

/-- The accesses of `rb_write`. -/
def RingOp.ByWriter (n : Usize) : RingOp → Prop
  | .loadWriteIdx | .loadReadIdx | .storeWriteIdx _ => True
  | .storeData a _ => a < n
  | .loadData _ | .storeReadIdx _ => False

/-- The accesses of `rb_read`. -/
def RingOp.ByReader (n : Usize) : RingOp → Prop
  | .loadWriteIdx | .loadReadIdx | .storeReadIdx _ => True
  | .loadData a => a < n
  | .storeData _ _ | .storeWriteIdx _ => False

variable {n : Usize}

theorem rbWritePayload_only (hn : 0 < n) (w : Usize) (i : ℕ) (bs : List UInt8) :
    Prog.Only (RingOp.ByWriter n) (rbWritePayload n w i bs) := by
  induction bs generalizing i with
  | nil => trivial
  | cons b bs ih => exact ⟨UInt32.mod_lt _ hn, fun _ => ih (i + 1)⟩

theorem rbWrite_only (hn : 0 < n) (payload : List UInt8) :
    Prog.Only (RingOp.ByWriter n) (rbWrite n payload) := by
  rw [rbWrite]
  split
  · trivial
  · refine ⟨trivial, fun w => ⟨trivial, fun r => ?_⟩⟩
    show Prog.Only _ (if _ then _ else _)
    split
    · trivial
    · refine ⟨UInt32.mod_lt _ hn, fun _ => ⟨UInt32.mod_lt _ hn, fun _ => ?_⟩⟩
      show Prog.Only _ (rbWritePayload n w 0 payload >>= fun _ => _)
      exact Prog.only_bind (rbWritePayload_only hn w 0 payload) fun _ => ⟨trivial, fun _ => trivial⟩

theorem rbReadPayload_only (hn : 0 < n) (r : Usize) (i k : ℕ) (out : List UInt8) :
    Prog.Only (RingOp.ByReader n) (rbReadPayload n r i k out) := by
  induction k generalizing i out with
  | zero => trivial
  | succ k ih => exact ⟨UInt32.mod_lt _ hn, fun _ => ih (i + 1) _⟩

theorem rbRead_only (hn : 0 < n) (out : List UInt8) :
    Prog.Only (RingOp.ByReader n) (rbRead n out) := by
  refine ⟨trivial, fun w => ⟨trivial, fun r => ?_⟩⟩
  show Prog.Only _ (if _ then _ else _)
  split
  · trivial
  · refine ⟨UInt32.mod_lt _ hn, fun lo => ⟨UInt32.mod_lt _ hn, fun hi => ?_⟩⟩
    show Prog.Only _ (if _ then _ else _)
    split
    · exact ⟨trivial, fun _ => trivial⟩
    · exact Prog.only_bind (rbReadPayload_only hn r 0 _ out) fun _ => ⟨trivial, fun _ => trivial⟩

theorem RingOp.ByWriter.inBounds {o : RingOp} (h : o.ByWriter bufSize) : o.InBounds := by
  cases o with
  | loadWriteIdx | loadReadIdx | storeWriteIdx _ => trivial
  | storeData a b => exact h
  | loadData _ | storeReadIdx _ => exact h.elim

theorem RingOp.ByReader.inBounds {o : RingOp} (h : o.ByReader bufSize) : o.InBounds := by
  cases o with
  | loadWriteIdx | loadReadIdx | storeReadIdx _ => trivial
  | loadData a => exact h
  | storeData _ _ | storeWriteIdx _ => exact h.elim

theorem bufSize_pos : 0 < bufSize := by decide

theorem RingCall.prog_only (c : RingCall) : Prog.Only RingOp.InBounds c.prog := by
  cases c with
  | write payload =>
      exact Prog.only_map _ (Prog.only_mono (fun _ h => h.inBounds) (rbWrite_only bufSize_pos _))
  | read out =>
      exact Prog.only_map _ (Prog.only_mono (fun _ h => h.inBounds) (rbRead_only bufSize_pos _))

/-! ### What a read returns -/

/-- The bytes behind the copied ones stay. -/
theorem rbReadPayload_ensures (r : Usize) (i k : ℕ) (out : List UInt8) :
    Prog.Ensures (fun out' => out'.length = out.length ∧ ∀ j, i + k ≤ j → out'[j]? = out[j]?)
      (rbReadPayload n r i k out) := by
  induction k generalizing i out with
  | zero => exact ⟨rfl, fun _ _ => rfl⟩
  | succ k ih =>
      intro b
      refine Prog.ensures_mono ?_ (ih (i + 1) (out.set i b))
      rintro out' ⟨hlen, hrest⟩
      refine ⟨by rw [hlen, List.length_set], ?_⟩
      intro j hj
      rw [hrest j (by omega), List.getElem?_set_ne (by omega)]

/-- A read that returns a length has found it within `out`, and leaves the bytes behind it. -/
theorem rbRead_ensures (out : List UInt8) :
    Prog.Ensures (fun res => res.2.length = out.length ∧
      ∀ k, res.1 = some k → k ≤ out.length ∧ res.2.drop k = out.drop k) (rbRead n out) := by
  intro w r
  show Prog.Ensures _ (if _ then _ else _)
  split
  · exact ⟨rfl, nofun⟩
  · intro lo hi
    show Prog.Ensures _ (if _ then _ else _)
    split
    · exact fun _ => ⟨rfl, nofun⟩
    · rename_i hfit
      refine Prog.ensures_bind (rbReadPayload_ensures r 0 _ out) ?_
      rintro out' ⟨hlen, hrest⟩ -
      refine ⟨hlen, ?_⟩
      rintro k ⟨⟩
      refine ⟨Nat.le_of_not_lt hfit, ?_⟩
      apply List.ext_getElem?
      intro j
      rw [List.getElem?_drop, List.getElem?_drop, hrest _ (by omega)]

/-! ### One call -/

variable {d e : Dir} {m m' : Shmem}

theorem mem_region_of_mem_touched {c : RingCall} {a : Usize} (h : a ∈ Shmem.touched d c m) :
    a ∈ d.region := by
  obtain ⟨o, ho, ha⟩ := List.mem_flatMap.mp h
  exact mem_region_of_mem_addrs (Prog.forall_trace _ c.prog_only m o ho) ha

/-- A write changes `write_idx` and data bytes only. -/
theorem Shmem.call_write (payload : List UInt8) {a : Usize} (hidx : a ∉ rbWriteIdx d.base)
    (hdata : a ∉ d.dataBytes) : (Shmem.call d (.write payload) m).2 a = m a := by
  have hstep : ∀ (o : RingOp) (m' : Shmem), o.ByWriter bufSize → m' a = m a →
      (Shmem.perform d.base o m').2 a = m a := by
    intro o m' ho ha
    refine (Shmem.perform_of_notMem ?_).trans ha
    cases o with
    | loadWriteIdx | loadReadIdx => exact List.not_mem_nil
    | storeWriteIdx v => exact hidx
    | storeData b x =>
        have hb : b.toNat < 14 * 1024 - 8 := ho
        have hlt := rbData_toNat d ho
        intro hmem
        rw [List.mem_singleton.mp hmem] at hdata
        exact hdata ⟨by omega, by omega⟩
    | loadData _ | storeReadIdx _ => exact ho.elim
  exact Prog.run_preserves _ (I := fun m' : Shmem => m' a = m a) hstep
    (Prog.only_map _ (rbWrite_only bufSize_pos payload)) rfl

/-- A read changes `read_idx` only. -/
theorem Shmem.call_read (out : List UInt8) {a : Usize} (hidx : a ∉ rbReadIdx d.base) :
    (Shmem.call d (.read out) m).2 a = m a := by
  have hstep : ∀ (o : RingOp) (m' : Shmem), o.ByReader bufSize → m' a = m a →
      (Shmem.perform d.base o m').2 a = m a := by
    intro o m' ho ha
    refine (Shmem.perform_of_notMem ?_).trans ha
    cases o with
    | loadWriteIdx | loadReadIdx | loadData _ => exact List.not_mem_nil
    | storeReadIdx v => exact hidx
    | storeData _ _ | storeWriteIdx _ => exact ho.elim
  exact Prog.run_preserves _ (I := fun m' : Shmem => m' a = m a) hstep
    (Prog.only_map _ (rbRead_only bufSize_pos out)) rfl

theorem Shmem.call_readBack {out out' : List UInt8} {k : ℕ}
    (h : (Shmem.call d (.read out) m).1 = .readBack (some k) out') :
    k ≤ out.length ∧ out'.length = out.length ∧ out'.drop k = out.drop k := by
  obtain ⟨hlen, hsome⟩ :=
    Prog.run_ensures (Shmem.perform d.base) (rbRead_ensures (n := bufSize) out) m
  rw [Shmem.call, RingCall.prog, Prog.run_map, RingResult.readBack.injEq] at h
  rw [h.2] at hlen hsome
  obtain ⟨hle, hdrop⟩ := hsome k h.1
  exact ⟨hle, hlen, hdrop⟩

/-! ### Calls on both rings -/

/-- The memories agree on the region of a ring. -/
def Agree (d : Dir) (m m' : Shmem) : Prop := ∀ a ∈ d.region, m a = m' a

/-- A call on the other ring leaves the region as it is. -/
theorem Shmem.call_other (he : e ≠ d) (c : RingCall) (m : Shmem) :
    Agree d (Shmem.call e c m).2 m := by
  intro a ha
  refine Prog.run_preserves _ (I := fun m' : Shmem => m' a = m a) ?_ c.prog_only rfl
  intro o m' ho hm'
  refine (Shmem.perform_of_notMem fun hmem => ?_).trans hm'
  exact Dir.notMem_region he ha (mem_region_of_mem_addrs ho (o.stores_subset hmem))

/-- A call on the ring sees its region only. -/
theorem Shmem.call_own (c : RingCall) (h : Agree d m m') :
    (Shmem.call d c m).1 = (Shmem.call d c m').1 ∧
      Agree d (Shmem.call d c m).2 (Shmem.call d c m').2 := by
  obtain ⟨hres, hend, -⟩ := Prog.run_rel (Shmem.perform d.base) (R := Agree d)
    (fun o m m' ho h => ⟨Shmem.answer_congr fun a ha => h a (mem_region_of_mem_addrs ho ha),
      fun a ha => Shmem.byte_congr o (h a ha)⟩) c.prog_only h
  exact ⟨hres, hend⟩

theorem shmem_unwinding (d : Dir) : Unwinding Shmem.call d (Agree d) where
  trans h h' a ha := (h a ha).trans (h' a ha)
  own c h := Shmem.call_own c h
  other c m he := Shmem.call_other he c m

/-- **Isolation.**  In every sequence of calls, from any memory, the calls on one ring return what
they return without those on the other, and leave the same in its region.  Every address of a call
is in the region of its ring.  A write changes `write_idx` and data bytes only and a read
`read_idx` only, and a read that returns a length stays within `out` and leaves the rest of it. -/
theorem rings_isolated (d : Dir) (m : Shmem) (cs : List (Dir × RingCall)) :
    ofOwner d (runCalls Shmem.call m cs).1 = (runCalls Shmem.call m (ofOwner d cs)).1 ∧
    (∀ a ∈ d.region,
      (runCalls Shmem.call m cs).2 a = (runCalls Shmem.call m (ofOwner d cs)).2 a) ∧
    (∀ (m : Shmem) (c : RingCall), ∀ a ∈ Shmem.touched d c m,
      a ∈ d.region ∧ 0x20038000 ≤ a.toNat ∧ a.toNat ≤ 0x2003FFFF) ∧
    (∀ (m : Shmem) (payload : List UInt8) (a : Usize), a ∉ rbWriteIdx d.base → a ∉ d.dataBytes →
      (Shmem.call d (.write payload) m).2 a = m a) ∧
    (∀ (m : Shmem) (out : List UInt8) (a : Usize), a ∉ rbReadIdx d.base →
      (Shmem.call d (.read out) m).2 a = m a) ∧
    ∀ (m : Shmem) (out out' : List UInt8) (k : ℕ),
      (Shmem.call d (.read out) m).1 = .readBack (some k) out' →
        k ≤ out.length ∧ out'.length = out.length ∧ out'.drop k = out.drop k := by
  have hself : Agree d m m := fun _ _ => rfl
  obtain ⟨hres, hend⟩ := (shmem_unwinding d).purge cs hself
  refine ⟨hres, hend, ?_, ?_, ?_, ?_⟩
  · intro m c a ha
    have hregion := mem_region_of_mem_touched ha
    exact ⟨hregion, Dir.region_bounds hregion⟩
  · intro m payload a hidx hdata
    exact Shmem.call_write payload hidx hdata
  · intro m out a hidx
    exact Shmem.call_read out hidx
  · intro m out out' k h
    exact Shmem.call_readBack h

/-- A memory whose `write_idx` is no index a writer could have left, with a frame of two bytes. -/
def corrupted : Shmem := fun a =>
  if a.toNat < 0x20038004 then 0xFF
  else if a.toNat < 0x20038008 ∨ a.toNat % 2 = 1 then 0
  else 2

/-- The frame is read, and the third byte of the buffer stays. -/
theorem rings_isolated_corrupted :
    (Shmem.call .n2a (.read [9, 9, 9]) corrupted).1 = .readBack (some 2) [2, 0, 9] ∧
      2 ≤ ([9, 9, 9] : List UInt8).length ∧
      ([2, 0, 9] : List UInt8).length = ([9, 9, 9] : List UInt8).length ∧
      ([2, 0, 9] : List UInt8).drop 2 = [9, 9, 9].drop 2 := by
  have hread : (Shmem.call .n2a (.read [9, 9, 9]) corrupted).1 =
      .readBack (some 2) [2, 0, 9] := by
    decide +kernel
  exact ⟨hread, (rings_isolated .n2a corrupted []).2.2.2.2.2 corrupted [9, 9, 9] [2, 0, 9] 2 hread⟩

/-! ### The rings of a memory -/

/-- The ring a region represents. -/
def Shmem.ring (d : Dir) (m : Shmem) : Ring where
  writeIdx := UInt32.ofNat (loadLe m (rbWriteIdx d.base))
  readIdx := UInt32.ofNat (loadLe m (rbReadIdx d.base))
  data b := m (rbData d.base + b)

theorem loadLe_word (m : Shmem) (a : Usize) :
    (UInt32.ofNat (loadLe m (wordAddrs a))).toNat = loadLe m (wordAddrs a) := by
  have hlen : (wordAddrs a).length = 4 := rfl
  have hlt := loadLe_lt m (wordAddrs a)
  rw [hlen] at hlt
  exact toNat_ofNat_of_lt hlt

theorem Shmem.represents (d : Dir) (m : Shmem) : Represents d (m.ring d) m where
  writeIdx := (loadLe_word m d.base).symm
  readIdx := (loadLe_word m (d.base + 4)).symm
  data _ _ := rfl

namespace Represents

variable {r : Ring}

theorem of_agree (h : Represents d r m) (hm : Agree d m m') : Represents d r m' where
  writeIdx := by
    rw [← h.writeIdx]
    exact loadLe_congr fun a ha =>
      (hm a (mem_region_of_mem_addrs (o := .loadWriteIdx) trivial ha)).symm
  readIdx := by
    rw [← h.readIdx]
    exact loadLe_congr fun a ha =>
      (hm a (mem_region_of_mem_addrs (o := .loadReadIdx) trivial ha)).symm
  data b hb := by
    rw [← h.data b hb]
    exact (hm _ (mem_region_of_mem_addrs (o := .loadData b) hb (List.mem_singleton.mpr rfl))).symm

/-- A call on the memory is the call on the ring. -/
theorem call (h : Represents d r m) (c : RingCall) :
    (r.call bufSize c).1 = (Shmem.call d c m).1 ∧
      Represents d (r.call bufSize c).2 (Shmem.call d c m).2 := by
  rw [Ring.call_eq_run]
  obtain ⟨hres, hend, -⟩ := Prog.run_rel Ring.perform (R := Represents d)
    (fun o r m ho h => h.perform ho) c.prog_only h
  exact ⟨hres, hend⟩

/-- **Refinement.**  Among any calls on the other, the calls on one ring are those of the `Ring`
its region represents. -/
theorem runCalls (h : Represents d r m) (cs : List (Dir × RingCall)) :
    ofOwner d (runCalls Shmem.call m cs).1 =
        (r.calls bufSize ((ofOwner d cs).map Prod.snd)).1.map (Prod.mk d) ∧
      Represents d (r.calls bufSize ((ofOwner d cs).map Prod.snd)).2
        (Support.runCalls Shmem.call m cs).2 := by
  induction cs generalizing r m with
  | nil => exact ⟨rfl, h⟩
  | cons x cs ih =>
      obtain ⟨e, c⟩ := x
      by_cases he : e = d
      · subst he
        obtain ⟨hres, hnext⟩ := h.call c
        obtain ⟨htail, hend⟩ := ih hnext
        rw [ofOwner_cons_self, Support.runCalls, List.map_cons, Ring.calls, ofOwner_cons_self,
          htail, ← hres, List.map_cons]
        exact ⟨rfl, hend⟩
      · rw [ofOwner_cons_of_ne he, Support.runCalls, ofOwner_cons_of_ne he]
        exact ih (h.of_agree fun a ha => (Shmem.call_other he c m a ha).symm)

end Represents

/-! ### From `ipc_init` -/

/-- The headers of one ring are zeroed. -/
def Shmem.resetIdx (d : Dir) (m : Shmem) : Shmem :=
  storeLe (storeLe m (rbWriteIdx d.base) 0) (rbReadIdx d.base) 0

theorem Represents.resetIdx {r : Ring} (h : Represents d r m) :
    Represents d (ipcInit r) (m.resetIdx d) :=
  ((h.perform (o := .storeWriteIdx 0) trivial).2.perform (o := .storeReadIdx 0) trivial).2

theorem Shmem.resetIdx_other (he : e ≠ d) (m : Shmem) : Agree d m (m.resetIdx e) := by
  intro a ha
  have hout : ∀ o : RingOp, o.InBounds → a ∉ o.addrs e.base := fun o ho hmem =>
    Dir.notMem_region he ha (mem_region_of_mem_addrs ho hmem)
  have hw : a ∉ rbWriteIdx e.base := hout .loadWriteIdx trivial
  have hr : a ∉ rbReadIdx e.base := hout .loadReadIdx trivial
  rw [Shmem.resetIdx, storeLe_of_notMem hr, storeLe_of_notMem hw]

theorem Represents.ipcInit {r : Ring} (h : Represents d r m) :
    Represents d (NrfHciUsb.ipcInit r) m.ipcInit := by
  show Represents d _ ((m.resetIdx .n2a).resetIdx .a2n)
  cases d with
  | n2a => exact h.resetIdx.of_agree (Shmem.resetIdx_other (by decide) _)
  | a2n => exact (h.of_agree (Shmem.resetIdx_other (by decide) _)).resetIdx

/-- **Two queues in one memory.**  From `ipc_init` on, among any calls on the other, the calls on
a ring return what those on its queue of payloads return, until `2^32` bytes have been written. -/
theorem rings_are_queues (d : Dir) (m : Shmem) (cs : List (Dir × RingCall))
    (hb : (ipcInit (m.ring d)).bytesWritten bufSize ((ofOwner d cs).map Prod.snd) < 2 ^ 32) :
    ofOwner d (runCalls Shmem.call m.ipcInit cs).1 =
      (FrameQueue.calls (Fifo.empty : FrameQueue bufSize) ((ofOwner d cs).map Prod.snd)).1.map
        (Prod.mk d) := by
  have h : Contents bufSize (ipcInit (m.ring d)) 0 (Fifo.empty : FrameQueue bufSize).items :=
    contents_ipcInit _ _
  have hn : bufSize.toNat ≤ 65537 := by decide
  have hs := safeCalls_of_bytesWritten hn h _ (by simpa using Nat.le_of_lt hb)
  rw [((Shmem.represents d m).ipcInit.runCalls cs).1, (calls_refine hn h _ hs).1]

end NrfHciUsb
