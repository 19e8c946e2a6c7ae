import NrfHciUsb.Ipc.Isolation
import NrfHciUsb.Ipc.Linearizable

/-!
# Ipc — Duplex

Both rings in the one memory of bytes, with the four ends at work at the same time, an access at a
time (`duplex`).  An access is to an index word or to a byte of data, at its address.

* `Follows.step`: in every step one ring is the `Link` of its direction, and the other is left
  alone.
* `shmem_linearizable`: from `ipc_init` on, whatever is in the memory before, all calls on both
  rings together are linearizable, as calls on two queues.
* `calls_wait_free`: in any memory, no call needs more accesses than its buffer has bytes, and five,
  whatever the other ends do in the meantime.
-/

namespace NrfHciUsb
open Support

/-! ### The system -/

/-- The ends of one ring, and the ring bytes stored since the start. -/
structure Ends where
  producer : Thread RingOp.Res (List UInt8) Bool
  consumer : Thread RingOp.Res (List UInt8) (Option ℕ × List UInt8)
  written : ℕ

/-- The memory, and the ends of both rings. -/
structure Duplex where
  mem : Shmem
  ends : Dir → Ends

/-- After a step of the ends `x` of one ring. -/
def Duplex.set (s : Duplex) (d : Dir) (m : Shmem) (x : Ends) : Duplex :=
  ⟨m, Function.update s.ends d x⟩

@[simp] theorem Duplex.set_self (s : Duplex) (d : Dir) (m : Shmem) (x : Ends) :
    (s.set d m x).ends d = x :=
  Function.update_self _ _ _

theorem Duplex.set_of_ne (s : Duplex) {d e : Dir} (h : e ≠ d) (m : Shmem) (x : Ends) :
    (s.set d m x).ends e = s.ends e :=
  Function.update_of_ne h _ _

/-- The next thing to happen at one of the rings. -/
def Duplex.step (s : Duplex) : Dir × LinkAct → Option Duplex
  | (d, .write payload) =>
      ((s.ends d).producer.start payload (rbWrite bufSize payload)).map fun t =>
        s.set d s.mem { s.ends d with producer := t }
  | (d, .read out) =>
      ((s.ends d).consumer.start out (rbRead bufSize out)).map fun t =>
        s.set d s.mem { s.ends d with consumer := t }
  | (d, .producer) =>
      ((s.ends d).producer.step (Shmem.perform d.base) s.mem).map fun (e, t, m) =>
        s.set d m { s.ends d with
          producer := t
          written := match e.op with
            | .storeData _ _ => (s.ends d).written + 1
            | _ => (s.ends d).written }
  | (d, .consumer) =>
      ((s.ends d).consumer.step (Shmem.perform d.base) s.mem).map fun (_, t, m) =>
        s.set d m { s.ends d with consumer := t }

/-- From the memory `m` on, with no call under way. -/
def duplex (m : Shmem) : Machine Duplex (Dir × LinkAct) where
  init := ⟨m, fun _ => ⟨.idle, .idle, 0⟩⟩
  step := Duplex.step

/-- What the callers see of a step. -/
def Duplex.shows (s : Duplex) : Dir × LinkAct → List (CallEvent (Dir × Side) RingCall RingResult)
  | (d, .write payload) =>
      (.call .producer (.write payload) ::
        wroteBack payload (Thread.settle payload (rbWrite bufSize payload)).2).map (.at d)
  | (d, .read out) =>
      (.call .consumer (.read out) ::
        readBack out (Thread.settle out (rbRead bufSize out)).2).map (.at d)
  | (d, .producer) =>
      match (s.ends d).producer.step (Shmem.perform d.base) s.mem with
      | some (e, _, _) => (wroteBack e.input e.result).map (.at d)
      | none => []
  | (d, .consumer) =>
      match (s.ends d).consumer.step (Shmem.perform d.base) s.mem with
      | some (e, _, _) => (readBack e.input e.result).map (.at d)
      | none => []

/-! ### Each ring as a link -/

/-- The ring of `d` and its ends are those of the link `l`, and the calls under way are to its
region. -/
structure Follows (d : Dir) (s : Duplex) (l : Link) : Prop where
  ring : Represents d l.ring s.mem
  producer : l.producer = (s.ends d).producer
  consumer : l.consumer = (s.ends d).consumer
  written : l.written = (s.ends d).written
  producerOnly : l.producer.Only RingOp.InBounds
  consumerOnly : l.consumer.Only RingOp.InBounds

variable {d : Dir} {s s' : Duplex} {l : Link}

/-- An access in the region of another ring leaves the ring as it is. -/
theorem Follows.other {e : Dir} (h : Follows d s l) (he : d ≠ e) {m : Shmem} (x : Ends)
    (hm : Agree d s.mem m) : Follows d (s.set e m x) l := by
  have hends : (s.set e m x).ends d = s.ends d := s.set_of_ne he m x
  refine ⟨h.ring.of_agree hm, ?_, ?_, ?_, h.producerOnly, h.consumerOnly⟩
  · rw [hends, h.producer]
  · rw [hends, h.consumer]
  · rw [hends, h.written]

/-- An access of a ring changes its region only. -/
theorem agree_perform {e : Dir} (he : d ≠ e) {o : RingOp} (ho : o.InBounds) (m : Shmem) :
    Agree d m (Shmem.perform e.base o m).2 := by
  intro a ha
  refine (Shmem.perform_of_notMem fun hmem => ?_).symm
  exact Dir.notMem_region he.symm ha (mem_region_of_mem_addrs ho (o.stores_subset hmem))

/-- **One step** at the ring of `d` is the step of its link, shows the same, and leaves the other
ring as it is. -/
theorem Follows.step (h : Follows d s l) {a : LinkAct} (hs : s.step (d, a) = some s') :
    ∃ l', l.step bufSize a = some l' ∧ s.shows (d, a) = (l.shows bufSize a).map (.at d) ∧
      Follows d s' l' ∧ ∀ e ≠ d, ∀ l, Follows e s l → Follows e s' l := by
  have hwrite : ∀ p, Prog.Only RingOp.InBounds (rbWrite bufSize p) := fun p =>
    Prog.only_mono (fun _ ho => ho.inBounds) (rbWrite_only bufSize_pos p)
  have hread : ∀ out, Prog.Only RingOp.InBounds (rbRead bufSize out) := fun out =>
    Prog.only_mono (fun _ ho => ho.inBounds) (rbRead_only bufSize_pos out)
  have hrel : ∀ (o : RingOp) (m : Shmem) (r : Ring), o.InBounds → Represents d r m →
      (Shmem.perform d.base o m).1 = (Ring.perform o r).1 ∧
        Represents d (Ring.perform o r).2 (Shmem.perform d.base o m).2 := by
    intro o m r ho hr
    obtain ⟨hans, hnext⟩ := hr.perform ho
    exact ⟨hans.symm, hnext⟩
  have hagree : ∀ e, Agree e s.mem s.mem := fun _ _ _ => rfl
  cases a with
  | write payload =>
      obtain ⟨t, ht, rfl⟩ := Option.map_eq_some_iff.mp hs
      rw [← h.producer] at ht
      obtain ⟨-, rfl⟩ := Thread.start_eq_some ht
      refine ⟨_, Option.map_eq_some_iff.mpr ⟨_, ht, rfl⟩, rfl, ?_, fun e he l hl =>
        hl.other he _ (hagree e)⟩
      refine ⟨h.ring, ?_, ?_, ?_, Thread.only_settle _ (hwrite payload), h.consumerOnly⟩
      · rw [Duplex.set_self]
      · rw [Duplex.set_self, ← h.consumer]
      · rw [Duplex.set_self, ← h.written]
  | read out =>
      obtain ⟨t, ht, rfl⟩ := Option.map_eq_some_iff.mp hs
      rw [← h.consumer] at ht
      obtain ⟨-, rfl⟩ := Thread.start_eq_some ht
      refine ⟨_, Option.map_eq_some_iff.mpr ⟨_, ht, rfl⟩, rfl, ?_, fun e he l hl =>
        hl.other he _ (hagree e)⟩
      refine ⟨h.ring, ?_, ?_, ?_, h.producerOnly, Thread.only_settle _ (hread out)⟩
      · rw [Duplex.set_self, ← h.producer]
      · rw [Duplex.set_self]
      · rw [Duplex.set_self, ← h.written]
  | producer =>
      obtain ⟨⟨e, t, m⟩, ht, rfl⟩ := Option.map_eq_some_iff.mp hs
      have hshow : s.shows (d, .producer) = (wroteBack e.input e.result).map (.at d) := by
        simp [Duplex.shows, ht]
      rw [← h.producer] at ht
      obtain ⟨hop, honly, rfl, r, hr, hring⟩ :=
        Thread.step_rel _ hrel h.producerOnly h.ring ht
      refine ⟨_, Option.map_eq_some_iff.mpr ⟨_, hr, rfl⟩, ?_, ?_, fun e he l hl =>
        hl.other he _ (agree_perform he hop _)⟩
      · rw [hshow]
        simp [Link.shows, hr]
      · refine ⟨hring, ?_, ?_, ?_, honly, h.consumerOnly⟩
        · rw [Duplex.set_self]; rfl
        · rw [Duplex.set_self, ← h.consumer]; rfl
        · rw [Duplex.set_self, ← h.written]; rfl
  | consumer =>
      obtain ⟨⟨e, t, m⟩, ht, rfl⟩ := Option.map_eq_some_iff.mp hs
      have hshow : s.shows (d, .consumer) = (readBack e.input e.result).map (.at d) := by
        simp [Duplex.shows, ht]
      rw [← h.consumer] at ht
      obtain ⟨hop, honly, rfl, r, hr, hring⟩ :=
        Thread.step_rel _ hrel h.consumerOnly h.ring ht
      refine ⟨_, Option.map_eq_some_iff.mpr ⟨_, hr, rfl⟩, ?_, ?_, fun e he l hl =>
        hl.other he _ (agree_perform he hop _)⟩
      · rw [hshow]
        simp [Link.shows, hr]
      · refine ⟨hring, ?_, ?_, ?_, h.producerOnly, honly⟩
        · rw [Duplex.set_self, ← h.producer]; rfl
        · rw [Duplex.set_self]; rfl
        · rw [Duplex.set_self, ← h.written]; rfl

theorem Duplex.written_le {x : Dir × LinkAct} (hs : s.step x = some s') (e : Dir) :
    (s.ends e).written ≤ (s'.ends e).written := by
  have hset : ∀ (d : Dir) (m : Shmem) (x : Ends), (s.ends d).written ≤ x.written →
      (s.ends e).written ≤ ((s.set d m x).ends e).written := by
    intro d m x hx
    by_cases he : e = d
    · subst he
      rwa [Duplex.set_self]
    · rw [s.set_of_ne he]
  obtain ⟨d, a⟩ := x
  cases a with
  | write _ | read _ | consumer =>
      obtain ⟨x, -, rfl⟩ := Option.map_eq_some_iff.mp hs
      exact hset _ _ _ le_rfl
  | producer =>
      obtain ⟨x, -, rfl⟩ := Option.map_eq_some_iff.mp hs
      refine hset _ _ _ ?_
      dsimp only
      split <;> omega

/-! ### The simulation -/

/-- The two queues with their four callers. -/
def queuesServer : Machine (Server (Dir × Side) RingCall RingResult (Dir → FrameQueue bufSize))
    (ServerAct (Dir × Side) RingCall) :=
  server (sideBySide (queueOp bufSize)) fun _ => Fifo.empty

/-- Each ring is a link, and the queue of its direction is the queue that follows it. -/
def DuplexMatches (s : Duplex)
    (u : Server (Dir × Side) RingCall RingResult (Dir → FrameQueue bufSize)) : Prop :=
  ∃ (l : Dir → Link) (t : Dir → Server Side RingCall RingResult (FrameQueue bufSize)),
    (∀ d, Follows d s (l d)) ∧ (∀ d, LinkMatches bufSize (l d) (t d)) ∧ ∀ d, u.At d (t d)

theorem duplexMatches_init (m : Shmem) :
    DuplexMatches (duplex m.ipcInit).init queuesServer.init := by
  refine ⟨fun d => (link bufSize (m.ring d)).init, fun _ => (queueServer bufSize).init,
    fun d => ?_, fun d => linkMatches_init bufSize (m.ring d), fun d => ⟨rfl, fun _ => rfl⟩⟩
  exact ⟨(Shmem.represents d m).ipcInit, rfl, rfl, rfl, trivial, trivial⟩

theorem duplex_simulates (m : Shmem) :
    Simulates (duplex m.ipcInit) Duplex.shows queuesServer Server.shows
      (fun s => ∀ d, (s.ends d).written < 2 ^ 32) DuplexMatches where
  init := duplexMatches_init m
  back s x s' hs hw d := (Duplex.written_le hs d).trans_lt (hw d)
  step s x s' u hs hw h := by
    obtain ⟨d, a⟩ := x
    obtain ⟨l, t, hl, ht, hu⟩ := h
    obtain ⟨l', hstep, hshow, hl', hother⟩ := (hl d).step hs
    have hn : bufSize.toNat ≤ 65537 := by decide
    obtain ⟨t', hshows, ht'⟩ := (link_simulates hn (m.ring d)).step (l d) a l' (t d) hstep
      (by rw [hl'.written]; exact hw d) (ht d)
    obtain ⟨u', hshows', hu', hrest⟩ := Server.At.shows hshows (hu d)
    rw [hshow]
    refine ⟨u', hshows', Function.update l d l', Function.update t d t', ?_, ?_, ?_⟩
    · intro e
      by_cases he : e = d
      · subst he
        rwa [Function.update_self]
      · rw [Function.update_of_ne he]
        exact hother e he _ (hl e)
    · intro e
      by_cases he : e = d
      · subst he
        rwa [Function.update_self, Function.update_self]
      · rw [Function.update_of_ne he, Function.update_of_ne he]
        exact ht e
    · intro e
      by_cases he : e = d
      · subst he
        rwa [Function.update_self]
      · rw [Function.update_of_ne he]
        exact hrest e he _ (hu e)

/-- **Linearizability.**  Whatever is in the memory before `ipc_init`, and however the four ends
interleave their accesses, the calls look as if each were made at one moment between its beginning
and its return, on two queues of payloads, until `2^32` bytes have been written to a ring.  So at
each moment there is a sequence of whole calls on the queues, with all the calls that have returned
and none that have not begun, and it is only added to. -/
theorem shmem_linearizable (m : Shmem) (as : List (Dir × LinkAct)) (s : Duplex)
    (hrun : (duplex m.ipcInit).run as = some s) (hw : ∀ d, (s.ends d).written < 2 ^ 32) :
    let es := (duplex m.ipcInit).shown Duplex.shows (duplex m.ipcInit).init as
    let op := sideBySide (queueOp bufSize)
    let init : Dir → FrameQueue bufSize := fun _ => Fifo.empty
    Linearizable op init es ∧
    ∀ es₁ es₂, es = es₁ ++ es₂ →
      ∃ h more q q', Replays op init h q ∧ Replays op init (h ++ more) q' ∧
        ∀ x, returned x es₁ <+: callsOf x h ∧ (callsOf x h).map Prod.fst <+: begun x es₁ ∧
          returned x es <+: callsOf x (h ++ more) ∧
          (callsOf x (h ++ more)).map Prod.fst <+: begun x es := by
  intro es op init
  have hshows := Machine.shows_of_runFrom Duplex.shows hrun
  obtain ⟨u, hu, -⟩ := (duplex_simulates m).shows hshows hw (duplexMatches_init m)
  have hlin : Linearizable op init es := ⟨u, hu⟩
  refine ⟨hlin, ?_⟩
  rintro es₁ es₂ hes
  rw [hes] at hlin ⊢
  exact hlin.sequential

/-- A read of the empty ring of one direction, under way while a frame is written to it and a frame
to the other. -/
def overtaken : List (Dir × LinkAct) :=
  [(.n2a, .read [0]), (.n2a, .consumer), (.n2a, .write [4]), (.a2n, .write []),
    (.n2a, .producer), (.a2n, .producer), (.n2a, .producer), (.a2n, .producer),
    (.n2a, .producer), (.a2n, .producer), (.n2a, .producer), (.a2n, .producer),
    (.n2a, .producer), (.a2n, .producer), (.n2a, .producer), (.n2a, .consumer)]

/-- The read returns `None` after the write has returned: it is performed before. -/
theorem shmem_linearizable_overtaken :
    Linearizable (sideBySide (queueOp bufSize)) (fun _ : Dir => Fifo.empty)
      [.call (.n2a, .consumer) (.read [0]), .call (.n2a, .producer) (.write [4]),
        .call (.a2n, .producer) (.write []), .reply (.a2n, .producer) (.write []) (.wrote true),
        .reply (.n2a, .producer) (.write [4]) (.wrote true),
        .reply (.n2a, .consumer) (.read [0]) (.readBack none [0])] := by
  obtain ⟨s, hs, hn, ha⟩ := (duplex corrupted.ipcInit).exists_of_run overtaken
    (fun s => (s.ends .n2a).written = 3 ∧ (s.ends .a2n).written = 2) (by decide +kernel)
  exact (shmem_linearizable corrupted overtaken s hs (by
    intro d
    cases d with
    | n2a => rw [hn]; decide
    | a2n => rw [ha]; decide)).1

/-! ### Calls among interference -/

variable {n : Usize}

theorem rbWritePayload_within (w : Usize) (i : ℕ) (bs : List UInt8) :
    Prog.Within (rbWritePayload n w i bs) bs.length := by
  induction bs generalizing i with
  | nil => trivial
  | cons b bs ih => exact fun _ => ih (i + 1)

/-- Two loads, the length, the payload and `write_idx`. -/
theorem rbWrite_within (payload : List UInt8) :
    Prog.Within (rbWrite n payload) (payload.length + 5) := by
  rw [rbWrite]
  split
  · trivial
  · intro w r
    show Prog.Within (if _ then _ else _) _
    split
    · trivial
    · intro _ _
      show Prog.Within (rbWritePayload n w 0 payload >>= fun _ => _) (payload.length + 1)
      exact Prog.within_bind (rbWritePayload_within w 0 payload) fun _ _ => trivial

theorem rbReadPayload_within (r : Usize) (i k : ℕ) (out : List UInt8) :
    Prog.Within (rbReadPayload n r i k out) k := by
  induction k generalizing i out with
  | zero => trivial
  | succ k ih => exact fun _ => ih (i + 1) _

/-- A read copies no more than `out` can hold. -/
theorem rbRead_within (out : List UInt8) : Prog.Within (rbRead n out) (out.length + 5) := by
  intro w r
  show Prog.Within (if _ then _ else _) _
  split
  · trivial
  · intro lo hi
    show Prog.Within (if _ then _ else _) _
    split
    · exact fun _ => trivial
    · rename_i hfit
      refine Prog.within_mono (Prog.within_bind (m := 1) (rbReadPayload_within r 0 _ out)
        fun _ _ => trivial) ?_
      omega

/-- The bytes of the caller's slice. -/
def RingCall.size : RingCall → ℕ
  | .write payload => payload.length
  | .read out => out.length

/-- What a call can return: a read has found the length within `out`, and left the bytes behind
it. -/
def RingCall.CanReturn : RingCall → RingResult → Prop
  | .write _, .wrote _ => True
  | .read out, .readBack k out' => out'.length = out.length ∧
      ∀ j, k = some j → j ≤ out.length ∧ out'.drop j = out.drop j
  | _, _ => False

theorem RingCall.prog_within (c : RingCall) : Prog.Within c.prog (c.size + 5) := by
  cases c with
  | write payload => exact Prog.within_map _ (rbWrite_within payload)
  | read out => exact Prog.within_map _ (rbRead_within out)

theorem RingCall.prog_ensures (c : RingCall) : Prog.Ensures c.CanReturn c.prog := by
  cases c with
  | write payload =>
      exact Prog.ensures_map (Prog.ensures_of_forall (Q := fun _ => True) (fun _ => trivial) _)
        fun _ h => h
  | read out => exact Prog.ensures_map (rbRead_ensures out) fun _ h => h

/-- **Interference.**  However the memory changes between the accesses of a call, be it by a core
that has gone astray, the call returns after as many accesses as its slice has bytes, and five.
They are all to the region of its ring, and a read stays within its slice. -/
theorem calls_wait_free (d : Dir) (c : RingCall) (ms : List Shmem)
    (h : c.size + 5 ≤ ms.length) :
    (∃ r, c.prog.interfered (Shmem.perform d.base) ms = some r ∧ c.CanReturn r) ∧
      Prog.Only (fun o => ∀ a ∈ o.addrs d.base, a ∈ d.region) c.prog := by
  refine ⟨Prog.exists_interfered _ c.prog_within c.prog_ensures h, ?_⟩
  exact Prog.only_mono (fun o ho a ha => mem_region_of_mem_addrs ho ha) c.prog_only

/-- A memory for each access of a read, and none like the one before. -/
def unsettled : List Shmem := ([0, 1, 2, 0, 4, 5, 6, 7] : List UInt8).map fun v _ => v

/-- The read finds indices that differ and a frame of two bytes, and leaves the third of its
buffer. -/
theorem calls_wait_free_unsettled :
    (RingCall.read [9, 9, 9]).prog.interfered (Shmem.perform Dir.n2a.base) unsettled =
        some (.readBack (some 2) [4, 5, 9]) ∧
      (RingCall.read [9, 9, 9]).CanReturn (.readBack (some 2) [4, 5, 9]) := by
  have hrun : (RingCall.read [9, 9, 9]).prog.interfered (Shmem.perform Dir.n2a.base) unsettled =
      some (.readBack (some 2) [4, 5, 9]) := by
    decide +kernel
  obtain ⟨⟨r, hr, hreturn⟩, -⟩ := calls_wait_free .n2a (.read [9, 9, 9]) unsettled (by decide)
  rw [hrun] at hr
  cases hr
  exact ⟨hrun, hreturn⟩

end NrfHciUsb
