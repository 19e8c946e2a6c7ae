import NrfHciUsb.Ipc.LinkInv

/-!
# Ipc — Wakeup

The loops around one ring and the IPC event between them.

* The producer's core runs `ipc_send_to_net`, or `notify_app`: it writes a frame and, if that
  succeeded, triggers the event.  Its tasks share one executor and neither function awaits
  anything, so one of them at a time is between the two.
* The consumer runs `ipc_rx_loop`, or `ipc_recv_task`:
  `loop { event.wait().await; while let Some(n) = rb_read(.., &mut buf) { .. } }`, and may stay in
  the body of the inner loop for as long as it likes.

Of the event it is assumed that `trigger()` sets a latch, and that `wait()` blocks while it is
clear and clears it when it returns.

`no_lost_wakeup`: a consumer that waits with the latch clear has taken every frame, or the
producer is about to trigger the event.  What carries the invariant through the inner loop is
that a `write_idx` the consumer has loaded is either the current one or was overtaken by a frame
whose trigger is still to be seen.
-/

namespace NrfHciUsb
open Support

/-- Where the consumer's loop is: in `event.wait()`, in `rb_read`, or in the body. -/
inductive ConsumerPc where
  | waiting
  | reading
  | processing
  deriving DecidableEq, Repr

/-- A ring, its event and the loops at its ends.  `untriggered` says that the producer's core has
published a frame and not yet triggered the event; `buf` is the consumer's buffer between
reads. -/
structure Wakeup where
  link : Link
  event : Bool
  untriggered : Bool
  pc : ConsumerPc
  buf : List UInt8

/-- The next thing to happen: the producer's core begins to send a packet, makes its next access
or triggers the event; `wait()` returns, the consumer makes its next access, or it has processed
a frame. -/
inductive WakeAct where
  | send (packet : List UInt8)
  | producer
  | trigger
  | wait
  | consumer
  | processed

/-- Where the consumer's loop is after an access of `rb_read`, by the call's result. -/
def ConsumerPc.after : Option (Option ℕ × List UInt8) → ConsumerPc
  | none => .reading
  | some (some _, _) => .processing
  | some (none, _) => .waiting

def Wakeup.step (n : Usize) (s : Wakeup) : WakeAct → Option Wakeup
  | .send packet =>
      if s.untriggered then none
      else (s.link.step n (.write packet)).map fun l => { s with link := l }
  | .producer =>
      if s.untriggered then none
      else (s.link.producer.step Ring.perform s.link.ring).map fun (e, t, m) =>
        { s with link := s.link.produced e t m, untriggered := e.result == some true }
  | .trigger =>
      if s.untriggered then some { s with event := true, untriggered := false } else none
  | .wait =>
      if s.pc = .waiting ∧ s.event then
        (s.link.step n (.read s.buf)).map fun l =>
          { s with link := l, event := false, pc := .reading }
      else none
  | .consumer =>
      if s.pc = .reading then
        (s.link.consumer.step Ring.perform s.link.ring).map fun (e, t, m) =>
          { s with
            link := s.link.consumedBy n e t m
            pc := .after e.result
            buf := (e.result.map Prod.snd).getD s.buf }
      else none
  | .processed =>
      if s.pc = .processing then
        (s.link.step n (.read s.buf)).map fun l => { s with link := l, pc := .reading }
      else none

/-- From `ipc_init` on, the consumer with the buffer `buf`. -/
def wakeup (n : Usize) (ring : Ring) (buf : List UInt8) : Machine Wakeup WakeAct where
  init := ⟨(link n ring).init, false, false, .waiting, buf⟩
  step := Wakeup.step n

/-! ### What a step does -/

section
variable {n : Usize} {s s' : Wakeup}

theorem Wakeup.step_send {packet : List UInt8} (hs : s.step n (.send packet) = some s') :
    s.untriggered = false ∧
      ∃ l, s.link.step n (.write packet) = some l ∧ s' = { s with link := l } := by
  obtain ⟨htr, hs⟩ := Option.ite_none_left_eq_some.mp hs
  obtain ⟨l, hl, rfl⟩ := Option.map_eq_some_iff.mp hs
  exact ⟨Bool.eq_false_of_not_eq_true htr, l, hl, rfl⟩

theorem Wakeup.step_producer (hs : s.step n .producer = some s') :
    s.untriggered = false ∧
      ∃ e t m, s.link.producer.step Ring.perform s.link.ring = some (e, t, m) ∧
        s' = { s with link := s.link.produced e t m, untriggered := e.result == some true } := by
  obtain ⟨htr, hs⟩ := Option.ite_none_left_eq_some.mp hs
  obtain ⟨⟨e, t, m⟩, hst, rfl⟩ := Option.map_eq_some_iff.mp hs
  exact ⟨Bool.eq_false_of_not_eq_true htr, e, t, m, hst, rfl⟩

theorem Wakeup.step_trigger (hs : s.step n .trigger = some s') :
    s.untriggered = true ∧ s' = { s with event := true, untriggered := false } := by
  obtain ⟨htr, hs⟩ := Option.ite_none_right_eq_some.mp hs
  cases hs
  exact ⟨htr, rfl⟩

theorem Wakeup.step_wait (hs : s.step n .wait = some s') :
    s.pc = .waiting ∧ s.event = true ∧ ∃ l, s.link.step n (.read s.buf) = some l ∧
      s' = { s with link := l, event := false, pc := .reading } := by
  obtain ⟨⟨hpc, hev⟩, hs⟩ := Option.ite_none_right_eq_some.mp hs
  obtain ⟨l, hl, rfl⟩ := Option.map_eq_some_iff.mp hs
  exact ⟨hpc, hev, l, hl, rfl⟩

theorem Wakeup.step_consumer (hs : s.step n .consumer = some s') :
    s.pc = .reading ∧
      ∃ e t m, s.link.consumer.step Ring.perform s.link.ring = some (e, t, m) ∧
        s' = { s with
          link := s.link.consumedBy n e t m
          pc := .after e.result
          buf := (e.result.map Prod.snd).getD s.buf } := by
  obtain ⟨hpc, hs⟩ := Option.ite_none_right_eq_some.mp hs
  obtain ⟨⟨e, t, m⟩, hst, rfl⟩ := Option.map_eq_some_iff.mp hs
  exact ⟨hpc, e, t, m, hst, rfl⟩

theorem Wakeup.step_processed (hs : s.step n .processed = some s') :
    s.pc = .processing ∧ ∃ l, s.link.step n (.read s.buf) = some l ∧
      s' = { s with link := l, pc := .reading } := by
  obtain ⟨hpc, hs⟩ := Option.ite_none_right_eq_some.mp hs
  obtain ⟨l, hl, rfl⟩ := Option.map_eq_some_iff.mp hs
  exact ⟨hpc, l, hl, rfl⟩

/-- Only the producer's accesses publish a frame or write a byte. -/
theorem Wakeup.step_others {a : WakeAct} (hs : s.step n a = some s') (ha : a ≠ .producer) :
    s'.link.accepted = s.link.accepted ∧ s'.link.written = s.link.written := by
  cases a with
  | producer => exact absurd rfl ha
  | send packet =>
      obtain ⟨-, l, hl, rfl⟩ := Wakeup.step_send hs
      obtain ⟨t, -, rfl⟩ := Option.map_eq_some_iff.mp hl
      exact ⟨rfl, rfl⟩
  | trigger =>
      obtain ⟨-, rfl⟩ := Wakeup.step_trigger hs
      exact ⟨rfl, rfl⟩
  | wait =>
      obtain ⟨-, -, l, hl, rfl⟩ := Wakeup.step_wait hs
      obtain ⟨t, -, rfl⟩ := Option.map_eq_some_iff.mp hl
      exact ⟨rfl, rfl⟩
  | consumer =>
      obtain ⟨-, e, t, m, -, rfl⟩ := Wakeup.step_consumer hs
      exact ⟨rfl, rfl⟩
  | processed =>
      obtain ⟨-, l, hl, rfl⟩ := Wakeup.step_processed hs
      obtain ⟨t, -, rfl⟩ := Option.map_eq_some_iff.mp hl
      exact ⟨rfl, rfl⟩

/-- Nothing is taken back. -/
theorem Wakeup.step_mono {a : WakeAct} (hs : s.step n a = some s') :
    s.link.accepted <+: s'.link.accepted ∧ s.link.written ≤ s'.link.written := by
  by_cases ha : a = .producer
  · subst ha
    obtain ⟨-, e, t, m, -, rfl⟩ := Wakeup.step_producer hs
    dsimp only [Link.produced]
    constructor
    · split
      · exact List.prefix_append _ _
      · exact List.prefix_rfl
    · split <;> omega
  · obtain ⟨haccepted, hwritten⟩ := Wakeup.step_others hs ha
    rw [haccepted, hwritten]
    exact ⟨List.prefix_rfl, le_rfl⟩

/-- A step writes at most one byte. -/
theorem Wakeup.written_le_succ {a : WakeAct} (hs : s.step n a = some s') :
    s'.link.written ≤ s.link.written + 1 := by
  by_cases ha : a = .producer
  · subst ha
    obtain ⟨-, e, t, m, -, rfl⟩ := Wakeup.step_producer hs
    dsimp only [Link.produced]
    split <;> omega
  · rw [(Wakeup.step_others hs ha).2]
    exact Nat.le_succ _

end

/-! ### The invariant -/

/-- With the consumer at `R` and the frames `q` published and not released: a waiting consumer has
left no frame, and a reading one has seen the latest, unless it is yet to be woken. -/
structure WakeInv (n : Usize) (cap : ℕ) (s : Wakeup) (R : ℕ) (q : List (List UInt8))
    (part : List UInt8) : Prop where
  link : LinkInv n s.link R q part
  buf : s.buf.length = cap
  input : ∀ out rest, s.link.consumer = .running out rest → out.length = cap
  returned : ∀ x ∈ s.link.consumed, x = .returned x.payload
  waiting : s.pc = .waiting → s.event = false → s.untriggered = false → q = []
  reading : s.pc = .reading → s.event = false → s.untriggered = false →
    Reading n R (R + ringBytes q) (R + ringBytes q) q s.link.consumer

variable {n : Usize} {cap : ℕ} {s s' : Wakeup} {R : ℕ} {q : List (List UInt8)}
  {part : List UInt8}

/-- The consumer begins to read, having been woken or having processed a frame. -/
theorem WakeInv.read (h : WakeInv n cap s R q part) {l : Link} {ev : Bool}
    (hl : s.link.step n (.read s.buf) = some l) :
    WakeInv n cap { s with link := l, event := ev, pc := .reading } R q part := by
  have hlink := h.link.read hl
  obtain ⟨t, hst, rfl⟩ := Option.map_eq_some_iff.mp hl
  obtain ⟨-, rfl⟩ := Thread.start_eq_some hst
  refine ⟨hlink, h.buf, ?_, h.returned, by simp, fun _ _ _ => .start s.buf⟩
  intro out rest hrun
  rw [Thread.settle_running hrun]
  exact h.buf

/-- **The consumer's access.**  If it ends the inner loop, the ring was empty when `write_idx` was
loaded, and has been filled since only if the consumer is yet to be woken. -/
theorem WakeInv.consumer (hn : n.toNat ≤ 65537) (h : WakeInv n cap s R q part)
    (hfit : ∀ p ∈ s.link.accepted, p.length ≤ cap) (hs : s.step n .consumer = some s') :
    ∃ R' q', WakeInv n cap s' R' q' part := by
  obtain ⟨hpc, e, t, m, hst, rfl⟩ := Wakeup.step_consumer hs
  obtain ⟨R', q', hlink, hsame⟩ := h.link.consumer_step hn hst
  obtain ⟨k, hrun, -, hset⟩ := Thread.step_eq_some _ hst
  have hin : e.input.length = cap := h.input _ _ hrun
  have hnext : ∀ out rest, t = .running out rest → out.length = cap := by
    rintro out rest rfl
    rw [Thread.settle_running (congrArg Prod.fst hset).symm, hin]
  refine ⟨R', q', ?_⟩
  rcases h.link.consumer.step h.link.contents rfl le_rfl (Nat.le_add_right _ _) hn hst with
    ⟨rfl, -, hop, hres⟩ | ⟨p, q₁, rfl, hop, rfl, rfl, hres⟩
  · -- a load
    obtain ⟨rfl, rfl⟩ := hsame hop
    have hseen : s.event = false → s.untriggered = false →
        Reading n R' (R' + ringBytes q') (R' + ringBytes q') q' t ∧
          ∀ r, e.result = some r → q' = [] := by
      intro hev htr
      rcases (h.reading hpc hev htr).step h.link.contents rfl (Nat.le_add_right _ _) le_rfl hn hst
        with ⟨-, ht, -, hempty⟩ | ⟨p, q₁, -, hop', -⟩
      · exact ⟨ht, fun r hr => (hempty r hr).2 rfl⟩
      · exact absurd hop' (hop _)
    have hret : ∀ x ∈ (s.link.consumedBy n e t s.link.ring).consumed,
        x = .returned x.payload := by
      have hnone := s.link.ring.taken_none (n := n) hop fun r hr => by rw [(hres r hr).1]
      simpa [Link.consumedBy, hnone] using h.returned
    cases hr : e.result with
    | none =>
        refine ⟨hlink, h.buf, hnext, hret, ?_, fun _ hev htr => (hseen hev htr).1⟩
        intro hpc'
        cases hpc'
    | some r =>
        obtain ⟨rfl, -⟩ := hres r hr
        refine ⟨hlink, hin, hnext, hret, fun _ hev htr => (hseen hev htr).2 _ hr, ?_⟩
        intro hpc'
        cases hpc'
  · -- the release of a frame, which fits
    have hp : p.length ≤ cap := hfit p (by rw [h.link.accepted]; simp)
    rcases hres with ⟨hle, hres⟩ | ⟨hbig, -⟩
    · have hret : ∀ x ∈ s.link.consumed ++ (s.link.ring.taken n e).toList,
          x = .returned x.payload := by
        intro x hx
        rw [s.link.ring.taken_returned hres] at hx
        rcases List.mem_append.mp hx with hx | hx
        · exact h.returned x hx
        · obtain rfl : x = .returned p := by simpa using hx
          rfl
      simp only [hres]
      have hlen : (p ++ e.input.drop p.length).length = cap := by
        rw [List.length_append, List.length_drop]
        omega
      refine ⟨hlink, hlen, hnext, hret, ?_, ?_⟩
      · intro hpc'
        cases hpc'
      · intro hpc'
        cases hpc'
    · omega

/-- **The producer's access.**  A frame it publishes is one the consumer is yet to be woken for. -/
theorem WakeInv.producer (h : WakeInv n cap s R q part) (hs : s.step n .producer = some s')
    (hw : s'.link.written < 2 ^ 32) : ∃ q' part', WakeInv n cap s' R q' part' := by
  obtain ⟨htr, e, t, m, hst, rfl⟩ := Wakeup.step_producer hs
  obtain ⟨q', part', hlink, hsame⟩ := h.link.producer_step hst hw
  refine ⟨q', part', hlink, h.buf, h.input, h.returned, ?_, ?_⟩
  · intro hpc hev hne
    rw [hsame (by simpa using hne)]
    exact h.waiting hpc hev htr
  · intro hpc hev hne
    rw [hsame (by simpa using hne)]
    exact h.reading hpc hev htr

/-- **One step** keeps the invariant, as long as the frames accepted fit the buffer and fewer than
`2^32` ring bytes are written. -/
theorem wakeInv_step (hn : n.toNat ≤ 65537) {a : WakeAct} (hs : s.step n a = some s')
    (hfit : ∀ p ∈ s.link.accepted, p.length ≤ cap) (hw : s'.link.written < 2 ^ 32)
    (h : ∃ R q part, WakeInv n cap s R q part) : ∃ R q part, WakeInv n cap s' R q part := by
  obtain ⟨R, q, part, h⟩ := h
  cases a with
  | send packet =>
      obtain ⟨-, l, hl, rfl⟩ := Wakeup.step_send hs
      have hlink := h.link.write hl
      obtain ⟨t, -, rfl⟩ := Option.map_eq_some_iff.mp hl
      exact ⟨R, q, part, { h with link := hlink }⟩
  | producer => exact ⟨R, h.producer hs hw⟩
  | trigger =>
      obtain ⟨-, rfl⟩ := Wakeup.step_trigger hs
      exact ⟨R, q, part, h.link, h.buf, h.input, h.returned, nofun, nofun⟩
  | wait =>
      obtain ⟨-, -, l, hl, rfl⟩ := Wakeup.step_wait hs
      exact ⟨R, q, part, h.read hl⟩
  | consumer =>
      obtain ⟨R', q', h'⟩ := h.consumer hn hfit hs
      exact ⟨R', q', part, h'⟩
  | processed =>
      obtain ⟨-, l, hl, rfl⟩ := Wakeup.step_processed hs
      exact ⟨R, q, part, h.read hl⟩

theorem wakeInv_init (n : Usize) (ring : Ring) (buf : List UInt8) :
    WakeInv n buf.length (wakeup n ring buf).init 0 [] [] where
  link := linkInv_init n ring
  buf := rfl
  input := nofun
  returned := nofun
  waiting _ _ _ := rfl
  reading := nofun

/-- **Every run** keeps it. -/
theorem wakeInv_of_reachable (hn : n.toNat ≤ 65537) {ring : Ring} {buf : List UInt8}
    (h : (wakeup n ring buf).Reachable s) (hfit : ∀ p ∈ s.link.accepted, p.length ≤ buf.length)
    (hw : s.link.written < 2 ^ 32) : ∃ R q part, WakeInv n buf.length s R q part := by
  refine h.invariant (P := fun s => (∀ p ∈ s.link.accepted, p.length ≤ buf.length) →
    s.link.written < 2 ^ 32 → ∃ R q part, WakeInv n buf.length s R q part)
    (fun _ _ => ⟨0, [], [], wakeInv_init n ring buf⟩) (fun s a s' ih hs hfit hw => ?_) hfit hw
  obtain ⟨hpre, hle⟩ := Wakeup.step_mono hs
  have hfit' : ∀ p ∈ s.link.accepted, p.length ≤ buf.length := fun p hp =>
    hfit p (hpre.subset hp)
  exact wakeInv_step hn hs hfit' hw (ih hfit' (hle.trans_lt hw))

/-- **No lost wake-up.**  In either direction, with any buffer every accepted frame fits: when the
consumer waits and the event's latch is clear, the ring is empty and every accepted frame has been
returned to the loop, or the producer's core stands between publishing a frame and its trigger. -/
theorem no_lost_wakeup (ring : Ring) (buf : List UInt8) (s : Wakeup)
    (h : (wakeup bufSize ring buf).Reachable s)
    (hfit : ∀ p ∈ s.link.accepted, p.length ≤ buf.length) (hw : s.link.written < 2 ^ 32)
    (hpc : s.pc = .waiting) (hev : s.event = false) :
    (s.link.ring.writeIdx = s.link.ring.readIdx ∧
        s.link.consumed = s.link.accepted.map .returned) ∨ s.untriggered = true := by
  obtain ⟨R, q, part, hi⟩ := wakeInv_of_reachable (by decide) h hfit hw
  cases htr : s.untriggered with
  | true => exact .inr rfl
  | false =>
      obtain rfl := hi.waiting hpc hev htr
      refine .inl ⟨hi.link.contents.idx_eq_iff.mpr rfl, ?_⟩
      have hacc := hi.link.accepted
      rw [List.append_nil] at hacc
      rw [hacc, List.map_map]
      conv_lhs => rw [← List.map_id s.link.consumed]
      exact List.map_congr_left fun x hx => hi.returned x hx

/-- A frame is sent while the consumer waits, and the consumer drains the ring. -/
def oneWakeup : List WakeAct :=
  .send [] :: List.replicate 5 .producer ++ [.trigger, .wait] ++ List.replicate 5 .consumer ++
    [.processed, .consumer, .consumer]

theorem no_lost_wakeup_one :
    ∃ s, (wakeup bufSize ⟨5, 9, fun _ => 0⟩ [0, 0]).run oneWakeup = some s ∧
      s.link.accepted = [[]] ∧ s.link.consumed = [.returned []] := by
  obtain ⟨s, hs, hpc, hev, htr, hw, hacc⟩ :=
    (wakeup bufSize ⟨5, 9, fun _ => 0⟩ [0, 0]).exists_of_run oneWakeup
      (fun s => s.pc = .waiting ∧ s.event = false ∧ s.untriggered = false ∧
        s.link.written = 2 ∧ s.link.accepted = [[]]) (by decide)
  rcases no_lost_wakeup _ _ s ⟨oneWakeup, hs⟩ (by rw [hacc]; decide) (by rw [hw]; decide) hpc hev
    with ⟨-, hcons⟩ | htr'
  · exact ⟨s, hs, hacc, by rw [hcons, hacc]; rfl⟩
  · rw [htr] at htr'; cases htr'

end NrfHciUsb
