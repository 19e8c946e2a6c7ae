import NrfHciUsb.Ipc.Doorbell
import NrfHciUsb.Ipc.Duplex

/-!
# Ipc — Work

What there is left to do at a ring, counted in accesses: for the calls under way, for an event that
is to be triggered or that is set, and for the frames that are to be read.  A call is paid for when
it begins, and a frame that is taken yields what its processing costs.

* `Wakeup.Live.step`: every step leaves less to do.
* `Wakeup.Live.producer_silent`, `consumer_silent`: what keeps the two sides from a step.
-/

namespace NrfHciUsb
open Support

/-! ### Costs

A read makes at most `K` accesses, and the processing of a frame is worth `g`. -/

section
variable (K g : ℕ)

/-- A set event: a wait, and a read. -/
def bellCost : ℕ := 1 + K

/-- A frame: what it is worth, the step back to the ring and a read. -/
def frameCost : ℕ := bellCost K + g

/-- What a frame that is accepted brings: the trigger, the event and the frame. -/
def acceptCost : ℕ := 1 + bellCost K + frameCost K g

/-- A call of `rb_write` with `len` bytes. -/
def callCost (len : ℕ) : ℕ := len + 6 + acceptCost K g

def BellEvent.pays : BellEvent → ℕ
  | .calls packet => callCost K g packet.length
  | .sent _ _ | .took _ | .done => 0

def BellEvent.earns : BellEvent → ℕ
  | .took _ => g
  | .calls _ | .sent _ _ | .done => 0

def ConsumerPc.work : ConsumerPc → ℕ
  | .processing => bellCost K
  | .waiting | .reading => 0

/-- The frames that are published and not released. -/
def Link.unread (l : Link) : ℕ := l.accepted.length - l.consumed.length

/-- With `i` accesses for the producer's call, and `j` for the consumer's. -/
def Wakeup.work (s : Wakeup) (i j : ℕ) : ℕ :=
  i + s.link.producer.input.toList.length * acceptCost K g +
    (if s.untriggered then 1 + bellCost K else 0) + (if s.event then bellCost K else 0) +
    j + s.pc.work K + s.link.unread * frameCost K g

end

/-- Both calls return, and the consumer is inside one when it reads. -/
structure Wakeup.Live (K : ℕ) (s : Wakeup) (i j : ℕ) : Prop where
  producer : s.link.producer.Within i
  producer_le : ∀ f, s.link.producer.input = some f → i ≤ f.length + 5
  consumer : s.link.consumer.Within j
  consumer_le : j ≤ K
  reading : s.pc = .reading ↔ s.link.consumer ≠ .idle

variable {n : Usize} {K g : ℕ} {s s' : Wakeup} {a : WakeAct} {i j : ℕ}

theorem live_init (n : Usize) (ring : Ring) (buf : List UInt8) (K : ℕ) :
    (wakeup n ring buf).init.Live K 0 0 :=
  ⟨.idle, fun _ _ => Nat.zero_le _, .idle, Nat.zero_le _, by simp [wakeup, link]⟩

/-- The most that there can be to do. -/
def Wakeup.bound (K g : ℕ) (s : Wakeup) : ℕ :=
  s.work K g (s.link.producer.input.elim 0 fun f => f.length + 5) K

theorem Wakeup.Live.work_le (h : s.Live K i j) : s.work K g i j ≤ s.bound K g := by
  have hj := h.consumer_le
  have hi : i ≤ s.link.producer.input.elim 0 fun f => f.length + 5 := by
    cases hin : s.link.producer.input with
    | some f => exact h.producer_le f hin
    | none =>
        have hproducer := h.producer
        cases hp : s.link.producer with
        | idle =>
            rw [hp] at hproducer
            cases hproducer
            exact le_rfl
        | running input rest =>
            rw [hp] at hin
            cases hin
  rw [Wakeup.bound, Wakeup.work, Wakeup.work]
  omega

/-! ### What a step shows -/

/-- A step that is none of the producer's calls, one with which such a call begins, and may return
at once, or one with which it returns. -/
theorem Wakeup.shows_cases (hs : s.step n a = some s') :
    (s'.link.producer.input = s.link.producer.input ∧
      (s.shows n a = [] ∨ s.shows n a = [.done] ∨ ∃ f, s.shows n a = [.took f])) ∨
    (∃ packet, s.link.producer.input = none ∧
      (s'.link.producer.input = some packet ∧ s.shows n a = [.calls packet] ∨
        ∃ ok, s'.link.producer.input = none ∧
          s.shows n a = [.calls packet, .sent packet ok])) ∨
    ∃ packet ok, s.link.producer.input = some packet ∧ s'.link.producer.input = none ∧
      s.shows n a = [.sent packet ok] := by
  cases a with
  | send packet =>
      obtain ⟨-, l, hl, rfl⟩ := Wakeup.step_send hs
      obtain ⟨th, hst, rfl⟩ := Option.map_eq_some_iff.mp hl
      obtain ⟨hidle, rfl⟩ := Thread.start_eq_some hst
      refine .inr (.inl ⟨packet, by rw [hidle, Thread.input], ?_⟩)
      have hinput := Thread.input_settle packet (rbWrite n packet)
      rw [Wakeup.shows]
      cases hr : (Thread.settle packet (rbWrite n packet)).2 with
      | none => exact .inl ⟨by rw [hinput, hr]; rfl, rfl⟩
      | some ok => exact .inr ⟨ok, by rw [hinput, hr]; rfl, rfl⟩
  | producer =>
      obtain ⟨-, e, th, m, hst, rfl⟩ := Wakeup.step_producer hs
      obtain ⟨hold, hinput⟩ := Thread.step_input _ hst
      have hshow : s.shows n .producer = sentBack e.input e.result := by simp [Wakeup.shows, hst]
      rw [hshow]
      cases hr : e.result with
      | none =>
          rw [hr] at hinput
          exact .inl ⟨hinput.trans hold.symm, .inl rfl⟩
      | some ok =>
          rw [hr] at hinput
          exact .inr (.inr ⟨e.input, ok, hold, hinput, rfl⟩)
  | trigger =>
      obtain ⟨-, rfl⟩ := Wakeup.step_trigger hs
      exact .inl ⟨rfl, .inl rfl⟩
  | wait =>
      obtain ⟨-, -, l, hl, rfl⟩ := Wakeup.step_wait hs
      obtain ⟨th, -, rfl⟩ := Option.map_eq_some_iff.mp hl
      exact .inl ⟨rfl, .inl rfl⟩
  | consumer =>
      obtain ⟨-, e, th, m, hst, rfl⟩ := Wakeup.step_consumer hs
      have hshow : s.shows n .consumer = tookBack e.result := by simp [Wakeup.shows, hst]
      rw [hshow]
      refine .inl ⟨rfl, ?_⟩
      rcases e.result with _ | ⟨_ | k, buf⟩
      · exact .inl rfl
      · exact .inl rfl
      · exact .inr (.inr ⟨_, rfl⟩)
  | processed =>
      obtain ⟨-, l, hl, rfl⟩ := Wakeup.step_processed hs
      obtain ⟨th, -, rfl⟩ := Option.map_eq_some_iff.mp hl
      exact .inl ⟨rfl, .inr (.inl rfl)⟩

/-! ### What a step leaves -/

variable {cap R : ℕ} {q : List (List UInt8)} {part : List UInt8}

theorem LinkInv.consumed_le {l : Link} (h : LinkInv n l R q part) :
    l.consumed.length ≤ l.accepted.length := by
  have hlen := congrArg List.length h.accepted
  rw [List.length_append, List.length_map] at hlen
  omega

theorem sum_sentBack (packet : List UInt8) (r : Option Bool) :
    ((sentBack packet r).map (BellEvent.earns g)).sum = 0 ∧
      ((sentBack packet r).map (BellEvent.pays K g)).sum = 0 := by
  cases r <;> exact ⟨rfl, rfl⟩

/-- The producer begins a call. -/
theorem Wakeup.Live.send (h : s.Live K i j) {packet : List UInt8}
    (hs : s.step n (.send packet) = some s') : ∃ i', s'.Live K i' j ∧
      s'.work K g i' j < s.work K g i j + callCost K g packet.length := by
  obtain ⟨-, l, hl, rfl⟩ := Wakeup.step_send hs
  obtain ⟨th, hst, rfl⟩ := Option.map_eq_some_iff.mp hl
  obtain ⟨hidle, rfl⟩ := Thread.start_eq_some hst
  obtain ⟨i', hi', hwithin⟩ := Thread.within_settle packet (@rbWrite_within n packet)
  have hsame : ∀ f, (Thread.settle packet (rbWrite n packet)).1.input = some f →
      i' ≤ f.length + 5 := by
    intro f hf
    rw [Thread.input_settle] at hf
    split at hf <;> cases hf
    exact hi'
  refine ⟨i', ⟨hwithin, hsame, h.consumer, h.consumer_le, h.reading⟩, ?_⟩
  have hinput : (Thread.settle packet (rbWrite n packet)).1.input.toList.length *
      acceptCost K g ≤ acceptCost K g := by
    cases (Thread.settle packet (rbWrite n packet)).1.input <;> simp
  have hold : s.link.producer.input = none := by rw [hidle, Thread.input]
  simp only [Wakeup.work, Link.unread, hold, callCost, Option.toList_none, List.length_nil,
    Nat.zero_mul]
  omega

/-- The producer makes an access, and a frame that it publishes is one to trigger the event for,
and one to read. -/
theorem Wakeup.Live.access (h : s.Live K i j)
    (hle : s.link.consumed.length ≤ s.link.accepted.length) (hs : s.step n .producer = some s') :
    ∃ i', s'.Live K i' j ∧ s'.work K g i' j < s.work K g i j := by
  obtain ⟨htr, e, th, m, hst, rfl⟩ := Wakeup.step_producer hs
  obtain ⟨i', hi', hwithin⟩ := h.producer.step Ring.perform hst
  obtain ⟨hold, hinput⟩ := Thread.step_input _ hst
  have hsame : ∀ f, th.input = some f → i' ≤ f.length + 5 := by
    intro f hf
    have hle := h.producer_le e.input hold
    rw [hinput] at hf
    split at hf <;> cases hf
    omega
  refine ⟨i', ⟨hwithin, hsame, h.consumer, h.consumer_le, h.reading⟩, ?_⟩
  dsimp only [Wakeup.work, Link.unread, Link.produced]
  rw [hold, hinput, htr]
  cases hr : e.result with
  | none =>
      simp
      omega
  | some ok =>
      have hone : s.link.accepted.length + 1 - s.link.consumed.length =
          s.link.accepted.length - s.link.consumed.length + 1 := by omega
      cases ok <;> simp [acceptCost, hone, Nat.add_mul] <;> omega

/-- The consumer begins to read. -/
theorem Wakeup.Live.read (h : s.Live K i j) (hbuf : s.buf.length + 5 ≤ K) {l : Link}
    (hl : s.link.step n (.read s.buf) = some l) (event : Bool) :
    ∃ j' ≤ K, j = 0 ∧ Wakeup.Live K { s with link := l, event := event, pc := .reading } i j' ∧
      l.producer = s.link.producer ∧ l.unread = s.link.unread := by
  obtain ⟨th, hst, rfl⟩ := Option.map_eq_some_iff.mp hl
  obtain ⟨hidle, rfl⟩ := Thread.start_eq_some hst
  obtain ⟨j', hj', hwithin⟩ := Thread.within_settle s.buf (@rbRead_within n s.buf)
  have hj : j = 0 := by
    have hc := h.consumer
    rw [hidle] at hc
    cases hc
    rfl
  exact ⟨j', by omega, hj, ⟨h.producer, h.producer_le, hwithin, by omega,
    by simp [rbRead_eq, Thread.settle]⟩, rfl, rfl⟩

/-- The consumer makes an access, and a frame that it takes is one less to read. -/
theorem Wakeup.Live.consume (hn : n.toNat ≤ 65537) (h : s.Live K i j)
    (hi : LinkInv n s.link R q part) (hs : s.step n .consumer = some s')
    (hle : s'.link.consumed.length ≤ s'.link.accepted.length) : ∃ j', s'.Live K i j' ∧
      s'.work K g i j' + ((s.shows n .consumer).map (BellEvent.earns g)).sum <
        s.work K g i j := by
  obtain ⟨hpc, e, th, m, hst, rfl⟩ := Wakeup.step_consumer hs
  obtain ⟨j', hj', hwithin⟩ := h.consumer.step Ring.perform hst
  obtain ⟨k, -, -, hset⟩ := Thread.step_eq_some _ hst
  have hshow : s.shows n .consumer = tookBack e.result := by simp [Wakeup.shows, hst]
  rw [hshow]
  refine ⟨j', ⟨h.producer, h.producer_le, hwithin, hj'.le.trans h.consumer_le, ?_⟩, ?_⟩
  · cases hr : e.result with
    | none =>
        rw [hr] at hset
        obtain ⟨rest, rfl⟩ := Thread.of_settle_none hset
        simp [Link.consumedBy, ConsumerPc.after]
    | some r =>
        rw [hr] at hset
        obtain rfl := Thread.of_settle_some hset
        obtain ⟨_ | len, buf⟩ := r <;> simp [Link.consumedBy, ConsumerPc.after]
  · dsimp only [Wakeup.work, Link.unread, Link.consumedBy] at hle ⊢
    rw [hpc]
    rcases hi.consumer.step hi.contents rfl le_rfl (Nat.le_add_right _ _) hn hst with
      ⟨rfl, -, hop, hres⟩ | ⟨f, rest, -, hop, -, -, hres⟩
    · -- a load
      have hno : ConsumerPc.work K (.after e.result) = 0 ∧
          ((tookBack e.result).map (BellEvent.earns g)).sum = 0 := by
        cases hr : e.result with
        | none => exact ⟨rfl, rfl⟩
        | some r =>
            obtain ⟨rfl, -⟩ := hres r hr
            exact ⟨rfl, rfl⟩
      rw [s.link.ring.taken_none hop fun r hr => by rw [(hres r hr).1], hno.1, hno.2]
      simp [ConsumerPc.work]
      omega
    · -- the release of a frame
      obtain ⟨x, hx⟩ : ∃ x, s.link.ring.taken n e = some x := by
        rcases hres with ⟨-, hres⟩ | ⟨-, hres⟩ <;> simp [Ring.taken, hop, hres]
      have hcost : ConsumerPc.work K (.after e.result) +
          ((tookBack e.result).map (BellEvent.earns g)).sum ≤ frameCost K g := by
        rcases hres with ⟨-, hres⟩ | ⟨-, hres⟩
        · simp [hres, tookBack, ConsumerPc.after, ConsumerPc.work, BellEvent.earns, frameCost]
        · simp [hres, tookBack, ConsumerPc.after, ConsumerPc.work, frameCost]
      rw [hx, Option.toList_some, List.length_append, List.length_singleton] at hle ⊢
      have hone : s.link.accepted.length - s.link.consumed.length =
          s.link.accepted.length - (s.link.consumed.length + 1) + 1 := by omega
      rw [hone, Nat.add_mul]
      simp only [ConsumerPc.work] at hcost ⊢
      omega

/-- **Every step** leaves less to do, once the calls that begin are paid for. -/
theorem Wakeup.Live.step (hn : n.toNat ≤ 65537) (hK : cap + 5 ≤ K) (h : s.Live K i j)
    (hi : WakeInv n cap s R q part) (hs : s.step n a = some s')
    (hle : s'.link.consumed.length ≤ s'.link.accepted.length) : ∃ i' j', s'.Live K i' j' ∧
      s'.work K g i' j' + ((s.shows n a).map (BellEvent.earns g)).sum <
        s.work K g i j + ((s.shows n a).map (BellEvent.pays K g)).sum := by
  have hbuf : s.buf.length + 5 ≤ K := by rw [hi.buf]; exact hK
  cases a with
  | send packet =>
      obtain ⟨i', hlive, hlt⟩ := h.send (g := g) hs
      obtain ⟨hearns, hpays⟩ := @sum_sentBack K g packet (Thread.settle packet (rbWrite n packet)).2
      refine ⟨i', j, hlive, ?_⟩
      rw [Wakeup.shows, List.map_cons, List.map_cons, List.sum_cons, List.sum_cons, hearns, hpays]
      simp only [BellEvent.earns, BellEvent.pays]
      omega
  | producer =>
      obtain ⟨i', hlive, hlt⟩ := h.access (g := g) hi.link.consumed_le hs
      refine ⟨i', j, hlive, ?_⟩
      have hearns : ((s.shows n .producer).map (BellEvent.earns g)).sum = 0 := by
        rw [Wakeup.shows]
        split
        · exact (sum_sentBack (K := K) _ _).1
        · rfl
      omega
  | trigger =>
      obtain ⟨htr, rfl⟩ := Wakeup.step_trigger hs
      refine ⟨i, j, ⟨h.producer, h.producer_le, h.consumer, h.consumer_le, h.reading⟩, ?_⟩
      simp only [Wakeup.work, Wakeup.shows, htr, if_true, if_false, Bool.false_eq_true,
        List.map_nil, List.sum_nil]
      omega
  | wait =>
      obtain ⟨hpc, hev, l, hl, rfl⟩ := Wakeup.step_wait hs
      obtain ⟨j', hj', rfl, hlive, hproducer, hunread⟩ := h.read hbuf hl false
      refine ⟨i, j', hlive, ?_⟩
      simp only [Wakeup.work, Wakeup.shows, hproducer, hunread, hpc, hev, if_true,
        ConsumerPc.work, bellCost, List.map_nil, List.sum_nil]
      simp
      omega
  | consumer =>
      obtain ⟨j', hlive, hlt⟩ := h.consume (g := g) hn hi.link hs hle
      exact ⟨i, j', hlive, by omega⟩
  | processed =>
      obtain ⟨hpc, l, hl, rfl⟩ := Wakeup.step_processed hs
      obtain ⟨j', hj', rfl, hlive, hproducer, hunread⟩ := h.read hbuf hl s.event
      refine ⟨i, j', hlive, ?_⟩
      simp only [Wakeup.work, Wakeup.shows, hproducer, hunread, hpc, ConsumerPc.work, bellCost]
      simp [BellEvent.earns, BellEvent.pays]
      omega

theorem live_of_reachable (hn : n.toNat ≤ 65537) {ring : Ring} {buf : List UInt8}
    (h : (wakeup n ring buf).Reachable s) (hfit : s.Fits buf.length) :
    ∃ i j, s.Live (buf.length + 5) i j := by
  refine (h.invariant (P := fun s => s.Fits buf.length →
    (∃ R q part, WakeInv n buf.length s R q part) ∧ ∃ i j, s.Live (buf.length + 5) i j)
    (fun _ => ⟨⟨0, [], [], wakeInv_init n ring buf⟩, 0, 0, live_init n ring buf _⟩)
    (fun s a s' ih hs hfit => ?_) hfit).2
  obtain ⟨hpre, hle⟩ := Wakeup.step_mono hs
  have hfits : s.Fits buf.length :=
    ⟨fun f hf => hfit.1 f (hpre.subset hf), hle.trans_lt hfit.2⟩
  obtain ⟨hi, i, j, hlive⟩ := ih hfits
  obtain ⟨R', q', part', hi'⟩ := wakeInv_step hn hs hfits.1 hfit.2 hi
  obtain ⟨R, q, part, hi⟩ := hi
  obtain ⟨i', j', hlive', -⟩ :=
    hlive.step (g := 0) hn le_rfl hi hs hi'.link.consumed_le
  exact ⟨⟨R', q', part', hi'⟩, i', j', hlive'⟩

/-! ### Where nothing goes on

Of the steps of a ring, what is around it lets happen those that show what is `ok`. -/

/-- The producer has nothing to do: no call is under way, no event to be triggered, and none of the
calls that may begin is let happen. -/
theorem Wakeup.Live.producer_silent (h : s.Live K i j) (ok : List BellEvent → Prop)
    (hrest : ∀ a, ok (s.shows n a) → s.step n a = none) (hnil : ok [])
    (hsent : ∀ packet r, s.link.producer.input = some packet → ok [.sent packet r]) :
    s.untriggered = false ∧ s.link.producer = .idle ∧
      ∀ packet, ok [.calls packet] → ¬ ∀ r, ok [.calls packet, .sent packet r] := by
  have htr : s.untriggered = false := by
    have hno := hrest .trigger hnil
    simpa [Wakeup.step] using hno
  have hidle : s.link.producer = .idle := by
    by_contra hne
    obtain ⟨e, th, m, hst, hinput⟩ := h.producer.exists_step Ring.perform hne s.link.ring
    have hok : ok (s.shows n .producer) := by
      simp only [Wakeup.shows, hst]
      cases e.result with
      | none => exact hnil
      | some r => exact hsent e.input r hinput
    have hno := hrest .producer hok
    simp [Wakeup.step, htr, hst] at hno
  refine ⟨htr, hidle, fun packet hcalls hboth => ?_⟩
  have hok : ok (s.shows n (.send packet)) := by
    rw [Wakeup.shows]
    cases (Thread.settle packet (rbWrite n packet)).2 with
    | none => exact hcalls
    | some r => exact hboth r
  have hno := hrest (.send packet) hok
  simp [Wakeup.step, Link.step, htr, hidle, Thread.start] at hno

/-- The consumer waits, with its event clear. -/
theorem Wakeup.Live.consumer_silent (h : s.Live K i j) (ok : List BellEvent → Prop)
    (hrest : ∀ a, ok (s.shows n a) → s.step n a = none) (hnil : ok []) (hdone : ok [.done])
    (htook : ∀ f, ok [.took f]) : s.pc = .waiting ∧ s.event = false := by
  have hidle : s.pc ≠ .reading → s.link.consumer = .idle := fun hpc =>
    Classical.not_not.mp fun hne => hpc (h.reading.mpr hne)
  have hpc : s.pc = .waiting := by
    cases hpc : s.pc with
    | waiting => rfl
    | processing =>
        have hno := hrest .processed hdone
        simp [Wakeup.step, Link.step, Thread.start, hpc, hidle (by simp [hpc])] at hno
    | reading =>
        obtain ⟨e, th, m, hst, -⟩ :=
          h.consumer.exists_step Ring.perform (h.reading.mp hpc) s.link.ring
        have hok : ok (s.shows n .consumer) := by
          simp only [Wakeup.shows, hst]
          rcases e.result with _ | ⟨_ | k, buf⟩
          · exact hnil
          · exact hnil
          · exact htook _
        have hno := hrest .consumer hok
        simp [Wakeup.step, hpc, hst] at hno
  refine ⟨hpc, ?_⟩
  have hno := hrest .wait hnil
  simpa [Wakeup.step, Link.step, Thread.start, hpc, hidle (by simp [hpc])] using hno

end NrfHciUsb
