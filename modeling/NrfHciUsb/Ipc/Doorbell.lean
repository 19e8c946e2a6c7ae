import NrfHciUsb.Ipc.Linearizable
import NrfHciUsb.Ipc.Wakeup

/-!
# Ipc — Doorbell

What a ring, its event and the loops around them are for: a queue with a bell.  The bell rings with
the frame that is sent, at one moment of the call that sends it, and a consumer that it has woken
takes frames until there is none.

On the cores a frame is published, and perhaps taken, before the event is triggered; a consumer may
find the ring empty and see a frame come in before it waits, or be woken for nothing.
`ring_is_doorbell`: none of this shows.
-/

namespace NrfHciUsb
open Support

/-- The queue, the packet of the call under way, the bell and the consumer with its buffer. -/
structure Doorbell (n : Usize) where
  queue : FrameQueue n
  call : Option (List UInt8)
  event : Bool
  pc : ConsumerPc
  buf : List UInt8

inductive BellAct where
  | call (packet : List UInt8)
  | send
  | wait
  | read
  | processed

variable {n : Usize}

def Doorbell.step (t : Doorbell n) : BellAct → Option (Doorbell n)
  | .call packet => if t.call = none then some { t with call := some packet } else none
  | .send =>
      t.call.map fun packet =>
        let r := t.queue.send packet
        { t with queue := r.2, call := none, event := t.event || r.1 }
  | .wait =>
      if t.pc = .waiting ∧ t.event then some { t with event := false, pc := .reading } else none
  | .read =>
      if t.pc = .reading then
        let r := t.queue.recv t.buf
        some { t with queue := r.2, buf := r.1.2, pc := .after (some r.1) }
      else none
  | .processed => if t.pc = .processing then some { t with pc := .reading } else none

/-- The empty queue, with the consumer in `wait()`. -/
def doorbell (n : Usize) (buf : List UInt8) : Machine (Doorbell n) BellAct where
  init := ⟨Fifo.empty, none, false, .waiting, buf⟩
  step := Doorbell.step

/-! ### What is seen -/

/-- A packet that is to be sent, whether there was room for it, a frame that the consumer has to
process, or that it has processed it. -/
inductive BellEvent where
  | calls (packet : List UInt8)
  | sent (packet : List UInt8) (ok : Bool)
  | took (frame : List UInt8)
  | done
  deriving DecidableEq, Repr

/-- The return of `rb_write`. -/
def sentBack (packet : List UInt8) (result : Option Bool) : List BellEvent :=
  result.toList.map fun ok => .sent packet ok

/-- The return of `rb_read`, unless it ends the inner loop. -/
def tookBack : Option (Option ℕ × List UInt8) → List BellEvent
  | some (some k, buf) => [.took (buf.take k)]
  | some (none, _) | none => []

def Wakeup.shows (n : Usize) (s : Wakeup) : WakeAct → List BellEvent
  | .send packet => .calls packet :: sentBack packet (Thread.settle packet (rbWrite n packet)).2
  | .producer =>
      match s.link.producer.step Ring.perform s.link.ring with
      | some (e, _, _) => sentBack e.input e.result
      | none => []
  | .consumer =>
      match s.link.consumer.step Ring.perform s.link.ring with
      | some (e, _, _) => tookBack e.result
      | none => []
  | .processed => [.done]
  | .trigger | .wait => []

def Doorbell.shows (t : Doorbell n) : BellAct → List BellEvent
  | .call packet => [.calls packet]
  | .send => t.call.toList.map fun packet => .sent packet (t.queue.send packet).1
  | .read => tookBack (some (t.queue.recv t.buf).1)
  | .processed => [.done]
  | .wait => []

/-- A frame is accepted when `rb_write` returns for it. -/
theorem Wakeup.accepted_shows {s s' : Wakeup} {a : WakeAct} (hs : s.step n a = some s')
    {f : List UInt8} (hf : f ∈ s'.link.accepted) :
    f ∈ s.link.accepted ∨ s.shows n a = [.sent f true] := by
  by_cases ha : a = .producer
  · subst ha
    obtain ⟨-, e, t, m, hst, rfl⟩ := Wakeup.step_producer hs
    dsimp only [Link.produced] at hf
    split at hf
    · rename_i hok
      rcases List.mem_append.mp hf with hf | hf
      · exact .inl hf
      · rw [List.mem_singleton.mp hf]
        exact .inr (by simp [Wakeup.shows, hst, hok, sentBack])
    · exact .inl hf
  · rw [(Wakeup.step_others hs ha).1] at hf
    exact .inl hf

theorem tookBack_received {f out : List UInt8} (h : f.length ≤ out.length) :
    tookBack (some (received f out)) = [.took f] := by
  rw [received, if_pos h, tookBack, List.take_left]

theorem after_received {f out : List UInt8} (h : f.length ≤ out.length) :
    ConsumerPc.after (some (received f out)) = .processing := by
  rw [received, if_pos h, ConsumerPc.after]

theorem received_length {f out : List UInt8} (h : f.length ≤ out.length) :
    (received f out).2.length = out.length := by
  rw [received, if_pos h, List.length_append, List.length_drop]
  omega

/-! ### The steps of the doorbell -/

variable {t : Doorbell n} {buf : List UInt8}

theorem doorbell_call (packet : List UInt8) (h : t.call = none) :
    (doorbell n buf).Shows Doorbell.shows t [.calls packet] { t with call := some packet } := by
  have hstep : (doorbell n buf).step t (.call packet) = some { t with call := some packet } :=
    if_pos h
  exact .one hstep

theorem doorbell_send {packet : List UInt8} {ok : Bool} {q : FrameQueue n}
    (hcall : t.call = some packet) (h : t.queue.send packet = (ok, q)) :
    (doorbell n buf).Shows Doorbell.shows t [.sent packet ok]
      { t with queue := q, call := none, event := t.event || ok } := by
  have hshow : t.shows .send = [.sent packet ok] := by
    rw [Doorbell.shows, hcall, Option.toList_some, List.map_singleton, h]
  have hstep : (doorbell n buf).step t .send =
      some { t with queue := q, call := none, event := t.event || ok } := by
    simp only [doorbell, Doorbell.step, hcall, h, Option.map_some]
  exact hshow ▸ .one hstep

theorem doorbell_wait (hpc : t.pc = .waiting) (hev : t.event = true) :
    (doorbell n buf).Shows Doorbell.shows t [] { t with event := false, pc := .reading } := by
  have hstep : (doorbell n buf).step t .wait = some { t with event := false, pc := .reading } :=
    if_pos ⟨hpc, hev⟩
  exact .one hstep

theorem doorbell_read {r : Option ℕ × List UInt8} {q : FrameQueue n} (hpc : t.pc = .reading)
    (h : t.queue.recv t.buf = (r, q)) :
    (doorbell n buf).Shows Doorbell.shows t (tookBack (some r))
      { t with queue := q, buf := r.2, pc := .after (some r) } := by
  have hshow : t.shows .read = tookBack (some r) := by rw [Doorbell.shows, h]
  have hstep : (doorbell n buf).step t .read =
      some { t with queue := q, buf := r.2, pc := .after (some r) } := by
    simp only [doorbell, Doorbell.step, hpc, h, if_true]
  exact hshow ▸ .one hstep

theorem doorbell_processed (hpc : t.pc = .processing) :
    (doorbell n buf).Shows Doorbell.shows t [.done] { t with pc := .reading } := by
  have hstep : (doorbell n buf).step t .processed = some { t with pc := .reading } := if_pos hpc
  exact .one hstep

/-! ### The simulation -/

/-- With the consumer at `R` and its call at `p`.  A consumer that has been woken for nothing reads
while that of the doorbell waits, and so does one that has found the ring empty.  The bell has rung
for the frames that a waiting consumer has before it. -/
structure BellInv (n : Usize) (cap : ℕ) (s : Wakeup) (t : Doorbell n) (R : ℕ) (part : List UInt8)
    (p : Port RingCall RingResult) : Prop where
  link : LinkInv n s.link R t.queue.items part
  port : ReadPort n R s.link.consumer p
  buf : s.buf.length = cap ∧ t.buf.length = cap
  input : ∀ out rest, s.link.consumer = .running out rest → out.length = cap
  pc : s.pc = t.pc ∨ s.pc = .reading ∧ t.pc = .waiting
  answered : ∀ c r, p = .answered c r → t.pc = .waiting
  awake : t.pc = .waiting → t.queue.items ≠ [] → t.event = true
  call : t.call = s.link.producer.input

def BellMatches (n : Usize) (cap : ℕ) (s : Wakeup) (t : Doorbell n) : Prop :=
  ∃ R part p, BellInv n cap s t R part p

/-- The frames accepted fit the buffer, and fewer than `2^32` ring bytes are written. -/
def Wakeup.Fits (cap : ℕ) (s : Wakeup) : Prop :=
  (∀ f ∈ s.link.accepted, f.length ≤ cap) ∧ s.link.written < 2 ^ 32

theorem bellMatches_init (n : Usize) (ring : Ring) (buf : List UInt8) :
    BellMatches n buf.length (wakeup n ring buf).init (doorbell n buf).init :=
  ⟨0, [], .idle, linkInv_init n ring, .idle, ⟨rfl, rfl⟩, nofun, .inl rfl, nofun,
    fun _ h => absurd rfl h, rfl⟩

variable {cap : ℕ} {s s' : Wakeup} {R : ℕ} {part : List UInt8} {p : Port RingCall RingResult}

theorem BellMatches.send (h : BellMatches n cap s t) {packet : List UInt8}
    (hs : s.step n (.send packet) = some s') :
    ∃ t', (doorbell n buf).Shows Doorbell.shows t (s.shows n (.send packet)) t' ∧
      BellMatches n cap s' t' := by
  obtain ⟨R, part, p, hb⟩ := h
  obtain ⟨-, l, hl, rfl⟩ := Wakeup.step_send hs
  have hlink := hb.link.write hl
  obtain ⟨th, hst, rfl⟩ := Option.map_eq_some_iff.mp hl
  obtain ⟨hidle, rfl⟩ := Thread.start_eq_some hst
  have hcall : t.call = none := by rw [hb.call, hidle, Thread.input]
  rw [Wakeup.shows]
  by_cases hfit : 2 + packet.length ≤ n.toNat
  · have hvis := rbWrite_eq hfit
    have hinput : (Thread.settle packet (rbWrite n packet)).1.input = some packet := by
      rw [hvis]
      rfl
    have hret : (Thread.settle packet (rbWrite n packet)).2 = none := by
      rw [hvis]
      rfl
    rw [hret]
    exact ⟨_, doorbell_call packet hcall, R, part, p,
      { hb with link := hlink, call := hinput.symm }⟩
  · -- refused without an access
    have hvis : rbWrite n packet = .ret false := rbWrite_eq_ret (by omega)
    have hinput : (Thread.settle packet (rbWrite n packet)).1.input = none := by
      rw [hvis]
      rfl
    have hret : (Thread.settle packet (rbWrite n packet)).2 = some false := by
      rw [hvis]
      rfl
    rw [hret]
    have hsend : (doorbell n buf).Shows Doorbell.shows { t with call := some packet }
        [.sent packet false]
        { t with queue := t.queue, call := none, event := t.event || false } :=
      doorbell_send rfl (FrameQueue.send_refused (by omega))
    refine ⟨_, (doorbell_call packet hcall).trans hsend, R, part, p,
      { hb with link := hlink, awake := ?_, call := hinput.symm }⟩
    intro hpc hne
    rw [Bool.or_false]
    exact hb.awake hpc hne

theorem BellMatches.producer (h : BellMatches n cap s t) (hs : s.step n .producer = some s')
    (hw : s'.link.written < 2 ^ 32) :
    ∃ t', (doorbell n buf).Shows Doorbell.shows t (s.shows n .producer) t' ∧
      BellMatches n cap s' t' := by
  obtain ⟨R, part, p, hb⟩ := h
  obtain ⟨-, e, th, m, hst, rfl⟩ := Wakeup.step_producer hs
  have hshow : s.shows n .producer = sentBack e.input e.result := by simp [Wakeup.shows, hst]
  rw [hshow]
  obtain ⟨hold, hinput⟩ := Thread.step_input _ hst
  have hcall : t.call = some e.input := hb.call.trans hold
  obtain ⟨part', ⟨hres, hlink⟩ | ⟨ok, q, hres, hsend, hlink⟩⟩ := hb.link.producer_queue hst hw
  · rw [hres] at hinput ⊢
    exact ⟨t, .refl t, R, part', p, { hb with link := hlink, call := hcall.trans hinput.symm }⟩
  · rw [hres] at hinput ⊢
    refine ⟨_, doorbell_send hcall hsend, R, part', p,
      { hb with link := hlink, awake := ?_, call := hinput.symm }⟩
    intro hpc hne
    cases ok with
    | true => exact Bool.or_true _
    | false =>
        -- nothing has come in
        have hq : q = t.queue := by
          rcases t.queue.send_cases e.input with ⟨hok, -⟩ | ⟨-, hsame, -⟩
          · rw [hsend] at hok
            cases hok
          · rwa [hsend] at hsame
        subst hq
        rw [Bool.or_false]
        exact hb.awake hpc hne

/-- **The consumer's access.** -/
theorem BellMatches.consumer (hn : n.toNat ≤ 65537) (h : BellMatches n cap s t)
    (hs : s.step n .consumer = some s') (hfit : ∀ f ∈ s'.link.accepted, f.length ≤ cap) :
    ∃ t', (doorbell n buf).Shows Doorbell.shows t (s.shows n .consumer) t' ∧
      BellMatches n cap s' t' := by
  obtain ⟨R, part, p, hb⟩ := h
  obtain ⟨hpc, ⟨out, op, res⟩, th, m, hst, rfl⟩ := Wakeup.step_consumer hs
  obtain ⟨R', p', q', hacc, hlink, hport⟩ := hb.link.consumer_queue hn hb.port hst
  obtain ⟨k, hrun, -, hset⟩ := Thread.step_eq_some _ hst
  have hin : out.length = cap := hb.input _ _ hrun
  have hnext : ∀ out' rest, th = .running out' rest → out'.length = cap := by
    rintro out' rest rfl
    rw [Thread.settle_running (congrArg Prod.fst hset).symm, hin]
  have htpc : t.pc = .reading ∨ t.pc = .waiting := by
    rcases hb.pc with heq | ⟨-, hwait⟩
    · exact .inl (heq.symm.trans hpc)
    · exact .inr hwait
  have hshow : s.shows n .consumer = tookBack res := by simp [Wakeup.shows, hst]
  rw [hshow]
  dsimp only at hacc
  cases hacc with
  | load =>
      refine ⟨t, .refl t, R', part, _, hlink, hport, hb.buf, hnext, ?_, nofun, hb.awake, hb.call⟩
      rcases htpc with hread | hwait
      · exact .inl hread.symm
      · exact .inr ⟨rfl, hwait⟩
  | empty hempty =>
      have hawake : ∀ ev : Bool, t.queue.items ≠ [] → ev = true := fun _ hne => absurd hempty hne
      rcases htpc with hread | hwait
      · have hrecv : t.queue.recv t.buf = ((none, t.buf), t.queue) := by
          rcases t.queue.recv_cases t.buf with ⟨-, hrecv⟩ | ⟨f, q₁, hitems, -⟩
          · exact hrecv
          · rw [hitems] at hempty
            cases hempty
        exact ⟨_, doorbell_read hread hrecv, R', part, _, hlink, hport, hb.buf, hnext,
          .inr ⟨rfl, rfl⟩, fun _ _ _ => rfl, fun _ => hawake _, hb.call⟩
      · exact ⟨t, .refl t, R', part, _, hlink, hport, hb.buf, hnext, .inr ⟨rfl, hwait⟩,
          fun _ _ _ => hwait, hb.awake, hb.call⟩
  | back =>
      -- the consumer is to wait now, as that of the doorbell does already
      have hwait : t.pc = .waiting := hb.answered _ _ rfl
      exact ⟨t, .refl t, R', part, _, hlink, hport, ⟨hin, hb.buf.2⟩, hnext, .inl hwait.symm, nofun,
        hb.awake, hb.call⟩
  | release f q' hitems hrecv =>
      have hf : f.length ≤ cap := by
        refine hfit f ?_
        show f ∈ s.link.accepted
        rw [hb.link.accepted, hitems]
        simp
      have hback : tookBack (some (received f out)) = tookBack (some (received f t.buf)) := by
        rw [tookBack_received (by omega), tookBack_received (by rw [hb.buf.2]; exact hf)]
      have hread : ∀ t₁ : Doorbell n, t₁.queue = t.queue → t₁.buf = t.buf → t₁.pc = .reading →
          ∃ t', (doorbell n buf).Shows Doorbell.shows t₁ (tookBack (some (received f out))) t' ∧
            t'.queue.items = q'.items ∧ t'.buf.length = cap ∧ t'.pc = .processing ∧
            t'.call = t₁.call := by
        intro t₁ hq hbuf hpc₁
        rcases t₁.queue.recv_cases t₁.buf with ⟨hnil, -⟩ | ⟨f₁, q₁, hitems₁, hrecv₁⟩
        · rw [hq, hitems] at hnil
          cases hnil
        · rw [hq, hitems] at hitems₁
          obtain ⟨rfl, hrest⟩ := List.cons.inj hitems₁
          have hfb : f.length ≤ t₁.buf.length := by
            rw [hbuf, hb.buf.2]
            exact hf
          rw [hback, ← hbuf]
          exact ⟨_, doorbell_read hpc₁ hrecv₁, hrest.symm,
            by rw [received_length hfb, hbuf, hb.buf.2], after_received hfb,
            rfl⟩
      have hdone : ∃ t', (doorbell n buf).Shows Doorbell.shows t
          (tookBack (some (received f out))) t' ∧
            t'.queue.items = q'.items ∧ t'.buf.length = cap ∧ t'.pc = .processing ∧
            t'.call = t.call := by
        rcases htpc with hr | hwait
        · exact hread t rfl rfl hr
        · -- the consumer of the doorbell is woken only now
          have hev : t.event = true := hb.awake hwait (by rw [hitems]; simp)
          obtain ⟨t', hshows, hend⟩ := hread { t with event := false, pc := .reading } rfl rfl rfl
          exact ⟨t', (doorbell_wait hwait hev).trans hshows, hend⟩
      obtain ⟨t', hshows, hq, hbuf, hpc', hcall⟩ := hdone
      refine ⟨t', hshows, R', part, _, by rwa [hq], hport, ⟨?_, hbuf⟩, hnext, ?_, nofun, ?_,
        hcall.trans hb.call⟩
      · show (received f out).2.length = cap
        rw [received_length (by omega), hin]
      · rw [hpc']
        exact .inl (after_received (by omega))
      · intro hwait
        rw [hpc'] at hwait
        cases hwait

/-- The consumer begins to read. -/
theorem BellInv.read (h : BellInv n cap s t R part p) {l : Link}
    (hl : s.link.step n (.read s.buf) = some l) (t' : Doorbell n) (hq : t'.queue = t.queue)
    (hbuf : t'.buf = t.buf) (hcall : t'.call = t.call) (ev : Bool)
    (hpc : t'.pc = .reading ∨ t'.pc = .waiting)
    (hawake : t'.pc = .waiting → t'.queue.items ≠ [] → t'.event = true) :
    BellMatches n cap { s with link := l, event := ev, pc := .reading } t' := by
  have hlink := h.link.read hl
  obtain ⟨th, hst, rfl⟩ := Option.map_eq_some_iff.mp hl
  obtain ⟨-, rfl⟩ := Thread.start_eq_some hst
  refine ⟨R, part, .called (.read s.buf), by rwa [hq], .start s.buf,
    ⟨h.buf.1, by rw [hbuf, h.buf.2]⟩, ?_, ?_, nofun, hawake, hcall.trans h.call⟩
  · intro out rest hrun
    rw [Thread.settle_running hrun]
    exact h.buf.1
  · rcases hpc with hread | hwait
    · exact .inl hread.symm
    · exact .inr ⟨rfl, hwait⟩

theorem bell_simulates (hn : n.toNat ≤ 65537) (ring : Ring) (buf : List UInt8) :
    Simulates (wakeup n ring buf) (Wakeup.shows n) (doorbell n buf) Doorbell.shows
      (Wakeup.Fits buf.length) (BellMatches n buf.length) where
  init := bellMatches_init n ring buf
  back s a s' hs hp := by
    obtain ⟨hpre, hle⟩ := Wakeup.step_mono hs
    exact ⟨fun f hf => hp.1 f (hpre.subset hf), hle.trans_lt hp.2⟩
  step s a s' t hs hp h := by
    cases a with
    | send packet => exact h.send hs
    | producer => exact h.producer hs hp.2
    | consumer => exact h.consumer hn hs hp.1
    | trigger =>
        obtain ⟨-, rfl⟩ := Wakeup.step_trigger (n := n) hs
        obtain ⟨R, part, p, hb⟩ := h
        exact ⟨t, .refl t, R, part, p, { hb with }⟩
    | wait =>
        obtain ⟨hpc, -, l, hl, rfl⟩ := Wakeup.step_wait hs
        obtain ⟨R, part, p, hb⟩ := h
        have hwait : t.pc = .waiting := by
          rcases hb.pc with heq | ⟨-, hwait⟩
          · exact heq.symm.trans hpc
          · exact hwait
        exact ⟨t, .refl t, hb.read hl t rfl rfl rfl false (.inr hwait) hb.awake⟩
    | processed =>
        obtain ⟨hpc, l, hl, rfl⟩ := Wakeup.step_processed hs
        obtain ⟨R, part, p, hb⟩ := h
        have hproc : t.pc = .processing := by
          rcases hb.pc with heq | ⟨hread, -⟩
          · exact heq.symm.trans hpc
          · rw [hpc] at hread
            cases hread
        exact ⟨_, doorbell_processed hproc,
          hb.read hl { t with pc := .reading } rfl rfl rfl s.event (.inl rfl) (by simp)⟩

/-- The consumer waits for an event that is not to come. -/
structure Wakeup.Asleep (s : Wakeup) : Prop where
  pc : s.pc = .waiting
  event : s.event = false
  triggered : s.untriggered = false

/-- Then the doorbell waits too, and holds nothing. -/
theorem BellMatches.asleep (hn : n.toNat ≤ 65537) {ring : Ring} {buf : List UInt8}
    (h : BellMatches n buf.length s t) (hr : (wakeup n ring buf).Reachable s)
    (hfit : s.Fits buf.length) (hs : s.Asleep) : t.pc = .waiting ∧ t.queue.items = [] := by
  obtain ⟨R, part, p, hb⟩ := h
  constructor
  · rcases hb.pc with heq | ⟨hread, -⟩
    · exact heq.symm.trans hs.pc
    · rw [hs.pc] at hread
      cases hread
  · obtain ⟨R', q, part', hi⟩ := wakeInv_of_reachable hn hr hfit.1 hfit.2
    obtain rfl := hi.waiting hs.pc hs.event hs.triggered
    have hacc := hi.link.accepted
    rw [hb.link.accepted] at hacc
    exact List.append_cancel_left hacc

/-- **A ring with its event is a doorbell.**  In either direction, and with a buffer that every
accepted frame fits: whatever packets are sent and frames are taken, a queue whose bell rings with
the frame can take and give in the same order, with the same answers.  At each moment it holds the
frames that were accepted and not taken, and it holds none where the consumer waits for an event
that is not to come. -/
theorem ring_is_doorbell (ring : Ring) (buf : List UInt8) (as : List WakeAct) (s : Wakeup)
    (hrun : (wakeup bufSize ring buf).run as = some s)
    (hfit : ∀ f ∈ s.link.accepted, f.length ≤ buf.length) (hw : s.link.written < 2 ^ 32) :
    ∃ bs t, (doorbell bufSize buf).run bs = some t ∧
      (doorbell bufSize buf).shown Doorbell.shows (doorbell bufSize buf).init bs =
        (wakeup bufSize ring buf).shown (Wakeup.shows bufSize) (wakeup bufSize ring buf).init as ∧
      s.link.accepted = s.link.consumed.map Taken.payload ++ t.queue.items ∧
      (s.Asleep → t.pc = .waiting ∧ t.queue.items = []) := by
  have hshows := Machine.shows_of_runFrom (Wakeup.shows bufSize) hrun
  obtain ⟨t, ht, hmatch⟩ := (bell_simulates (by decide) ring buf).shows hshows ⟨hfit, hw⟩
    (bellMatches_init bufSize ring buf)
  obtain ⟨bs, hbs, hshown⟩ := ht.exists_run
  refine ⟨bs, t, hbs, hshown, ?_, hmatch.asleep (by decide) ⟨as, hrun⟩ ⟨hfit, hw⟩⟩
  obtain ⟨R, part, p, hb⟩ := hmatch
  exact hb.link.accepted

/-- A frame that is taken before its trigger, which then wakes the consumer for nothing. -/
def lateTrigger : List WakeAct :=
  [[.send []], List.replicate 5 .producer, [.trigger, .wait, .send [7]],
    List.replicate 6 .producer, List.replicate 5 .consumer, [.processed],
    List.replicate 6 .consumer, [.processed, .consumer, .consumer, .trigger, .wait, .consumer,
      .consumer]].flatten

theorem ring_is_doorbell_late :
    ∃ s, (wakeup bufSize ⟨5, 9, fun _ => 0⟩ [0, 0]).run lateTrigger = some s ∧
      ∃ bs t, (doorbell bufSize [0, 0]).run bs = some t ∧ t.queue.items = [] ∧
        (doorbell bufSize [0, 0]).shown Doorbell.shows (doorbell bufSize [0, 0]).init bs =
          [.calls [], .sent [] true, .calls [7], .sent [7] true, .took [], .done, .took [7],
            .done] := by
  obtain ⟨s, hs, hpc, hev, htr, hw, hacc⟩ :=
    (wakeup bufSize ⟨5, 9, fun _ => 0⟩ [0, 0]).exists_of_run lateTrigger
      (fun s => s.pc = .waiting ∧ s.event = false ∧ s.untriggered = false ∧
        s.link.written = 5 ∧ s.link.accepted = [[], [7]]) (by decide +kernel)
  obtain ⟨bs, t, hbs, hshown, -, hrest⟩ := ring_is_doorbell _ _ _ s hs (by rw [hacc]; decide)
    (by rw [hw]; decide)
  refine ⟨s, hs, bs, t, hbs, (hrest ⟨hpc, hev, htr⟩).2, ?_⟩
  rw [hshown]
  decide +kernel

end NrfHciUsb
