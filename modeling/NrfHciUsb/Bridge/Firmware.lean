import NrfHciUsb.Bridge.Outcome
import NrfHciUsb.Bridge.Transport

/-!
# Bridge — Firmware

Both cores at once.  The way of the commands and that of the events meet in `ipc_rx_loop`: it takes
a frame from the A→N ring, runs its body on it, and what the dispatcher answers goes to the N→A
ring, as do the packets of `sdc_event_loop`.

* `Firmware.rxRead_cases` and its like: what each action does.
* `Firmware.step_down`, `Firmware.step_up`: each of the two paths goes on as it does on its own, so
  that what is known of their runs holds here (`Joined`).
-/

namespace NrfHciUsb
open Support

/-! ### The system -/

/-- `ipc_rx_loop`: in `event.wait()`, about to read the ring, or ended by a panic of either loop of
the net core. -/
inductive RxPc where
  | waiting
  | reading
  | panicked
  deriving DecidableEq, Repr

/-- The two paths, the A→N ring's event, the receive loop and the controller.  Since the start,
`aclSent` lists the ACL data the A→N ring took, `puts` those given to `hci_data_put`, `replies` the
frames the dispatcher handed to `notify_app` and `got` the packets whose `write_ep` succeeded, each
behind its indicator; `failed` counts the other writes. -/
structure Firmware (σ : Type) where
  down : CommandPath
  up : EventPath
  event : Bool
  rx : RxPc
  sdc : σ
  aclSent : List (List UInt8)
  puts : List (List UInt8)
  replies : List (List UInt8)
  got : List (List UInt8)
  failed : ℕ

/-- A step of `ipc_recv_task` or `usb_write_task` that waits for no host. -/
inductive UpTask where
  | recvWait
  | recvRead
  | recvSend
  | receive
  | writeEp
  deriving DecidableEq, Repr

def UpTask.act : UpTask → EventAct
  | .recvWait => .recvWait
  | .recvRead => .recvRead
  | .recvSend => .recvSend
  | .receive => .receive
  | .writeEp => .writeEp

/-- The next thing to happen: a control request, a packet on the bulk endpoint, a step of
`cmd_task` or of `ipc_rx_loop`, an answer of `hci_get`, after which the controller is in the state
`sdc`, a step of the other two tasks, or the host configures the device or ends a `write_ep`, by
taking the packet or by going away. -/
inductive FirmwareAct (abi : SdcAbi) (σ : Type) where
  | controlOut (req : Request) (data : List UInt8)
  | aclOut (data : List UInt8)
  | cmdReceive
  | cmdSend
  | rxWait
  | rxRead
  | hciGet (got : HciGot abi) (sdc : σ)
  | up (t : UpTask)
  | enabled
  | writeDone (ok : Bool)

variable {abi : SdcAbi} {σ : Type}

/-- A step of the firmware's own. -/
def FirmwareAct.IsTask : FirmwareAct abi σ → Prop
  | .controlOut _ _ | .aclOut _ | .hciGet _ _ | .enabled | .writeDone _ => False
  | .cmdReceive | .cmdSend | .rxWait | .rxRead | .up _ => True

/-- The host lets packets come in. -/
def FirmwareAct.IsHostIn : FirmwareAct abi σ → Prop
  | .enabled | .writeDone _ => True
  | .controlOut _ _ | .aclOut _ | .hciGet _ _ | .cmdReceive | .cmdSend | .rxWait | .rxRead
  | .up _ => False

/-- What `hci_get` answers satisfies `P`. -/
def FirmwareAct.Gets (P : HciGot abi → Prop) : FirmwareAct abi σ → Prop
  | .hciGet got _ => P got
  | .controlOut _ _ | .aclOut _ | .cmdReceive | .cmdSend | .rxWait | .rxRead | .up _ | .enabled
  | .writeDone _ => True

instance {P : HciGot abi → Prop} [DecidablePred P] :
    DecidablePred (FirmwareAct.Gets P : FirmwareAct abi σ → Prop)
  | .hciGet got _ => inferInstanceAs (Decidable (P got))
  | .controlOut _ _ | .aclOut _ | .cmdReceive | .cmdSend | .rxWait | .rxRead | .up _ | .enabled
  | .writeDone _ => isTrue trivial

theorem FirmwareAct.gets_of_inside {P : HciGot abi → Prop} {a : FirmwareAct abi σ}
    (ha : a.IsTask ∨ a.IsHostIn) : a.Gets P := by
  cases a with
  | hciGet got sdc => exact (ha.elim id id).elim
  | controlOut _ _ | aclOut _ | cmdReceive | cmdSend | rxWait | rxRead | up _ | enabled
  | writeDone _ => trivial

/-- Packets for `notify_app`, one after the other. -/
def EventPath.notifyAll (s : EventPath) (pkts : List (List UInt8)) : EventPath :=
  pkts.foldl (fun s pkt => s.notifyApp pkt pkt) s

/-- The loop after a read of the A→N ring: `down` is what the read leaves of the path. -/
def Firmware.afterRead (env : NetEnv abi σ) (s : Firmware σ)
    (down : CommandPath) : Option ℕ × List UInt8 → Firmware σ
  | (none, _) => { s with down := down, rx := .waiting }
  | (some n, buf) =>
      let o := NetM.outcome env (rxFrame buf n) s.sdc
      { s with
        down := down
        up := s.up.notifyAll o.notified
        rx := if o.panicked then .panicked else .reading
        sdc := o.sdc
        puts := s.puts ++ o.puts
        replies := s.replies ++ o.notified }

def Firmware.step (env : NetEnv abi σ) (s : Firmware σ) :
    FirmwareAct abi σ → Option (Firmware σ)
  | .controlOut req data => some { s with down := s.down.controlStage req data }
  | .aclOut data =>
      -- a read of the endpoint returns one USB packet
      if data.length ≤ usbPacketSize then
        let ok := (s.down.ring.send (aclPkt data)).1
        (s.down.step (.aclOut data)).map fun down =>
          { s with
            down := down
            event := s.event || ok
            aclSent := if ok then s.aclSent ++ [data] else s.aclSent }
      else none
  | .cmdReceive => (s.down.step .cmdReceive).map fun down => { s with down := down }
  | .cmdSend =>
      match s.down.hand with
      | some cmd =>
          let ok := (s.down.ring.send (cmdPkt cmd)).1
          (s.down.step .cmdSend).map fun down =>
            { s with down := down, event := s.event || ok }
      | none => none
  | .rxWait =>
      match s.rx with
      | .waiting => if s.event then some { s with event := false, rx := .reading } else none
      | _ => none
  | .rxRead =>
      match s.rx with
      | .reading =>
          (s.down.step .netRead).map fun down =>
            s.afterRead env down (s.down.ring.recv s.down.rxBuf).1
      | _ => none
  | .hciGet got sdc =>
      match s.rx with
      | .panicked => none
      | .waiting | .reading =>
          let o := NetM.outcome env got.handle s.sdc
          some { s with
            up := s.up.notifyAll o.notified
            rx := if o.panicked then .panicked else s.rx
            sdc := sdc }
  | .up t => (s.up.step abi t.act).map fun up => { s with up := up }
  | .enabled => (s.up.step abi .enabled).map fun up => { s with up := up }
  | .writeDone ok =>
      (s.up.step abi (.writeDone ok)).map fun up =>
        { s with
          up := up
          got := gotAfter ok s.up.written s.got
          failed := failedAfter ok s.failed }

/-- From `ipc_init` on, with the controller in the state `sdc`. -/
def firmware (env : NetEnv abi σ) (sdc : σ) :
    Machine (Firmware σ) (FirmwareAct abi σ) where
  init := ⟨(commandPath abi.hciMsgBufferMaxSize).init, (eventPath abi).init, false, .waiting, sdc,
    [], [], [], [], 0⟩
  step := Firmware.step env

/-! ### The tasks on the way up -/

/-- What a task does to the path, whose packets are in their places. -/
def UpTask.Did (s s' : EventPath) : UpTask → Prop
  | .recvWait =>
      s.recv = .waiting ∧ s.event = true ∧ s' = { s with event := false, recv := .reading }
  | .recvRead => s.recv = .reading ∧
      (s.ring.items = [] ∧ s' = { s with recv := .waiting } ∨
        ∃ pkt ring buf, s.ring.items = pkt.frame :: ring.items ∧
          s' = { s with ring := ring, recvBuf := buf, recv := .sending pkt })
  | .recvSend => ∃ pkt channel, s.recv = .sending pkt ∧ channel.items = s.channel.items ++ [pkt] ∧
      s' = { s with channel := channel, recv := .reading }
  | .receive => ∃ pkt channel, s.writer = .receiving ∧ s.channel.items = pkt :: channel.items ∧
      s' = { s with channel := channel, writer := .holding pkt }
  | .writeEp => ∃ pkt, s.writer = .holding pkt ∧
      s' = { s with writer := .writing, written := s.written ++ [pkt.frame] }

theorem EventInv.did {s s' : EventPath} (h : EventInv s) {t : UpTask}
    (hs : s.step abi t.act = some s') : t.Did s s' := by
  cases t with
  | recvWait =>
      rw [UpTask.act, EventPath.step] at hs
      cases hrecv : s.recv with
      | reading | sending pkt => rw [hrecv] at hs; cases hs
      | waiting =>
          rw [hrecv] at hs
          obtain ⟨hevent, hs⟩ := Option.ite_none_right_eq_some.mp hs
          cases hs
          exact ⟨hrecv, hevent, rfl⟩
  | recvRead =>
      rw [UpTask.act, EventPath.step] at hs
      cases hrecv : s.recv with
      | waiting | sending pkt => rw [hrecv] at hs; cases hs
      | reading =>
          rw [hrecv] at hs
          refine ⟨hrecv, ?_⟩
          rcases s.ring.recv_cases s.recvBuf with ⟨hnil, hrec⟩ | ⟨f, ring, hitems, hrec⟩
          · simp only [hrec, Option.some.injEq] at hs
            exact .inl ⟨hnil, hs.symm⟩
          · have hf : Forwardable f := h.forwardable f (by
              rw [h.order, EventPath.places, hitems]
              simp)
            obtain ⟨indicator, p, hfp, -, hp⟩ := id hf
            have hflen : f.length = 1 + p.length := by rw [hfp, List.length_cons, Nat.add_comm]
            have hbuf := h.recvBuf
            have hreceived : received f s.recvBuf =
                (some f.length, f ++ s.recvBuf.drop f.length) := if_pos (by omega)
            simp only [hrec, hreceived, Option.some.injEq] at hs
            rw [HciPacket.ofRead, if_pos (by omega)] at hs
            refine .inr ⟨_, ring, _, ?_, hs.symm⟩
            rw [hitems, hf.ofBuf]
  | recvSend =>
      rw [UpTask.act, EventPath.step] at hs
      cases hrecv : s.recv with
      | waiting | reading => rw [hrecv] at hs; cases hs
      | sending pkt =>
          rw [hrecv] at hs
          obtain ⟨channel, hpush, rfl⟩ := Option.map_eq_some_iff.mp hs
          exact ⟨pkt, channel, hrecv, (Fifo.push?_eq_some_iff.mp hpush).2, rfl⟩
  | receive =>
      obtain ⟨⟨writer, channel⟩, hreceive, rfl⟩ := Option.map_eq_some_iff.mp hs
      obtain ⟨hw, pkt, hpop, rfl⟩ := WriterPc.receive_eq_some_iff.mp hreceive
      exact ⟨pkt, channel, hw, Fifo.pop?_eq_some_iff.mp hpop, rfl⟩
  | writeEp =>
      obtain ⟨⟨writer, given⟩, hgiven, rfl⟩ := Option.map_eq_some_iff.mp hs
      obtain ⟨pkt, hw, ⟨-, rfl, rfl⟩ | ⟨hnot, -, -⟩⟩ := WriterPc.writeEp_cases hgiven
      · exact ⟨pkt, hw, rfl⟩
      · exact absurd (h.holding_known hw) hnot

theorem EventPath.enabled_eq {s s' : EventPath} (hs : s.step abi .enabled = some s') :
    s.writer = .disabled ∧ s' = { s with writer := .receiving } := by
  obtain ⟨writer, henabled, rfl⟩ := Option.map_eq_some_iff.mp hs
  obtain ⟨hw, rfl⟩ := WriterPc.enabled_eq_some_iff.mp henabled
  exact ⟨hw, rfl⟩

theorem EventPath.writeDone_eq {s s' : EventPath} {ok : Bool}
    (hs : s.step abi (.writeDone ok) = some s') :
    s.writer = .writing ∧ s' = { s with writer := if ok then .receiving else .disabled } := by
  obtain ⟨writer, hdone, rfl⟩ := Option.map_eq_some_iff.mp hs
  obtain ⟨hw, rfl⟩ := WriterPc.writeDone_eq_some_iff.mp hdone
  exact ⟨hw, rfl⟩

/-- A frame handed to `notify_app` goes behind those in the ring, and wakes the app core, or there
is no room for it. -/
theorem EventPath.notifyApp_cases (s : EventPath) (f : List UInt8) :
    (∃ ring : FrameQueue bufSize, ring.items = s.ring.items ++ [f] ∧ s.notifyApp f f =
      { s with ring := ring, event := true, sent := s.sent ++ [f] }) ∨ s.notifyApp f f = s := by
  rw [EventPath.notifyApp]
  rcases s.ring.send_cases f with ⟨hok, hitems⟩ | ⟨hok, -⟩
  · simp only [hok, if_true]
    exact .inl ⟨_, hitems, rfl⟩
  · simp only [hok]
    exact .inr rfl

theorem EventInv.notifyAll {s : EventPath} (h : EventInv s) {pkts : List (List UInt8)}
    (hf : ∀ f ∈ pkts, Forwardable f) : EventInv (s.notifyAll pkts) := by
  induction pkts generalizing s with
  | nil => exact h
  | cons f pkts ih =>
      obtain ⟨hfirst, hrest⟩ := List.forall_mem_cons.mp hf
      exact ih (h.notifyApp hfirst) hrest

/-! ### One step -/

/-- What none of the reads of the A→N ring touches. -/
structure Firmware.SameHost (s s' : Firmware σ) : Prop where
  event : s'.event = s.event
  aclSent : s'.aclSent = s.aclSent
  got : s'.got = s.got
  failed : s'.failed = s.failed
  channel : s'.down.channel = s.down.channel
  hand : s'.down.hand = s.down.hand

/-- A read that gets the frame `f`. -/
structure Firmware.Took (s s' : Firmware σ) (f : List UInt8) : Prop where
  ring : s.down.ring.items = f :: s'.down.ring.items
  dispatched : s'.down.dispatched = s.down.dispatched ++ (commandOf f).toList
  puts : s'.puts = s.puts ++ (aclOf f).toList
  awake : s'.rx ≠ .waiting
  panics : s'.rx = .panicked → Panics f
  answered : ∃ pkts, AnsweredBy f pkts ∧ s'.replies = s.replies ++ pkts ∧
    s'.up = s.up.notifyAll pkts

/-- A read that gets none: the ring is empty, or its first frame does not fit. -/
structure Firmware.TookNone (s s' : Firmware σ) : Prop where
  ring : s.down.ring.items = [] ∧ s'.down.ring.items = [] ∨
    ∃ f, s.down.ring.items = f :: s'.down.ring.items ∧ s.down.rxBuf.length < f.length
  dispatched : s'.down.dispatched = s.down.dispatched
  puts : s'.puts = s.puts
  waiting : s'.rx = .waiting
  replies : s'.replies = s.replies
  up : s'.up = s.up

variable {env : NetEnv abi σ} {s s' : Firmware σ}

/-- A control request takes a command in, finds the channel full, or carries no command. -/
theorem Firmware.controlOut_cases {req : Request} {data : List UInt8}
    (hs : s.step env (.controlOut req data) = some s') :
    (req.IsHciCommand ∧ data.length ≤ controlBufLen ∧
      ((∃ channel : Channel HciCmdBuf, channel.items = s.down.channel.items ++ [.ofData data] ∧
        s' = { s with down := { s.down with
          channel := channel
          accepted := s.down.accepted ++ [(HciCmdBuf.ofData data).bytes] } }) ∨
      (s.down.channel.items.length = channelDepth ∧
        s' = { s with down := { s.down with
          accepted := s.down.accepted ++ [(HciCmdBuf.ofData data).bytes]
          dropped := s.down.dropped ++ [.channelFull (HciCmdBuf.ofData data).bytes] } }))) ∨
    ¬ (req.IsHciCommand ∧ data.length ≤ controlBufLen) ∧ s' = s := by
  cases hs
  by_cases hlen : data.length ≤ controlBufLen
  · rw [CommandPath.controlStage, takeTransfer, if_pos hlen]
    obtain ⟨hreq, ⟨channel, hpush, heq⟩ | ⟨hfull, heq⟩⟩ | ⟨hnot, heq⟩ :=
      takeRequest_cases req data s.down.channel
    · exact .inl ⟨hreq, hlen, .inl ⟨channel, (Fifo.push?_eq_some_iff.mp hpush).2,
        by simp [CommandPath.take, heq]⟩⟩
    · exact .inl ⟨hreq, hlen, .inr ⟨hfull, by simp [CommandPath.take, heq]⟩⟩
    · exact .inr ⟨fun h => hnot h.1, by simp [CommandPath.take, heq]⟩
  · rw [s.down.controlStage_rejected req hlen]
    exact .inr ⟨fun h => hlen h.2, rfl⟩

theorem Firmware.aclOut_cases {data : List UInt8}
    (hs : s.step env (.aclOut data) = some s') : data.length ≤ usbPacketSize ∧
      ((∃ ring : FrameQueue bufSize, ring.items = s.down.ring.items ++ [aclPkt data] ∧
        s' = { s with
          down := { s.down with ring := ring }
          event := true
          aclSent := s.aclSent ++ [data] }) ∨ s' = s) := by
  obtain ⟨hlen, hs⟩ := Option.ite_none_right_eq_some.mp hs
  obtain ⟨down, hdown, rfl⟩ := Option.map_eq_some_iff.mp hs
  obtain ⟨-, hdown⟩ := Option.ite_none_right_eq_some.mp hdown
  cases hdown
  refine ⟨hlen, ?_⟩
  rcases s.down.ring.send_cases (aclPkt data) with ⟨hok, hitems⟩ | ⟨hok, hsame, -⟩
  · exact .inl ⟨_, hitems, by simp [hok]⟩
  · exact .inr (by simp [hok, hsame])

theorem Firmware.cmdReceive_cases (hs : s.step env .cmdReceive = some s') :
    ∃ (cmd : HciCmdBuf) (channel : Channel HciCmdBuf), s.down.hand = none ∧
      s.down.channel.items = cmd :: channel.items ∧
      s' = { s with down := { s.down with channel := channel, hand := some cmd } } := by
  obtain ⟨down, hdown, rfl⟩ := Option.map_eq_some_iff.mp hs
  obtain ⟨⟨cmd, channel⟩, htake, rfl⟩ := Option.map_eq_some_iff.mp hdown
  obtain ⟨hhand, hpop⟩ := takeCommand_eq_some_iff.mp htake
  exact ⟨cmd, channel, hhand, Fifo.pop?_eq_some_iff.mp hpop, rfl⟩

theorem Firmware.cmdSend_cases (hs : s.step env .cmdSend = some s') :
    ∃ cmd, s.down.hand = some cmd ∧
      ((∃ ring : FrameQueue bufSize, ring.items = s.down.ring.items ++ [cmdPkt cmd] ∧
        s' = { s with
          down := { s.down with hand := none, ring := ring }
          event := true }) ∨
      s' = { s with down := { s.down with
        hand := none
        dropped := s.down.dropped ++ [.ringFull cmd.bytes] } }) := by
  rw [Firmware.step] at hs
  cases hhand : s.down.hand with
  | none => rw [hhand] at hs; cases hs
  | some cmd =>
      rw [hhand] at hs
      obtain ⟨down, hdown, rfl⟩ := Option.map_eq_some_iff.mp hs
      rw [CommandPath.step, hhand] at hdown
      cases hdown
      refine ⟨cmd, rfl, ?_⟩
      rcases s.down.ring.send_cases (cmdPkt cmd) with ⟨hok, hitems⟩ | ⟨hok, hsame, -⟩
      · exact .inl ⟨_, hitems, by simp [hok]⟩
      · exact .inr (by simp [hok, hsame])

theorem Firmware.rxWait_eq (hs : s.step env .rxWait = some s') :
    s.rx = .waiting ∧ s.event = true ∧ s' = { s with event := false, rx := .reading } := by
  rw [Firmware.step] at hs
  cases hrx : s.rx with
  | reading | panicked => rw [hrx] at hs; cases hs
  | waiting =>
      rw [hrx] at hs
      obtain ⟨hevent, hs⟩ := Option.ite_none_right_eq_some.mp hs
      cases hs
      exact ⟨rfl, hevent, rfl⟩

/-- An answer of `hci_get` is handed to `notify_app`, or it is not forwarded, or it ends the net
core. -/
theorem Firmware.hciGet_cases {got : HciGot abi} {sdc : σ}
    (hs : s.step env (.hciGet got sdc) = some s') : s.rx ≠ .panicked ∧
      ((∃ f, got.fits = true ∧ got.frame = some f ∧
          s' = { s with up := s.up.notifyApp f f, sdc := sdc }) ∨
        got.fits = true ∧ s' = { s with sdc := sdc } ∨
        got.fits = false ∧ s' = { s with rx := .panicked, sdc := sdc }) := by
  obtain ⟨hnotified, hpanicked⟩ := handle_outcome env got s.sdc
  have hstep : s.rx ≠ .panicked ∧ s' = { s with
      up := s.up.notifyAll (NetM.outcome env got.handle s.sdc).notified
      rx := if (NetM.outcome env got.handle s.sdc).panicked then .panicked else s.rx
      sdc := sdc } := by
    rw [Firmware.step] at hs
    cases hrx : s.rx with
    | panicked => rw [hrx] at hs; cases hs
    | waiting | reading =>
        rw [hrx] at hs
        exact ⟨nofun, (Option.some.inj hs).symm⟩
  obtain ⟨hrx, rfl⟩ := hstep
  refine ⟨hrx, ?_⟩
  rw [hnotified, hpanicked]
  cases hfit : got.fits with
  | false => exact .inr (.inr ⟨rfl, rfl⟩)
  | true =>
      cases hframe : got.frame with
      | none => exact .inr (.inl ⟨rfl, rfl⟩)
      | some f => exact .inl ⟨f, rfl, rfl, rfl⟩

theorem Firmware.rxRead_cases (hs : s.step env .rxRead = some s') :
    s.rx = .reading ∧ s.down.step .netRead = some s'.down ∧ s.SameHost s' ∧
      ((∃ f, s.Took s' f) ∨ s.TookNone s') := by
  rw [Firmware.step] at hs
  cases hrx : s.rx with
  | waiting | panicked => rw [hrx] at hs; cases hs
  | reading =>
      rw [hrx] at hs
      rcases s.down.ring.recv_cases s.down.rxBuf with ⟨hnil, hrecv⟩ | ⟨f, ring, hitems, hrecv⟩
      · simp only [CommandPath.step, hrecv, Option.map_some, Option.some.injEq] at hs ⊢
        subst hs
        exact ⟨trivial, rfl, ⟨rfl, rfl, rfl, rfl, rfl, rfl⟩,
          .inr ⟨.inl ⟨hnil, hnil⟩, rfl, rfl, rfl, rfl, rfl⟩⟩
      · by_cases hfit : f.length ≤ s.down.rxBuf.length
        · -- the frame is read, and the body runs on it
          have hrec : received f s.down.rxBuf =
              (some f.length, f ++ s.down.rxBuf.drop f.length) := if_pos hfit
          simp only [CommandPath.step, hrecv, hrec, Option.map_some, Option.some.injEq] at hs ⊢
          subst hs
          obtain ⟨hputs, hans, hpanics⟩ :=
            rxFrame_outcome env f (s.down.rxBuf.drop f.length) s.sdc
          refine ⟨trivial, rfl, ⟨rfl, rfl, rfl, rfl, rfl, rfl⟩, .inl ⟨f, hitems, ?_, ?_, ?_, ?_, _,
            hans, rfl, rfl⟩⟩
          · simp [Firmware.afterRead]
          · simp [Firmware.afterRead, hputs]
          · simp only [Firmware.afterRead]
            split <;> simp
          · intro hpanic
            refine hpanics ?_
            by_contra hcalm
            simp [Firmware.afterRead, hcalm] at hpanic
        · -- the frame is discarded
          have hrec : received f s.down.rxBuf = (none, s.down.rxBuf) := if_neg hfit
          simp only [CommandPath.step, hrecv, hrec, Option.map_some, Option.some.injEq] at hs ⊢
          subst hs
          exact ⟨trivial, rfl, ⟨rfl, rfl, rfl, rfl, rfl, rfl⟩,
            .inr ⟨.inr ⟨f, hitems, Nat.lt_of_not_le hfit⟩, rfl, rfl, rfl, rfl, rfl⟩⟩

/-- What the ring took of the host's ACL data, and what the host got, change in steps of the host
only. -/
theorem Firmware.step_frame {a : FirmwareAct abi σ} (hs : s.step env a = some s') :
    (s'.aclSent = s.aclSent ∨ ∃ data, a = .aclOut data) ∧
      (s'.got = s.got ∨ a = .writeDone true) := by
  cases a with
  | controlOut req data =>
      cases hs
      exact ⟨.inl rfl, .inl rfl⟩
  | aclOut data =>
      obtain ⟨-, ⟨ring, -, rfl⟩ | rfl⟩ := Firmware.aclOut_cases hs <;>
        exact ⟨.inr ⟨data, rfl⟩, .inl rfl⟩
  | cmdSend =>
      obtain ⟨cmd, -, ⟨ring, -, rfl⟩ | rfl⟩ := Firmware.cmdSend_cases hs <;>
        exact ⟨.inl rfl, .inl rfl⟩
  | rxWait =>
      obtain ⟨-, -, rfl⟩ := Firmware.rxWait_eq hs
      exact ⟨.inl rfl, .inl rfl⟩
  | rxRead =>
      obtain ⟨-, -, hsame, -⟩ := Firmware.rxRead_cases hs
      exact ⟨.inl hsame.aclSent, .inl hsame.got⟩
  | hciGet got sdc =>
      obtain ⟨-, ⟨f, -, -, rfl⟩ | ⟨-, rfl⟩ | ⟨-, rfl⟩⟩ := Firmware.hciGet_cases hs <;>
        exact ⟨.inl rfl, .inl rfl⟩
  | cmdReceive | up t | enabled =>
      obtain ⟨x, -, rfl⟩ := Option.map_eq_some_iff.mp hs
      exact ⟨.inl rfl, .inl rfl⟩
  | writeDone ok =>
      obtain ⟨up, -, rfl⟩ := Option.map_eq_some_iff.mp hs
      cases ok with
      | true => exact ⟨.inl rfl, .inr rfl⟩
      | false => exact ⟨.inl rfl, .inl rfl⟩

/-- **The commands** go on as on their own path. -/
theorem Firmware.step_down {a : FirmwareAct abi σ} (hs : s.step env a = some s') :
    s'.down = s.down ∨ ∃ c, s.down.step c = some s'.down := by
  cases a with
  | controlOut req data =>
      cases hs
      by_cases hlen : data.length ≤ controlBufLen
      · exact .inr ⟨_, s.down.step_controlStage req hlen⟩
      · exact .inl (s.down.controlStage_rejected req hlen)
  | aclOut data =>
      obtain ⟨-, hs⟩ := Option.ite_none_right_eq_some.mp hs
      obtain ⟨down, hdown, rfl⟩ := Option.map_eq_some_iff.mp hs
      exact .inr ⟨_, hdown⟩
  | cmdReceive =>
      obtain ⟨down, hdown, rfl⟩ := Option.map_eq_some_iff.mp hs
      exact .inr ⟨_, hdown⟩
  | cmdSend =>
      rw [Firmware.step] at hs
      split at hs
      · obtain ⟨down, hdown, rfl⟩ := Option.map_eq_some_iff.mp hs
        exact .inr ⟨_, hdown⟩
      · cases hs
  | rxWait =>
      rw [Firmware.step] at hs
      split at hs
      · obtain ⟨-, hs⟩ := Option.ite_none_right_eq_some.mp hs
        cases hs
        exact .inl rfl
      · cases hs
  | rxRead => exact .inr ⟨_, (Firmware.rxRead_cases hs).2.1⟩
  | hciGet got sdc =>
      obtain ⟨-, ⟨f, -, -, rfl⟩ | ⟨-, rfl⟩ | ⟨-, rfl⟩⟩ := Firmware.hciGet_cases hs <;>
        exact .inl rfl
  | up t | enabled | writeDone ok =>
      obtain ⟨up, -, rfl⟩ := Option.map_eq_some_iff.mp hs
      exact .inl rfl

/-- **The events** go on as on theirs, with the replies and the packets of `hci_get` among them. -/
theorem Firmware.step_up (hM : abi.hciMsgBufferMaxSize ≤ maxHciPayload) (h : EventInv s.up)
    {a : FirmwareAct abi σ} (hs : s.step env a = some s') : EventInv s'.up := by
  cases a with
  | controlOut req data =>
      cases hs
      exact h
  | cmdReceive =>
      obtain ⟨down, -, rfl⟩ := Option.map_eq_some_iff.mp hs
      exact h
  | aclOut data => obtain ⟨-, ⟨ring, -, rfl⟩ | rfl⟩ := Firmware.aclOut_cases hs <;> exact h
  | cmdSend => obtain ⟨cmd, -, ⟨ring, -, rfl⟩ | rfl⟩ := Firmware.cmdSend_cases hs <;> exact h
  | rxWait =>
      obtain ⟨-, -, rfl⟩ := Firmware.rxWait_eq hs
      exact h
  | rxRead =>
      obtain ⟨-, -, -, ⟨f, htook⟩ | hnone⟩ := Firmware.rxRead_cases hs
      · obtain ⟨pkts, hans, -, hup⟩ := htook.answered
        rw [hup]
        exact h.notifyAll hans.forwardable
      · rw [hnone.up]
        exact h
  | hciGet got sdc =>
      have hforwardable := handled_forwardable hM env got s.sdc
      rw [(handle_outcome env got s.sdc).1] at hforwardable
      obtain ⟨-, ⟨f, hfit, hframe, rfl⟩ | ⟨-, rfl⟩ | ⟨-, rfl⟩⟩ := Firmware.hciGet_cases hs
      · exact h.notifyApp (hforwardable f (by simp [hfit, hframe]))
      · exact h
      · exact h
  | up t | enabled | writeDone ok =>
      obtain ⟨up, hup, rfl⟩ := Option.map_eq_some_iff.mp hs
      exact h.step hM hup

/-- Each path is as a run of its own leaves it. -/
structure Joined (abi : SdcAbi) (s : Firmware σ) : Prop where
  down : (commandPath abi.hciMsgBufferMaxSize).Reachable s.down
  up : abi.hciMsgBufferMaxSize ≤ maxHciPayload → EventInv s.up

theorem joined_init (env : NetEnv abi σ) (sdc : σ) :
    Joined abi (firmware env sdc).init :=
  ⟨Machine.Reachable.init _, fun _ => eventInv_init abi⟩

theorem Joined.step (h : Joined abi s) {a : FirmwareAct abi σ} (hs : s.step env a = some s') :
    Joined abi s' := by
  constructor
  · rcases Firmware.step_down hs with hsame | ⟨c, hc⟩
    · rw [hsame]
      exact h.down
    · exact h.down.step hc
  · exact fun hM => Firmware.step_up hM (h.up hM) hs

theorem joined_of_reachable {sdc : σ} (h : (firmware env sdc).Reachable s) : Joined abi s :=
  h.invariant (joined_init env sdc) fun _ _ _ ih hs => ih.step hs

theorem Joined.conserved (h : Joined abi s) : Conserved abi.hciMsgBufferMaxSize s.down :=
  conserved_of_reachable h.down

end NrfHciUsb
