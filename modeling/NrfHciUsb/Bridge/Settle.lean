import NrfHciUsb.Bridge.Answers
import NrfHciUsb.Support.Progress

/-!
# Bridge — Settle

Nothing stays on the way.  Once nothing more comes in, the tasks of both cores can take only so many
steps, in whatever order they take them, and where none can take another, all queues are empty but
for packets the host does not take: no frame lies in a ring whose reader sleeps, and no task waits
for another that waits for it.

* `Firmware.work`: what is left to do, each packet weighing more the further it has to go.
* `Awake.step`: a reader that waits with its event clear has left its ring empty.
* `firmware_settles`: every run of the tasks comes to rest, and there all has got as far as the host
  lets it.
-/

namespace NrfHciUsb
open Support

variable {abi : SdcAbi} {σ : Type}

/-! ### What is left to do -/

def RecvPc.work : RecvPc → ℕ
  | .waiting => 0
  | .reading => 1
  | .sending _ => 6

def WriterPc.work : WriterPc → ℕ
  | .receiving => 0
  | .disabled => 1
  | .writing => 2
  | .holding _ => 3

def RxPc.work : RxPc → ℕ
  | .waiting | .panicked => 0
  | .reading => 1

/-- A set event makes its task run once more. -/
def eventWork (event : Bool) : ℕ := if event then 2 else 0

def EventPath.work (s : EventPath) : ℕ :=
  6 * s.ring.items.length + eventWork s.event + s.recv.work + 4 * s.channel.items.length +
    s.writer.work

/-- A frame of the A→N ring may yet be answered by one of the N→A ring. -/
def Firmware.work (s : Firmware σ) : ℕ :=
  13 * s.down.channel.items.length + 12 * s.down.hand.toList.length +
    9 * s.down.ring.items.length + eventWork s.event + s.rx.work + s.up.work

theorem eventWork_le (event : Bool) : eventWork event ≤ 2 := by
  cases event <;> decide

theorem EventPath.work_notifyApp (s : EventPath) (f : List UInt8) :
    (s.notifyApp f f).work ≤ s.work + 8 := by
  rcases s.notifyApp_cases f with ⟨ring, hring, heq⟩ | heq
  · have hevent := eventWork_le true
    rw [heq]
    simp only [EventPath.work, hring, List.length_append, List.length_singleton]
    omega
  · rw [heq]
    omega

/-- **A task** does some of the work. -/
theorem UpTask.Did.work_lt {s s' : EventPath} {t : UpTask} (h : t.Did s s') : s'.work < s.work := by
  cases t with
  | recvWait =>
      obtain ⟨hrecv, hevent, rfl⟩ := h
      simp [EventPath.work, hrecv, hevent, RecvPc.work, eventWork]
  | recvRead =>
      obtain ⟨hrecv, ⟨-, rfl⟩ | ⟨pkt, ring, buf, hring, rfl⟩⟩ := h
      · simp [EventPath.work, hrecv, RecvPc.work]
      · simp only [EventPath.work, hrecv, RecvPc.work, hring, List.length_cons]
        omega
  | recvSend =>
      obtain ⟨pkt, channel, hrecv, hitems, rfl⟩ := h
      simp only [EventPath.work, hrecv, RecvPc.work, hitems, List.length_append,
        List.length_singleton]
      omega
  | receive =>
      obtain ⟨pkt, channel, hw, hitems, rfl⟩ := h
      simp only [EventPath.work, hw, WriterPc.work, hitems, List.length_cons]
      omega
  | writeEp =>
      obtain ⟨pkt, hw, rfl⟩ := h
      simp [EventPath.work, hw, WriterPc.work]

variable {env : NetEnv abi σ} {s s' : Firmware σ}

/-- **Every step** of a task does, and so does the host when it lets a packet come in. -/
theorem Firmware.work_lt (hup : EventInv s.up) {a : FirmwareAct abi σ}
    (ha : a.IsTask ∨ a.IsHostIn) (hs : s.step env a = some s') : s'.work < s.work := by
  cases a with
  | controlOut _ _ | aclOut _ | hciGet _ _ => exact (ha.elim id id).elim
  | cmdReceive =>
      obtain ⟨cmd, channel, hhand, hitems, rfl⟩ := Firmware.cmdReceive_cases hs
      simp only [Firmware.work, hhand, hitems, List.length_cons, Option.toList_some,
        Option.toList_none, List.length_nil]
      omega
  | cmdSend =>
      obtain ⟨cmd, hhand, ⟨ring, hring, rfl⟩ | rfl⟩ := Firmware.cmdSend_cases hs
      · have hevent := eventWork_le true
        simp only [Firmware.work, hhand, hring, List.length_append, Option.toList_some,
          Option.toList_none, List.length_cons, List.length_nil]
        omega
      · simp [Firmware.work, hhand]
  | rxWait =>
      obtain ⟨hrx, hevent, rfl⟩ := Firmware.rxWait_eq hs
      simp [Firmware.work, hrx, hevent, RxPc.work, eventWork]
  | rxRead =>
      obtain ⟨hrx, -, hsame, hcases⟩ := Firmware.rxRead_cases hs
      have hreading : s.rx.work = 1 := by
        rw [hrx]
        rfl
      simp only [Firmware.work, hsame.event, hsame.channel, hsame.hand]
      rcases hcases with ⟨f, htook⟩ | hnone
      · have hrx' : s'.rx.work ≤ 1 := by cases s'.rx <;> simp [RxPc.work]
        have hring := congrArg List.length htook.ring
        have hwork : s'.up.work ≤ s.up.work + 8 := by
          obtain ⟨pkts, ⟨c, arm, status, ret, -, -, rfl⟩ | ⟨-, rfl⟩, -, hup'⟩ := htook.answered
          · rw [hup']
            exact s.up.work_notifyApp _
          · rw [hup']
            exact Nat.le_add_right _ _
        rw [List.length_cons] at hring
        omega
      · have hring : s'.down.ring.items.length ≤ s.down.ring.items.length := by
          rcases hnone.ring with ⟨hnil, hnil'⟩ | ⟨f, hring, -⟩
          · rw [hnil, hnil']
          · rw [hring]
            exact Nat.le_succ _
        have hrx' : s'.rx.work = 0 := by
          rw [hnone.waiting]
          rfl
        rw [hnone.up]
        omega
  | up t =>
      obtain ⟨up, hup', rfl⟩ := Option.map_eq_some_iff.mp hs
      have hlt := (hup.did hup').work_lt
      simp only [Firmware.work]
      omega
  | enabled =>
      obtain ⟨up, hup', rfl⟩ := Option.map_eq_some_iff.mp hs
      obtain ⟨hw, rfl⟩ := EventPath.enabled_eq hup'
      simp [Firmware.work, EventPath.work, hw, WriterPc.work]
  | writeDone ok =>
      obtain ⟨up, hup', rfl⟩ := Option.map_eq_some_iff.mp hs
      obtain ⟨hw, rfl⟩ := EventPath.writeDone_eq hup'
      cases ok <;> simp [Firmware.work, EventPath.work, hw, WriterPc.work]

/-! ### Nobody sleeps over a frame -/

/-- The app core's reader has left the N→A ring empty, or its event is set. -/
def EventPath.Awake (s : EventPath) : Prop :=
  s.recv = .waiting → s.event = false → s.ring.items = []

/-- The same for the net core's; and every command on its way fits its buffer. -/
structure Awake (s : Firmware σ) : Prop where
  rx : s.rx = .waiting → s.event = false → s.down.ring.items = []
  recv : s.up.Awake
  channel : ∀ cmd ∈ s.down.channel.items, cmd.len ≤ controlBufLen
  hand : ∀ cmd, s.down.hand = some cmd → cmd.len ≤ controlBufLen
  ring : ∀ f ∈ s.down.ring.items, f.length ≤ 1 + controlBufLen

theorem awake_init (env : NetEnv abi σ) (sdc : σ) :
    Awake (firmware env sdc).init where
  rx _ _ := rfl
  recv _ _ := rfl
  channel := nofun
  hand := nofun
  ring := nofun

theorem EventPath.Awake.notifyApp {s : EventPath} (h : s.Awake) (f : List UInt8) :
    (s.notifyApp f f).Awake := by
  rcases s.notifyApp_cases f with ⟨ring, -, heq⟩ | heq
  · rw [heq]
    intro _ hevent
    cases hevent
  · rw [heq]
    exact h

theorem UpTask.Did.awake {s s' : EventPath} {t : UpTask} (h : t.Did s s') (ha : s.Awake) :
    s'.Awake := by
  cases t with
  | recvWait =>
      obtain ⟨-, -, rfl⟩ := h
      nofun
  | recvRead =>
      obtain ⟨-, ⟨hnil, rfl⟩ | ⟨pkt, ring, buf, -, rfl⟩⟩ := h
      · exact fun _ _ => hnil
      · nofun
  | recvSend =>
      obtain ⟨pkt, channel, -, -, rfl⟩ := h
      nofun
  | receive =>
      obtain ⟨pkt, channel, -, -, rfl⟩ := h
      exact ha
  | writeEp =>
      obtain ⟨pkt, -, rfl⟩ := h
      exact ha

/-- A frame goes to the A→N ring, and the event is set. -/
theorem Awake.push (h : Awake s) {f : List UInt8} {ring : FrameQueue bufSize}
    (hring : ring.items = s.down.ring.items ++ [f]) (hf : f.length ≤ 1 + controlBufLen) :
    ∀ f ∈ ring.items, f.length ≤ 1 + controlBufLen := by
  rw [hring]
  intro f' hf'
  rcases List.mem_append.mp hf' with hmem | hmem
  · exact h.ring f' hmem
  · rw [List.mem_singleton.mp hmem]
    exact hf

/-- **One step** leaves no frame to a sleeping reader. -/
theorem Awake.step (hM : controlBufLen ≤ abi.hciMsgBufferMaxSize) (h : Awake s) (hj : Joined abi s)
    (hup : EventInv s.up) {a : FirmwareAct abi σ} (hs : s.step env a = some s') : Awake s' := by
  cases a with
  | controlOut req data =>
      obtain ⟨-, hlen, ⟨channel, hitems, rfl⟩ | ⟨-, rfl⟩⟩ | ⟨-, rfl⟩ := Firmware.controlOut_cases hs
      · refine ⟨h.rx, h.recv, ?_, h.hand, h.ring⟩
        dsimp only
        rw [hitems]
        intro cmd hcmd
        rcases List.mem_append.mp hcmd with hmem | hmem
        · exact h.channel cmd hmem
        · rw [List.mem_singleton.mp hmem]
          exact (Nat.min_le_left _ _).trans hlen
      · exact ⟨h.rx, h.recv, h.channel, h.hand, h.ring⟩
      · exact h
  | aclOut data =>
      obtain ⟨hlen, ⟨ring, hring, rfl⟩ | rfl⟩ := Firmware.aclOut_cases hs
      · refine ⟨nofun, h.recv, h.channel, h.hand, h.push hring ?_⟩
        have hle : usbPacketSize ≤ controlBufLen := by decide
        rw [aclPkt_eq, List.length_cons]
        omega
      · exact h
  | cmdReceive =>
      obtain ⟨cmd, channel, -, hitems, rfl⟩ := Firmware.cmdReceive_cases hs
      have hchannel := h.channel
      rw [hitems] at hchannel
      obtain ⟨hcmd, hrest⟩ := List.forall_mem_cons.mp hchannel
      refine ⟨h.rx, h.recv, hrest, ?_, h.ring⟩
      rintro cmd' ⟨⟩
      exact hcmd
  | cmdSend =>
      obtain ⟨cmd, hhand, ⟨ring, hring, rfl⟩ | rfl⟩ := Firmware.cmdSend_cases hs
      · refine ⟨nofun, h.recv, h.channel, nofun, h.push hring ?_⟩
        have hcmd := h.hand cmd hhand
        rw [cmdPkt_eq, List.length_cons, cmd.bytes_length]
        omega
      · exact ⟨h.rx, h.recv, h.channel, nofun, h.ring⟩
  | rxWait =>
      obtain ⟨-, -, rfl⟩ := Firmware.rxWait_eq hs
      exact ⟨nofun, h.recv, h.channel, h.hand, h.ring⟩
  | rxRead =>
      obtain ⟨-, -, hsame, ⟨f, htook⟩ | hnone⟩ := Firmware.rxRead_cases hs
      · have hring := h.ring
        rw [htook.ring] at hring
        refine ⟨fun hw => absurd hw htook.awake, ?_, by rw [hsame.channel]; exact h.channel,
          by rw [hsame.hand]; exact h.hand, (List.forall_mem_cons.mp hring).2⟩
        obtain ⟨pkts, ⟨c, arm, status, ret, -, -, rfl⟩ | ⟨-, rfl⟩, -, hup'⟩ := htook.answered
        · rw [hup']
          exact h.recv.notifyApp _
        · rw [hup']
          exact h.recv
      · -- the read has found the ring empty: no frame is too long for the buffer
        have hnil : s'.down.ring.items = [] := by
          rcases hnone.ring with ⟨-, hnil⟩ | ⟨f, hring, hlong⟩
          · exact hnil
          · have hf := h.ring f (by rw [hring]; simp)
            have hbuf := hj.conserved.rxBuf
            omega
        refine ⟨fun _ _ => hnil, by rw [hnone.up]; exact h.recv,
          by rw [hsame.channel]; exact h.channel, by rw [hsame.hand]; exact h.hand, ?_⟩
        rw [hnil]
        nofun
  | hciGet got sdc =>
      obtain ⟨-, ⟨f, -, -, rfl⟩ | ⟨-, rfl⟩ | ⟨-, rfl⟩⟩ := Firmware.hciGet_cases hs
      · exact ⟨h.rx, h.recv.notifyApp f, h.channel, h.hand, h.ring⟩
      · exact ⟨h.rx, h.recv, h.channel, h.hand, h.ring⟩
      · exact ⟨nofun, h.recv, h.channel, h.hand, h.ring⟩
  | up t =>
      obtain ⟨up, hup', rfl⟩ := Option.map_eq_some_iff.mp hs
      exact ⟨h.rx, (hup.did hup').awake h.recv, h.channel, h.hand, h.ring⟩
  | enabled =>
      obtain ⟨up, hup', rfl⟩ := Option.map_eq_some_iff.mp hs
      obtain ⟨-, rfl⟩ := EventPath.enabled_eq hup'
      exact ⟨h.rx, h.recv, h.channel, h.hand, h.ring⟩
  | writeDone ok =>
      obtain ⟨up, hup', rfl⟩ := Option.map_eq_some_iff.mp hs
      obtain ⟨-, rfl⟩ := EventPath.writeDone_eq hup'
      exact ⟨h.rx, h.recv, h.channel, h.hand, h.ring⟩

/-! ### At rest -/

/-- Where no task of the app core can go on, `usb_write_task` has given away what it received, and
`ipc_recv_task` waits for a frame, unless the channel is full. -/
theorem EventPath.of_atRest {s : EventPath} (ha : s.Awake)
    (hrest : ∀ t : UpTask, s.step abi t.act = none) :
    s.writer.hand = [] ∧ (s.writer = .receiving → s.channel.items = []) ∧
      (s.channel.items.length < channelDepth → s.recv = .waiting ∧ s.ring.items = []) := by
  refine ⟨?_, fun hw => ?_, fun hroom => ?_⟩
  · cases hw : s.writer with
    | disabled | receiving | writing => rfl
    | holding pkt =>
        have h := hrest .writeEp
        simp only [UpTask.act, EventPath.step, hw, WriterPc.writeEp, Option.map_eq_none_iff] at h
        split at h <;> cases h
  · have h := hrest .receive
    simp only [UpTask.act, EventPath.step, hw, WriterPc.receive, Option.map_eq_none_iff] at h
    exact Fifo.pop?_eq_none_iff.mp h
  · have hrecv : s.recv = .waiting := by
      cases hr : s.recv with
      | waiting => rfl
      | reading => simpa [UpTask.act, EventPath.step, hr] using hrest .recvRead
      | sending pkt =>
          -- there is room in the channel
          have h := hrest .recvSend
          simp only [UpTask.act, EventPath.step, hr, Option.map_eq_none_iff,
            Fifo.push?_eq_none_iff_length] at h
          omega
    have hevent : s.event = false := by
      cases he : s.event with
      | false => rfl
      | true => simpa [UpTask.act, EventPath.step, hrecv, he] using hrest .recvWait
    exact ⟨hrecv, ha hrecv hevent⟩

/-- Where the host does not hold `usb_write_task` up either, that waits for a packet. -/
theorem EventPath.receiving_of_atRest {s : EventPath} (hhand : s.writer.hand = [])
    (henabled : s.step abi .enabled = none) (hdone : s.step abi (.writeDone true) = none) :
    s.writer = .receiving := by
  cases hw : s.writer with
  | receiving => rfl
  | disabled => simp [EventPath.step, hw, WriterPc.enabled] at henabled
  | writing => simp [EventPath.step, hw, WriterPc.writeDone] at hdone
  | holding pkt => simp [hw, WriterPc.hand] at hhand

/-- Everything has been handed on as far as the host lets it.  A packet is with the host, or it
waits in the channel, and further back only behind a full channel; none waits if `usb_write_task`
does.  The commands and the ACL data are with the controller, unless the net core has panicked.  And
if besides nothing was dropped and no write failed, the host has got one reply to each command with
an arm. -/
structure Firmware.Settled (s : Firmware σ) : Prop where
  up : s.up.sent = s.up.written ++ s.up.channel.items.map HciPacket.frame ++ s.up.recv.hand ++
    s.up.ring.items
  room : s.up.channel.items.length < channelDepth → s.up.recv = .waiting ∧ s.up.ring.items = []
  written : s.up.writer = .receiving →
    s.up.written = s.up.sent ∧ s.got.length + s.failed = s.up.sent.length
  down : s.rx ≠ .panicked → s.down.dispatched = s.down.places ∧ s.puts = s.aclSent
  answered : s.up.writer = .receiving → s.rx ≠ .panicked → s.down.dropped = [] →
    s.up.sent.filterMap decodeReply = s.replies.filterMap decodeReply → s.failed = 0 →
      (s.got.filterMap decodeReply).map HciReply.opcode =
        (s.down.accepted.filter HasArm).map opcodeOf

/-- The net core panics only over a command without an opcode. -/
def Firmware.PanicsOnShort (s : Firmware σ) : Prop :=
  s.rx = .panicked → ∃ c ∈ s.down.dispatched, c.length < 2

/-- What is known of a reachable state. -/
structure Sound (abi : SdcAbi) (s : Firmware σ) : Prop where
  joined : Joined abi s
  answering : Answering s
  acl : AclInv s
  awake : Awake s
  panics : s.PanicsOnShort

theorem sound_init (env : NetEnv abi σ) (sdc : σ) :
    Sound abi (firmware env sdc).init :=
  ⟨joined_init env sdc, answering_init env sdc, aclInv_init env sdc,
    awake_init env sdc, nofun⟩

/-- The net core has panicked before, and dispatches no more, or it panics over what it reads. -/
theorem Firmware.panicked_cases {a : FirmwareAct abi σ} (hgets : a.Gets HciGot.Proper)
    (hs : s.step env a = some s') (hpanic : s'.rx = .panicked) :
    s.rx = .panicked ∧ s'.down.dispatched = s.down.dispatched ∨
      ∃ f, s.SameHost s' ∧ s.Took s' f ∧ Panics f := by
  cases a with
  | controlOut req data =>
      obtain ⟨-, -, ⟨channel, -, rfl⟩ | ⟨-, rfl⟩⟩ | ⟨-, rfl⟩ := Firmware.controlOut_cases hs <;>
        exact .inl ⟨hpanic, rfl⟩
  | aclOut data =>
      obtain ⟨-, ⟨ring, -, rfl⟩ | rfl⟩ := Firmware.aclOut_cases hs <;> exact .inl ⟨hpanic, rfl⟩
  | cmdReceive =>
      obtain ⟨cmd, channel, -, -, rfl⟩ := Firmware.cmdReceive_cases hs
      exact .inl ⟨hpanic, rfl⟩
  | cmdSend =>
      obtain ⟨cmd, -, ⟨ring, -, rfl⟩ | rfl⟩ := Firmware.cmdSend_cases hs <;>
        exact .inl ⟨hpanic, rfl⟩
  | rxWait =>
      obtain ⟨-, -, rfl⟩ := Firmware.rxWait_eq hs
      cases hpanic
  | rxRead =>
      obtain ⟨-, -, hsame, ⟨f, htook⟩ | hnone⟩ := Firmware.rxRead_cases hs
      · exact .inr ⟨f, hsame, htook, htook.panics hpanic⟩
      · rw [hnone.waiting] at hpanic
        cases hpanic
  | hciGet got sdc =>
      obtain ⟨-, ⟨f, -, -, rfl⟩ | ⟨-, rfl⟩ | ⟨hnot, -⟩⟩ := Firmware.hciGet_cases hs
      · exact .inl ⟨hpanic, rfl⟩
      · exact .inl ⟨hpanic, rfl⟩
      · rw [hgets.2] at hnot
        cases hnot
  | up t | enabled | writeDone ok =>
      obtain ⟨up, -, rfl⟩ := Option.map_eq_some_iff.mp hs
      exact .inl ⟨hpanic, rfl⟩

theorem panicsOnShort_step (h : s.PanicsOnShort) {a : FirmwareAct abi σ}
    (hgets : a.Gets HciGot.Proper) (hs : s.step env a = some s') : s'.PanicsOnShort := by
  intro hpanic
  obtain ⟨hbefore, hsame⟩ | ⟨f, -, htook, c, rfl, hshort⟩ :=
    Firmware.panicked_cases hgets hs hpanic
  · rw [hsame]
    exact h hbefore
  · refine ⟨c, ?_, hshort⟩
    rw [htook.dispatched, commandOf, if_pos rfl]
    simp

theorem FirmwareAct.Gets.noReply {a : FirmwareAct abi σ} (h : a.Gets HciGot.Proper) :
    a.Gets HciGot.NoReply := by
  cases a with
  | hciGet got sdc => exact h.1
  | controlOut _ _ | aclOut _ | cmdReceive | cmdSend | rxWait | rxRead | up _ | enabled
  | writeDone _ => trivial

theorem Sound.step (hlo : controlBufLen ≤ abi.hciMsgBufferMaxSize)
    (hhi : abi.hciMsgBufferMaxSize ≤ maxHciPayload) (h : Sound abi s) {a : FirmwareAct abi σ}
    (hgets : a.Gets HciGot.Proper) (hs : s.step env a = some s') : Sound abi s' := by
  have hup := h.joined.up hhi
  have hpacket : usbPacketSize ≤ controlBufLen := by decide
  exact ⟨h.joined.step hs, h.answering.step hup hgets.noReply hs,
    h.acl.step (hpacket.trans hlo) h.joined hs, h.awake.step hlo h.joined hup hs,
    panicsOnShort_step h.panics hgets hs⟩

theorem sound_of_reachable (hlo : controlBufLen ≤ abi.hciMsgBufferMaxSize)
    (hhi : abi.hciMsgBufferMaxSize ≤ maxHciPayload) {sdc : σ}
    (h : (firmware env sdc).ReachableBy (FirmwareAct.Gets HciGot.Proper) s) : Sound abi s :=
  h.invariant (sound_init env sdc) fun _ _ _ hgets ih hs => ih.step hlo hhi hgets hs

theorem Sound.accepted_of_panicked (h : Sound abi s) (hpanic : s.rx = .panicked) :
    ∃ c ∈ s.down.accepted, c.length < 2 := by
  obtain ⟨c, hc, hlen⟩ := h.panics hpanic
  refine ⟨c, h.joined.conserved.order.subset ?_, hlen⟩
  simp [CommandPath.places, hc]

/-- Where no task can go on, the way of the commands is empty. -/
theorem Awake.idle_of_atRest (h : Awake s) {sdc : σ}
    (hrest : (firmware env sdc).AtRest FirmwareAct.IsTask s) (hpanic : s.rx ≠ .panicked) :
    s.down.Idle := by
  have hstep : ∀ a : FirmwareAct abi σ, a.IsTask → s.step env a = none := hrest
  have hhand : s.down.hand = none := by
    cases hh : s.down.hand with
    | none => rfl
    | some cmd => simpa [Firmware.step, CommandPath.step, hh] using hstep .cmdSend trivial
  have hcmds : s.down.channel.items = [] := by
    have hrec := hstep .cmdReceive trivial
    cases hpop : s.down.channel.pop? with
    | none => exact Fifo.pop?_eq_none_iff.mp hpop
    | some x => simp [Firmware.step, CommandPath.step, hhand, hpop] at hrec
  have hrx : s.rx = .waiting := by
    cases hr : s.rx with
    | waiting => rfl
    | panicked => exact absurd hr hpanic
    | reading =>
        have hread := hstep .rxRead trivial
        simp only [Firmware.step, hr, Option.map_eq_none_iff, CommandPath.step] at hread
        split at hread <;> cases hread
  have hevent : s.event = false := by
    cases he : s.event with
    | false => rfl
    | true => simpa [Firmware.step, hrx, he] using hstep .rxWait trivial
  exact ⟨hcmds, hhand, h.rx hrx hevent⟩

theorem Sound.settled (hhi : abi.hciMsgBufferMaxSize ≤ maxHciPayload) (h : Sound abi s)
    {sdc : σ} (hrest : (firmware env sdc).AtRest FirmwareAct.IsTask s) : s.Settled := by
  have hup := h.joined.up hhi
  obtain ⟨hhand, hreceiving, hroom⟩ := EventPath.of_atRest h.awake.recv
    (fun t => Option.map_eq_none_iff.mp (hrest (.up t) trivial))
  have hsent := hup.order
  rw [EventPath.places, hhand, List.append_nil] at hsent
  have hwritten : s.up.writer = .receiving → s.up.written = s.up.sent := by
    intro hw
    have hchannel := hreceiving hw
    obtain ⟨hrecv, hring⟩ := hroom (by rw [hchannel]; decide)
    rw [hsent, hchannel, hrecv, hring]
    simp [RecvPc.hand]
  have hcount := h.answering.finishing.count
  have hgot := h.answering.finishing.order
  have hidle := h.awake.idle_of_atRest hrest
  have hdispatched : s.rx ≠ .panicked → s.down.dispatched = s.down.places := by
    intro hpanic
    obtain ⟨hcmds, hnone, hnil⟩ := hidle hpanic
    simp [CommandPath.places, hcmds, hnone, hnil]
  refine ⟨hsent, hroom, fun hw => ⟨hwritten hw, ?_⟩, fun hpanic => ⟨hdispatched hpanic, ?_⟩, ?_⟩
  · rwa [hw, WriterPc.finished, hwritten hw] at hcount
  · rw [h.acl.order, (hidle hpanic).ring, List.filterMap_nil, List.append_nil]
  · intro hw hpanic hdropped hall hfailed
    rw [hw, WriterPc.finished, hwritten hw] at hcount hgot
    rw [hfailed, Nat.add_zero] at hcount
    have hplaces : s.down.places = s.down.accepted := by
      have hlen := h.joined.conserved.perm.length_eq
      rw [hdropped, List.map_nil, List.append_nil] at hlen
      exact h.joined.conserved.order.eq_of_length hlen.symm
    rw [hgot.eq_of_length hcount, hall, h.answering.replies, hdispatched hpanic, hplaces]

/-- **The firmware settles.**  From every state that a controller within `HciGot.Proper` leads to,
the tasks of both cores, and the host as it lets packets in, can make only so many steps, in
whatever order and with whatever writes failing.  Where no task can go on, everything has been
handed on as far as the host lets it; where the host does not hold it up either, `usb_write_task`
waits for a packet, so that nothing waits for the host.  The net core has panicked only over a
command of fewer than two bytes.  And such steps can be made until none is left, with the host's and
without. -/
theorem firmware_settles (env : NetEnv abi σ) (sdc : σ)
    (hlo : controlBufLen ≤ abi.hciMsgBufferMaxSize)
    (hhi : abi.hciMsgBufferMaxSize ≤ maxHciPayload) (s : Firmware σ)
    (h : (firmware env sdc).ReachableBy (FirmwareAct.Gets HciGot.Proper) s) :
    (∀ as s', (∀ a ∈ as, FirmwareAct.IsTask a ∨ FirmwareAct.IsHostIn a) →
      (firmware env sdc).runFrom s as = some s' →
      as.length ≤ s.work ∧
        ((firmware env sdc).AtRest FirmwareAct.IsTask s' → s'.Settled) ∧
        ((firmware env sdc).AtRest (fun a => FirmwareAct.IsTask a ∨ FirmwareAct.IsHostIn a) s' →
          s'.up.writer = .receiving) ∧
        (s'.rx = .panicked → ∃ c ∈ s'.down.accepted, c.length < 2)) ∧
    (∃ as s', (∀ a ∈ as, FirmwareAct.IsTask a) ∧ (firmware env sdc).runFrom s as = some s' ∧
      (firmware env sdc).AtRest FirmwareAct.IsTask s') ∧
    ∃ as s', (∀ a ∈ as, FirmwareAct.IsTask a ∨ FirmwareAct.IsHostIn a) ∧
      (firmware env sdc).runFrom s as = some s' ∧
      (firmware env sdc).AtRest (fun a => FirmwareAct.IsTask a ∨ FirmwareAct.IsHostIn a) s' := by
  have hsound : Sound abi s := sound_of_reachable hlo hhi h
  have hsettles : (firmware env sdc).Settles
      (fun a => FirmwareAct.IsTask a ∨ FirmwareAct.IsHostIn a) (fun _ => True)
      (fun s k => Sound abi s ∧ s.work = k) := by
    refine ⟨fun _ _ _ _ _ => trivial, ?_⟩
    rintro s a s' _ ha hs - ⟨hi, rfl⟩
    exact ⟨s'.work, Firmware.work_lt (hi.joined.up hhi) ha hs,
      hi.step hlo hhi (FirmwareAct.gets_of_inside ha) hs, rfl⟩
  refine ⟨fun as s' has hrun => ?_, ?_, ?_⟩
  · obtain ⟨k', hle, hsound', -⟩ := hsettles.length_le ⟨hsound, rfl⟩ has hrun trivial
    refine ⟨by omega, fun hrest => hsound'.settled hhi hrest, fun hrest => ?_,
      hsound'.accepted_of_panicked⟩
    obtain ⟨hhand, -, -⟩ := EventPath.of_atRest hsound'.awake.recv
      (fun t => Option.map_eq_none_iff.mp (hrest (.up t) (.inl trivial)))
    exact EventPath.receiving_of_atRest hhand
      (Option.map_eq_none_iff.mp (hrest .enabled (.inr trivial)))
      (Option.map_eq_none_iff.mp (hrest (.writeDone true) (.inr trivial)))
  · exact (hsettles.mono fun _ => .inl).exists_rest ⟨hsound, rfl⟩
  · exact hsettles.exists_rest ⟨hsound, rfl⟩

/-- HCI Reset, from the moment it is accepted, behind an event of the controller. -/
theorem firmware_settles_reset :
    ∃ s, (firmware (NetEnv.zeros someAbi) ()).run
        [.hciGet leMeta (), .controlOut classReq [0x03, 0x0C, 0x00]] = some s ∧
      ∃ as s', as.length ≤ 22 ∧ (firmware (NetEnv.zeros someAbi) ()).runFrom s as = some s' ∧
        s'.Settled ∧ s'.up.writer = .receiving := by
  obtain ⟨s, hs, hwork⟩ := (firmware (NetEnv.zeros someAbi) ()).exists_of_run
    [.hciGet leMeta (), .controlOut classReq [0x03, 0x0C, 0x00]] (fun s => s.work = 22)
    (by decide +kernel)
  have hgets : ∀ a ∈ [FirmwareAct.hciGet leMeta (), .controlOut classReq [0x03, 0x0C, 0x00]],
      a.Gets HciGot.Proper := by decide +kernel
  obtain ⟨hbound, -, as, s', has, hrun, hrest⟩ :=
    firmware_settles (NetEnv.zeros someAbi) () (by decide) (by decide) s ⟨_, hgets, hs⟩
  obtain ⟨hle, hsettled, hwriter, -⟩ := hbound as s' has hrun
  rw [hwork] at hle
  exact ⟨s, hs, as, s', hle, hrun, hsettled fun a ha => hrest a (.inl ha), hwriter hrest⟩

end NrfHciUsb
