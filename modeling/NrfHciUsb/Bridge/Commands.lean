import NrfHciUsb.App.Usb
import NrfHciUsb.Ipc.Queue
import NrfHciUsb.Support.Machine

/-!
# Bridge — Commands

The way of an HCI command: from `control_out` through `HCI_CMD_CHANNEL`, `cmd_task` and the A→N
ring, which it shares with the ACL data of `usb_read_task`, to the dispatcher on the net core.

Two queues on the way can be without room, and what is then dropped is not reported back:
`control_out` has already answered `Accepted`, and `cmd_task` does not look at what
`ipc_send_to_net` returns.  A buffer of `ipc_rx_loop` that is shorter than the longest command is a
third place where commands are lost.  `commands_conserved`: nothing else is lost, and what is not
lost stays in order.
-/

namespace NrfHciUsb
open Support

/-- The command in a frame of the A→N ring. -/
def commandOf : List UInt8 → Option (List UInt8)
  | [] => none
  | indicator :: payload => if indicator = 0x01 then some payload else none

/-- Where a command was dropped. -/
inductive Drop where
  /-- `try_send` failed. -/
  | channelFull (command : List UInt8)
  /-- `ipc_send_to_net` returned `false`. -/
  | ringFull (command : List UInt8)
  /-- The frame is longer than the buffer of `ipc_rx_loop`. -/
  | tooLong (command : List UInt8)
  deriving DecidableEq, Repr

def Drop.command : Drop → List UInt8
  | .channelFull c | .ringFull c | .tooLong c => c

/-! ### `control_out` and `cmd_task` -/

/-- What comes of a control request: the channel after it, and what it adds to the commands answered
`Accepted` and to those dropped. -/
structure Intake where
  channel : Channel HciCmdBuf
  accepted : List (List UInt8)
  dropped : List Drop

/-- A request whose data get to `control_out`. -/
def takeRequest (req : Request) (data : List UInt8) (channel : Channel HciCmdBuf) : Intake :=
  let r := controlOut req data channel
  let cmd := (HciCmdBuf.ofData data).bytes
  { channel := r.2
    accepted := if r.1 = some .accepted then [cmd] else []
    dropped :=
      if r.1 = some .accepted ∧ (channel.push? (.ofData data)).isNone then [.channelFull cmd]
      else [] }

/-- A request from the host: `embassy-usb` rejects a data stage longer than `CONTROL_BUF`. -/
def takeTransfer (req : Request) (data : List UInt8) (channel : Channel HciCmdBuf) : Intake :=
  if data.length ≤ controlBufLen then takeRequest req data channel else ⟨channel, [], []⟩

/-- `cmd_task` receives a command if it holds none. -/
def takeCommand (hand : Option HciCmdBuf) (channel : Channel HciCmdBuf) :
    Option (HciCmdBuf × Channel HciCmdBuf) :=
  match hand with
  | none => channel.pop?
  | some _ => none

/-- A request adds a command to the channel, finds it full, or is none of ours. -/
theorem takeRequest_cases (req : Request) (data : List UInt8) (channel : Channel HciCmdBuf) :
    req.IsHciCommand ∧
      ((∃ channel' : Channel HciCmdBuf, channel.push? (.ofData data) = some channel' ∧
          takeRequest req data channel = ⟨channel', [(HciCmdBuf.ofData data).bytes], []⟩) ∨
        (channel.items.length = channelDepth ∧ takeRequest req data channel =
          ⟨channel, [(HciCmdBuf.ofData data).bytes],
            [.channelFull (HciCmdBuf.ofData data).bytes]⟩)) ∨
    ¬ req.IsHciCommand ∧ takeRequest req data channel = ⟨channel, [], []⟩ := by
  by_cases hreq : req.IsHciCommand
  · refine .inl ⟨hreq, ?_⟩
    rw [Request.IsHciCommand] at hreq
    rw [takeRequest, controlOut, if_pos hreq]
    cases hpush : channel.push? (.ofData data) with
    | some channel' => exact .inl ⟨channel', rfl, by simp⟩
    | none => exact .inr ⟨Fifo.push?_eq_none_iff_length.mp hpush, by simp⟩
  · refine .inr ⟨hreq, ?_⟩
    rw [Request.IsHciCommand] at hreq
    rw [takeRequest, controlOut, if_neg hreq]
    simp

@[simp] theorem takeCommand_none (channel : Channel HciCmdBuf) :
    takeCommand none channel = channel.pop? := rfl

@[simp] theorem takeCommand_some (cmd : HciCmdBuf) (channel : Channel HciCmdBuf) :
    takeCommand (some cmd) channel = none := rfl

theorem takeCommand_eq_some_iff {hand : Option HciCmdBuf} {channel channel' : Channel HciCmdBuf}
    {cmd : HciCmdBuf} : takeCommand hand channel = some (cmd, channel') ↔
      hand = none ∧ channel.pop? = some (cmd, channel') := by
  cases hand <;> simp [takeCommand]

/-! ### The path -/

/-- The queues, what `cmd_task` holds between its receive and its write, and the buffer of
`ipc_rx_loop`.  Since the start, `accepted` lists the commands answered `Accepted`, `dispatched`
those handed to `dispatch_hci_cmd` and `dropped` those dropped. -/
structure CommandPath where
  channel : Channel HciCmdBuf
  hand : Option HciCmdBuf
  ring : FrameQueue bufSize
  rxBuf : List UInt8
  accepted : List (List UInt8)
  dispatched : List (List UInt8)
  dropped : List Drop

/-- The next thing to happen: a control request, an ACL packet of at most `MAX_ACL_LEN` bytes, a
step of `cmd_task`, or a read of the ring by the net core. -/
inductive CommandAct where
  | controlOut (req : Request) (data : List UInt8)
  | aclOut (data : List UInt8)
  | cmdReceive
  | cmdSend
  | netRead

def CommandPath.take (s : CommandPath) (t : Intake) : CommandPath :=
  { s with
    channel := t.channel
    accepted := s.accepted ++ t.accepted
    dropped := s.dropped ++ t.dropped }

def CommandPath.step (s : CommandPath) : CommandAct → Option CommandPath
  | .controlOut req data => some (s.take (takeRequest req data s.channel))
  | .aclOut data =>
      if data.length ≤ maxAclLen then some { s with ring := (s.ring.send (aclPkt data)).2 }
      else none
  | .cmdReceive => (takeCommand s.hand s.channel).map fun (cmd, channel) =>
      { s with channel := channel, hand := some cmd }
  | .cmdSend =>
      match s.hand with
      | some cmd =>
          let r := s.ring.send (cmdPkt cmd)
          some { s with
            hand := none
            ring := r.2
            dropped := if r.1 then s.dropped else s.dropped ++ [.ringFull cmd.bytes] }
      | none => none
  | .netRead =>
      let r := s.ring.recv s.rxBuf
      match r.1 with
      | (some n, buf) =>
          some { s with
            ring := r.2
            rxBuf := buf
            dispatched := s.dispatched ++ (commandOf (buf.take n)).toList }
      | (none, buf) =>
          some { s with
            ring := r.2
            rxBuf := buf
            dropped :=
              s.dropped ++ ((s.ring.items.head?.bind commandOf).toList.map .tooLong) }

/-- With `HCI_MSG_BUFFER_MAX_SIZE` being `maxMsg`. -/
def commandPath (maxMsg : ℕ) : Machine CommandPath CommandAct where
  init := ⟨Fifo.empty, none, Fifo.empty, List.replicate (1 + maxMsg) 0, [], [], []⟩
  step := CommandPath.step

/-- The places of a command, from the dispatcher back to the host. -/
def CommandPath.places (s : CommandPath) : List (List UInt8) :=
  s.dispatched ++ s.ring.items.filterMap commandOf ++ s.hand.toList.map HciCmdBuf.bytes ++
    s.channel.items.map HciCmdBuf.bytes

/-! ### The frames on the ring -/

theorem commandOf_cmdPkt (cmd : HciCmdBuf) : commandOf (cmdPkt cmd) = some cmd.bytes := by
  rw [cmdPkt_eq, commandOf, if_pos rfl]

theorem commandOf_aclPkt (data : List UInt8) : commandOf (aclPkt data) = none := by
  rw [aclPkt_eq, commandOf, if_neg (by decide)]

theorem commandOf_length {f c : List UInt8} (h : commandOf f = some c) :
    f.length = 1 + c.length := by
  cases f with
  | nil => cases h
  | cons indicator payload =>
      obtain ⟨-, h⟩ := Option.ite_none_right_eq_some.mp h
      cases h
      rw [List.length_cons, Nat.add_comm]

/-! ### One step -/

/-- A request takes a new command in, drops it because the channel is full, or is none of ours. -/
theorem CommandPath.controlOut_cases {s s' : CommandPath} {req : Request} {data : List UInt8}
    (hs : s.step (.controlOut req data) = some s') :
    s'.rxBuf = s.rxBuf ∧
    ((s'.places = s.places ∧ s'.accepted = s.accepted ∧ s'.dropped = s.dropped) ∨
    (∃ data, s'.places = s.places ++ [(HciCmdBuf.ofData data).bytes] ∧
      s'.accepted = s.accepted ++ [(HciCmdBuf.ofData data).bytes] ∧ s'.dropped = s.dropped) ∨
    ∃ data, s'.places = s.places ∧ s'.accepted = s.accepted ++ [(HciCmdBuf.ofData data).bytes] ∧
      s'.dropped = s.dropped ++ [.channelFull (HciCmdBuf.ofData data).bytes] ∧
      s.channel.items.length = channelDepth) := by
  cases hs
  refine ⟨rfl, ?_⟩
  rw [CommandPath.take]
  obtain ⟨-, ⟨channel, hpush, heq⟩ | ⟨hfull, heq⟩⟩ | ⟨-, heq⟩ :=
    takeRequest_cases req data s.channel
  · refine .inr (.inl ⟨data, ?_, ?_, ?_⟩)
    · simp [CommandPath.places, heq, (Fifo.push?_eq_some_iff.mp hpush).2]
    · simp [heq]
    · simp [heq]
  · exact .inr (.inr ⟨data, by simp [CommandPath.places, heq], by simp [heq], by simp [heq], hfull⟩)
  · exact .inl ⟨by simp [CommandPath.places, heq], by simp [heq], by simp [heq]⟩

/-- A read moves the first frame on, or drops it because the buffer is too short. -/
theorem CommandPath.netRead_cases {maxMsg : ℕ} {s s' : CommandPath}
    (hbuf : s.rxBuf.length = 1 + maxMsg) (hs : s.step .netRead = some s') :
    s'.rxBuf.length = 1 + maxMsg ∧ s'.accepted = s.accepted ∧
    ((s'.places = s.places ∧ s'.dropped = s.dropped) ∨
    ∃ c r, s.places = s.dispatched ++ c :: r ∧ s'.places = s.dispatched ++ r ∧
      s'.dropped = s.dropped ++ [.tooLong c] ∧ maxMsg < c.length) := by
  rcases s.ring.recv_cases s.rxBuf with ⟨hnil, hrecv⟩ | ⟨p, ring, hitems, hrecv⟩
  · -- the ring is empty
    simp only [CommandPath.step, hrecv, Option.some.injEq] at hs
    cases hs
    exact ⟨hbuf, rfl, .inl ⟨rfl, by simp [hnil]⟩⟩
  · by_cases hfit : p.length ≤ s.rxBuf.length
    · -- the first frame is read
      have hrec : received p s.rxBuf = (some p.length, p ++ s.rxBuf.drop p.length) :=
        if_pos hfit
      simp only [CommandPath.step, hrecv, hrec, Option.some.injEq] at hs
      cases hs
      refine ⟨by simp; omega, rfl, .inl ⟨?_, rfl⟩⟩
      cases hc : commandOf p <;> simp [CommandPath.places, hitems, hc]
    · -- the first frame is discarded
      have hrec : received p s.rxBuf = (none, s.rxBuf) := if_neg hfit
      simp only [CommandPath.step, hrecv, hrec, Option.some.injEq] at hs
      cases hs
      refine ⟨hbuf, rfl, ?_⟩
      cases hc : commandOf p with
      | none => exact .inl ⟨by simp [CommandPath.places, hitems, hc], by simp [hitems, hc]⟩
      | some c =>
          refine .inr ⟨c, ring.items.filterMap commandOf ++ s.hand.toList.map HciCmdBuf.bytes ++
            s.channel.items.map HciCmdBuf.bytes, ?_, ?_, by simp [hitems, hc], ?_⟩
          · simp [CommandPath.places, hitems, hc]
          · simp [CommandPath.places]
          · rw [commandOf_length hc] at hfit
            omega

/-- What a step does to the commands: it moves them on, takes a new one in, drops the new one
because the channel is full, or drops one on its way because the ring or the read buffer has no
room for it. -/
theorem CommandPath.step_cases {maxMsg : ℕ} {s s' : CommandPath} {a : CommandAct}
    (hbuf : s.rxBuf.length = 1 + maxMsg) (hs : s.step a = some s') :
    s'.rxBuf.length = 1 + maxMsg ∧
    ((s'.places = s.places ∧ s'.accepted = s.accepted ∧ s'.dropped = s.dropped) ∨
    (∃ data, s'.places = s.places ++ [(HciCmdBuf.ofData data).bytes] ∧
      s'.accepted = s.accepted ++ [(HciCmdBuf.ofData data).bytes] ∧ s'.dropped = s.dropped) ∨
    (∃ data, s'.places = s.places ∧ s'.accepted = s.accepted ++ [(HciCmdBuf.ofData data).bytes] ∧
      s'.dropped = s.dropped ++ [.channelFull (HciCmdBuf.ofData data).bytes] ∧
      s.channel.items.length = channelDepth) ∨
    (∃ l c r, s.places = l ++ c :: r ∧ s'.places = l ++ r ∧ s'.accepted = s.accepted ∧
      ((s'.dropped = s.dropped ++ [.ringFull c] ∧
          bufSize.toNat < ringBytes s.ring.items + (2 + (1 + c.length))) ∨
        (s'.dropped = s.dropped ++ [.tooLong c] ∧ maxMsg < c.length)))) := by
  cases a with
  | controlOut req data =>
      obtain ⟨hsame, hcases⟩ := CommandPath.controlOut_cases hs
      refine ⟨by rw [hsame, hbuf], ?_⟩
      rcases hcases with hmove | hnew | hfull
      · exact .inl hmove
      · exact .inr (.inl hnew)
      · exact .inr (.inr (.inl hfull))
  | aclOut data =>
      obtain ⟨-, hs⟩ := Option.ite_none_right_eq_some.mp hs
      cases hs
      refine ⟨hbuf, .inl ⟨?_, rfl, rfl⟩⟩
      rcases s.ring.send_cases (aclPkt data) with ⟨-, hitems⟩ | ⟨-, hsame, -⟩
      · simp [CommandPath.places, hitems, commandOf_aclPkt]
      · simp [CommandPath.places, hsame]
  | cmdReceive =>
      obtain ⟨⟨cmd, channel⟩, htake, rfl⟩ := Option.map_eq_some_iff.mp hs
      obtain ⟨hhand, hpop⟩ := takeCommand_eq_some_iff.mp htake
      refine ⟨hbuf, .inl ⟨?_, rfl, rfl⟩⟩
      simp [CommandPath.places, hhand, Fifo.pop?_eq_some_iff.mp hpop]
  | cmdSend =>
      rw [CommandPath.step] at hs
      cases hhand : s.hand with
      | none => rw [hhand] at hs; cases hs
      | some cmd =>
          rw [hhand] at hs
          cases hs
          refine ⟨hbuf, ?_⟩
          rcases s.ring.send_cases (cmdPkt cmd) with ⟨hok, hitems⟩ | ⟨hok, hsame, hfull⟩
          · refine .inl ⟨?_, rfl, by simp [hok]⟩
            simp [CommandPath.places, hitems, hhand, commandOf_cmdPkt]
          · refine .inr (.inr (.inr ⟨s.dispatched ++ s.ring.items.filterMap commandOf, cmd.bytes,
              s.channel.items.map HciCmdBuf.bytes, ?_, ?_, rfl, .inl ⟨by simp [hok], ?_⟩⟩))
            · simp [CommandPath.places, hhand]
            · simp [CommandPath.places, hsame]
            · simpa [cmdPkt_eq, Nat.add_comm] using hfull
  | netRead =>
      obtain ⟨hbuf', hacc, ⟨hplaces, hdrop⟩ | ⟨c, r, hplaces, hplaces', hdrop, hlong⟩⟩ :=
        CommandPath.netRead_cases hbuf hs
      · exact ⟨hbuf', .inl ⟨hplaces, hacc, hdrop⟩⟩
      · exact ⟨hbuf', .inr (.inr (.inr ⟨s.dispatched, c, r, hplaces, hplaces', hacc,
          .inr ⟨hdrop, hlong⟩⟩))⟩

/-! ### Every run -/

/-- The commands accepted are, in order, those in their places, less the dropped ones. -/
structure Conserved (maxMsg : ℕ) (s : CommandPath) : Prop where
  rxBuf : s.rxBuf.length = 1 + maxMsg
  short : ∀ c ∈ s.accepted, c.length ≤ maxCmdLen
  order : s.places.Sublist s.accepted
  perm : s.accepted.Perm (s.places ++ s.dropped.map Drop.command)
  fits : maxCmdLen ≤ maxMsg → ∀ c, Drop.tooLong c ∉ s.dropped

theorem conserved_init (maxMsg : ℕ) : Conserved maxMsg (commandPath maxMsg).init where
  rxBuf := List.length_replicate
  short := nofun
  order := .slnil
  perm := .nil
  fits := nofun

theorem HciCmdBuf.length_ofData_bytes (data : List UInt8) :
    (HciCmdBuf.ofData data).bytes.length ≤ maxCmdLen := by
  rw [HciCmdBuf.ofData_bytes]
  exact List.length_take_le _ _

theorem Conserved.step {maxMsg : ℕ} {s s' : CommandPath} {a : CommandAct}
    (h : Conserved maxMsg s) (hs : s.step a = some s') : Conserved maxMsg s' := by
  obtain ⟨hbuf, hcases⟩ := CommandPath.step_cases h.rxBuf hs
  have hnew : ∀ data, ∀ c ∈ s.accepted ++ [(HciCmdBuf.ofData data).bytes],
      c.length ≤ maxCmdLen := by
    intro data c hc
    rcases List.mem_append.mp hc with hc | hc
    · exact h.short c hc
    · rw [List.mem_singleton.mp hc]
      exact HciCmdBuf.length_ofData_bytes data
  refine ⟨hbuf, ?_, ?_, ?_, ?_⟩
  · rcases hcases with ⟨-, ha, -⟩ | ⟨data, -, ha, -⟩ | ⟨data, -, ha, -⟩ | ⟨-, -, -, -, -, ha, -⟩
    · rw [ha]
      exact h.short
    · rw [ha]
      exact hnew data
    · rw [ha]
      exact hnew data
    · rw [ha]
      exact h.short
  · rcases hcases with ⟨hp, ha, -⟩ | ⟨c, hp, ha, -⟩ | ⟨c, hp, ha, -⟩ | ⟨l, c, r, hp, hp', ha, -⟩
    · rw [hp, ha]
      exact h.order
    · rw [hp, ha]
      exact h.order.append_right _
    · rw [hp, ha]
      exact h.order.trans (List.sublist_append_left _ _)
    · rw [hp', ha]
      refine .trans ?_ h.order
      rw [hp]
      exact (List.Sublist.refl l).append (List.sublist_cons_self c r)
  · have hperm := h.perm
    rw [List.perm_iff_count] at hperm ⊢
    intro x
    specialize hperm x
    rcases hcases with ⟨hp, ha, hd⟩ | ⟨c, hp, ha, hd⟩ | ⟨c, hp, ha, hd, -⟩ |
      ⟨l, c, r, hp, hp', ha, ⟨hd, -⟩ | ⟨hd, -⟩⟩
    · rw [hp, ha, hd]
      exact hperm
    · rw [hp, ha, hd]
      simp only [List.count_append] at hperm ⊢
      omega
    · rw [hp, ha, hd]
      simp only [List.count_append, List.map_append, List.map_cons, List.map_nil,
        Drop.command] at hperm ⊢
      omega
    all_goals
      rw [hp', ha, hd]
      rw [hp] at hperm
      simp only [List.count_append, List.map_append, List.map_cons, List.map_nil, Drop.command,
        List.count_cons, List.count_nil] at hperm ⊢
      omega
  · intro hmax x hx
    rcases hcases with ⟨-, -, hd⟩ | ⟨c, -, -, hd⟩ | ⟨c, -, -, hd, -⟩ |
      ⟨l, c, r, hp, -, -, ⟨hd, -⟩ | ⟨-, hlong⟩⟩
    · exact h.fits hmax x (hd ▸ hx)
    · exact h.fits hmax x (hd ▸ hx)
    · exact h.fits hmax x (by simpa [hd] using hx)
    · exact h.fits hmax x (by simpa [hd] using hx)
    · have hlen := h.short c (h.order.subset (by simp [hp]))
      omega

theorem conserved_of_reachable {maxMsg : ℕ} {s : CommandPath}
    (h : (commandPath maxMsg).Reachable s) : Conserved maxMsg s :=
  h.invariant (conserved_init maxMsg) fun _ _ _ ih hs => ih.step hs

/-- **Commands.**  In every reachable state each accepted command is in one place or was dropped;
the places list the accepted commands in order, less the dropped ones, and nothing else; if
nothing was dropped they are all there.  A step drops a command only where it finds a queue without
room: a full channel, a ring without space for the frame, a read buffer shorter than it; and that
buffer is never too short if it has room for the longest command. -/
theorem commands_conserved (maxMsg : ℕ) (s : CommandPath)
    (h : (commandPath maxMsg).Reachable s) :
    s.places.Sublist s.accepted ∧
    s.accepted.Perm (s.places ++ s.dropped.map Drop.command) ∧
    (s.dropped = [] → s.places = s.accepted) ∧
    (maxCmdLen ≤ maxMsg → ∀ c, Drop.tooLong c ∉ s.dropped) ∧
    ∀ a s', s.step a = some s' → s'.dropped = s.dropped ∨
      (∃ c, s'.dropped = s.dropped ++ [.channelFull c] ∧
        s.channel.items.length = channelDepth) ∨
      (∃ c, s'.dropped = s.dropped ++ [.ringFull c] ∧
        bufSize.toNat < ringBytes s.ring.items + (2 + (1 + c.length))) ∨
      (∃ c, s'.dropped = s.dropped ++ [.tooLong c] ∧ maxMsg < c.length) := by
  have hc := conserved_of_reachable h
  refine ⟨hc.order, hc.perm, ?_, hc.fits, ?_⟩
  · intro hd
    have hlen := hc.perm.length_eq
    rw [hd, List.map_nil, List.append_nil] at hlen
    exact hc.order.eq_of_length hlen.symm
  · intro a s' hs
    obtain ⟨-, hcases⟩ := CommandPath.step_cases hc.rxBuf hs
    rcases hcases with ⟨-, -, hd⟩ | ⟨c, -, -, hd⟩ | ⟨c, -, -, hd, hfull⟩ |
      ⟨l, c, r, -, -, -, ⟨hd, hfull⟩ | ⟨hd, hlong⟩⟩
    · exact .inl hd
    · exact .inl hd
    · exact .inr (.inl ⟨_, hd, hfull⟩)
    · exact .inr (.inr (.inl ⟨c, hd, hfull⟩))
    · exact .inr (.inr (.inr ⟨c, hd, hlong⟩))

/-! ### Runs -/

/-- The request that carries a command. -/
def classReq : Request := ⟨.class_, .device, 0x00⟩

/-- HCI Reset, through to the dispatcher. -/
theorem commands_conserved_reset :
    ∃ s, (commandPath 258).run
        [.controlOut classReq [0x03, 0x0C, 0x00], .cmdReceive, .cmdSend, .netRead] = some s ∧
      s.accepted = [[0x03, 0x0C, 0x00]] ∧ s.places = s.accepted := by
  obtain ⟨s, hs, hacc, hdrop⟩ := (commandPath 258).exists_of_run
    [.controlOut classReq [0x03, 0x0C, 0x00], .cmdReceive, .cmdSend, .netRead]
    (fun s => s.accepted = [[0x03, 0x0C, 0x00]] ∧ s.dropped = []) (by decide +kernel)
  exact ⟨s, hs, hacc, (commands_conserved 258 s ⟨_, hs⟩).2.2.1 hdrop⟩

/-- A command as long as `CONTROL_BUF`: opcode, parameter length and 125 bytes of parameters. -/
def fullCommand : List UInt8 := 0x37 :: 0x20 :: 0x7D :: List.replicate 125 0x00

/-- From the host to the ring. -/
def sendFull : List CommandAct := [.controlOut classReq fullCommand, .cmdReceive, .cmdSend]

/-- **Accepted and lost.**  Five requests before `cmd_task` runs, and the fifth is dropped; and 110
commands of 128 bytes before the net core reads, and the last is dropped. -/
theorem accepted_dropped :
    (∃ s, (commandPath 258).run
        ((List.range 5).map fun i => .controlOut classReq [UInt8.ofNat i, 0x0C, 0x00]) = some s ∧
      s.dropped = [.channelFull [0x04, 0x0C, 0x00]] ∧ s.places ≠ s.accepted) ∧
    ∃ s, (commandPath 258).run (List.replicate 110 sendFull).flatten = some s ∧
      s.dropped = [.ringFull fullCommand] ∧ s.places ≠ s.accepted := by
  -- a place is missing, so that comparing lengths is enough
  have hrun : ∀ (acts : List CommandAct) (d : Drop), ((commandPath 258).run acts).any (fun s =>
      s.dropped = [d] ∧ s.places.length < s.accepted.length) = true →
        ∃ s, (commandPath 258).run acts = some s ∧ s.dropped = [d] ∧ s.places ≠ s.accepted := by
    intro acts d h
    obtain ⟨s, hs, hdrop, hlen⟩ := (commandPath 258).exists_of_run acts _ h
    refine ⟨s, hs, hdrop, ?_⟩
    intro heq
    rw [heq] at hlen
    exact absurd hlen (Nat.lt_irrefl _)
  refine ⟨hrun _ _ ?_, hrun _ _ ?_⟩ <;> decide +kernel

end NrfHciUsb
