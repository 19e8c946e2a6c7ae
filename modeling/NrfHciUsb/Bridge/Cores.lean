import NrfHciUsb.Bridge.Answers
import NrfHciUsb.Ipc.Doorbell
import NrfHciUsb.Support.Compose

/-!
# Bridge — Cores

Both cores, down to the single accesses.  Between them are the two rings, each with its event and
the loop that reads it (`Wakeup`), and around the rings are the tasks: what a task does with a ring
is spread over as many steps as the calls have accesses, with those of the other core in between,
and so is what `ipc_rx_loop` does from the read of a frame to the return of `notify_app`.

* `Tasks.seeDown_sent` and its like: what each step does.
* `TasksInv`: what the tasks keep to, whatever the rings show them.
-/

namespace NrfHciUsb
open Support

/-! ### The tasks -/

/-- The tasks of both cores.

On the app core `cmds` is `HCI_CMD_CHANNEL` and `toHost` is `NET_TO_HOST`; `cmd`, `acl` and `pkt`
are what `cmd_task` and `usb_read_task` have to send and what `ipc_recv_task` has read.  On the net
core `notify` is what the loop that is at work has for `notify_app`.

Since the start, `accepted` lists the commands answered `Accepted`, `dispatched` those handed to
`dispatch_hci_cmd` and `dropped` those dropped; `aclSent` lists the ACL data the A→N ring took and
`puts` those given to `hci_data_put`; `replies` lists what the dispatcher had for `notify_app`,
`sent` the packets the N→A ring took, `written` those given to `write_ep` and `got` those whose
`write_ep` succeeded; `failed` counts the other writes. -/
structure Tasks (σ : Type) where
  cmds : Channel HciCmdBuf
  cmd : Option HciCmdBuf
  acl : Option (List UInt8)
  pkt : Option HciPacket
  toHost : Channel HciPacket
  writer : WriterPc
  notify : List (List UInt8)
  panicked : Bool
  sdc : σ
  accepted : List (List UInt8)
  dispatched : List (List UInt8)
  dropped : List Drop
  aclSent : List (List UInt8)
  puts : List (List UInt8)
  replies : List (List UInt8)
  sent : List (List UInt8)
  written : List (List UInt8)
  got : List (List UInt8)
  failed : ℕ

/-- What happens away from the rings: a control request, a packet on the bulk endpoint, the receive
of `cmd_task`, an answer of `hci_get`, after which the controller is in the state `sdc`, or a step
of `usb_write_task`. -/
inductive TaskAct (abi : SdcAbi) (σ : Type) where
  | controlOut (req : Request) (data : List UInt8)
  | aclOut (data : List UInt8)
  | cmdReceive
  | hciGet (got : HciGot abi) (sdc : σ)
  | enabled
  | receive
  | writeEp
  | writeDone (ok : Bool)

variable {abi : SdcAbi} {σ : Type}

/-- What `hci_get` answers satisfies `P`. -/
def TaskAct.Gets (P : HciGot abi → Prop) : TaskAct abi σ → Prop
  | .hciGet got _ => P got
  | .controlOut _ _ | .aclOut _ | .cmdReceive | .enabled | .receive | .writeEp
  | .writeDone _ => True

instance {P : HciGot abi → Prop} [DecidablePred P] :
    DecidablePred (TaskAct.Gets P : TaskAct abi σ → Prop)
  | .hciGet got _ => inferInstanceAs (Decidable (P got))
  | .controlOut _ _ | .aclOut _ | .cmdReceive | .enabled | .receive | .writeEp
  | .writeDone _ => isTrue trivial

def Tasks.step (env : NetEnv abi σ) (s : Tasks σ) : TaskAct abi σ → Option (Tasks σ)
  | .controlOut req data =>
      let t := takeTransfer req data s.cmds
      some { s with
        cmds := t.channel
        accepted := s.accepted ++ t.accepted
        dropped := s.dropped ++ t.dropped }
  | .aclOut data =>
      if s.acl = none ∧ data.length ≤ usbPacketSize then some { s with acl := some data } else none
  | .cmdReceive =>
      (takeCommand s.cmd s.cmds).map fun (cmd, cmds) => { s with cmds := cmds, cmd := some cmd }
  | .hciGet got sdc =>
      if s.notify = [] ∧ s.panicked = false then
        let o := NetM.outcome env got.handle s.sdc
        some { s with notify := o.notified, panicked := o.panicked, sdc := sdc }
      else none
  | .enabled => s.writer.enabled.map fun writer => { s with writer := writer }
  | .receive => (s.writer.receive s.toHost).map fun (writer, toHost) =>
      { s with toHost := toHost, writer := writer }
  | .writeEp => s.writer.writeEp.map fun (writer, given) =>
      { s with writer := writer, written := s.written ++ given }
  | .writeDone ok => (s.writer.writeDone ok).map fun writer =>
      { s with
        writer := writer
        got := gotAfter ok s.written s.got
        failed := failedAfter ok s.failed }

/-- One of the two tasks that send to the net core has the frame. -/
def Tasks.Offers (s : Tasks σ) (f : List UInt8) : Prop :=
  s.acl.map aclPkt = some f ∨ s.cmd.map cmdPkt = some f

instance (s : Tasks σ) (f : List UInt8) : Decidable (s.Offers f) :=
  inferInstanceAs (Decidable (_ ∨ _))

/-- What the tasks make of what the A→N ring shows.  Its frames are from `usb_read_task` and
`cmd_task`, and `ipc_rx_loop` takes one when the net core does nothing else. -/
def Tasks.seeDown (env : NetEnv abi σ) (s : Tasks σ) :
    BellEvent → Option (Tasks σ)
  | .calls f => if s.Offers f then some s else none
  | .sent f ok =>
      if s.acl.map aclPkt = some f then
        some { s with
          acl := none
          aclSent := if ok then s.aclSent ++ s.acl.toList else s.aclSent }
      else if s.cmd.map cmdPkt = some f then
        some { s with
          cmd := none
          dropped :=
            if ok then s.dropped else s.dropped ++ s.cmd.toList.map fun cmd => .ringFull cmd.bytes }
      else none
  | .took f =>
      if s.notify = [] ∧ s.panicked = false then
        let o := NetM.outcome env (rxFrame f f.length) s.sdc
        some { s with
          dispatched := s.dispatched ++ (commandOf f).toList
          puts := s.puts ++ o.puts
          notify := o.notified
          replies := s.replies ++ o.notified
          panicked := o.panicked
          sdc := o.sdc }
      else none
  | .done => if s.notify = [] ∧ s.panicked = false then some s else none

/-- What they make of what the N→A ring shows. -/
def Tasks.seeUp (s : Tasks σ) : BellEvent → Option (Tasks σ)
  | .calls f => if s.notify.head? = some f then some s else none
  | .sent f ok =>
      match s.notify with
      | pkt :: rest =>
          if pkt = f then
            some { s with notify := rest, sent := if ok then s.sent ++ [f] else s.sent }
          else none
      | [] => none
  | .took f => some { s with pkt := HciPacket.ofRead f f.length }
  | .done =>
      match s.pkt with
      -- a full channel blocks `ipc_recv_task` here
      | some pkt => (s.toHost.push? pkt).map fun toHost => { s with toHost := toHost, pkt := none }
      | none => some s

/-- With the controller in the state `sdc`. -/
def tasks (env : NetEnv abi σ) (sdc : σ) :
    Around (Tasks σ) (TaskAct abi σ) (BellEvent ⊕ BellEvent) where
  init := ⟨Fifo.empty, none, none, none, Fifo.empty, .disabled, [], false, sdc, [], [], [], [], [],
    [], [], [], [], 0⟩
  step := Tasks.step env
  see s
    | .inl e => s.seeDown env e
    | .inr e => s.seeUp e

theorem tasks_seeDown (env : NetEnv abi σ) (sdc : σ) (s : Tasks σ)
    (e : BellEvent) : (tasks env sdc).seeAll s [.inl e] = s.seeDown env e :=
  (tasks env sdc).seeAll_singleton s (.inl e)

theorem tasks_seeUp (env : NetEnv abi σ) (sdc : σ) (s : Tasks σ)
    (e : BellEvent) : (tasks env sdc).seeAll s [.inr e] = s.seeUp e :=
  (tasks env sdc).seeAll_singleton s (.inr e)

/-! ### The cores -/

def rxBufOf (abi : SdcAbi) : List UInt8 := List.replicate (1 + abi.hciMsgBufferMaxSize) 0

def recvBuf : List UInt8 := List.replicate (1 + maxHciPayload) 0

/-- From `ipc_init` on, over any memory. -/
def cores (env : NetEnv abi σ) (a2n n2a : Ring) (sdc : σ) :
    Machine ((Wakeup × Wakeup) × Tasks σ) ((WakeAct ⊕ WakeAct) ⊕ TaskAct abi σ) :=
  ((wakeup bufSize a2n (rxBufOf abi)).par (wakeup bufSize n2a recvBuf)).within
    (parShows (Wakeup.shows bufSize) (Wakeup.shows bufSize)) (tasks env sdc)

/-- The same tasks around two doorbells. -/
def bellCores (env : NetEnv abi σ) (sdc : σ) :
    Machine ((Doorbell bufSize × Doorbell bufSize) × Tasks σ)
      ((BellAct ⊕ BellAct) ⊕ TaskAct abi σ) :=
  ((doorbell bufSize (rxBufOf abi)).par (doorbell bufSize recvBuf)).within
    (parShows Doorbell.shows Doorbell.shows) (tasks env sdc)

/-! ### What a step does -/

variable {env : NetEnv abi σ} {s s' : Tasks σ}

theorem Tasks.cmdReceive_eq (hs : s.step env .cmdReceive = some s') :
    ∃ cmd cmds, s.cmd = none ∧ s.cmds.pop? = some (cmd, cmds) ∧
      s' = { s with cmds := cmds, cmd := some cmd } := by
  obtain ⟨⟨cmd, cmds⟩, htake, rfl⟩ := Option.map_eq_some_iff.mp hs
  obtain ⟨hcmd, hpop⟩ := takeCommand_eq_some_iff.mp htake
  exact ⟨cmd, cmds, hcmd, hpop, rfl⟩

/-- The net core takes an answer of `hci_get` when it is at nothing else. -/
theorem Tasks.hciGet_eq {got : HciGot abi} {sdc : σ} (hs : s.step env (.hciGet got sdc) = some s') :
    (s.notify = [] ∧ s.panicked = false) ∧ s' = { s with
      notify := (NetM.outcome env got.handle s.sdc).notified
      panicked := (NetM.outcome env got.handle s.sdc).panicked
      sdc := sdc } := by
  obtain ⟨hidle, hs⟩ := Option.ite_none_right_eq_some.mp hs
  exact ⟨hidle, (Option.some.inj hs).symm⟩

theorem Tasks.seeDown_took {f : List UInt8} (hs : s.seeDown env (.took f) = some s') :
    (s.notify = [] ∧ s.panicked = false) ∧ s' = { s with
      dispatched := s.dispatched ++ (commandOf f).toList
      puts := s.puts ++ (NetM.outcome env (rxFrame f f.length) s.sdc).puts
      notify := (NetM.outcome env (rxFrame f f.length) s.sdc).notified
      replies := s.replies ++ (NetM.outcome env (rxFrame f f.length) s.sdc).notified
      panicked := (NetM.outcome env (rxFrame f f.length) s.sdc).panicked
      sdc := (NetM.outcome env (rxFrame f f.length) s.sdc).sdc } := by
  obtain ⟨hidle, hs⟩ := Option.ite_none_right_eq_some.mp hs
  exact ⟨hidle, (Option.some.inj hs).symm⟩

theorem Tasks.seeDown_calls {f : List UInt8} (hs : s.seeDown env (.calls f) = some s') :
    s.Offers f ∧ s = s' := by
  obtain ⟨hoffers, hs⟩ := Option.ite_none_right_eq_some.mp hs
  cases hs
  exact ⟨hoffers, rfl⟩

theorem Tasks.seeUp_calls {f : List UInt8} (hs : s.seeUp (.calls f) = some s') :
    s.notify.head? = some f ∧ s = s' := by
  obtain ⟨hhead, hs⟩ := Option.ite_none_right_eq_some.mp hs
  cases hs
  exact ⟨hhead, rfl⟩

theorem Tasks.seeDown_done (hs : s.seeDown env .done = some s') : s = s' := by
  obtain ⟨-, hs⟩ := Option.ite_none_right_eq_some.mp hs
  cases hs
  rfl

/-- `ipc_recv_task` goes back to the ring, once there is room for the packet that it holds. -/
theorem Tasks.seeUp_done (hs : s.seeUp .done = some s') :
    s.pkt = none ∧ s = s' ∨ ∃ pkt toHost, s.pkt = some pkt ∧ s.toHost.push? pkt = some toHost ∧
      s' = { s with toHost := toHost, pkt := none } := by
  rw [Tasks.seeUp] at hs
  cases hpkt : s.pkt with
  | none =>
      rw [hpkt] at hs
      cases hs
      exact .inl ⟨rfl, rfl⟩
  | some pkt =>
      rw [hpkt] at hs
      obtain ⟨toHost, hpush, rfl⟩ := Option.map_eq_some_iff.mp hs
      exact .inr ⟨pkt, toHost, rfl, hpush, rfl⟩

/-- A frame that a ring takes or refuses is from `usb_read_task`, or from `cmd_task`. -/
theorem Tasks.seeDown_sent {f : List UInt8} {ok : Bool}
    (hs : s.seeDown env (.sent f ok) = some s') :
    (∃ data, s.acl = some data ∧ f = aclPkt data ∧ s' = { s with
      acl := none
      aclSent := if ok then s.aclSent ++ [data] else s.aclSent }) ∨
    ∃ cmd, s.cmd = some cmd ∧ f = cmdPkt cmd ∧ s' = { s with
      cmd := none
      dropped := if ok then s.dropped else s.dropped ++ [.ringFull cmd.bytes] } := by
  rw [Tasks.seeDown] at hs
  split at hs
  · rename_i hacl
    obtain ⟨data, hdata, rfl⟩ := Option.map_eq_some_iff.mp hacl
    cases hs
    exact .inl ⟨data, hdata, rfl, by rw [hdata, Option.toList_some]⟩
  · obtain ⟨hfrom, heq⟩ := Option.ite_none_right_eq_some.mp hs
    obtain ⟨cmd, hcmd, rfl⟩ := Option.map_eq_some_iff.mp hfrom
    cases heq
    exact .inr ⟨cmd, hcmd, rfl, by rw [hcmd, Option.toList_some, List.map_singleton]⟩

theorem Tasks.offers_of_sent {f : List UInt8} {ok : Bool}
    (hs : s.seeDown env (.sent f ok) = some s') : s.Offers f := by
  rcases Tasks.seeDown_sent hs with ⟨data, hdata, rfl, -⟩ | ⟨cmd, hcmd, rfl, -⟩
  · exact .inl (by rw [hdata, Option.map_some])
  · exact .inr (by rw [hcmd, Option.map_some])

/-- … and on the net core it is the next that there is for `notify_app`. -/
theorem Tasks.seeUp_sent {f : List UInt8} {ok : Bool} (hs : s.seeUp (.sent f ok) = some s') :
    ∃ rest, s.notify = f :: rest ∧
      s' = { s with notify := rest, sent := if ok then s.sent ++ [f] else s.sent } := by
  rw [Tasks.seeUp] at hs
  cases hn : s.notify with
  | nil => rw [hn] at hs; cases hs
  | cons pkt rest =>
      rw [hn] at hs
      obtain ⟨rfl, hs⟩ := Option.ite_none_right_eq_some.mp hs
      cases hs
      exact ⟨rest, rfl, rfl⟩

/-! ### What the tasks keep to -/

/-- What the tasks have for the rings is short enough for them, and the replies are to the commands
dispatched. -/
structure TasksInv (s : Tasks σ) : Prop where
  cmds : ∀ cmd ∈ s.cmd.toList ++ s.cmds.items, cmd.bytes.length ≤ controlBufLen
  acl : ∀ data, s.acl = some data → data.length ≤ usbPacketSize
  notify : ∀ f ∈ s.notify, Forwardable f
  replies : (s.replies.filterMap decodeReply).map HciReply.opcode =
    (s.dispatched.filter HasArm).map opcodeOf
  finishing : Finishing s.writer s.written s.got s.failed

theorem TasksInv.offers_length (h : TasksInv s) {f : List UInt8} (hf : s.Offers f) :
    f.length ≤ 1 + controlBufLen := by
  have hpacket : usbPacketSize ≤ controlBufLen := by decide
  rcases hf with hf | hf
  · obtain ⟨data, hdata, rfl⟩ := Option.map_eq_some_iff.mp hf
    have hlen := h.acl data hdata
    rw [aclPkt_eq, List.length_cons]
    omega
  · obtain ⟨cmd, hcmd, rfl⟩ := Option.map_eq_some_iff.mp hf
    have hlen := h.cmds cmd (by simp [hcmd])
    rw [cmdPkt_eq, List.length_cons]
    omega

theorem TasksInv.notify_length (h : TasksInv s) {f : List UInt8} (hf : f ∈ s.notify) :
    f.length ≤ 1 + maxHciPayload := by
  obtain ⟨indicator, p, rfl, -, hp⟩ := h.notify f hf
  rw [List.length_cons]
  omega

theorem tasksInv_init (env : NetEnv abi σ) (sdc : σ) : TasksInv (tasks env sdc).init where
  cmds := nofun
  acl := nofun
  notify := nofun
  replies := rfl
  finishing := finishing_init

/-- A request adds at most the command in its data. -/
theorem mem_takeTransfer {req : Request} {data : List UInt8} {channel : Channel HciCmdBuf}
    {cmd : HciCmdBuf} (h : cmd ∈ (takeTransfer req data channel).channel.items) :
    cmd ∈ channel.items ∨ cmd.bytes.length ≤ controlBufLen := by
  rw [takeTransfer] at h
  split at h
  · rename_i hlen
    obtain ⟨-, ⟨channel', hpush, heq⟩ | ⟨-, heq⟩⟩ | ⟨-, heq⟩ := takeRequest_cases req data channel
    · rw [heq, (Fifo.push?_eq_some_iff.mp hpush).2] at h
      rcases List.mem_append.mp h with h | h
      · exact .inl h
      · rw [List.mem_singleton.mp h, HciCmdBuf.ofData_bytes]
        exact .inr ((List.length_take_le' _ _).trans hlen)
    · rw [heq] at h
      exact .inl h
    · rw [heq] at h
      exact .inl h
  · exact .inl h

/-- **One step away from the rings.** -/
theorem TasksInv.step (hM : abi.hciMsgBufferMaxSize ≤ maxHciPayload) (h : TasksInv s)
    {a : TaskAct abi σ} (hs : s.step env a = some s') : TasksInv s' := by
  cases a with
  | controlOut req data =>
      cases hs
      refine { h with cmds := fun cmd hmem => ?_ }
      rcases List.mem_append.mp hmem with hmem | hmem
      · exact h.cmds cmd (List.mem_append_left _ hmem)
      · rcases mem_takeTransfer hmem with hmem | hlen
        · exact h.cmds cmd (List.mem_append_right _ hmem)
        · exact hlen
  | aclOut data =>
      obtain ⟨⟨-, hlen⟩, hs⟩ := Option.ite_none_right_eq_some.mp hs
      cases hs
      refine { h with acl := fun data' hdata => ?_ }
      cases hdata
      exact hlen
  | cmdReceive =>
      obtain ⟨cmd, cmds, hcmd, hpop, rfl⟩ := Tasks.cmdReceive_eq hs
      refine { h with cmds := fun cmd' hmem => h.cmds cmd' ?_ }
      rw [hcmd, Fifo.pop?_eq_some_iff.mp hpop]
      exact hmem
  | hciGet got sdc =>
      obtain ⟨-, rfl⟩ := Tasks.hciGet_eq hs
      exact { h with notify := handled_forwardable hM env got s.sdc }
  | enabled =>
      obtain ⟨writer, henabled, rfl⟩ := Option.map_eq_some_iff.mp hs
      obtain ⟨hw, rfl⟩ := WriterPc.enabled_eq_some_iff.mp henabled
      exact { h with finishing := h.finishing.of_ne (by rw [hw]; nofun) nofun }
  | receive =>
      obtain ⟨⟨writer, toHost⟩, hreceive, rfl⟩ := Option.map_eq_some_iff.mp hs
      obtain ⟨hw, pkt, -, rfl⟩ := WriterPc.receive_eq_some_iff.mp hreceive
      exact { h with finishing := h.finishing.of_ne (by rw [hw]; nofun) nofun }
  | writeEp =>
      obtain ⟨⟨writer, given⟩, hgiven, rfl⟩ := Option.map_eq_some_iff.mp hs
      obtain ⟨pkt, hw, ⟨-, rfl, rfl⟩ | ⟨-, rfl, rfl⟩⟩ := WriterPc.writeEp_cases hgiven
      · exact { h with finishing := h.finishing.writeEp (by rw [hw]; nofun) _ }
      · refine { h with finishing := ?_ }
        simp only [List.append_nil]
        exact h.finishing.of_ne (by rw [hw]; nofun) nofun
  | writeDone ok =>
      obtain ⟨writer, hdone, rfl⟩ := Option.map_eq_some_iff.mp hs
      obtain ⟨hw, rfl⟩ := WriterPc.writeDone_eq_some_iff.mp hdone
      have hfin := h.finishing
      rw [hw] at hfin
      exact { h with finishing := hfin.writeDone ok }

/-- **What the A→N ring shows.**  A frame that is taken is answered, if it is a command with an
arm. -/
theorem TasksInv.seeDown (h : TasksInv s) {e : BellEvent} (hs : s.seeDown env e = some s') :
    TasksInv s' := by
  cases e with
  | calls f =>
      obtain ⟨-, rfl⟩ := Tasks.seeDown_calls hs
      exact h
  | sent f ok =>
      rcases Tasks.seeDown_sent hs with ⟨data, -, -, rfl⟩ | ⟨cmd, -, -, rfl⟩
      · refine { h with acl := fun data' hdata => ?_ }
        cases hdata
      · exact { h with cmds := fun cmd hmem => h.cmds cmd (List.mem_append_right _ hmem) }
  | took f =>
      obtain ⟨-, rfl⟩ := Tasks.seeDown_took hs
      have hans := (rxFrame_outcome env f [] s.sdc).2.1
      rw [List.append_nil] at hans
      refine { h with notify := hans.forwardable, replies := ?_ }
      simp only [List.filterMap_append, List.map_append, List.filter_append, h.replies,
        hans.opcodes]
  | done =>
      obtain rfl := Tasks.seeDown_done hs
      exact h

/-- **What the N→A ring shows.** -/
theorem TasksInv.seeUp (h : TasksInv s) {e : BellEvent} (hs : s.seeUp e = some s') :
    TasksInv s' := by
  cases e with
  | calls f =>
      obtain ⟨-, rfl⟩ := Tasks.seeUp_calls hs
      exact h
  | sent f ok =>
      obtain ⟨rest, hn, rfl⟩ := Tasks.seeUp_sent hs
      have hnotify := h.notify
      rw [hn] at hnotify
      exact { h with notify := fun f' hf' => hnotify f' (List.mem_cons_of_mem _ hf') }
  | took f =>
      cases hs
      exact { h with }
  | done =>
      obtain ⟨-, rfl⟩ | ⟨pkt, toHost, -, -, rfl⟩ := Tasks.seeUp_done hs
      · exact h
      · exact { h with }

/-! ### Replies on their way -/

/-- The replies that the N→A ring took, or that are yet to be handed to it, are among those of the
dispatcher. -/
def Tasks.RepliesSent (s : Tasks σ) : Prop :=
  ((s.sent ++ s.notify).filterMap decodeReply).Sublist (s.replies.filterMap decodeReply)

/-- **The controller** has none of its own. -/
theorem Tasks.RepliesSent.step (h : s.RepliesSent) {a : TaskAct abi σ}
    (hgets : a.Gets HciGot.NoReply) (hs : s.step env a = some s') : s'.RepliesSent := by
  cases a with
  | controlOut req data =>
      cases hs
      exact h
  | aclOut data =>
      obtain ⟨-, hs⟩ := Option.ite_none_right_eq_some.mp hs
      cases hs
      exact h
  | hciGet got sdc =>
      obtain ⟨⟨hnil, -⟩, rfl⟩ := Tasks.hciGet_eq hs
      have hnone : (NetM.outcome env got.handle s.sdc).notified.filterMap decodeReply = [] :=
        List.filterMap_eq_nil_iff.mpr (HciGot.NoReply.handled hgets env s.sdc)
      rw [Tasks.RepliesSent, hnil, List.append_nil] at h
      rw [Tasks.RepliesSent, List.filterMap_append, hnone, List.append_nil]
      exact h
  | cmdReceive | enabled | receive | writeEp | writeDone ok =>
      obtain ⟨x, -, rfl⟩ := Option.map_eq_some_iff.mp hs
      exact h

/-- **The dispatcher's** are added when it answers. -/
theorem Tasks.RepliesSent.seeDown (h : s.RepliesSent) {e : BellEvent}
    (hs : s.seeDown env e = some s') : s'.RepliesSent := by
  cases e with
  | calls f =>
      obtain ⟨-, rfl⟩ := Tasks.seeDown_calls hs
      exact h
  | sent f ok =>
      rcases Tasks.seeDown_sent hs with ⟨data, -, -, rfl⟩ | ⟨cmd, -, -, rfl⟩ <;> exact h
  | took f =>
      obtain ⟨⟨hnil, -⟩, rfl⟩ := Tasks.seeDown_took hs
      rw [Tasks.RepliesSent, hnil, List.append_nil] at h
      simp only [Tasks.RepliesSent, List.filterMap_append]
      exact h.append (.refl _)
  | done =>
      obtain rfl := Tasks.seeDown_done hs
      exact h

/-- **The ring** takes them in their order, or refuses one. -/
theorem Tasks.RepliesSent.seeUp (h : s.RepliesSent) {e : BellEvent} (hs : s.seeUp e = some s') :
    s'.RepliesSent := by
  cases e with
  | calls f =>
      obtain ⟨-, rfl⟩ := Tasks.seeUp_calls hs
      exact h
  | sent f ok =>
      obtain ⟨rest, hn, rfl⟩ := Tasks.seeUp_sent hs
      rw [Tasks.RepliesSent, hn] at h
      cases ok with
      | true => simpa [Tasks.RepliesSent] using h
      | false =>
          refine List.Sublist.trans (List.Sublist.filterMap _ ?_) h
          exact (List.Sublist.refl _).append (List.sublist_cons_self _ _)
  | took f =>
      cases hs
      exact h
  | done =>
      obtain ⟨-, rfl⟩ | ⟨pkt, toHost, -, -, rfl⟩ := Tasks.seeUp_done hs <;> exact h

/-- **Every run**, whatever the rings show. -/
theorem repliesSent_of_reachable {a2n n2a : Ring} {sdc : σ} {rings : Wakeup × Wakeup}
    (h : (cores env a2n n2a sdc).ReachableBy (Around.Outer (TaskAct.Gets HciGot.NoReply))
      (rings, s)) : s.RepliesSent := by
  refine h.within_invariant (P := fun _ s => s.RepliesSent) .slnil ?_ ?_
  · intro rings a rings' s s' ih _ hk
    refine (tasks env sdc).seeAll_invariant ?_ ih hk
    rintro s (e | e) s' ih hs
    · exact ih.seeDown hs
    · exact ih.seeUp hs
  · exact fun rings s a s' hgets ih hs => ih.step hgets hs

end NrfHciUsb
