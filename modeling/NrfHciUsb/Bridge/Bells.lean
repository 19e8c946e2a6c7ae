import NrfHciUsb.Bridge.Cores

/-!
# Bridge — Bells

The tasks of both cores around two doorbells: each way, that of the commands and that of the events,
goes on as it does on its own (`CoresInv`).
-/

namespace NrfHciUsb
open Support

variable {abi : SdcAbi} {σ : Type} {env : NetEnv abi σ} {s s' : Tasks σ}

/-! ### The two ways -/

/-- The way of the commands, with the A→N ring in it. -/
def Tasks.down (s : Tasks σ) (a2n : Doorbell bufSize) : CommandPath :=
  ⟨s.cmds, s.cmd, a2n.queue, a2n.buf, s.accepted, s.dispatched, s.dropped⟩

/-- `ipc_recv_task`, with what it has read. -/
def ConsumerPc.recv (pkt : Option HciPacket) : ConsumerPc → RecvPc
  | .waiting => .waiting
  | .reading => .reading
  | .processing => .after pkt

/-- The way of the events, with the N→A ring in it. -/
def Tasks.up (s : Tasks σ) (n2a : Doorbell bufSize) : EventPath :=
  ⟨n2a.queue, n2a.event, n2a.pc.recv s.pkt, n2a.buf, s.toHost, s.writer, s.sent, s.written⟩

/-- Each way is as a step of its own leaves it, every frame in the A→N ring fits the buffer of
`ipc_rx_loop`, and the ACL data the ring took were put to the controller or are still in it. -/
structure CoresInv (abi : SdcAbi) (a2n n2a : Doorbell bufSize) (s : Tasks σ) : Prop where
  inv : TasksInv s
  down : (commandPath abi.hciMsgBufferMaxSize).Reachable (s.down a2n)
  up : EventInv (s.up n2a)
  short : ∀ f ∈ a2n.queue.items, f.length ≤ 1 + abi.hciMsgBufferMaxSize
  acl : s.aclSent = s.puts ++ a2n.queue.items.filterMap aclOf
  idle : n2a.pc ≠ .processing → s.pkt = none

theorem coresInv_init (env : NetEnv abi σ) (sdc : σ) :
    CoresInv abi (doorbell bufSize (rxBufOf abi)).init (doorbell bufSize recvBuf).init
      (tasks env sdc).init where
  inv := tasksInv_init env sdc
  down := .init _
  up := eventInv_init abi
  short := nofun
  acl := rfl
  idle _ := rfl

variable {a2n a2n' n2a n2a' : Doorbell bufSize}

/-- **Away from the rings.** -/
theorem CoresInv.step (hhi : abi.hciMsgBufferMaxSize ≤ maxHciPayload)
    (h : CoresInv abi a2n n2a s) {a : TaskAct abi σ} (hs : s.step env a = some s') :
    CoresInv abi a2n n2a s' := by
  have htasks := h.inv.step hhi hs
  cases a with
  | controlOut req data =>
      cases hs
      by_cases hlen : data.length ≤ controlBufLen
      · exact { h with
          inv := htasks
          down := h.down.step (a := .controlOut req data)
            ((s.down a2n).step_controlStage req hlen) }
      · have hsame := (s.down a2n).controlStage_rejected req hlen
        refine { h with inv := htasks, down := ?_ }
        show (commandPath _).Reachable ((s.down a2n).controlStage req data)
        rw [hsame]
        exact h.down
  | aclOut data =>
      obtain ⟨-, hs⟩ := Option.ite_none_right_eq_some.mp hs
      cases hs
      exact { h with inv := htasks }
  | cmdReceive =>
      obtain ⟨⟨cmd, cmds⟩, htake, rfl⟩ := Option.map_eq_some_iff.mp hs
      refine { h with inv := htasks, down := h.down.step (a := .cmdReceive) ?_ }
      simp [commandPath, CommandPath.step, Tasks.down, htake]
  | hciGet got sdc =>
      obtain ⟨-, rfl⟩ := Tasks.hciGet_eq hs
      exact { h with inv := htasks }
  | enabled =>
      obtain ⟨writer, henabled, rfl⟩ := Option.map_eq_some_iff.mp hs
      refine { h with inv := htasks, up := h.up.step hhi (a := .enabled) ?_ }
      simp [EventPath.step, Tasks.up, henabled]
  | receive =>
      obtain ⟨⟨writer, toHost⟩, hreceive, rfl⟩ := Option.map_eq_some_iff.mp hs
      refine { h with inv := htasks, up := h.up.step hhi (a := .receive) ?_ }
      simp [EventPath.step, Tasks.up, hreceive]
  | writeEp =>
      obtain ⟨⟨writer, given⟩, hgiven, rfl⟩ := Option.map_eq_some_iff.mp hs
      refine { h with inv := htasks, up := h.up.step hhi (a := .writeEp) ?_ }
      simp [EventPath.step, Tasks.up, hgiven]
  | writeDone ok =>
      obtain ⟨writer, hdone, rfl⟩ := Option.map_eq_some_iff.mp hs
      refine { h with inv := htasks, up := h.up.step hhi (a := .writeDone ok) ?_ }
      simp [EventPath.step, Tasks.up, hdone]

/-- A packet goes into the A→N ring, or there is no room for it. -/
theorem CoresInv.sentDown (hlo : controlBufLen ≤ abi.hciMsgBufferMaxSize)
    (h : CoresInv abi a2n n2a s) {packet : List UInt8}
    (hs : s.seeDown env (.sent packet (a2n.queue.send packet).1) = some s')
    (call : Option (List UInt8)) (ev : Bool) : CoresInv abi
      { a2n with queue := (a2n.queue.send packet).2, call := call, event := ev } n2a s' := by
  have htasks := h.inv.seeDown hs
  have hpacket : usbPacketSize ≤ controlBufLen := by decide
  have hshort : packet.length ≤ 1 + abi.hciMsgBufferMaxSize →
      ∀ f ∈ (a2n.queue.send packet).2.items, f.length ≤ 1 + abi.hciMsgBufferMaxSize := by
    intro hlen f hf
    rcases a2n.queue.send_cases packet with ⟨-, hitems⟩ | ⟨-, hsame, -⟩
    · rw [hitems] at hf
      rcases List.mem_append.mp hf with hf | hf
      · exact h.short f hf
      · rw [List.mem_singleton.mp hf]
        exact hlen
    · rw [hsame] at hf
      exact h.short f hf
  rcases Tasks.seeDown_sent hs with ⟨data, hdata, rfl, rfl⟩ | ⟨cmd, hcmd, rfl, rfl⟩
  · have hlen := h.inv.acl data hdata
    refine ⟨htasks, h.down.step (a := .aclOut data) ?_, h.up, hshort ?_, ?_, h.idle⟩
    · have hmax : usbPacketSize ≤ maxAclLen := by decide
      exact if_pos (hlen.trans hmax)
    · rw [aclPkt_eq, List.length_cons]
      omega
    · rcases a2n.queue.send_cases (aclPkt data) with ⟨hok, hitems⟩ | ⟨hok, hsame, -⟩
      · simp [hok, hitems, h.acl, aclOf_aclPkt]
      · simp [hok, hsame, h.acl]
  · have hlen := h.inv.cmds cmd (by simp [hcmd])
    refine ⟨htasks, h.down.step (a := .cmdSend) ?_, h.up, hshort ?_, ?_, h.idle⟩
    · simp [commandPath, CommandPath.step, Tasks.down, hcmd]
    · rw [cmdPkt_eq, List.length_cons]
      omega
    · rcases a2n.queue.send_cases (cmdPkt cmd) with ⟨hok, hitems⟩ | ⟨hok, hsame, -⟩
      · simp [hitems, h.acl, aclOf_cmdPkt]
      · simp [hsame, h.acl]

/-- The body of `ipc_rx_loop` runs on the first frame of the ring. -/
theorem CoresInv.tookDown (h : CoresInv abi a2n n2a s) {f : List UInt8} {ring : FrameQueue bufSize}
    (hitems : a2n.queue.items = f :: ring.items)
    (hrecv : a2n.queue.recv a2n.buf = (received f a2n.buf, ring))
    (hs : s.seeDown env (.took f) = some s') (pc : ConsumerPc) :
    CoresInv abi { a2n with queue := ring, buf := (received f a2n.buf).2, pc := pc } n2a s' := by
  have htasks := h.inv.seeDown hs
  have hbuf := (conserved_of_reachable h.down).rxBuf
  have hlen : f.length ≤ a2n.buf.length := by
    rw [show a2n.buf.length = 1 + abi.hciMsgBufferMaxSize from hbuf]
    exact h.short f (by rw [hitems]; simp)
  have hrec : received f a2n.buf = (some f.length, f ++ a2n.buf.drop f.length) := if_pos hlen
  have hputs := (rxFrame_outcome env f [] s.sdc).1
  rw [List.append_nil] at hputs
  obtain ⟨-, rfl⟩ := Tasks.seeDown_took hs
  refine ⟨htasks, h.down.step (a := .netRead) ?_, h.up, ?_, ?_, h.idle⟩
  · simp [commandPath, CommandPath.step, Tasks.down, hrecv, hrec]
  · intro f' hf'
    exact h.short f' (by rw [hitems]; exact List.mem_cons_of_mem _ hf')
  · have hacl := h.acl
    rw [hitems] at hacl
    simp only [hacl, hputs, List.append_assoc]
    cases hf : aclOf f <;> simp [hf]

/-- **The A→N ring.** -/
theorem CoresInv.stepDown (hlo : controlBufLen ≤ abi.hciMsgBufferMaxSize)
    (h : CoresInv abi a2n n2a s) {a : BellAct} (ht : a2n.step a = some a2n') {sdc : σ}
    (hk : (tasks env sdc).seeAll s ((a2n.shows a).map .inl) = some s') :
    CoresInv abi a2n' n2a s' := by
  cases a with
  | call packet =>
      obtain ⟨-, ht⟩ := Option.ite_none_right_eq_some.mp ht
      cases ht
      rw [Doorbell.shows, List.map_singleton, tasks_seeDown] at hk
      obtain ⟨-, rfl⟩ := Tasks.seeDown_calls hk
      exact { h with }
  | send =>
      obtain ⟨packet, hcall, rfl⟩ := Option.map_eq_some_iff.mp ht
      rw [Doorbell.shows, hcall, Option.toList_some, List.map_singleton, List.map_singleton,
        tasks_seeDown] at hk
      exact h.sentDown hlo hk none _
  | wait =>
      obtain ⟨-, ht⟩ := Option.ite_none_right_eq_some.mp ht
      cases ht
      cases hk
      exact { h with }
  | read =>
      obtain ⟨-, ht⟩ := Option.ite_none_right_eq_some.mp ht
      cases ht
      rw [Doorbell.shows] at hk
      rcases a2n.queue.recv_cases a2n.buf with ⟨-, hrecv⟩ | ⟨f, ring, hitems, hrecv⟩
      · rw [hrecv] at hk ⊢
        cases hk
        exact { h with }
      · have hbuf := (conserved_of_reachable h.down).rxBuf
        have hlen : f.length ≤ a2n.buf.length := by
          rw [show a2n.buf.length = 1 + abi.hciMsgBufferMaxSize from hbuf]
          exact h.short f (by rw [hitems]; simp)
        rw [hrecv, tookBack_received hlen, List.map_singleton, tasks_seeDown] at hk
        rw [hrecv]
        exact h.tookDown hitems hrecv hk _
  | processed =>
      obtain ⟨-, ht⟩ := Option.ite_none_right_eq_some.mp ht
      cases ht
      rw [Doorbell.shows, List.map_singleton, tasks_seeDown] at hk
      obtain rfl := Tasks.seeDown_done hk
      exact { h with }

/-- What is behind a frame in the buffer does not matter. -/
theorem HciPacket.ofRead_append (f stale : List UInt8) :
    HciPacket.ofRead (f ++ stale) f.length = HciPacket.ofRead f f.length := by
  by_cases hf : 0 < f.length
  · have hhead : (f ++ stale).getD 0 0 = f.getD 0 0 := getD_append_left hf
    have htail : ((f ++ stale).drop 1).take (min (f.length - 1) maxHciPayload) =
        (f.drop 1).take (min (f.length - 1) maxHciPayload) := by
      rw [List.drop_append_of_le_length (by omega), List.take_append_of_le_length (by simp)]
    simp only [HciPacket.ofRead, HciPacket.ofBuf, hhead, htail]
  · rw [HciPacket.ofRead, if_neg hf, HciPacket.ofRead, if_neg hf]

/-- A frame goes into the N→A ring, or there is no room for it. -/
theorem CoresInv.sentUp (h : CoresInv abi a2n n2a s) {packet : List UInt8}
    (hs : s.seeUp (.sent packet (n2a.queue.send packet).1) = some s')
    (call : Option (List UInt8)) : CoresInv abi a2n { n2a with
      queue := (n2a.queue.send packet).2
      call := call
      event := n2a.event || (n2a.queue.send packet).1 } s' := by
  have htasks := h.inv.seeUp hs
  obtain ⟨rest, hn, rfl⟩ := Tasks.seeUp_sent hs
  have hup := h.up.notifyApp (h.inv.notify packet (by rw [hn]; simp))
  refine { h with inv := htasks, up := ?_ }
  rw [EventPath.notifyApp] at hup
  rcases n2a.queue.send_cases packet with ⟨hok, -⟩ | ⟨hok, hsame, -⟩
  · simpa [Tasks.up, hok] using hup
  · simpa [Tasks.up, hok, hsame] using hup

/-- **The N→A ring.** -/
theorem CoresInv.stepUp (hhi : abi.hciMsgBufferMaxSize ≤ maxHciPayload)
    (h : CoresInv abi a2n n2a s) {a : BellAct} (ht : n2a.step a = some n2a') {sdc : σ}
    (hk : (tasks env sdc).seeAll s ((n2a.shows a).map .inr) = some s') :
    CoresInv abi a2n n2a' s' := by
  cases a with
  | call packet =>
      obtain ⟨-, ht⟩ := Option.ite_none_right_eq_some.mp ht
      cases ht
      rw [Doorbell.shows, List.map_singleton, tasks_seeUp] at hk
      obtain ⟨-, rfl⟩ := Tasks.seeUp_calls hk
      exact { h with }
  | send =>
      obtain ⟨packet, hcall, rfl⟩ := Option.map_eq_some_iff.mp ht
      rw [Doorbell.shows, hcall, Option.toList_some, List.map_singleton, List.map_singleton,
        tasks_seeUp] at hk
      exact h.sentUp hk none
  | wait =>
      obtain ⟨⟨hpc, hev⟩, ht⟩ := Option.ite_none_right_eq_some.mp ht
      cases ht
      cases hk
      refine { h with
        up := h.up.step hhi (a := .recvWait) ?_
        idle := fun _ => h.idle (by simp [hpc]) }
      simp [EventPath.step, Tasks.up, ConsumerPc.recv, hpc, hev]
  | read =>
      obtain ⟨hpc, ht⟩ := Option.ite_none_right_eq_some.mp ht
      cases ht
      rw [Doorbell.shows] at hk
      have hidle := h.idle (by simp [hpc])
      -- a read that gets nothing
      have hnone : ∀ ring : FrameQueue bufSize, n2a.queue.recv n2a.buf = ((none, n2a.buf), ring) →
          CoresInv abi a2n { n2a with queue := ring, pc := .waiting } s := by
        intro ring hrecv
        refine { h with
          up := h.up.step hhi (a := .recvRead) ?_
          idle := fun _ => hidle }
        simp [EventPath.step, Tasks.up, ConsumerPc.recv, hpc, hrecv]
      rcases n2a.queue.recv_cases n2a.buf with ⟨-, hrecv⟩ | ⟨f, ring, -, hrecv⟩
      · rw [hrecv] at hk ⊢
        cases hk
        exact hnone _ hrecv
      · by_cases hlen : f.length ≤ n2a.buf.length
        · rw [hrecv, tookBack_received hlen, List.map_singleton, tasks_seeUp] at hk
          rw [hrecv, after_received hlen]
          have htasks := h.inv.seeUp hk
          have hrec : received f n2a.buf = (some f.length, f ++ n2a.buf.drop f.length) :=
            if_pos hlen
          cases hk
          refine { h with
            inv := htasks
            up := h.up.step hhi (a := .recvRead) ?_
            idle := by simp }
          simp [EventPath.step, Tasks.up, ConsumerPc.recv, hpc, hrecv, hrec,
            HciPacket.ofRead_append]
        · have hrec : received f n2a.buf = (none, n2a.buf) := if_neg hlen
          rw [hrec] at hrecv
          rw [hrecv] at hk ⊢
          cases hk
          exact hnone _ hrecv
  | processed =>
      obtain ⟨hpc, ht⟩ := Option.ite_none_right_eq_some.mp ht
      cases ht
      rw [Doorbell.shows, List.map_singleton, tasks_seeUp] at hk
      have htasks := h.inv.seeUp hk
      obtain ⟨hpkt, rfl⟩ | ⟨pkt, toHost, hpkt, hpush, rfl⟩ := Tasks.seeUp_done hk
      · -- an empty frame, of which `ipc_recv_task` makes no packet
        have hup : s.up { n2a with pc := .reading } = s.up n2a := by
          simp [Tasks.up, ConsumerPc.recv, RecvPc.after, hpc, hpkt]
        exact { h with up := by rw [hup]; exact h.up, idle := fun _ => hpkt }
      · refine { h with
          inv := htasks
          up := h.up.step hhi (a := .recvSend) ?_
          idle := fun _ => rfl }
        simp [EventPath.step, Tasks.up, ConsumerPc.recv, RecvPc.after, hpc, hpkt, hpush]

/-- **Every run** around the doorbells. -/
theorem coresInv_of_reachable (hlo : controlBufLen ≤ abi.hciMsgBufferMaxSize)
    (hhi : abi.hciMsgBufferMaxSize ≤ maxHciPayload) {sdc : σ}
    {bells : Doorbell bufSize × Doorbell bufSize}
    (h : (bellCores env sdc).Reachable (bells, s)) : CoresInv abi bells.1 bells.2 s := by
  refine h.within_invariant (P := fun bells s => CoresInv abi bells.1 bells.2 s)
    (coresInv_init env sdc) ?_ ?_
  · rintro bells (a | a) bells' s s' ih hs hk
    · obtain ⟨t, ht, rfl⟩ := Option.map_eq_some_iff.mp hs
      exact ih.stepDown hlo ht hk
    · obtain ⟨t, ht, rfl⟩ := Option.map_eq_some_iff.mp hs
      exact ih.stepUp hhi ht hk
  · intro bells s a s' ih hs
    exact ih.step hhi hs

end NrfHciUsb
