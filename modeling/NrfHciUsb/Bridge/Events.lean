import NrfHciUsb.App.Usb
import NrfHciUsb.Ipc.Queue
import NrfHciUsb.Net.EventLoop
import NrfHciUsb.Net.Replies
import NrfHciUsb.Support.Machine

/-!
# Bridge — Events

The way of an event or ACL packet to the host: from `sdc_event_loop` or the dispatcher through the
N→A ring, `ipc_recv_task`, `NET_TO_HOST` and `usb_write_task` to an endpoint.

`events_conserved`: the packets whose `notify_app` found room are, in order and byte for byte,
those given to `write_ep`, that in the hands of `usb_write_task`, those in the channel, that in the
hands of `ipc_recv_task`, and those in the ring.
-/

namespace NrfHciUsb
open Support

/-- `ipc_recv_task`: in `event.wait()`, about to read the ring, or in `NET_TO_HOST.send(pkt)`. -/
inductive RecvPc where
  | waiting
  | reading
  | sending (pkt : HciPacket)

/-- `usb_write_task`: in `wait_enabled()`, in `NET_TO_HOST.receive()`, with a packet it has
received, or in `write_ep`. -/
inductive WriterPc where
  | disabled
  | receiving
  | holding (pkt : HciPacket)
  | writing

/-- `ipc_recv_task` after a read that got something, of which it has made a packet or nothing. -/
def RecvPc.after : Option HciPacket → RecvPc
  | some pkt => .sending pkt
  | none => .reading

/-! ### `usb_write_task` -/

/-- The endpoint is enabled. -/
def WriterPc.enabled : WriterPc → Option WriterPc
  | .disabled => some .receiving
  | _ => none

/-- The first packet of the channel is received. -/
def WriterPc.receive (channel : Channel HciPacket) :
    WriterPc → Option (WriterPc × Channel HciPacket)
  | .receiving => channel.pop?.map fun (pkt, channel) => (.holding pkt, channel)
  | _ => none

/-- The packet goes to `write_ep`, here behind its indicator, or is of no endpoint. -/
def WriterPc.writeEp : WriterPc → Option (WriterPc × List (List UInt8))
  | .holding pkt =>
      if pkt.indicator = 0x04 ∨ pkt.indicator = 0x02 then
        some (.writing, [pkt.indicator :: pkt.bytes])
      else some (.receiving, [])
  | _ => none

/-- `write_ep` returns. -/
def WriterPc.writeDone (ok : Bool) : WriterPc → Option WriterPc
  | .writing => some (if ok then .receiving else .disabled)
  | _ => none

theorem WriterPc.enabled_eq_some_iff {w w' : WriterPc} :
    w.enabled = some w' ↔ w = .disabled ∧ w' = .receiving := by
  cases w <;> simp [enabled, eq_comm]

theorem WriterPc.receive_eq_some_iff {w w' : WriterPc} {channel channel' : Channel HciPacket} :
    w.receive channel = some (w', channel') ↔
      w = .receiving ∧ ∃ pkt, channel.pop? = some (pkt, channel') ∧ w' = .holding pkt := by
  cases w <;> simp [receive, eq_comm, and_comm]

theorem WriterPc.writeEp_cases {w w' : WriterPc} {given : List (List UInt8)}
    (h : w.writeEp = some (w', given)) : ∃ pkt, w = .holding pkt ∧
      ((pkt.indicator = 0x04 ∨ pkt.indicator = 0x02) ∧ w' = .writing ∧
          given = [pkt.indicator :: pkt.bytes] ∨
        ¬ (pkt.indicator = 0x04 ∨ pkt.indicator = 0x02) ∧ w' = .receiving ∧ given = []) := by
  cases w with
  | disabled | receiving | writing => cases h
  | holding pkt =>
      rw [writeEp] at h
      split at h
      · rename_i hknown
        cases h
        exact ⟨pkt, rfl, .inl ⟨hknown, rfl, rfl⟩⟩
      · rename_i hknown
        cases h
        exact ⟨pkt, rfl, .inr ⟨hknown, rfl, rfl⟩⟩

theorem WriterPc.writeDone_eq_some_iff {ok : Bool} {w w' : WriterPc} :
    w.writeDone ok = some w' ↔ w = .writing ∧ w' = if ok then .receiving else .disabled := by
  cases w <;> simp [writeDone, eq_comm]

/-- What the host has got when `write_ep` returns: the packet written last, unless it failed. -/
def gotAfter (ok : Bool) (written got : List (List UInt8)) : List (List UInt8) :=
  if ok then got ++ written.getLast?.toList else got

def failedAfter (ok : Bool) (failed : ℕ) : ℕ := if ok then failed else failed + 1

/-! ### The path -/

/-- The N→A ring with its event, and the tasks of the app core.  Since the start, `sent` lists the
packets whose `notify_app` found room and `written` those given to `write_ep`, each behind its
indicator. -/
structure EventPath where
  ring : FrameQueue bufSize
  event : Bool
  recv : RecvPc
  recvBuf : List UInt8
  channel : Channel HciPacket
  writer : WriterPc
  sent : List (List UInt8)
  written : List (List UInt8)

/-- The next thing to happen: `hci_get` leaves the packet `p` in front of what is left in its
buffer, the dispatcher replies, or one of the tasks goes on. -/
inductive EventAct where
  | hciGet (kind : PacketKind) (p stale : List UInt8)
  | ccEvent (opcode : UInt16) (status : UInt8) (returnData : List UInt8)
  | csEvent (opcode : UInt16) (status : UInt8)
  | recvWait
  | recvRead
  | recvSend
  | enabled
  | receive
  | writeEp
  | writeDone (ok : Bool)

/-- `notify_app(pkt)`, called for `packet`. -/
def EventPath.notifyApp (s : EventPath) (packet pkt : List UInt8) : EventPath :=
  let r := s.ring.send pkt
  if r.1 then { s with ring := r.2, event := true, sent := s.sent ++ [packet] } else s

/-- The calls of `notify_app` that a program makes for `packet`. -/
def EventPath.notifyBy (abi : SdcAbi) (s : EventPath) (packet : List UInt8) (x : NetM abi Unit) :
    EventPath :=
  (notified (NetM.effects (NetEnv.zeros abi) x ())).foldl (fun s pkt => s.notifyApp packet pkt) s

def EventPath.step (abi : SdcAbi) (s : EventPath) : EventAct → Option EventPath
  | .hciGet kind p stale =>
      if kind.WellFormed p ∧ p.length + stale.length = abi.hciMsgBufferMaxSize then
        some (s.notifyBy abi (kind.indicator.toList ++ p) (sdcForward kind (p ++ stale)))
      else none
  | .ccEvent opcode status returnData =>
      some (s.notifyBy abi (ccFrame opcode status returnData)
        (sendCcEvent opcode status returnData))
  | .csEvent opcode status =>
      some (s.notifyBy abi (csFrame opcode status) (sendCsEvent opcode status))
  | .recvWait =>
      match s.recv with
      | .waiting => if s.event then some { s with event := false, recv := .reading } else none
      | _ => none
  | .recvRead =>
      match s.recv with
      | .reading =>
          let r := s.ring.recv s.recvBuf
          some { s with
            ring := r.2
            recvBuf := r.1.2
            recv := match r.1.1 with
              | some n => .after (HciPacket.ofRead r.1.2 n)
              | none => .waiting }
      | _ => none
  | .recvSend =>
      match s.recv with
      | .sending pkt =>
          -- a full channel blocks the task here
          (s.channel.push? pkt).map fun channel => { s with channel := channel, recv := .reading }
      | _ => none
  | .enabled => s.writer.enabled.map fun writer => { s with writer := writer }
  | .receive => (s.writer.receive s.channel).map fun (writer, channel) =>
      { s with channel := channel, writer := writer }
  | .writeEp => s.writer.writeEp.map fun (writer, given) =>
      { s with writer := writer, written := s.written ++ given }
  | .writeDone ok => (s.writer.writeDone ok).map fun writer => { s with writer := writer }

def eventPath (abi : SdcAbi) : Machine EventPath EventAct where
  init := ⟨Fifo.empty, false, .waiting, List.replicate (1 + maxHciPayload) 0, Fifo.empty,
    .disabled, [], []⟩
  step := EventPath.step abi

/-! ### Where the packets are -/

/-- A packet behind its indicator. -/
def HciPacket.frame (pkt : HciPacket) : List UInt8 := pkt.indicator :: pkt.bytes

/-- What `ipc_recv_task` has read and not yet sent on. -/
def RecvPc.hand : RecvPc → List (List UInt8)
  | .sending pkt => [pkt.frame]
  | .waiting | .reading => []

/-- What `usb_write_task` has received and not yet given to `write_ep`. -/
def WriterPc.hand : WriterPc → List (List UInt8)
  | .holding pkt => [pkt.frame]
  | .disabled | .receiving | .writing => []

/-- The places of a packet, from the endpoint back to the net core. -/
def EventPath.places (s : EventPath) : List (List UInt8) :=
  s.written ++ s.writer.hand ++ s.channel.items.map HciPacket.frame ++ s.recv.hand ++ s.ring.items

/-- What can be on its way: an event or ACL data of at most `MAX_HCI_PAYLOAD` bytes. -/
def Forwardable (f : List UInt8) : Prop :=
  ∃ indicator p, f = indicator :: p ∧ (indicator = 0x04 ∨ indicator = 0x02) ∧
    p.length ≤ maxHciPayload

theorem forwardable_ccFrame (opcode : UInt16) (status : UInt8) (returnData : List UInt8) :
    Forwardable (ccFrame opcode status returnData) := by
  refine ⟨_, _, rfl, .inl rfl, ?_⟩
  show (_ ++ returnData.take 64).length ≤ 1024
  rw [List.length_append, List.length_take]
  simp only [List.length_cons, List.length_nil]
  omega

theorem forwardable_csFrame (opcode : UInt16) (status : UInt8) :
    Forwardable (csFrame opcode status) :=
  ⟨_, _, rfl, .inl rfl, by simp [maxHciPayload, maxAclLen]⟩

/-- A frame that can be on its way is taken from the buffer as it is. -/
theorem Forwardable.ofBuf {f : List UInt8} (h : Forwardable f) (stale : List UInt8) :
    (HciPacket.ofBuf (f ++ stale) f.length).frame = f := by
  obtain ⟨indicator, p, rfl, -, hp⟩ := h
  rw [HciPacket.frame, HciPacket.ofBuf_bytes indicator stale hp]
  rfl

/-! ### The invariant -/

/-- The packets sent are those in their places, and each can be on its way. -/
structure EventInv (s : EventPath) : Prop where
  recvBuf : s.recvBuf.length = 1 + maxHciPayload
  forwardable : ∀ f ∈ s.sent, Forwardable f
  order : s.sent = s.places

theorem eventInv_init (abi : SdcAbi) : EventInv (eventPath abi).init where
  recvBuf := List.length_replicate
  forwardable := nofun
  order := rfl

variable {abi : SdcAbi} {s s' : EventPath}

/-- A step that only moves packets on. -/
theorem EventInv.move (h : EventInv s) (hbuf : s'.recvBuf.length = 1 + maxHciPayload)
    (hsent : s'.sent = s.sent) (hplaces : s'.places = s.places) : EventInv s' where
  recvBuf := hbuf
  forwardable := by
    rw [hsent]
    exact h.forwardable
  order := by rw [hsent, hplaces, h.order]

/-- A packet handed over goes behind those in the ring, or is dropped whole. -/
theorem EventInv.notifyApp (h : EventInv s) {packet : List UInt8} (hf : Forwardable packet) :
    EventInv (s.notifyApp packet packet) := by
  rw [EventPath.notifyApp]
  rcases s.ring.send_cases packet with ⟨hok, hitems⟩ | ⟨hok, -⟩
  · simp only [hok, if_true]
    refine ⟨h.recvBuf, ?_, ?_⟩
    · intro f hmem
      rcases List.mem_append.mp hmem with hmem | hmem
      · exact h.forwardable f hmem
      · rw [List.mem_singleton.mp hmem]
        exact hf
    · simp [EventPath.places, hitems, h.order]
  · simp only [hok]
    exact h

theorem EventInv.notifyBy (h : EventInv s) {packet : List UInt8} (hf : Forwardable packet)
    {x : NetM abi Unit} (hx : x = NrfHciUsb.notifyApp packet) :
    EventInv (s.notifyBy abi packet x) := by
  subst hx
  exact h.notifyApp hf

/-- **The net core.**  A well-formed packet is handed over as it is. -/
theorem EventInv.hciGet (h : EventInv s) (hM : abi.hciMsgBufferMaxSize ≤ maxHciPayload)
    {kind : PacketKind} {p stale : List UInt8}
    (hs : s.step abi (.hciGet kind p stale) = some s') : EventInv s' := by
  obtain ⟨⟨hwf, hlen⟩, hs⟩ := Option.ite_none_right_eq_some.mp hs
  cases hs
  cases hk : kind.indicator with
  | none =>
      have hpure : (sdcForward kind (p ++ stale) : NetM abi Unit) = pure () := by
        rw [sdcForward, hk]
      rw [hpure]
      exact h
  | some indicator =>
      refine h.notifyBy ⟨indicator, p, rfl, ?_, by omega⟩ (sdcForward_eq stale hk hwf (by omega))
      cases kind <;> cases hk
      · exact .inr rfl
      · exact .inl rfl

/-- **The receiving task.**  It takes the first frame of the ring as it is. -/
theorem EventInv.recvRead (h : EventInv s) (hs : s.step abi .recvRead = some s') :
    EventInv s' := by
  rw [EventPath.step] at hs
  cases hrecv : s.recv with
  | waiting | sending pkt => rw [hrecv] at hs; cases hs
  | reading =>
      rw [hrecv] at hs
      rcases s.ring.recv_cases s.recvBuf with ⟨hnil, hrec⟩ | ⟨f, ring, hitems, hrec⟩
      · simp only [hrec, Option.some.injEq] at hs
        cases hs
        exact h.move h.recvBuf rfl (by simp [EventPath.places, hrecv, RecvPc.hand])
      · have hf : Forwardable f := h.forwardable f (by
          rw [h.order, EventPath.places, hitems]
          simp)
        obtain ⟨indicator, p, hfp, -, hp⟩ := id hf
        have hflen : f.length = 1 + p.length := by rw [hfp, List.length_cons, Nat.add_comm]
        have hbuf := h.recvBuf
        have hreceived : received f s.recvBuf = (some f.length, f ++ s.recvBuf.drop f.length) :=
          if_pos (by omega)
        simp only [hrec, hreceived, Option.some.injEq] at hs
        rw [HciPacket.ofRead, if_pos (by omega)] at hs
        cases hs
        refine h.move ?_ rfl ?_
        · simp only [List.length_append, List.length_drop]
          omega
        · simp [EventPath.places, hrecv, RecvPc.after, RecvPc.hand, hitems, hf.ofBuf]

/-- What `usb_write_task` holds has an indicator it knows. -/
theorem EventInv.holding_known (h : EventInv s) {pkt : HciPacket} (hw : s.writer = .holding pkt) :
    pkt.indicator = 0x04 ∨ pkt.indicator = 0x02 := by
  obtain ⟨indicator, p, hf, hind, -⟩ := h.forwardable pkt.frame (by
    rw [h.order, EventPath.places, hw]
    simp [WriterPc.hand])
  rw [HciPacket.frame] at hf
  rwa [(List.cons.inj hf).1]

/-- **The writing task.**  It writes what it holds. -/
theorem EventInv.writeEp (h : EventInv s) (hs : s.step abi .writeEp = some s') : EventInv s' := by
  obtain ⟨⟨writer, given⟩, hgiven, rfl⟩ := Option.map_eq_some_iff.mp hs
  obtain ⟨pkt, hw, ⟨-, rfl, rfl⟩ | ⟨hnot, -, -⟩⟩ := WriterPc.writeEp_cases hgiven
  · exact h.move h.recvBuf rfl (by simp [EventPath.places, hw, WriterPc.hand, HciPacket.frame])
  · exact absurd (h.holding_known hw) hnot

/-- **One step** keeps the invariant. -/
theorem EventInv.step (hM : abi.hciMsgBufferMaxSize ≤ maxHciPayload) (h : EventInv s)
    {a : EventAct} (hs : s.step abi a = some s') : EventInv s' := by
  cases a with
  | hciGet kind p stale => exact h.hciGet hM hs
  | ccEvent opcode status returnData =>
      cases hs
      exact h.notifyBy (forwardable_ccFrame _ _ _) (sendCcEvent_eq _ _ _)
  | csEvent opcode status =>
      cases hs
      exact h.notifyBy (forwardable_csFrame _ _) rfl
  | recvRead => exact h.recvRead hs
  | writeEp => exact h.writeEp hs
  | recvWait =>
      rw [EventPath.step] at hs
      cases hrecv : s.recv with
      | reading | sending pkt => rw [hrecv] at hs; cases hs
      | waiting =>
          rw [hrecv] at hs
          obtain ⟨-, hs⟩ := Option.ite_none_right_eq_some.mp hs
          cases hs
          exact h.move h.recvBuf rfl (by simp [EventPath.places, hrecv, RecvPc.hand])
  | recvSend =>
      rw [EventPath.step] at hs
      cases hrecv : s.recv with
      | waiting | reading => rw [hrecv] at hs; cases hs
      | sending pkt =>
          rw [hrecv] at hs
          obtain ⟨channel, hpush, rfl⟩ := Option.map_eq_some_iff.mp hs
          refine h.move h.recvBuf rfl ?_
          simp [EventPath.places, hrecv, RecvPc.hand, (Fifo.push?_eq_some_iff.mp hpush).2]
  | enabled =>
      obtain ⟨writer, henabled, rfl⟩ := Option.map_eq_some_iff.mp hs
      obtain ⟨hw, rfl⟩ := WriterPc.enabled_eq_some_iff.mp henabled
      exact h.move h.recvBuf rfl (by simp [EventPath.places, hw, WriterPc.hand])
  | receive =>
      obtain ⟨⟨writer, channel⟩, hreceive, rfl⟩ := Option.map_eq_some_iff.mp hs
      obtain ⟨hw, pkt, hpop, rfl⟩ := WriterPc.receive_eq_some_iff.mp hreceive
      refine h.move h.recvBuf rfl ?_
      simp [EventPath.places, hw, WriterPc.hand, Fifo.pop?_eq_some_iff.mp hpop]
  | writeDone ok =>
      obtain ⟨writer, hdone, rfl⟩ := Option.map_eq_some_iff.mp hs
      obtain ⟨hw, rfl⟩ := WriterPc.writeDone_eq_some_iff.mp hdone
      refine h.move h.recvBuf rfl ?_
      cases ok <;> simp [EventPath.places, hw, WriterPc.hand]

/-- **Conservation.**  If the controller's buffer is no larger than the payload of a packet, then in
every reachable state the packets handed over are those given to `write_ep`, the one
`usb_write_task` holds, those in the channel, the one `ipc_recv_task` holds and those in the ring,
in this order and byte for byte. -/
theorem events_conserved (abi : SdcAbi) (hM : abi.hciMsgBufferMaxSize ≤ maxHciPayload)
    (s : EventPath) (h : (eventPath abi).Reachable s) :
    s.sent = s.written ++ s.writer.hand ++ s.channel.items.map HciPacket.frame ++ s.recv.hand ++
      s.ring.items :=
  (h.invariant (eventInv_init abi) fun _ _ _ ih hs => ih.step hM hs).order

/-! ### Runs -/

/-- An event of two bytes with the event code `code`, in front of 256 stale bytes. -/
def getEvent (code : UInt8) : EventAct := .hciGet .event [code, 0x00] (List.replicate 256 0xFF)

/-- An event and a reply, the first of them through to `write_ep`. -/
theorem events_conserved_reply :
    ∃ s, (eventPath someAbi).run
        [getEvent 0x3E, .ccEvent 0x0C03 0x00 [], .recvWait, .recvRead, .recvSend, .enabled,
          .receive, .writeEp, .writeDone true] = some s ∧
      s.sent = [[0x04, 0x3E, 0x00], [0x04, 0x0E, 0x04, 0x01, 0x03, 0x0C, 0x00]] ∧
      s.sent = [[0x04, 0x3E, 0x00]] ++ s.writer.hand ++ s.channel.items.map HciPacket.frame ++
        s.recv.hand ++ s.ring.items := by
  obtain ⟨s, hs, hsent, hwritten⟩ := (eventPath someAbi).exists_of_run
    [getEvent 0x3E, .ccEvent 0x0C03 0x00 [], .recvWait, .recvRead, .recvSend, .enabled,
      .receive, .writeEp, .writeDone true]
    (fun s => s.sent = [[0x04, 0x3E, 0x00], [0x04, 0x0E, 0x04, 0x01, 0x03, 0x0C, 0x00]] ∧
      s.written = [[0x04, 0x3E, 0x00]]) (by decide +kernel)
  have h := events_conserved someAbi (by decide) s ⟨_, hs⟩
  rw [hwritten] at h
  exact ⟨s, hs, hsent, h⟩

/-- **The hands are not in front of the channel.**  Five events before the host is there: four are
in the channel, and the fifth, which `ipc_recv_task` holds, comes behind them.  It is in no place
if only the hand of `usb_write_task` counts. -/
theorem events_behind_channel :
    ∃ s, (eventPath someAbi).run
        ([0x01, 0x02, 0x03, 0x04, 0x05].map getEvent ++ .recvWait ::
          (List.replicate 4 [.recvRead, .recvSend]).flatten ++ [.recvRead]) = some s ∧
      s.sent ≠ s.written ++ (s.writer.hand ++ s.recv.hand) ++
        s.channel.items.map HciPacket.frame ++ s.ring.items ∧
      s.sent ≠ s.written ++ (s.recv.hand ++ s.writer.hand) ++
        s.channel.items.map HciPacket.frame ++ s.ring.items ∧
      s.sent ≠ s.written ++ s.writer.hand ++
        s.channel.items.map HciPacket.frame ++ s.ring.items := by
  exact (eventPath someAbi).exists_of_run _ _ (by decide +kernel)

end NrfHciUsb
