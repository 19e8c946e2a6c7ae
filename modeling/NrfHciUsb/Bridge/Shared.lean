import NrfHciUsb.Bridge.Bells

/-!
# Bridge — Shared

The tasks of both cores around the rings themselves.

* `cores_around_bells`: they can be as they are around two doorbells.
* `cores_replies`: the replies the host gets are, in order and without repetition, to commands it
  issued.
* `cores_conserved`: what is accepted stays in order, and where a loop waits for an event that is
  not to come, it is past its ring.
-/

namespace NrfHciUsb
open Support

variable {abi : SdcAbi} {σ : Type} {env : NetEnv abi σ} {s s' : Tasks σ}
  {a2n n2a : Doorbell bufSize}

/-! ### From the rings to the doorbells -/

/-- A frame that a ring accepts is one the tasks have for it, and they have only what fits the
buffer it is read into. -/
theorem TasksInv.fitDown (hlo : controlBufLen ≤ abi.hciMsgBufferMaxSize) (h : TasksInv s)
    {f : List UInt8} (hs : s.seeDown env (.sent f true) = some s') :
    f.length ≤ (rxBufOf abi).length := by
  have hlen := h.offers_length (Tasks.offers_of_sent hs)
  rw [rxBufOf, List.length_replicate]
  omega

theorem TasksInv.fitUp (h : TasksInv s) {f : List UInt8}
    (hs : s.seeUp (.sent f true) = some s') : f.length ≤ recvBuf.length := by
  obtain ⟨rest, hn, -⟩ := Tasks.seeUp_sent hs
  rw [recvBuf, List.length_replicate]
  exact h.notify_length (by rw [hn]; simp)

theorem cores_fit (hlo : controlBufLen ≤ abi.hciMsgBufferMaxSize)
    (hhi : abi.hciMsgBufferMaxSize ≤ maxHciPayload) {a2n n2a : Ring} {sdc : σ}
    {rings : Wakeup × Wakeup} (h : (cores env a2n n2a sdc).Reachable (rings, s)) :
    (∀ f ∈ rings.1.link.accepted, f.length ≤ (rxBufOf abi).length) ∧
      ∀ f ∈ rings.2.link.accepted, f.length ≤ recvBuf.length := by
  refine (h.within_invariant (P := fun rings s => TasksInv s ∧
    (∀ f ∈ rings.1.link.accepted, f.length ≤ (rxBufOf abi).length) ∧
      ∀ f ∈ rings.2.link.accepted, f.length ≤ recvBuf.length)
    ⟨tasksInv_init env sdc, nofun, nofun⟩ ?_ ?_).2
  · rintro rings a rings' s s' ⟨ih, hA, hN⟩ hs hk
    refine ⟨(tasks env sdc).seeAll_invariant ?_ ih hk, ?_⟩
    · rintro s (e | e) s' ih hs
      · exact ih.seeDown hs
      · exact ih.seeUp hs
    · rcases a with a | a
      · obtain ⟨r, hr, rfl⟩ := Option.map_eq_some_iff.mp hs
        refine ⟨fun f hf => ?_, hN⟩
        rcases Wakeup.accepted_shows hr hf with hf | hshows
        · exact hA f hf
        · rw [parShows, hshows, List.map_singleton, tasks_seeDown] at hk
          exact ih.fitDown hlo hk
      · obtain ⟨r, hr, rfl⟩ := Option.map_eq_some_iff.mp hs
        refine ⟨hA, fun f hf => ?_⟩
        rcases Wakeup.accepted_shows hr hf with hf | hshows
        · exact hN f hf
        · rw [parShows, hshows, List.map_singleton, tasks_seeUp] at hk
          exact ih.fitUp hk
  · rintro rings s a s' ⟨ih, hA, hN⟩ hs
    exact ⟨ih.step hhi hs, hA, hN⟩

/-- **The rings are doorbells to the tasks.** -/
theorem cores_around_bells (hlo : controlBufLen ≤ abi.hciMsgBufferMaxSize)
    (hhi : abi.hciMsgBufferMaxSize ≤ maxHciPayload) {a2n n2a : Ring} {sdc : σ}
    {rings : Wakeup × Wakeup} (h : (cores env a2n n2a sdc).Reachable (rings, s))
    (hw : rings.1.link.written < 2 ^ 32 ∧ rings.2.link.written < 2 ^ 32) :
    ∃ bells : Doorbell bufSize × Doorbell bufSize, CoresInv abi bells.1 bells.2 s ∧
      (rings.1.Asleep → bells.1.pc = .waiting ∧ bells.1.queue.items = []) ∧
      (rings.2.Asleep → bells.2.pc = .waiting ∧ bells.2.queue.items = []) := by
  obtain ⟨hfitA, hfitN⟩ := cores_fit hlo hhi h
  have hn : bufSize.toNat ≤ 65537 := by decide
  have hsim := (bell_simulates hn a2n (rxBufOf abi)).par (bell_simulates hn n2a recvBuf)
  obtain ⟨bells, hb, hdown, hup⟩ := hsim.within h ⟨⟨hfitA, hw.1⟩, ⟨hfitN, hw.2⟩⟩
  obtain ⟨hreachA, hreachN⟩ := h.of_within.of_par
  exact ⟨bells, coresInv_of_reachable hlo hhi hb, hdown.asleep hn hreachA ⟨hfitA, hw.1⟩,
    hup.asleep hn hreachN ⟨hfitN, hw.2⟩⟩

/-! ### Every run -/

/-- **Replies, access by access.**  However the accesses of the two cores to the rings interleave,
as long as `hci_get` leaves the replies to the dispatcher, those the host has got are to commands it
issued, in their order and one for each at most; and none is missing if no command was dropped, the
N→A ring refused no reply and no write failed. -/
theorem cores_replies (env : NetEnv abi σ) (a2n n2a : Ring) (sdc : σ)
    (hlo : controlBufLen ≤ abi.hciMsgBufferMaxSize)
    (hhi : abi.hciMsgBufferMaxSize ≤ maxHciPayload) (rings : Wakeup × Wakeup) (s : Tasks σ)
    (h : (cores env a2n n2a sdc).ReachableBy (Around.Outer (TaskAct.Gets HciGot.NoReply))
      (rings, s))
    (hw : rings.1.link.written < 2 ^ 32 ∧ rings.2.link.written < 2 ^ 32) :
    ((s.got.filterMap decodeReply).map HciReply.opcode).Sublist
      ((s.accepted.filter HasArm).map opcodeOf) ∧
    (s.dropped = [] →
      (s.sent ++ s.notify).filterMap decodeReply = s.replies.filterMap decodeReply →
      s.failed = 0 → (s.got.filterMap decodeReply).map HciReply.opcode <+:
        (s.accepted.filter HasArm).map opcodeOf) := by
  obtain ⟨bells, hi, -, -⟩ := cores_around_bells hlo hhi h.reachable hw
  have hsent : (s.sent.filterMap decodeReply).Sublist (s.replies.filterMap decodeReply) :=
    ((List.sublist_append_left s.sent s.notify).filterMap _).trans (repliesSent_of_reachable h)
  obtain ⟨horder, hnone⟩ := replies_inOrder (conserved_of_reachable hi.down) hi.up
    hi.inv.finishing hi.inv.replies hsent
  refine ⟨horder, fun hdropped hall => hnone hdropped ?_⟩
  -- a reply that is yet to be handed over comes behind those sent
  rw [← hall, List.filterMap_append]
  exact List.prefix_append _ _

def downAct (a : WakeAct) : (WakeAct ⊕ WakeAct) ⊕ TaskAct someAbi Unit := .inl (.inl a)

def upAct (a : WakeAct) : (WakeAct ⊕ WakeAct) ⊕ TaskAct someAbi Unit := .inl (.inr a)

/-- HCI Reset, there and back, with a packet of ACL data that is written while the command is
read, and read while the host gets the reply; and last an event of the controller. -/
def resetOnCores : List ((WakeAct ⊕ WakeAct) ⊕ TaskAct someAbi Unit) :=
  [.inr (.controlOut classReq [0x03, 0x0C, 0x00]), .inr .cmdReceive,
    downAct (.send [0x01, 0x03, 0x0C, 0x00])] ++ List.replicate 9 (downAct .producer) ++
  [downAct .trigger, downAct .wait, .inr (.aclOut [1, 0, 1, 0, 7]),
    downAct (.send [0x02, 1, 0, 1, 0, 7])] ++
  (List.replicate 9 [downAct .producer, downAct .consumer]).flatten ++
  upAct (.send [0x04, 0x0E, 0x04, 0x01, 0x03, 0x0C, 0x00]) ::
  (List.replicate 2 [upAct .producer, downAct .producer]).flatten ++
  List.replicate 10 (upAct .producer) ++
  [upAct .trigger, downAct .trigger, upAct .wait, downAct .processed] ++
  (List.replicate 11 [upAct .consumer, downAct .consumer]).flatten ++
  [upAct .consumer, upAct .processed, upAct .consumer, upAct .consumer, downAct .processed,
    downAct .consumer, downAct .consumer, downAct .wait, downAct .consumer, downAct .consumer,
    .inr .enabled, .inr .receive, .inr .writeEp, .inr (.writeDone true), .inr (.hciGet leMeta ())]

/-- The memory before `ipc_init`. -/
def anyRing : Ring := ⟨5, 9, fun _ => 0⟩

theorem cores_replies_reset :
    ∃ x, (cores (NetEnv.zeros someAbi) anyRing anyRing ()).run resetOnCores = some x ∧
      x.2.got.filterMap decodeReply = [.commandComplete 0x0C03 0x00 []] ∧
      [0x0C03] <+: (x.2.accepted.filter HasArm).map opcodeOf := by
  obtain ⟨⟨rings, s⟩, hrun, hgot, hdropped, hsent, hfailed, hw⟩ :=
    (cores (NetEnv.zeros someAbi) anyRing anyRing ()).exists_of_run resetOnCores
      (fun x => x.2.got.filterMap decodeReply = [.commandComplete 0x0C03 0x00 []] ∧
        x.2.dropped = [] ∧
        (x.2.sent ++ x.2.notify).filterMap decodeReply = x.2.replies.filterMap decodeReply ∧
        x.2.failed = 0 ∧
        x.1.1.link.written < 2 ^ 32 ∧ x.1.2.link.written < 2 ^ 32) (by decide +kernel)
  have hgets : ∀ a ∈ resetOnCores, Around.Outer (TaskAct.Gets HciGot.NoReply) a := by
    decide +kernel
  have h := (cores_replies (NetEnv.zeros someAbi) anyRing anyRing () (by decide) (by decide)
    rings s ⟨_, hgets, hrun⟩ hw).2 hdropped hsent hfailed
  rw [hgot] at h
  exact ⟨_, hrun, hgot, h⟩

/-- The commands that are in no ring, from the dispatcher back to the host. -/
def Tasks.cmdPlaces (s : Tasks σ) : List (List UInt8) :=
  s.dispatched ++ s.cmd.toList.map HciCmdBuf.bytes ++ s.cmds.items.map HciCmdBuf.bytes

/-- The packets that have come out of the N→A ring, from the endpoint back. -/
def Tasks.eventPlaces (s : Tasks σ) : List (List UInt8) :=
  s.written ++ s.writer.hand ++ s.toHost.items.map HciPacket.frame ++
    s.pkt.toList.map HciPacket.frame

theorem CoresInv.up_places (h : CoresInv abi a2n n2a s) :
    (s.up n2a).places = s.eventPlaces ++ n2a.queue.items := by
  have hhand : (n2a.pc.recv s.pkt).hand = s.pkt.toList.map HciPacket.frame := by
    cases hpc : n2a.pc with
    | processing => cases s.pkt <;> rfl
    | waiting | reading =>
        rw [h.idle (by rw [hpc]; nofun)]
        rfl
  rw [EventPath.places, Tasks.eventPlaces, Tasks.up, hhand]

theorem CoresInv.events (h : CoresInv abi a2n n2a s) : s.sent = s.eventPlaces ++ n2a.queue.items :=
  h.up.order.trans h.up_places

theorem CoresInv.commands (h : CoresInv abi a2n n2a s) : s.cmdPlaces.Sublist s.accepted := by
  refine List.Sublist.trans ?_ (conserved_of_reachable h.down).order
  rw [Tasks.cmdPlaces, CommandPath.places]
  exact ((List.sublist_append_left _ _).append (.refl _)).append (.refl _)

/-- With nothing in the A→N ring. -/
theorem CoresInv.commands_past (h : CoresInv abi a2n n2a s) (hnil : a2n.queue.items = []) :
    s.puts = s.aclSent ∧ s.accepted.Perm (s.cmdPlaces ++ s.dropped.map Drop.command) := by
  constructor
  · rw [h.acl, hnil, List.filterMap_nil, List.append_nil]
  · have hplaces : (s.down a2n).places = s.cmdPlaces := by
      rw [CommandPath.places, Tasks.down, hnil, List.filterMap_nil, List.append_nil]
      rfl
    have hperm := (conserved_of_reachable h.down).perm
    rwa [hplaces] at hperm

/-- **Conservation, access by access.**  However the accesses interleave, ACL data, commands and
packets to the host stay in order, and nothing comes twice or from nowhere.  Where a loop waits for
an event that is not to come, nothing is left in its ring: all that was accepted is past it, or has
been counted as dropped. -/
theorem cores_conserved (env : NetEnv abi σ) (a2n n2a : Ring) (sdc : σ)
    (hlo : controlBufLen ≤ abi.hciMsgBufferMaxSize)
    (hhi : abi.hciMsgBufferMaxSize ≤ maxHciPayload) (rings : Wakeup × Wakeup) (s : Tasks σ)
    (h : (cores env a2n n2a sdc).Reachable (rings, s))
    (hw : rings.1.link.written < 2 ^ 32 ∧ rings.2.link.written < 2 ^ 32) :
    (s.puts <+: s.aclSent ∧ s.cmdPlaces.Sublist s.accepted ∧ s.eventPlaces <+: s.sent) ∧
    (rings.1.Asleep → s.puts = s.aclSent ∧
      s.accepted.Perm (s.cmdPlaces ++ s.dropped.map Drop.command)) ∧
    (rings.2.Asleep → s.eventPlaces = s.sent) := by
  obtain ⟨bells, hi, hA, hN⟩ := cores_around_bells hlo hhi h hw
  have hsent := hi.events
  refine ⟨⟨?_, hi.commands, ?_⟩, fun hs => hi.commands_past (hA hs).2, fun hs => ?_⟩
  · rw [hi.acl]
    exact List.prefix_append _ _
  · rw [hsent]
    exact List.prefix_append _ _
  · rw [hsent, (hN hs).2, List.append_nil]

theorem cores_conserved_reset :
    ∃ x, (cores (NetEnv.zeros someAbi) anyRing anyRing ()).run resetOnCores = some x ∧
      x.2.aclSent = [[1, 0, 1, 0, 7]] ∧ x.2.puts = x.2.aclSent ∧ x.2.eventPlaces = x.2.sent := by
  obtain ⟨⟨rings, s⟩, hrun, hsent, hdown, hup, hw⟩ :=
    (cores (NetEnv.zeros someAbi) anyRing anyRing ()).exists_of_run resetOnCores
      (fun x => x.2.aclSent = [[1, 0, 1, 0, 7]] ∧
        (x.1.1.pc = .waiting ∧ x.1.1.event = false ∧ x.1.1.untriggered = false) ∧
        (x.1.2.pc = .waiting ∧ x.1.2.event = false ∧ x.1.2.untriggered = false) ∧
        x.1.1.link.written < 2 ^ 32 ∧ x.1.2.link.written < 2 ^ 32) (by decide +kernel)
  obtain ⟨-, hA, hN⟩ := cores_conserved (NetEnv.zeros someAbi) anyRing anyRing ()
    (by decide) (by decide) rings s ⟨_, hrun⟩ hw
  exact ⟨_, hrun, hsent, (hA ⟨hdown.1, hdown.2.1, hdown.2.2⟩).1, hN ⟨hup.1, hup.2.1, hup.2.2⟩⟩

end NrfHciUsb
