import NrfHciUsb.Bridge.Firmware

/-!
# Bridge — Answers

What becomes of what the host sends, with both cores at work.

* `firmware_replies`: the replies the host gets are, in order and without repetition, to commands it
  issued, and no reply is missing unless something on the way was without room or a write failed.
* `acl_conserved`: the ACL data the A→N ring took reach `hci_data_put`, in order.
-/

namespace NrfHciUsb
open Support

variable {abi : SdcAbi} {σ : Type} {env : NetEnv abi σ} {s s' : Firmware σ}

/-! ### Replies -/

/-- The dispatcher has an arm for the command. -/
def HasArm (c : List UInt8) : Bool := (armOf c).isSome

/-- Of the packets given to `write_ep`, those for which it has returned. -/
def WriterPc.finished (written : List (List UInt8)) : WriterPc → List (List UInt8)
  | .writing => written.dropLast
  | .disabled | .receiving | .holding _ => written

theorem WriterPc.finished_of_ne {w : WriterPc} (h : w ≠ .writing) (written : List (List UInt8)) :
    w.finished written = written := by
  cases w with
  | writing => exact absurd rfl h
  | disabled | receiving | holding pkt => rfl

/-- Each packet for which `write_ep` has returned has got to the host or failed. -/
structure Finishing (writer : WriterPc) (written got : List (List UInt8)) (failed : ℕ) : Prop where
  writing : writer = .writing → written ≠ []
  order : got.Sublist (writer.finished written)
  count : got.length + failed = (writer.finished written).length

theorem finishing_init : Finishing .disabled [] [] 0 := ⟨nofun, .slnil, rfl⟩

section
variable {writer writer' : WriterPc} {written got : List (List UInt8)} {failed : ℕ}

/-- A step of the writer that writes nothing. -/
theorem Finishing.of_ne (h : Finishing writer written got failed) (hw : writer ≠ .writing)
    (hw' : writer' ≠ .writing) : Finishing writer' written got failed := by
  have hgot := h.order
  have hcount := h.count
  rw [WriterPc.finished_of_ne hw] at hgot hcount
  refine ⟨fun hwriting => absurd hwriting hw', ?_, ?_⟩
  · rwa [WriterPc.finished_of_ne hw']
  · rwa [WriterPc.finished_of_ne hw']

theorem Finishing.writeEp (h : Finishing writer written got failed) (hw : writer ≠ .writing)
    (f : List UInt8) : Finishing .writing (written ++ [f]) got failed := by
  have hgot := h.order
  have hcount := h.count
  rw [WriterPc.finished_of_ne hw] at hgot hcount
  refine ⟨fun _ => by simp, ?_, ?_⟩
  · rwa [WriterPc.finished, List.dropLast_concat]
  · rwa [WriterPc.finished, List.dropLast_concat]

theorem Finishing.writeDone (h : Finishing .writing written got failed) (ok : Bool) :
    Finishing (if ok then .receiving else .disabled) written (gotAfter ok written got)
      (failedAfter ok failed) := by
  have hne := h.writing rfl
  have hgot := h.order
  have hcount := h.count
  rw [WriterPc.finished] at hgot hcount
  have hlast := List.dropLast_append_getLast hne
  have hlen : written.dropLast.length + 1 = written.length := by
    rw [List.length_dropLast]
    have := List.length_pos_iff.mpr hne
    omega
  cases ok with
  | true =>
      refine ⟨nofun, ?_, ?_⟩
      · show (got ++ written.getLast?.toList).Sublist written
        rw [List.getLast?_eq_getLast_of_ne_nil hne, Option.toList_some]
        conv_rhs => rw [← hlast]
        exact hgot.append (.refl _)
      · show (got ++ written.getLast?.toList).length + failed = written.length
        rw [List.getLast?_eq_getLast_of_ne_nil hne, Option.toList_some, List.length_append,
          List.length_singleton]
        omega
  | false =>
      refine ⟨nofun, hgot.trans (List.dropLast_sublist _), ?_⟩
      show got.length + (failed + 1) = written.length
      omega

end

/-- The replies are to the commands dispatched, those in the ring or further on are among them, and
so are those the host has got. -/
structure Answering (s : Firmware σ) : Prop where
  replies : (s.replies.filterMap decodeReply).map HciReply.opcode =
    (s.down.dispatched.filter HasArm).map opcodeOf
  sent : (s.up.sent.filterMap decodeReply).Sublist (s.replies.filterMap decodeReply)
  finishing : Finishing s.up.writer s.up.written s.got s.failed

theorem answering_init (env : NetEnv abi σ) (sdc : σ) :
    Answering (firmware env sdc).init where
  replies := rfl
  sent := .slnil
  finishing := finishing_init

/-- The replies to a frame are to its command, if that has an arm. -/
theorem AnsweredBy.opcodes {f : List UInt8} {pkts : List (List UInt8)} (h : AnsweredBy f pkts) :
    (pkts.filterMap decodeReply).map HciReply.opcode =
      ((commandOf f).toList.filter HasArm).map opcodeOf := by
  obtain ⟨c, arm, status, ret, hc, harm, rfl⟩ | ⟨hnone, rfl⟩ := h
  · obtain ⟨reply, hdec, hopcode, -⟩ := decode_frame arm (opcodeOf c) status ret
    have hhas : HasArm c = true := by rw [HasArm, harm, Option.isSome_some]
    simp [hc, hdec, hopcode, hhas]
  · cases hc : commandOf f with
    | none => rfl
    | some c => simp [HasArm, hnone c hc]

/-- What is not a reply adds none. -/
theorem sent_notifyApp_of_none (s : EventPath) {f : List UInt8} (hf : decodeReply f = none) :
    (s.notifyApp f f).sent.filterMap decodeReply = s.sent.filterMap decodeReply := by
  rcases s.notifyApp_cases f with ⟨ring, -, heq⟩ | heq
  · rw [heq]
    simp [hf]
  · rw [heq]

theorem EventPath.notifyApp_writer (s : EventPath) (f : List UInt8) :
    (s.notifyApp f f).writer = s.writer ∧ (s.notifyApp f f).written = s.written := by
  rcases s.notifyApp_cases f with ⟨ring, -, heq⟩ | heq <;> rw [heq] <;> exact ⟨rfl, rfl⟩

/-- A step that leaves the endpoints alone, and adds no reply without a command. -/
theorem Answering.of_writer (h : Answering s) (hgot : s'.got = s.got)
    (hfailed : s'.failed = s.failed)
    (hwriter : s'.up.writer = s.up.writer ∧ s'.up.written = s.up.written)
    (hreplies : (s'.replies.filterMap decodeReply).map HciReply.opcode =
      (s'.down.dispatched.filter HasArm).map opcodeOf)
    (hsent : (s'.up.sent.filterMap decodeReply).Sublist (s'.replies.filterMap decodeReply)) :
    Answering s' := by
  obtain ⟨hw, hwr⟩ := hwriter
  refine ⟨hreplies, hsent, ?_⟩
  rw [hw, hwr, hgot, hfailed]
  exact h.finishing

/-- **A read of the A→N ring** answers the command it dispatches, if that has an arm. -/
theorem Answering.took (h : Answering s) {f : List UInt8} (hsame : s.SameHost s')
    (ht : s.Took s' f) : Answering s' := by
  obtain ⟨pkts, hans, hreplies, hup⟩ := ht.answered
  have hopcodes : (s'.replies.filterMap decodeReply).map HciReply.opcode =
      (s'.down.dispatched.filter HasArm).map opcodeOf := by
    rw [hreplies, ht.dispatched, List.filterMap_append, List.map_append, List.filter_append,
      List.map_append, h.replies, hans.opcodes]
  obtain ⟨c, arm, status, ret, -, -, rfl⟩ | ⟨-, rfl⟩ := hans
  · refine h.of_writer hsame.got hsame.failed ?_ hopcodes ?_
    · rw [hup]
      exact s.up.notifyApp_writer _
    · rw [hup, hreplies, EventPath.notifyAll, List.foldl_cons, List.foldl_nil,
        List.filterMap_append]
      rcases s.up.notifyApp_cases (arm.frame (opcodeOf c) status ret) with ⟨ring, -, heq⟩ | heq
      · rw [heq, List.filterMap_append]
        exact h.sent.append (.refl _)
      · rw [heq]
        exact h.sent.trans (List.sublist_append_left _ _)
  · refine h.of_writer hsame.got hsame.failed (by rw [hup]; exact ⟨rfl, rfl⟩) hopcodes ?_
    rw [hreplies, hup, List.append_nil]
    exact h.sent

/-- **The tasks** write what they receive. -/
theorem Answering.task (h : Answering s) (hup : EventInv s.up) {t : UpTask}
    (hs : s.step env (.up t) = some s') : Answering s' := by
  obtain ⟨up, hup', rfl⟩ := Option.map_eq_some_iff.mp hs
  have hdid := hup.did hup'
  cases t with
  | recvWait =>
      obtain ⟨-, -, rfl⟩ := hdid
      exact h.of_writer rfl rfl ⟨rfl, rfl⟩ h.replies h.sent
  | recvRead =>
      obtain ⟨-, ⟨-, rfl⟩ | ⟨pkt, ring, buf, -, rfl⟩⟩ := hdid
      · exact h.of_writer rfl rfl ⟨rfl, rfl⟩ h.replies h.sent
      · exact h.of_writer rfl rfl ⟨rfl, rfl⟩ h.replies h.sent
  | recvSend =>
      obtain ⟨pkt, channel, -, -, rfl⟩ := hdid
      exact h.of_writer rfl rfl ⟨rfl, rfl⟩ h.replies h.sent
  | receive =>
      obtain ⟨pkt, channel, hw, -, rfl⟩ := hdid
      exact ⟨h.replies, h.sent, h.finishing.of_ne (by rw [hw]; nofun) nofun⟩
  | writeEp =>
      obtain ⟨pkt, hw, rfl⟩ := hdid
      exact ⟨h.replies, h.sent, h.finishing.writeEp (by rw [hw]; nofun) _⟩

/-- **The host** configures the device. -/
theorem Answering.enabled (h : Answering s) (hs : s.step env .enabled = some s') :
    Answering s' := by
  obtain ⟨up, hup, rfl⟩ := Option.map_eq_some_iff.mp hs
  obtain ⟨hw, rfl⟩ := EventPath.enabled_eq hup
  exact ⟨h.replies, h.sent, h.finishing.of_ne (by rw [hw]; nofun) nofun⟩

/-- **The return of `write_ep`.** -/
theorem Answering.writeDone (h : Answering s) {ok : Bool}
    (hs : s.step env (.writeDone ok) = some s') : Answering s' := by
  obtain ⟨up, hup, rfl⟩ := Option.map_eq_some_iff.mp hs
  obtain ⟨hw, rfl⟩ := EventPath.writeDone_eq hup
  have hfin := h.finishing
  rw [hw] at hfin
  exact ⟨h.replies, h.sent, hfin.writeDone ok⟩

/-- **One step** keeps the order of the replies, if the controller makes none of its own. -/
theorem Answering.step (h : Answering s) (hup : EventInv s.up) {a : FirmwareAct abi σ}
    (hgets : a.Gets HciGot.NoReply) (hs : s.step env a = some s') : Answering s' := by
  cases a with
  | controlOut req data =>
      obtain ⟨-, -, ⟨channel, -, rfl⟩ | ⟨-, rfl⟩⟩ | ⟨-, rfl⟩ := Firmware.controlOut_cases hs
      · exact h.of_writer rfl rfl ⟨rfl, rfl⟩ h.replies h.sent
      · exact h.of_writer rfl rfl ⟨rfl, rfl⟩ h.replies h.sent
      · exact h
  | aclOut data =>
      obtain ⟨-, ⟨ring, -, rfl⟩ | rfl⟩ := Firmware.aclOut_cases hs
      · exact h.of_writer rfl rfl ⟨rfl, rfl⟩ h.replies h.sent
      · exact h
  | cmdReceive =>
      obtain ⟨cmd, channel, -, -, rfl⟩ := Firmware.cmdReceive_cases hs
      exact h.of_writer rfl rfl ⟨rfl, rfl⟩ h.replies h.sent
  | cmdSend =>
      obtain ⟨cmd, -, ⟨ring, -, rfl⟩ | rfl⟩ := Firmware.cmdSend_cases hs
      · exact h.of_writer rfl rfl ⟨rfl, rfl⟩ h.replies h.sent
      · exact h.of_writer rfl rfl ⟨rfl, rfl⟩ h.replies h.sent
  | rxWait =>
      obtain ⟨-, -, rfl⟩ := Firmware.rxWait_eq hs
      exact h.of_writer rfl rfl ⟨rfl, rfl⟩ h.replies h.sent
  | rxRead =>
      obtain ⟨-, -, hsame, ⟨f, htook⟩ | hnone⟩ := Firmware.rxRead_cases hs
      · exact h.took hsame htook
      · refine h.of_writer hsame.got hsame.failed (by rw [hnone.up]; exact ⟨rfl, rfl⟩) ?_ ?_
        · rw [hnone.replies, hnone.dispatched]
          exact h.replies
        · rw [hnone.replies, hnone.up]
          exact h.sent
  | hciGet got sdc =>
      obtain ⟨-, ⟨f, -, hf, rfl⟩ | ⟨-, rfl⟩ | ⟨-, rfl⟩⟩ := Firmware.hciGet_cases hs
      · refine h.of_writer rfl rfl (s.up.notifyApp_writer f) h.replies ?_
        rw [sent_notifyApp_of_none s.up (hgets f hf)]
        exact h.sent
      · exact h.of_writer rfl rfl ⟨rfl, rfl⟩ h.replies h.sent
      · exact h.of_writer rfl rfl ⟨rfl, rfl⟩ h.replies h.sent
  | up t => exact h.task hup hs
  | enabled => exact h.enabled hs
  | writeDone ok => exact h.writeDone hs

theorem answering_of_reachable (hM : abi.hciMsgBufferMaxSize ≤ maxHciPayload) {sdc : σ}
    (h : (firmware env sdc).ReachableBy (FirmwareAct.Gets HciGot.NoReply) s) : Answering s := by
  refine (h.invariant (P := fun s => Joined abi s ∧ Answering s)
    ⟨joined_init env sdc, answering_init env sdc⟩ ?_).2
  rintro s a s' hgets ⟨hj, ha⟩ hs
  exact ⟨hj.step hs, ha.step (hj.up hM) hgets hs⟩

/-- Writes end in the order in which the packets were sent. -/
theorem EventInv.finished_sent {s : EventPath} (h : EventInv s) :
    s.writer.finished s.written <+: s.sent := by
  rw [h.order, EventPath.places, List.append_assoc, List.append_assoc, List.append_assoc]
  refine List.IsPrefix.trans ?_ (List.prefix_append _ _)
  cases s.writer with
  | writing => exact List.dropLast_prefix _
  | disabled | receiving | holding pkt => exact List.prefix_rfl

/-- What the host has got are replies to the commands accepted: all the way the order is kept. -/
theorem replies_inOrder {maxMsg : ℕ} {down : CommandPath} {up : EventPath}
    {replies got : List (List UInt8)} {failed : ℕ} (hdown : Conserved maxMsg down)
    (hup : EventInv up) (hfin : Finishing up.writer up.written got failed)
    (hreplies : (replies.filterMap decodeReply).map HciReply.opcode =
      (down.dispatched.filter HasArm).map opcodeOf)
    (hsent : (up.sent.filterMap decodeReply).Sublist (replies.filterMap decodeReply)) :
    ((got.filterMap decodeReply).map HciReply.opcode).Sublist
      ((down.accepted.filter HasArm).map opcodeOf) ∧
    (down.dropped = [] → up.sent.filterMap decodeReply <+: replies.filterMap decodeReply →
      failed = 0 → (got.filterMap decodeReply).map HciReply.opcode <+:
        (down.accepted.filter HasArm).map opcodeOf) := by
  have hfinished := hup.finished_sent
  have hdispatched : down.dispatched <+: down.places := by
    rw [CommandPath.places, List.append_assoc, List.append_assoc]
    exact List.prefix_append _ _
  constructor
  · have hgot : (got.filterMap decodeReply).Sublist (replies.filterMap decodeReply) :=
      ((hfin.order.trans hfinished.sublist).filterMap _).trans hsent
    have hopcodes := hgot.map HciReply.opcode
    rw [hreplies] at hopcodes
    exact hopcodes.trans (((hdispatched.sublist.trans hdown.order).filter _).map _)
  · intro hdropped hall hfailed
    have hcount := hfin.count
    rw [hfailed, Nat.add_zero] at hcount
    have hplaces : down.places = down.accepted := by
      have hlen := hdown.perm.length_eq
      rw [hdropped, List.map_nil, List.append_nil] at hlen
      exact hdown.order.eq_of_length hlen.symm
    have hgot := ((hfinished.filterMap decodeReply).trans hall).map HciReply.opcode
    rw [hreplies, ← hfin.order.eq_of_length hcount] at hgot
    refine hgot.trans ?_
    rw [← hplaces]
    exact (hdispatched.filter _).map _

/-- **Replies.**  However the tasks interleave, and whatever the controller answers, as long as
`hci_get` leaves the replies to the dispatcher, the replies the host has got are to commands it
issued, in their order and one for each at most.  If nothing on the way was without room for a
command or a reply, and no write failed, they are the replies to the first of the commands that have
an arm, none left out. -/
theorem firmware_replies (env : NetEnv abi σ) (sdc : σ)
    (hM : abi.hciMsgBufferMaxSize ≤ maxHciPayload) (s : Firmware σ)
    (h : (firmware env sdc).ReachableBy (FirmwareAct.Gets HciGot.NoReply) s) :
    ((s.got.filterMap decodeReply).map HciReply.opcode).Sublist
      ((s.down.accepted.filter HasArm).map opcodeOf) ∧
    (s.down.dropped = [] → s.up.sent.filterMap decodeReply = s.replies.filterMap decodeReply →
      s.failed = 0 → (s.got.filterMap decodeReply).map HciReply.opcode <+:
        (s.down.accepted.filter HasArm).map opcodeOf) := by
  have hj := joined_of_reachable h.reachable
  have ha := answering_of_reachable hM h
  obtain ⟨horder, hnone⟩ :=
    replies_inOrder hj.conserved (hj.up hM) ha.finishing ha.replies ha.sent
  exact ⟨horder, fun hdropped hall => hnone hdropped (hall ▸ List.prefix_rfl)⟩

/-- An LE Meta event with one parameter. -/
def leMeta : HciGot someAbi :=
  .packet .event (((Vector.replicate someAbi.hciMsgBufferMaxSize 0).set 0 0x3E).set 1 0x01)

/-- HCI Reset, there and back, with ACL data and an event of the controller behind it. -/
def resetThereAndBack : List (FirmwareAct someAbi Unit) :=
  [.controlOut classReq [0x03, 0x0C, 0x00], .cmdReceive, .cmdSend, .aclOut [1, 0, 1, 0, 7], .rxWait,
    .rxRead, .hciGet leMeta (), .enabled, .up .recvWait, .rxRead, .up .recvRead, .up .recvSend,
    .up .receive, .up .writeEp, .writeDone true]

theorem firmware_replies_reset :
    ∃ s, (firmware (NetEnv.zeros someAbi) ()).run resetThereAndBack = some s ∧
      s.got.filterMap decodeReply = [.commandComplete 0x0C03 0x00 []] ∧
      [0x0C03] <+: (s.down.accepted.filter HasArm).map opcodeOf := by
  obtain ⟨s, hs, hgot, hdropped, hsent, hfailed⟩ :=
    (firmware (NetEnv.zeros someAbi) ()).exists_of_run resetThereAndBack
      (fun s => s.got.filterMap decodeReply = [.commandComplete 0x0C03 0x00 []] ∧
        s.down.dropped = [] ∧
        s.up.sent.filterMap decodeReply = s.replies.filterMap decodeReply ∧ s.failed = 0)
      (by decide +kernel)
  have hgets : ∀ a ∈ resetThereAndBack, a.Gets HciGot.NoReply := by decide +kernel
  have h := (firmware_replies (NetEnv.zeros someAbi) () (by decide) s ⟨_, hgets, hs⟩).2 hdropped
    hsent hfailed
  rw [hgot] at h
  exact ⟨s, hs, hgot, h⟩

/-! ### ACL data -/

/-- The ACL data the ring took were put to the controller or are still in the ring. -/
structure AclInv (s : Firmware σ) : Prop where
  order : s.aclSent = s.puts ++ s.down.ring.items.filterMap aclOf
  short : ∀ f ∈ s.down.ring.items, ∀ data, aclOf f = some data → data.length ≤ usbPacketSize

theorem aclInv_init (env : NetEnv abi σ) (sdc : σ) :
    AclInv (firmware env sdc).init where
  order := rfl
  short := nofun

theorem aclOf_length {f data : List UInt8} (h : aclOf f = some data) :
    f.length = 1 + data.length := by
  cases f with
  | nil => cases h
  | cons indicator payload =>
      obtain ⟨-, h⟩ := Option.ite_none_right_eq_some.mp h
      cases h
      rw [List.length_cons, Nat.add_comm]

/-- A frame comes behind those in the ring. -/
theorem AclInv.push (h : AclInv s) {f : List UInt8}
    (hring : s'.down.ring.items = s.down.ring.items ++ [f]) (hputs : s'.puts = s.puts)
    (hsent : s'.aclSent = s.aclSent ++ (aclOf f).toList)
    (hf : ∀ data, aclOf f = some data → data.length ≤ usbPacketSize) : AclInv s' where
  order := by
    have hone : [f].filterMap aclOf = (aclOf f).toList := by
      cases haf : aclOf f <;> simp [haf]
    rw [hsent, hputs, hring, List.filterMap_append, hone, h.order, List.append_assoc]
  short := by
    rw [hring]
    intro f' hf'
    rcases List.mem_append.mp hf' with hmem | hmem
    · exact h.short f' hmem
    · rw [List.mem_singleton.mp hmem]
      exact hf

theorem AclInv.of_ring (h : AclInv s) (hring : s'.down.ring = s.down.ring)
    (hputs : s'.puts = s.puts) (hsent : s'.aclSent = s.aclSent) : AclInv s' := by
  refine ⟨?_, ?_⟩
  · rw [hsent, hputs, hring, h.order]
  · rw [hring]
    exact h.short

theorem AclInv.step (hM : usbPacketSize ≤ abi.hciMsgBufferMaxSize) (h : AclInv s)
    (hj : Joined abi s) {a : FirmwareAct abi σ} (hs : s.step env a = some s') : AclInv s' := by
  cases a with
  | controlOut req data =>
      obtain ⟨-, -, ⟨channel, -, rfl⟩ | ⟨-, rfl⟩⟩ | ⟨-, rfl⟩ := Firmware.controlOut_cases hs <;>
        exact h.of_ring rfl rfl rfl
  | aclOut data =>
      obtain ⟨hlen, ⟨ring, hring, rfl⟩ | rfl⟩ := Firmware.aclOut_cases hs
      · refine h.push hring rfl (by rw [aclOf_aclPkt]; rfl) ?_
        intro data' hdata
        rw [aclOf_aclPkt] at hdata
        cases hdata
        exact hlen
      · exact h
  | cmdReceive =>
      obtain ⟨cmd, channel, -, -, rfl⟩ := Firmware.cmdReceive_cases hs
      exact h.of_ring rfl rfl rfl
  | cmdSend =>
      obtain ⟨cmd, -, ⟨ring, hring, rfl⟩ | rfl⟩ := Firmware.cmdSend_cases hs
      · refine h.push hring rfl (by rw [aclOf_cmdPkt]; simp) ?_
        intro data hdata
        rw [aclOf_cmdPkt] at hdata
        cases hdata
      · exact h.of_ring rfl rfl rfl
  | rxWait =>
      obtain ⟨-, -, rfl⟩ := Firmware.rxWait_eq hs
      exact h.of_ring rfl rfl rfl
  | rxRead =>
      obtain ⟨-, -, hsame, ⟨f, htook⟩ | hnone⟩ := Firmware.rxRead_cases hs
      · refine ⟨?_, fun f' hf' => h.short f' ?_⟩
        · have horder := h.order
          rw [htook.ring] at horder
          rw [hsame.aclSent, horder, htook.puts, List.append_assoc]
          cases hf : aclOf f <;> simp [hf]
        · rw [htook.ring]
          exact List.mem_cons_of_mem _ hf'
      · rcases hnone.ring with ⟨hnil, hnil'⟩ | ⟨f, hring, hlong⟩
        · refine ⟨?_, by rw [hnil']; nofun⟩
          rw [hsame.aclSent, hnone.puts, hnil', h.order, hnil]
        · -- what is discarded is longer than any ACL data
          have hbuf := hj.conserved.rxBuf
          have hnoacl : aclOf f = none := by
            cases hf : aclOf f with
            | none => rfl
            | some data =>
                have hshort := h.short f (by rw [hring]; simp) data hf
                rw [aclOf_length hf] at hlong
                omega
          refine ⟨?_, fun f' hf' => h.short f' ?_⟩
          · have horder := h.order
            rw [hring, List.filterMap_cons_none hnoacl] at horder
            rw [hsame.aclSent, hnone.puts, horder]
          · rw [hring]
            exact List.mem_cons_of_mem _ hf'
  | hciGet got sdc =>
      obtain ⟨-, ⟨f, -, -, rfl⟩ | ⟨-, rfl⟩ | ⟨-, rfl⟩⟩ := Firmware.hciGet_cases hs <;>
        exact h.of_ring rfl rfl rfl
  | up t | enabled | writeDone ok =>
      obtain ⟨up, -, rfl⟩ := Option.map_eq_some_iff.mp hs
      exact h.of_ring rfl rfl rfl

theorem aclInv_of_reachable (hM : usbPacketSize ≤ abi.hciMsgBufferMaxSize) {sdc : σ}
    (h : (firmware env sdc).Reachable s) : AclInv s := by
  refine (h.invariant (P := fun s => Joined abi s ∧ AclInv s)
    ⟨joined_init env sdc, aclInv_init env sdc⟩ ?_).2
  rintro s a s' ⟨hj, ha⟩ hs
  exact ⟨hj.step hs, ha.step hM hj hs⟩

/-- **ACL data.**  The USB packets of the bulk endpoint for which the A→N ring had room are, in
order and as they came, those given to `hci_data_put` and then those in the ring. -/
theorem acl_conserved (env : NetEnv abi σ) (sdc : σ)
    (hM : usbPacketSize ≤ abi.hciMsgBufferMaxSize) (s : Firmware σ)
    (h : (firmware env sdc).Reachable s) :
    s.aclSent = s.puts ++ s.down.ring.items.filterMap aclOf :=
  (aclInv_of_reachable hM h).order

theorem acl_conserved_reset :
    ∃ s, (firmware (NetEnv.zeros someAbi) ()).run resetThereAndBack = some s ∧
      s.down.ring.items = [] ∧ s.puts = [[1, 0, 1, 0, 7]] ∧ s.aclSent = [[1, 0, 1, 0, 7]] := by
  obtain ⟨s, hs, hring, hputs⟩ :=
    (firmware (NetEnv.zeros someAbi) ()).exists_of_run resetThereAndBack
      (fun s => s.down.ring.items = [] ∧ s.puts = [[1, 0, 1, 0, 7]]) (by decide +kernel)
  have h := acl_conserved (NetEnv.zeros someAbi) () (by decide) s ⟨_, hs⟩
  rw [hring, hputs] at h
  exact ⟨s, hs, hring, hputs, h⟩

end NrfHciUsb
