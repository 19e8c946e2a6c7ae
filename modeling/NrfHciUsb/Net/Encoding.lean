import NrfHciUsb.Net.EventLoop
import NrfHciUsb.Net.Replies

/-!
# Net — Encoding

What the dispatcher's replies say, over the whole command table and for any controller.

* `Arm.frame_event`: every frame an arm builds is an event whose length byte counts what follows
  it, so that `hci_packet_len` finds its end again.
* `dispatch_encodes`: a dispatch hands over one frame, or none and does nothing; the frame, read
  back, gives the opcode of the command, the status of the one call into the controller and what
  it returned, or status `0x12` without a call if the parameters are too short.
-/

namespace NrfHciUsb
open Support

variable {abi : SdcAbi} {σ : Type}

/-- The return data in a reply. -/
def HciReply.returnData : HciReply → List UInt8
  | .commandComplete _ _ returnData => returnData
  | .commandStatus _ _ => []

/-- The calls into the controller, each with the bytes of its parameter structure. -/
def sdcCalls (ops : List NetOp) : List (SdcHciCmd × List UInt8) :=
  ops.filterMap fun
    | .sdcHciCmd fn params => some (fn, params)
    | _ => none

/-! ### Frames as events -/

theorem ccFrame_event (opcode : UInt16) (status : UInt8) (returnData : List UInt8) :
    ∃ event, ccFrame opcode status returnData = 0x04 :: event ∧
      PacketKind.event.WellFormed event := by
  have hlen : (UInt8.ofNat (4 + min returnData.length 64)).toNat =
      4 + min returnData.length 64 :=
    UInt8.toNat_ofNat_of_lt' (by show _ < 256; omega)
  refine ⟨(ccFrame opcode status returnData).tail, rfl, Nat.le_add_left 2 _, ?_⟩
  show _ = 2 + (UInt8.ofNat (4 + min returnData.length 64)).toNat
  rw [hlen, List.length_tail, ccFrame, List.length_append, List.length_take, Nat.min_comm]
  simp only [List.length_cons, List.length_nil]
  omega

theorem csFrame_event (opcode : UInt16) (status : UInt8) :
    ∃ event, csFrame opcode status = 0x04 :: event ∧ PacketKind.event.WellFormed event :=
  ⟨_, rfl, Nat.le_add_left 2 4, rfl⟩

/-- A frame is the event indicator and an event. -/
theorem Arm.frame_event (arm : Arm) (opcode : UInt16) (status : UInt8) (returnData : List UInt8) :
    ∃ event, arm.frame opcode status returnData = 0x04 :: event ∧
      PacketKind.event.WellFormed event := by
  rw [Arm.frame]
  split
  · exact csFrame_event _ _
  · exact ccFrame_event _ _ _

/-! ### What a reply says -/

theorem Arm.reply_opcode (arm : Arm) (opcode : UInt16) (status : UInt8) (returnData : List UInt8) :
    (arm.reply opcode status returnData).opcode = opcode := by
  rw [Arm.reply]
  split <;> rfl

theorem Arm.reply_status (arm : Arm) (opcode : UInt16) (status : UInt8) (returnData : List UInt8) :
    (arm.reply opcode status returnData).status = status := by
  rw [Arm.reply]
  split <;> rfl

/-- A reply has all of the return structure, if it fits `send_cc_event`'s buffer. -/
theorem Arm.reply_returnData (arm : Arm) (opcode : UInt16) (status : UInt8)
    {returnData : List UInt8} (h : returnData.length ≤ 64) :
    (arm.reply opcode status returnData).returnData =
      if arm.returnsData then returnData else [] := by
  rw [Arm.reply, List.take_of_length_le h]
  -- an arm that answers with a status event returns no data
  cases arm <;> rfl

/-! ### Dispatch -/

/-- The reply that a command with the arm `arm` is to get: which call it is answered from, and
what the answer says. -/
def Answers (env : NetEnv abi σ) (arm : Arm) (payload : List UInt8) (s : σ)
    (calls : List (SdcHciCmd × List UInt8)) (reply : HciReply) : Prop :=
  reply.opcode = opcodeOf payload ∧
  if arm.Short abi (payload.drop 3) then calls = [] ∧ reply.status = 0x12 ∧ reply.returnData = []
  else
    let r := env.reply arm.fn (arm.args abi (payload.drop 3)) s
    calls = [(arm.fn, arm.args abi (payload.drop 3))] ∧ reply.status = r.status ∧
      reply.returnData = if arm.returnsData then r.ret.toList else []

/-- The frame of a dispatch, and the calls behind it. -/
theorem dispatch_answers (hsize : ∀ fn, abi.returnSize fn ≤ 64) (env : NetEnv abi σ)
    {payload : List UInt8} {arm : Arm} (harm : armOf payload = some arm) (s : σ) :
    ∃ frame reply, notified (NetM.effects env (dispatchHciCmd payload) s) = [frame] ∧
      (∃ event, frame = 0x04 :: event ∧ PacketKind.event.WellFormed event) ∧
      decodeReply frame = some reply ∧
      Answers env arm payload s (sdcCalls (NetM.effects env (dispatchHciCmd payload) s)) reply := by
  have heff := (dispatch_with_arm env harm s).2
  by_cases hs : arm.Short abi (payload.drop 3)
  · rw [if_pos hs] at heff
    rw [heff]
    refine ⟨_, _, rfl, arm.frame_event _ _ _, arm.decode_frame_eq _ _ _,
      arm.reply_opcode _ _ _, ?_⟩
    rw [if_pos hs, arm.reply_status, arm.reply_returnData _ _ (Nat.zero_le _)]
    exact ⟨rfl, rfl, ite_self _⟩
  · rw [if_neg hs] at heff
    rw [heff]
    refine ⟨_, _, rfl, arm.frame_event _ _ _, arm.decode_frame_eq _ _ _,
      arm.reply_opcode _ _ _, ?_⟩
    have hret : (env.reply arm.fn (arm.args abi (payload.drop 3)) s).ret.toList.length ≤ 64 := by
      rw [Vector.length_toList]
      exact hsize arm.fn
    rw [if_neg hs, arm.reply_status, arm.reply_returnData _ _ hret]
    exact ⟨rfl, rfl, rfl⟩

/-- **Encoding.**  A payload with an arm is answered by one frame, and any other by none, without
a call.  The frame is the event indicator and an event that ends where its length byte says,
whatever is behind it; read back, it says what the command is to be told. -/
theorem dispatch_encodes (hsize : ∀ fn, abi.returnSize fn ≤ 64) (env : NetEnv abi σ)
    (payload : List UInt8) (s : σ) :
    (NetM.exec env (dispatchHciCmd payload) s).1 = .ok (armOf payload).isSome ∧
    ((NetM.exec env (dispatchHciCmd payload) s).1 = .ok true ↔
      ∃ frame, notified (NetM.effects env (dispatchHciCmd payload) s) = [frame]) ∧
    ((NetM.exec env (dispatchHciCmd payload) s).1 = .ok false ↔
      notified (NetM.effects env (dispatchHciCmd payload) s) = [] ∧
        sdcCalls (NetM.effects env (dispatchHciCmd payload) s) = []) ∧
    ∀ frame ∈ notified (NetM.effects env (dispatchHciCmd payload) s),
      (∃ event, frame = 0x04 :: event ∧ PacketKind.event.WellFormed event ∧
        ∀ rest, hciPacketLen 0x04 (event ++ rest) = event.length) ∧
      ∃ arm reply, armOf payload = some arm ∧ decodeReply frame = some reply ∧
        Answers env arm payload s (sdcCalls (NetM.effects env (dispatchHciCmd payload) s))
          reply := by
  cases harm : armOf payload with
  | none =>
      obtain ⟨hexec, heff⟩ := dispatch_without_arm env harm s
      rw [hexec, heff]
      refine ⟨rfl, ⟨nofun, nofun⟩, ⟨fun _ => ⟨rfl, rfl⟩, fun _ => rfl⟩, nofun⟩
  | some arm =>
      have hexec := (dispatch_with_arm env harm s).1
      obtain ⟨frame, reply, hone, ⟨event, hframe, hwf⟩, hdec, hans⟩ :=
        dispatch_answers hsize env harm s
      rw [hexec, hone]
      refine ⟨rfl, ⟨fun _ => ⟨frame, rfl⟩, fun _ => rfl⟩, ⟨nofun, nofun⟩, ?_⟩
      intro frame' hmem
      obtain rfl := List.mem_singleton.mp hmem
      exact ⟨⟨event, hframe, hwf, fun rest => hciPacketLen_eq rest rfl hwf⟩,
        arm, reply, rfl, hdec, hans⟩

/-- LE Read Channel Map, with the connection handle it takes and the seven bytes it returns. -/
theorem dispatch_encodes_channelMap : ∃ arm reply,
    armOf [0x15, 0x20, 0x02, 0x00, 0x00] = some arm ∧
    decodeReply [0x04, 0x0E, 0x0B, 0x01, 0x15, 0x20, 0x00, 0, 0, 0, 0, 0, 0, 0] = some reply ∧
    Answers (NetEnv.zeros someAbi) arm [0x15, 0x20, 0x02, 0x00, 0x00] ()
      [(.leReadChannelMap, [0x00, 0x00])] reply :=
  ((dispatch_encodes (fun fn => by cases fn <;> decide) (NetEnv.zeros someAbi)
    [0x15, 0x20, 0x02, 0x00, 0x00] ()).2.2.2 _ (by decide +kernel)).2

end NrfHciUsb
