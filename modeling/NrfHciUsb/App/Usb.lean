import NrfHciUsb.Support.Fifo

/-!
# App — Usb

The USB side of the app core (`app/src/usb_hci.rs`, and the tasks of `app/src/main.rs` that touch
an endpoint): the packets its tasks exchange, with their bounds as fields, the control request
that carries an HCI command, the frames that go to the net core, and the packets of a bulk
transfer.
-/

namespace NrfHciUsb
open Support

/-- `MAX_CMD_LEN`: opcode, parameter length and up to 255 bytes of parameters. -/
def maxCmdLen : ℕ := 258

/-- `MAX_ACL_LEN`. -/
def maxAclLen : ℕ := 1024

/-- `MAX_HCI_PAYLOAD`. -/
def maxHciPayload : ℕ := maxAclLen

/-- `CHANNEL_DEPTH`. -/
def channelDepth : ℕ := 4

/-- An `embassy_sync` channel of depth `CHANNEL_DEPTH`. -/
abbrev Channel (α : Type) := Fifo α (fun _ => 1) channelDepth

/-- A fixed buffer of `cap` bytes with data at its front, the rest zero. -/
def padded (cap : ℕ) (data : List UInt8) : List UInt8 :=
  data ++ List.replicate (cap - data.length) 0

@[simp] theorem padded_length {cap : ℕ} {data : List UInt8} (h : data.length ≤ cap) :
    (padded cap data).length = cap := by
  simp [padded]; omega

@[simp] theorem take_padded (cap : ℕ) (data : List UInt8) :
    (padded cap data).take data.length = data := List.take_left

/-! ### Packets and commands -/

/-- `HciCmdBuf`. -/
structure HciCmdBuf where
  data : List UInt8
  len : ℕ
  data_length : data.length = maxCmdLen
  len_le : len ≤ maxCmdLen

/-- `cmd.data[..cmd.len]`. -/
def HciCmdBuf.bytes (cmd : HciCmdBuf) : List UInt8 := cmd.data.take cmd.len

theorem HciCmdBuf.bytes_length (cmd : HciCmdBuf) : cmd.bytes.length = cmd.len := by
  rw [bytes, List.length_take, cmd.data_length]
  exact Nat.min_eq_left cmd.len_le

/-- The buffer `control_out` makes of the data of a request. -/
def HciCmdBuf.ofData (data : List UInt8) : HciCmdBuf where
  data := padded maxCmdLen (data.take (min data.length maxCmdLen))
  len := min data.length maxCmdLen
  data_length := padded_length (Nat.le_trans (List.length_take_le _ _) (Nat.min_le_right _ _))
  len_le := Nat.min_le_right _ _

theorem HciCmdBuf.ofData_bytes (data : List UInt8) :
    (HciCmdBuf.ofData data).bytes = data.take maxCmdLen := by
  have hlen : (data.take (min data.length maxCmdLen)).length = min data.length maxCmdLen := by simp
  have hpad := take_padded maxCmdLen (data.take (min data.length maxCmdLen))
  rw [hlen] at hpad
  rw [bytes, ofData, hpad, Nat.min_comm, ← List.take_take, List.take_length]

/-- `HciPacket`. -/
structure HciPacket where
  indicator : UInt8
  payload : List UInt8
  len : ℕ
  payload_length : payload.length = maxHciPayload
  len_le : len ≤ maxHciPayload

/-- `pkt.payload[..pkt.len]`. -/
def HciPacket.bytes (pkt : HciPacket) : List UInt8 := pkt.payload.take pkt.len

/-- The packet `ipc_recv_task` makes of the `n` bytes it has read into `buf`. -/
def HciPacket.ofBuf (buf : List UInt8) (n : ℕ) : HciPacket where
  indicator := buf.getD 0 0
  payload := padded maxHciPayload ((buf.drop 1).take (min (n - 1) maxHciPayload))
  len := min (n - 1) maxHciPayload
  payload_length := padded_length (Nat.le_trans (List.length_take_le _ _) (Nat.min_le_right _ _))
  len_le := Nat.min_le_right _ _

/-- Nothing is made of an empty frame. -/
def HciPacket.ofRead (buf : List UInt8) (n : ℕ) : Option HciPacket :=
  if n > 0 then some (.ofBuf buf n) else none

/-- A frame that fits a packet is there whole, whatever is behind it in the buffer. -/
theorem HciPacket.ofBuf_bytes (indicator : UInt8) {payload : List UInt8} (stale : List UInt8)
    (h : payload.length ≤ maxHciPayload) :
    (HciPacket.ofBuf (indicator :: payload ++ stale) (indicator :: payload).length).bytes =
      payload := by
  have hlen : min ((indicator :: payload).length - 1) maxHciPayload = payload.length := by
    rw [List.length_cons, Nat.add_sub_cancel]
    exact Nat.min_eq_left h
  have htake : ((indicator :: payload ++ stale).drop 1).take payload.length = payload := by
    simp
  rw [bytes, ofBuf]
  simp only [hlen, htake, take_padded]

/-! ### Control requests -/

inductive RequestType where
  | standard
  | class_
  | vendor
  | reserved
  deriving DecidableEq, Repr

inductive Recipient where
  | device
  | interface
  | endpoint
  | other
  | reserved
  deriving DecidableEq, Repr

/-- A control request, as far as `control_out` looks at it. -/
structure Request where
  requestType : RequestType
  recipient : Recipient
  request : UInt8
  deriving DecidableEq, Repr

inductive OutResponse where
  | accepted
  | rejected
  deriving DecidableEq, Repr

/-- `control_out`: the response, and `HCI_CMD_CHANNEL` after it. -/
def controlOut (req : Request) (data : List UInt8) (channel : Channel HciCmdBuf) :
    Option OutResponse × Channel HciCmdBuf :=
  if req.requestType = .class_ ∧ req.request = 0x00 ∧
      (req.recipient = .device ∨ req.recipient = .interface) then
    match channel.push? (.ofData data) with
    | some channel' => (some .accepted, channel')
    -- the channel is full, and the command is dropped
    | none => (some .accepted, channel)
  else (none, channel)

/-- A request whose data are an HCI command. -/
def Request.IsHciCommand (req : Request) : Prop :=
  req.requestType = .class_ ∧ req.request = 0x00 ∧
    (req.recipient = .device ∨ req.recipient = .interface)

instance (req : Request) : Decidable req.IsHciCommand := inferInstanceAs (Decidable (_ ∧ _ ∧ _))

/-- The length of `CONTROL_BUF`. -/
def controlBufLen : ℕ := 128

/-! ### Frames to the net core -/

/-- What `cmd_task` writes to the A→N ring: `pkt[..1 + cmd.len]`. -/
def cmdPkt (cmd : HciCmdBuf) : List UInt8 :=
  (0x01 :: padded maxCmdLen cmd.bytes).take (1 + cmd.len)

theorem cmdPkt_eq (cmd : HciCmdBuf) : cmdPkt cmd = 0x01 :: cmd.bytes := by
  rw [cmdPkt, Nat.add_comm, List.take_succ_cons, ← cmd.bytes_length, take_padded]

/-- What `usb_read_task` writes to the A→N ring for a read of `data`: `pkt[..1 + n]`. -/
def aclPkt (data : List UInt8) : List UInt8 :=
  (0x02 :: padded maxAclLen data).take (1 + data.length)

theorem aclPkt_eq (data : List UInt8) : aclPkt data = 0x02 :: data := by
  rw [aclPkt, Nat.add_comm, List.take_succ_cons, take_padded]

/-! ### Transfers -/

/-- The maximum packet size of the bulk endpoints. -/
def usbPacketSize : ℕ := 64

/-- The USB packets of one bulk transfer: cut every 64 bytes, the last one shorter, so that a
transfer of a multiple of 64 bytes ends with an empty packet. -/
def usbPackets (data : List UInt8) : List (List UInt8) :=
  (List.range (data.length / usbPacketSize + 1)).map fun i =>
    (data.drop (usbPacketSize * i)).take usbPacketSize

@[simp] theorem usbPackets_length (data : List UInt8) :
    (usbPackets data).length = data.length / usbPacketSize + 1 := by
  simp [usbPackets]

theorem usbPackets_short {data : List UInt8} (h : data.length < usbPacketSize) :
    usbPackets data = [data] := by
  rw [usbPackets, Nat.div_eq_of_lt h]
  simp [List.take_of_length_le (Nat.le_of_lt h)]

theorem length_le_of_mem_usbPackets {data d : List UInt8} (h : d ∈ usbPackets data) :
    d.length ≤ usbPacketSize := by
  obtain ⟨i, -, rfl⟩ := List.mem_map.mp h
  exact List.length_take_le _ _

end NrfHciUsb
