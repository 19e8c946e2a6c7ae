import NrfHciUsb.App.Led
import NrfHciUsb.App.WriteEp
import NrfHciUsb.Ipc.Isolation
import NrfHciUsb.Support.Checked
import NrfHciUsb.Support.Handler

/-!
# App — Tasks

The tasks of `app/src/main.rs` as programs: what they take from the channels, the endpoints and the
ring, what they make of it with indices and slices that are checked, and what they do with that.

A task never ends, and is here what it does in its first `k` rounds.  `AppOp` has its operations; on
the core those on a ring are in turn programs over the shared memory (`appCore`).
-/

namespace NrfHciUsb
open Support

variable {EndpointError σ α β : Type}

/-! ### What the tasks do -/

/-- The endpoints given to the tasks. -/
inductive Endpoint where
  | event
  | aclIn
  | aclOut
  deriving DecidableEq, Repr

/-- A buffer after a read, and how much of it was read: nothing if the read failed.  That no more
than the buffer was read is proved for a read of the ring (`Filled.ofRead`) and is the contract of
`EndpointOut::read`, whose driver is outside the repository. -/
structure Filled (cap : ℕ) where
  n : Option ℕ
  buf : Vector UInt8 cap
  n_le : ∀ k, n = some k → k ≤ cap

inductive AppOp where
  /-- `HCI_CMD_CHANNEL.try_send(cmd)`. -/
  | cmdTrySend (cmd : HciCmdBuf)
  /-- `HCI_CMD_CHANNEL.receive()`. -/
  | cmdReceive
  /-- `NET_TO_HOST.receive()`. -/
  | hostReceive
  /-- `NET_TO_HOST.send(pkt)`. -/
  | hostSend (pkt : HciPacket)
  | waitEnabled (ep : Endpoint)
  /-- `acl_out_ep.read(&mut buf)`. -/
  | read
  | write (ep : Endpoint) (packet : List UInt8)
  /-- `thingy53_ipc::ipc_send_to_net`. -/
  | ipcSendToNet (packet : List UInt8)
  | ipcRecvFromNet (out : Vector UInt8 (1 + maxHciPayload))
  | trigger
  | eventWait
  /-- `LED_STATE.signal(color)`. -/
  | signal (color : LedColor)

/-- What is behind an `Err` of `read` is not looked at. -/
@[reducible] def AppOp.Res (EndpointError : Type) : AppOp → Type
  | .cmdReceive => HciCmdBuf
  | .hostReceive => HciPacket
  | .read => Filled maxAclLen
  | .write _ _ => Except EndpointError Unit
  | .cmdTrySend _ | .ipcSendToNet _ => Bool
  | .ipcRecvFromNet _ => Filled (1 + maxHciPayload)
  | .hostSend _ | .waitEnabled _ | .trigger | .eventWait | .signal _ => Unit

abbrev AppProg (EndpointError : Type) := Prog (AppOp.Res EndpointError)

abbrev AppM (EndpointError : Type) := ExceptT Panic (AppProg EndpointError)

namespace AppM

def perform (o : AppOp) : AppM EndpointError (o.Res EndpointError) := ExceptT.lift (Prog.access o)

end AppM

open AppM (perform)

/-! ### The tasks -/

theorem cmdLen_le (data : List UInt8) : min data.length maxCmdLen ≤ maxCmdLen :=
  Nat.min_le_right _ _

/-- `control_out`. -/
def handleControlOut (req : Request) (data : List UInt8) :
    AppM EndpointError (Option OutResponse) :=
  if req.requestType = .class_ ∧ req.request = 0x00 ∧
      (req.recipient = .device ∨ req.recipient = .interface) then do
    let len := min data.length maxCmdLen
    let src ← slice data 0 len
    let buf ← copyFromSlice (List.replicate maxCmdLen 0) 0 len src
    -- a full channel is only logged
    let _ ← perform (.cmdTrySend
      { data := buf.val, len, data_length := buf.property.trans List.length_replicate,
        len_le := cmdLen_le data })
    return some .accepted
  else return none

/-- `ipc_send_to_net` of `app/src/ipc.rs`. -/
def ipcSendToNet (packet : List UInt8) : AppM EndpointError Bool := do
  let ok ← perform (.ipcSendToNet packet)
  if ok then perform .trigger
  return ok

/-- `cmd_task`. -/
def cmdTask : ℕ → AppM EndpointError Unit
  | 0 => return
  | k + 1 => do
      let cmd ← perform .cmdReceive
      let data ← slice cmd.data 0 cmd.len
      let pkt ← copyFromSlice (0x01 :: List.replicate maxCmdLen 0) 1 (1 + cmd.len) data
      let frame ← slice pkt.val 0 (1 + cmd.len)
      let _ ← ipcSendToNet frame
      cmdTask k

/-- `usb_read_task` once the endpoint is enabled; each round is a read. -/
def usbReadLoop : ℕ → AppM EndpointError Unit
  | 0 => return
  | k + 1 => do
      let r ← perform .read
      match r.n with
      | some n => do
          let data ← slice r.buf.toList 0 n
          let pkt ← copyFromSlice (0x02 :: List.replicate maxAclLen 0) 1 (1 + n) data
          let frame ← slice pkt.val 0 (1 + n)
          let _ ← ipcSendToNet frame
          usbReadLoop k
      | none => do
          -- the inner loop is left, and the outer one begins again
          perform (.waitEnabled .aclOut)
          usbReadLoop k

/-- `usb_read_task`. -/
def usbReadTask (k : ℕ) : AppM EndpointError Unit := do
  perform (.waitEnabled .aclOut)
  usbReadLoop k

theorem payloadLen_le (n : ℕ) : min (n - 1) maxHciPayload ≤ maxHciPayload := Nat.min_le_right _ _

/-- What `ipc_recv_task` makes of the `n` bytes it has read into `buf`. -/
def recvPkt (buf : List UInt8) (n : ℕ) : AppM EndpointError HciPacket := do
  let indicator ← index buf 0
  let payloadLen := min (n - 1) maxHciPayload
  let data ← slice buf 1 (1 + payloadLen)
  let payload ← copyFromSlice (List.replicate maxHciPayload 0) 0 payloadLen data
  return { indicator, payload := payload.val, len := payloadLen,
           payload_length := payload.property.trans List.length_replicate,
           len_le := payloadLen_le n }

/-- `ipc_recv_task` after its first wait; each round is a read of the ring. -/
def ipcRecvLoop (buf : Vector UInt8 (1 + maxHciPayload)) : ℕ → AppM EndpointError Unit
  | 0 => return
  | k + 1 => do
      let r ← perform (.ipcRecvFromNet buf)
      match r.n with
      | some n =>
          if n > 0 then do
            let pkt ← recvPkt r.buf.toList n
            perform (.hostSend pkt)
            ipcRecvLoop r.buf k
          else ipcRecvLoop r.buf k
      | none => do
          perform .eventWait
          ipcRecvLoop r.buf k

/-- `ipc_recv_task`. -/
def ipcRecvTask (k : ℕ) : AppM EndpointError Unit := do
  perform .eventWait
  ipcRecvLoop (Vector.replicate _ 0) k

/-- The endpoint for an indicator. -/
def Endpoint.ofIndicator (indicator : UInt8) : Option Endpoint :=
  if indicator = 0x04 then some .event
  else if indicator = 0x02 then some .aclIn
  else none

/-- `write_ep` on an endpoint. -/
def writeEpTo (ep : Endpoint) (data : List UInt8) :
    AppProg EndpointError (Except EndpointError Unit) :=
  (writeEp data : EpM EndpointError Unit).run.subst fun packet =>
    Prog.access (AppOp.write ep packet)

/-- The top of the loop of `usb_write_task`. -/
def usbConnect : AppM EndpointError Unit := do
  perform (.waitEnabled .event)
  perform (.signal .blue)

/-- `usb_write_task` once it is connected; each round is a packet. -/
def usbWriteLoop : ℕ → AppM EndpointError Unit
  | 0 => return
  | k + 1 => do
      let pkt ← perform .hostReceive
      match Endpoint.ofIndicator pkt.indicator with
      | none => usbWriteLoop k
      | some ep => do
          let data ← slice pkt.payload 0 pkt.len
          match ← ExceptT.lift (writeEpTo ep data) with
          | .ok () => usbWriteLoop k
          | .error _ => do
              perform (.signal .yellow)
              usbConnect
              usbWriteLoop k

/-- `usb_write_task`. -/
def usbWriteTask (k : ℕ) : AppM EndpointError Unit := do
  usbConnect
  usbWriteLoop k

/-! ### The checks -/

theorem handleControlOut_eq (req : Request) (data : List UInt8) :
    (handleControlOut req data : AppM EndpointError _) =
      if req.IsHciCommand then do
        let _ ← perform (.cmdTrySend (.ofData data))
        return some .accepted
      else return none := by
  rw [handleControlOut]
  refine if_congr Iff.rfl ?_ rfl
  have hlen : (data.take (min data.length maxCmdLen)).length = min data.length maxCmdLen := by
    simp
  simp only
  rw [slice_of_le (Nat.zero_le _) (Nat.min_le_left _ _), pure_bind, List.drop_zero,
    copyFromSlice_of_le (Nat.zero_le _) (by simp) (by omega), pure_bind]
  refine congrArg (fun cmd => (do
    let _ ← perform (.cmdTrySend cmd)
    return some OutResponse.accepted : AppM EndpointError _)) ?_
  simp only [HciCmdBuf.ofData, padded, hlen, List.take_zero, List.nil_append, List.drop_replicate]

theorem cmdTask_succ (k : ℕ) : (cmdTask (k + 1) : AppM EndpointError Unit) = (do
    let cmd ← perform .cmdReceive
    let _ ← ipcSendToNet (cmdPkt cmd)
    cmdTask k) := by
  rw [cmdTask]
  refine bind_congr fun cmd => ?_
  rw [slice_of_le (Nat.zero_le _) (by rw [cmd.data_length]; exact cmd.len_le), pure_bind,
    List.drop_zero, cmdPkt_eq]
  exact frame_bind [0x01] rfl cmd.bytes_length
    (cmd.len_le.trans_eq List.length_replicate.symm) _

/-- What was read. -/
def Filled.data {cap : ℕ} (r : Filled cap) (n : ℕ) : List UInt8 := r.buf.toList.take n

theorem usbReadLoop_succ (k : ℕ) : (usbReadLoop (k + 1) : AppM EndpointError Unit) = (do
    let r ← perform .read
    match r.n with
    | some n => do
        let _ ← ipcSendToNet (aclPkt (r.data n))
        usbReadLoop k
    | none => do
        perform (.waitEnabled .aclOut)
        usbReadLoop k) := by
  rw [usbReadLoop]
  refine bind_congr fun r => ?_
  cases hn : r.n with
  | none => rfl
  | some n =>
      have hle : n ≤ maxAclLen := r.n_le n hn
      have hlen : (r.data n).length = n := by simp [Filled.data, hle]
      simp only
      rw [slice_of_le (Nat.zero_le _) (by simpa using hle), pure_bind, List.drop_zero,
        aclPkt_eq]
      exact frame_bind [0x02] rfl hlen (hle.trans_eq List.length_replicate.symm) _

theorem recvPkt_eq {buf : List UInt8} (n : ℕ) (hbuf : buf.length = 1 + maxHciPayload) :
    (recvPkt buf n : AppM EndpointError HciPacket) = pure (.ofBuf buf n) := by
  have hle := payloadLen_le n
  have hdata : (buf.take (1 + min (n - 1) maxHciPayload)).drop 1 =
      (buf.drop 1).take (min (n - 1) maxHciPayload) := by
    rw [List.drop_take, Nat.add_sub_cancel_left]
  have hlen : ((buf.drop 1).take (min (n - 1) maxHciPayload)).length =
      min (n - 1) maxHciPayload := by
    rw [List.length_take, List.length_drop]
    omega
  have hget : buf[0]? = some (buf.getD 0 0) := by
    rw [List.getD_eq_getElem?_getD, List.getElem?_eq_getElem (by omega)]
    rfl
  rw [recvPkt, index, hget]
  simp only [pure_bind]
  rw [slice_of_le (Nat.le_add_right _ _) (by omega), pure_bind, hdata,
    copyFromSlice_of_le (Nat.zero_le _) (by simp) (by omega), pure_bind]
  refine congrArg pure ?_
  simp only [HciPacket.ofBuf, padded, hlen, List.take_zero, List.nil_append, List.drop_replicate]

theorem ipcRecvLoop_succ (buf : Vector UInt8 (1 + maxHciPayload)) (k : ℕ) :
    (ipcRecvLoop buf (k + 1) : AppM EndpointError Unit) = (do
      let r ← perform (.ipcRecvFromNet buf)
      match r.n with
      | some n =>
          if n > 0 then do
            perform (.hostSend (.ofBuf r.buf.toList n))
            ipcRecvLoop r.buf k
          else ipcRecvLoop r.buf k
      | none => do
          perform .eventWait
          ipcRecvLoop r.buf k) := by
  rw [ipcRecvLoop]
  refine bind_congr fun r => ?_
  cases hn : r.n with
  | none => rfl
  | some n =>
      simp only
      split
      · rw [recvPkt_eq n r.buf.length_toList, pure_bind]
      · rfl

end NrfHciUsb
