import NrfHciUsb.Net.Effects
import NrfHciUsb.Ipc.Ring

/-!
# Net — Dispatch

The HCI command dispatcher of the net core, `dispatch_hci_cmd`, with its macros and the helpers
that build its replies (`net/src/main.rs`).

Each arm is one of two shapes: a command whose parameters are too short is answered with status
`0x12`, and any other is a call into the SoftDevice Controller answered with what that returns
(`Arm.exec_short`, `Arm.exec_call`).  So a dispatch is one of the four programs of
`dispatch_short`, `dispatch_unknown`, `dispatch_params_short` and `dispatch_call`.
-/

namespace NrfHciUsb
open Support

variable {abi : SdcAbi}

/-! ### Event helpers -/

/-- `send_cc_event`. -/
def sendCcEvent (opcode : UInt16) (status : UInt8) (returnData : List UInt8) : NetM abi Unit := do
  let retLen := min returnData.length 64
  let paramLen := UInt8.ofNat (4 + retLen)
  let buf := [0x04, 0x0E, paramLen, 0x01, (opcode &&& 0xFF).toUInt8, (opcode >>> 8).toUInt8,
    status] ++ List.replicate 64 0
  let data ← slice returnData 0 retLen
  let buf ← copyFromSlice buf 7 (7 + retLen) data
  let pkt ← slice buf.val 0 (7 + retLen)
  notifyApp pkt

/-- `send_cs_event`. -/
def sendCsEvent (opcode : UInt16) (status : UInt8) : NetM abi Unit :=
  notifyApp [0x04, 0x0F, 0x04, status, 0x01, (opcode &&& 0xFF).toUInt8, (opcode >>> 8).toUInt8]

/-! ### The macros -/

/-- `cc!`: a Command Complete event with the status only. -/
def cc (opcode : UInt16) (status : UInt8) : NetM abi Unit := sendCcEvent opcode status []

/-- `cmd_p!`: a command with parameters and no return data.

The macro gives the function a pointer to its parameter structure at `params[0]`.  What `sdcHciCmd`
records is that structure, which assumes that the controller reads no further behind the pointer;
so in the other two macros with parameters. -/
def cmdP (fn : SdcHciCmd) (opcode : UInt16) (params : List UInt8) : NetM abi Bool := do
  let sz := abi.paramSize fn
  let status ← if params.length ≥ sz then do
      let r ← sdcHciCmd fn (params.take sz)
      pure r.status
    else pure 0x12
  cc opcode status
  pure true

/-- `cmd_n!`: a command with neither. -/
def cmdN (fn : SdcHciCmd) (opcode : UInt16) : NetM abi Bool := do
  let r ← sdcHciCmd fn []
  cc opcode r.status
  pure true

/-- `cmd_r!`: a command with return data only. -/
def cmdR (fn : SdcHciCmd) (opcode : UInt16) : NetM abi Bool := do
  let r ← sdcHciCmd fn []
  sendCcEvent opcode r.status r.ret.toList
  pure true

/-- `cmd_pr!`: a command with parameters and return data. -/
def cmdPr (fn : SdcHciCmd) (opcode : UInt16) (params : List UInt8) : NetM abi Bool := do
  let sz := abi.paramSize fn
  if params.length ≥ sz then do
    let r ← sdcHciCmd fn (params.take sz)
    sendCcEvent opcode r.status r.ret.toList
  else cc opcode 0x12
  pure true

/-- `cmd_async_p!`: a command with parameters, whose result is an event that comes later. -/
def cmdAsyncP (fn : SdcHciCmd) (opcode : UInt16) (params : List UInt8) : NetM abi Bool := do
  let sz := abi.paramSize fn
  let status ← if params.length ≥ sz then do
      let r ← sdcHciCmd fn (params.take sz)
      pure r.status
    else pure 0x12
  sendCsEvent opcode status
  pure true

/-- `cmd_async_n!`: the same without parameters. -/
def cmdAsyncN (fn : SdcHciCmd) (opcode : UInt16) : NetM abi Bool := do
  let r ← sdcHciCmd fn []
  sendCsEvent opcode r.status
  pure true

/-- The body of an arm. -/
def Arm.exec (opcode : UInt16) (params : List UInt8) : Arm → NetM abi Bool
  | .cmdP fn => NrfHciUsb.cmdP fn opcode params
  | .cmdN fn => NrfHciUsb.cmdN fn opcode
  | .cmdR fn => NrfHciUsb.cmdR fn opcode
  | .cmdPr fn => NrfHciUsb.cmdPr fn opcode params
  | .cmdAsyncP fn => NrfHciUsb.cmdAsyncP fn opcode params
  | .cmdAsyncN fn => NrfHciUsb.cmdAsyncN fn opcode

/-- `dispatch_hci_cmd`. -/
def dispatchHciCmd (payload : List UInt8) : NetM abi Bool :=
  if payload.length < 2 then pure false
  else do
    let lo ← index payload 0
    let hi ← index payload 1
    let opcode := u16FromLeBytes lo hi
    let params ← if payload.length > 3 then slice payload 3 payload.length else pure []
    match commandTable.lookup opcode with
    | some arm => arm.exec opcode params
    | none => pure false

/-! ### The replies as frames -/

/-- The frame of a Command Complete event:
`[0x04][0x0E][param_len][0x01][op_lo][op_hi][status][return_data...]`. -/
def ccFrame (opcode : UInt16) (status : UInt8) (returnData : List UInt8) : List UInt8 :=
  [0x04, 0x0E, UInt8.ofNat (4 + min returnData.length 64), 0x01, (opcode &&& 0xFF).toUInt8,
    (opcode >>> 8).toUInt8, status] ++ returnData.take 64

/-- The frame of a Command Status event: `[0x04][0x0F][0x04][status][0x01][op_lo][op_hi]`. -/
def csFrame (opcode : UInt16) (status : UInt8) : List UInt8 :=
  [0x04, 0x0F, 0x04, status, 0x01, (opcode &&& 0xFF).toUInt8, (opcode >>> 8).toUInt8]

theorem sendCcEvent_eq (opcode : UInt16) (status : UInt8) (returnData : List UInt8) :
    (sendCcEvent opcode status returnData : NetM abi Unit) =
      notifyApp (ccFrame opcode status returnData) := by
  have hdata : (returnData.take (min returnData.length 64)).length = min returnData.length 64 := by
    simp
  have htake : returnData.take (min returnData.length 64) = returnData.take 64 := by
    rw [Nat.min_comm, ← List.take_take, List.take_length]
  have hfits : min returnData.length 64 ≤ (List.replicate 64 (0 : UInt8)).length := by
    rw [List.length_replicate]
    exact Nat.min_le_right _ _
  simp only [sendCcEvent]
  rw [slice_of_le (Nat.zero_le _) (Nat.min_le_left _ _), pure_bind, List.drop_zero]
  refine (frame_bind _ rfl hdata hfits notifyApp).trans ?_
  rw [htake]
  rfl

/-! ### The shapes of an arm -/

def Arm.fn : Arm → SdcHciCmd
  | .cmdP fn | .cmdN fn | .cmdR fn | .cmdPr fn | .cmdAsyncP fn | .cmdAsyncN fn => fn

def Arm.takesParams : Arm → Bool
  | .cmdP _ | .cmdPr _ | .cmdAsyncP _ => true
  | .cmdN _ | .cmdR _ | .cmdAsyncN _ => false

def Arm.returnsData : Arm → Bool
  | .cmdR _ | .cmdPr _ => true
  | .cmdP _ | .cmdN _ | .cmdAsyncP _ | .cmdAsyncN _ => false

/-- The arm answers with a Command Status event. -/
def Arm.isAsync : Arm → Bool
  | .cmdAsyncP _ | .cmdAsyncN _ => true
  | .cmdP _ | .cmdN _ | .cmdR _ | .cmdPr _ => false

/-- The parameters are shorter than the structure. -/
def Arm.Short (abi : SdcAbi) (params : List UInt8) (arm : Arm) : Prop :=
  arm.takesParams ∧ params.length < abi.paramSize arm.fn

instance (abi : SdcAbi) (params : List UInt8) (arm : Arm) : Decidable (arm.Short abi params) :=
  inferInstanceAs (Decidable (_ ∧ _))

/-- The bytes of the parameter structure. -/
def Arm.args (abi : SdcAbi) (params : List UInt8) (arm : Arm) : List UInt8 :=
  if arm.takesParams then params.take (abi.paramSize arm.fn) else []

/-- The reply to a command. -/
def Arm.frame (opcode : UInt16) (status : UInt8) (returnData : List UInt8) (arm : Arm) :
    List UInt8 :=
  if arm.isAsync then csFrame opcode status
  else ccFrame opcode status (if arm.returnsData then returnData else [])

theorem Arm.exec_short {params : List UInt8} {arm : Arm} (opcode : UInt16)
    (h : arm.Short abi params) : (arm.exec opcode params : NetM abi Bool) =
      (do notifyApp (arm.frame opcode 0x12 []); pure true) := by
  obtain ⟨ht, hlt⟩ := h
  have hlt : ¬ params.length ≥ abi.paramSize arm.fn := by omega
  cases arm with
  | cmdP fn | cmdPr fn | cmdAsyncP fn =>
      rw [Arm.fn] at hlt
      simp [Arm.exec, NrfHciUsb.cmdP, NrfHciUsb.cmdPr, NrfHciUsb.cmdAsyncP, hlt, cc, sendCsEvent,
        sendCcEvent_eq, Arm.frame, Arm.isAsync, Arm.returnsData, csFrame]
  | cmdN fn | cmdR fn | cmdAsyncN fn => cases ht

theorem Arm.exec_call {params : List UInt8} {arm : Arm} (opcode : UInt16)
    (h : ¬ arm.Short abi params) : (arm.exec opcode params : NetM abi Bool) =
      (do
        let r ← sdcHciCmd arm.fn (arm.args abi params)
        notifyApp (arm.frame opcode r.status r.ret.toList)
        pure true) := by
  cases arm with
  | cmdP fn | cmdPr fn | cmdAsyncP fn =>
      have hge : params.length ≥ abi.paramSize fn := by
        simpa [Arm.Short, Arm.takesParams, Arm.fn] using h
      simp [Arm.exec, NrfHciUsb.cmdP, NrfHciUsb.cmdPr, NrfHciUsb.cmdAsyncP, hge, cc, sendCsEvent,
        sendCcEvent_eq, Arm.frame, Arm.isAsync, Arm.returnsData, csFrame, Arm.fn, Arm.args,
        Arm.takesParams]
  | cmdN fn | cmdR fn | cmdAsyncN fn =>
      simp [Arm.exec, NrfHciUsb.cmdN, NrfHciUsb.cmdR, NrfHciUsb.cmdAsyncN, cc, sendCsEvent,
        sendCcEvent_eq, Arm.frame, Arm.isAsync, Arm.returnsData, csFrame, Arm.fn, Arm.args,
        Arm.takesParams]

/-! ### The shapes of a dispatch -/

theorem dispatch_short {payload : List UInt8} (h : payload.length < 2) :
    (dispatchHciCmd payload : NetM abi Bool) = pure false := if_pos h

/-- A payload with an opcode goes to its arm, with what follows the parameter length. -/
theorem dispatch_opcode (lo hi : UInt8) (rest : List UInt8) :
    (dispatchHciCmd (lo :: hi :: rest) : NetM abi Bool) =
      match commandTable.lookup (u16FromLeBytes lo hi) with
      | some arm => arm.exec (u16FromLeBytes lo hi) (rest.drop 1)
      | none => pure false := by
  rw [dispatchHciCmd, if_neg (by simp), index_of_lt (by simp), index_of_lt (by simp)]
  simp only [pure_bind, List.getElem_cons_zero, List.getElem_cons_succ]
  by_cases h3 : (lo :: hi :: rest).length > 3
  · rw [if_pos h3, slice_of_le (Nat.le_of_lt h3) (Nat.le_refl _), List.take_length, pure_bind]
    rfl
  · have hrest : rest.drop 1 = [] := by
      simp only [List.length_cons] at h3
      exact List.drop_eq_nil_of_le (by omega)
    rw [if_neg h3, hrest]

theorem dispatch_unknown {lo hi : UInt8} (rest : List UInt8)
    (h : commandTable.lookup (u16FromLeBytes lo hi) = none) :
    (dispatchHciCmd (lo :: hi :: rest) : NetM abi Bool) = pure false := by
  rw [dispatch_opcode, h]

theorem dispatch_params_short {lo hi : UInt8} {rest : List UInt8} {arm : Arm}
    (h : commandTable.lookup (u16FromLeBytes lo hi) = some arm)
    (hs : arm.Short abi (rest.drop 1)) :
    (dispatchHciCmd (lo :: hi :: rest) : NetM abi Bool) =
      (do notifyApp (arm.frame (u16FromLeBytes lo hi) 0x12 []); pure true) := by
  rw [dispatch_opcode, h]
  exact Arm.exec_short _ hs

theorem dispatch_call {lo hi : UInt8} {rest : List UInt8} {arm : Arm}
    (h : commandTable.lookup (u16FromLeBytes lo hi) = some arm)
    (hs : ¬ arm.Short abi (rest.drop 1)) :
    (dispatchHciCmd (lo :: hi :: rest) : NetM abi Bool) =
      (do
        let r ← sdcHciCmd arm.fn (arm.args abi (rest.drop 1))
        notifyApp (arm.frame (u16FromLeBytes lo hi) r.status r.ret.toList)
        pure true) := by
  rw [dispatch_opcode, h]
  exact Arm.exec_call _ hs

end NrfHciUsb
