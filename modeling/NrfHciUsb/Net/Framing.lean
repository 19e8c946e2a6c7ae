import NrfHciUsb.Net.Encoding

/-!
# Net — Framing

The framing of a command, opcode, parameter length and parameters, and what the dispatcher makes
of it.  It takes the opcode from the first two bytes and the parameters from behind the third,
and does not look at the third.

* `wellFramed_iff`: the well-framed payloads are the bytes of the commands.
* `dispatchHciCmd_set_paramLen`: a dispatch is the same program whatever the parameter length
  says.
* `dispatch_framing`: whether a command reaches the controller depends on its arm and on how many
  bytes there are behind the third.
-/

namespace NrfHciUsb
open Support

variable {abi : SdcAbi} {σ : Type}

/-! ### Commands -/

/-- An HCI command; its parameter length is one byte. -/
structure HciCommand where
  opcode : UInt16
  params : List UInt8
  params_length : params.length ≤ 255
  deriving DecidableEq

/-- `opcode(2) + param_len(1) + params`. -/
def HciCommand.bytes (cmd : HciCommand) : List UInt8 :=
  (u16ToLeBytes cmd.opcode).1 :: (u16ToLeBytes cmd.opcode).2 :: UInt8.ofNat cmd.params.length ::
    cmd.params

theorem HciCommand.bytes_length (cmd : HciCommand) :
    cmd.bytes.length = 3 + cmd.params.length := by
  rw [bytes, List.length_cons, List.length_cons, List.length_cons]
  omega

/-- The parameter length a payload declares. -/
def declaredLen (payload : List UInt8) : ℕ := (payload.getD 2 0).toNat

/-- The bytes of the declared parameters, as far as they are there. -/
def paramField (payload : List UInt8) : List UInt8 := (payload.drop 3).take (declaredLen payload)

/-- The payload has a parameter length, and as many parameters. -/
def WellFramed (payload : List UInt8) : Prop :=
  3 ≤ payload.length ∧ payload.length = 3 + declaredLen payload

instance (payload : List UInt8) : Decidable (WellFramed payload) :=
  inferInstanceAs (Decidable (_ ∧ _))

theorem HciCommand.declaredLen_bytes (cmd : HciCommand) :
    declaredLen cmd.bytes = cmd.params.length :=
  UInt8.toNat_ofNat_of_lt' (Nat.lt_succ_of_le cmd.params_length)

/-- **Framing.**  The well-framed payloads are the bytes of the commands. -/
theorem wellFramed_iff {payload : List UInt8} :
    WellFramed payload ↔ ∃ cmd : HciCommand, cmd.bytes = payload := by
  constructor
  · rintro ⟨h3, hlen⟩
    obtain ⟨lo, hi, n, params, rfl⟩ : ∃ lo hi n params, payload = lo :: hi :: n :: params := by
      match payload, h3 with
      | lo :: hi :: n :: params, _ => exact ⟨lo, hi, n, params, rfl⟩
    have hn : params.length = n.toNat := by
      change params.length + 3 = 3 + n.toNat at hlen
      omega
    have hle : params.length ≤ 255 := by
      rw [hn]
      exact Nat.le_of_lt_succ n.toNat_lt
    refine ⟨⟨u16FromLeBytes lo hi, params, hle⟩, ?_⟩
    rw [HciCommand.bytes, u16ToLeBytes_fromLeBytes, hn, UInt8.ofNat_toNat]
  · rintro ⟨cmd, rfl⟩
    rw [WellFramed, cmd.declaredLen_bytes, cmd.bytes_length]
    exact ⟨Nat.le_add_right 3 _, rfl⟩

theorem WellFramed.drop_length {payload : List UInt8} (h : WellFramed payload) :
    (payload.drop 3).length = declaredLen payload := by
  rw [List.length_drop, h.2, Nat.add_sub_cancel_left]

/-- All of the bytes behind the length of a well-framed payload are declared. -/
theorem WellFramed.paramField {payload : List UInt8} (h : WellFramed payload) :
    paramField payload = payload.drop 3 := by
  rw [NrfHciUsb.paramField, ← h.drop_length, List.take_length]

/-! ### Dispatch -/

/-- The dispatcher does not look at the parameter length. -/
theorem dispatchHciCmd_set_paramLen (payload : List UInt8) (b : UInt8) :
    (dispatchHciCmd (payload.set 2 b) : NetM abi Bool) = dispatchHciCmd payload := by
  match payload with
  | [] | [_] | [_, _] => rfl
  | lo :: hi :: n :: params =>
      show dispatchHciCmd (lo :: hi :: b :: params) = _
      rw [dispatch_opcode, dispatch_opcode]
      rfl

theorem sdcCalls_dispatch (env : NetEnv abi σ) {payload : List UInt8} {arm : Arm}
    (harm : armOf payload = some arm) (s : σ) :
    sdcCalls (NetM.effects env (dispatchHciCmd payload) s) =
      if arm.Short abi (payload.drop 3) then [] else [(arm.fn, arm.args abi (payload.drop 3))] := by
  rw [(dispatch_with_arm env harm s).2]
  split <;> rfl

theorem Arm.args_prefix (arm : Arm) (params : List UInt8) : arm.args abi params <+: params := by
  rw [Arm.args]
  split
  · exact List.take_prefix _ _
  · exact List.nil_prefix

/-- **Framing of a dispatch.**  A command with an arm reaches the controller unless its arm takes
parameters and there are not enough bytes for them; it is then one call, with the first of these
bytes, which are declared ones if the payload is well framed.  Otherwise the controller is left
alone and the reply is an error, as for a well-framed payload that declares too few.  What the
parameter length says makes no difference. -/
theorem dispatch_framing (env : NetEnv abi σ) {payload : List UInt8} {arm : Arm}
    (harm : armOf payload = some arm) (s : σ) :
    sdcCalls (NetM.effects env (dispatchHciCmd payload) s) =
      (if arm.Short abi (payload.drop 3) then [] else [(arm.fn, arm.args abi (payload.drop 3))]) ∧
    arm.args abi (payload.drop 3) <+: payload.drop 3 ∧
    (WellFramed payload → arm.args abi (payload.drop 3) <+: paramField payload) ∧
    (arm.Short abi (payload.drop 3) →
      NetM.effects env (dispatchHciCmd payload) s =
        [.notifyApp (arm.frame (opcodeOf payload) 0x12 [])] ∧
      ∃ reply, decodeReply (arm.frame (opcodeOf payload) 0x12 []) = some reply ∧
        reply.opcode = opcodeOf payload ∧ reply.status = 0x12) ∧
    (WellFramed payload →
      (arm.Short abi (payload.drop 3) ↔
        arm.takesParams ∧ declaredLen payload < abi.paramSize arm.fn)) ∧
    ∀ b, NetM.exec env (dispatchHciCmd (payload.set 2 b)) s =
        NetM.exec env (dispatchHciCmd payload) s ∧
      NetM.effects env (dispatchHciCmd (payload.set 2 b)) s =
        NetM.effects env (dispatchHciCmd payload) s := by
  refine ⟨sdcCalls_dispatch env harm s, arm.args_prefix _, ?_, ?_, ?_, ?_⟩
  · intro hwf
    rw [hwf.paramField]
    exact arm.args_prefix _
  · intro hs
    have heff := (dispatch_with_arm env harm s).2
    rw [if_pos hs] at heff
    obtain ⟨reply, hdec, hopcode, hstatus, -⟩ := decode_frame arm (opcodeOf payload) 0x12 []
    exact ⟨heff, reply, hdec, hopcode, hstatus⟩
  · intro hwf
    rw [Arm.Short, hwf.drop_length]
  · intro b
    rw [dispatchHciCmd_set_paramLen]
    exact ⟨rfl, rfl⟩

/-- LE Set Advertising Enable, well framed: with its parameter, and declaring none. -/
theorem dispatch_framing_advEnable :
    sdcCalls (NetM.effects (NetEnv.zeros someAbi)
      (dispatchHciCmd [0x0A, 0x20, 0x01, 0x01]) ()) = [(.leSetAdvEnable, [0x01])] ∧
    sdcCalls (NetM.effects (NetEnv.zeros someAbi)
      (dispatchHciCmd [0x0A, 0x20, 0x00]) ()) = [] :=
  ⟨(@dispatch_framing someAbi _ (NetEnv.zeros _) [0x0A, 0x20, 0x01, 0x01]
      (.cmdP .leSetAdvEnable) (by decide +kernel) ()).1,
    (@dispatch_framing someAbi _ (NetEnv.zeros _) [0x0A, 0x20, 0x00]
      (.cmdP .leSetAdvEnable) (by decide +kernel) ()).1⟩

/-- **Not well framed, and executed.**  HCI Reset without a parameter length, and LE Set
Advertising Enable with a parameter that it does not declare. -/
theorem unframed_executed :
    ¬ (∀ payload arm, armOf payload = some arm →
      sdcCalls (NetM.effects (NetEnv.zeros someAbi)
        (dispatchHciCmd payload) ()) ≠ [] → WellFramed payload) ∧
    (¬ WellFramed [0x03, 0x0C] ∧
      sdcCalls (NetM.effects (NetEnv.zeros someAbi)
        (dispatchHciCmd [0x03, 0x0C]) ()) = [(.cbReset, [])]) ∧
    ¬ WellFramed [0x0A, 0x20, 0x00, 0x01] ∧ paramField [0x0A, 0x20, 0x00, 0x01] = [] ∧
      sdcCalls (NetM.effects (NetEnv.zeros someAbi)
        (dispatchHciCmd [0x0A, 0x20, 0x00, 0x01]) ()) = [(.leSetAdvEnable, [0x01])] := by
  have hreset : sdcCalls (NetM.effects (NetEnv.zeros someAbi)
      (dispatchHciCmd [0x03, 0x0C]) ()) = [(.cbReset, [])] := by
    decide +kernel
  have hframing : ¬ WellFramed [0x03, 0x0C] := by decide
  refine ⟨?_, ⟨hframing, hreset⟩, by decide, by decide, by decide +kernel⟩
  intro h
  exact hframing (h [0x03, 0x0C] (.cmdN .cbReset) (by decide +kernel) (by rw [hreset]; simp))

end NrfHciUsb
