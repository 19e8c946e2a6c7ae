import NrfHciUsb.Net.RxLoop

/-!
# Net — Replies

The replies of the dispatcher as HCI events: what a Command Complete or Command Status event says
(`HciReply`, `decodeReply`), and which of the two a command is to be answered with.

* `decode_ccFrame`, `decode_csFrame`: the frames the dispatcher builds are such events, and say
  what they were built from.
* `dispatch_with_arm`: what a dispatch does, in one equation.
* `answered_iff`: a command is answered once, and with the right kind of event, exactly when the
  dispatcher has an arm for it and it is none of the three whose arm has the wrong macro.
-/

namespace NrfHciUsb
open Support

variable {abi : SdcAbi} {σ : Type}

/-! ### Events -/

/-- What an event says that replies to a command. -/
inductive HciReply where
  | commandComplete (opcode : UInt16) (status : UInt8) (returnData : List UInt8)
  | commandStatus (opcode : UInt16) (status : UInt8)
  deriving DecidableEq, Repr

def HciReply.opcode : HciReply → UInt16
  | .commandComplete opcode _ _ | .commandStatus opcode _ => opcode

def HciReply.status : HciReply → UInt8
  | .commandComplete _ status _ | .commandStatus _ status => status

def HciReply.isStatus : HciReply → Bool
  | .commandComplete _ _ _ => false
  | .commandStatus _ _ => true

/-- The reply in a frame: the event indicator, the event code, the length of the parameters and
the parameters. -/
def decodeReply : List UInt8 → Option HciReply
  | indicator :: code :: len :: params =>
      if indicator = 0x04 ∧ len.toNat = params.length then
        if code = 0x0E then
          match params with
          | _num :: lo :: hi :: status :: ret =>
              some (.commandComplete (u16FromLeBytes lo hi) status ret)
          | _ => none
        else if code = 0x0F then
          match params with
          | [status, _num, lo, hi] => some (.commandStatus (u16FromLeBytes lo hi) status)
          | _ => none
        else none
      else none
  | _ => none

/-- The two bytes of an opcode are put together again. -/
theorem u16FromLeBytes_opcode (opcode : UInt16) :
    u16FromLeBytes (opcode &&& 0xFF).toUInt8 (opcode >>> 8).toUInt8 = opcode := by
  have h := opcode.toNat_lt
  have hlo : (opcode &&& 0xFF).toUInt8.toNat = opcode.toNat % 256 := by
    rw [UInt16.toNat_toUInt8, UInt16.toNat_and, show (0xFF : UInt16).toNat = 2 ^ 8 - 1 from rfl,
      Nat.and_two_pow_sub_one_eq_mod]
    omega
  have hhi : (opcode >>> 8).toUInt8.toNat = opcode.toNat / 256 := by
    rw [UInt16.toNat_toUInt8, UInt16.toNat_shiftRight, Nat.shiftRight_eq_div_pow]
    show opcode.toNat / 256 % 2 ^ 8 = _
    omega
  apply UInt16.toNat_inj.mp
  rw [u16FromLeBytes_toNat, hlo, hhi]
  omega

theorem decode_ccFrame (opcode : UInt16) (status : UInt8) (returnData : List UInt8) :
    decodeReply (ccFrame opcode status returnData) =
      some (.commandComplete opcode status (returnData.take 64)) := by
  have hlen : (UInt8.ofNat (4 + min returnData.length 64)).toNat =
      (0x01 :: (opcode &&& 0xFF).toUInt8 :: (opcode >>> 8).toUInt8 :: status ::
        returnData.take 64).length := by
    rw [UInt8.toNat_ofNat_of_lt' (by show _ < 256; omega)]
    simp only [List.length_cons, List.length_take]
    omega
  show (if _ ∧ _ then _ else _) = _
  rw [if_pos ⟨rfl, hlen⟩, if_pos rfl]
  show some (HciReply.commandComplete _ _ _) = _
  rw [u16FromLeBytes_opcode]
  rfl

theorem decode_csFrame (opcode : UInt16) (status : UInt8) :
    decodeReply (csFrame opcode status) = some (.commandStatus opcode status) := by
  simp only [csFrame, decodeReply, u16FromLeBytes_opcode]
  rfl

/-- What an arm's reply says. -/
def Arm.reply (opcode : UInt16) (status : UInt8) (returnData : List UInt8) (arm : Arm) : HciReply :=
  if arm.isAsync then .commandStatus opcode status
  else .commandComplete opcode status (if arm.returnsData then returnData.take 64 else [])

theorem Arm.decode_frame_eq (arm : Arm) (opcode : UInt16) (status : UInt8)
    (returnData : List UInt8) : decodeReply (arm.frame opcode status returnData) =
      some (arm.reply opcode status returnData) := by
  rw [Arm.frame, Arm.reply]
  split
  · exact decode_csFrame _ _
  · rw [decode_ccFrame]
    split <;> rfl

/-- The reply an arm sends: the frame it hands over says what it was given. -/
theorem decode_frame (arm : Arm) (opcode : UInt16) (status : UInt8) (returnData : List UInt8) :
    ∃ reply, decodeReply (arm.frame opcode status returnData) = some reply ∧
      reply.opcode = opcode ∧ reply.status = status ∧ reply.isStatus = arm.isAsync := by
  refine ⟨_, arm.decode_frame_eq opcode status returnData, ?_⟩
  rw [Arm.reply]
  split
  · exact ⟨rfl, rfl, by simp [HciReply.isStatus, *]⟩
  · exact ⟨rfl, rfl, by simp_all [HciReply.isStatus]⟩

/-! ### Which reply a command is to get -/

/-- The commands that the Bluetooth Core Specification completes by a later event: Disconnect,
Read Remote Version Information, LE Create Connection, LE Connection Update, LE Read Remote
Features, LE Enable Encryption, LE Set PHY, LE Extended Create Connection, LE Periodic Advertising
Create Sync, LE Create CIS, LE Accept CIS Request, LE Create BIG, LE Create BIG Test, LE Terminate
BIG and LE BIG Create Sync. -/
def completedLater : List UInt16 :=
  [0x0406, 0x041D, 0x200D, 0x2013, 0x2016, 0x2019, 0x2032, 0x2043, 0x2044, 0x2064, 0x2066, 0x2068,
    0x2069, 0x206A, 0x206B]

/-- The right kind of reply: a Command Status event for a command completed later, a Command
Complete event for any other supported one, and an error for an unsupported one. -/
def HciReply.RightKind (opcode : UInt16) (reply : HciReply) : Prop :=
  if opcode ∈ completedLater then reply.isStatus = true
  else if (commandTable.lookup opcode).isSome then reply.isStatus = false
  else reply.status ≠ 0

/-- The frames handed to `notify_app`, in order. -/
def notified (ops : List NetOp) : List (List UInt8) :=
  ops.filterMap fun
    | .notifyApp pkt => some pkt
    | _ => none

/-- One event, about this command and of the right kind. -/
def AnsweredOnce (opcode : UInt16) (pkts : List (List UInt8)) : Prop :=
  ∃ pkt reply, pkts = [pkt] ∧ decodeReply pkt = some reply ∧ reply.opcode = opcode ∧
    reply.RightKind opcode

/-- The opcode of a command. -/
def opcodeOf (payload : List UInt8) : UInt16 :=
  u16FromLeBytes (payload.getD 0 0) (payload.getD 1 0)

/-- The arms whose macro sends the other kind of event: LE Create Connection Cancel and LE
Periodic Advertising Create Sync Cancel, which are completed at once, and LE Accept CIS Request,
which is completed later. -/
def wrongKind : List UInt16 := [0x200E, 0x2045, 0x2066]

/-- **The table.**  An arm sends a Command Status event exactly for the commands completed later,
but for the three of `wrongKind`. -/
theorem commandTable_kind : ∀ e ∈ commandTable,
    (e.1 ∈ wrongKind ↔ e.2.isAsync ≠ decide (e.1 ∈ completedLater)) := by
  decide +kernel

/-! ### Which reply it gets -/

theorem lookup_mem {opcode : UInt16} {arm : Arm} (h : commandTable.lookup opcode = some arm) :
    (opcode, arm) ∈ commandTable := by
  obtain ⟨l₁, l₂, hl, -⟩ := List.lookup_eq_some_iff.mp h
  rw [hl]
  simp

/-- The arm a payload goes to, if it has an opcode and that has an arm. -/
def armOf (payload : List UInt8) : Option Arm :=
  if payload.length < 2 then none else commandTable.lookup (opcodeOf payload)

theorem armOf_cons_cons (lo hi : UInt8) (rest : List UInt8) :
    armOf (lo :: hi :: rest) = commandTable.lookup (u16FromLeBytes lo hi) := if_neg (by simp)

/-- What the controller answers to a call of `fn`. -/
def NetEnv.reply (env : NetEnv abi σ) (fn : SdcHciCmd) (params : List UInt8) (s : σ) :
    SdcReply abi fn := (env (.sdcHciCmd fn params) s).1

/-- Without an arm a dispatch does nothing. -/
theorem dispatch_without_arm (env : NetEnv abi σ) {payload : List UInt8}
    (harm : armOf payload = none) (s : σ) :
    NetM.exec env (dispatchHciCmd payload) s = (.ok false, s) ∧
      NetM.effects env (dispatchHciCmd payload) s = [] := by
  match payload with
  | [] | [_] =>
      rw [dispatch_short (by simp)]
      exact ⟨rfl, rfl⟩
  | lo :: hi :: rest =>
      rw [armOf_cons_cons] at harm
      rw [dispatch_unknown rest harm]
      exact ⟨rfl, rfl⟩

/-- **A dispatch** with an arm replies with status `0x12`, or with what one call into the
controller returned. -/
theorem dispatch_with_arm (env : NetEnv abi σ) {payload : List UInt8} {arm : Arm}
    (harm : armOf payload = some arm) (s : σ) :
    (NetM.exec env (dispatchHciCmd payload) s).1 = .ok true ∧
    NetM.effects env (dispatchHciCmd payload) s =
      if arm.Short abi (payload.drop 3) then
        [.notifyApp (arm.frame (opcodeOf payload) 0x12 [])]
      else
        let r := env.reply arm.fn (arm.args abi (payload.drop 3)) s
        [.sdcHciCmd arm.fn (arm.args abi (payload.drop 3)),
          .notifyApp (arm.frame (opcodeOf payload) r.status r.ret.toList)] := by
  match payload with
  | [] | [_] => cases harm
  | lo :: hi :: rest =>
      rw [armOf_cons_cons] at harm
      by_cases hs : arm.Short abi (rest.drop 1)
      · rw [dispatch_params_short harm hs]
        exact ⟨rfl, (if_pos hs).symm⟩
      · rw [dispatch_call harm hs]
        exact ⟨rfl, (if_neg hs).symm⟩

/-- A command with an arm is answered by one frame, that of its arm. -/
theorem dispatch_notified (env : NetEnv abi σ) {payload : List UInt8} {arm : Arm}
    (hlen : 2 ≤ payload.length) (h : commandTable.lookup (opcodeOf payload) = some arm) (s : σ) :
    ∃ status returnData, notified (NetM.effects env (dispatchHciCmd payload) s) =
      [arm.frame (opcodeOf payload) status returnData] := by
  have harm : armOf payload = some arm := by rw [armOf, if_neg (by omega), h]
  rw [(dispatch_with_arm env harm s).2]
  split
  · exact ⟨_, _, rfl⟩
  · exact ⟨_, _, rfl⟩

theorem dispatch_notified_none (env : NetEnv abi σ) {payload : List UInt8}
    (hlen : 2 ≤ payload.length) (h : commandTable.lookup (opcodeOf payload) = none) (s : σ) :
    notified (NetM.effects env (dispatchHciCmd payload) s) = [] := by
  have harm : armOf payload = none := by rw [armOf, if_neg (by omega), h]
  rw [(dispatch_without_arm env harm s).2]
  rfl

/-- The receive loop adds nothing to what the dispatcher does for a command. -/
theorem effects_command (env : NetEnv abi σ) (payload stale : List UInt8)
    (s : σ) : NetM.effects env (rxFrame (0x01 :: payload ++ stale) (payload.length + 1)) s =
      NetM.effects env (dispatchHciCmd payload) s := by
  obtain ⟨handled, s', hd⟩ := dispatch_exec env payload s
  have hframe := @rxFrame_eq abi (0x01 :: payload) stale
  rw [List.length_cons] at hframe
  rw [hframe, handleFrame, if_pos rfl, NetM.effects_bind env hd]
  split <;> exact List.append_nil _

/-- **Replies.**  Whatever the controller answers, a command is answered once and with the right
kind of event if and only if its opcode has an arm and is not one of `wrongKind`. -/
theorem answered_iff (env : NetEnv abi σ) (payload stale : List UInt8)
    (hlen : 2 ≤ payload.length) (s : σ) :
    AnsweredOnce (opcodeOf payload) (notified (NetM.effects env
        (rxFrame (0x01 :: payload ++ stale) (payload.length + 1)) s)) ↔
      (commandTable.lookup (opcodeOf payload)).isSome ∧ opcodeOf payload ∉ wrongKind := by
  rw [effects_command]
  cases harm : commandTable.lookup (opcodeOf payload) with
  | none =>
      rw [dispatch_notified_none env hlen harm]
      constructor
      · rintro ⟨pkt, reply, hpkt, -⟩
        cases hpkt
      · rintro ⟨h, -⟩
        cases h
  | some arm =>
      obtain ⟨status, ret, hpkts⟩ := dispatch_notified env hlen harm s
      obtain ⟨reply, hdec, hopcode, -, hkind⟩ := decode_frame arm (opcodeOf payload) status ret
      have hone : AnsweredOnce (opcodeOf payload) [arm.frame (opcodeOf payload) status ret] ↔
          reply.RightKind (opcodeOf payload) := by
        constructor
        · rintro ⟨pkt, reply', hpkt, hdec', -, hright⟩
          cases hpkt
          rw [hdec] at hdec'
          cases hdec'
          exact hright
        · intro hright
          exact ⟨_, reply, rfl, hdec, hopcode, hright⟩
      rw [hpkts, hone, HciReply.RightKind, harm, hkind]
      have htable := commandTable_kind _ (lookup_mem harm)
      dsimp only at htable
      rw [htable]
      split <;> simp [*]

/-- LE Set Advertising Enable: with its parameter, and without. -/
theorem answered_iff_advEnable :
    AnsweredOnce 0x200A (notified (NetM.effects (NetEnv.zeros someAbi)
      (rxFrame [0x01, 0x0A, 0x20, 0x01, 0x01] 5) ())) :=
  (answered_iff (NetEnv.zeros someAbi) [0x0A, 0x20, 0x01, 0x01] []
    (by decide) ()).mpr (by decide)

/-- LE Accept CIS Request is answered with a Command Complete event. -/
theorem acceptCis_wrongKind :
    ¬ AnsweredOnce 0x2066 (notified (NetM.effects (NetEnv.zeros someAbi)
      (rxFrame [0x01, 0x66, 0x20, 0x02, 0x01, 0x00] 6) ())) := by
  have hpkts : notified (NetM.effects (NetEnv.zeros someAbi)
      (rxFrame [0x01, 0x66, 0x20, 0x02, 0x01, 0x00] 6) ()) =
        [[0x04, 0x0E, 0x04, 0x01, 0x66, 0x20, 0x00]] := by
    decide +kernel
  rintro ⟨pkt, reply, hpkt, hdec, -, hright⟩
  rw [hpkts] at hpkt
  cases hpkt
  have hreply : decodeReply [0x04, 0x0E, 0x04, 0x01, 0x66, 0x20, 0x00] =
      some (.commandComplete 0x2066 0x00 []) := by
    decide
  rw [hreply] at hdec
  cases hdec
  rw [HciReply.RightKind, if_pos (by decide)] at hright
  cases hright

end NrfHciUsb
