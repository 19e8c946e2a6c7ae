import NrfHciUsb.Bridge.Commands
import NrfHciUsb.Bridge.Events
import NrfHciUsb.Bridge.HostOut
import NrfHciUsb.Net.Forwarding

/-!
# Bridge — Outcome

What the two loops of the net core leave behind them, run on one frame of the A→N ring or on one
answer of `hci_get`.

* `handleFrame_eq`: the receive loop hands a frame to the dispatcher or to `hci_data_put` by its
  indicator.
* `rxFrame_outcome`, `handle_outcome`: what is put to the controller, what there is for
  `notify_app`, and when the loop panics.
-/

namespace NrfHciUsb
open Support

variable {abi : SdcAbi} {σ : Type}

/-- The payloads passed to `hci_data_put`, in order. -/
def dataPuts (ops : List NetOp) : List (List UInt8) :=
  ops.filterMap fun
    | .hciDataPut payload => some payload
    | _ => none

/-- What a program leaves: the payloads put, the packets for `notify_app`, whether it panicked, and
the controller. -/
structure Outcome (σ : Type) where
  puts : List (List UInt8)
  notified : List (List UInt8)
  panicked : Bool
  sdc : σ

def NetM.outcome (env : NetEnv abi σ) (x : NetM abi Unit) (s : σ) : Outcome σ where
  puts := dataPuts (NetM.effects env x s)
  notified := NrfHciUsb.notified (NetM.effects env x s)
  panicked := match (NetM.exec env x s).1 with
    | .ok _ => false
    | .error _ => true
  sdc := (NetM.exec env x s).2

/-! ### A frame of the A→N ring -/

/-- The ACL data in a frame of the A→N ring. -/
def aclOf : List UInt8 → Option (List UInt8)
  | [] => none
  | indicator :: payload => if indicator = 0x02 then some payload else none

theorem aclOf_aclPkt (data : List UInt8) : aclOf (aclPkt data) = some data := by
  rw [aclPkt_eq, aclOf, if_pos rfl]

theorem aclOf_cmdPkt (cmd : HciCmdBuf) : aclOf (cmdPkt cmd) = none := by
  rw [cmdPkt_eq, aclOf, if_neg (by decide)]

theorem aclOf_of_command {f c : List UInt8} (h : commandOf f = some c) : aclOf f = none := by
  cases f with
  | nil => rfl
  | cons indicator payload =>
      obtain ⟨rfl, -⟩ := Option.ite_none_right_eq_some.mp h
      rw [aclOf, if_neg (by decide)]

/-- **By the indicator.**  The dispatcher is called for the command in a frame, and for nothing
else. -/
theorem handleFrame_eq (f : List UInt8) : (handleFrame f : NetM abi Unit) =
    match commandOf f, aclOf f with
    | some c, _ => do
        let handled ← dispatchHciCmd c
        if !handled && c.length < 2 then throw (.index c.length c.length) else pure ()
    | none, some data => do
        let _ok ← hciDataPut data
        pure ()
    | none, none => pure () := by
  cases f with
  | nil => rfl
  | cons indicator payload =>
      rw [handleFrame, commandOf, aclOf]
      by_cases hcmd : indicator = 0x01
      · rw [if_pos hcmd, if_pos hcmd]
      · rw [if_neg hcmd, if_neg hcmd]
        by_cases hacl : indicator = 0x02
        · rw [if_pos hacl, if_pos hacl]
        · rw [if_neg hacl, if_neg hacl]

/-- A frame is answered by one frame of an arm, or it is not a command with an arm. -/
def AnsweredBy (f : List UInt8) (pkts : List (List UInt8)) : Prop :=
  (∃ c arm status ret, commandOf f = some c ∧ armOf c = some arm ∧
    pkts = [arm.frame (opcodeOf c) status ret]) ∨
  (∀ c, commandOf f = some c → armOf c = none) ∧ pkts = []

theorem AnsweredBy.length_le {f : List UInt8} {pkts : List (List UInt8)} (h : AnsweredBy f pkts) :
    pkts.length ≤ 1 := by
  obtain ⟨c, arm, status, ret, -, -, rfl⟩ | ⟨-, rfl⟩ := h
  · exact le_rfl
  · exact Nat.zero_le _

theorem AnsweredBy.forwardable {f : List UInt8} {pkts : List (List UInt8)}
    (h : AnsweredBy f pkts) : ∀ pkt ∈ pkts, Forwardable pkt := by
  intro pkt hpkt
  obtain ⟨c, arm, status, ret, -, -, rfl⟩ | ⟨-, rfl⟩ := h
  · rw [List.mem_singleton.mp hpkt, Arm.frame]
    split
    · exact forwardable_csFrame _ _
    · exact forwardable_ccFrame _ _ _
  · cases hpkt

/-- The panic of the receive loop is all that it adds to what the dispatcher does. -/
theorem effects_handleFrame_command (env : NetEnv abi σ) {f c : List UInt8}
    (hc : commandOf f = some c) (s : σ) :
    NetM.effects env (handleFrame f) s = NetM.effects env (dispatchHciCmd c) s := by
  obtain ⟨handled, s', hd⟩ := dispatch_exec env c s
  rw [handleFrame_eq, hc]
  dsimp only
  rw [NetM.effects_bind env hd]
  split <;> exact List.append_nil _

/-- **One frame** is put to the controller if it is ACL data, and answered if it is a command with
an arm; only a command without an opcode makes the loop panic. -/
theorem rxFrame_outcome (env : NetEnv abi σ) (f stale : List UInt8) (s : σ) :
    (NetM.outcome env (rxFrame (f ++ stale) f.length) s).puts = (aclOf f).toList ∧
      AnsweredBy f (NetM.outcome env (rxFrame (f ++ stale) f.length) s).notified ∧
      ((NetM.outcome env (rxFrame (f ++ stale) f.length) s).panicked = true → Panics f) := by
  rw [rxFrame_eq]
  refine ⟨?_, ?_, fun hpanic => ?_⟩
  · cases hc : commandOf f with
    | none =>
        rw [NetM.outcome, handleFrame_eq, hc]
        cases hacl : aclOf f <;> rfl
    | some c =>
        rw [NetM.outcome, effects_handleFrame_command env hc]
        have hacl : aclOf f = none := aclOf_of_command hc
        rw [hacl]
        cases harm : armOf c with
        | none =>
            rw [(dispatch_without_arm env harm s).2]
            rfl
        | some arm =>
            rw [(dispatch_with_arm env harm s).2]
            split <;> rfl
  · cases hc : commandOf f with
    | none =>
        refine .inr ⟨by simp [hc], ?_⟩
        rw [NetM.outcome, handleFrame_eq, hc]
        cases hacl : aclOf f <;> rfl
    | some c =>
        rw [NetM.outcome, effects_handleFrame_command env hc]
        cases harm : armOf c with
        | none =>
            rw [(dispatch_without_arm env harm s).2]
            refine .inr ⟨fun c' hc' => ?_, rfl⟩
            rw [hc] at hc'
            cases hc'
            exact harm
        | some arm =>
            rw [(dispatch_with_arm env harm s).2]
            split
            · exact .inl ⟨c, arm, _, _, hc, harm, rfl⟩
            · exact .inl ⟨c, arm, _, _, hc, harm, rfl⟩
  · by_contra hcalm
    obtain ⟨s', hok⟩ := handleFrame_ok env hcalm s
    simp [NetM.outcome, hok] at hpanic

/-! ### An answer of `hci_get` -/

/-- **One answer** is handed over if it is a packet that fits, and of a kind that is forwarded. -/
theorem handle_outcome (env : NetEnv abi σ) (got : HciGot abi) (s : σ) :
    (NetM.outcome env got.handle s).notified =
        (if got.fits then got.frame.toList else []) ∧
      (NetM.outcome env got.handle s).panicked = !got.fits := by
  cases hfit : got.fits with
  | true =>
      rw [HciGot.handle_of_fits hfit]
      cases got.frame with
      | none => exact ⟨rfl, rfl⟩
      | some f => exact ⟨rfl, rfl⟩
  | false =>
      obtain ⟨e, he⟩ := HciGot.handle_of_not_fits hfit
      rw [he]
      exact ⟨rfl, rfl⟩

/-- The answer replies to no command, as is said of `hci_get` at `sdc_event_loop`. -/
def HciGot.NoReply (got : HciGot abi) : Prop := ∀ f, got.frame = some f → decodeReply f = none

/-- … and no packet claims to be longer than the buffer it is in. -/
def HciGot.Proper (got : HciGot abi) : Prop := got.NoReply ∧ got.fits = true

instance (got : HciGot abi) : Decidable got.NoReply :=
  inferInstanceAs (Decidable (∀ f ∈ got.frame, decodeReply f = none))

instance (got : HciGot abi) : Decidable got.Proper := inferInstanceAs (Decidable (_ ∧ _))

theorem HciGot.NoReply.handled {got : HciGot abi} (h : got.NoReply) (env : NetEnv abi σ) (s : σ) :
    ∀ f ∈ (NetM.outcome env got.handle s).notified, decodeReply f = none := by
  intro f hf
  rw [(handle_outcome env got s).1] at hf
  split at hf
  · exact h f (Option.mem_toList.mp hf)
  · cases hf

/-- What an answer leaves for `notify_app` can be on its way, and is one packet at most. -/
theorem handled_forwardable (hM : abi.hciMsgBufferMaxSize ≤ maxHciPayload) (env : NetEnv abi σ)
    (got : HciGot abi) (s : σ) :
    ∀ f ∈ (NetM.outcome env got.handle s).notified, Forwardable f := by
  intro f hf
  rw [(handle_outcome env got s).1] at hf
  split at hf
  · rename_i hfit
    obtain ⟨indicator, p, rfl, hind, hlen⟩ := HciGot.frame_eq hfit (Option.mem_toList.mp hf)
    exact ⟨indicator, p, rfl, hind, hlen.trans hM⟩
  · cases hf

end NrfHciUsb
