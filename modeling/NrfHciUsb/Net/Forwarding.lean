import NrfHciUsb.Net.EventLoop
import NrfHciUsb.Net.Effects

/-!
# Net — Forwarding

`sdc_event_loop` over all that `hci_get` answers, with nothing assumed of the controller: a buffer
can hold anything, and so can the length field of the packet at its start.

`sdcEventLoop_exact`: the loop hands over one frame for each event and each packet of ACL data, in
order, and panics at the first that claims to be longer than the buffer.
-/

namespace NrfHciUsb
open Support

variable {abi : SdcAbi} {σ : Type}

/-- What `hci_get` answers, with the buffer as it leaves it. -/
inductive HciGot (abi : SdcAbi) where
  | error
  | packet (kind : PacketKind) (buf : Vector UInt8 abi.hciMsgBufferMaxSize)

/-- The body of `sdc_event_loop`; an error is logged. -/
def HciGot.handle : HciGot abi → NetM abi Unit
  | .error => pure ()
  | .packet kind buf => sdcForward kind buf.toList

/-- `sdc_event_loop`, for the next answers of `hci_get`. -/
def sdcEventLoop : List (HciGot abi) → NetM abi Unit
  | [] => pure ()
  | got :: rest => do
      got.handle
      sdcEventLoop rest

/-- The frame for an answer, if its kind is forwarded. -/
def HciGot.frame : HciGot abi → Option (List UInt8)
  | .error => none
  | .packet kind buf => kind.indicator.map fun indicator =>
      indicator :: buf.toList.take (hciPacketLen indicator buf.toList)

/-- The packet is not forwarded, or it claims no more than the buffer. -/
def HciGot.fits : HciGot abi → Bool
  | .error => true
  | .packet kind buf => kind.indicator.all fun indicator =>
      hciPacketLen indicator buf.toList ≤ abi.hciMsgBufferMaxSize

/-! ### One packet -/

/-- A packet that fits is handed over, if it is forwarded. -/
theorem HciGot.handle_of_fits {g : HciGot abi} (h : g.fits = true) :
    (g.handle : NetM abi Unit) =
      match g.frame with
      | some f => notifyApp f
      | none => pure () := by
  cases g with
  | error => rfl
  | packet kind buf =>
      cases hk : kind.indicator with
      | none => simp only [HciGot.handle, sdcForward, HciGot.frame, hk, Option.map_none]
      | some indicator =>
          have hlen : buf.toList.length = abi.hciMsgBufferMaxSize := buf.length_toList
          have hle : hciPacketLen indicator buf.toList ≤ abi.hciMsgBufferMaxSize := by
            simpa [HciGot.fits, hk] using h
          have htake : (buf.toList.take (hciPacketLen indicator buf.toList)).length =
              hciPacketLen indicator buf.toList := by
            rw [List.length_take, hlen]
            exact Nat.min_eq_left hle
          simp only [HciGot.handle, sdcForward, HciGot.frame, hk, Option.map_some]
          rw [slice_of_le (Nat.zero_le _) (by omega), pure_bind, List.drop_zero]
          exact frame_bind [indicator] rfl htake (by simpa using hle) notifyApp

theorem HciGot.handle_of_not_fits {g : HciGot abi} (h : g.fits = false) :
    ∃ e, (g.handle : NetM abi Unit) = throw e := by
  cases g with
  | error => cases h
  | packet kind buf =>
      cases hk : kind.indicator with
      | none => simp [HciGot.fits, hk] at h
      | some indicator =>
          have hlen : buf.toList.length = abi.hciMsgBufferMaxSize := buf.length_toList
          have hlt : abi.hciMsgBufferMaxSize < hciPacketLen indicator buf.toList := by
            simpa [HciGot.fits, hk] using h
          refine ⟨.slice 0 (hciPacketLen indicator buf.toList) buf.toList.length, ?_⟩
          simp only [HciGot.handle, sdcForward, hk]
          rw [slice, if_neg (by omega)]
          rfl

/-- The frame of a packet that fits is its indicator and no more than the buffer. -/
theorem HciGot.frame_eq {g : HciGot abi} {f : List UInt8} (h : g.fits = true)
    (hf : g.frame = some f) : ∃ indicator p, f = indicator :: p ∧
      (indicator = 0x04 ∨ indicator = 0x02) ∧ p.length ≤ abi.hciMsgBufferMaxSize := by
  cases g with
  | error => cases hf
  | packet kind buf =>
      obtain ⟨indicator, hk, rfl⟩ := Option.map_eq_some_iff.mp hf
      have hle : hciPacketLen indicator buf.toList ≤ abi.hciMsgBufferMaxSize := by
        simpa [HciGot.fits, hk] using h
      refine ⟨indicator, _, rfl, ?_, Nat.le_trans (List.length_take_le _ _) hle⟩
      cases kind <;> cases hk
      · exact .inr rfl
      · exact .inl rfl

/-- Events claim at most 257 bytes. -/
theorem hciPacketLen_event_le {buf : List UInt8} (h : 2 ≤ buf.length) :
    hciPacketLen 0x04 buf ≤ 257 := by
  have hbyte := (buf.getD 1 0).toNat_lt
  rw [hciPacketLen, if_pos ⟨rfl, h⟩]
  omega

/-! ### The loop -/

theorem exec_sdcEventLoop (env : NetEnv abi σ) (got : List (HciGot abi)) (s : σ) :
    ((∃ s', NetM.exec env (sdcEventLoop got) s = (.ok (), s')) ↔ ∀ g ∈ got, g.fits = true) ∧
    NetM.effects env (sdcEventLoop got) s =
      ((got.takeWhile HciGot.fits).filterMap HciGot.frame).map .notifyApp := by
  induction got generalizing s with
  | nil => exact ⟨⟨fun _ => nofun, fun _ => ⟨s, rfl⟩⟩, rfl⟩
  | cons g got ih =>
      cases hfit : g.fits with
      | false =>
          -- the loop ends here
          obtain ⟨e, he⟩ := HciGot.handle_of_not_fits hfit
          have hexec : NetM.exec env (g.handle : NetM abi Unit) s = (.error e, s) := by
            rw [he]
            rfl
          refine ⟨⟨?_, fun h => ?_⟩, ?_⟩
          · rintro ⟨s', hs'⟩
            rw [sdcEventLoop, NetM.exec_bind_error env hexec] at hs'
            cases hs'
          · have hall := h _ List.mem_cons_self
            rw [hfit] at hall
            cases hall
          · rw [sdcEventLoop, NetM.effects_bind_error env hexec, he,
              List.takeWhile_cons_of_neg (by simp [hfit])]
            rfl
      | true =>
          obtain ⟨s', hexec, heff⟩ : ∃ s',
              NetM.exec env (g.handle : NetM abi Unit) s = (.ok (), s') ∧
              NetM.effects env (g.handle : NetM abi Unit) s = g.frame.toList.map .notifyApp := by
            rw [HciGot.handle_of_fits hfit]
            cases g.frame with
            | some f => exact ⟨_, rfl, rfl⟩
            | none => exact ⟨s, rfl, rfl⟩
          obtain ⟨hok, hrest⟩ := ih s'
          refine ⟨?_, ?_⟩
          · rw [sdcEventLoop, NetM.exec_bind env hexec, hok, List.forall_mem_cons]
            exact ⟨fun h => ⟨hfit, h⟩, fun h => h.2⟩
          · rw [sdcEventLoop, NetM.effects_bind env hexec, heff, hrest,
              List.takeWhile_cons_of_pos hfit]
            cases hf : g.frame <;> simp [hf]

/-- **Forwarding.**  Whatever `hci_get` leaves in the buffer: the loop comes back to `hci_get` after
each answer if and only if no forwarded packet claims to be longer than the buffer; up to the first
that does, it hands over the frame of each forwarded packet, in order, and nothing else.  Only ACL
data can claim so much if the buffer has the size of the largest event. -/
theorem sdcEventLoop_exact (env : NetEnv abi σ) (got : List (HciGot abi)) (s : σ) :
    ((∃ s', NetM.exec env (sdcEventLoop got) s = (.ok (), s')) ↔ ∀ g ∈ got, g.fits = true) ∧
    NetM.effects env (sdcEventLoop got) s =
      ((got.takeWhile HciGot.fits).filterMap HciGot.frame).map .notifyApp ∧
    ∀ g ∈ got, 257 ≤ abi.hciMsgBufferMaxSize → g.fits = false →
      ∃ buf, g = .packet .aclData buf := by
  obtain ⟨hok, heff⟩ := exec_sdcEventLoop env got s
  refine ⟨hok, heff, ?_⟩
  rintro g - hM hfit
  cases g with
  | error => cases hfit
  | packet kind buf =>
      have hlen : buf.toList.length = abi.hciMsgBufferMaxSize := buf.length_toList
      cases kind with
      | aclData => exact ⟨buf, rfl⟩
      | event =>
          have hle := @hciPacketLen_event_le buf.toList (by omega)
          simp only [HciGot.fits, PacketKind.indicator, Option.all_some, decide_eq_false_iff_not]
            at hfit
          omega
      | cmd | syncData | isoData => cases hfit

/-- Two events around ACL data that claim `0xFFFF` bytes. -/
example :
    let buf := Vector.replicate someAbi.hciMsgBufferMaxSize (0 : UInt8)
    NetM.effects (NetEnv.zeros someAbi) (sdcEventLoop
      [.packet .event ((buf.set 0 0x3E).set 1 0x01), .packet .isoData buf, .error,
        .packet .aclData ((buf.set 2 0xFF).set 3 0xFF), .packet .event (buf.set 0 0x3E)]) () =
      [.notifyApp [0x04, 0x3E, 0x01, 0x00]] := by
  decide +kernel

end NrfHciUsb
