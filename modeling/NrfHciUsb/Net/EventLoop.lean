import NrfHciUsb.Net.Dispatch

/-!
# Net — EventLoop

The other loop of the net core, `sdc_event_loop`: what it makes of a packet that `hci_get` has left
at the start of its buffer.

`sdcForward_eq`: of a well-formed event or ACL packet it hands over the indicator and exactly the
packet, whatever the rest of the buffer still holds.
-/

namespace NrfHciUsb
open Support

variable {abi : SdcAbi}

/-- `bt_hci::PacketKind`. -/
inductive PacketKind where
  | cmd
  | aclData
  | syncData
  | event
  | isoData
  deriving DecidableEq, Repr

/-- The indicator of the kinds that are forwarded. -/
def PacketKind.indicator : PacketKind → Option UInt8
  | .event => some 0x04
  | .aclData => some 0x02
  | .cmd | .syncData | .isoData => none

/-- `hci_packet_len`. -/
def hciPacketLen (indicator : UInt8) (buf : List UInt8) : ℕ :=
  if indicator = 0x04 ∧ buf.length ≥ 2 then 2 + (buf.getD 1 0).toNat
  else if indicator = 0x02 ∧ buf.length ≥ 4 then
    4 + (u16FromLeBytes (buf.getD 2 0) (buf.getD 3 0)).toNat
  else buf.length

/-- The body of `sdc_event_loop` for a packet of `kind` in `buf`. -/
def sdcForward (kind : PacketKind) (buf : List UInt8) : NetM abi Unit :=
  match kind.indicator with
  | none => pure ()
  | some indicator => do
      let pktLen := hciPacketLen indicator buf
      let ipcBuf := indicator :: List.replicate abi.hciMsgBufferMaxSize 0
      let data ← slice buf 0 pktLen
      let ipcBuf ← copyFromSlice ipcBuf 1 (1 + pktLen) data
      let pkt ← slice ipcBuf.val 0 (1 + pktLen)
      notifyApp pkt

/-- The packet's own length field gives its length. -/
def PacketKind.WellFormed (p : List UInt8) : PacketKind → Prop
  | .event => 2 ≤ p.length ∧ p.length = 2 + (p.getD 1 0).toNat
  | .aclData => 4 ≤ p.length ∧ p.length = 4 + (u16FromLeBytes (p.getD 2 0) (p.getD 3 0)).toNat
  | .cmd | .syncData | .isoData => True

instance (p : List UInt8) : (kind : PacketKind) → Decidable (kind.WellFormed p)
  | .event => inferInstanceAs (Decidable (_ ∧ p.length = 2 + (p.getD 1 0).toNat))
  | .aclData => inferInstanceAs
      (Decidable (_ ∧ p.length = 4 + (u16FromLeBytes (p.getD 2 0) (p.getD 3 0)).toNat))
  | .cmd | .syncData | .isoData => inferInstanceAs (Decidable True)

theorem getD_append_left {p stale : List UInt8} {i : ℕ} (h : i < p.length) :
    (p ++ stale).getD i 0 = p.getD i 0 := by
  rw [List.getD_eq_getElem?_getD, List.getElem?_append_left h, List.getD_eq_getElem?_getD]

/-- The length is the packet's, whatever is behind it. -/
theorem hciPacketLen_eq {kind : PacketKind} {indicator : UInt8} {p : List UInt8}
    (stale : List UInt8) (hk : kind.indicator = some indicator) (h : kind.WellFormed p) :
    hciPacketLen indicator (p ++ stale) = p.length := by
  cases kind with
  | event =>
      cases hk
      obtain ⟨h2, hlen⟩ := h
      rw [hciPacketLen, if_pos ⟨rfl, by rw [List.length_append]; omega⟩,
        getD_append_left (by omega), ← hlen]
  | aclData =>
      cases hk
      obtain ⟨h4, hlen⟩ := h
      have hne : ¬ ((0x02 : UInt8) = 0x04 ∧ (p ++ stale).length ≥ 2) := by
        intro h
        exact absurd h.1 (by decide)
      rw [hciPacketLen, if_neg hne, if_pos ⟨rfl, by rw [List.length_append]; omega⟩,
        getD_append_left (by omega), getD_append_left (by omega), ← hlen]
  | cmd | syncData | isoData => cases hk

/-- **A packet.**  Its frame is the indicator and its bytes, and no stale byte. -/
theorem sdcForward_eq {kind : PacketKind} {indicator : UInt8} {p : List UInt8}
    (stale : List UInt8) (hk : kind.indicator = some indicator) (h : kind.WellFormed p)
    (hlen : p.length ≤ abi.hciMsgBufferMaxSize) :
    (sdcForward kind (p ++ stale) : NetM abi Unit) = notifyApp (indicator :: p) := by
  have htake : (p ++ stale).take p.length = p := List.take_left
  simp only [sdcForward, hk, hciPacketLen_eq stale hk h]
  rw [slice_of_le (Nat.zero_le _) (by simp), pure_bind, List.drop_zero, htake]
  exact frame_bind [indicator] rfl rfl (by simpa using hlen) notifyApp

end NrfHciUsb
