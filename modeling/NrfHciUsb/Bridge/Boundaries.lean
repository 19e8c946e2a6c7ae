import NrfHciUsb.App.Rounds
import NrfHciUsb.Bridge.Answers
import NrfHciUsb.Support.Simulation

/-!
# Bridge — Boundaries

ACL packets of the host, from its bulk transfers to `hci_data_put`.  `usb_read_task` is the program
of `App.Tasks`; what it gives to the A→N ring is what a run of the firmware takes there.

* `ringSends_usbReadTask`: the task sends a frame for each read that succeeds.
* `aclSent_of_shows`: so much of it as the ring takes comes to the controller.
* `aclBoundaries_iff`: the controller is given the ACL packets the host sent exactly when each of
  them is a single USB packet.
-/

namespace NrfHciUsb
open Support AppM

variable {EndpointError σ : Type} {abi : SdcAbi}

/-! ### What `usb_read_task` sends -/

/-- The data of the reads that succeeded. -/
def readData (h : Prog.History (AppOp.Res EndpointError)) : List (List UInt8) :=
  h.flatMap fun
    | ⟨.read, r⟩ => r.n.toList.map r.data
    | _ => []

/-- The frames given to the A→N ring, each with its answer. -/
def ringSends (h : Prog.History (AppOp.Res EndpointError)) : List (List UInt8 × Bool) :=
  h.flatMap fun
    | ⟨.ipcSendToNet packet, ok⟩ => [(packet, ok)]
    | _ => []

theorem readData_append (h h' : Prog.History (AppOp.Res EndpointError)) :
    readData (h ++ h') = readData h ++ readData h' := List.flatMap_append

theorem ringSends_append (h h' : Prog.History (AppOp.Res EndpointError)) :
    ringSends (h ++ h') = ringSends h ++ ringSends h' := List.flatMap_append

theorem usbReadRound_sends (t : Filled maxAclLen × Bool) :
    readData (usbReadRound t : Prog.History (AppOp.Res EndpointError)) =
        t.1.n.toList.map t.1.data ∧
      ringSends (usbReadRound t : Prog.History (AppOp.Res EndpointError)) =
        t.1.n.toList.map fun n => (aclPkt (t.1.data n), t.2) := by
  obtain ⟨r, ok⟩ := t
  cases hn : r.n with
  | none => simp [usbReadRound, hn, readData, ringSends]
  | some n => cases ok <;> simp [usbReadRound, hn, sent, readData, ringSends]

theorem ringSends_rounds (ts : List (Filled maxAclLen × Bool)) :
    (ringSends (ts.flatMap usbReadRound : Prog.History (AppOp.Res EndpointError))).map Prod.fst =
      (readData (ts.flatMap usbReadRound : Prog.History (AppOp.Res EndpointError))).map aclPkt := by
  induction ts with
  | nil => rfl
  | cons t ts ih =>
      obtain ⟨hread, hsends⟩ := @usbReadRound_sends EndpointError t
      rw [List.flatMap_cons, ringSends_append, readData_append, List.map_append, List.map_append,
        hread, hsends, ih]
      simp

/-- **A frame a read**, whatever the endpoint and the ring answer. -/
theorem ringSends_usbReadTask {k : ℕ} {h : Prog.History (AppOp.Res EndpointError)}
    {r : Except Panic Unit}
    (hy : Prog.Yields (usbReadTask k : AppM EndpointError Unit).run h r) :
    (ringSends h).map Prod.fst = (readData h).map aclPkt := by
  obtain ⟨_, h', rfl, hk⟩ := yields_perform_bind_iff.mp hy
  obtain ⟨-, ts, -, rfl⟩ := yields_usbReadLoop hk
  exact ringSends_rounds ts

/-! ### What the controller gets -/

/-- What `usb_read_task` gives to the A→N ring in a step of the firmware, and the ring's answer. -/
def Firmware.aclSends (s : Firmware σ) : FirmwareAct abi σ → List (List UInt8 × Bool)
  | .aclOut data => [(aclPkt data, (s.down.ring.send (aclPkt data)).1)]
  | .controlOut _ _ | .cmdReceive | .cmdSend | .rxWait | .rxRead | .hciGet _ _ | .up _ | .enabled
  | .writeDone _ => []

/-- The ACL data in the frames that were taken. -/
def takenAcl (sends : List (List UInt8 × Bool)) : List (List UInt8) :=
  sends.filterMap fun (f, ok) => if ok then aclOf f else none

variable {env : NetEnv abi σ} {s s' : Firmware σ}

theorem Firmware.aclSent_step {a : FirmwareAct abi σ} (hs : s.step env a = some s') :
    s'.aclSent = s.aclSent ++ takenAcl (s.aclSends a) := by
  cases a with
  | aclOut data =>
      obtain ⟨-, hs⟩ := Option.ite_none_right_eq_some.mp hs
      obtain ⟨down, -, rfl⟩ := Option.map_eq_some_iff.mp hs
      cases hok : (s.down.ring.send (aclPkt data)).1 <;>
        simp [Firmware.aclSends, takenAcl, hok, aclOf_aclPkt]
  | controlOut | cmdReceive | cmdSend | rxWait | rxRead | hciGet | up | enabled | writeDone =>
      obtain ⟨hsame | ⟨data, hdata⟩, -⟩ := Firmware.step_frame hs
      · rw [hsame]
        exact (List.append_nil _).symm
      · cases hdata

/-- **The ring** takes ACL data from `usb_read_task` only. -/
theorem aclSent_of_shows {sdc : σ} {sends : List (List UInt8 × Bool)}
    (h : (firmware env sdc).Shows Firmware.aclSends s sends s') :
    s'.aclSent = s.aclSent ++ takenAcl sends := by
  induction h with
  | refl s => exact (List.append_nil _).symm
  | step hs _ ih =>
      rw [ih, Firmware.aclSent_step hs, takenAcl, takenAcl, takenAcl, List.filterMap_append,
        List.append_assoc]

/-- With nothing refused, and nothing left in the ring, the controller has what was sent. -/
theorem puts_of_shows (hM : usbPacketSize ≤ abi.hciMsgBufferMaxSize) {sdc : σ}
    {sends : List (List UInt8 × Bool)} {ds : List (List UInt8)}
    (h : (firmware env sdc).Shows Firmware.aclSends (firmware env sdc).init sends s)
    (hsends : sends.map Prod.fst = ds.map aclPkt) (hroom : ∀ x ∈ sends, x.2 = true)
    (hdone : s.down.ring.items.filterMap aclOf = []) : s.puts = ds := by
  obtain ⟨as, hrun, -⟩ := h.exists_run
  have horder := (aclInv_of_reachable hM ⟨as, hrun⟩).order
  have htaken : takenAcl sends = (sends.map Prod.fst).filterMap aclOf := by
    rw [takenAcl, List.filterMap_map]
    refine List.filterMap_congr fun x hx => ?_
    simp [hroom x hx]
  rw [hdone, List.append_nil, aclSent_of_shows h, htaken, hsends, List.filterMap_map] at horder
  rw [← horder]
  show [] ++ _ = ds
  simp [aclOf_aclPkt]

/-! ### Boundaries -/

/-- There are more USB packets than transfers if one of them is not short. -/
theorem length_flatMap_usbPackets (packets : List (List UInt8)) :
    (packets.flatMap usbPackets).length =
      packets.length + (packets.map fun p => p.length / usbPacketSize).sum := by
  induction packets with
  | nil => rfl
  | cons p packets ih =>
      simp only [List.flatMap_cons, List.length_append, usbPackets_length, ih, List.length_cons,
        List.map_cons, List.sum_cons]
      omega

/-- Only short packets are transfers of one USB packet each. -/
theorem flatMap_usbPackets_iff (packets : List (List UInt8)) :
    packets.flatMap usbPackets = packets ↔ ∀ p ∈ packets, p.length < usbPacketSize := by
  constructor
  · intro h p hp
    have hlen := length_flatMap_usbPackets packets
    rw [h] at hlen
    have hzero : (packets.map fun p => p.length / usbPacketSize).sum = 0 := by omega
    have hp0 := List.sum_eq_zero_iff_forall_eq_nat.mp hzero _ (List.mem_map_of_mem hp)
    exact (Nat.div_eq_zero_iff_lt (by decide)).mp hp0
  · intro h
    induction packets with
    | nil => rfl
    | cons p packets ih =>
        rw [List.flatMap_cons, usbPackets_short (h p (by simp)),
          ih fun q hq => h q (List.mem_cons_of_mem _ hq)]
        rfl

/-- **Boundaries.**  The host sends ACL packets, each read of `usb_read_task` returns one of their
USB packets, and the ring takes each frame the task makes of it; the rest of the firmware does
whatever it does, until the receive loop has taken them all.  Then the controller has been given the
packets the host sent, one call a packet and in order, if and only if each is shorter than a USB
packet. -/
theorem aclBoundaries_iff (env : NetEnv abi σ) (sdc : σ)
    (hM : usbPacketSize ≤ abi.hciMsgBufferMaxSize) (packets : List (List UInt8)) (k : ℕ)
    (h : Prog.History (AppOp.Res EndpointError)) (r : Except Panic Unit)
    (hy : Prog.Yields (usbReadTask k : AppM EndpointError Unit).run h r)
    (hreads : readData h = packets.flatMap usbPackets) (s : Firmware σ)
    (hrun : (firmware env sdc).Shows Firmware.aclSends (firmware env sdc).init (ringSends h) s)
    (hroom : ∀ x ∈ ringSends h, x.2 = true)
    (hdone : s.down.ring.items.filterMap aclOf = []) :
    s.puts = packets ↔ ∀ p ∈ packets, p.length < usbPacketSize := by
  rw [puts_of_shows hM hrun (ringSends_usbReadTask hy) hroom hdone, hreads, flatMap_usbPackets_iff]

/-! ### Runs -/

/-- What a read leaves that returns these data. -/
def Filled.ofData (cap : ℕ) (data : List UInt8) : Filled cap where
  n := some (min data.length cap)
  buf := ⟨(padded cap (data.take cap)).toArray, by
    rw [List.size_toArray, padded_length (List.length_take_le _ _)]⟩
  n_le k hk := by
    cases hk
    exact Nat.min_le_right _ _

/-- The endpoint returns these data, and the ring has room. -/
def readHistory (ds : List (List UInt8)) : Prog.History (AppOp.Res EndpointError) :=
  ⟨.waitEnabled .aclOut, ()⟩ :: ds.flatMap fun d => usbReadRound (.ofData maxAclLen d, true)

theorem yields_readHistory (ds : List (List UInt8)) :
    Prog.Yields (usbReadTask ds.length : AppM EndpointError Unit).run (readHistory ds)
      (.ok ()) := by
  refine yields_perform_bind_iff.mpr ⟨(), _, rfl, ?_⟩
  induction ds with
  | nil => exact yields_pure_iff.mpr ⟨rfl, rfl⟩
  | cons d ds ih =>
      rw [List.length_cons, usbReadLoop_succ]
      refine yields_perform_bind_iff.mpr ⟨.ofData maxAclLen d, _, rfl, ?_⟩
      exact yields_ipcSendToNet_bind_iff.mpr ⟨true, _, rfl, ih⟩

/-- Three short packets, the second as long as one can be. -/
def shortAclPackets : List (List UInt8) :=
  [[1, 0, 1, 0, 7], 1 :: 0 :: 59 :: 0 :: List.replicate 59 7, [2, 0, 1, 0, 8]]

/-- The second comes when the first has been read, and the third before it is. -/
def shortAclRun : List (FirmwareAct someAbi Unit) :=
  [.aclOut [1, 0, 1, 0, 7], .rxWait, .rxRead] ++ (shortAclPackets.drop 1).map .aclOut ++
    [.rxRead, .rxRead]

theorem aclBoundaries_iff_short :
    ∃ s, (firmware (NetEnv.zeros someAbi) ()).run shortAclRun = some s ∧
      s.puts = shortAclPackets := by
  obtain ⟨s, hs, hdone⟩ := (firmware (NetEnv.zeros someAbi) ()).exists_of_run shortAclRun
    (fun s => s.down.ring.items.filterMap aclOf = []) (by decide +kernel)
  have hshown : (firmware (NetEnv.zeros someAbi) ()).shown Firmware.aclSends
      (firmware (NetEnv.zeros someAbi) ()).init shortAclRun =
        ringSends (readHistory shortAclPackets : Prog.History (AppOp.Res Unit)) := by
    decide +kernel
  have hrun := Machine.shows_of_runFrom Firmware.aclSends hs
  rw [hshown] at hrun
  exact ⟨s, hs, (aclBoundaries_iff (NetEnv.zeros someAbi) () (by decide) shortAclPackets _ _ _
    (yields_readHistory shortAclPackets) (by decide +kernel) s hrun (by decide +kernel) hdone).mpr
    (by decide)⟩

/-- An ACL packet of 64 bytes. -/
def fullAclPacket : List UInt8 := 1 :: 0 :: 60 :: 0 :: List.replicate 60 7

/-- **Cut in two.**  The host sends an ACL packet of 64 bytes, and the controller is given that and
an empty one. -/
theorem aclBoundaries_split :
    ∃ (h : Prog.History (AppOp.Res Unit)) (s : Firmware Unit),
      Prog.Yields (usbReadTask 2 : AppM Unit Unit).run h (.ok ()) ∧
      readData h = [fullAclPacket].flatMap usbPackets ∧
      (firmware (NetEnv.zeros someAbi) ()).Shows Firmware.aclSends
        (firmware (NetEnv.zeros someAbi) ()).init (ringSends h) s ∧
      (∀ x ∈ ringSends h, x.2 = true) ∧ s.down.ring.items.filterMap aclOf = [] ∧
      s.puts = [fullAclPacket, []] ∧ s.puts ≠ [fullAclPacket] := by
  obtain ⟨s, hs, hdone, hputs⟩ := (firmware (NetEnv.zeros someAbi) ()).exists_of_run
    [.aclOut fullAclPacket, .aclOut [], .rxWait, .rxRead, .rxRead]
    (fun s => s.down.ring.items.filterMap aclOf = [] ∧ s.puts = [fullAclPacket, []])
    (by decide +kernel)
  have hshown : (firmware (NetEnv.zeros someAbi) ()).shown Firmware.aclSends
      (firmware (NetEnv.zeros someAbi) ()).init
        [.aclOut fullAclPacket, .aclOut [], .rxWait, .rxRead, .rxRead] =
      ringSends (readHistory (usbPackets fullAclPacket) : Prog.History (AppOp.Res Unit)) := by
    decide +kernel
  have hrun := Machine.shows_of_runFrom Firmware.aclSends hs
  rw [hshown] at hrun
  refine ⟨_, s, yields_readHistory (usbPackets fullAclPacket), by decide +kernel, hrun,
    by decide +kernel, hdone, hputs, ?_⟩
  rw [hputs]
  decide

end NrfHciUsb
