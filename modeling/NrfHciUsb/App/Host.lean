import NrfHciUsb.App.Rounds

/-!
# App — Host

`usb_write_task` seen from outside: what the host reads from the endpoints, and the colour of the
LED.

* `usbWrite_delivers`: over any number of reconnects the host gets, on each endpoint, the payloads
  whose `write_ep` succeeded, and nothing of the others.
* `led_follows`: where `led_task` has nothing to do, the LED is blue while the task waits for a
  packet or writes one, and yellow while it waits for the endpoint to be enabled.
-/

namespace NrfHciUsb
open Support

variable {EndpointError σ : Type}

/-! ### The host -/

/-- The transfers the host has got on each endpoint, and what it has of the next. -/
structure Host where
  got : Endpoint → List (List UInt8)
  part : Endpoint → List UInt8

/-- A transfer ends with its first short packet.  A device that is configured anew, which is when
its endpoints are enabled again, begins with new transfers. -/
def Host.see (s : Host) : (o : AppOp) × o.Res EndpointError → Host
  | ⟨.write ep packet, .ok _⟩ =>
      if packet.length < usbPacketSize then
        { got := Function.update s.got ep (s.got ep ++ [s.part ep ++ packet])
          part := Function.update s.part ep [] }
      else { s with part := Function.update s.part ep (s.part ep ++ packet) }
  | ⟨.waitEnabled .event, _⟩ => { s with part := fun _ => [] }
  | _ => s

/-- The host, from the first time it configures the device. -/
def Host.seen (h : Prog.History (AppOp.Res EndpointError)) : Host :=
  h.foldl Host.see { got := fun _ => [], part := fun _ => [] }

/-- What the round delivers on `ep`. -/
def WriteRound.delivered (ep : Endpoint) : WriteRound EndpointError → Option (List UInt8)
  | .written pkt ep' _ => if ep' = ep then some pkt.bytes else none
  | .unknown _ _ | .failed _ _ _ _ _ _ _ _ => none

/-- Packets on one endpoint, put together as `reassemble` does. -/
theorem Host.foldl_wrote (s : Host) (ep : Endpoint) (packets : List (List UInt8)) :
    (packets.map (wrote ep : _ → (o : AppOp) × o.Res EndpointError)).foldl Host.see s =
      { got := Function.update s.got ep
          (s.got ep ++ (reassembleFrom usbPacketSize (s.part ep) packets).1)
        part := Function.update s.part ep
          (reassembleFrom usbPacketSize (s.part ep) packets).2 } := by
  induction packets generalizing s with
  | nil => simp [reassembleFrom]
  | cons p packets ih =>
      rw [List.map_cons, List.foldl_cons, ih, wrote, Host.see, reassembleFrom]
      split
      · simp
      · simp

/-- A round begins and ends between transfers. -/
theorem Host.foldl_round {s : Host} (hpart : s.part = fun _ => [])
    (t : WriteRound EndpointError) :
    t.history.foldl Host.see s =
      { got := fun ep => s.got ep ++ (t.delivered ep).toList, part := fun _ => [] } := by
  obtain ⟨got, part⟩ := s
  subst hpart
  rw [WriteRound.history, List.foldl_cons]
  show t.writes.foldl Host.see { got, part := fun _ => [] } = _
  cases t with
  | unknown pkt hep => simp [WriteRound.writes, WriteRound.delivered]
  | written pkt ep hep =>
      have hwhole := reassembleFrom_segments (m := usbPacketSize) (by decide) [] pkt.bytes []
      rw [List.append_nil, List.nil_append, ← usbPackets_eq_segments] at hwhole
      rw [WriteRound.writes, foldl_wrote, hwhole]
      congr 1
      · funext ep'
        by_cases heq : ep' = ep
        · subst heq
          simp [WriteRound.delivered, reassemble, reassembleFrom]
        · rw [Function.update_of_ne heq, WriteRound.delivered, if_neg (Ne.symm heq)]
          simp
      · exact Function.update_eq_self ep _
  | failed pkt ep hep done packet rest hsplit e =>
      have hfull := le_length_of_segments_eq (m := usbPacketSize) (by decide) pkt.bytes hsplit
      rw [WriteRound.writes, List.foldl_append, foldl_wrote, reassembleFrom_full _ hfull,
        List.append_nil, Function.update_eq_self]
      -- what there is of the transfer is gone with the reconnect
      simp [Host.see, connected, WriteRound.delivered]

theorem Host.foldl_rounds {s : Host} (hpart : s.part = fun _ => [])
    (ts : List (WriteRound EndpointError)) :
    (ts.flatMap WriteRound.history).foldl Host.see s =
      { got := fun ep => s.got ep ++ ts.filterMap (WriteRound.delivered ep)
        part := fun _ => [] } := by
  induction ts generalizing s with
  | nil =>
      obtain ⟨got, part⟩ := s
      subst hpart
      simp
  | cons t ts ih =>
      rw [List.flatMap_cons, List.foldl_append, foldl_round hpart, ih rfl]
      congr 1
      funext ep
      rw [List.append_assoc]
      cases hd : t.delivered ep with
      | none => rw [List.filterMap_cons_none hd, Option.toList_none, List.nil_append]
      | some data => rw [List.filterMap_cons_some hd, Option.toList_some, List.singleton_append]

/-- **USB IN.**  Of the packets that `usb_write_task` receives, in however many sessions, the host
gets on each endpoint the payloads of those for it whose `write_ep` succeeded, whole and in order,
and nothing else: a packet is lost only with a failed write or if its indicator has no endpoint. -/
theorem usbWrite_delivers (env : (o : AppOp) → σ → o.Res EndpointError × σ) (k : ℕ) (s : σ) :
    ∃ ts : List (WriteRound EndpointError), ts.length = k ∧
      Prog.history env (usbWriteTask k).run s = connected ++ ts.flatMap WriteRound.history ∧
      ∀ ep, (Host.seen (Prog.history env (usbWriteTask k).run s)).got ep =
          ts.filterMap (WriteRound.delivered ep) ∧
        (Host.seen (Prog.history env (usbWriteTask k).run s)).part ep = [] := by
  obtain ⟨h, hhist, hk⟩ := yields_usbConnect_bind
    (Prog.yields_history env (usbWriteTask k : AppM EndpointError Unit).run s)
  obtain ⟨-, ts, hlen, rfl⟩ := yields_usbWriteLoop hk
  have hseen : Host.seen (connected ++ ts.flatMap WriteRound.history) =
      { got := fun ep => ts.filterMap (WriteRound.delivered ep), part := fun _ => [] } := by
    rw [Host.seen, List.foldl_append]
    exact Host.foldl_rounds rfl ts
  refine ⟨ts, hlen, hhist, fun ep => ?_⟩
  rw [hhist, hseen]
  exact ⟨rfl, rfl⟩

/-! ### The LED -/

/-- The colours that a history signals. -/
def colors : Prog.History (AppOp.Res EndpointError) → List LedColor
  | [] => []
  | ⟨.signal color, _⟩ :: h => color :: colors h
  | _ :: h => colors h

/-- The colour signalled last where an operation is performed. -/
def AppOp.Lit (color : LedColor) : AppOp → Prop
  | .waitEnabled _ => color = .yellow
  | .hostReceive | .write _ _ => color = .blue
  | _ => True

/-- Every operation is performed under its colour, the first of them under `color`. -/
def AllLit (color : LedColor) (h : Prog.History (AppOp.Res EndpointError)) : Prop :=
  ∀ h₁ o x h₂, h = h₁ ++ ⟨o, x⟩ :: h₂ → o.Lit ((colors h₁).getLastD color)

theorem allLit_nil (color : LedColor) :
    AllLit color ([] : Prog.History (AppOp.Res EndpointError)) := by
  intro h₁ o x h₂ hsplit
  simp at hsplit

theorem AllLit.cons {color : LedColor} {o : AppOp} {x : o.Res EndpointError}
    {h : Prog.History (AppOp.Res EndpointError)} (ho : o.Lit color)
    (hrest : AllLit ((colors [⟨o, x⟩]).getLastD color) h) : AllLit color (⟨o, x⟩ :: h) := by
  rintro (_ | ⟨w, h₁⟩) o' x' h₂ hsplit
  · obtain ⟨heq, -⟩ := List.cons.inj hsplit
    cases heq
    exact ho
  · obtain ⟨rfl, hh⟩ := List.cons.inj hsplit
    have hlit := hrest h₁ o' x' h₂ hh
    cases o with
    | signal color' => rwa [colors, List.getLastD_cons]
    | _ => exact hlit

theorem allLit_wrote {color : LedColor} (hcolor : color = .blue) (ep : Endpoint)
    (packets : List (List UInt8)) {h : Prog.History (AppOp.Res EndpointError)}
    (hrest : AllLit color h) : AllLit color (packets.map (wrote ep) ++ h) := by
  induction packets with
  | nil => exact hrest
  | cons p packets ih => exact .cons hcolor ih

theorem allLit_round (t : WriteRound EndpointError)
    {h : Prog.History (AppOp.Res EndpointError)} (hrest : AllLit .blue h) :
    AllLit .blue (t.history ++ h) := by
  refine .cons rfl ?_
  cases t with
  | unknown pkt hep => exact hrest
  | written pkt ep hep => exact allLit_wrote rfl ep _ hrest
  | failed pkt ep hep done packet rest hsplit e =>
      show AllLit .blue ((done.map (wrote ep) ++ _) ++ h)
      rw [List.append_assoc]
      refine allLit_wrote rfl ep _ (.cons rfl (.cons trivial ?_))
      exact .cons rfl (.cons trivial hrest)

theorem allLit_rounds (ts : List (WriteRound EndpointError)) :
    AllLit .blue (ts.flatMap WriteRound.history) := by
  induction ts with
  | nil => exact allLit_nil _
  | cons t ts ih =>
      rw [List.flatMap_cons]
      exact allLit_round t ih

/-- **The LED.**  `main` signals yellow before `usb_write_task` begins.  Wherever the task then is,
and however `led_task` is scheduled, the LED shows blue if the task waits for a packet or writes
one, and yellow if it waits for the endpoint to be enabled, unless `led_task` has a colour to
set. -/
theorem led_follows (env : (o : AppOp) → σ → o.Res EndpointError × σ) (k : ℕ) (s : σ)
    (h₁ h₂ : Prog.History (AppOp.Res EndpointError)) (o : AppOp) (x : o.Res EndpointError)
    (hhist : Prog.history env (usbWriteTask k).run s = h₁ ++ ⟨o, x⟩ :: h₂) (as : List LedAct)
    (l : Led) (hrun : led.run as = some l) (hsignalled : signalled as = .yellow :: colors h₁)
    (hidle : l.signal = none) :
    ((o = .hostReceive ∨ ∃ ep packet, o = .write ep packet) → l.pwm = LedColor.blue.duties) ∧
    (∀ ep, o = .waitEnabled ep → l.pwm = LedColor.yellow.duties) := by
  obtain ⟨h, hconn, hk⟩ := yields_usbConnect_bind
    (Prog.yields_history env (usbWriteTask k : AppM EndpointError Unit).run s)
  obtain ⟨-, ts, -, rfl⟩ := yields_usbWriteLoop hk
  have hall : AllLit .yellow (connected ++ ts.flatMap WriteRound.history) :=
    .cons rfl (.cons trivial (allLit_rounds ts))
  have hlit := hall h₁ o x h₂ (hconn.symm.trans hhist)
  have hdue := Led.due_run Led.due_init hrun
  rw [hsignalled, List.getLastD_cons] at hdue
  have hpwm : l.pwm = ((colors h₁).getLastD .yellow).duties := by
    rcases hdue with hsignal | ⟨-, hpwm⟩
    · rw [hidle] at hsignal
      cases hsignal
    · exact hpwm
  refine ⟨?_, ?_⟩
  · intro ho
    have hblue : (colors h₁).getLastD .yellow = .blue := by
      rcases ho with rfl | ⟨ep, packet, rfl⟩ <;> exact hlit
    rw [hpwm, hblue]
  · rintro ep rfl
    have hyellow : (colors h₁).getLastD .yellow = .yellow := hlit
    rw [hpwm, hyellow]

/-- Endpoints that are enabled, and nothing else. -/
def plugged : (o : AppOp) → Unit → o.Res Unit × Unit
  | .cmdTrySend _, s => (true, s)
  | .cmdReceive, s => (.ofData [], s)
  | .hostReceive, s => (.ofBuf [] 0, s)
  | .read, s => (⟨none, Vector.replicate _ 0, nofun⟩, s)
  | .write _ _, s => (.ok (), s)
  | .ipcSendToNet _, s => (false, s)
  | .ipcRecvFromNet out, s => (⟨none, out, nofun⟩, s)
  | .hostSend _, s | .waitEnabled _, s | .trigger, s | .eventWait, s | .signal _, s => ((), s)

/-- The yellow of the start is overtaken by the blue of the first session, and never shown. -/
theorem led_follows_plugged :
    ∃ l, led.run [.signal .yellow, .signal .blue, .wait] = some l ∧
      l.pwm = LedColor.blue.duties :=
  ⟨_, rfl, (led_follows plugged 1 () connected _ .hostReceive (.ofBuf [] 0) rfl
    [.signal .yellow, .signal .blue, .wait] _ rfl rfl rfl).1 (.inl rfl)⟩

end NrfHciUsb
