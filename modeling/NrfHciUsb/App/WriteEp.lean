import NrfHciUsb.App.Usb
import NrfHciUsb.Support.Program
import NrfHciUsb.Support.Segments

/-!
# App — WriteEp

`write_ep` of `app/src/usb_hci.rs`: a payload as packets on an IN endpoint, over an endpoint whose
`write` can fail.

* `writeEp_eq`: it writes the USB packets of the payload, one after the other.
* `writeEp_decodable`: if every write succeeds, the host can tell where each payload ends; if one
  fails, its error is the result and it is the last.
-/

namespace NrfHciUsb
open Support

variable {EndpointError σ : Type}

/-- Programs that write packets to an IN endpoint, up to an error. -/
abbrev EpM (EndpointError : Type) :=
  ExceptT EndpointError (Prog fun _ : List UInt8 => Except EndpointError Unit)

/-- `ep.write(packet).await?`. -/
def epWrite (packet : List UInt8) : EpM EndpointError Unit := ExceptT.mk (Prog.access packet)

/-- `write_ep`. -/
def writeEp (data : List UInt8) : EpM EndpointError Unit := do
  forM (chunks 64 data) epWrite
  if data.length % 64 = 0 then epWrite []

/-- The packets of a program, from one state of the endpoint to the next, each with what `write`
answered. -/
def EpM.writes (ep : List UInt8 → σ → Except EndpointError Unit × σ)
    (x : EpM EndpointError Unit) (s : σ) : List (List UInt8 × Except EndpointError Unit) :=
  (Prog.history ep x.run s).map fun w => (w.1, w.2)

def EpM.exec (ep : List UInt8 → σ → Except EndpointError Unit × σ) (x : EpM EndpointError Unit)
    (s : σ) : Except EndpointError Unit × σ := Prog.run ep x.run s

/-! ### The packets of a payload -/

theorem usbPackets_eq_segments (data : List UInt8) :
    usbPackets data = segments usbPacketSize data := rfl

/-- A payload is written as its USB packets. -/
theorem writeEp_eq (data : List UInt8) :
    (writeEp data : EpM EndpointError Unit) = forM (usbPackets data) epWrite := by
  rw [usbPackets_eq_segments, segments_eq (by decide), List.forM_append, writeEp, usbPacketSize]
  refine bind_congr fun _ => ?_
  split
  · simp
  · rfl

/-- So a list of payloads is written as the USB packets of all of them. -/
theorem forM_writeEp (payloads : List (List UInt8)) :
    (forM payloads writeEp : EpM EndpointError Unit) =
      forM (payloads.flatMap usbPackets) epWrite := by
  induction payloads with
  | nil => rfl
  | cons data payloads ih =>
      rw [List.forM_cons, ih, writeEp_eq, List.flatMap_cons, List.forM_append]

/-! ### The writes -/

section

variable (ep : List UInt8 → σ → Except EndpointError Unit × σ)

/-- After a write that succeeds the program goes on. -/
theorem epWrite_bind_ok {p : List UInt8} {s : σ} (h : (ep p s).1 = .ok ())
    (f : Unit → EpM EndpointError Unit) :
    EpM.exec ep (epWrite p >>= f) s = EpM.exec ep (f ()) (ep p s).2 ∧
      EpM.writes ep (epWrite p >>= f) s = (p, .ok ()) :: EpM.writes ep (f ()) (ep p s).2 := by
  constructor
  · show Prog.run ep (ExceptT.bindCont f (ep p s).1) (ep p s).2 = _
    rw [h]
    rfl
  · show (p, (ep p s).1) ::
      (Prog.history ep (ExceptT.bindCont f (ep p s).1) (ep p s).2).map _ = _
    rw [h]
    rfl

/-- After one that fails there is no other. -/
theorem epWrite_bind_error {p : List UInt8} {s : σ} {e : EndpointError}
    (h : (ep p s).1 = .error e) (f : Unit → EpM EndpointError Unit) :
    EpM.exec ep (epWrite p >>= f) s = (.error e, (ep p s).2) ∧
      EpM.writes ep (epWrite p >>= f) s = [(p, .error e)] := by
  constructor
  · show Prog.run ep (ExceptT.bindCont f (ep p s).1) (ep p s).2 = _
    rw [h]
    rfl
  · show (p, (ep p s).1) ::
      (Prog.history ep (ExceptT.bindCont f (ep p s).1) (ep p s).2).map _ = _
    rw [h]
    rfl

/-- The packets are written in order: all of them, or up to the first whose write fails. -/
theorem forM_epWrite (packets : List (List UInt8)) (s : σ) :
    ((EpM.exec ep (forM packets epWrite) s).1 = .ok () ∧
      EpM.writes ep (forM packets epWrite) s = packets.map fun p => (p, .ok ())) ∨
    ∃ done p rest e, packets = done ++ p :: rest ∧
      (EpM.exec ep (forM packets epWrite) s).1 = .error e ∧
      EpM.writes ep (forM packets epWrite) s =
        (done.map fun p => (p, .ok ())) ++ [(p, .error e)] := by
  induction packets generalizing s with
  | nil => exact .inl ⟨rfl, rfl⟩
  | cons p packets ih =>
      rw [List.forM_cons]
      cases h : (ep p s).1 with
      | error e =>
          obtain ⟨hexec, hwrites⟩ := epWrite_bind_error ep h fun _ => forM packets epWrite
          exact .inr ⟨[], p, packets, e, rfl, by rw [hexec], hwrites⟩
      | ok u =>
          obtain ⟨hexec, hwrites⟩ := epWrite_bind_ok ep h fun _ => forM packets epWrite
          rw [hexec, hwrites]
          rcases ih (ep p s).2 with ⟨hok, hall⟩ | ⟨done, p', rest, e, hsplit, herr, hup⟩
          · exact .inl ⟨hok, by rw [hall, List.map_cons]⟩
          · refine .inr ⟨p :: done, p', rest, e, by rw [hsplit, List.cons_append], herr, ?_⟩
            rw [hup, List.map_cons, List.cons_append]

/-- Without a failing write all packets of all payloads are written. -/
theorem forM_writeEp_ok {payloads : List (List UInt8)} {s : σ}
    (hall : ∀ w ∈ EpM.writes ep (forM payloads writeEp) s, w.2 = .ok ()) :
    (EpM.exec ep (forM payloads writeEp) s).1 = .ok () ∧
      EpM.writes ep (forM payloads writeEp) s =
        (payloads.flatMap usbPackets).map fun p => (p, .ok ()) := by
  rw [forM_writeEp] at hall ⊢
  rcases forM_epWrite ep (payloads.flatMap usbPackets) s with
    hok | ⟨done, p, rest, e, -, -, hwrites⟩
  · exact hok
  · have hlast := hall (p, .error e) (by rw [hwrites]; simp)
    cases hlast

/-- A failing write is the last one, and its error the result. -/
theorem writeEp_error {data p : List UInt8} {e : EndpointError} {s : σ}
    (hmem : (p, .error e) ∈ EpM.writes ep (writeEp data) s) :
    (EpM.exec ep (writeEp data) s).1 = .error e ∧
      ∃ done rest, usbPackets data = done ++ p :: rest ∧
        EpM.writes ep (writeEp data) s = (done.map fun d => (d, .ok ())) ++ [(p, .error e)] := by
  rw [writeEp_eq] at hmem ⊢
  rcases forM_epWrite ep (usbPackets data) s with
    ⟨-, hwrites⟩ | ⟨done, p', rest, e', hsplit, herr, hwrites⟩
  · rw [hwrites] at hmem
    obtain ⟨d, -, hd⟩ := List.mem_map.mp hmem
    cases hd
  · rw [hwrites] at hmem
    have heq : p = p' ∧ e = e' := by
      simpa using hmem
    obtain ⟨rfl, rfl⟩ := heq
    exact ⟨herr, done, rest, hsplit, hwrites⟩

/-- **USB IN.**  If every write succeeds, all packets are of at most 64 bytes and the host, which
ends a transfer at the first shorter one, reads back the payloads, with nothing left.  If a write
of a payload fails, `write_ep` returns its error, the packets before it are a proper prefix of
those of the payload, and there is none after it. -/
theorem writeEp_decodable (s : σ) :
    (∀ payloads : List (List UInt8),
      (∀ w ∈ EpM.writes ep (forM payloads writeEp) s, w.2 = .ok ()) →
        (EpM.exec ep (forM payloads writeEp) s).1 = .ok () ∧
        (∀ w ∈ EpM.writes ep (forM payloads writeEp) s, w.1.length ≤ 64) ∧
        reassemble 64 ((EpM.writes ep (forM payloads writeEp) s).map Prod.fst) =
          (payloads, [])) ∧
    ∀ (data p : List UInt8) (e : EndpointError), (p, .error e) ∈ EpM.writes ep (writeEp data) s →
      (EpM.exec ep (writeEp data) s).1 = .error e ∧
      ∃ done rest, usbPackets data = done ++ p :: rest ∧
        EpM.writes ep (writeEp data) s = (done.map fun d => (d, .ok ())) ++ [(p, .error e)] := by
  refine ⟨?_, fun data p e hmem => writeEp_error ep hmem⟩
  intro payloads hall
  obtain ⟨hok, hwrites⟩ := forM_writeEp_ok ep hall
  rw [hwrites]
  refine ⟨hok, ?_, ?_⟩
  · intro w hw
    obtain ⟨p, hp, rfl⟩ := List.mem_map.mp hw
    obtain ⟨data, -, hp⟩ := List.mem_flatMap.mp hp
    exact length_le_of_mem_usbPackets hp
  · have hfst : ((payloads.flatMap usbPackets).map fun p =>
        (p, (.ok () : Except EndpointError Unit))).map Prod.fst =
          payloads.flatMap (segments 64) := by
      rw [List.map_map]
      exact List.map_id _
    rw [hfst, reassemble_segments (by decide)]

end

/-- An endpoint that takes `n` more packets. -/
def takesMore (_ : List UInt8) : ℕ → Except Unit Unit × ℕ
  | 0 => (.error (), 0)
  | n + 1 => (.ok (), n)

/-- An empty payload and one of 64 bytes; and the second to an endpoint disabled after 64 bytes. -/
theorem writeEp_decodable_full :
    reassemble 64 ((EpM.writes takesMore (forM [[], List.replicate 64 0xFF] writeEp) 3).map
      Prod.fst) = ([[], List.replicate 64 0xFF], []) ∧
    (EpM.exec takesMore (writeEp (List.replicate 64 0xFF)) 1).1 = .error () :=
  ⟨((writeEp_decodable takesMore 3).1 [[], List.replicate 64 0xFF] (by decide +kernel)).2.2,
    ((writeEp_decodable takesMore 1).2 (List.replicate 64 0xFF) [] () (by decide +kernel)).1⟩

end NrfHciUsb
