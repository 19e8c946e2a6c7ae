import NrfHciUsb.Bridge.Settle

/-!
# Bridge — Session

A host that keeps to the flow control of commands: every reply announces room for one, so it has one
command outstanding and issues the next when it has the reply.  ACL data and events go on meanwhile,
and the tasks of both cores in any order.

* `Wire`, `Wire.Step`: between host and dispatcher, the commands and the replies on their way.
  `Firmware.wire_step`: so seen, a step of the firmware moves one of them on, or loses it.
* `Exchange.step`: of the two there is at most one, and it belongs to the outstanding command.
* `session_answers`: every reply answers the command the host waits for, the channel is never full,
  and if nothing was lost the host does not wait at rest for a reply that is not there.
-/

namespace NrfHciUsb
open Support

variable {abi : SdcAbi} {σ : Type}

/-! ### The wire -/

/-- The commands not yet dispatched, the replies whose write has not returned, and those the host
has got. -/
structure Wire where
  asked : List (List UInt8)
  replied : List HciReply
  heard : List HciReply

/-- One of them is moved on, or lost. -/
inductive Wire.Step (w w' : Wire) : Prop where
  | keep (hasked : w'.asked = w.asked) (hreplied : w'.replied = w.replied)
      (hheard : w'.heard = w.heard)
  | lose (l r : List (List UInt8)) (c : List UInt8) (hasked : w.asked = l ++ c :: r)
      (hasked' : w'.asked = l ++ r) (hreplied : w'.replied = w.replied)
      (hheard : w'.heard = w.heard)
  | answer (c : List UInt8) (reply : HciReply) (hasked : w.asked = c :: w'.asked)
      (hreplied : w'.replied = w.replied ++ [reply]) (hheard : w'.heard = w.heard)
      (harm : HasArm c = true) (hop : reply.opcode = opcodeOf c)
  | hear (reply : HciReply) (hasked : w'.asked = w.asked)
      (hreplied : w.replied = reply :: w'.replied) (hheard : w'.heard = w.heard ++ [reply])
  | miss (reply : HciReply) (hasked : w'.asked = w.asked)
      (hreplied : w.replied = reply :: w'.replied) (hheard : w'.heard = w.heard)

/-- The commands in the ring, in the hands of `cmd_task` and in the channel. -/
def CommandPath.pending (s : CommandPath) : List (List UInt8) :=
  s.ring.items.filterMap commandOf ++ s.hand.toList.map HciCmdBuf.bytes ++
    s.channel.items.map HciCmdBuf.bytes

/-- The packets sent whose `write_ep` has not returned. -/
def EventPath.unfinished (s : EventPath) : List (List UInt8) :=
  s.sent.drop (s.writer.finished s.written).length

def Firmware.wire (s : Firmware σ) : Wire where
  asked := s.down.pending
  replied := s.up.unfinished.filterMap decodeReply
  heard := s.got.filterMap decodeReply

variable {env : NetEnv abi σ} {s s' : Firmware σ}

theorem EventInv.unfinished_notifyApp {s : EventPath} (h : EventInv s) (f : List UInt8) :
    (s.notifyApp f f).unfinished = s.unfinished ++ [f] ∨ s.notifyApp f f = s := by
  rcases s.notifyApp_cases f with ⟨ring, -, heq⟩ | heq
  · refine .inl ?_
    rw [heq, EventPath.unfinished, EventPath.unfinished]
    exact List.drop_append_of_le_length h.finished_sent.length_le
  · exact .inr heq

/-- The tasks finish nothing. -/
theorem UpTask.Did.unfinished {s s' : EventPath} {t : UpTask} (h : t.Did s s') :
    s'.unfinished = s.unfinished := by
  cases t with
  | recvWait =>
      obtain ⟨-, -, rfl⟩ := h
      rfl
  | recvRead =>
      obtain ⟨-, ⟨-, rfl⟩ | ⟨pkt, ring, buf, -, rfl⟩⟩ := h <;> rfl
  | recvSend =>
      obtain ⟨pkt, channel, -, -, rfl⟩ := h
      rfl
  | receive =>
      obtain ⟨pkt, channel, hw, -, rfl⟩ := h
      simp [EventPath.unfinished, hw, WriterPc.finished]
  | writeEp =>
      obtain ⟨pkt, hw, rfl⟩ := h
      simp [EventPath.unfinished, hw, WriterPc.finished]

/-- The return of `write_ep` finishes the packet written last. -/
theorem EventInv.unfinished_writeDone {s s' : EventPath} {ok : Bool} (h : EventInv s)
    (hne : s.writer = .writing → s.written ≠ []) (hs : s.step abi (.writeDone ok) = some s') :
    ∃ f, s.written.getLast? = some f ∧ s.unfinished = f :: s'.unfinished := by
  obtain ⟨hw, rfl⟩ := EventPath.writeDone_eq hs
  obtain ⟨l, f, hl⟩ := (List.eq_nil_or_concat' s.written).resolve_left (hne hw)
  obtain ⟨rest, hrest⟩ : ∃ rest, s.sent = l ++ f :: rest := by
    refine ⟨s.channel.items.map HciPacket.frame ++ s.recv.hand ++ s.ring.items, ?_⟩
    rw [h.order, EventPath.places, hw, hl]
    simp [WriterPc.hand]
  refine ⟨f, by rw [hl, List.getLast?_concat], ?_⟩
  have hafter : (if ok then WriterPc.receiving else .disabled).finished s.written = s.written := by
    cases ok <;> rfl
  rw [EventPath.unfinished, EventPath.unfinished, hafter, hw, WriterPc.finished, hrest, hl,
    List.dropLast_concat, List.drop_left]
  simp

/-- The frame taken from the ring was the first of the commands, if it is one. -/
theorem Firmware.SameHost.pending {f : List UInt8} (hsame : s.SameHost s')
    (hring : s.down.ring.items = f :: s'.down.ring.items) :
    s.down.pending = (commandOf f).toList ++ s'.down.pending := by
  rw [CommandPath.pending, CommandPath.pending, hring, hsame.channel, hsame.hand]
  cases hf : commandOf f <;> simp [hf]

/-- A frame that is taken and not answered: if it is a command, that is lost. -/
theorem Wire.Step.unanswered {f : List UInt8} (hsame : s.SameHost s')
    (hring : s.down.ring.items = f :: s'.down.ring.items)
    (hreplied : s'.wire.replied = s.wire.replied) : Wire.Step s.wire s'.wire := by
  have hpending := hsame.pending hring
  have hheard : s'.wire.heard = s.wire.heard := by
    simp only [Firmware.wire, hsame.got]
  cases hc : commandOf f with
  | none =>
      rw [hc, Option.toList_none, List.nil_append] at hpending
      exact .keep hpending.symm hreplied hheard
  | some c =>
      rw [hc] at hpending
      exact .lose [] s'.wire.asked c hpending rfl hreplied hheard

/-- **One step** on the wire. -/
theorem Firmware.wire_step (hup : EventInv s.up) (ha : Answering s) {a : FirmwareAct abi σ}
    (hgets : a.Gets HciGot.NoReply) (hcontrol : ∀ req data, a ≠ .controlOut req data)
    (hs : s.step env a = some s') : Wire.Step s.wire s'.wire := by
  cases a with
  | controlOut req data => exact absurd rfl (hcontrol req data)
  | aclOut data =>
      obtain ⟨-, ⟨ring, hring, rfl⟩ | rfl⟩ := Firmware.aclOut_cases hs
      · refine .keep ?_ rfl rfl
        simp [Firmware.wire, CommandPath.pending, hring, commandOf_aclPkt]
      · exact .keep rfl rfl rfl
  | cmdReceive =>
      obtain ⟨cmd, channel, hhand, hitems, rfl⟩ := Firmware.cmdReceive_cases hs
      refine .keep ?_ rfl rfl
      simp [Firmware.wire, CommandPath.pending, hhand, hitems]
  | cmdSend =>
      obtain ⟨cmd, hhand, ⟨ring, hring, rfl⟩ | rfl⟩ := Firmware.cmdSend_cases hs
      · refine .keep ?_ rfl rfl
        simp [Firmware.wire, CommandPath.pending, hhand, hring, commandOf_cmdPkt]
      · refine .lose (s.down.ring.items.filterMap commandOf)
          (s.down.channel.items.map HciCmdBuf.bytes) cmd.bytes ?_ ?_ rfl rfl
        · simp [Firmware.wire, CommandPath.pending, hhand]
        · simp [Firmware.wire, CommandPath.pending]
  | rxWait =>
      obtain ⟨-, -, rfl⟩ := Firmware.rxWait_eq hs
      exact .keep rfl rfl rfl
  | rxRead =>
      obtain ⟨-, -, hsame, ⟨f, htook⟩ | hnone⟩ := Firmware.rxRead_cases hs
      · obtain ⟨pkts, ⟨c, arm, status, ret, hc, harm, rfl⟩ | ⟨-, rfl⟩, -, hup'⟩ := htook.answered
        · -- the command is answered, unless there is no room for the reply
          obtain ⟨reply, hdec, hop, -⟩ := decode_frame arm (opcodeOf c) status ret
          rcases hup.unfinished_notifyApp (arm.frame (opcodeOf c) status ret) with hroom | hfull
          · have hpending := hsame.pending htook.ring
            rw [hc] at hpending
            refine .answer c reply hpending ?_ ?_ (by rw [HasArm, harm, Option.isSome_some]) hop
            · simp [Firmware.wire, hup', EventPath.notifyAll, hroom, hdec]
            · simp only [Firmware.wire, hsame.got]
          · refine .unanswered hsame htook.ring ?_
            simp only [Firmware.wire, hup', EventPath.notifyAll, List.foldl_cons, List.foldl_nil,
              hfull]
        · refine .unanswered hsame htook.ring ?_
          simp only [Firmware.wire, hup', EventPath.notifyAll, List.foldl_nil]
      · have hreplied : s'.wire.replied = s.wire.replied := by
          simp only [Firmware.wire, hnone.up]
        rcases hnone.ring with ⟨hnil, hnil'⟩ | ⟨f, hring, -⟩
        · refine .keep ?_ hreplied ?_
          · simp only [Firmware.wire, CommandPath.pending, hnil, hnil', hsame.channel, hsame.hand]
          · simp only [Firmware.wire, hsame.got]
        · exact .unanswered hsame hring hreplied
  | hciGet got sdc =>
      obtain ⟨-, ⟨f, -, hf, rfl⟩ | ⟨-, rfl⟩ | ⟨-, rfl⟩⟩ := Firmware.hciGet_cases hs
      · refine .keep rfl ?_ rfl
        rcases hup.unfinished_notifyApp f with hroom | hfull
        · simp [Firmware.wire, hroom, hgets f hf]
        · simp only [Firmware.wire, hfull]
      · exact .keep rfl rfl rfl
      · exact .keep rfl rfl rfl
  | up t =>
      obtain ⟨up, hup', rfl⟩ := Option.map_eq_some_iff.mp hs
      refine .keep rfl ?_ rfl
      simp only [Firmware.wire, (hup.did hup').unfinished]
  | enabled =>
      obtain ⟨up, hup', rfl⟩ := Option.map_eq_some_iff.mp hs
      obtain ⟨hw, rfl⟩ := EventPath.enabled_eq hup'
      refine .keep rfl ?_ rfl
      simp [Firmware.wire, EventPath.unfinished, hw, WriterPc.finished]
  | writeDone ok =>
      obtain ⟨up, hup', rfl⟩ := Option.map_eq_some_iff.mp hs
      obtain ⟨f, hlast, hunfinished⟩ := hup.unfinished_writeDone ha.finishing.writing hup'
      cases hf : decodeReply f with
      | none =>
          refine .keep rfl ?_ ?_
          · simp [Firmware.wire, hunfinished, hf]
          · cases ok <;> simp [Firmware.wire, gotAfter, hlast, hf]
      | some reply =>
          have hreplied : s.wire.replied = reply :: up.unfinished.filterMap decodeReply := by
            simp [Firmware.wire, hunfinished, hf]
          cases ok with
          | false => exact .miss reply rfl hreplied rfl
          | true =>
              refine .hear reply rfl hreplied ?_
              simp [Firmware.wire, gotAfter, hlast, hf]

/-- Only a control request takes a command in, or finds the channel full. -/
theorem Firmware.step_accepted (hj : Joined abi s) {a : FirmwareAct abi σ}
    (hcontrol : ∀ req data, a ≠ .controlOut req data) (hs : s.step env a = some s') :
    s'.down.accepted = s.down.accepted ∧
      ∀ c, .channelFull c ∈ s'.down.dropped → .channelFull c ∈ s.down.dropped := by
  cases a with
  | controlOut req data => exact absurd rfl (hcontrol req data)
  | aclOut data =>
      obtain ⟨-, ⟨ring, -, rfl⟩ | rfl⟩ := Firmware.aclOut_cases hs <;> exact ⟨rfl, fun _ h => h⟩
  | cmdReceive =>
      obtain ⟨cmd, channel, -, -, rfl⟩ := Firmware.cmdReceive_cases hs
      exact ⟨rfl, fun _ h => h⟩
  | cmdSend =>
      obtain ⟨cmd, -, ⟨ring, -, rfl⟩ | rfl⟩ := Firmware.cmdSend_cases hs
      · exact ⟨rfl, fun _ h => h⟩
      · exact ⟨rfl, fun c h => by simpa using h⟩
  | rxWait =>
      obtain ⟨-, -, rfl⟩ := Firmware.rxWait_eq hs
      exact ⟨rfl, fun _ h => h⟩
  | rxRead =>
      obtain ⟨-, hread, -⟩ := Firmware.rxRead_cases hs
      obtain ⟨-, hacc, ⟨-, hdrop⟩ | ⟨c, r, -, -, hdrop, -⟩⟩ :=
        CommandPath.netRead_cases hj.conserved.rxBuf hread
      · exact ⟨hacc, fun c h => by rwa [hdrop] at h⟩
      · exact ⟨hacc, fun c h => by simpa [hdrop] using h⟩
  | hciGet got sdc =>
      obtain ⟨-, ⟨f, -, -, rfl⟩ | ⟨-, rfl⟩ | ⟨-, rfl⟩⟩ := Firmware.hciGet_cases hs <;>
        exact ⟨rfl, fun _ h => h⟩
  | up t | enabled | writeDone ok =>
      obtain ⟨up, -, rfl⟩ := Option.map_eq_some_iff.mp hs
      exact ⟨rfl, fun _ h => h⟩

/-- What the host has got it keeps. -/
theorem Firmware.step_got {a : FirmwareAct abi σ} (hs : s.step env a = some s') :
    ∃ new, s'.got = s.got ++ new := by
  obtain ⟨-, hsame | rfl⟩ := Firmware.step_frame hs
  · exact ⟨[], by rw [hsame, List.append_nil]⟩
  · obtain ⟨up, -, rfl⟩ := Option.map_eq_some_iff.mp hs
    exact ⟨_, rfl⟩

/-! ### The host -/

/-- The firmware and its host, which waits for the reply to `awaiting`.  Since the start, `answers`
lists the replies it has got, each with the command it then waited for. -/
structure Session (σ : Type) where
  fw : Firmware σ
  awaiting : Option (List UInt8)
  answers : List (Option (List UInt8) × HciReply)

/-- The host issues a command, or anything else happens. -/
inductive SessionAct (abi : SdcAbi) (σ : Type) where
  | issue (req : Request) (c : List UInt8)
  | goOn (a : FirmwareAct abi σ)

/-- What `hci_get` answers satisfies `P`. -/
def SessionAct.Gets (P : HciGot abi → Prop) : SessionAct abi σ → Prop
  | .issue _ _ => True
  | .goOn a => a.Gets P

/-- The host gets a packet. -/
def Session.receive (s : Session σ) (packet : List UInt8) : Session σ :=
  match decodeReply packet with
  | some reply => { s with awaiting := none, answers := s.answers ++ [(s.awaiting, reply)] }
  | none => s

def Session.step (env : NetEnv abi σ) (s : Session σ) :
    SessionAct abi σ → Option (Session σ)
  | .issue req c =>
      if req.IsHciCommand ∧ s.awaiting = none then
        (s.fw.step env (.controlOut req c)).map fun fw =>
          -- a data stage longer than `CONTROL_BUF` is rejected
          { s with fw := fw, awaiting := if c.length ≤ controlBufLen then some c else none }
      else none
  | .goOn (.controlOut _ _) => none
  | .goOn a => (s.fw.step env a).map fun fw =>
      (fw.got.drop s.fw.got.length).foldl Session.receive { s with fw := fw }

def session (env : NetEnv abi σ) (sdc : σ) :
    Machine (Session σ) (SessionAct abi σ) where
  init := ⟨(firmware env sdc).init, none, []⟩
  step := Session.step env

theorem foldl_receive_nil (s : Session σ) {packets : List (List UInt8)}
    (h : packets.filterMap decodeReply = []) : packets.foldl Session.receive s = s := by
  induction packets with
  | nil => rfl
  | cons p packets ih =>
      cases hp : decodeReply p with
      | none =>
          rw [List.filterMap_cons_none hp] at h
          rw [List.foldl_cons, Session.receive, hp]
          exact ih h
      | some reply =>
          rw [List.filterMap_cons_some hp] at h
          cases h

theorem foldl_receive_singleton (s : Session σ) {packets : List (List UInt8)} {reply : HciReply}
    (h : packets.filterMap decodeReply = [reply]) : packets.foldl Session.receive s =
      { s with awaiting := none, answers := s.answers ++ [(s.awaiting, reply)] } := by
  induction packets with
  | nil => cases h
  | cons p packets ih =>
      cases hp : decodeReply p with
      | none =>
          rw [List.filterMap_cons_none hp] at h
          rw [List.foldl_cons, Session.receive, hp]
          exact ih h
      | some reply' =>
          rw [List.filterMap_cons_some hp] at h
          obtain ⟨rfl, hrest⟩ := List.cons.inj h
          rw [List.foldl_cons, Session.receive, hp]
          exact foldl_receive_nil _ hrest

/-! ### One command at a time -/

/-- On the wire there is nothing, the outstanding command, or the reply to it. -/
inductive Exchange (w : Wire) : Option (List UInt8) → Prop where
  | quiet (awaiting : Option (List UInt8)) (hasked : w.asked = []) (hreplied : w.replied = []) :
      Exchange w awaiting
  | asked (c : List UInt8) (hasked : w.asked = [c]) (hreplied : w.replied = []) :
      Exchange w (some c)
  | replied (c : List UInt8) (reply : HciReply) (hasked : w.asked = [])
      (hreplied : w.replied = [reply]) (harm : HasArm c = true)
      (hop : reply.opcode = opcodeOf c) : Exchange w (some c)

theorem Exchange.asked_of_none {w : Wire} (h : Exchange w none) : w.asked = [] := by
  cases h with
  | quiet _ hasked hreplied => exact hasked

/-- **One step** of the exchange: it goes on, or the host gets the reply it waits for. -/
theorem Exchange.step {w w' : Wire} {awaiting : Option (List UInt8)} (h : Exchange w awaiting)
    (hs : Wire.Step w w') :
    (w'.heard = w.heard ∧ Exchange w' awaiting) ∨
    ∃ c reply, awaiting = some c ∧ HasArm c = true ∧ reply.opcode = opcodeOf c ∧
      w'.heard = w.heard ++ [reply] ∧ ∀ x, Exchange w' x := by
  have hcons : ∀ {α : Type} {a : α} {l : List α}, a :: l ≠ [] := fun h => by cases h
  have hmid : ∀ {l r : List (List UInt8)} {c : List UInt8}, l ++ c :: r ≠ [] := fun h => by
    simp at h
  cases hs with
  | keep hasked hreplied hheard =>
      refine .inl ⟨hheard, ?_⟩
      cases h with
      | quiet _ ha hr => exact .quiet _ (hasked.trans ha) (hreplied.trans hr)
      | asked c ha hr => exact .asked c (hasked.trans ha) (hreplied.trans hr)
      | replied c reply ha hr harm hop =>
          exact .replied c reply (hasked.trans ha) (hreplied.trans hr) harm hop
  | lose l r c hasked hasked' hreplied hheard =>
      refine .inl ⟨hheard, ?_⟩
      cases h with
      | quiet _ ha hr => exact absurd (hasked.symm.trans ha) hmid
      | replied c reply ha hr harm hop => exact absurd (hasked.symm.trans ha) hmid
      | asked c' ha hr =>
          rw [hasked, List.append_eq_singleton_iff] at ha
          have hnil : l ++ r = [] := by
            rcases ha with ⟨rfl, hcr⟩ | ⟨-, hcr⟩
            · exact (List.cons.inj hcr).2
            · cases hcr
          exact .quiet _ (hasked'.trans hnil) (hreplied.trans hr)
  | answer c reply hasked hreplied hheard harm hop =>
      refine .inl ⟨hheard, ?_⟩
      cases h with
      | quiet _ ha hr => exact absurd (hasked.symm.trans ha) hcons
      | replied c reply ha hr harm hop => exact absurd (hasked.symm.trans ha) hcons
      | asked c' ha hr =>
          rw [hasked] at ha
          obtain ⟨rfl, hnil⟩ := List.cons.inj ha
          exact .replied c reply hnil (by rw [hreplied, hr, List.nil_append]) harm hop
  | hear reply hasked hreplied hheard =>
      cases h with
      | quiet _ ha hr => exact absurd (hreplied.symm.trans hr) hcons
      | asked c ha hr => exact absurd (hreplied.symm.trans hr) hcons
      | replied c reply' ha hr harm hop =>
          rw [hreplied] at hr
          obtain ⟨rfl, hnil⟩ := List.cons.inj hr
          exact .inr ⟨c, reply, rfl, harm, hop, hheard,
            fun x => .quiet x (hasked.trans ha) hnil⟩
  | miss reply hasked hreplied hheard =>
      refine .inl ⟨hheard, ?_⟩
      cases h with
      | quiet _ ha hr => exact absurd (hreplied.symm.trans hr) hcons
      | asked c ha hr => exact absurd (hreplied.symm.trans hr) hcons
      | replied c reply' ha hr harm hop =>
          rw [hreplied] at hr
          exact .quiet _ (hasked.trans ha) (List.cons.inj hr).2

/-- What is known of a session: the replies are to the commands waited for, each command with an arm
is answered or waited for, and none is answered after a panic. -/
structure SessionInv (abi : SdcAbi) (s : Session σ) : Prop where
  sound : Sound abi s.fw
  exchange : Exchange s.fw.wire s.awaiting
  answers : ∀ x ∈ s.answers, ∃ c, x.1 = some c ∧ x.2.opcode = opcodeOf c
  heard : s.answers.map Prod.snd = s.fw.got.filterMap decodeReply
  count : (s.fw.down.accepted.filter HasArm).length =
    s.answers.length + (s.awaiting.toList.filter HasArm).length
  room : ∀ c, Drop.channelFull c ∉ s.fw.down.dropped
  panicked : s.fw.rx = .panicked → ∃ c, s.awaiting = some c ∧ HasArm c = false

theorem sessionInv_init (env : NetEnv abi σ) (sdc : σ) :
    SessionInv abi (session env sdc).init where
  sound := sound_init env sdc
  exchange := .quiet _ rfl rfl
  answers := nofun
  heard := rfl
  count := rfl
  room := nofun
  panicked := nofun

variable {x x' : Session σ}

/-- **A command** is issued into an empty channel. -/
theorem SessionInv.issue (hlo : controlBufLen ≤ abi.hciMsgBufferMaxSize)
    (hhi : abi.hciMsgBufferMaxSize ≤ maxHciPayload) (h : SessionInv abi x) {req : Request}
    {c : List UInt8} (hs : x.step env (.issue req c) = some x') :
    SessionInv abi x' := by
  obtain ⟨⟨hreq, hnone⟩, hs⟩ := Option.ite_none_right_eq_some.mp hs
  obtain ⟨fw, hfw, rfl⟩ := Option.map_eq_some_iff.mp hs
  have hgets : (FirmwareAct.controlOut req c : FirmwareAct abi σ).Gets HciGot.Proper := trivial
  have hsound := h.sound.step hlo hhi hgets hfw
  have hcalm : x.fw.rx ≠ .panicked := by
    intro hpanic
    obtain ⟨c', hc', -⟩ := h.panicked hpanic
    rw [hnone] at hc'
    cases hc'
  have hexchange := h.exchange
  rw [hnone] at hexchange
  have hpending : x.fw.down.pending = [] := hexchange.asked_of_none
  have hcount := h.count
  rw [hnone] at hcount
  obtain ⟨hring, hchannel⟩ := List.append_eq_nil_iff.mp hpending
  rcases Firmware.controlOut_cases hfw with ⟨-, hlen, ⟨channel, hitems, rfl⟩ | ⟨hfull, -⟩⟩ |
    ⟨hnot, rfl⟩
  · have hle : controlBufLen ≤ maxCmdLen := by decide
    have hbytes : (HciCmdBuf.ofData c).bytes = c := by
      rw [HciCmdBuf.ofData_bytes, List.take_of_length_le (hlen.trans hle)]
    rw [List.map_eq_nil_iff] at hchannel
    rw [if_pos hlen]
    refine ⟨hsound, ?_, h.answers, h.heard, ?_, h.room, fun hpanic => absurd hpanic hcalm⟩
    · have hreplied : x.fw.wire.replied = [] := by
        cases hexchange with
        | quiet _ _ hreplied => exact hreplied
      refine .asked c ?_ hreplied
      show _ ++ channel.items.map HciCmdBuf.bytes = [c]
      rw [hring, hitems, hchannel, List.nil_append, List.nil_append, List.map_singleton, hbytes]
    · show ((x.fw.down.accepted ++ [(HciCmdBuf.ofData c).bytes]).filter HasArm).length = _
      rw [hbytes, List.filter_append, List.length_append, hcount]
      simp
  · -- the channel holds nothing
    rw [List.map_eq_nil_iff] at hchannel
    rw [hchannel] at hfull
    cases hfull
  · have hlong : ¬ c.length ≤ controlBufLen := fun hlen => hnot ⟨hreq, hlen⟩
    rw [if_neg hlong]
    exact ⟨hsound, hexchange, h.answers, h.heard, hcount, h.room,
      fun hpanic => absurd hpanic hcalm⟩

/-- The net core panics over the outstanding command. -/
theorem SessionInv.panicking (h : SessionInv abi x) {a : FirmwareAct abi σ}
    (hgets : a.Gets HciGot.Proper) {fw : Firmware σ} (hfw : x.fw.step env a = some fw)
    (hpanic : fw.rx = .panicked) : ∃ c, x.awaiting = some c ∧ HasArm c = false := by
  obtain ⟨hbefore, -⟩ | ⟨f, hsame, htook, c, rfl, hshort⟩ :=
    Firmware.panicked_cases hgets hfw hpanic
  · exact h.panicked hbefore
  · have hasked : x.fw.wire.asked = c :: fw.down.pending := hsame.pending htook.ring
    have hnoarm : HasArm c = false := by
      match c with
      | [] | [_] => rfl
      | lo :: hi :: rest => exact absurd hshort (by simp)
    have hexchange := h.exchange
    cases hawait : x.awaiting with
    | none =>
        rw [hawait] at hexchange
        rw [hexchange.asked_of_none] at hasked
        cases hasked
    | some c' =>
        rw [hawait] at hexchange
        cases hexchange with
        | quiet _ ha _ | replied _ _ ha _ _ _ =>
            rw [ha] at hasked
            cases hasked
        | asked _ ha _ =>
            rw [ha] at hasked
            rw [(List.cons.inj hasked).1]
            exact ⟨c, rfl, hnoarm⟩

/-- **Anything else.** -/
theorem SessionInv.goOn (hlo : controlBufLen ≤ abi.hciMsgBufferMaxSize)
    (hhi : abi.hciMsgBufferMaxSize ≤ maxHciPayload) (h : SessionInv abi x)
    {a : FirmwareAct abi σ} (hgets : a.Gets HciGot.Proper)
    (hs : x.step env (.goOn a) = some x') : SessionInv abi x' := by
  have hcontrol : ∀ req data, a ≠ .controlOut req data := by
    rintro req data rfl
    cases hs
  obtain ⟨fw, hfw, rfl⟩ : ∃ fw, x.fw.step env a = some fw ∧
      (fw.got.drop x.fw.got.length).foldl Session.receive { x with fw := fw } = x' := by
    cases a with
    | controlOut req data => exact absurd rfl (hcontrol req data)
    | aclOut _ | cmdReceive | cmdSend | rxWait | rxRead | hciGet _ _ | up _ | enabled
    | writeDone _ =>
        exact Option.map_eq_some_iff.mp hs
  have hsound := h.sound.step hlo hhi hgets hfw
  have hwire := Firmware.wire_step (h.sound.joined.up hhi) h.sound.answering hgets.noReply hcontrol
    hfw
  have hpanicking := h.panicking hgets hfw
  obtain ⟨hacc, hfull⟩ := Firmware.step_accepted h.sound.joined hcontrol hfw
  obtain ⟨new, hnew⟩ := Firmware.step_got hfw
  have hheard : fw.wire.heard = x.fw.wire.heard ++ new.filterMap decodeReply := by
    simp only [Firmware.wire, hnew, List.filterMap_append]
  have hroom : ∀ c, Drop.channelFull c ∉ fw.down.dropped := fun c hc => h.room c (hfull c hc)
  rw [hnew, List.drop_left]
  rcases h.exchange.step hwire with ⟨hsame, hex⟩ | ⟨c, reply, hawait, harm, hop, hone, hex⟩
  · have hnil : new.filterMap decodeReply = [] := by
      rw [hsame] at hheard
      simpa using hheard
    rw [foldl_receive_nil _ hnil]
    refine ⟨hsound, hex, h.answers, ?_, ?_, hroom, hpanicking⟩
    · rw [hnew, List.filterMap_append, hnil, List.append_nil]
      exact h.heard
    · rw [hacc]
      exact h.count
  · have hsingle : new.filterMap decodeReply = [reply] := by
      rw [hone] at hheard
      exact (List.append_cancel_left hheard).symm
    rw [foldl_receive_singleton _ hsingle]
    refine ⟨hsound, hex none, ?_, ?_, ?_, hroom, fun hpanic => ?_⟩
    · intro y hy
      rcases List.mem_append.mp hy with hmem | hmem
      · exact h.answers y hmem
      · rw [List.mem_singleton.mp hmem]
        exact ⟨c, hawait, hop⟩
    · rw [hnew, List.filterMap_append, hsingle, List.map_append, h.heard]
      rfl
    · have hcount := h.count
      rw [hawait] at hcount
      rw [hacc, hcount]
      simp [harm]
    · obtain ⟨c', hc', hnoarm⟩ := hpanicking hpanic
      rw [hawait] at hc'
      cases hc'
      rw [harm] at hnoarm
      cases hnoarm

theorem sessionInv_of_reachable (hlo : controlBufLen ≤ abi.hciMsgBufferMaxSize)
    (hhi : abi.hciMsgBufferMaxSize ≤ maxHciPayload) {sdc : σ}
    (h : (session env sdc).ReachableBy (SessionAct.Gets HciGot.Proper) x) : SessionInv abi x := by
  refine h.invariant (sessionInv_init env sdc) fun s a s' hgets ih hs => ?_
  cases a with
  | issue req c => exact ih.issue hlo hhi hs
  | goOn a => exact ih.goOn hlo hhi hgets hs

/-- What the host waits for at rest, if nothing was lost: its reply is there, or there is none. -/
theorem SessionInv.atRest (hhi : abi.hciMsgBufferMaxSize ≤ maxHciPayload) (h : SessionInv abi x)
    {sdc : σ} (hrest : (firmware env sdc).AtRest FirmwareAct.IsTask x.fw)
    (hdropped : x.fw.down.dropped = [])
    (hall : x.fw.up.sent.filterMap decodeReply = x.fw.replies.filterMap decodeReply)
    (hfailed : x.fw.failed = 0) {c : List UInt8} (hawait : x.awaiting = some c) :
    HasArm c = false ∨ ∃ reply, x.fw.wire.replied = [reply] ∧ reply.opcode = opcodeOf c := by
  by_cases hpanic : x.fw.rx = .panicked
  · obtain ⟨c', hc', hnoarm⟩ := h.panicked hpanic
    rw [hawait] at hc'
    cases hc'
    exact .inl hnoarm
  · have hidle := h.sound.awake.idle_of_atRest hrest hpanic
    have hasked : x.fw.wire.asked = [] := by
      simp [Firmware.wire, CommandPath.pending, hidle.ring, hidle.hand, hidle.channel]
    have hexchange := h.exchange
    rw [hawait] at hexchange
    cases hexchange with
    | asked _ ha _ =>
        rw [hasked] at ha
        cases ha
    | replied _ reply _ hreplied _ hop => exact .inr ⟨reply, hreplied, hop⟩
    | quiet _ _ hreplied =>
        -- all replies have been heard, and there is one to each command with an arm
        have hgot := h.sound.answering.finishing.order
        have hlen := h.sound.answering.finishing.count
        rw [hfailed, Nat.add_zero] at hlen
        have hsent := List.prefix_iff_eq_append.mp (h.sound.joined.up hhi).finished_sent
        have hheard : x.fw.up.sent.filterMap decodeReply = x.fw.got.filterMap decodeReply := by
          have hreplied' : (x.fw.up.sent.drop _).filterMap decodeReply = [] := hreplied
          rw [← hsent, List.filterMap_append, hreplied', List.append_nil, hgot.eq_of_length hlen]
        have hplaces : x.fw.down.dispatched = x.fw.down.accepted := by
          have horder := h.sound.joined.conserved.order
          have hperm := h.sound.joined.conserved.perm.length_eq
          rw [hdropped, List.map_nil, List.append_nil] at hperm
          rw [← horder.eq_of_length hperm.symm]
          simp [CommandPath.places, hidle.ring, hidle.hand, hidle.channel]
        have hopcodes := congrArg List.length h.sound.answering.replies
        rw [List.length_map, List.length_map, ← hall, hheard, ← h.heard, List.length_map, hplaces,
          h.count, hawait, Option.toList_some] at hopcodes
        have hnil : [c].filter HasArm = [] := List.eq_nil_of_length_eq_zero (by omega)
        exact .inl (by simpa using hnil)

/-- **Sessions.**  With one command outstanding at a time and a controller within `HciGot.Proper`,
every reply the host gets answers the command it waits for, and no command finds the channel full.  Where the tasks have come to rest and
nothing was lost on the way, the host waits for a command without an arm, or the reply is on its way
and `usb_write_task` waits for the host. -/
theorem session_answers (env : NetEnv abi σ) (sdc : σ)
    (hlo : controlBufLen ≤ abi.hciMsgBufferMaxSize)
    (hhi : abi.hciMsgBufferMaxSize ≤ maxHciPayload) (s : Session σ)
    (h : (session env sdc).ReachableBy (SessionAct.Gets HciGot.Proper) s) :
    (∀ x ∈ s.answers, ∃ c, x.1 = some c ∧ x.2.opcode = opcodeOf c) ∧
    s.answers.map Prod.snd = s.fw.got.filterMap decodeReply ∧
    (∀ c, Drop.channelFull c ∉ s.fw.down.dropped) ∧
    ((firmware env sdc).AtRest FirmwareAct.IsTask s.fw → s.fw.down.dropped = [] →
      s.fw.up.sent.filterMap decodeReply = s.fw.replies.filterMap decodeReply →
      s.fw.failed = 0 → ∀ c, s.awaiting = some c → HasArm c = false ∨
        s.fw.up.writer ≠ .receiving ∧
          ∃ reply ∈ s.fw.up.unfinished.filterMap decodeReply, reply.opcode = opcodeOf c) := by
  have hi := sessionInv_of_reachable hlo hhi h
  refine ⟨hi.answers, hi.heard, hi.room, ?_⟩
  intro hrest hdropped hsent hfailed c hawait
  obtain hnoarm | ⟨reply, hreplied, hop⟩ := hi.atRest hhi hrest hdropped hsent hfailed hawait
  · exact .inl hnoarm
  · have hreplied' : s.fw.up.unfinished.filterMap decodeReply = [reply] := hreplied
    refine .inr ⟨fun hw => ?_, reply, by rw [hreplied']; exact List.mem_singleton_self _, hop⟩
    obtain ⟨hwritten, -⟩ := (hi.sound.settled hhi hrest).written hw
    rw [EventPath.unfinished, hw, WriterPc.finished, hwritten, List.drop_length] at hreplied'
    cases hreplied'

/-- Two commands, the second when the first is answered. -/
def askTwice : List (SessionAct someAbi Unit) :=
  [.issue classReq [0x03, 0x0C, 0x00], .goOn .cmdReceive, .goOn .cmdSend, .goOn .rxWait,
    .goOn .rxRead, .goOn .enabled, .goOn (.up .recvWait), .goOn (.up .recvRead),
    .goOn (.up .recvSend), .goOn (.up .receive), .goOn (.up .writeEp), .goOn (.writeDone true),
    .issue classReq [0x00, 0xFC, 0x00]]

/-- The second has no arm, and the host waits. -/
theorem session_answers_twice :
    ∃ s, (session (NetEnv.zeros someAbi) ()).run askTwice = some s ∧
      s.awaiting = some [0x00, 0xFC, 0x00] ∧
      s.answers = [(some [0x03, 0x0C, 0x00], .commandComplete 0x0C03 0x00 [])] ∧
      ∀ c, Drop.channelFull c ∉ s.fw.down.dropped := by
  obtain ⟨s, hs, hawait, hans⟩ := (session (NetEnv.zeros someAbi) ()).exists_of_run askTwice
    (fun s => s.awaiting = some [0x00, 0xFC, 0x00] ∧
      s.answers = [(some [0x03, 0x0C, 0x00], .commandComplete 0x0C03 0x00 [])])
    (by decide +kernel)
  have hgets : ∀ a ∈ askTwice, a.Gets HciGot.Proper := by
    simp [askTwice, SessionAct.Gets, FirmwareAct.Gets]
  exact ⟨s, hs, hawait, hans, (session_answers (NetEnv.zeros someAbi) () (by decide)
    (by decide) s ⟨_, hgets, hs⟩).2.2.1⟩

end NrfHciUsb
