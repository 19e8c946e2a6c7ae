import NrfHciUsb.Bridge.Commands
import NrfHciUsb.Net.Framing

/-!
# Bridge — Transport

A host that sends one command after the other, with no ACL data in between.  Before `control_out`
there is the control pipe: `embassy-usb` rejects a data stage that is longer than the buffer given
to `Builder::new`, and `control_out` does not see it.

* `CommandPath.Holds`: where the one command is that is on its way; `CommandPath.Holds.move`: from
  each place it can be moved on.
* `carried_of_reachable`: what was dispatched and what is on its way are, in order, the issued
  commands that fit `CONTROL_BUF`.
* `transport_exact`: every run can be continued until nothing is on its way, and then every issued
  command was dispatched if and only if each of them fits.
-/

namespace NrfHciUsb
open Support

/-- A step on the way of a command from `control_out` to the dispatcher. -/
inductive Task where
  | cmdReceive
  | cmdSend
  | netRead
  deriving DecidableEq, Repr

def Task.act : Task → CommandAct
  | .cmdReceive => .cmdReceive
  | .cmdSend => .cmdSend
  | .netRead => .netRead

/-- What is on its way, in the channel, in the hands of `cmd_task` or on the ring. -/
def CommandPath.inTransit (s : CommandPath) : ℕ :=
  s.channel.items.length + s.hand.toList.length + s.ring.items.length

/-- The data stage of a control request. -/
def CommandPath.controlStage (s : CommandPath) (req : Request) (data : List UInt8) : CommandPath :=
  s.take (takeTransfer req data s.channel)

/-- The path, and the commands issued since the start. -/
structure Transport where
  path : CommandPath
  issued : List HciCommand

/-- The host issues a command, or a task goes on. -/
inductive TransportAct where
  | issue (req : Request) (cmd : HciCommand)
  | task (t : Task)

/-- A command is issued when nothing is on its way. -/
def Transport.step (s : Transport) : TransportAct → Option Transport
  | .issue req cmd =>
      if req.IsHciCommand ∧ s.path.inTransit = 0 then
        some ⟨s.path.controlStage req cmd.bytes, s.issued ++ [cmd]⟩
      else none
  | .task t => (s.path.step t.act).map fun path => { s with path := path }

/-- With `HCI_MSG_BUFFER_MAX_SIZE` being `maxMsg`. -/
def transport (maxMsg : ℕ) : Machine Transport TransportAct where
  init := ⟨(commandPath maxMsg).init, []⟩
  step := Transport.step

/-- Data that fit `CONTROL_BUF` go to `control_out`. -/
theorem CommandPath.step_controlStage (s : CommandPath) (req : Request) {data : List UInt8}
    (h : data.length ≤ controlBufLen) :
    s.step (.controlOut req data) = some (s.controlStage req data) := by
  rw [controlStage, takeTransfer, if_pos h]
  rfl

theorem CommandPath.controlStage_rejected (s : CommandPath) (req : Request) {data : List UInt8}
    (h : ¬ data.length ≤ controlBufLen) : s.controlStage req data = s := by
  simp [controlStage, takeTransfer, if_neg h, take]

/-! ### One command on its way -/

/-- Nothing is on its way. -/
structure CommandPath.Idle (s : CommandPath) : Prop where
  channel : s.channel.items = []
  hand : s.hand = none
  ring : s.ring.items = []

theorem CommandPath.inTransit_eq_zero_iff {s : CommandPath} : s.inTransit = 0 ↔ s.Idle := by
  constructor
  · intro h
    rw [CommandPath.inTransit] at h
    refine ⟨List.eq_nil_of_length_eq_zero (by omega), ?_, List.eq_nil_of_length_eq_zero (by omega)⟩
    cases hhand : s.hand with
    | none => rfl
    | some cmd =>
        rw [hhand] at h
        simp at h
  · rintro ⟨hchannel, hhand, hring⟩
    simp [CommandPath.inTransit, hchannel, hhand, hring]

/-- Where a command can be. -/
inductive Place where
  | channel
  | hand
  | ring

/-- The command `c` is there, and nothing else is on its way. -/
def CommandPath.Holds (s : CommandPath) (c : List UInt8) : Place → Prop
  | .channel => s.channel.items = [.ofData c] ∧ s.hand = none ∧ s.ring.items = []
  | .hand => s.channel.items = [] ∧ s.hand = some (.ofData c) ∧ s.ring.items = []
  | .ring => s.channel.items = [] ∧ s.hand = none ∧ s.ring.items = [0x01 :: c]

/-- The task that takes it from there. -/
def Place.task : Place → Task
  | .channel => .cmdReceive
  | .hand => .cmdSend
  | .ring => .netRead

/-- `c` has come from `s` one place on from `p`, or to the dispatcher. -/
def Moved (c : List UInt8) (s s' : CommandPath) : Place → Prop
  | .channel => s'.Holds c .hand ∧ s'.dispatched = s.dispatched
  | .hand => s'.Holds c .ring ∧ s'.dispatched = s.dispatched
  | .ring => s'.Idle ∧ s'.dispatched = s.dispatched ++ [c]

variable {s s' : CommandPath} {c : List UInt8}

/-- `control_out` puts a command into the empty channel. -/
theorem step_controlOut (hidle : s.Idle) {req : Request} (hreq : req.IsHciCommand)
    (data : List UInt8) :
    ∃ s', s.step (.controlOut req data) = some s' ∧ s'.Holds data .channel ∧
      s'.dispatched = s.dispatched := by
  refine ⟨_, rfl, ⟨?_, hidle.hand, hidle.ring⟩, rfl⟩
  obtain ⟨-, ⟨channel, hpush, heq⟩ | ⟨hfull, -⟩⟩ | ⟨hnot, -⟩ :=
    takeRequest_cases req data s.channel
  · have hitems := (Fifo.push?_eq_some_iff.mp hpush).2
    rw [hidle.channel] at hitems
    rw [CommandPath.take, heq, hitems, List.nil_append]
  · rw [hidle.channel] at hfull
    cases hfull
  · exact absurd hreq hnot

theorem step_netRead_empty (hring : s.ring.items = []) : s.step .netRead = some s := by
  rcases s.ring.recv_cases s.rxBuf with ⟨-, hrecv⟩ | ⟨p, ring, hitems, -⟩
  · simp [CommandPath.step, hrecv, hring]
  · rw [hring] at hitems
    cases hitems

theorem step_cmdReceive (h : s.Holds c .channel) :
    ∃ s', s.step .cmdReceive = some s' ∧ Moved c s s' .channel := by
  obtain ⟨hchannel, hhand, hring⟩ := h
  have hpop : s.channel.pop? = some (.ofData c, Fifo.empty) := by
    rw [Fifo.pop?_eq_some_iff, hchannel, Fifo.empty_items]
  rw [CommandPath.step, takeCommand_eq_some_iff.mpr ⟨hhand, hpop⟩]
  exact ⟨_, rfl, ⟨rfl, rfl, hring⟩, rfl⟩

/-- An empty ring has room for the longest command. -/
theorem step_cmdSend (h : s.Holds c .hand) (hlen : c.length ≤ maxCmdLen) :
    ∃ s', s.step .cmdSend = some s' ∧ Moved c s s' .hand := by
  obtain ⟨hchannel, hhand, hring⟩ := h
  have hpkt : cmdPkt (.ofData c) = 0x01 :: c := by
    rw [cmdPkt_eq, HciCmdBuf.ofData_bytes, List.take_of_length_le hlen]
  have hsend : (s.ring.send (0x01 :: c)).2.items = [0x01 :: c] := by
    rcases s.ring.send_cases (0x01 :: c) with ⟨-, hitems⟩ | ⟨-, -, hfull⟩
    · rw [hitems, hring, List.nil_append]
    · have hbuf : bufSize.toNat = 14328 := rfl
      rw [hring, ringBytes_nil, List.length_cons, hbuf] at hfull
      rw [maxCmdLen] at hlen
      omega
  rw [CommandPath.step, hhand]
  refine ⟨_, rfl, ⟨hchannel, rfl, ?_⟩, rfl⟩
  rw [hpkt, hsend]

theorem step_netRead (h : s.Holds c .ring) (hfit : 1 + c.length ≤ s.rxBuf.length) :
    ∃ s', s.step .netRead = some s' ∧ Moved c s s' .ring := by
  obtain ⟨hchannel, hhand, hring⟩ := h
  rcases s.ring.recv_cases s.rxBuf with ⟨hnil, -⟩ | ⟨p, ring, hitems, hrecv⟩
  · rw [hring] at hnil
    cases hnil
  · rw [hring] at hitems
    obtain ⟨rfl, hrest⟩ := List.cons_eq_cons.mp hitems
    have hrec : received (0x01 :: c) s.rxBuf =
        (some (c.length + 1), 0x01 :: c ++ s.rxBuf.drop (c.length + 1)) :=
      if_pos (by rw [List.length_cons]; omega)
    have htake : (0x01 :: c ++ s.rxBuf.drop (c.length + 1)).take (c.length + 1) =
        0x01 :: c := @List.take_left _ (0x01 :: c) _
    simp only [CommandPath.step, hrecv, hrec]
    refine ⟨_, rfl, ⟨hchannel, hhand, hrest.symm⟩, ?_⟩
    rw [htake]
    rfl

/-- **Moving on.**  A command that fits the frame of `cmd_task` and the buffer of `ipc_rx_loop`
can be moved on from each place. -/
theorem CommandPath.Holds.move {p : Place} (h : s.Holds c p) (hlen : c.length ≤ maxCmdLen)
    (hfit : 1 + c.length ≤ s.rxBuf.length) :
    ∃ s', s.step p.task.act = some s' ∧ Moved c s s' p := by
  cases p with
  | channel => exact step_cmdReceive h
  | hand => exact step_cmdSend h hlen
  | ring => exact step_netRead h hfit

theorem CommandPath.Holds.not_idle {p : Place} (h : s.Holds c p) : ¬ s.Idle := by
  intro hidle
  cases p with
  | channel => exact absurd (h.1.symm.trans hidle.channel) (List.cons_ne_nil _ _)
  | hand => exact absurd (h.2.1.symm.trans hidle.hand) (Option.some_ne_none _)
  | ring => exact absurd (h.2.2.symm.trans hidle.ring) (List.cons_ne_nil _ _)

/-- The other tasks have nothing to do. -/
theorem CommandPath.Holds.others {p : Place} {t : Task} (h : s.Holds c p) (hne : t ≠ p.task)
    (hs : s.step t.act = some s') : s' = s := by
  have hring : p ≠ .ring → s.ring.items = [] := by
    intro hp
    cases p with
    | channel => exact h.2.2
    | hand => exact h.2.2
    | ring => exact absurd rfl hp
  cases t with
  | cmdReceive =>
      cases p with
      | channel => exact absurd rfl hne
      | hand => simp [Task.act, CommandPath.step, h.2.1] at hs
      | ring => simp [Task.act, CommandPath.step, h.2.1, Fifo.pop?_eq_none_iff.mpr h.1] at hs
  | cmdSend =>
      cases p with
      | hand => exact absurd rfl hne
      | channel => simp [Task.act, CommandPath.step, h.2.1] at hs
      | ring => simp [Task.act, CommandPath.step, h.2.1] at hs
  | netRead =>
      have hp : p ≠ .ring := by
        rintro rfl
        exact hne rfl
      rw [Task.act, step_netRead_empty (hring hp)] at hs
      exact (Option.some.inj hs).symm

theorem CommandPath.Idle.tasks {t : Task} (h : s.Idle) (hs : s.step t.act = some s') : s' = s := by
  cases t with
  | cmdReceive =>
      simp [Task.act, CommandPath.step, h.hand, Fifo.pop?_eq_none_iff.mpr h.channel] at hs
  | cmdSend => simp [Task.act, CommandPath.step, h.hand] at hs
  | netRead =>
      rw [Task.act, step_netRead_empty h.ring] at hs
      exact (Option.some.inj hs).symm

/-! ### Every run -/

/-- The commands that `control_out` sees. -/
def fitting (cmds : List HciCommand) : List (List UInt8) :=
  (cmds.map HciCommand.bytes).filter fun c => c.length ≤ controlBufLen

theorem fitting_concat (cmds : List HciCommand) (cmd : HciCommand) :
    fitting (cmds ++ [cmd]) =
      fitting cmds ++ if cmd.bytes.length ≤ controlBufLen then [cmd.bytes] else [] := by
  rw [fitting, List.map_append, List.filter_append, List.map_cons, List.map_nil,
    List.filter_singleton]
  simp [fitting]

theorem fitting_eq_iff (cmds : List HciCommand) :
    fitting cmds = cmds.map HciCommand.bytes ↔ ∀ cmd ∈ cmds, cmd.bytes.length ≤ controlBufLen := by
  rw [fitting, List.filter_eq_self]
  simp

/-- The path is in a state of its own runs, and the fitting commands were dispatched, but for the
one on its way. -/
structure Carried (maxMsg : ℕ) (s : Transport) : Prop where
  path : (commandPath maxMsg).Reachable s.path
  inOrder : s.path.Idle ∧ s.path.dispatched = fitting s.issued ∨
    ∃ c p, s.path.Holds c p ∧ c.length ≤ controlBufLen ∧
      s.path.dispatched ++ [c] = fitting s.issued

theorem carried_init (maxMsg : ℕ) : Carried maxMsg (transport maxMsg).init where
  path := .init _
  inOrder := .inl ⟨⟨rfl, rfl, rfl⟩, rfl⟩

theorem Carried.issue {maxMsg : ℕ} {s s' : Transport} {req : Request} {cmd : HciCommand}
    (h : Carried maxMsg s) (hs : s.step (.issue req cmd) = some s') : Carried maxMsg s' := by
  obtain ⟨⟨hreq, hzero⟩, hs⟩ := Option.ite_none_right_eq_some.mp hs
  have hidle := CommandPath.inTransit_eq_zero_iff.mp hzero
  have hdisp : s.path.dispatched = fitting s.issued := by
    rcases h.inOrder with ⟨-, hdisp⟩ | ⟨c, p, hholds, -⟩
    · exact hdisp
    · exact absurd hidle hholds.not_idle
  cases hs
  by_cases hfits : cmd.bytes.length ≤ controlBufLen
  · have hpath := s.path.step_controlStage req hfits
    refine ⟨h.path.step (a := .controlOut req cmd.bytes) hpath, .inr ?_⟩
    obtain ⟨path', hpath', hholds, hsame⟩ := step_controlOut hidle hreq cmd.bytes
    rw [hpath, Option.some.injEq] at hpath'
    rw [← hpath'] at hholds hsame
    refine ⟨_, _, hholds, hfits, ?_⟩
    rw [hsame, hdisp, fitting_concat, if_pos hfits]
  · -- the data stage is rejected
    rw [s.path.controlStage_rejected req hfits]
    refine ⟨h.path, .inl ⟨hidle, ?_⟩⟩
    rw [hdisp, fitting_concat, if_neg hfits, List.append_nil]

/-- A command that fits `CONTROL_BUF` can be moved on, and the order is kept. -/
theorem Carried.move {maxMsg : ℕ} (hmax : 257 ≤ maxMsg) {s : Transport} (h : Carried maxMsg s)
    {c : List UInt8} {p : Place} (hholds : s.path.Holds c p) (hfits : c.length ≤ controlBufLen)
    (hdisp : s.path.dispatched ++ [c] = fitting s.issued) :
    ∃ path, s.path.step p.task.act = some path ∧ Moved c s.path path p ∧
      Carried maxMsg ⟨path, s.issued⟩ := by
  have hlen : c.length ≤ maxCmdLen := Nat.le_trans hfits (by decide)
  have hfit : 1 + c.length ≤ s.path.rxBuf.length := by
    rw [(conserved_of_reachable h.path).rxBuf]
    rw [controlBufLen] at hfits
    omega
  obtain ⟨path, hstep, hm⟩ := hholds.move hlen hfit
  refine ⟨path, hstep, hm, h.path.step (a := p.task.act) hstep, ?_⟩
  cases p with
  | channel => exact .inr ⟨c, .hand, hm.1, hfits, by rw [hm.2, hdisp]⟩
  | hand => exact .inr ⟨c, .ring, hm.1, hfits, by rw [hm.2, hdisp]⟩
  | ring => exact .inl ⟨hm.1, by rw [hm.2, hdisp]⟩

theorem Carried.task {maxMsg : ℕ} (hmax : 257 ≤ maxMsg) {s s' : Transport} {t : Task}
    (h : Carried maxMsg s) (hs : s.step (.task t) = some s') : Carried maxMsg s' := by
  obtain ⟨path, hpath, rfl⟩ := Option.map_eq_some_iff.mp hs
  rcases h.inOrder with ⟨hidle, -⟩ | ⟨c, p, hholds, hfits, hdisp⟩
  · obtain rfl := hidle.tasks hpath
    exact h
  · by_cases ht : t = p.task
    · subst ht
      obtain ⟨path', hstep, -, hnext⟩ := h.move hmax hholds hfits hdisp
      rw [hstep] at hpath
      cases hpath
      exact hnext
    · obtain rfl := hholds.others ht hpath
      exact h

/-- **In order.**  In every reachable state the commands that fit `CONTROL_BUF` were dispatched,
but for one that is on its way. -/
theorem carried_of_reachable {maxMsg : ℕ} (hmax : 257 ≤ maxMsg) {s : Transport}
    (h : (transport maxMsg).Reachable s) : Carried maxMsg s := by
  refine h.invariant (carried_init maxMsg) fun s a s' ih hs => ?_
  cases a with
  | issue req cmd => exact ih.issue hs
  | task t => exact ih.task hmax hs

/-- A step of a task. -/
def TransportAct.IsTask (a : TransportAct) : Prop := ∃ t, a = .task t

/-- The host has issued `cmds`, and nothing is on its way. -/
def Transport.Done (cmds : List HciCommand) (s : Transport) : Prop :=
  s.path.inTransit = 0 ∧ s.issued = cmds

/-- One step of the task that holds the command, and then as from where that leads. -/
theorem Carried.advance {maxMsg : ℕ} (hmax : 257 ≤ maxMsg) {s : Transport}
    (h : Carried maxMsg s) {c : List UInt8} {p : Place} (hholds : s.path.Holds c p)
    (hfits : c.length ≤ controlBufLen) (hdisp : s.path.dispatched ++ [c] = fitting s.issued)
    (hnext : ∀ path, Moved c s.path path p → Carried maxMsg ⟨path, s.issued⟩ →
      (transport maxMsg).Leads TransportAct.IsTask (Transport.Done s.issued) ⟨path, s.issued⟩) :
    (transport maxMsg).Leads TransportAct.IsTask (Transport.Done s.issued) s := by
  obtain ⟨path, hstep, hm, hcarried⟩ := h.move hmax hholds hfits hdisp
  exact .step ⟨p.task, rfl⟩ (Option.map_eq_some_iff.mpr ⟨path, hstep, rfl⟩)
    (hnext path hm hcarried)

/-- The tasks can dispatch what is on its way. -/
theorem Carried.leads {maxMsg : ℕ} (hmax : 257 ≤ maxMsg) {s : Transport} (h : Carried maxMsg s) :
    (transport maxMsg).Leads TransportAct.IsTask (Transport.Done s.issued) s := by
  rcases h.inOrder with ⟨hidle, -⟩ | ⟨c, p, hholds, hfits, hdisp⟩
  · exact .here ⟨CommandPath.inTransit_eq_zero_iff.mpr hidle, rfl⟩
  · -- one step for each place that the command has still before it
    have hring : ∀ {s : Transport}, Carried maxMsg s → s.path.Holds c .ring →
        s.path.dispatched ++ [c] = fitting s.issued →
        (transport maxMsg).Leads TransportAct.IsTask (Transport.Done s.issued) s := by
      intro s h hholds hdisp
      refine h.advance hmax hholds hfits hdisp fun path hm _ => .here ⟨?_, rfl⟩
      exact CommandPath.inTransit_eq_zero_iff.mpr hm.1
    have hhand : ∀ {s : Transport}, Carried maxMsg s → s.path.Holds c .hand →
        s.path.dispatched ++ [c] = fitting s.issued →
        (transport maxMsg).Leads TransportAct.IsTask (Transport.Done s.issued) s := by
      intro s h hholds hdisp
      refine h.advance hmax hholds hfits hdisp fun path hm h' => hring h' hm.1 ?_
      rw [hm.2, hdisp]
    cases p with
    | ring => exact hring h hholds hdisp
    | hand => exact hhand h hholds hdisp
    | channel =>
        refine h.advance hmax hholds hfits hdisp fun path hm h' => hhand h' hm.1 ?_
        rw [hm.2, hdisp]

/-- **Transport.**  From every reachable state the tasks can go on until nothing is on its way,
where the host can issue any command; and there every issued command was dispatched, in order and
byte for byte, if and only if each of them fits `CONTROL_BUF`. -/
theorem transport_exact (maxMsg : ℕ) (hmax : 257 ≤ maxMsg) (s : Transport)
    (h : (transport maxMsg).Reachable s) :
    (∃ as s', (∀ a ∈ as, TransportAct.IsTask a) ∧
      (transport maxMsg).runFrom s as = some s' ∧ s'.path.inTransit = 0 ∧
        s'.issued = s.issued) ∧
    (s.path.inTransit = 0 → ∀ (req : Request) (cmd : HciCommand), req.IsHciCommand →
      ∃ s', s.step (.issue req cmd) = some s') ∧
    (s.path.inTransit = 0 → (s.path.dispatched = s.issued.map HciCommand.bytes ↔
      ∀ cmd ∈ s.issued, cmd.bytes.length ≤ controlBufLen)) := by
  have hc := carried_of_reachable hmax h
  refine ⟨(hc.leads hmax).exists_run, ?_, ?_⟩
  · intro hzero req cmd hreq
    exact ⟨_, if_pos ⟨hreq, hzero⟩⟩
  · intro hzero
    have hidle := CommandPath.inTransit_eq_zero_iff.mp hzero
    rcases hc.inOrder with ⟨-, hdisp⟩ | ⟨c, p, hholds, -⟩
    · rw [hdisp, fitting_eq_iff]
    · exact absurd hidle hholds.not_idle

/-! ### Runs -/

/-- HCI Reset. -/
def resetCommand : HciCommand := ⟨0x0C03, [], by decide⟩

/-- LE Set Extended Advertising Data, with 122 bytes of data. -/
def extAdvDataCommand : HciCommand :=
  ⟨0x2037, [0x00, 0x03, 0x01, 122] ++ List.replicate 122 0xFF, by simp⟩

/-- A command, and the tasks until it is dispatched. -/
theorem transport_exact_reset :
    ∃ s, (transport 258).run [.issue classReq resetCommand, .task .cmdReceive, .task .cmdSend,
        .task .netRead] = some s ∧ s.issued = [resetCommand] ∧
      s.path.dispatched = s.issued.map HciCommand.bytes := by
  obtain ⟨s, hs, hissued, hzero⟩ := (transport 258).exists_of_run
    [.issue classReq resetCommand, .task .cmdReceive, .task .cmdSend, .task .netRead]
    (fun s => s.issued = [resetCommand] ∧ s.path.inTransit = 0) (by decide +kernel)
  refine ⟨s, hs, hissued, ((transport_exact 258 (by decide) s ⟨_, hs⟩).2.2 hzero).mpr ?_⟩
  rw [hissued]
  decide

/-- **A longer command is lost.**  One of 129 bytes is issued and nothing is dispatched. -/
theorem longCommand_lost :
    ¬ (∀ s, (transport 258).Reachable s → s.path.inTransit = 0 →
      s.path.dispatched = s.issued.map HciCommand.bytes) ∧
    ∃ s, (transport 258).run [.issue classReq extAdvDataCommand] = some s ∧
      s.issued = [extAdvDataCommand] ∧ extAdvDataCommand.bytes.length = 129 ∧
      s.path.inTransit = 0 ∧ s.path.dispatched = [] := by
  obtain ⟨s, hs, hissued, hlen, hzero, hdisp⟩ := (transport 258).exists_of_run
    [.issue classReq extAdvDataCommand]
    (fun s => s.issued = [extAdvDataCommand] ∧ extAdvDataCommand.bytes.length = 129 ∧
      s.path.inTransit = 0 ∧ s.path.dispatched = []) (by decide +kernel)
  refine ⟨?_, s, hs, hissued, hlen, hzero, hdisp⟩
  intro h
  have heq := h s ⟨_, hs⟩ hzero
  rw [hdisp, hissued] at heq
  cases heq

end NrfHciUsb
