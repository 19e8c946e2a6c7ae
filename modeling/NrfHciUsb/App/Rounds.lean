import NrfHciUsb.App.Tasks

/-!
# App — Rounds

What the tasks of the app core do, round after round.

* `appTasks_exact`: on the core no index or slice of a task is ever out of bounds, and the rounds of
  a task are those that the rest of the development takes it to make, whatever the memory of the
  rings answers.
-/

namespace NrfHciUsb
open Support AppM

variable {EndpointError σ α β : Type}

/-! ### Histories of programs that can panic -/

theorem AppM.yields_pure_iff {a : α} {h : Prog.History (AppOp.Res EndpointError)}
    {r : Except Panic α} :
    Prog.Yields (pure a : AppM EndpointError α).run h r ↔ h = [] ∧ r = .ok a :=
  Prog.yields_ret_iff

theorem AppM.yields_lift_bind_iff {p : AppProg EndpointError α} {f : α → AppM EndpointError β}
    {h : Prog.History (AppOp.Res EndpointError)} {r : Except Panic β} :
    Prog.Yields (ExceptT.lift p >>= f).run h r ↔
      ∃ h₁ a h₂, h = h₁ ++ h₂ ∧ Prog.Yields p h₁ a ∧ Prog.Yields (f a).run h₂ r := by
  show Prog.Yields ((Except.ok <$> p : AppProg EndpointError (Except Panic α)) >>=
    ExceptT.bindCont f) h r ↔ _
  rw [Prog.yields_bind_iff]
  constructor
  · rintro ⟨h₁, x, h₂, rfl, hx, hf⟩
    obtain ⟨a, hp, rfl⟩ := Prog.yields_map_iff.mp hx
    exact ⟨h₁, a, h₂, rfl, hp, hf⟩
  · rintro ⟨h₁, a, h₂, rfl, hp, hf⟩
    exact ⟨h₁, .ok a, h₂, rfl, Prog.yields_map_iff.mpr ⟨a, hp, rfl⟩, hf⟩

theorem AppM.yields_perform_bind_iff {o : AppOp}
    {f : o.Res EndpointError → AppM EndpointError β}
    {h : Prog.History (AppOp.Res EndpointError)} {r : Except Panic β} :
    Prog.Yields (perform o >>= f).run h r ↔
      ∃ x h', h = ⟨o, x⟩ :: h' ∧ Prog.Yields (f x).run h' r :=
  Prog.yields_vis_iff

/-- A frame given to `ipc_send_to_net`, and the trigger if there was room for it. -/
def sent (packet : List UInt8) (ok : Bool) : Prog.History (AppOp.Res EndpointError) :=
  ⟨.ipcSendToNet packet, ok⟩ :: if ok then [⟨.trigger, ()⟩] else []

theorem yields_ipcSendToNet_bind_iff {packet : List UInt8} {f : Bool → AppM EndpointError β}
    {h : Prog.History (AppOp.Res EndpointError)} {r : Except Panic β} :
    Prog.Yields (ipcSendToNet packet >>= f).run h r ↔
      ∃ ok h', h = sent packet ok ++ h' ∧ Prog.Yields (f ok).run h' r := by
  rw [ipcSendToNet, bind_assoc, yields_perform_bind_iff]
  constructor
  · rintro ⟨ok, h₁, rfl, h1⟩
    cases ok with
    | false => exact ⟨false, h₁, rfl, h1⟩
    | true =>
        obtain ⟨_, h₂, rfl, h2⟩ := Prog.yields_vis_iff.mp h1
        exact ⟨true, h₂, rfl, h2⟩
  · rintro ⟨ok, h', rfl, h1⟩
    cases ok with
    | false => exact ⟨false, h', rfl, h1⟩
    | true => exact ⟨true, _, rfl, Prog.yields_vis_iff.mpr ⟨(), h', rfl, h1⟩⟩

/-! ### Rounds -/

/-- `k` rounds. -/
def InRounds {τ : Type} (round : τ → Prog.History (AppOp.Res EndpointError)) (k : ℕ)
    (h : Prog.History (AppOp.Res EndpointError)) : Prop :=
  ∃ ts : List τ, ts.length = k ∧ h = ts.flatMap round

theorem inRounds_zero {τ : Type} (round : τ → Prog.History (AppOp.Res EndpointError)) :
    InRounds round 0 [] := ⟨[], rfl, rfl⟩

theorem InRounds.cons {τ : Type} {round : τ → Prog.History (AppOp.Res EndpointError)} {k : ℕ}
    {h : Prog.History (AppOp.Res EndpointError)} (t : τ) (hk : InRounds round k h) :
    InRounds round (k + 1) (round t ++ h) := by
  obtain ⟨ts, rfl, rfl⟩ := hk
  exact ⟨t :: ts, rfl, rfl⟩

/-- A round of `cmd_task`: a command is received, and there is room for it or not. -/
def cmdRound (t : HciCmdBuf × Bool) : Prog.History (AppOp.Res EndpointError) :=
  ⟨.cmdReceive, t.1⟩ :: sent (cmdPkt t.1) t.2

/-- A round of `usb_read_task`: a read, and there is room for what was read or not. -/
def usbReadRound (t : Filled maxAclLen × Bool) : Prog.History (AppOp.Res EndpointError) :=
  ⟨.read, t.1⟩ :: match t.1.n with
    | some n => sent (aclPkt (t.1.data n)) t.2
    | none => [⟨.waitEnabled .aclOut, ()⟩]

/-- The rounds of `ipc_recv_task`, the first of them with `buf`. -/
def ipcRecvRounds : Vector UInt8 (1 + maxHciPayload) → List (Filled (1 + maxHciPayload)) →
    Prog.History (AppOp.Res EndpointError)
  | _, [] => []
  | buf, r :: rs =>
      ⟨.ipcRecvFromNet buf, r⟩ :: (match r.n with
        | some n => if n > 0 then [⟨.hostSend (.ofBuf r.buf.toList n), ()⟩] else []
        | none => [⟨.eventWait, ()⟩]) ++ ipcRecvRounds r.buf rs

/-- A packet that was written. -/
def wrote (ep : Endpoint) (packet : List UInt8) : (o : AppOp) × o.Res EndpointError :=
  ⟨.write ep packet, .ok ()⟩

/-- A round of `usb_write_task`: its packet is of no endpoint, or all of it is written, or one of
its USB packets fails. -/
inductive WriteRound (EndpointError : Type) where
  | unknown (pkt : HciPacket) (hep : Endpoint.ofIndicator pkt.indicator = none)
  | written (pkt : HciPacket) (ep : Endpoint) (hep : Endpoint.ofIndicator pkt.indicator = some ep)
  | failed (pkt : HciPacket) (ep : Endpoint) (hep : Endpoint.ofIndicator pkt.indicator = some ep)
      (done : List (List UInt8)) (packet : List UInt8) (rest : List (List UInt8))
      (hsplit : usbPackets pkt.bytes = done ++ packet :: rest) (e : EndpointError)

/-- The packet of the round. -/
def WriteRound.pkt : WriteRound EndpointError → HciPacket
  | .unknown pkt _ | .written pkt _ _ | .failed pkt _ _ _ _ _ _ _ => pkt

/-- `usb_write_task` at the top of its loop. -/
def connected : Prog.History (AppOp.Res EndpointError) :=
  [⟨.waitEnabled .event, ()⟩, ⟨.signal .blue, ()⟩]

def WriteRound.writes : WriteRound EndpointError → Prog.History (AppOp.Res EndpointError)
  | .unknown _ _ => []
  | .written pkt ep _ => (usbPackets pkt.bytes).map (wrote ep)
  | .failed _ ep _ done packet _ _ e =>
      done.map (wrote ep) ++ ⟨.write ep packet, .error e⟩ :: ⟨.signal .yellow, ()⟩ :: connected

def WriteRound.history (t : WriteRound EndpointError) : Prog.History (AppOp.Res EndpointError) :=
  ⟨.hostReceive, t.pkt⟩ :: t.writes

/-! ### Each task makes its rounds -/

theorem yields_handleControlOut {req : Request} {data : List UInt8}
    {h : Prog.History (AppOp.Res EndpointError)} {r : Except Panic (Option OutResponse)}
    (hy : Prog.Yields (handleControlOut req data : AppM EndpointError _).run h r) :
    if req.IsHciCommand then
      r = .ok (some .accepted) ∧ ∃ ok, h = [⟨.cmdTrySend (.ofData data), ok⟩]
    else r = .ok none ∧ h = [] := by
  rw [handleControlOut_eq] at hy
  split at hy
  · rename_i hcmd
    obtain ⟨ok, h₁, rfl, h1⟩ := yields_perform_bind_iff.mp hy
    obtain ⟨rfl, rfl⟩ := yields_pure_iff.mp h1
    rw [if_pos hcmd]
    exact ⟨rfl, ok, rfl⟩
  · rename_i hcmd
    obtain ⟨rfl, rfl⟩ := yields_pure_iff.mp hy
    rw [if_neg hcmd]
    exact ⟨rfl, rfl⟩

theorem yields_cmdTask {k : ℕ} {h : Prog.History (AppOp.Res EndpointError)} {r : Except Panic Unit}
    (hy : Prog.Yields (cmdTask k : AppM EndpointError Unit).run h r) :
    r = .ok () ∧ InRounds cmdRound k h := by
  induction k generalizing h with
  | zero =>
      obtain ⟨rfl, rfl⟩ := yields_pure_iff.mp hy
      exact ⟨rfl, inRounds_zero _⟩
  | succ k ih =>
      rw [cmdTask_succ] at hy
      obtain ⟨cmd, h₁, rfl, h1⟩ := yields_perform_bind_iff.mp hy
      obtain ⟨ok, h₂, rfl, h2⟩ := yields_ipcSendToNet_bind_iff.mp h1
      obtain ⟨hr, hrounds⟩ := ih h2
      exact ⟨hr, hrounds.cons (cmd, ok)⟩

theorem yields_usbReadLoop {k : ℕ} {h : Prog.History (AppOp.Res EndpointError)}
    {r : Except Panic Unit}
    (hy : Prog.Yields (usbReadLoop k : AppM EndpointError Unit).run h r) :
    r = .ok () ∧ InRounds usbReadRound k h := by
  induction k generalizing h with
  | zero =>
      obtain ⟨rfl, rfl⟩ := yields_pure_iff.mp hy
      exact ⟨rfl, inRounds_zero _⟩
  | succ k ih =>
      rw [usbReadLoop_succ] at hy
      obtain ⟨x, h₁, rfl, h1⟩ := yields_perform_bind_iff.mp hy
      cases hn : x.n with
      | some n =>
          rw [hn] at h1
          obtain ⟨ok, h₂, rfl, h2⟩ := yields_ipcSendToNet_bind_iff.mp h1
          obtain ⟨hr, hrounds⟩ := ih h2
          have hround := hrounds.cons (x, ok)
          rw [usbReadRound, hn] at hround
          exact ⟨hr, hround⟩
      | none =>
          rw [hn] at h1
          obtain ⟨_, h₂, rfl, h2⟩ := yields_perform_bind_iff.mp h1
          obtain ⟨hr, hrounds⟩ := ih h2
          have hround := hrounds.cons (x, false)
          rw [usbReadRound, hn] at hround
          exact ⟨hr, hround⟩

theorem yields_ipcRecvLoop {buf : Vector UInt8 (1 + maxHciPayload)} {k : ℕ}
    {h : Prog.History (AppOp.Res EndpointError)} {r : Except Panic Unit}
    (hy : Prog.Yields (ipcRecvLoop buf k : AppM EndpointError Unit).run h r) :
    r = .ok () ∧ ∃ rs, rs.length = k ∧ h = ipcRecvRounds buf rs := by
  induction k generalizing buf h with
  | zero =>
      obtain ⟨rfl, rfl⟩ := yields_pure_iff.mp hy
      exact ⟨rfl, [], rfl, rfl⟩
  | succ k ih =>
      rw [ipcRecvLoop_succ] at hy
      obtain ⟨x, h₁, rfl, h1⟩ := yields_perform_bind_iff.mp hy
      cases hn : x.n with
      | none =>
          rw [hn] at h1
          obtain ⟨_, h₂, rfl, h2⟩ := yields_perform_bind_iff.mp h1
          obtain ⟨hr, rs, hlen, rfl⟩ := ih h2
          refine ⟨hr, x :: rs, by rw [List.length_cons, hlen], ?_⟩
          rw [ipcRecvRounds, hn]
          rfl
      | some n =>
          rw [hn] at h1
          simp only at h1
          split at h1
          · rename_i hpos
            obtain ⟨_, h₂, rfl, h2⟩ := yields_perform_bind_iff.mp h1
            obtain ⟨hr, rs, hlen, rfl⟩ := ih h2
            refine ⟨hr, x :: rs, by rw [List.length_cons, hlen], ?_⟩
            rw [ipcRecvRounds, hn]
            simp only [if_pos hpos]
            rfl
          · rename_i hpos
            obtain ⟨hr, rs, hlen, rfl⟩ := ih h1
            refine ⟨hr, x :: rs, by rw [List.length_cons, hlen], ?_⟩
            rw [ipcRecvRounds, hn]
            simp only [if_neg hpos]
            rfl

/-- The packets are written in order: all of them, or up to the first whose write fails. -/
theorem yields_forM_epWrite {packets : List (List UInt8)}
    {h : Prog.History fun _ : List UInt8 => Except EndpointError Unit}
    {r : Except EndpointError Unit}
    (hy : Prog.Yields (forM packets epWrite : EpM EndpointError Unit).run h r) :
    (r = .ok () ∧ h = packets.map fun p => ⟨p, .ok ()⟩) ∨
    ∃ done p rest e, packets = done ++ p :: rest ∧ r = .error e ∧
      h = (done.map fun p => ⟨p, .ok ()⟩) ++ [⟨p, .error e⟩] := by
  induction packets generalizing h with
  | nil =>
      obtain ⟨rfl, rfl⟩ := Prog.yields_ret_iff.mp hy
      exact .inl ⟨rfl, rfl⟩
  | cons p packets ih =>
      rw [List.forM_cons] at hy
      obtain ⟨x, h₁, rfl, h1⟩ := Prog.yields_vis_iff.mp hy
      cases x with
      | error e =>
          obtain ⟨rfl, rfl⟩ := Prog.yields_ret_iff.mp h1
          exact .inr ⟨[], p, packets, e, rfl, rfl, rfl⟩
      | ok u =>
          rcases ih h1 with ⟨rfl, rfl⟩ | ⟨done, p', rest, e, rfl, rfl, rfl⟩
          · exact .inl ⟨rfl, rfl⟩
          · exact .inr ⟨p :: done, p', rest, e, rfl, rfl, rfl⟩

theorem yields_writeEpTo {ep : Endpoint} {data : List UInt8}
    {h : Prog.History (AppOp.Res EndpointError)} {r : Except EndpointError Unit}
    (hy : Prog.Yields (writeEpTo ep data) h r) :
    (r = .ok () ∧ h = (usbPackets data).map (wrote ep)) ∨
    ∃ done p rest e, usbPackets data = done ++ p :: rest ∧ r = .error e ∧
      h = done.map (wrote ep) ++ [⟨.write ep p, .error e⟩] := by
  obtain ⟨h', hp, hexp⟩ := Prog.yields_subst _ hy
  have hmap := Prog.expands_access hexp
  rw [writeEp_eq] at hp
  rcases yields_forM_epWrite hp with ⟨rfl, rfl⟩ | ⟨done, p, rest, e, hsplit, rfl, rfl⟩
  · refine .inl ⟨rfl, ?_⟩
    rw [hmap, List.map_map]
    rfl
  · refine .inr ⟨done, p, rest, e, hsplit, rfl, ?_⟩
    rw [hmap, List.map_append, List.map_map]
    rfl

theorem yields_usbConnect_bind {f : Unit → AppM EndpointError β}
    {h : Prog.History (AppOp.Res EndpointError)} {r : Except Panic β}
    (hy : Prog.Yields (usbConnect >>= f).run h r) :
    ∃ h', h = connected ++ h' ∧ Prog.Yields (f ()).run h' r := by
  rw [usbConnect, bind_assoc] at hy
  obtain ⟨_, h₁, rfl, h1⟩ := yields_perform_bind_iff.mp hy
  obtain ⟨_, h₂, rfl, h2⟩ := yields_perform_bind_iff.mp h1
  exact ⟨h₂, rfl, h2⟩

theorem yields_usbWriteLoop {k : ℕ} {h : Prog.History (AppOp.Res EndpointError)}
    {r : Except Panic Unit}
    (hy : Prog.Yields (usbWriteLoop k : AppM EndpointError Unit).run h r) :
    r = .ok () ∧ InRounds WriteRound.history k h := by
  induction k generalizing h with
  | zero =>
      obtain ⟨rfl, rfl⟩ := yields_pure_iff.mp hy
      exact ⟨rfl, inRounds_zero _⟩
  | succ k ih =>
      rw [usbWriteLoop] at hy
      obtain ⟨pkt, h₁, rfl, h1⟩ := yields_perform_bind_iff.mp hy
      cases hep : Endpoint.ofIndicator pkt.indicator with
      | none =>
          rw [hep] at h1
          obtain ⟨hr, hrounds⟩ := ih h1
          have hround := hrounds.cons (.unknown pkt hep)
          exact ⟨hr, hround⟩
      | some ep =>
          rw [hep] at h1
          simp only at h1
          rw [slice_of_le (Nat.zero_le _) (by rw [pkt.payload_length]; exact pkt.len_le),
            pure_bind, List.drop_zero] at h1
          obtain ⟨h₂, a, h₃, rfl, hw, h3⟩ := yields_lift_bind_iff.mp h1
          rcases yields_writeEpTo hw with ⟨rfl, rfl⟩ | ⟨done, p, rest, e, hsplit, rfl, rfl⟩
          · obtain ⟨hr, hrounds⟩ := ih h3
            have hround := hrounds.cons (.written pkt ep hep)
            exact ⟨hr, hround⟩
          · obtain ⟨_, h₄, rfl, h4⟩ := yields_perform_bind_iff.mp h3
            obtain ⟨h₅, rfl, h5⟩ := yields_usbConnect_bind h4
            obtain ⟨hr, hrounds⟩ := ih h5
            have hround := hrounds.cons (.failed pkt ep hep done p rest hsplit e)
            simp only [WriteRound.history, WriteRound.writes, List.cons_append,
              List.append_assoc] at hround
            simp only [List.append_assoc, List.cons_append, List.nil_append]
            exact ⟨hr, hround⟩

/-! ### On the core -/

/-- What a core does: the accesses to the memory of a ring, and all that is not an access. -/
inductive CoreOp where
  | mem (d : Dir) (o : RingOp)
  | io (o : AppOp)

@[reducible] def CoreOp.Res (EndpointError : Type) : CoreOp → Type
  | .mem _ o => o.Res
  | .io o => o.Res EndpointError

/-- A call on the ring of a direction. -/
def onRing (d : Dir) (p : RingProg α) : Prog (CoreOp.Res EndpointError) α :=
  p.subst fun o => Prog.access (CoreOp.mem d o)

/-- The buffer that `rb_read` leaves. -/
def Filled.ofRead {cap : ℕ} {out : Vector UInt8 cap} (res : {res : Option ℕ × List UInt8 //
      res.2.length = out.toList.length ∧
        ∀ k, res.1 = some k → k ≤ out.toList.length ∧ res.2.drop k = out.toList.drop k}) :
    Filled cap where
  n := res.val.1
  buf := ⟨res.val.2.toArray, by simpa using res.property.1⟩
  n_le k hk := by simpa using (res.property.2 k hk).1

/-- The operations of the tasks on the core. -/
def appCore : (o : AppOp) → Prog (CoreOp.Res EndpointError) (o.Res EndpointError)
  | .ipcSendToNet packet => onRing .a2n (rbWrite bufSize packet)
  | .ipcRecvFromNet out =>
      onRing .n2a (Filled.ofRead <$> (rbRead bufSize out.toList).attach (rbRead_ensures _))
  | .cmdTrySend cmd => Prog.access (CoreOp.io (.cmdTrySend cmd))
  | .cmdReceive => Prog.access (CoreOp.io .cmdReceive)
  | .hostReceive => Prog.access (CoreOp.io .hostReceive)
  | .hostSend pkt => Prog.access (CoreOp.io (.hostSend pkt))
  | .waitEnabled ep => Prog.access (CoreOp.io (.waitEnabled ep))
  | .read => Prog.access (CoreOp.io .read)
  | .write ep packet => Prog.access (CoreOp.io (.write ep packet))
  | .trigger => Prog.access (CoreOp.io .trigger)
  | .eventWait => Prog.access (CoreOp.io .eventWait)
  | .signal color => Prog.access (CoreOp.io (.signal color))

/-- On a core whose operations `env` answers, the program does not panic but returns a value that,
with a history it is made up of, satisfies `P`. -/
def DoesOnCore (env : (o : CoreOp) → σ → o.Res EndpointError × σ) (x : AppM EndpointError α)
    (P : Prog.History (AppOp.Res EndpointError) → α → Prop) (s : σ) : Prop :=
  ∃ a h, (Prog.run env (x.run.subst appCore) s).1 = .ok a ∧ P h a ∧
    Prog.Expands appCore h (Prog.history env (x.run.subst appCore) s)

theorem doesOnCore {x : AppM EndpointError α}
    {P : Prog.History (AppOp.Res EndpointError) → α → Prop}
    (hx : ∀ h r, Prog.Yields x.run h r → ∃ a, r = .ok a ∧ P h a)
    (env : (o : CoreOp) → σ → o.Res EndpointError × σ) (s : σ) : DoesOnCore env x P s := by
  obtain ⟨h, hy, hexp⟩ := Prog.yields_subst _ (Prog.yields_history env (x.run.subst appCore) s)
  obtain ⟨a, hok, hP⟩ := hx h _ hy
  exact ⟨a, h, hok, hP, hexp⟩

/-- **The app core.**  Whatever is received, read or found in the memory of the rings, which may
change at any time, neither `control_out` nor a task panics.  `control_out` accepts HCI commands and
passes each on, cut to the longest there are; the rounds of `cmd_task` send the frame of each
command, those of `usb_read_task` the frame of each packet, those of `ipc_recv_task` pass on what a
read of the ring leaves at the front of the buffer, and those of `usb_write_task` write a packet to
its endpoint, up to the first USB packet that fails, and then wait for the endpoint again. -/
theorem appTasks_exact (env : (o : CoreOp) → σ → o.Res EndpointError × σ) (s : σ) :
    (∀ req data, DoesOnCore env (handleControlOut req data) (fun h response =>
      if req.IsHciCommand then
        response = some .accepted ∧ ∃ ok, h = [⟨.cmdTrySend (.ofData data), ok⟩]
      else response = none ∧ h = []) s) ∧
    (∀ k, DoesOnCore env (cmdTask k) (fun h _ => InRounds cmdRound k h) s) ∧
    (∀ k, DoesOnCore env (usbReadTask k)
      (fun h _ => ∃ h', h = ⟨.waitEnabled .aclOut, ()⟩ :: h' ∧ InRounds usbReadRound k h') s) ∧
    (∀ k, DoesOnCore env (ipcRecvTask k)
      (fun h _ => ∃ rs, rs.length = k ∧
        h = ⟨.eventWait, ()⟩ :: ipcRecvRounds (Vector.replicate _ 0) rs) s) ∧
    ∀ k, DoesOnCore env (usbWriteTask k)
      (fun h _ => ∃ h', h = connected ++ h' ∧ InRounds WriteRound.history k h') s := by
  refine ⟨fun req data => doesOnCore ?_ env s, fun k => doesOnCore ?_ env s,
    fun k => doesOnCore ?_ env s, fun k => doesOnCore ?_ env s, fun k => doesOnCore ?_ env s⟩
  · intro h r hy
    have hdone := yields_handleControlOut hy
    split at hdone
    · rename_i hcmd
      obtain ⟨rfl, hok⟩ := hdone
      exact ⟨_, rfl, by rw [if_pos hcmd]; exact ⟨rfl, hok⟩⟩
    · rename_i hcmd
      obtain ⟨rfl, hnil⟩ := hdone
      exact ⟨_, rfl, by rw [if_neg hcmd]; exact ⟨rfl, hnil⟩⟩
  · intro h r hy
    exact ⟨(), yields_cmdTask hy⟩
  · intro h r hy
    obtain ⟨_, h', rfl, hk⟩ := yields_perform_bind_iff.mp hy
    obtain ⟨hr, hrounds⟩ := yields_usbReadLoop hk
    exact ⟨(), hr, h', rfl, hrounds⟩
  · intro h r hy
    obtain ⟨_, h', rfl, hk⟩ := yields_perform_bind_iff.mp hy
    obtain ⟨hr, rs, hlen, rfl⟩ := yields_ipcRecvLoop hk
    exact ⟨(), hr, rs, hlen, rfl⟩
  · intro h r hy
    obtain ⟨h', rfl, hk⟩ := yields_usbConnect_bind hy
    obtain ⟨hr, hrounds⟩ := yields_usbWriteLoop hk
    exact ⟨(), hr, h', rfl, hrounds⟩

end NrfHciUsb
