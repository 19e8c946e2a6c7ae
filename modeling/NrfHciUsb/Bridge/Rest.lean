import NrfHciUsb.Bridge.Settle
import NrfHciUsb.Bridge.Shared
import NrfHciUsb.Ipc.Work

/-!
# Bridge — Rest

Both cores come to rest, counted in single accesses.  Once nothing more comes in, so many accesses,
triggers, waits and steps of tasks are left, in whatever order they are made; and where none is
possible, everything has got as far as the host lets it.

* `Calling`: a call under way is for a packet that a task still has.
* `stepDown_work`, `stepUp_work`, `Tasks.work_lt`: what a step leaves to do.
* `Tasks.settled_of_atRest`: no task waits for another that waits for it.
-/

namespace NrfHciUsb
open Support

variable {abi : SdcAbi} {σ : Type} {env : NetEnv abi σ} {s s' : Tasks σ}

/-! ### The calls under way -/

structure Calling (rings : Wakeup × Wakeup) (s : Tasks σ) : Prop where
  down : ∀ f, rings.1.link.producer.input = some f → s.Offers f
  up : ∀ f, rings.2.link.producer.input = some f → s.notify.head? = some f

/-! ### What is left to do -/

/-- A packet that goes up costs a call, and what follows it on the app core. -/
def upCost : ℕ := callCost (recvBuf.length + 5) 5 (1 + maxHciPayload)

/-- One that goes down may yet be answered. -/
def downCost (abi : SdcAbi) : ℕ :=
  callCost ((rxBufOf abi).length + 5) upCost (1 + controlBufLen)

/-- With `c` calls under way at the A→N ring, and `c'` at the N→A ring. -/
def Tasks.work (abi : SdcAbi) (s : Tasks σ) (c c' : ℕ) : ℕ :=
  s.cmds.items.length * (1 + downCost abi) +
    (s.acl.toList.length + s.cmd.toList.length - c) * downCost abi +
    (s.notify.length - c') * upCost + 5 * s.pkt.toList.length + 4 * s.toHost.items.length +
    s.writer.work

theorem callCost_mono {K g len len' : ℕ} (h : len ≤ len') :
    callCost K g len ≤ callCost K g len' := by
  rw [callCost, callCost]
  omega

/-- One of `p` packets more is on its way. -/
theorem sub_succ_mul {p c : ℕ} (h : c < p) (cost : ℕ) :
    (p - (c + 1)) * cost + cost = (p - c) * cost := by
  rw [← Nat.succ_mul]
  congr 1
  omega

theorem Tasks.work_sent {f : List UInt8} {ok : Bool}
    (hs : s.seeDown env (.sent f ok) = some s') (c c' : ℕ) :
    s'.work abi c c' = s.work abi (c + 1) c' := by
  rcases Tasks.seeDown_sent hs with ⟨data, hdata, -, rfl⟩ | ⟨cmd, hcmd, -, rfl⟩
  · have hone : 0 + s.cmd.toList.length - c = 1 + s.cmd.toList.length - (c + 1) := by omega
    simp only [Tasks.work, hdata, Option.toList_none, Option.toList_some, List.length_nil,
      List.length_singleton, hone]
  · have hone : s.acl.toList.length + 0 - c = s.acl.toList.length + 1 - (c + 1) := by omega
    simp only [Tasks.work, hcmd, Option.toList_none, Option.toList_some, List.length_nil,
      List.length_singleton, hone]

theorem Tasks.notify_sent {f : List UInt8} {ok : Bool}
    (hs : s.seeDown env (.sent f ok) = some s') : s'.notify = s.notify := by
  rcases Tasks.seeDown_sent hs with ⟨data, -, -, rfl⟩ | ⟨cmd, -, -, rfl⟩ <;> rfl

/-- A call for a packet that a task has. -/
theorem Tasks.work_calls (abi : SdcAbi) (hinv : TasksInv s) {f : List UInt8} (hf : s.Offers f)
    (c' : ℕ) : s.work abi 1 c' + callCost ((rxBufOf abi).length + 5) upCost f.length ≤ s.work abi 0 c' := by
  have hcost : callCost ((rxBufOf abi).length + 5) upCost f.length ≤ downCost abi :=
    callCost_mono (hinv.offers_length hf)
  have hpending : 0 < s.acl.toList.length + s.cmd.toList.length := by
    rcases hf with hf | hf
    · obtain ⟨data, hdata, -⟩ := Option.map_eq_some_iff.mp hf
      rw [hdata, Option.toList_some, List.length_singleton]
      omega
    · obtain ⟨cmd, hcmd, -⟩ := Option.map_eq_some_iff.mp hf
      rw [hcmd, Option.toList_some, List.length_singleton]
      omega
  have hmul := sub_succ_mul hpending (downCost abi)
  rw [Nat.zero_add] at hmul
  simp only [Tasks.work]
  omega

/-- A frame that is taken may be answered. -/
theorem Tasks.work_took {f : List UInt8} (hs : s.seeDown env (.took f) = some s')
    (c c' : ℕ) : s.notify = [] ∧ s'.acl = s.acl ∧ s'.cmd = s.cmd ∧
      s'.work abi c c' ≤ s.work abi c c' + upCost := by
  obtain ⟨⟨hnil, -⟩, rfl⟩ := Tasks.seeDown_took hs
  refine ⟨hnil, rfl, rfl, ?_⟩
  have hans := (rxFrame_outcome env f [] s.sdc).2.1
  rw [List.append_nil] at hans
  have hone := Nat.mul_le_mul_right upCost ((Nat.sub_le _ c').trans hans.length_le)
  simp only [Tasks.work, hnil]
  omega

variable {rings : Wakeup × Wakeup} {r : Wakeup} {a : WakeAct} {sdc : σ}

/-- **The A→N ring.**  What is paid for a call was left to do, and what a frame earns is all that
comes of it. -/
theorem stepDown_work (hinv : TasksInv s) (hcall : Calling rings s)
    (hs : rings.1.step bufSize a = some r)
    (hk : (tasks env sdc).seeAll s ((rings.1.shows bufSize a).map .inl) = some s') (c' : ℕ) :
    Calling (r, rings.2) s' ∧ s'.work abi r.link.producer.input.toList.length c' +
        ((rings.1.shows bufSize a).map (BellEvent.pays ((rxBufOf abi).length + 5) upCost)).sum ≤
      s.work abi rings.1.link.producer.input.toList.length c' +
        ((rings.1.shows bufSize a).map (BellEvent.earns upCost)).sum := by
  rcases Wakeup.shows_cases hs with ⟨hinput, hshows | hshows | ⟨f, hshows⟩⟩ |
    ⟨packet, hnone, ⟨hinput, hshows⟩ | ⟨ok, hinput, hshows⟩⟩ | ⟨packet, ok, hsome, hinput, hshows⟩
  · rw [hshows] at hk ⊢
    cases hk
    exact ⟨⟨by rw [hinput]; exact hcall.down, hcall.up⟩, by rw [hinput]; exact le_rfl⟩
  · rw [hshows, List.map_singleton, tasks_seeDown] at hk
    obtain rfl := Tasks.seeDown_done hk
    rw [hshows, hinput]
    exact ⟨⟨by rw [hinput]; exact hcall.down, hcall.up⟩, le_rfl⟩
  · rw [hshows, List.map_singleton, tasks_seeDown] at hk
    obtain ⟨hnil, hacl, hcmd, hle⟩ :=
      Tasks.work_took hk rings.1.link.producer.input.toList.length c'
    rw [hshows, hinput]
    refine ⟨⟨fun f hf => ?_, fun f hf => ?_⟩, by simpa [BellEvent.pays, BellEvent.earns] using hle⟩
    · rw [Tasks.Offers, hacl, hcmd]
      exact hcall.down f (hinput ▸ hf)
    · have hhead := hcall.up f hf
      rw [hnil] at hhead
      cases hhead
  · -- a call begins
    rw [hshows, List.map_singleton, tasks_seeDown] at hk
    obtain ⟨hoffers, rfl⟩ := Tasks.seeDown_calls hk
    rw [hshows, hinput, hnone]
    refine ⟨⟨fun f hf => ?_, hcall.up⟩, ?_⟩
    · rw [hinput] at hf
      cases hf
      exact hoffers
    · simpa [BellEvent.pays, BellEvent.earns] using Tasks.work_calls abi hinv hoffers c'
  · -- … and returns at once
    rw [hshows] at hk
    obtain ⟨s₁, hs₁, hk⟩ := Option.bind_eq_some_iff.mp hk
    obtain ⟨hoffers, rfl⟩ := @Tasks.seeDown_calls abi σ env _ _ _ hs₁
    rw [List.map_singleton, tasks_seeDown] at hk
    have hle := Tasks.work_calls abi hinv hoffers c'
    rw [← Tasks.work_sent hk 0 c'] at hle
    rw [hshows, hinput, hnone]
    refine ⟨⟨by simp [hinput], ?_⟩, by simpa [BellEvent.pays, BellEvent.earns] using hle⟩
    rw [Tasks.notify_sent hk]
    exact hcall.up
  · rw [hshows, List.map_singleton, tasks_seeDown] at hk
    rw [hshows, hinput, hsome]
    refine ⟨⟨by simp [hinput], ?_⟩, ?_⟩
    · rw [Tasks.notify_sent hk]
      exact hcall.up
    · simpa [BellEvent.pays, BellEvent.earns] using (Tasks.work_sent hk 0 c').le

theorem Tasks.work_notified (abi : SdcAbi) {f : List UInt8} {ok : Bool}
    (hs : s.seeUp (.sent f ok) = some s') (c c' : ℕ) :
    s'.work abi c c' = s.work abi c (c' + 1) := by
  obtain ⟨rest, hn, rfl⟩ := Tasks.seeUp_sent hs
  have hone : rest.length - c' = rest.length + 1 - (c' + 1) := by omega
  simp only [Tasks.work, hn, List.length_cons, hone]

theorem Tasks.offers_notified {f : List UInt8} {ok : Bool}
    (hs : s.seeUp (.sent f ok) = some s') : s'.Offers = s.Offers := by
  obtain ⟨rest, -, rfl⟩ := Tasks.seeUp_sent hs
  rfl

/-- A call for the next packet that there is for `notify_app`. -/
theorem Tasks.work_callsUp (abi : SdcAbi) (hinv : TasksInv s) {f : List UInt8}
    (hf : s.notify.head? = some f) (c : ℕ) :
    s.work abi c 1 + callCost (recvBuf.length + 5) 5 f.length ≤ s.work abi c 0 := by
  have hmem : f ∈ s.notify := List.mem_of_head? hf
  have hcost : callCost (recvBuf.length + 5) 5 f.length ≤ upCost :=
    callCost_mono (hinv.notify_length hmem)
  have hmul := sub_succ_mul (List.length_pos_of_mem hmem) upCost
  rw [Nat.zero_add] at hmul
  simp only [Tasks.work]
  omega

/-- What `ipc_recv_task` makes of a frame, and of its return to the ring. -/
theorem Tasks.work_recv (abi : SdcAbi) {e : BellEvent} (hs : s.seeUp e = some s')
    (he : e = .done ∨ ∃ f, e = .took f) (c c' : ℕ) : s'.Offers = s.Offers ∧
      s'.notify = s.notify ∧ s'.work abi c c' ≤ s.work abi c c' + e.earns 5 := by
  obtain rfl | ⟨f, rfl⟩ := he
  · obtain ⟨-, rfl⟩ | ⟨pkt, toHost, hpkt, hpush, rfl⟩ := Tasks.seeUp_done hs
    · exact ⟨rfl, rfl, Nat.le_add_right _ _⟩
    · refine ⟨rfl, rfl, ?_⟩
      simp only [Tasks.work, hpkt, (Fifo.push?_eq_some_iff.mp hpush).2, List.length_append,
        List.length_singleton, Option.toList_none, Option.toList_some, List.length_nil]
      omega
  · cases hs
    refine ⟨rfl, rfl, ?_⟩
    have hone : (HciPacket.ofRead f f.length).toList.length ≤ 1 := by
      rw [HciPacket.ofRead]
      split <;> simp
    simp only [Tasks.work, BellEvent.earns]
    omega

/-- **The N→A ring.** -/
theorem stepUp_work (hinv : TasksInv s) (hcall : Calling rings s)
    (hs : rings.2.step bufSize a = some r)
    (hk : (tasks env sdc).seeAll s ((rings.2.shows bufSize a).map .inr) = some s') (c : ℕ) :
    Calling (rings.1, r) s' ∧ s'.work abi c r.link.producer.input.toList.length +
        ((rings.2.shows bufSize a).map (BellEvent.pays (recvBuf.length + 5) 5)).sum ≤
      s.work abi c rings.2.link.producer.input.toList.length +
        ((rings.2.shows bufSize a).map (BellEvent.earns 5)).sum := by
  rcases Wakeup.shows_cases hs with ⟨hinput, hshows | hshows⟩ |
    ⟨packet, hnone, ⟨hinput, hshows⟩ | ⟨ok, hinput, hshows⟩⟩ | ⟨packet, ok, hsome, hinput, hshows⟩
  · rw [hshows] at hk ⊢
    cases hk
    exact ⟨⟨hcall.down, by rw [hinput]; exact hcall.up⟩, by rw [hinput]; exact le_rfl⟩
  · obtain ⟨e, hshows, he⟩ :
        ∃ e, rings.2.shows bufSize a = [e] ∧ (e = .done ∨ ∃ f, e = .took f) := by
      rcases hshows with hshows | ⟨f, hshows⟩
      · exact ⟨.done, hshows, .inl rfl⟩
      · exact ⟨.took f, hshows, .inr ⟨f, rfl⟩⟩
    rw [hshows, List.map_singleton, tasks_seeUp] at hk
    obtain ⟨hoffers, hnotify, hle⟩ := Tasks.work_recv abi hk he c
      rings.2.link.producer.input.toList.length
    have hpays : e.pays (recvBuf.length + 5) 5 = 0 := by
      obtain rfl | ⟨f, rfl⟩ := he <;> rfl
    rw [hshows, hinput]
    refine ⟨⟨?_, ?_⟩, by simpa [hpays] using hle⟩
    · rw [hoffers]
      exact hcall.down
    · rw [hinput, hnotify]
      exact hcall.up
  · rw [hshows, List.map_singleton, tasks_seeUp] at hk
    obtain ⟨hhead, rfl⟩ := Tasks.seeUp_calls hk
    rw [hshows, hinput, hnone]
    refine ⟨⟨hcall.down, fun f hf => ?_⟩, ?_⟩
    · rw [hinput] at hf
      cases hf
      exact hhead
    · simpa [BellEvent.pays, BellEvent.earns] using Tasks.work_callsUp abi hinv hhead c
  · rw [hshows] at hk
    obtain ⟨s₁, hs₁, hk⟩ := Option.bind_eq_some_iff.mp hk
    obtain ⟨hhead, rfl⟩ := Tasks.seeUp_calls hs₁
    rw [List.map_singleton, tasks_seeUp] at hk
    have hle := Tasks.work_callsUp abi hinv hhead c
    rw [← Tasks.work_notified abi hk c 0] at hle
    rw [hshows, hinput, hnone]
    refine ⟨⟨?_, by simp [hinput]⟩, by simpa [BellEvent.pays, BellEvent.earns] using hle⟩
    rw [Tasks.offers_notified hk]
    exact hcall.down
  · rw [hshows, List.map_singleton, tasks_seeUp] at hk
    rw [hshows, hinput, hsome]
    refine ⟨⟨?_, by simp [hinput]⟩, ?_⟩
    · rw [Tasks.offers_notified hk]
      exact hcall.down
    · simpa [BellEvent.pays, BellEvent.earns] using (Tasks.work_notified abi hk c 0).le

/-! ### Away from the rings -/

/-- A step of a task. -/
def TaskAct.IsTask : TaskAct abi σ → Prop
  | .controlOut _ _ | .aclOut _ | .hciGet _ _ | .enabled | .writeDone _ => False
  | .cmdReceive | .receive | .writeEp => True

/-- The host lets packets come in. -/
def TaskAct.IsHostIn : TaskAct abi σ → Prop
  | .enabled | .writeDone _ => True
  | .controlOut _ _ | .aclOut _ | .hciGet _ _ | .cmdReceive | .receive | .writeEp => False

theorem Tasks.work_lt {a : TaskAct abi σ} (ha : a.IsTask ∨ a.IsHostIn)
    (hs : s.step env a = some s') {c : ℕ} (hc : c ≤ s.acl.toList.length + s.cmd.toList.length)
    (c' : ℕ) : s'.work abi c c' < s.work abi c c' := by
  cases a with
  | controlOut _ _ | aclOut _ | hciGet _ _ => exact (ha.elim id id).elim
  | cmdReceive =>
      obtain ⟨cmd, cmds, hcmd, hpop, rfl⟩ := Tasks.cmdReceive_eq hs
      rw [hcmd, Option.toList_none, List.length_nil] at hc
      have hone : s.acl.toList.length + 1 - c = s.acl.toList.length + 0 - c + 1 := by omega
      simp only [Tasks.work, hcmd, Fifo.pop?_eq_some_iff.mp hpop, List.length_cons,
        Option.toList_none, Option.toList_some, List.length_nil, hone, Nat.add_mul]
      omega
  | enabled =>
      obtain ⟨writer, henabled, rfl⟩ := Option.map_eq_some_iff.mp hs
      obtain ⟨hw, rfl⟩ := WriterPc.enabled_eq_some_iff.mp henabled
      simp only [Tasks.work, hw, WriterPc.work]
      omega
  | receive =>
      obtain ⟨⟨writer, toHost⟩, hreceive, rfl⟩ := Option.map_eq_some_iff.mp hs
      obtain ⟨hw, pkt, hpop, rfl⟩ := WriterPc.receive_eq_some_iff.mp hreceive
      simp only [Tasks.work, hw, Fifo.pop?_eq_some_iff.mp hpop, List.length_cons, WriterPc.work]
      omega
  | writeEp =>
      obtain ⟨⟨writer, given⟩, hgiven, rfl⟩ := Option.map_eq_some_iff.mp hs
      obtain ⟨pkt, hw, ⟨-, rfl, rfl⟩ | ⟨-, rfl, rfl⟩⟩ := WriterPc.writeEp_cases hgiven
      · simp only [Tasks.work, hw, WriterPc.work]
        omega
      · simp only [Tasks.work, hw, WriterPc.work]
        omega
  | writeDone ok =>
      obtain ⟨writer, hdone, rfl⟩ := Option.map_eq_some_iff.mp hs
      obtain ⟨hw, rfl⟩ := WriterPc.writeDone_eq_some_iff.mp hdone
      cases ok <;> simp only [Tasks.work, hw, WriterPc.work, if_true, if_false,
        Bool.false_eq_true] <;> omega

/-- What the steps away from the rings do not touch, and where they add to what there is to send. -/
theorem Tasks.step_frame {a : TaskAct abi σ} (hs : s.step env a = some s') :
    (s'.acl = s.acl ∨ s.acl = none) ∧ (s'.cmd = s.cmd ∨ s.cmd = none) ∧
      (s'.notify = s.notify ∨ s.notify = []) ∧ s'.dispatched = s.dispatched ∧
      (s'.panicked = s.panicked ∨
        ∃ got sdc, a = .hciGet got sdc ∧ s'.panicked = !got.fits) := by
  cases a with
  | controlOut req data =>
      cases hs
      exact ⟨.inl rfl, .inl rfl, .inl rfl, rfl, .inl rfl⟩
  | aclOut data =>
      obtain ⟨⟨hnone, -⟩, hs⟩ := Option.ite_none_right_eq_some.mp hs
      cases hs
      exact ⟨.inr hnone, .inl rfl, .inl rfl, rfl, .inl rfl⟩
  | cmdReceive =>
      obtain ⟨cmd, cmds, hcmd, -, rfl⟩ := Tasks.cmdReceive_eq hs
      exact ⟨.inl rfl, .inr hcmd, .inl rfl, rfl, .inl rfl⟩
  | hciGet got sdc =>
      obtain ⟨⟨hnil, -⟩, rfl⟩ := Tasks.hciGet_eq hs
      exact ⟨.inl rfl, .inl rfl, .inr hnil, rfl,
        .inr ⟨got, sdc, rfl, (handle_outcome env got s.sdc).2⟩⟩
  | enabled | receive | writeEp | writeDone ok =>
      obtain ⟨x, -, rfl⟩ := Option.map_eq_some_iff.mp hs
      exact ⟨.inl rfl, .inl rfl, .inl rfl, rfl, .inl rfl⟩

theorem Calling.step (h : Calling rings s) {a : TaskAct abi σ} (hs : s.step env a = some s') :
    Calling rings s' := by
  obtain ⟨hacl, hcmd, hnotify, -⟩ := Tasks.step_frame hs
  refine ⟨fun f hf => ?_, fun f hf => ?_⟩
  · rcases h.down f hf with hf | hf
    · rcases hacl with hacl | hacl
      · exact .inl (by rw [hacl]; exact hf)
      · rw [hacl] at hf
        cases hf
    · rcases hcmd with hcmd | hcmd
      · exact .inr (by rw [hcmd]; exact hf)
      · rw [hcmd] at hf
        cases hf
  · have hhead := h.up f hf
    rcases hnotify with hnotify | hnil
    · rw [hnotify]
      exact hhead
    · rw [hnil] at hhead
      cases hhead

/-- The net core panics only over a command without an opcode. -/
def Tasks.PanicsOnShort (s : Tasks σ) : Prop :=
  s.panicked = true → ∃ c ∈ s.dispatched, c.length < 2

theorem Tasks.PanicsOnShort.step (h : s.PanicsOnShort) {a : TaskAct abi σ}
    (hgets : a.Gets HciGot.Proper) (hs : s.step env a = some s') : s'.PanicsOnShort := by
  obtain ⟨-, -, -, hdispatched, hsame | ⟨got, sdc, rfl, hfits⟩⟩ := Tasks.step_frame hs
  · rw [Tasks.PanicsOnShort, hsame, hdispatched]
    exact h
  · intro hpanic
    rw [hfits, And.right hgets] at hpanic
    cases hpanic

theorem Tasks.PanicsOnShort.seeDown (h : s.PanicsOnShort) {e : BellEvent}
    (hs : s.seeDown env e = some s') : s'.PanicsOnShort := by
  cases e with
  | calls f =>
      obtain ⟨-, rfl⟩ := Tasks.seeDown_calls hs
      exact h
  | done =>
      obtain rfl := Tasks.seeDown_done hs
      exact h
  | sent f ok => rcases Tasks.seeDown_sent hs with ⟨data, -, -, rfl⟩ | ⟨cmd, -, -, rfl⟩ <;> exact h
  | took f =>
      obtain ⟨-, rfl⟩ := Tasks.seeDown_took hs
      intro hpanic
      have hpanics := (rxFrame_outcome env f [] s.sdc).2.2
      rw [List.append_nil] at hpanics
      obtain ⟨payload, rfl, hlen⟩ := hpanics hpanic
      exact ⟨payload, by simp [commandOf], hlen⟩

theorem Tasks.PanicsOnShort.seeUp (h : s.PanicsOnShort) {e : BellEvent}
    (hs : s.seeUp e = some s') : s'.PanicsOnShort := by
  cases e with
  | calls f =>
      obtain ⟨-, rfl⟩ := Tasks.seeUp_calls hs
      exact h
  | sent f ok =>
      obtain ⟨rest, -, rfl⟩ := Tasks.seeUp_sent hs
      exact h
  | took f =>
      cases hs
      exact h
  | done =>
      obtain ⟨-, rfl⟩ | ⟨pkt, toHost, -, -, rfl⟩ := Tasks.seeUp_done hs <;> exact h

/-! ### Every run -/

/-- Fewer than `2^32` bytes have been written to each ring. -/
def Unwrapped (rings : Wakeup × Wakeup) : Prop :=
  rings.1.link.written < 2 ^ 32 ∧ rings.2.link.written < 2 ^ 32

/-- What is known of the tasks, whatever the rings do. -/
structure TasksSound (rings : Wakeup × Wakeup) (s : Tasks σ) : Prop where
  inv : TasksInv s
  calling : Calling rings s

theorem tasksSound_of_reachable (hhi : abi.hciMsgBufferMaxSize ≤ maxHciPayload) {a2n n2a : Ring}
    (h : (cores env a2n n2a sdc).Reachable (rings, s)) : TasksSound rings s := by
  refine h.within_invariant (P := TasksSound)
    ⟨tasksInv_init env sdc, ⟨fun _ hf => (by cases hf), fun _ hf => (by cases hf)⟩⟩ ?_ ?_
  · rintro rings a rings' s s' ih hs hk
    have hinv : TasksInv s' := by
      refine (tasks env sdc).seeAll_invariant ?_ ih.inv hk
      rintro s (e | e) s' ih hs
      · exact ih.seeDown hs
      · exact ih.seeUp hs
    rcases a with a | a
    · obtain ⟨r, hr, rfl⟩ := Option.map_eq_some_iff.mp hs
      exact ⟨hinv, (stepDown_work ih.inv ih.calling hr hk 0).1⟩
    · obtain ⟨r, hr, rfl⟩ := Option.map_eq_some_iff.mp hs
      exact ⟨hinv, (stepUp_work ih.inv ih.calling hr hk 0).1⟩
  · exact fun rings s a s' ih hs => ⟨ih.inv.step hhi hs, ih.calling.step hs⟩

theorem panicsOnShort_of_reachable {a2n n2a : Ring}
    (h : (cores env a2n n2a sdc).ReachableBy (Around.Outer (TaskAct.Gets HciGot.Proper))
      (rings, s)) : s.PanicsOnShort := by
  refine h.within_invariant (P := fun _ s => s.PanicsOnShort) (fun hp => (by cases hp)) ?_ ?_
  · intro rings a rings' s s' ih _ hk
    refine (tasks env sdc).seeAll_invariant ?_ ih hk
    rintro s (e | e) s' ih hs
    · exact ih.seeDown hs
    · exact ih.seeUp hs
  · exact fun rings s a s' hgets ih hs => ih.step hgets hs

/-- What happens on the cores, and not to them. -/
def OfTasks : (WakeAct ⊕ WakeAct) ⊕ TaskAct abi σ → Prop
  | .inl _ => True
  | .inr a => a.IsTask

/-- What the host does to let packets come in. -/
def OfHostIn : (WakeAct ⊕ WakeAct) ⊕ TaskAct abi σ → Prop
  | .inl _ => False
  | .inr a => a.IsHostIn

theorem gets_of_inside {P : HciGot abi → Prop} {a : (WakeAct ⊕ WakeAct) ⊕ TaskAct abi σ}
    (ha : OfTasks a ∨ OfHostIn a) : Around.Outer (TaskAct.Gets P) a := by
  match a with
  | .inr (.hciGet got sdc) => exact (ha.elim id id).elim
  | .inl _ | .inr (.controlOut _ _) | .inr (.aclOut _) | .inr .cmdReceive | .inr .enabled
  | .inr .receive | .inr .writeEp | .inr (.writeDone _) => trivial

/-- There is `k` to do on both cores, in a state that is reached from `ipc_init`. -/
def CoresLeft (env : NetEnv abi σ) (a2n n2a : Ring) (sdc : σ)
    (x : (Wakeup × Wakeup) × Tasks σ) (k : ℕ) : Prop :=
  (cores env a2n n2a sdc).Reachable x ∧
    ∃ i j i' j', x.1.1.Live ((rxBufOf abi).length + 5) i j ∧ x.1.2.Live (recvBuf.length + 5) i' j' ∧
      k = x.1.1.work ((rxBufOf abi).length + 5) upCost i j +
        x.1.2.work (recvBuf.length + 5) 5 i' j' +
        x.2.work abi x.1.1.link.producer.input.toList.length
          x.1.2.link.producer.input.toList.length

variable {a2n n2a : Ring}

/-- What is known of the rings. -/
theorem rings_of_reachable (hlo : controlBufLen ≤ abi.hciMsgBufferMaxSize)
    (hhi : abi.hciMsgBufferMaxSize ≤ maxHciPayload)
    (h : (cores env a2n n2a sdc).Reachable (rings, s)) (hw : Unwrapped rings) :
    ((∃ R q part, WakeInv bufSize (rxBufOf abi).length rings.1 R q part) ∧
      ∃ i j, rings.1.Live ((rxBufOf abi).length + 5) i j) ∧
    (∃ R q part, WakeInv bufSize recvBuf.length rings.2 R q part) ∧
      ∃ i j, rings.2.Live (recvBuf.length + 5) i j := by
  have hn : bufSize.toNat ≤ 65537 := by decide
  obtain ⟨hfitA, hfitN⟩ := cores_fit hlo hhi h
  obtain ⟨hreachA, hreachN⟩ := h.of_within.of_par
  exact ⟨⟨wakeInv_of_reachable hn hreachA hfitA hw.1, live_of_reachable hn hreachA ⟨hfitA, hw.1⟩⟩,
    wakeInv_of_reachable hn hreachN hfitN hw.2, live_of_reachable hn hreachN ⟨hfitN, hw.2⟩⟩

theorem cores_settles (hlo : controlBufLen ≤ abi.hciMsgBufferMaxSize)
    (hhi : abi.hciMsgBufferMaxSize ≤ maxHciPayload) :
    (cores env a2n n2a sdc).Settles (fun a => OfTasks a ∨ OfHostIn a) (fun x => Unwrapped x.1)
      (CoresLeft env a2n n2a sdc) := by
  have hn : bufSize.toNat ≤ 65537 := by decide
  have hback : ∀ x a x', (cores env a2n n2a sdc).step x a = some x' → Unwrapped x'.1 →
      Unwrapped x.1 := by
    rintro ⟨rings, s⟩ ((a | a) | a) ⟨rings', s'⟩ hs hw
    · obtain ⟨hs, -⟩ := Machine.within_inner.mp hs
      obtain ⟨r, hr, rfl⟩ := Option.map_eq_some_iff.mp hs
      exact ⟨(Wakeup.step_mono hr).2.trans_lt hw.1, hw.2⟩
    · obtain ⟨hs, -⟩ := Machine.within_inner.mp hs
      obtain ⟨r, hr, rfl⟩ := Option.map_eq_some_iff.mp hs
      exact ⟨hw.1, (Wakeup.step_mono hr).2.trans_lt hw.2⟩
    · obtain ⟨-, rfl⟩ := Machine.within_outer.mp hs
      exact hw
  refine ⟨hback, ?_⟩
  rintro ⟨rings, s⟩ a ⟨rings', s'⟩ k ha hs hw ⟨hreach, i, j, i', j', hlive, hlive', rfl⟩
  have hsound := tasksSound_of_reachable hhi hreach
  obtain ⟨⟨⟨R, q, part, hinv⟩, -⟩, ⟨R', q', part', hinv'⟩, -⟩ :=
    rings_of_reachable hlo hhi hreach (hback _ _ _ hs hw)
  have hreach' := hreach.step hs
  obtain ⟨⟨⟨_, _, _, hafter⟩, -⟩, ⟨_, _, _, hafter'⟩, -⟩ := rings_of_reachable hlo hhi hreach' hw
  rcases a with (a | a) | a
  · obtain ⟨hs, hk⟩ := Machine.within_inner.mp hs
    obtain ⟨r, hr, rfl⟩ := Option.map_eq_some_iff.mp hs
    obtain ⟨i₁, j₁, hlive₁, hlt⟩ :=
      hlive.step (g := upCost) hn le_rfl hinv hr hafter.link.consumed_le
    have hle := (stepDown_work hsound.inv hsound.calling hr hk
      rings.2.link.producer.input.toList.length).2
    refine ⟨_, ?_, hreach', i₁, j₁, i', j', hlive₁, hlive', rfl⟩
    dsimp only at hlt ⊢
    omega
  · obtain ⟨hs, hk⟩ := Machine.within_inner.mp hs
    obtain ⟨r, hr, rfl⟩ := Option.map_eq_some_iff.mp hs
    obtain ⟨i₁, j₁, hlive₁, hlt⟩ :=
      hlive'.step (g := 5) hn le_rfl hinv' hr hafter'.link.consumed_le
    have hle := (stepUp_work hsound.inv hsound.calling hr hk
      rings.1.link.producer.input.toList.length).2
    refine ⟨_, ?_, hreach', i, j, i₁, j₁, hlive, hlive₁, rfl⟩
    dsimp only at hlt ⊢
    omega
  · obtain ⟨htask, rfl⟩ := Machine.within_outer.mp hs
    have hcalls : rings.1.link.producer.input.toList.length ≤
        s.acl.toList.length + s.cmd.toList.length := by
      cases hin : rings.1.link.producer.input with
      | none => exact Nat.zero_le _
      | some f =>
          rcases hsound.calling.down f hin with hf | hf
          · obtain ⟨data, hdata, -⟩ := Option.map_eq_some_iff.mp hf
            rw [hdata]
            exact Nat.le_add_right _ _
          · obtain ⟨cmd, hcmd, -⟩ := Option.map_eq_some_iff.mp hf
            rw [hcmd]
            exact Nat.le_add_left _ _
    have hlt := Tasks.work_lt ha htask hcalls rings.2.link.producer.input.toList.length
    refine ⟨_, ?_, hreach', i, j, i', j', hlive, hlive', rfl⟩
    dsimp only
    omega

/-! ### At rest -/

theorem Tasks.seeDown_isSome {f : List UInt8} (h : s.Offers f) (ok : Bool) :
    (s.seeDown env (.sent f ok)).isSome = true := by
  rw [Tasks.seeDown]
  split
  · rfl
  · rename_i hacl
    rw [if_pos (h.resolve_left hacl)]
    rfl

theorem Tasks.seeUp_isSome {f : List UInt8} (h : s.notify.head? = some f) (ok : Bool) :
    (s.seeUp (.sent f ok)).isSome = true := by
  obtain ⟨rest, hn⟩ := List.head?_eq_some_iff.mp h
  simp [Tasks.seeUp, hn]

/-- Where no task of the app core can go on, `usb_write_task` has given away what it received, and
`HCI_CMD_CHANNEL` is empty if `cmd_task` has nothing to send. -/
theorem Tasks.waits_of_atRest (hrest : ∀ a : TaskAct abi σ, a.IsTask → s.step env a = none) :
    s.writer.hand = [] ∧ (s.writer = .receiving → s.toHost.items = []) ∧
      (s.cmd = none → s.cmds.items = []) := by
  refine ⟨?_, fun hw => ?_, fun hcmd => ?_⟩
  · cases hw : s.writer with
    | disabled | receiving | writing => rfl
    | holding pkt =>
        have hno := hrest .writeEp trivial
        simp only [Tasks.step, hw, WriterPc.writeEp, Option.map_eq_none_iff] at hno
        split at hno <;> cases hno
  · have hno := hrest .receive trivial
    simp only [Tasks.step, hw, WriterPc.receive, Option.map_eq_none_iff] at hno
    exact Fifo.pop?_eq_none_iff.mp hno
  · have hno := hrest .cmdReceive trivial
    cases hpop : s.cmds.pop? with
    | none => exact Fifo.pop?_eq_none_iff.mp hpop
    | some x => simp [Tasks.step, hcmd, hpop] at hno

/-- Where the host does not hold `usb_write_task` up either, that waits for a packet. -/
theorem Tasks.receiving_of_atRest (hhand : s.writer.hand = [])
    (hrest : ∀ a : TaskAct abi σ, a.IsHostIn → s.step env a = none) : s.writer = .receiving := by
  cases hw : s.writer with
  | receiving => rfl
  | disabled => simpa [Tasks.step, hw, WriterPc.enabled] using hrest .enabled trivial
  | writing => simpa [Tasks.step, hw, WriterPc.writeDone] using hrest (.writeDone true) trivial
  | holding pkt => simp [hw, WriterPc.hand] at hhand

/-- Where nothing that the tasks let happen can happen at the N→A ring, there is nothing for
`notify_app`, and the ring is asleep unless its reader waits for room in the channel. -/
theorem TasksSound.up_atRest (h : TasksSound rings s) {K i j : ℕ} (hlive : rings.2.Live K i j)
    (hrest : ∀ a, ((tasks env sdc).seeAll s
      ((rings.2.shows bufSize a).map .inr)).isSome = true → rings.2.step bufSize a = none) :
    s.notify = [] ∧ (s.toHost.items.length < channelDepth → rings.2.Asleep) := by
  have hsee : ∀ e, ((tasks env sdc).seeAll s ([e].map .inr)).isSome = (s.seeUp e).isSome := by
    intro e
    rw [List.map_singleton, tasks_seeUp]
  obtain ⟨htr, -, hnone⟩ := hlive.producer_silent
    (fun es => ((tasks env sdc).seeAll s (es.map .inr)).isSome = true) hrest rfl
    fun f ok hf => (hsee _).trans (Tasks.seeUp_isSome (h.calling.up f hf) ok)
  refine ⟨?_, fun hroom => ?_⟩
  · cases hn : s.notify with
    | nil => rfl
    | cons f rest =>
        -- the call for the next packet can begin
        have hhead : s.notify.head? = some f := by rw [hn, List.head?_cons]
        have hcalls : (tasks env sdc).see s (.inr (.calls f)) = some s := if_pos hhead
        refine absurd (fun ok => ?_) (hnone f (by rw [List.map_singleton,
          (tasks env sdc).seeAll_singleton, hcalls, Option.isSome_some]))
        rw [List.map_cons, (tasks env sdc).seeAll_cons hcalls, hsee]
        exact Tasks.seeUp_isSome hhead ok
  · have hdone : (s.seeUp .done).isSome = true := by
      rw [Tasks.seeUp]
      cases s.pkt with
      | none => rfl
      | some pkt =>
          cases hpush : s.toHost.push? pkt with
          | some toHost => simp [hpush]
          | none =>
              rw [Fifo.push?_eq_none_iff_length] at hpush
              omega
    obtain ⟨hpc, hev⟩ := hlive.consumer_silent
      (fun es => ((tasks env sdc).seeAll s (es.map .inr)).isSome = true)
      hrest rfl ((hsee _).trans hdone) fun f => hsee (.took f)
    exact ⟨hpc, hev, htr⟩

/-- … and the A→N ring is asleep, unless its reader has panicked. -/
theorem TasksSound.down_atRest (h : TasksSound rings s) {K i j : ℕ}
    (hlive : rings.1.Live K i j) (hnil : s.notify = [])
    (hrest : ∀ a, ((tasks env sdc).seeAll s
      ((rings.1.shows bufSize a).map .inl)).isSome = true → rings.1.step bufSize a = none) :
    s.acl = none ∧ s.cmd = none ∧ (s.panicked = false → rings.1.Asleep) := by
  have hsee : ∀ e, ((tasks env sdc).seeAll s ([e].map .inl)).isSome =
      (s.seeDown env e).isSome := by
    intro e
    rw [List.map_singleton, tasks_seeDown]
  obtain ⟨htr, -, hnone⟩ := hlive.producer_silent
    (fun es => ((tasks env sdc).seeAll s (es.map .inl)).isSome = true) hrest rfl
    fun f ok hf => (hsee _).trans (Tasks.seeDown_isSome (h.calling.down f hf) ok)
  have hoffers : ∀ f, ¬ s.Offers f := by
    intro f hf
    have hcalls : (tasks env sdc).see s (.inl (.calls f)) = some s := if_pos hf
    refine hnone f (by rw [List.map_singleton, (tasks env sdc).seeAll_singleton, hcalls,
      Option.isSome_some]) fun ok => ?_
    rw [List.map_cons, (tasks env sdc).seeAll_cons hcalls, hsee]
    exact Tasks.seeDown_isSome hf ok
  refine ⟨?_, ?_, fun hcalm => ?_⟩
  · cases hacl : s.acl with
    | none => rfl
    | some data => exact absurd (.inl (by rw [hacl]; rfl)) (hoffers (aclPkt data))
  · cases hcmd : s.cmd with
    | none => rfl
    | some cmd => exact absurd (.inr (by rw [hcmd]; rfl)) (hoffers (cmdPkt cmd))
  · obtain ⟨hpc, hev⟩ := hlive.consumer_silent
      (fun es => ((tasks env sdc).seeAll s (es.map .inl)).isSome = true) hrest rfl
      ((hsee _).trans (by simp [Tasks.seeDown, hnil, hcalm]))
      fun f => (hsee _).trans (by simp [Tasks.seeDown, hnil, hcalm])
    exact ⟨hpc, hev, htr⟩

/-- Everything has been handed on as far as the host lets it.  A packet is with the host, or it
waits in the channel, and further back only behind a full channel; none waits if `usb_write_task`
does.  The commands and the ACL data are with the controller, unless the net core has panicked.  And
if besides nothing was dropped and no write failed, the host has got one reply to each command with
an arm. -/
structure Tasks.Settled (s : Tasks σ) : Prop where
  up : s.written ++ s.toHost.items.map HciPacket.frame ++ s.pkt.toList.map HciPacket.frame <+:
    s.sent
  notify : s.notify = []
  room : s.toHost.items.length < channelDepth →
    s.sent = s.written ++ s.toHost.items.map HciPacket.frame
  written : s.writer = .receiving → s.written = s.sent ∧ s.got.length + s.failed = s.sent.length
  down : s.panicked = false → s.puts = s.aclSent ∧
    s.accepted.Perm (s.dispatched ++ s.dropped.map Drop.command)
  answered : s.writer = .receiving → s.panicked = false → s.dropped = [] →
    s.sent.filterMap decodeReply = s.replies.filterMap decodeReply → s.failed = 0 →
      (s.got.filterMap decodeReply).map HciReply.opcode =
        (s.accepted.filter HasArm).map opcodeOf

theorem Tasks.settled_of_atRest (hlo : controlBufLen ≤ abi.hciMsgBufferMaxSize)
    (hhi : abi.hciMsgBufferMaxSize ≤ maxHciPayload)
    (h : (cores env a2n n2a sdc).Reachable (rings, s)) (hw : Unwrapped rings)
    (hrest : (cores env a2n n2a sdc).AtRest OfTasks (rings, s)) : s.Settled := by
  have hsound := tasksSound_of_reachable hhi h
  obtain ⟨⟨-, i, j, hlive⟩, -, i', j', hlive'⟩ := rings_of_reachable hlo hhi h hw
  obtain ⟨bells, hi, hA, hN⟩ := cores_around_bells hlo hhi h hw
  obtain ⟨hhand, htoHost, hcmds⟩ := @Tasks.waits_of_atRest abi σ env s fun a ha =>
    Option.map_eq_none_iff.mp (hrest (.inr a) ha)
  obtain ⟨hnotify, hup⟩ := hsound.up_atRest hlive' fun a hsee =>
    Option.map_eq_none_iff.mp (Machine.within_inner_none (hrest (.inl (.inr a)) trivial) hsee)
  obtain ⟨hacl, hcmd, hdown⟩ := hsound.down_atRest hlive hnotify fun a hsee =>
    Option.map_eq_none_iff.mp (Machine.within_inner_none (hrest (.inl (.inl a)) trivial) hsee)
  have hplaces : s.cmdPlaces = s.dispatched := by
    simp [Tasks.cmdPlaces, hcmd, hcmds hcmd]
  have hpast : s.panicked = false → s.puts = s.aclSent ∧
      s.accepted.Perm (s.dispatched ++ s.dropped.map Drop.command) := by
    intro hcalm
    rw [← hplaces]
    exact hi.commands_past (hA (hdown hcalm)).2
  have hevents := hi.events
  rw [Tasks.eventPlaces, hhand, List.append_nil] at hevents
  have hroom : s.toHost.items.length < channelDepth →
      s.sent = s.written ++ s.toHost.items.map HciPacket.frame := by
    intro hroom
    obtain ⟨hpc, hempty⟩ := hN (hup hroom)
    have hidle : s.pkt = none := hi.idle (by simp [hpc])
    rw [hevents, hempty, hidle]
    simp
  have hwritten : s.writer = .receiving → s.written = s.sent := by
    intro hwait
    have hnil := htoHost hwait
    rw [hroom (by rw [hnil]; decide), hnil]
    simp
  have hcount := hi.inv.finishing.count
  have hgot := hi.inv.finishing.order
  refine ⟨by rw [hevents]; exact List.prefix_append _ _, hnotify, hroom,
    fun hwait => ⟨hwritten hwait, ?_⟩, hpast, fun hwait hcalm hdropped hall hfailed => ?_⟩
  · rwa [hwait, WriterPc.finished, hwritten hwait] at hcount
  · have haccepted : s.dispatched = s.accepted := by
      have hlen := (hpast hcalm).2.length_eq
      have hsub := hi.commands
      rw [hdropped, List.map_nil, List.append_nil] at hlen
      rw [hplaces] at hsub
      exact hsub.eq_of_length hlen.symm
    rw [hwait, WriterPc.finished, hwritten hwait] at hcount hgot
    rw [hfailed, Nat.add_zero] at hcount
    rw [hgot.eq_of_length hcount, hall, hi.inv.replies, haccepted]

/-- More than there can be to do. -/
def coresBound (abi : SdcAbi) (rings : Wakeup × Wakeup) (s : Tasks σ) : ℕ :=
  rings.1.bound ((rxBufOf abi).length + 5) upCost + rings.2.bound (recvBuf.length + 5) 5 +
    s.work abi rings.1.link.producer.input.toList.length
      rings.2.link.producer.input.toList.length + 1

theorem coresLeft_lt (hlo : controlBufLen ≤ abi.hciMsgBufferMaxSize)
    (hhi : abi.hciMsgBufferMaxSize ≤ maxHciPayload)
    (h : (cores env a2n n2a sdc).Reachable (rings, s)) (hw : Unwrapped rings) :
    ∃ k < coresBound abi rings s, CoresLeft env a2n n2a sdc (rings, s) k := by
  obtain ⟨⟨-, i, j, hlive⟩, -, i', j', hlive'⟩ := rings_of_reachable hlo hhi h hw
  refine ⟨_, ?_, h, i, j, i', j', hlive, hlive', rfl⟩
  have hdown := hlive.work_le (g := upCost)
  have hup := hlive'.work_le (g := 5)
  dsimp only [coresBound]
  omega

/-- A step writes at most one byte to a ring. -/
theorem cores_written_le_succ {x x' : (Wakeup × Wakeup) × Tasks σ}
    {a : (WakeAct ⊕ WakeAct) ⊕ TaskAct abi σ}
    (hs : (cores env a2n n2a sdc).step x a = some x') :
    x'.1.1.link.written ≤ x.1.1.link.written + 1 ∧
      x'.1.2.link.written ≤ x.1.2.link.written + 1 := by
  obtain ⟨rings, s⟩ := x
  obtain ⟨rings', s'⟩ := x'
  rcases a with (a | a) | a
  · obtain ⟨hs, -⟩ := Machine.within_inner.mp hs
    obtain ⟨r, hr, rfl⟩ := Option.map_eq_some_iff.mp hs
    exact ⟨Wakeup.written_le_succ hr, Nat.le_succ _⟩
  · obtain ⟨hs, -⟩ := Machine.within_inner.mp hs
    obtain ⟨r, hr, rfl⟩ := Option.map_eq_some_iff.mp hs
    exact ⟨Nat.le_succ _, Wakeup.written_le_succ hr⟩
  · obtain ⟨-, rfl⟩ := Machine.within_outer.mp hs
    exact ⟨Nat.le_succ _, Nat.le_succ _⟩

/-- Where the rings have so many bytes left, the cores come to rest. -/
theorem cores_exists_rest (hlo : controlBufLen ≤ abi.hciMsgBufferMaxSize)
    (hhi : abi.hciMsgBufferMaxSize ≤ maxHciPayload)
    (h : (cores env a2n n2a sdc).Reachable (rings, s))
    (hdown : rings.1.link.written + coresBound abi rings s < 2 ^ 32)
    (hup : rings.2.link.written + coresBound abi rings s < 2 ^ 32)
    {B : (WakeAct ⊕ WakeAct) ⊕ TaskAct abi σ → Prop} (hB : ∀ a, B a → OfTasks a ∨ OfHostIn a) :
    ∃ as x, (∀ a ∈ as, B a) ∧ (cores env a2n n2a sdc).runFrom (rings, s) as = some x ∧
      Unwrapped x.1 ∧ (cores env a2n n2a sdc).AtRest B x := by
  have hsettles : (cores env a2n n2a sdc).Settles _ _ _ := (cores_settles hlo hhi).mono hB
  have hw : Unwrapped rings :=
    ⟨(Nat.le_add_right _ _).trans_lt hdown, (Nat.le_add_right _ _).trans_lt hup⟩
  obtain ⟨k, hlt, hleft⟩ := coresLeft_lt hlo hhi h hw
  obtain ⟨as, x, has, hrun, hx, hrest | ⟨a, x', -, hs, hfull⟩⟩ := hsettles.exists_atRest hleft hw
  · exact ⟨as, x, has, hrun, hx, hrest⟩
  · -- no ring is used up: a byte takes a step
    obtain ⟨k', hle, -⟩ := hsettles.length_le hleft has hrun hx
    have hrun₁ := Machine.runFrom_le (f := fun x => x.1.1.link.written)
      (fun _ _ _ hs => (cores_written_le_succ hs).1) hrun
    have hrun₂ := Machine.runFrom_le (f := fun x => x.1.2.link.written)
      (fun _ _ _ hs => (cores_written_le_succ hs).2) hrun
    obtain ⟨hstep₁, hstep₂⟩ := cores_written_le_succ hs
    dsimp only at hrun₁ hrun₂
    exact absurd ⟨by omega, by omega⟩ hfull

/-- **Both cores come to rest.**  From every state that a controller within `HciGot.Proper` leads
to, as long as fewer than `2^32` bytes have been written to each ring, fewer than `coresBound`
accesses, triggers, waits, steps of tasks and of the host as it lets packets in can follow one
another, in whatever order and with whatever writes failing.  Where none without the host is left, everything
has been handed on as far as the host lets it; where none is left at all, `usb_write_task` waits for
a packet.  The net core has panicked only over a command of fewer than two bytes.  And if the rings
have so many bytes left, they come that far, with the host and without. -/
theorem cores_settle (env : NetEnv abi σ) (a2n n2a : Ring) (sdc : σ)
    (hlo : controlBufLen ≤ abi.hciMsgBufferMaxSize)
    (hhi : abi.hciMsgBufferMaxSize ≤ maxHciPayload) (rings : Wakeup × Wakeup) (s : Tasks σ)
    (h : (cores env a2n n2a sdc).ReachableBy (Around.Outer (TaskAct.Gets HciGot.Proper))
      (rings, s)) :
    (∀ as x, (∀ a ∈ as, OfTasks a ∨ OfHostIn a) →
      (cores env a2n n2a sdc).runFrom (rings, s) as = some x → Unwrapped x.1 →
        as.length < coresBound abi rings s ∧
        ((cores env a2n n2a sdc).AtRest OfTasks x → x.2.Settled) ∧
        ((cores env a2n n2a sdc).AtRest (fun a => OfTasks a ∨ OfHostIn a) x →
          x.2.writer = .receiving) ∧
        (x.2.panicked = true → ∃ c ∈ x.2.accepted, c.length < 2)) ∧
    (rings.1.link.written + coresBound abi rings s < 2 ^ 32 →
      rings.2.link.written + coresBound abi rings s < 2 ^ 32 →
        (∃ as x, (∀ a ∈ as, OfTasks a) ∧
          (cores env a2n n2a sdc).runFrom (rings, s) as = some x ∧ Unwrapped x.1 ∧
          (cores env a2n n2a sdc).AtRest OfTasks x) ∧
        ∃ as x, (∀ a ∈ as, OfTasks a ∨ OfHostIn a) ∧
          (cores env a2n n2a sdc).runFrom (rings, s) as = some x ∧ Unwrapped x.1 ∧
          (cores env a2n n2a sdc).AtRest (fun a => OfTasks a ∨ OfHostIn a) x) := by
  have hsettles : (cores env a2n n2a sdc).Settles _ _ _ := cores_settles hlo hhi
  constructor
  · intro as x has hrun hx
    obtain ⟨k, hlt, hleft⟩ := coresLeft_lt hlo hhi h.reachable (hsettles.back_run hrun hx)
    obtain ⟨rings', s'⟩ := x
    obtain ⟨k', hle, hreach, -⟩ := hsettles.length_le hleft has hrun hx
    refine ⟨((Nat.le_add_right _ _).trans hle).trans_lt hlt,
      fun hrest => Tasks.settled_of_atRest hlo hhi hreach hx hrest, fun hrest => ?_,
      fun hpanic => ?_⟩
    · obtain ⟨hhand, -, -⟩ := @Tasks.waits_of_atRest abi σ env s' fun a ha =>
        Option.map_eq_none_iff.mp (hrest (.inr a) (.inl ha))
      exact Tasks.receiving_of_atRest hhand fun a ha =>
        Option.map_eq_none_iff.mp (hrest (.inr a) (.inr ha))
    · obtain ⟨bells, hi, -, -⟩ := cores_around_bells hlo hhi hreach hx
      have hby := h.runFrom (fun a ha => gets_of_inside (has a ha)) hrun
      obtain ⟨c, hc, hlen⟩ := panicsOnShort_of_reachable hby hpanic
      exact ⟨c, hi.commands.subset (by simp [Tasks.cmdPlaces, hc]), hlen⟩
  · intro hdown hup
    exact ⟨cores_exists_rest hlo hhi h.reachable hdown hup fun _ => .inl,
      cores_exists_rest hlo hhi h.reachable hdown hup fun _ ha => ha⟩

/-- HCI Reset, from the moment it is accepted, behind an event of the controller. -/
theorem cores_settle_reset :
    ∃ rings s, (cores (NetEnv.zeros someAbi) anyRing anyRing ()).run
        [.inr (.hciGet leMeta ()), .inr (.controlOut classReq [0x03, 0x0C, 0x00])] =
          some (rings, s) ∧
      ∃ as x, as.length < 8161 ∧
        (cores (NetEnv.zeros someAbi) anyRing anyRing ()).runFrom (rings, s) as = some x ∧
        x.2.Settled ∧ x.2.writer = .receiving := by
  obtain ⟨⟨rings, s⟩, hrun, hnum, hdown, hup⟩ :=
    (cores (NetEnv.zeros someAbi) anyRing anyRing ()).exists_of_run
      [.inr (.hciGet leMeta ()), .inr (.controlOut classReq [0x03, 0x0C, 0x00])]
      (fun x => coresBound someAbi x.1 x.2 = 8161 ∧
        x.1.1.link.written + 8161 < 2 ^ 32 ∧ x.1.2.link.written + 8161 < 2 ^ 32)
      (by decide +kernel)
  have hgets : ∀ a ∈ ([.inr (.hciGet leMeta ()),
      .inr (.controlOut classReq [0x03, 0x0C, 0x00])] :
        List ((WakeAct ⊕ WakeAct) ⊕ TaskAct someAbi Unit)),
      Around.Outer (TaskAct.Gets HciGot.Proper) a := by
    decide +kernel
  obtain ⟨hbound, hrest⟩ := cores_settle (NetEnv.zeros someAbi) anyRing anyRing ()
    (by decide) (by decide) rings s ⟨_, hgets, hrun⟩
  dsimp only at hnum
  rw [hnum] at hbound hrest
  obtain ⟨-, as, x, has, hgo, hx, hatRest⟩ := hrest hdown hup
  obtain ⟨hlt, hsettled, hwriter, -⟩ := hbound as x has hgo hx
  exact ⟨rings, s, hrun, as, x, hlt, hgo, hsettled fun a ha => hatRest a (.inl ha),
    hwriter hatRest⟩

end NrfHciUsb
