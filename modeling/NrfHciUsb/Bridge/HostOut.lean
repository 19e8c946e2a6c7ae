import NrfHciUsb.App.Usb
import NrfHciUsb.Net.RxLoop

/-!
# Bridge — HostOut

What the USB host sends, from the control and bulk endpoints of the app core through the frames
of the A→N ring to the receive loop of the net core, and what makes the loop panic.

`rxLoop_safe_iff`: the loop panics exactly when it receives a command of fewer than two bytes.
-/

namespace NrfHciUsb
open Support

variable {abi : SdcAbi} {σ : Type}

/-! ### Panics of the receive loop -/

/-- The frame makes the loop's `warn!` index a command without an opcode. -/
def Panics (f : List UInt8) : Prop := ∃ payload, f = 0x01 :: payload ∧ payload.length < 2

theorem handleFrame_ok (env : NetEnv abi σ) {f : List UInt8}
    (h : ¬ Panics f) (s : σ) :
    ∃ s', NetM.exec env (handleFrame f) s = (.ok (), s') := by
  cases f with
  | nil => exact ⟨s, rfl⟩
  | cons indicator payload =>
      rw [handleFrame]
      split
      · rename_i hind
        obtain ⟨handled, s', hd⟩ := dispatch_exec env payload s
        refine ⟨s', (NetM.exec_bind env hd _).trans ?_⟩
        rw [if_neg, NetM.exec_pure]
        intro hc
        simp only [Bool.and_eq_true, decide_eq_true_eq] at hc
        exact h ⟨payload, by rw [hind], hc.2⟩
      · split
        · exact ⟨_, rfl⟩
        · exact ⟨s, rfl⟩

theorem handleFrame_panic (env : NetEnv abi σ) {f : List UInt8}
    (h : Panics f) (s : σ) :
    ∃ e, NetM.exec env (handleFrame f) s = (.error e, s) := by
  obtain ⟨payload, rfl, hlen⟩ := h
  refine ⟨.index payload.length payload.length, ?_⟩
  rw [handleFrame, if_pos rfl, dispatch_short hlen, pure_bind, if_pos (by simp [hlen])]
  rfl

/-- **Reads.**  They all end in waiting for the next exactly when none of the frames that fit the
buffer makes the loop panic. -/
theorem handleReads_ok_iff (env : NetEnv abi σ) (cap : ℕ)
    (reads : List (Option (List UInt8))) (s : σ) :
    (∃ s', NetM.exec env (handleReads cap reads) s = (.ok (), s')) ↔
      ∀ f, some f ∈ reads → f.length ≤ cap → ¬ Panics f := by
  induction reads generalizing s with
  | nil => simp [handleReads]
  | cons r reads ih =>
      by_cases hr : ∃ f, r = some f ∧ f.length ≤ cap ∧ Panics f
      · -- the loop ends here
        obtain ⟨f, rfl, hfit, hp⟩ := hr
        obtain ⟨e, he⟩ := handleFrame_panic env hp s
        have hstep : NetM.exec env (handleRead cap (some f)) s = (.error e, s) := by
          rw [handleRead, if_pos hfit, he]
        rw [handleReads, NetM.exec_bind_error env hstep]
        constructor
        · rintro ⟨s', h⟩
          cases h
        · intro h
          exact absurd hp (h f (by simp) hfit)
      · -- it goes on with what is left
        obtain ⟨s', hs'⟩ : ∃ s', NetM.exec env (handleRead cap r) s = (.ok (), s') := by
          rcases r with _ | f
          · exact ⟨_, rfl⟩
          · rw [handleRead]
            split
            · exact handleFrame_ok env (fun hp => hr ⟨f, rfl, ‹_›, hp⟩) s
            · exact ⟨_, rfl⟩
        rw [handleReads, NetM.exec_bind env hs', ih s']
        constructor
        · intro h f hf hfit hp
          rcases List.mem_cons.mp hf with rfl | hf
          · exact hr ⟨f, rfl, hfit, hp⟩
          · exact h f hf hfit hp
        · intro h f hf
          exact h f (List.mem_cons_of_mem _ hf)

theorem ipcRxLoop_ok_iff (env : NetEnv abi σ)
    (reads : List (Option (List UInt8))) (s : σ) :
    (∃ s', NetM.exec env.feeding (ipcRxLoop reads.length) (s, reads) = (.ok (), s')) ↔
      ∀ f, some f ∈ reads → f.length ≤ 1 + abi.hciMsgBufferMaxSize → ¬ Panics f := by
  have hres : ∀ (α : Type) (x : Except Panic Unit × α),
      (∃ s', x = (.ok (), s')) ↔ x.1 = .ok () := by
    rintro α ⟨x, t⟩
    simp
  rw [hres, (ipcRxLoop_refines env reads s).1, ← hres, handleReads_ok_iff]

/-- A transfer from the host: the data of a class request, or of one read of the bulk endpoint. -/
inductive UsbOut where
  | command (data : List UInt8)
  | acl (data : List UInt8)

/-- The frame the app core makes of it. -/
def UsbOut.pkt : UsbOut → List UInt8
  | .command data => cmdPkt (.ofData data)
  | .acl data => aclPkt data

theorem UsbOut.pkt_panics {u : UsbOut} :
    Panics u.pkt ↔ ∃ data, u = .command data ∧ data.length < 2 := by
  cases u with
  | command data =>
      rw [UsbOut.pkt, cmdPkt_eq, HciCmdBuf.ofData_bytes]
      constructor
      · rintro ⟨payload, hp, hlen⟩
        rw [← (List.cons.inj hp).2, List.length_take, maxCmdLen] at hlen
        exact ⟨data, rfl, by omega⟩
      · rintro ⟨data', heq, hlen⟩
        cases heq
        refine ⟨_, rfl, ?_⟩
        rw [List.length_take]
        omega
  | acl data =>
      rw [UsbOut.pkt, aclPkt_eq]
      constructor
      · rintro ⟨payload, hp, -⟩
        cases hp
      · rintro ⟨data', heq, -⟩
        cases heq

/-- **Panic freedom.**  Whatever the host sends, in whatever order and with whatever reads of an
empty ring in between, the receive loop comes through all of it and waits again if and only if
every command that fits its buffer has at least two bytes. -/
theorem rxLoop_safe_iff (env : NetEnv abi σ) (inputs : List (Option UsbOut))
    (s : σ) :
    (∃ s', NetM.exec env.feeding (ipcRxLoop inputs.length)
        (s, inputs.map (Option.map UsbOut.pkt)) = (.ok (), s')) ↔
      ∀ data, some (.command data) ∈ inputs →
        data.length ≤ abi.hciMsgBufferMaxSize → 2 ≤ data.length := by
  have hloop := ipcRxLoop_ok_iff env (inputs.map (Option.map UsbOut.pkt)) s
  rw [List.length_map] at hloop
  rw [hloop]
  constructor
  · intro h data hmem hfit
    by_contra hlen
    refine h (UsbOut.pkt (.command data)) (List.mem_map_of_mem hmem) ?_
      (UsbOut.pkt_panics.mpr ⟨data, rfl, by omega⟩)
    rw [UsbOut.pkt, cmdPkt_eq, HciCmdBuf.ofData_bytes, List.length_cons, List.length_take]
    omega
  · intro h f hf hfit hp
    obtain ⟨u, hu, hpkt⟩ := List.mem_map.mp hf
    obtain ⟨u, rfl, rfl⟩ := Option.map_eq_some_iff.mp hpkt
    obtain ⟨data, rfl, hlen⟩ := UsbOut.pkt_panics.mp hp
    rw [UsbOut.pkt, cmdPkt_eq, HciCmdBuf.ofData_bytes, List.length_cons, List.length_take,
      maxCmdLen] at hfit
    have := h data hu (by omega)
    omega

/-- A command of one byte. -/
theorem rxLoop_panics :
    ¬ ∃ s', NetM.exec (NetEnv.zeros someAbi).feeding (ipcRxLoop 1)
      ((), [some (UsbOut.pkt (.command [0x03]))]) = (.ok (), s') := by
  intro h
  refine (ipcRxLoop_ok_iff _ [some (UsbOut.pkt (.command [0x03]))] ()).mp h _
    (List.mem_singleton_self _) ?_ (UsbOut.pkt_panics.mpr ⟨[0x03], rfl, by decide⟩)
  rw [UsbOut.pkt, cmdPkt_eq, HciCmdBuf.ofData_bytes, List.length_cons, List.length_take]
  decide

end NrfHciUsb
