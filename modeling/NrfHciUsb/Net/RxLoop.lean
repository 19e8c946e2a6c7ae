import NrfHciUsb.Net.Dispatch
import NrfHciUsb.Ipc.Queue

/-!
# Net — RxLoop

The receive loop of the net core, `ipc_rx_loop`: it waits for the app core's event, reads the A→N
ring until there is nothing to read, and hands each frame to the dispatcher or to the controller.

* `rxFrame_eq`: what a frame is handled as depends on its own bytes only, whatever the buffer
  held before.
* `ipcRxLoop_refines`: however the frames arrive, the loop handles those that fit its buffer, in
  order.
-/

namespace NrfHciUsb
open Support

variable {abi : SdcAbi} {σ : Type}

/-- The body of `while let Some(n)`.  `defmt` evaluates the arguments of a log call whether or not
its level is enabled in the build; only those of the `warn!` index anything. -/
def rxFrame (buf : List UInt8) (n : ℕ) : NetM abi Unit :=
  if n = 0 then pure ()
  else do
    let indicator ← index buf 0
    let payload ← slice buf 1 n
    if indicator = 0x01 then do
      let handled ← dispatchHciCmd payload
      if !handled then do
        let lo ← index payload 0
        let hi ← index payload 1
        let _opcode := u16FromLeBytes lo hi
        pure ()
      else pure ()
    else if indicator = 0x02 then do
      let _ok ← hciDataPut payload
      pure ()
    else pure ()

/-- The loop's next `k` reads. -/
def rxReads : ℕ → List UInt8 → NetM abi Unit
  | 0, _ => pure ()
  | k + 1, buf => do
      let (n, buf) ← ipcRecvFromApp buf
      match n with
      | some n => rxFrame buf n
      | none => eventWait
      rxReads k buf

/-- `ipc_rx_loop`, up to its `k`-th read; the loop itself does not end. -/
def ipcRxLoop (k : ℕ) : NetM abi Unit := do
  eventWait
  rxReads k (List.replicate (1 + abi.hciMsgBufferMaxSize) 0)

/-! ### One frame -/

/-- What a frame is handled as: nothing, a command, ACL data, or a packet that is ignored. -/
def handleFrame : List UInt8 → NetM abi Unit
  | [] => pure ()
  | indicator :: payload =>
      if indicator = 0x01 then do
        let handled ← dispatchHciCmd payload
        if !handled && payload.length < 2 then
          throw (.index payload.length payload.length)
        else pure ()
      else if indicator = 0x02 then do
        let _ok ← hciDataPut payload
        pure ()
      else pure ()

/-- The `warn!` about a command that was not handled. -/
theorem warn_eq (payload : List UInt8) :
    (do
      let lo ← index payload 0
      let hi ← index payload 1
      let _opcode := u16FromLeBytes lo hi
      pure () : NetM abi Unit) =
    if payload.length < 2 then throw (.index payload.length payload.length) else pure () := by
  match payload with
  | [] => rw [index_of_le (by simp)]; rfl
  | [b] => rw [index_of_lt (by simp), pure_bind, index_of_le (by simp)]; rfl
  | lo :: hi :: rest =>
      rw [index_of_lt (by simp), pure_bind, index_of_lt (by simp), pure_bind, if_neg (by simp)]

/-- **One frame.**  What is behind it in the buffer does not matter. -/
theorem rxFrame_eq (f stale : List UInt8) :
    (rxFrame (f ++ stale) f.length : NetM abi Unit) = handleFrame f := by
  cases f with
  | nil => rfl
  | cons indicator payload =>
      have hslice : (slice (indicator :: payload ++ stale) 1 (indicator :: payload).length :
          NetM abi (List UInt8)) = pure payload := by
        rw [slice_of_le (by simp) (by simp)]
        simp
      rw [rxFrame, if_neg (by simp), index_of_lt (by simp), hslice]
      simp only [pure_bind, List.cons_append, List.getElem_cons_zero, handleFrame]
      split
      · congr 1
        funext handled
        have hwarn := @warn_eq abi payload
        simp only at hwarn
        rw [hwarn]
        cases handled <;> simp
      · rfl

/-! ### The frames as they arrive -/

/-- What the coming reads find in the ring, each a frame or nothing: the rest is up to `env`. -/
def NetEnv.feeding (env : NetEnv abi σ) : NetEnv abi (σ × List (Option (List UInt8)))
  | .ipcRecvFromApp out, (s, some f :: reads) => (received f out, s, reads)
  | .ipcRecvFromApp out, (s, none :: reads) => ((none, out), s, reads)
  | .ipcRecvFromApp out, (s, []) => ((none, out), s, [])
  | .sdcHciCmd fn params, (s, reads) =>
      ((env (.sdcHciCmd fn params) s).1, (env (.sdcHciCmd fn params) s).2, reads)
  | .hciDataPut payload, (s, reads) =>
      ((env (.hciDataPut payload) s).1, (env (.hciDataPut payload) s).2, reads)
  | .notifyApp pkt, (s, reads) => ((), (env (.notifyApp pkt) s).2, reads)
  | .eventWait, (s, reads) => ((), (env .eventWait s).2, reads)

def NetOp.isRead : NetOp → Bool
  | .ipcRecvFromApp _ => true
  | .sdcHciCmd _ _ | .hciDataPut _ | .notifyApp _ | .eventWait => false

/-- What comes of a read into a buffer of `cap` bytes. -/
def handleRead (cap : ℕ) : Option (List UInt8) → NetM abi Unit
  | some f => if f.length ≤ cap then handleFrame f else eventWait
  | none => eventWait

def handleReads (cap : ℕ) : List (Option (List UInt8)) → NetM abi Unit
  | [] => pure ()
  | r :: reads => do
      handleRead cap r
      handleReads cap reads

theorem feeding_frame (env : NetEnv abi σ) (o : NetOp) (s : σ)
    (reads : List (Option (List UInt8))) (h : o.isRead = false) :
    env.feeding o (s, reads) = ((env o s).1, (env o s).2, reads) := by
  cases o with
  | ipcRecvFromApp out => cases h
  | sdcHciCmd _ _ | hciDataPut _ | notifyApp _ | eventWait => rfl

/-- The dispatcher never panics. -/
theorem dispatch_exec (env : NetEnv abi σ) (payload : List UInt8) (s : σ) :
    ∃ handled s', NetM.exec env (dispatchHciCmd payload) s = (.ok handled, s') := by
  match payload with
  | [] | [_] => exact ⟨false, s, by rw [dispatch_short (by simp)]; rfl⟩
  | lo :: hi :: rest =>
      cases h : commandTable.lookup (u16FromLeBytes lo hi) with
      | none => exact ⟨false, s, by rw [dispatch_unknown rest h]; rfl⟩
      | some arm =>
          by_cases hs : arm.Short abi (rest.drop 1)
          · exact ⟨true, _, by rw [dispatch_params_short h hs]; rfl⟩
          · exact ⟨true, _, by rw [dispatch_call h hs]; rfl⟩

/-- The dispatcher reads nothing. -/
theorem dispatch_only (payload : List UInt8) :
    Prog.Only (fun o => o.isRead = false) (dispatchHciCmd payload : NetM abi Bool).run := by
  match payload with
  | [] | [_] => rw [dispatch_short (by simp)]; trivial
  | lo :: hi :: rest =>
      cases h : commandTable.lookup (u16FromLeBytes lo hi) with
      | none => rw [dispatch_unknown rest h]; trivial
      | some arm =>
          by_cases hs : arm.Short abi (rest.drop 1)
          · rw [dispatch_params_short h hs]
            exact ⟨rfl, fun _ => trivial⟩
          · rw [dispatch_call h hs]
            exact ⟨rfl, fun _ => ⟨rfl, fun _ => trivial⟩⟩

theorem handleRead_only (cap : ℕ) (r : Option (List UInt8)) :
    Prog.Only (fun o => o.isRead = false) (handleRead cap r : NetM abi Unit).run := by
  have hwait : Prog.Only (fun o => o.isRead = false) (eventWait : NetM abi Unit).run :=
    ⟨rfl, fun _ => trivial⟩
  rcases r with _ | f
  · exact hwait
  · rw [handleRead]
    split
    · cases f with
      | nil => trivial
      | cons indicator payload =>
          rw [handleFrame]
          split
          · refine NetM.only_bind (dispatch_only payload) fun handled => ?_
            split <;> trivial
          · split
            · exact ⟨rfl, fun _ => trivial⟩
            · trivial
    · exact hwait

/-- One more read, and what comes of it. -/
theorem rxReads_succ (env : NetEnv abi σ) (k : ℕ) (buf : List UInt8)
    (r : Option (List UInt8)) :
    ∃ buf', buf'.length = buf.length ∧ ∀ s reads,
      NetM.exec env.feeding (rxReads (k + 1) buf) (s, r :: reads) =
          NetM.exec env.feeding (handleRead buf.length r >>= fun _ => rxReads k buf')
            (s, reads) ∧
        NetM.effects env.feeding (rxReads (k + 1) buf) (s, r :: reads) =
          .ipcRecvFromApp buf :: NetM.effects env.feeding
            (handleRead buf.length r >>= fun _ => rxReads k buf') (s, reads) := by
  rcases r with _ | f
  · exact ⟨buf, rfl, fun s reads => ⟨rfl, rfl⟩⟩
  · by_cases hfit : f.length ≤ buf.length
    · have hrec : received f buf = (some f.length, f ++ buf.drop f.length) := if_pos hfit
      refine ⟨f ++ buf.drop f.length, by simp; omega, fun s reads => ?_⟩
      rw [rxReads, ipcRecvFromApp, NetM.exec_effect_bind, NetM.effects_effect_bind]
      simp only [NetEnv.feeding, hrec, rxFrame_eq, handleRead, hfit, if_true]
      exact ⟨trivial, trivial⟩
    · have hrec : received f buf = (none, buf) := if_neg hfit
      refine ⟨buf, rfl, fun s reads => ?_⟩
      rw [rxReads, ipcRecvFromApp, NetM.exec_effect_bind, NetM.effects_effect_bind]
      simp only [NetEnv.feeding, hrec, handleRead, hfit, if_false]
      exact ⟨trivial, trivial⟩

/-- **The loop.**  However the frames arrive, it handles those that fit its buffer, in order. -/
theorem rxReads_refines (env : NetEnv abi σ)
    (reads : List (Option (List UInt8))) (buf : List UInt8) (s : σ) :
    (NetM.exec env.feeding (rxReads reads.length buf) (s, reads)).1 =
        (NetM.exec env (handleReads buf.length reads) s).1 ∧
      (NetM.effects env.feeding (rxReads reads.length buf) (s, reads)).filter
          (fun o => !o.isRead) =
        NetM.effects env (handleReads buf.length reads) s := by
  induction reads generalizing buf s with
  | nil => exact ⟨rfl, rfl⟩
  | cons r reads ih =>
      obtain ⟨buf', hlen, hstep⟩ := rxReads_succ env reads.length buf r
      obtain ⟨hexec, heff⟩ := hstep s reads
      have honly := @handleRead_only abi buf.length r
      have hrun : NetM.exec env.feeding (handleRead buf.length r) (s, reads) =
          ((NetM.exec env (handleRead buf.length r) s).1,
            (NetM.exec env (handleRead buf.length r) s).2, reads) :=
        Prog.run_frame env (feeding_frame env) honly s reads
      have htrace : NetM.effects env.feeding (handleRead buf.length r) (s, reads) =
          NetM.effects env (handleRead buf.length r) s :=
        Prog.trace_frame env (feeding_frame env) honly s reads
      have hkeep : (NetM.effects env (handleRead buf.length r) s).filter
          (fun o => !o.isRead) = NetM.effects env (handleRead buf.length r) s :=
        List.filter_eq_self.mpr fun o ho => by
          simpa using Prog.forall_trace env honly s o ho
      rw [List.length_cons, hexec, heff, handleReads]
      cases hr : NetM.exec env (handleRead buf.length r) s with
      | mk result s' =>
          rw [hr] at hrun
          cases result with
          | error e =>
              rw [NetM.exec_bind_error env.feeding hrun, NetM.exec_bind_error env hr,
                NetM.effects_bind_error env.feeding hrun, NetM.effects_bind_error env hr, htrace]
              exact ⟨rfl, hkeep⟩
          | ok a =>
              obtain ⟨ihexec, iheff⟩ := ih buf' s'
              rw [hlen] at ihexec iheff
              rw [NetM.exec_bind env.feeding hrun, NetM.exec_bind env hr,
                NetM.effects_bind env.feeding hrun, NetM.effects_bind env hr, htrace]
              refine ⟨ihexec, ?_⟩
              rw [List.filter_cons_of_neg (by simp [NetOp.isRead]), List.filter_append, hkeep,
                iheff]

/-- From the start of the loop on. -/
theorem ipcRxLoop_refines (env : NetEnv abi σ)
    (reads : List (Option (List UInt8))) (s : σ) :
    (NetM.exec env.feeding (ipcRxLoop reads.length) (s, reads)).1 =
        (NetM.exec env (handleReads (1 + abi.hciMsgBufferMaxSize) reads)
          (env .eventWait s).2).1 ∧
      (NetM.effects env.feeding (ipcRxLoop reads.length) (s, reads)).filter
          (fun o => !o.isRead) =
        .eventWait :: NetM.effects env (handleReads (1 + abi.hciMsgBufferMaxSize) reads)
          (env .eventWait s).2 := by
  have h := rxReads_refines env reads
    (List.replicate (1 + abi.hciMsgBufferMaxSize) 0) (env .eventWait s).2
  rw [List.length_replicate] at h
  refine ⟨h.1, ?_⟩
  rw [← h.2]
  rfl

end NrfHciUsb
