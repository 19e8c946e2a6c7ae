import NrfHciUsb.Net.Commands
import NrfHciUsb.Support.Checked
import NrfHciUsb.Support.Program

/-!
# Net — Effects

What the net core's loops do to the world around them, and the panics they can end in.  A function
of `net/src/main.rs` is a program over `NetOp`: calls into the SoftDevice Controller, packets
handed to `notify_app`, reads of the A→N ring and waits for its event.  A checked index or slice
that is out of bounds ends the program (`Panic`).

The SoftDevice Controller is a library outside the repository.  `SdcAbi` has the sizes its
bindings declare, and what its functions return is left to the environment a program runs in.
-/

namespace NrfHciUsb
open Support (Panic Prog)

/-- The sizes of the types `<fn>_t` and `<fn>_return_t` of the C bindings, and
`HCI_MSG_BUFFER_MAX_SIZE`. -/
structure SdcAbi where
  paramSize : SdcHciCmd → ℕ
  returnSize : SdcHciCmd → ℕ
  hciMsgBufferMaxSize : ℕ

/-- The sizes of the bindings, for those functions that the runs of this development call. -/
def someAbi : SdcAbi where
  paramSize
    | .leSetAdvEnable => 1
    | .leAcceptCisRequest | .leReadChannelMap => 2
    | _ => 0
  returnSize
    | .leReadChannelMap => 7
    | _ => 0
  hciMsgBufferMaxSize := 258

/-- What a call of `fn` leaves: its status, and the bytes of the return structure. -/
structure SdcReply (abi : SdcAbi) (fn : SdcHciCmd) where
  status : UInt8
  ret : Vector UInt8 (abi.returnSize fn)

inductive NetOp where
  /-- A call of `fn` with the bytes of its parameter structure, if it has one. -/
  | sdcHciCmd (fn : SdcHciCmd) (params : List UInt8)
  | hciDataPut (payload : List UInt8)
  | notifyApp (pkt : List UInt8)
  | ipcRecvFromApp (out : List UInt8)
  | eventWait
  deriving DecidableEq, Repr

/-- `hci_data_put` answers whether it succeeded, and a read of the ring as `rb_read` does. -/
@[reducible] def NetOp.Res (abi : SdcAbi) : NetOp → Type
  | .sdcHciCmd fn _ => SdcReply abi fn
  | .hciDataPut _ => Bool
  | .ipcRecvFromApp _ => Option ℕ × List UInt8
  | .notifyApp _ | .eventWait => Unit

abbrev NetM (abi : SdcAbi) := ExceptT Panic (Prog (NetOp.Res abi))

variable {abi : SdcAbi}

/-- An effect. -/
def effect (o : NetOp) : NetM abi (o.Res abi) := ExceptT.lift (Prog.access o)

def sdcHciCmd (fn : SdcHciCmd) (params : List UInt8) : NetM abi (SdcReply abi fn) :=
  effect (.sdcHciCmd fn params)

def hciDataPut (payload : List UInt8) : NetM abi Bool := effect (.hciDataPut payload)

def notifyApp (pkt : List UInt8) : NetM abi Unit := effect (.notifyApp pkt)

def ipcRecvFromApp (out : List UInt8) : NetM abi (Option ℕ × List UInt8) :=
  effect (.ipcRecvFromApp out)

def eventWait : NetM abi Unit := effect .eventWait

/-! ### Running a program -/

/-- What the outside answers to each effect, from one state of it to the next. -/
abbrev NetEnv (abi : SdcAbi) (σ : Type) := (o : NetOp) → σ → o.Res abi × σ

/-- A controller whose functions all succeed and return zeros. -/
def NetEnv.zeros (abi : SdcAbi) : NetEnv abi Unit
  | .sdcHciCmd fn _, s => (⟨0, Vector.replicate (abi.returnSize fn) 0⟩, s)
  | .hciDataPut _, s => (true, s)
  | .ipcRecvFromApp out, s => ((none, out), s)
  | .notifyApp _, s | .eventWait, s => ((), s)

namespace NetM

variable {σ α β : Type} (env : NetEnv abi σ)

/-- The result, or the panic, and the state of the outside after it. -/
def exec (x : NetM abi α) (s : σ) : Except Panic α × σ := Prog.run env x.run s

/-- The effects, in order. -/
def effects (x : NetM abi α) (s : σ) : List NetOp := Prog.trace env x.run s

@[simp] theorem exec_pure (a : α) (s : σ) : exec env (pure a : NetM abi α) s = (.ok a, s) := rfl

theorem run_bind (x : NetM abi α) (f : α → NetM abi β) :
    (x >>= f).run = x.run >>= fun r => ExceptT.bindCont f r := rfl

/-- A program that does not panic goes on with its result. -/
theorem exec_bind {x : NetM abi α} {s s' : σ} {a : α} (h : exec env x s = (.ok a, s'))
    (f : α → NetM abi β) : exec env (x >>= f) s = exec env (f a) s' := by
  rw [exec] at h
  rw [exec, run_bind, Prog.run_bind, h]
  rfl

theorem effects_bind {x : NetM abi α} {s s' : σ} {a : α} (h : exec env x s = (.ok a, s'))
    (f : α → NetM abi β) :
    effects env (x >>= f) s = effects env x s ++ effects env (f a) s' := by
  rw [exec] at h
  rw [effects, run_bind, Prog.trace_bind, h]
  rfl

/-- A program that panics does nothing more. -/
theorem exec_bind_error {x : NetM abi α} {s s' : σ} {e : Panic} (h : exec env x s = (.error e, s'))
    (f : α → NetM abi β) : exec env (x >>= f) s = (.error e, s') := by
  rw [exec] at h
  rw [exec, run_bind, Prog.run_bind, h]
  rfl

theorem effects_bind_error {x : NetM abi α} {s s' : σ} {e : Panic}
    (h : exec env x s = (.error e, s')) (f : α → NetM abi β) :
    effects env (x >>= f) s = effects env x s := by
  rw [exec] at h
  rw [effects, run_bind, Prog.trace_bind, h]
  exact List.append_nil _

theorem only_bind {P : NetOp → Prop} {x : NetM abi α} {f : α → NetM abi β}
    (hx : Prog.Only P x.run) (hf : ∀ a, Prog.Only P (f a).run) :
    Prog.Only P (x >>= f).run := by
  refine Prog.only_bind hx fun r => ?_
  cases r with
  | ok a => exact hf a
  | error e => trivial

@[simp] theorem exec_effect_bind (o : NetOp) (f : o.Res abi → NetM abi β) (s : σ) :
    exec env (effect o >>= f) s = exec env (f (env o s).1) (env o s).2 := rfl

@[simp] theorem effects_effect_bind (o : NetOp) (f : o.Res abi → NetM abi β) (s : σ) :
    effects env (effect o >>= f) s = o :: effects env (f (env o s).1) (env o s).2 := rfl

end NetM

end NrfHciUsb
