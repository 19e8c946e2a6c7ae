import NrfHciUsb.Support.Program

/-!
# Support — Thread

A thread that runs one call after another on a shared memory, an access at a time.  Between two
of its accesses the memory is anyone's; the return of a call is not an access, so it happens
with the last one.

* `Thread.step_eq_some`: a step is the next access of the call, and either leaves the rest of the
  call or ends it.
* `Thread.step_rel`: it is the same step on any memory that answers the access alike.
-/

namespace NrfHciUsb.Support

variable {Op σ ι α : Type} {Res : Op → Type}

/-- A thread between calls, or inside a call of `input` with `rest` to go. -/
inductive Thread (Res : Op → Type) (ι α : Type) where
  | idle
  | running (input : ι) (rest : Prog Res α)

/-- One access of a thread: the call's input, the access, and the call's result if it is the
last. -/
structure Thread.Event (Op ι α : Type) where
  input : ι
  op : Op
  result : Option α

namespace Thread

/-- What is left of a call: nothing once it has returned. -/
def settle (input : ι) : Prog Res α → Thread Res ι α × Option α
  | .ret a => (.idle, some a)
  | .vis o k => (.running input (.vis o k), none)

/-- A call begins. -/
def start (t : Thread Res ι α) (input : ι) (p : Prog Res α) : Option (Thread Res ι α) :=
  match t with
  | .idle => some (settle input p).1
  | .running _ _ => none

/-- The next access. -/
def nextOp : Thread Res ι α → Option Op
  | .running _ (.vis o _) => some o
  | _ => none

/-- The input of the call under way. -/
def input : Thread Res ι α → Option ι
  | .idle => none
  | .running i _ => some i

variable (perform : (o : Op) → σ → Res o × σ)

/-- One access of the call under way. -/
def step (t : Thread Res ι α) (s : σ) : Option (Event Op ι α × Thread Res ι α × σ) :=
  match t with
  | .running input (.vis o k) =>
      let r := settle input (k (perform o s).1)
      some (⟨input, o, r.2⟩, r.1, (perform o s).2)
  | _ => none

/-- A step is the next access of the call under way. -/
theorem step_eq_some {t t' : Thread Res ι α} {s s' : σ} {e : Event Op ι α}
    (h : step perform t s = some (e, t', s')) :
    ∃ k, t = .running e.input (.vis e.op k) ∧ s' = (perform e.op s).2 ∧
      (t', e.result) = settle e.input (k (perform e.op s).1) := by
  match t, h with
  | .running input (.vis o k), h =>
      simp only [step, Option.some.injEq, Prod.mk.injEq] at h
      obtain ⟨rfl, rfl, rfl⟩ := h
      exact ⟨k, rfl, rfl, rfl⟩

theorem step_running {input : ι} {o : Op} {k : Res o → Prog Res α} (s : σ) :
    step perform (.running input (.vis o k)) s =
      some (⟨input, o, (settle input (k (perform o s).1)).2⟩,
        (settle input (k (perform o s).1)).1, (perform o s).2) := rfl

/-- A call begins between calls. -/
theorem start_eq_some {t t' : Thread Res ι α} {input : ι} {p : Prog Res α}
    (h : t.start input p = some t') : t = .idle ∧ t' = (settle input p).1 := by
  cases t with
  | idle => cases h; exact ⟨rfl, rfl⟩
  | running i rest => cases h

/-- A call goes on with its input. -/
theorem settle_running {input j : ι} {p rest : Prog Res α}
    (h : (settle input p).1 = .running j rest) : j = input := by
  cases p with
  | ret a => cases h
  | vis o k => cases h; rfl

/-- After an access a call goes on, or it has returned. -/
theorem of_settle_none {input : ι} {p : Prog Res α} {t : Thread Res ι α}
    (h : (t, none) = settle input p) : ∃ rest, t = .running input rest := by
  cases p with
  | ret a => cases h
  | vis o k => cases h; exact ⟨_, rfl⟩

theorem input_settle (i : ι) (p : Prog Res α) :
    (settle i p).1.input = if (settle i p).2.isSome then none else some i := by
  cases p <;> rfl

/-- A call that returns leaves no input behind. -/
theorem step_input {t t' : Thread Res ι α} {s s' : σ} {e : Event Op ι α}
    (h : step perform t s = some (e, t', s')) :
    t.input = some e.input ∧ t'.input = if e.result.isSome then none else some e.input := by
  obtain ⟨k, rfl, -, hset⟩ := step_eq_some perform h
  have hinput := input_settle e.input (k (perform e.op s).1)
  rw [← hset] at hinput
  exact ⟨rfl, hinput⟩

theorem of_settle_some {input : ι} {p : Prog Res α} {t : Thread Res ι α} {a : α}
    (h : (t, some a) = settle input p) : t = .idle := by
  cases p with
  | ret a => cases h; rfl
  | vis o k => cases h

/-! ### Calls that return -/

/-- The call under way, if there is one, returns after at most `k` more accesses, whatever they
answer. -/
inductive Within : Thread Res ι α → ℕ → Prop where
  | idle : Within .idle 0
  | running (input : ι) (o : Op) (f : Res o → Prog Res α) (k : ℕ)
      (h : ∀ x, Prog.Within (f x) k) : Within (.running input (.vis o f)) (k + 1)

theorem within_settle {p : Prog Res α} {k : ℕ} (input : ι) (h : Prog.Within p k) :
    ∃ j ≤ k, (settle input p).1.Within j := by
  cases p with
  | ret a => exact ⟨0, Nat.zero_le _, .idle⟩
  | vis o f =>
      cases k with
      | zero => exact h.elim
      | succ k => exact ⟨k + 1, Nat.le_refl _, .running input o f k h⟩

theorem Within.step {t t' : Thread Res ι α} {s s' : σ} {e : Event Op ι α} {k : ℕ}
    (ht : t.Within k) (h : t.step perform s = some (e, t', s')) : ∃ j < k, t'.Within j := by
  cases ht with
  | idle => cases h
  | running input o f k hf =>
      rw [step_running] at h
      cases h
      obtain ⟨j, hj, hw⟩ := within_settle input (hf (perform o s).1)
      exact ⟨j, Nat.lt_succ_of_le hj, hw⟩

/-- A thread inside a call can go on. -/
theorem Within.exists_step {t : Thread Res ι α} {k : ℕ} (ht : t.Within k) (hne : t ≠ .idle)
    (s : σ) : ∃ e t' s', t.step perform s = some (e, t', s') ∧ t.input = some e.input := by
  cases ht with
  | idle => exact absurd rfl hne
  | running input o f k hf => exact ⟨_, _, _, step_running perform s, rfl⟩

/-! ### Threads on other memories -/

/-- Every access the call under way can still make satisfies `P`. -/
def Only (P : Op → Prop) : Thread Res ι α → Prop
  | .idle => True
  | .running _ rest => Prog.Only P rest

theorem only_settle {P : Op → Prop} {p : Prog Res α} (input : ι) (hp : Prog.Only P p) :
    Only P (settle input p).1 := by
  cases p with
  | ret a => trivial
  | vis o k => exact hp

theorem only_nextOp {P : Op → Prop} {t : Thread Res ι α} (h : t.Only P) {o : Op}
    (ho : t.nextOp = some o) : P o := by
  match t, h, ho with
  | .running _ (.vis _ _), h, rfl => exact h.1

/-- A step is the same step on any memory that answers its access alike. -/
theorem step_rel {τ : Type} {P : Op → Prop} {R : σ → τ → Prop}
    {perform' : (o : Op) → τ → Res o × τ}
    (hR : ∀ o s x, P o → R s x →
      (perform o s).1 = (perform' o x).1 ∧ R (perform o s).2 (perform' o x).2)
    {t t' : Thread Res ι α} {s s' : σ} {x : τ} {e : Event Op ι α} (ht : t.Only P) (hx : R s x)
    (h : step perform t s = some (e, t', s')) :
    P e.op ∧ t'.Only P ∧ s' = (perform e.op s).2 ∧
      ∃ x', step perform' t x = some (e, t', x') ∧ R s' x' := by
  match t, ht, h with
  | .running input (.vis o k), ht, h =>
      rw [step_running] at h
      cases h
      obtain ⟨hans, hnext⟩ := hR o s x ht.1 hx
      refine ⟨ht.1, only_settle input (ht.2 _), rfl, _, ?_, hnext⟩
      rw [step_running, ← hans]

end Thread

end NrfHciUsb.Support
