import Mathlib.Data.Nat.Notation
import Mathlib.Logic.Function.Basic

/-!
# Support — Program

Programs as trees of accesses to a shared memory.  A `Prog` either returns a value or performs
one access and continues with its answer, so one definition of an operation serves for whole calls
(`Prog.run`, and `Prog.trace` for the accesses it makes) and for threads that interleave an access
at a time.

* `Prog.run_bind`, `Prog.trace_bind`: programs run one after the other.
* `Prog.run_rel`: a program runs alike in memories that answer its accesses alike; so a program
  whose accesses are to one part of the memory runs as if that were all of it (`Prog.run_frame`,
  `Prog.trace_frame`).
* `Prog.run_preserves`, `Prog.run_ensures`: what holds after every access, and of every value the
  program can return.
* `Prog.exists_interfered`: a program with a bound on its accesses returns, whatever others do to
  the memory between them.
-/

namespace NrfHciUsb.Support

/-- A program over accesses `Op`, an access `o` being answered by a value of `Res o`. -/
inductive Prog {Op : Type} (Res : Op → Type) (α : Type) where
  | ret (a : α)
  | vis (o : Op) (k : Res o → Prog Res α)

namespace Prog

variable {Op σ α β : Type} {Res : Op → Type}

protected def bind : Prog Res α → (α → Prog Res β) → Prog Res β
  | .ret a, f => f a
  | .vis o k, f => .vis o fun x => (k x).bind f

instance : Monad (Prog Res) where
  pure := .ret
  bind := Prog.bind

protected theorem bind_ret (p : Prog Res α) : p.bind .ret = p := by
  induction p with
  | ret a => rfl
  | vis o k ih => exact congrArg (vis o) (funext ih)

protected theorem bind_assoc {γ : Type} (p : Prog Res α) (f : α → Prog Res β)
    (g : β → Prog Res γ) : (p.bind f).bind g = p.bind fun a => (f a).bind g := by
  induction p with
  | ret a => rfl
  | vis o k ih => exact congrArg (vis o) (funext ih)

instance : LawfulMonad (Prog Res) :=
  LawfulMonad.mk' _ Prog.bind_ret (fun _ _ => rfl) Prog.bind_assoc

/-- One access. -/
def access (o : Op) : Prog Res (Res o) := .vis o .ret

variable (perform : (o : Op) → σ → Res o × σ)

/-- The whole program, from one memory to the next. -/
def run : Prog Res α → σ → α × σ
  | .ret a, s => (a, s)
  | .vis o k, s => run (k (perform o s).1) (perform o s).2

/-- The accesses of the whole program, in order. -/
def trace : Prog Res α → σ → List Op
  | .ret _, _ => []
  | .vis o k, s => o :: trace (k (perform o s).1) (perform o s).2

/-- The same, each with its answer. -/
def history : Prog Res α → σ → List ((o : Op) × Res o)
  | .ret _, _ => []
  | .vis o k, s => ⟨o, (perform o s).1⟩ :: history (k (perform o s).1) (perform o s).2

@[simp] theorem run_pure (a : α) (s : σ) : run perform (pure a : Prog Res α) s = (a, s) := rfl

@[simp] theorem run_access (o : Op) (s : σ) :
    run perform (access o : Prog Res (Res o)) s = perform o s := rfl

theorem run_vis (o : Op) (k : Res o → Prog Res α) (s : σ) :
    run perform (.vis o k) s = run perform (k (perform o s).1) (perform o s).2 := rfl

@[simp] theorem run_bind (p : Prog Res α) (f : α → Prog Res β) (s : σ) :
    run perform (p >>= f) s = run perform (f (run perform p s).1) (run perform p s).2 := by
  show run perform (p.bind f) s = _
  induction p generalizing s with
  | ret a => rfl
  | vis o k ih => exact ih _ _

@[simp] theorem trace_vis (o : Op) (k : Res o → Prog Res α) (s : σ) :
    trace perform (.vis o k) s = o :: trace perform (k (perform o s).1) (perform o s).2 := rfl

@[simp] theorem trace_bind (p : Prog Res α) (f : α → Prog Res β) (s : σ) :
    trace perform (p >>= f) s =
      trace perform p s ++ trace perform (f (run perform p s).1) (run perform p s).2 := by
  show trace perform (p.bind f) s = _
  induction p generalizing s with
  | ret a => rfl
  | vis o k ih => exact congrArg (o :: ·) (ih _ _)

@[simp] theorem run_map (f : α → β) (p : Prog Res α) (s : σ) :
    run perform (f <$> p) s = (f (run perform p s).1, (run perform p s).2) := by
  rw [map_eq_pure_bind, run_bind, run_pure]

/-! ### The frame rule -/

/-- Every access the program can make satisfies `P`. -/
def Only (P : Op → Prop) : Prog Res α → Prop
  | .ret _ => True
  | .vis o k => P o ∧ ∀ x, Only P (k x)

theorem only_bind {P : Op → Prop} {p : Prog Res α} {f : α → Prog Res β} (hp : Only P p)
    (hf : ∀ a, Only P (f a)) : Only P (p >>= f) := by
  show Only P (p.bind f)
  induction p with
  | ret a => exact hf a
  | vis o k ih => exact ⟨hp.1, fun x => ih x (hp.2 x)⟩

theorem only_map {P : Op → Prop} {p : Prog Res α} (f : α → β) (hp : Only P p) :
    Only P (f <$> p) := by
  rw [map_eq_pure_bind]
  exact only_bind hp fun _ => trivial

theorem only_mono {P Q : Op → Prop} (h : ∀ o, P o → Q o) {p : Prog Res α} (hp : Only P p) :
    Only Q p := by
  induction p with
  | ret a => trivial
  | vis o k ih => exact ⟨h o hp.1, fun x => ih x (hp.2 x)⟩

theorem forall_trace {P : Op → Prop} {p : Prog Res α} (hp : Only P p) (s : σ) :
    ∀ o ∈ trace perform p s, P o := by
  induction p generalizing s with
  | ret a => exact fun _ h => absurd h List.not_mem_nil
  | vis o k ih =>
      intro o' h
      rcases List.mem_cons.mp h with rfl | h
      · exact hp.1
      · exact ih _ (hp.2 _) _ _ h

/-- What every access the program can make preserves, a run preserves. -/
theorem run_preserves {P : Op → Prop} {I : σ → Prop}
    (hI : ∀ o s, P o → I s → I (perform o s).2) {p : Prog Res α} (hp : Only P p) {s : σ}
    (hs : I s) : I (run perform p s).2 := by
  induction p generalizing s with
  | ret a => exact hs
  | vis o k ih => exact ih _ (hp.2 _) (hI o s hp.1 hs)

/-- Memories that answer every access the program can make alike, and remain related, give it the
same run. -/
theorem run_rel {τ : Type} {P : Op → Prop} {R : σ → τ → Prop} {perform' : (o : Op) → τ → Res o × τ}
    (hR : ∀ o s t, P o → R s t →
      (perform o s).1 = (perform' o t).1 ∧ R (perform o s).2 (perform' o t).2)
    {p : Prog Res α} (hp : Only P p) {s : σ} {t : τ} (hst : R s t) :
    (run perform p s).1 = (run perform' p t).1 ∧
      R (run perform p s).2 (run perform' p t).2 ∧ trace perform p s = trace perform' p t := by
  induction p generalizing s t with
  | ret a => exact ⟨rfl, hst, rfl⟩
  | vis o k ih =>
      obtain ⟨hans, hnext⟩ := hR o s t hp.1 hst
      obtain ⟨hres, hend, htrace⟩ := ih (perform o s).1 (hp.2 _) hnext
      rw [run_vis, run_vis, trace_vis, trace_vis, ← hans]
      exact ⟨hres, hend, congrArg (o :: ·) htrace⟩

variable {τ : Type} {P : Op → Prop} {perform' : (o : Op) → σ × τ → Res o × (σ × τ)}

/-- A program that makes only accesses to one part of the memory runs as if that were all of it,
and leaves the other part alone. -/
theorem run_frame (hP : ∀ o s t, P o → perform' o (s, t) = ((perform o s).1, (perform o s).2, t))
    {p : Prog Res α} (hp : Only P p) (s : σ) (t : τ) :
    run perform' p (s, t) = ((run perform p s).1, (run perform p s).2, t) := by
  obtain ⟨hres, hend, -⟩ := run_rel perform' (R := fun st s => st = (s, t))
    (fun o st s hPo hst => by rw [hst, hP o s t hPo]; exact ⟨rfl, rfl⟩) hp rfl
  exact Prod.ext hres hend

theorem trace_frame (hP : ∀ o s t, P o → perform' o (s, t) = ((perform o s).1, (perform o s).2, t))
    {p : Prog Res α} (hp : Only P p) (s : σ) (t : τ) :
    trace perform' p (s, t) = trace perform p s :=
  (run_rel perform' (R := fun st s => st = (s, t))
    (fun o st s hPo hst => by rw [hst, hP o s t hPo]; exact ⟨rfl, rfl⟩) hp rfl).2.2

/-! ### What a program can return -/

/-- Whatever the accesses answer, the value returned satisfies `Q`. -/
def Ensures (Q : α → Prop) : Prog Res α → Prop
  | .ret a => Q a
  | .vis _ k => ∀ x, Ensures Q (k x)

theorem ensures_bind {Q : α → Prop} {Q' : β → Prop} {p : Prog Res α} {f : α → Prog Res β}
    (hp : Ensures Q p) (hf : ∀ a, Q a → Ensures Q' (f a)) : Ensures Q' (p >>= f) := by
  show Ensures Q' (p.bind f)
  induction p with
  | ret a => exact hf a hp
  | vis o k ih => exact fun x => ih x (hp x)

theorem ensures_mono {Q Q' : α → Prop} (h : ∀ a, Q a → Q' a) {p : Prog Res α}
    (hp : Ensures Q p) : Ensures Q' p := by
  induction p with
  | ret a => exact h a hp
  | vis o k ih => exact fun x => ih x (hp x)

theorem ensures_of_forall {Q : α → Prop} (h : ∀ a, Q a) (p : Prog Res α) : Ensures Q p := by
  induction p with
  | ret a => exact h a
  | vis o k ih => exact ih

theorem ensures_map {Q : α → Prop} {Q' : β → Prop} {p : Prog Res α} {f : α → β}
    (hp : Ensures Q p) (hf : ∀ a, Q a → Q' (f a)) : Ensures Q' (f <$> p) := by
  rw [map_eq_pure_bind]
  exact ensures_bind hp fun a ha => hf a ha

theorem run_ensures {Q : α → Prop} {p : Prog Res α} (hp : Ensures Q p) (s : σ) :
    Q (run perform p s).1 := by
  induction p generalizing s with
  | ret a => exact hp
  | vis o k ih => exact ih _ (hp _) _

/-! ### Interference -/

/-- The program with its accesses made one after the other to the memories `ms`, which are whatever
others have made of the memory by then; `none` if it has not returned when they are used up. -/
def interfered : Prog Res α → List σ → Option α
  | .ret a, _ => some a
  | .vis _ _, [] => none
  | .vis o k, s :: ms => interfered (k (perform o s).1) ms

/-- Whatever the accesses answer, the program makes at most `n` of them. -/
def Within : Prog Res α → ℕ → Prop
  | .ret _, _ => True
  | .vis _ _, 0 => False
  | .vis _ k, n + 1 => ∀ x, Within (k x) n

theorem within_mono {p : Prog Res α} {n n' : ℕ} (hp : Within p n) (h : n ≤ n') : Within p n' := by
  induction p generalizing n n' with
  | ret a => trivial
  | vis o k ih =>
      cases n with
      | zero => exact hp.elim
      | succ n =>
          obtain ⟨m, rfl⟩ : ∃ m, n' = m + 1 := ⟨n' - 1, by omega⟩
          exact fun x => ih x (hp x) (by omega)

theorem within_bind {p : Prog Res α} {f : α → Prog Res β} {n m : ℕ} (hp : Within p n)
    (hf : ∀ a, Within (f a) m) : Within (p >>= f) (n + m) := by
  show Within (p.bind f) (n + m)
  induction p generalizing n with
  | ret a => exact within_mono (hf a) (Nat.le_add_left _ _)
  | vis o k ih =>
      cases n with
      | zero => exact hp.elim
      | succ n =>
          rw [Nat.succ_add]
          exact fun x => ih x (hp x)

theorem within_map {p : Prog Res α} {n : ℕ} (f : α → β) (hp : Within p n) :
    Within (f <$> p) n := by
  rw [map_eq_pure_bind]
  exact within_bind (m := 0) hp fun _ => trivial

/-- A program that makes at most `n` accesses has returned after `n`, with one of the values it can
return, however the memory changes in between. -/
theorem exists_interfered {Q : α → Prop} {p : Prog Res α} {n : ℕ} (hp : Within p n)
    (hq : Ensures Q p) {ms : List σ} (h : n ≤ ms.length) :
    ∃ a, interfered perform p ms = some a ∧ Q a := by
  induction p generalizing n ms with
  | ret a => exact ⟨a, rfl, hq⟩
  | vis o k ih =>
      cases n with
      | zero => exact hp.elim
      | succ n =>
          cases ms with
          | nil => exact absurd h (Nat.not_succ_le_zero n)
          | cons s ms => exact ih _ (hp _) (hq _) (Nat.le_of_succ_le_succ h)

end Prog

end NrfHciUsb.Support
