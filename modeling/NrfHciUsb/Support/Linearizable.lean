import Mathlib.Logic.Function.Basic
import NrfHciUsb.Support.Noninterference
import NrfHciUsb.Support.Simulation

/-!
# Support — Linearizable

Clients that call operations on one object, each making one call at a time.  The object is given
by what an operation does as a whole (`op`).

* `server`: the object that performs each call at one moment between its beginning and its return.
* `Linearizable`: what the clients see is something they can see of such an object.
* `Linearizable.sequential`: then there is a sequence of whole calls that explains it.  At each
  moment it has all the calls that have returned, with what they returned, and none that have not
  begun; from one moment to a later one it is only added to.
* `Server.At.shows`: several objects side by side are one object, which shows what any of them can
  show.
-/

namespace NrfHciUsb.Support

variable {D ι ρ σ : Type} [DecidableEq D]

/-- A client between calls, in one that is still to be performed, or in one that is still to
return. -/
inductive Port (ι ρ : Type) where
  | idle
  | called (c : ι)
  | answered (c : ι) (r : ρ)

/-- An object and its clients. -/
structure Server (D ι ρ σ : Type) where
  state : σ
  port : D → Port ι ρ

inductive ServerAct (D ι : Type) where
  | call (d : D) (c : ι)
  | perform (d : D)
  | reply (d : D)

/-- What can be seen of a call: its beginning and its return. -/
inductive CallEvent (D ι ρ : Type) where
  | call (d : D) (c : ι)
  | reply (d : D) (c : ι) (r : ρ)
  deriving DecidableEq, Repr

def Server.step (op : D → ι → σ → ρ × σ) (s : Server D ι ρ σ) :
    ServerAct D ι → Option (Server D ι ρ σ)
  | .call d c =>
      match s.port d with
      | .idle => some { s with port := Function.update s.port d (.called c) }
      | _ => none
  | .perform d =>
      match s.port d with
      | .called c =>
          some ⟨(op d c s.state).2, Function.update s.port d (.answered c (op d c s.state).1)⟩
      | _ => none
  | .reply d =>
      match s.port d with
      | .answered _ _ => some { s with port := Function.update s.port d .idle }
      | _ => none

def Server.shows (s : Server D ι ρ σ) : ServerAct D ι → List (CallEvent D ι ρ)
  | .call d c => [.call d c]
  | .perform _ => []
  | .reply d =>
      match s.port d with
      | .answered c r => [.reply d c r]
      | _ => []

def server (op : D → ι → σ → ρ × σ) (init : σ) : Machine (Server D ι ρ σ) (ServerAct D ι) where
  init := ⟨init, fun _ => .idle⟩
  step := Server.step op

/-- The calls look as if each were performed at one moment between its beginning and its return. -/
def Linearizable (op : D → ι → σ → ρ × σ) (init : σ) (es : List (CallEvent D ι ρ)) : Prop :=
  ∃ s, (server op init).Shows Server.shows (server op init).init es s

/-! ### The steps of the object -/

section Steps

variable {op : D → ι → σ → ρ × σ} {init : σ} {s : Server D ι ρ σ} {d : D} {c : ι} {r : ρ}

theorem server_call (h : s.port d = .idle) : (server op init).Shows Server.shows s [.call d c]
    { s with port := Function.update s.port d (.called c) } := by
  have hstep : (server op init).step s (.call d c) =
      some { s with port := Function.update s.port d (.called c) } := by
    simp [server, Server.step, h]
  exact .one hstep

theorem server_perform (h : s.port d = .called c) : (server op init).Shows Server.shows s []
    ⟨(op d c s.state).2, Function.update s.port d (.answered c (op d c s.state).1)⟩ := by
  have hstep : (server op init).step s (.perform d) =
      some ⟨(op d c s.state).2, Function.update s.port d (.answered c (op d c s.state).1)⟩ := by
    simp [server, Server.step, h]
  exact .one hstep

theorem server_reply (h : s.port d = .answered c r) :
    (server op init).Shows Server.shows s [.reply d c r]
      { s with port := Function.update s.port d .idle } := by
  have hstep : (server op init).step s (.reply d) =
      some { s with port := Function.update s.port d .idle } := by
    simp [server, Server.step, h]
  have hshow : s.shows (.reply d) = [.reply d c r] := by
    simp [Server.shows, h]
  rw [← hshow]
  exact .one hstep

/-- A call that is performed and returns at once. -/
theorem server_perform_reply (h : s.port d = .called c) :
    (server op init).Shows Server.shows s [.reply d c (op d c s.state).1]
      ⟨(op d c s.state).2, Function.update s.port d .idle⟩ := by
  have hreply := @server_reply D ι ρ σ _ op init
    ⟨(op d c s.state).2, Function.update s.port d (.answered c (op d c s.state).1)⟩ d c _
    (Function.update_self d _ s.port)
  rw [Function.update_idem] at hreply
  exact (server_perform h).trans hreply

end Steps

/-! ### The sequence of calls -/

/-- The calls of `d` that have begun. -/
def begun (d : D) (es : List (CallEvent D ι ρ)) : List ι :=
  es.filterMap fun
    | .call e c => if e = d then some c else none
    | .reply _ _ _ => none

/-- The calls of `d` that have returned, with their results. -/
def returned (d : D) (es : List (CallEvent D ι ρ)) : List (ι × ρ) :=
  es.filterMap fun
    | .call _ _ => none
    | .reply e c r => if e = d then some (c, r) else none

/-- The calls of `d` in a sequence of calls with their results. -/
def callsOf (d : D) (h : List (D × ι × ρ)) : List (ι × ρ) :=
  h.filterMap fun x => if x.1 = d then some x.2 else none

/-- Called one after the other from `init`, the calls return these results and leave `s`. -/
def Replays (op : D → ι → σ → ρ × σ) (init : σ) (h : List (D × ι × ρ)) (s : σ) : Prop :=
  runCalls op init (h.map fun x => (x.1, x.2.1)) = (h.map fun x => (x.1, x.2.2), s)

/-- Where a client is between what it has begun, what has returned and what was performed. -/
def Port.Between : Port ι ρ → List ι → List (ι × ρ) → List (ι × ρ) → Prop
  | .idle, b, r, h => r = h ∧ b = h.map Prod.fst
  | .called c, b, r, h => r = h ∧ b = h.map Prod.fst ++ [c]
  | .answered c x, b, r, h => r ++ [(c, x)] = h ∧ b = h.map Prod.fst

theorem Port.Between.prefixes {p : Port ι ρ} {b : List ι} {r h : List (ι × ρ)}
    (hp : p.Between b r h) : r <+: h ∧ h.map Prod.fst <+: b := by
  cases p with
  | idle =>
      obtain ⟨rfl, rfl⟩ := hp
      exact ⟨List.prefix_rfl, List.prefix_rfl⟩
  | called c =>
      obtain ⟨rfl, rfl⟩ := hp
      exact ⟨List.prefix_rfl, List.prefix_append _ _⟩
  | answered c x =>
      obtain ⟨rfl, rfl⟩ := hp
      exact ⟨List.prefix_append _ _, List.prefix_rfl⟩

section

variable {op : D → ι → σ → ρ × σ} {init : σ}

omit [DecidableEq D] in
theorem runCalls_concat (s : σ) (cs : List (D × ι)) (d : D) (c : ι) :
    runCalls op s (cs ++ [(d, c)]) =
      ((runCalls op s cs).1 ++ [(d, (op d c (runCalls op s cs).2).1)],
        (op d c (runCalls op s cs).2).2) := by
  induction cs generalizing s with
  | nil => rfl
  | cons x cs ih =>
      rw [List.cons_append, runCalls, ih, runCalls]
      rfl

omit [DecidableEq D] in
theorem Replays.concat {h : List (D × ι × ρ)} {s : σ} (hr : Replays op init h s) (d : D) (c : ι) :
    Replays op init (h ++ [(d, c, (op d c s).1)]) (op d c s).2 := by
  rw [Replays] at hr
  rw [Replays, List.map_append, List.map_append, List.map_singleton, List.map_singleton,
    runCalls_concat, hr]

/-- The calls `h` explain what was seen up to the state `s`. -/
structure Explains (op : D → ι → σ → ρ × σ) (init : σ) (s : Server D ι ρ σ)
    (es : List (CallEvent D ι ρ)) (h : List (D × ι × ρ)) : Prop where
  replays : Replays op init h s.state
  between : ∀ d, (s.port d).Between (begun d es) (returned d es) (callsOf d h)

variable {s s' : Server D ι ρ σ} {es es' : List (CallEvent D ι ρ)} {h : List (D × ι × ρ)}

theorem Explains.step (hx : Explains op init s es h) {a : ServerAct D ι}
    (hs : (server op init).step s a = some s') :
    ∃ more, Explains op init s' (es ++ s.shows a) (h ++ more) := by
  have hother : ∀ {d e : D} {p : Port ι ρ}, e ≠ d → Function.update s.port d p e = s.port e :=
    fun he => Function.update_of_ne he _ _
  cases a with
  | call d c =>
      change s.step op (.call d c) = some s' at hs
      rw [Server.step] at hs
      split at hs
      · rename_i hport
        cases hs
        refine ⟨[], by simpa using hx.replays, fun e => ?_⟩
        have hb := hx.between e
        by_cases he : e = d
        · subst he
          rw [hport] at hb
          simpa [Function.update_self, Port.Between, begun, returned, Server.shows] using hb
        · simpa [hother he, begun, returned, Server.shows, Ne.symm he] using hb
      · cases hs
  | perform d =>
      change s.step op (.perform d) = some s' at hs
      rw [Server.step] at hs
      split at hs
      · rename_i c hport
        cases hs
        refine ⟨[(d, c, (op d c s.state).1)], hx.replays.concat d c, fun e => ?_⟩
        have hb := hx.between e
        by_cases he : e = d
        · subst he
          rw [hport] at hb
          simpa [Function.update_self, Port.Between, callsOf, Server.shows] using hb
        · simpa [hother he, callsOf, Server.shows, Ne.symm he] using hb
      · cases hs
  | reply d =>
      change s.step op (.reply d) = some s' at hs
      rw [Server.step] at hs
      split at hs
      · rename_i c r hport
        cases hs
        refine ⟨[], by simpa using hx.replays, fun e => ?_⟩
        have hb := hx.between e
        by_cases he : e = d
        · subst he
          rw [hport] at hb
          simpa [Function.update_self, Port.Between, begun, returned, Server.shows, hport] using hb
        · simpa [hother he, begun, returned, Server.shows, hport, Ne.symm he] using hb
      · cases hs

theorem Explains.shows (hx : Explains op init s es h)
    (hs : (server op init).Shows Server.shows s es' s') :
    ∃ more, Explains op init s' (es ++ es') (h ++ more) := by
  induction hs generalizing es h with
  | refl => exact ⟨[], by simpa using hx⟩
  | step hst _ ih =>
      obtain ⟨more, hx'⟩ := hx.step hst
      obtain ⟨more', hx''⟩ := ih hx'
      exact ⟨more ++ more', by simpa using hx''⟩

theorem explains_init (op : D → ι → σ → ρ × σ) (init : σ) :
    Explains op init (server op init).init [] [] where
  replays := rfl
  between _ := ⟨rfl, rfl⟩

/-- **The sequence of calls.**  What is seen first, and then all of it, is explained by calls made
one after the other and by those and some more. -/
theorem Linearizable.sequential (hl : Linearizable op init (es ++ es')) :
    ∃ h more s s', Replays op init h s ∧ Replays op init (h ++ more) s' ∧
      ∀ d, returned d es <+: callsOf d h ∧ (callsOf d h).map Prod.fst <+: begun d es ∧
        returned d (es ++ es') <+: callsOf d (h ++ more) ∧
        (callsOf d (h ++ more)).map Prod.fst <+: begun d (es ++ es') := by
  have hone : ∀ (s : Server D ι ρ σ) a, (s.shows a).length ≤ 1 := by
    intro s a
    cases a with
    | call d c => exact Nat.le_refl _
    | perform d => exact Nat.zero_le _
    | reply d =>
        rw [Server.shows]
        split <;> simp
  obtain ⟨s', hs'⟩ := hl
  obtain ⟨s, hs, hrest⟩ := hs'.split hone
  obtain ⟨h, hx⟩ := (explains_init op init).shows hs
  obtain ⟨more, hx'⟩ := hx.shows hrest
  refine ⟨h, more, s.state, s'.state, by simpa using hx.replays, by simpa using hx'.replays, ?_⟩
  intro d
  obtain ⟨hret, hbeg⟩ := (hx.between d).prefixes
  obtain ⟨hret', hbeg'⟩ := (hx'.between d).prefixes
  simp only [List.nil_append] at hret hbeg hret' hbeg'
  exact ⟨hret, hbeg, hret', hbeg'⟩

end

/-! ### Objects side by side -/

section SideBySide

variable {K : Type} [DecidableEq K]

/-- A family of objects as one: a call is to one of them and leaves the others as they are. -/
def sideBySide (op : D → ι → σ → ρ × σ) (x : K × D) (c : ι) (s : K → σ) : ρ × (K → σ) :=
  ((op x.2 c (s x.1)).1, Function.update s x.1 (op x.2 c (s x.1)).2)

/-- What is seen of one of the objects, as seen of the family. -/
def CallEvent.at (k : K) : CallEvent D ι ρ → CallEvent (K × D) ι ρ
  | .call d c => .call (k, d) c
  | .reply d c r => .reply (k, d) c r

/-- In the state `u` of the family, the object `k` and its clients are in the state `t`. -/
structure Server.At (k : K) (u : Server (K × D) ι ρ (K → σ)) (t : Server D ι ρ σ) : Prop where
  state : u.state k = t.state
  port : ∀ d, u.port (k, d) = t.port d

variable {op : D → ι → σ → ρ × σ} {init : σ} {inits : K → σ} {k : K} {t t' : Server D ι ρ σ}
  {u : Server (K × D) ι ρ (K → σ)} {es : List (CallEvent D ι ρ)}

/-- A client's port changes, and with it the state of its object. -/
theorem Server.At.update (hu : u.At k t) (x : σ) (d : D) (p : Port ι ρ) :
    Server.At k ⟨Function.update u.state k x, Function.update u.port (k, d) p⟩
        ⟨x, Function.update t.port d p⟩ ∧
      ∀ j ≠ k, ∀ v, u.At j v →
        Server.At j ⟨Function.update u.state k x, Function.update u.port (k, d) p⟩ v := by
  refine ⟨⟨Function.update_self _ _ _, fun e => ?_⟩, fun j hj v hv => ⟨?_, fun e => ?_⟩⟩
  · dsimp only
    by_cases he : e = d
    · subst he
      rw [Function.update_self, Function.update_self]
    · rw [Function.update_of_ne he, Function.update_of_ne (by simpa using he), hu.port]
  · rw [← hv.state]
    exact Function.update_of_ne hj _ _
  · rw [← hv.port]
    exact Function.update_of_ne (by simp [hj]) _ _

theorem Server.At.step (hu : u.At k t) {a : ServerAct D ι}
    (hs : (server op init).step t a = some t') :
    ∃ u', (server (sideBySide op) inits).Shows Server.shows u ((t.shows a).map (.at k)) u' ∧
      u'.At k t' ∧ ∀ j ≠ k, ∀ v, u.At j v → u'.At j v := by
  have hsame : Function.update u.state k t.state = u.state := by
    rw [← hu.state, Function.update_eq_self]
  cases a with
  | call d c =>
      change t.step op (.call d c) = some t' at hs
      rw [Server.step] at hs
      split at hs
      · rename_i hport
        cases hs
        have hupd := hu.update t.state d (.called c)
        rw [hsame] at hupd
        exact ⟨_, server_call ((hu.port d).trans hport), hupd⟩
      · cases hs
  | perform d =>
      change t.step op (.perform d) = some t' at hs
      rw [Server.step] at hs
      split at hs
      · rename_i c hport
        cases hs
        have hperform := @server_perform _ _ _ _ _ (sideBySide op) inits u (k, d) c
          ((hu.port d).trans hport)
        rw [sideBySide, hu.state] at hperform
        exact ⟨_, hperform, hu.update _ d _⟩
      · cases hs
  | reply d =>
      change t.step op (.reply d) = some t' at hs
      rw [Server.step] at hs
      split at hs
      · rename_i c r hport
        cases hs
        have hupd := hu.update t.state d .idle
        rw [hsame] at hupd
        rw [Server.shows, hport]
        exact ⟨_, server_reply ((hu.port d).trans hport), hupd⟩
      · cases hs

/-- What one of the objects can show, the family can show, and the others stay as they are. -/
theorem Server.At.shows (h : (server op init).Shows Server.shows t es t') (hu : u.At k t) :
    ∃ u', (server (sideBySide op) inits).Shows Server.shows u (es.map (.at k)) u' ∧
      u'.At k t' ∧ ∀ j ≠ k, ∀ v, u.At j v → u'.At j v := by
  induction h generalizing u with
  | refl => exact ⟨u, .refl u, hu, fun _ _ _ h => h⟩
  | step hs _ ih =>
      obtain ⟨u₁, h₁, hu₁, hother₁⟩ := hu.step hs
      obtain ⟨u', h', hu', hother'⟩ := ih hu₁
      rw [List.map_append]
      exact ⟨u', h₁.trans h', hu', fun j hj v hv => hother' j hj v (hother₁ j hj v hv)⟩

end SideBySide

end NrfHciUsb.Support
