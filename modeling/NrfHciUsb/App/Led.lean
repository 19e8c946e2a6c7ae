import Mathlib.Data.Nat.Notation
import NrfHciUsb.Support.Machine

/-!
# App — Led

`app/src/led.rs`: the colours, the duty cycles that show them, and `led_task`, which waits for
`LED_STATE`.

Of the `Signal` of `embassy_sync` it is assumed that `signal` overwrites a value that nobody has
waited for, and that `wait` blocks while there is none and takes the one there is.

`Led.due_run`: whatever is signalled and however `led_task` is scheduled, the colour signalled last
is the one that is shown, or is about to be.
-/

namespace NrfHciUsb
open Support

inductive LedColor where
  | off
  | red
  | green
  | blue
  | yellow
  | cyan
  | magenta
  | white
  deriving DecidableEq, Repr

/-- `MAX_DUTY`. -/
def maxDuty : ℕ := 1000

/-- `BRIGHTNESS`. -/
def brightness : ℕ := 80

/-- `channel_bits`: red, green and blue. -/
def channelBits : LedColor → Bool × Bool × Bool
  | .off => (false, false, false)
  | .red => (true, false, false)
  | .green => (false, true, false)
  | .blue => (false, false, true)
  | .yellow => (true, true, false)
  | .cyan => (false, true, true)
  | .magenta => (true, false, true)
  | .white => (true, true, true)

/-- The duty cycles of the three channels, of `maxDuty`. -/
abbrev Pwm := Fin 3 → ℕ

def Pwm.setDuty (pwm : Pwm) (ch : Fin 3) (value : ℕ) : Pwm := Function.update pwm ch value

/-- `set_color`. -/
def setColor (pwm : Pwm) (color : LedColor) : Pwm :=
  let bits := channelBits color
  let pwm := pwm.setDuty 0 (if bits.1 then brightness else 0)
  let pwm := pwm.setDuty 1 (if bits.2.1 then brightness else 0)
  pwm.setDuty 2 (if bits.2.2 then brightness else 0)

/-- What a colour looks like. -/
def LedColor.duties (color : LedColor) : Pwm := setColor (fun _ => 0) color

/-- Every channel is set, so nothing is left of the colour before. -/
theorem setColor_eq (pwm : Pwm) (color : LedColor) : setColor pwm color = color.duties := by
  funext ch
  match ch with
  | 0 | 1 | 2 => rfl

theorem LedColor.duties_le (color : LedColor) (ch : Fin 3) : color.duties ch ≤ maxDuty := by
  have hdim : ∀ bit : Bool, (if bit then brightness else 0) ≤ maxDuty := by decide
  match ch with
  | 0 | 1 | 2 => exact hdim _

/-! ### The task -/

/-- `LED_STATE`, and what `led_task` has set. -/
structure Led where
  signal : Option LedColor
  pwm : Pwm

/-- A task signals a colour, or `wait()` returns in `led_task`. -/
inductive LedAct where
  | signal (color : LedColor)
  | wait
  deriving DecidableEq, Repr

def Led.step (s : Led) : LedAct → Option Led
  | .signal color => some { s with signal := some color }
  | .wait => s.signal.map fun color => { signal := none, pwm := setColor s.pwm color }

/-- From the first `set_color` of `led_task` on. -/
def led : Machine Led LedAct where
  init := { signal := none, pwm := setColor (fun _ => 0) .off }
  step := Led.step

/-- The colours signalled. -/
def signalled : List LedAct → List LedColor
  | [] => []
  | .signal color :: as => color :: signalled as
  | .wait :: as => signalled as

/-- The colour is shown, or waits for `led_task`. -/
def Led.Due (s : Led) (color : LedColor) : Prop :=
  s.signal = some color ∨ s.signal = none ∧ s.pwm = color.duties

theorem Led.due_init : led.init.Due .off := .inr ⟨rfl, rfl⟩

theorem Led.Due.wait {s s' : Led} {color : LedColor} (h : s.Due color)
    (hs : led.step s .wait = some s') : s'.Due color := by
  obtain ⟨color', hsignal, rfl⟩ := Option.map_eq_some_iff.mp hs
  rcases h with hdue | ⟨hnone, -⟩
  · rw [hdue] at hsignal
    cases hsignal
    exact .inr ⟨rfl, setColor_eq _ _⟩
  · rw [hnone] at hsignal
    cases hsignal

/-- **The colour signalled last** is shown, or waits for `led_task`. -/
theorem Led.due_run {as : List LedAct} {s s' : Led} {color : LedColor} (h : s.Due color)
    (hrun : led.runFrom s as = some s') : s'.Due ((signalled as).getLastD color) := by
  induction as generalizing s color with
  | nil =>
      cases hrun
      exact h
  | cons a as ih =>
      obtain ⟨s₁, hs, hrest⟩ := Option.bind_eq_some_iff.mp hrun
      cases a with
      | signal color' =>
          cases hs
          rw [signalled, List.getLastD_cons]
          exact ih (.inl rfl) hrest
      | wait => exact ih (h.wait hs) hrest

end NrfHciUsb
