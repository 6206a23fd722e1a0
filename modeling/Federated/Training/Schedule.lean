/-
  Federated.Training.Schedule

  Learning rate schedules: the rate of an epoch is ten to an exponent that goes from the
  logarithm of the start rate to that of the end rate, once per period. With `r` restarts the
  epochs are split into `r + 1` equal periods.

  The exponent is written over any scalar and any cosine; the phase within a period is an exact
  remainder.
-/
import Federated.Config.Basic

namespace Federated

namespace SchedulePlan

/-- The exponent at a phase of a period, between the logarithms of both rates. `halfTurn` is
    the cosine of half a turn's share that its first argument is of its second. -/
def exponent {β : Type} [Scalar β] (plan : SchedulePlan) (halfTurn : β → β → β)
    (start stop period phase : β) : β :=
  let two : β := Scalar.ofCount 2
  match plan with
  | .logLinear => (stop - start) / period * phase + start
  | .logCosine =>
    (halfTurn phase period / two + Scalar.one / two) * Scalar.abs (start - stop) + stop

end SchedulePlan

/-- A schedule that has been checked. -/
structure Schedule where
  /-- Epochs from one start to the next. -/
  period : Float
  /-- The logarithms of both rates. -/
  start : Float
  stop : Float
  plan : SchedulePlan

namespace Schedule

/-- Half a turn. -/
def pi : Float := Float.ofBits 0x400921fb54442d18

/-- The cosine of half a turn's share that `phase` is of `period`. -/
def halfTurn (phase period : Float) : Float := Float.cos (pi * phase / period)

/-- The epochs from one start to the next. -/
def periodOf (epochs restarts : Nat) : Float :=
  doubleOfCount epochs / doubleOfCount (restarts + 1)

/-- A schedule over a number of epochs. -/
def ofRates (epochs : Nat) (startRate endRate : Float32) (plan : SchedulePlan) (restarts : Nat) :
    Except (ConfigError Float32) Schedule := do
  if epochs = 0 then throw (.schedule .noEpochs)
  if epochs ≤ restarts then throw (.schedule (.restarts restarts epochs))
  OptimizerSpec.requirePositive .startRate startRate
  OptimizerSpec.requirePositive .endRate endRate
  return ⟨periodOf epochs restarts, Float.log10 (widen startRate), Float.log10 (widen endRate),
    plan⟩

/-- The epochs since the last start. -/
def phase (s : Schedule) (epoch : Nat) : Float := remainder (doubleOfCount epoch) s.period

/-- The learning rate of an epoch. -/
def rate (s : Schedule) (epoch : Nat) : Float32 :=
  narrow (Float.pow (doubleOfCount 10)
    (s.plan.exponent halfTurn s.start s.stop s.period (s.phase epoch)))

end Schedule

end Federated
