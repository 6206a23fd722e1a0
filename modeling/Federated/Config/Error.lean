/-
  Federated.Config.Error

  Faults of a training configuration, found while it is read, checked, or put to use.
-/
import Federated.Numeric.Notation
import Federated.WorkerId

namespace Federated

/-- The hyperparameters that are checked by value. -/
inductive Hyperparameter where
  | learningRate
  | beta1
  | beta2
  | epsilon
  | momentum
  | startRate
  | endRate
  deriving DecidableEq

/-- The name of a hyperparameter in messages. -/
def Hyperparameter.name : Hyperparameter → String
  | .learningRate => "learning_rate"
  | .beta1 => "beta1"
  | .beta2 => "beta2"
  | .epsilon => "epsilon"
  | .momentum => "momentum"
  | .startRate => "lr_start"
  | .endRate => "lr_end"

/-- What is wrong with a learning rate schedule. -/
inductive ScheduleFault where
  | noEpochs
  | restarts (count epochs : Nat)
  /-- A fault in a caller's own words. -/
  | noted (text : String)
  deriving DecidableEq

/-- The words for a schedule's fault. -/
def ScheduleFault.message : ScheduleFault → String
  | .noEpochs => "the schedule spans no epoch"
  | .restarts count epochs =>
    countText count ++ " restarts do not fit in " ++ countText epochs ++ " epochs"
  | .noted text => text

/-- What is wrong with a configuration whose hyperparameters are of type `α`. -/
inductive ConfigError (α : Type) where
  /-- The interval between synchronizations must be at least one batch. -/
  | syncInterval (batches : Nat)
  /-- An interval in seconds must be representable and above zero. -/
  | waitInterval (seconds : Float)
  | noWorkers
  | emptyShard (worker : WorkerId)
  | hyperparameter (name : Hyperparameter) (value : α)
  /-- Walking the dataset several times per epoch leaves no epoch. -/
  | epochs (count repetitions : Nat)
  | repetitions
  | schedule (fault : ScheduleFault)
  /-- The file could not be read. -/
  | io (cause : String)
  /-- The text is no configuration. -/
  | parse

/-- The words for a faulty configuration. A text that is no configuration has no more to say
    than that. -/
def ConfigError.message : ConfigError Float32 → String
  | .syncInterval n => "sync interval must be positive, got " ++ countText n
  | .waitInterval seconds =>
    "wait interval must be a positive amount of seconds, got " ++ doubleText seconds
  | .noWorkers => "at least one worker is required"
  | .emptyShard worker => worker.name ++ " has no batches to train on"
  | .hyperparameter name value =>
    "invalid value " ++ singleText value ++ " for hyperparameter " ++ name.name
  | .epochs count times =>
    countText count ++ " epochs with " ++ countText times ++
      " dataset repetitions leaves no epoch to run"
  | .repetitions => "dataset repetitions must be at least one"
  | .schedule fault => "invalid learning rate schedule: " ++ fault.message
  | .io cause => "io error: " ++ cause
  | .parse => "parse error"

end Federated
