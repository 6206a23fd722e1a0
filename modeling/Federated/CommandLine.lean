/-
  Federated.CommandLine

  The command line: an optional configuration file and an optional count of workers. It trains
  an affine model on synthetic samples of a known line.
-/
import Federated.Sampling.Initial
import Federated.Training.Trainer

namespace Federated

namespace CommandLine

/-! ## Arguments -/

/-- Why a text is no 64-bit count. -/
inductive CountFault where
  | empty
  | invalidDigit
  | tooLarge
  deriving DecidableEq

/-- The words for a text that is no count. -/
def CountFault.message : CountFault → String
  | .empty => "cannot parse integer from empty string"
  | .invalidDigit => "invalid digit found in string"
  | .tooLarge => "number too large to fit in target type"

/-- Reads digits behind those already read, and names the first that spoils the count. -/
def readDigits (n : Nat) : List Char → Except CountFault Nat
  | [] => .ok n
  | c :: cs =>
    match Digit.ofChar? c with
    | none => .error .invalidDigit
    | some d => if n * 10 + d.val ≤ countLimit then readDigits (n * 10 + d.val) cs
                else .error .tooLarge

/-- Reads a 64-bit count, which may have a plus sign. -/
def readCount (s : String) : Except CountFault Nat :=
  match s.toList with
  | [] => .error .empty
  | ['+'] => .error .invalidDigit
  | '+' :: cs => readDigits 0 cs
  | cs => readDigits 0 cs

/-- The contents of a file, or why it could not be read. -/
abbrev FileContent := Except String ByteArray

/-- Why a file that does not exist could not be read. -/
def missingFile : String := "No such file or directory (os error 2)"

/-- What the command line asks for. -/
structure Request where
  /-- The path of the configuration file and its content. -/
  config : Option (String × FileContent)
  workers : Option String

/-- The workers when none are asked for. -/
def defaultWorkers : Nat := 4

/-- The configuration when no file is given. -/
def defaultConfig : TrainingConfig where
  epochs := ⟨5, by decide⟩
  batchSize := ⟨32, by decide⟩
  seed := some 42
  optimizer := .momentum (narrow 0.05) (narrow 0.5)
  schedule := some { endRate := narrow 0.005, plan := .logCosine }
  federated := { syncEvery := 4, weighting := .proportional }

/-! ## Samples -/

/-- The number of synthetic samples. -/
def sampleCount : Nat := 2048

/-- The number of features of a sample. -/
def featureCount : Nat := 3

/-- The weights of the line that the samples lie on. -/
def trueWeights : Array Float32 := #[narrow 3, narrow (-2), narrow 0.5]

/-- Where the line crosses zero. -/
def trueBias : Float32 := narrow 0.25

/-- The largest distance of a sample from the line. -/
def noiseBound : Float32 := narrow 0.05

/-- The label of a sample: its value on the line and its noise. -/
def label (features noise : Matrix Float32) (i : Nat) : Float32 :=
  let term (j : Nat) : Float32 :=
    features.data.getD (i * featureCount + j) 0 * trueWeights.getD j 0
  Scalar.sum featureCount (fun j => term j.val) + trueBias + noise.data.getD i 0

/-- `n` samples of a known line with noise, their features spread evenly around zero. -/
def samples (g : Generator) (n : Nat) : Dataset Float32 × Generator :=
  let bound := singleOfCount 1
  let features := Matrix.random g (-bound) bound n featureCount
  let noise := Matrix.random features.2 (-noiseBound) noiseBound n 1
  (⟨features.1, Matrix.ofFn n 1 fun i _ => label features.1 noise.1 i.val, rfl⟩, noise.2)

/-! ## The program -/

/-- A chain of texts, each the cause of the one before. -/
abbrev Failure := List String

/-- What a run of the program tells: the progress it noted, and what ended it early if it was. -/
structure Transcript where
  notes : List String
  halt : Option (Halt Failure)

/-- The exit code of a run; one that broke off at a defect has its own. -/
def Transcript.exitCode (t : Transcript) : Nat :=
  match t.halt with
  | none => 0
  | some (.error _) => 1
  | some (.defect _) => 101

/-- The chain of a failed run; any other run has none. -/
def Transcript.failure (t : Transcript) : Failure :=
  match t.halt with
  | some (.error failure) => failure
  | _ => []

/-- The chain of a faulty configuration. -/
def configFailure (e : ConfigError Float32) : Failure := e.message :: e.causes

/-- The configuration that is asked for. -/
def configOf (r : Request) : Except Failure TrainingConfig :=
  match r.config with
  | none => (defaultConfig.validate.map fun _ => defaultConfig).mapError configFailure
  | some (path, content) =>
    let read : Except (ConfigError Float32) TrainingConfig := match content with
      | .error cause => .error (.io cause)
      | .ok bytes => TrainingConfig.ofBytes bytes
    read.mapError fun e => ("loading config from " ++ path) :: configFailure e

/-- The count of workers that is asked for. -/
def workersOf (r : Request) : Except Failure Nat :=
  match r.workers with
  | none => .ok defaultWorkers
  | some s => (readCount s).mapError fun e => ["parsing the amount of workers", e.message]

/-- A loss in a note, with six decimals. -/
def noteLoss (x : Float32) : String := (singleValue x).fixedText 6

/-- The note at the start of training. -/
def startNote (workers : Nat) (t : Trainer) : String :=
  "training on " ++ countText sampleCount ++ " samples across " ++ countText workers ++
    " workers for " ++ countText t.epochs.val ++ " epochs"

/-- The note at the end of an epoch. -/
def epochNote (s : EpochSummary) : String :=
  "train epoch " ++ countText (s.epoch + 1) ++ " loss " ++ noteLoss s.loss

/-- The note at the end of training. -/
def finalNote (summaries : List EpochSummary) : List String :=
  match summaries.getLast? with
  | none => []
  | some s => ["final loss " ++ noteLoss s.loss]

/-- The chain of a failed training. -/
def trainingFailure (e : FederatedError Float32) : Failure := e.message :: e.causes

/-- What a training run tells. -/
def tell (first : String) (run : TrainingRun) : Transcript :=
  let notes := first :: run.summaries.map epochNote
  match run.halt with
  | none => ⟨notes ++ finalNote run.summaries, none⟩
  | some halt => ⟨notes, some (halt.map trainingFailure)⟩

/-- Trains on the synthetic samples. -/
def train (config : TrainingConfig) (workers : Nat) : Except (Halt Failure) Transcript := do
  let drawn := samples (Generator.ofSeed (config.seed.getD 0)) sampleCount
  let model := (← (Affine.random drawn.2 featureCount 1).mapError Halt.defect).1
  let trainer ← (Trainer.ofConfig config).mapError (Halt.error ∘ configFailure)
  let loaders ← (trainer.shardLoaders drawn.1 workers).mapError Halt.defect
  return tell (startNote workers trainer) (trainer.fit model loaders)

/-- Runs the program. -/
def run (r : Request) : Transcript :=
  let outcome : Except (Halt Failure) Transcript := do
    let config ← (configOf r).mapError Halt.error
    let workers ← (workersOf r).mapError Halt.error
    train config workers
  match outcome with
  | .ok t => t
  | .error halt => ⟨[], some halt⟩

/-- The text of a failure: its head, and the causes below it, numbered if there are several. -/
def failureText : Failure → String
  | [] => "Error"
  | [head] => "Error: " ++ head
  | [head, cause] => "Error: " ++ head ++ "\n\nCaused by:\n    " ++ cause
  | head :: causes =>
    let rows := causes.zipIdx.map fun e => "\n    " ++ countText e.2 ++ ": " ++ e.1
    "Error: " ++ head ++ "\n\nCaused by:" ++ String.join rows

end CommandLine

end Federated
