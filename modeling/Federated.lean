import Federated.Barrier.Hub
import Federated.CommandLine
import Federated.Main
import Federated.Model.Json
import Federated.Training.Trainer
import Federated.Proofs.Basic
import Federated.Proofs.Numeric.Single
import Federated.Proofs.Numeric.Nearest
import Federated.Proofs.Numeric.Values
import Federated.Proofs.Numeric.Data
import Federated.Proofs.Numeric.Machine
import Federated.Proofs.Numeric.Magnitude
import Federated.Proofs.Numeric.Double
import Federated.Proofs.Numeric.Exact
import Federated.Proofs.Model.Layout
import Federated.Proofs.Optimizer.Layout
import Federated.Proofs.Optimizer.Rates
import Federated.Proofs.Tensor.Basic
import Federated.Proofs.Averaging.Merge
import Federated.Proofs.Averaging.Weights
import Federated.Proofs.Averaging.Reference
import Federated.Proofs.Averaging.Shares
import Federated.Proofs.Averaging.Restriction
import Federated.Proofs.Averaging.Consensus
import Federated.Proofs.Barrier.Records
import Federated.Proofs.Barrier.Session
import Federated.Proofs.Barrier.Tickets
import Federated.Proofs.Barrier.Merges
import Federated.Proofs.Barrier.Answers
import Federated.Proofs.Barrier.InPlace
import Federated.Proofs.Barrier.Calls
import Federated.Proofs.Barrier.Freshness
import Federated.Proofs.Barrier.Board
import Federated.Proofs.Barrier.Refusal
import Federated.Proofs.Barrier.Prompt
import Federated.Proofs.Barrier.Served
import Federated.Proofs.Barrier.Waits
import Federated.Proofs.Barrier.Views
import Federated.Proofs.Barrier.Truthful
import Federated.Proofs.Training.Worker
import Federated.Proofs.Training.Script
import Federated.Proofs.Training.Protocol
import Federated.Proofs.Training.Seats
import Federated.Proofs.Training.Steady
import Federated.Proofs.Training.Preserved
import Federated.Proofs.Training.Runs
import Federated.Proofs.Training.Progress
import Federated.Proofs.Training.Ending
import Federated.Proofs.Training.Deadlock
import Federated.Proofs.Training.Start
import Federated.Proofs.Training.Clocks
import Federated.Proofs.Training.Cohort
import Federated.Proofs.Training.Confluence
import Federated.Proofs.Training.Counts
import Federated.Proofs.Training.Halting
import Federated.Proofs.Training.Traffic
import Federated.Proofs.Training.Failures
import Federated.Proofs.Training.Trail
import Federated.Proofs.Training.Rounds
import Federated.Proofs.Training.Plain
import Federated.Proofs.Training.Alone
import Federated.Proofs.Training.OneWorker
import Federated.Proofs.Training.Rates
import Federated.Proofs.Training.Schedule
import Federated.Proofs.Training.Touched
import Federated.Proofs.Training.Opening
import Federated.Proofs.Training.Custody
import Federated.Proofs.Training.Losses
import Federated.Proofs.Training.MeanLoss
import Federated.Proofs.Training.Observed
import Federated.Proofs.Sampling.Shard
import Federated.Proofs.Sampling.Walks
import Federated.Proofs.Sampling.Parts
import Federated.Proofs.Sampling.Batches
import Federated.Proofs.Training.Atomicity
import Federated.Proofs.Training.Coverage
import Federated.Proofs.Json.Numerals
import Federated.Proofs.Json.RoundTrip
import Federated.Proofs.Json.Fields
import Federated.Proofs.Model.RoundTrip
import Federated.Proofs.Config.RoundTrip
import Federated.Proofs.Training.Restarts
import Federated.Proofs.Training.Exponent
import Federated.Proofs.Numeric.Sums
import Federated.Proofs.Tensor.Matrix
import Federated.Proofs.Model.Parts
import Federated.Proofs.Model.Gradient
import Federated.Proofs.Optimizer.InPlace
import Federated.Proofs.Optimizer.Elements
import Federated.Proofs.Optimizer.Histories
import Federated.Proofs.Optimizer.Moments
import Federated.Proofs.Model.Assignment
import Federated.Proofs.Training.Safety
import Federated.Proofs.Optimizer.Velocity
import Federated.Proofs.Optimizer.Bank
import Federated.Proofs.Training.Construction
import Federated.Proofs.Json.Bindings
import Federated.Proofs.Config.Bindings
import Federated.Proofs.Model.Comparison
