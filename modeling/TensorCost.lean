import TensorCost.Config.Source
import TensorCost.Report.Json
import TensorCost.Session.Basic
import TensorCost.Tree
import TensorCost.PostOrder
import TensorCost.Proofs.Binding
import TensorCost.Proofs.Cost.Arithmetic
import TensorCost.Proofs.Cost.Breakdown
import TensorCost.Proofs.Cost.Detail
import TensorCost.Proofs.Cost.Footprint
import TensorCost.Proofs.Cost.Hotspots
import TensorCost.Proofs.Config.Outcome
import TensorCost.Proofs.Json.Report
import TensorCost.Proofs.Memo
import TensorCost.Proofs.OrderedSet.Runs
import TensorCost.Proofs.Session.Accounting
import TensorCost.Proofs.Session.History
import TensorCost.Proofs.Session.Identity
import TensorCost.Proofs.Session.Isolation
import TensorCost.Proofs.Session.KeptIndices
import TensorCost.Proofs.Session.LinearWork
import TensorCost.Proofs.Session.Refusal
import TensorCost.Proofs.Session.SoundNodes
