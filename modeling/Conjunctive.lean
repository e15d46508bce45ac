import Conjunctive.Forest.Register
import Conjunctive.Main
import Conjunctive.Proofs.Evaluation.Answer
import Conjunctive.Proofs.Evaluation.Cyclic
import Conjunctive.Proofs.Evaluation.Consistency
import Conjunctive.Proofs.Hypergraph.Core
import Conjunctive.Proofs.Evaluation.FullReduction
import Conjunctive.Proofs.Evaluation.Order
import Conjunctive.Proofs.Evaluation.Selection
import Conjunctive.Proofs.Forest.Building
import Conjunctive.Proofs.Query.Layout
import Conjunctive.Proofs.Query.Grammar
import Conjunctive.Proofs.Query.Parse
import Conjunctive.Proofs.Query.Cutting
import Conjunctive.Proofs.Query.Quoting
import Conjunctive.Proofs.Query.Splitting
import Conjunctive.Proofs.Query.Display
import Conjunctive.Proofs.Query.Kept
import Conjunctive.Proofs.Query.Refusal
import Conjunctive.Proofs.Batch.Associativity
import Conjunctive.Proofs.Batch.Composition
import Conjunctive.Proofs.Outcome
import Conjunctive.Proofs.Relation.Rows
import Conjunctive.Proofs.Report.Siblings
import Conjunctive.Proofs.Evaluation.Conjunction
import Conjunctive.Proofs.Settings.Overlay
