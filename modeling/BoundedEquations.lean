import BoundedEquations.Assignment
import BoundedEquations.Interval.CommonParts
import BoundedEquations.Proofs.Domain.Algebra
import BoundedEquations.Proofs.Domain.Counting
import BoundedEquations.Proofs.Graph.Simple
import BoundedEquations.Proofs.Graph.Contract
import BoundedEquations.Proofs.System.Building
import BoundedEquations.Proofs.CaseTree.Grafting
import BoundedEquations.Proofs.Problem.Calls
import BoundedEquations.Proofs.Problem.Alternatives
import BoundedEquations.Proofs.Problem.Declaration
import BoundedEquations.Proofs.Node.Invariant
import BoundedEquations.Proofs.Problem.Refusal
import BoundedEquations.Proofs.Domain.Cursor
import BoundedEquations.Proofs.Problem.Decision
import BoundedEquations.Proofs.Domain.Canonical
import BoundedEquations.Proofs.Graph.Alike
import BoundedEquations.Proofs.System.Extension
import BoundedEquations.Proofs.Problem.Safety
import BoundedEquations.Proofs.Problem.History
import BoundedEquations.Proofs.Traced
import BoundedEquations.Proofs.System.Alike
import BoundedEquations.Proofs.CaseTree.Alike
import BoundedEquations.Proofs.Problem.Observation
import BoundedEquations.Proofs.Problem.Order
import BoundedEquations.Proofs.Domain.Insertion
import BoundedEquations.Proofs.Domain.Construction
import BoundedEquations.Proofs.Graph.Pairs
import BoundedEquations.Proofs.Graph.Listing
import BoundedEquations.Proofs.System.Classes
import BoundedEquations.Proofs.System.Choice
import BoundedEquations.Proofs.System.Reports
import BoundedEquations.Proofs.System.Splits
import BoundedEquations.Proofs.Problem.Trials
import BoundedEquations.Proofs.System.Course
import BoundedEquations.Proofs.Interval.Arithmetic
import BoundedEquations.Proofs.Interval.CommonParts
import BoundedEquations.Proofs.Domain.SetAlgebra
import BoundedEquations.Proofs.Domain.Enumeration
import BoundedEquations.Proofs.Problem.Exhaustion
