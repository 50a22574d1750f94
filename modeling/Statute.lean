import Statute.Main
import Statute.Source.Encode
import Statute.Json.Writer
import Statute.Proofs.Machine.Operands
import Statute.Proofs.Machine.Cooperation
import Statute.Proofs.Statement.Refinement
import Statute.Proofs.Concurrency.Exclusion
import Statute.Proofs.Concurrency.Claiming
import Statute.Proofs.Concurrency.Updates
import Statute.Proofs.Concurrency.Closing
import Statute.Proofs.Vm.Faults
import Statute.Proofs.Concurrency.Escape
import Statute.Proofs.Concurrency.Bounds
import Statute.Proofs.Machine.Turns
import Statute.Proofs.Machine.Isolation
import Statute.Proofs.Source.RoundTrip
import Statute.Proofs.Concurrency.Checked
import Statute.Proofs.Registry.Hierarchy
import Statute.Proofs.Session.Places
import Statute.Proofs.Machine.Unwinding
import Statute.Proofs.Expression.Meaning
import Statute.Proofs.Concurrency.Catching
import Statute.Proofs.Concurrency.Deferral
import Statute.Proofs.Machine.Checkpoints
import Statute.Proofs.Machine.Binding
import Statute.Proofs.Concurrency.Rethrowing
import Statute.Proofs.Concurrency.Inheritance
import Statute.Proofs.Expression.Rendering
import Statute.Proofs.Scope.Refinement
import Statute.Proofs.Machine.Repeating
import Statute.Proofs.Expression.Names
import Statute.Proofs.Value.Exactness
import Statute.Proofs.Value.Extremes
import Statute.Proofs.Session.Suggestions
