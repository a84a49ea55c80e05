import Spectrahedron.BoundedTrace
import Spectrahedron.Environment
import Spectrahedron.Exact
import Spectrahedron.Feasibility.Search
import Spectrahedron.Text.Journal
import Spectrahedron.Text.Matrix
import Spectrahedron.Proofs.Convergence
import Spectrahedron.Proofs.Decomposition
import Spectrahedron.Proofs.Direction
import Spectrahedron.Proofs.Reciprocals
import Spectrahedron.Proofs.Restarts
import Spectrahedron.Proofs.Ritz
import Spectrahedron.Proofs.Smoothness
import Spectrahedron.Proofs.Soundness
import Spectrahedron.Proofs.TopPair
import Spectrahedron.Proofs.Totality
import Spectrahedron.Proofs.Violation
import Spectrahedron.Proofs.Brackets
import Spectrahedron.Proofs.ClosedForm
import Spectrahedron.Proofs.Completeness
import Spectrahedron.Proofs.Shift
import Spectrahedron.Proofs.Prefixes
import Spectrahedron.Proofs.Operations
import Spectrahedron.Proofs.Overrides
import Spectrahedron.Proofs.Layout
