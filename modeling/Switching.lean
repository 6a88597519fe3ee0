import Switching.Circuit.Cone
import Switching.Circuit.Simulation
import Switching.Expr.Grammar
import Switching.Main
import Switching.Proofs.Expr.WrittenText
import Switching.Proofs.Synthesis
import Switching.Table.Canonical
import Switching.Proofs.Expr.Derivations
import Switching.Proofs.Expr.Lexemes
import Switching.Proofs.Circuit.Builder
import Switching.Proofs.Pla.Reordering
import Switching.Proofs.Pla.RoundTrip
import Switching.Proofs.Circuit.WrittenTrees
import Switching.Proofs.Circuit.OutputTrees
import Switching.Proofs.Circuit.Sharing
import Switching.Proofs.Expr.Height
import Switching.Proofs.Expr.Faults
import Switching.Proofs.Cover.Irredundance
import Switching.Proofs.Circuit.LiveGates
import Switching.Proofs.Circuit.DoubleNegations
import Switching.Proofs.Circuit.Realization
import Switching.Proofs.Cover.WrittenForms
import Switching.Proofs.Table.CanonicalForms
import Switching.Proofs.Circuit.Evaluation
import Switching.Proofs.Expr.Lookahead
import Switching.Proofs.Table.Edits
import Switching.Proofs.Cover.MinimalProducts
import Switching.Proofs.Cover.CyclicCore
import Switching.Proofs.Cube.Union
import Switching.Proofs.Table.RowForms
import Switching.Proofs.Expr.MissingVariables
