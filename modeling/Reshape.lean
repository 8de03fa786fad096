import Reshape.Main
import Reshape.Notice
import Reshape.Token.Spelling
import Reshape.Value.Place
import Reshape.Value.Relation
import Reshape.Proofs.Token.Cut
import Reshape.Proofs.Program.Grammar
import Reshape.Proofs.Program.RoundTrip
import Reshape.Proofs.Program.Rejection
import Reshape.Proofs.Program.Sequence
import Reshape.Proofs.Plan.Meaning
import Reshape.Proofs.Plan.Domain
import Reshape.Proofs.Plan.Composition
import Reshape.Proofs.Plan.Independence
import Reshape.Proofs.Plan.Nesting
import Reshape.Proofs.Plan.Alike
import Reshape.Proofs.Plan.Agreement
import Reshape.Proofs.Plan.Repetition
import Reshape.Proofs.Value.Places
import Reshape.Proofs.Value.Unordered
import Reshape.Proofs.Plan.Unordered
import Reshape.Proofs.Json.Unordered
import Reshape.Proofs.Value.Material
import Reshape.Proofs.Json.RoundTrip
import Reshape.Proofs.Plan.Material
import Reshape.Proofs.Value.Absorption
import Reshape.Proofs.Value.MeansSame
import Reshape.Proofs.Value.Gather
import Reshape.Proofs.Plan.Columns
import Reshape.Proofs.Plan.Regrouping
import Reshape.Proofs.Number.Rounding
import Reshape.Proofs.Number.Numeral
import Reshape.Proofs.Plan.Finite
import Reshape.Proofs.Token.Calls
import Reshape.Proofs.Command.Check
import Reshape.Proofs.Plan.Faults
import Reshape.Proofs.Program.Positions
import Reshape.Proofs.Descent.Bounds
