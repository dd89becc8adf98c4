import CliffordT.BinFloat.Decimal
import CliffordT.BinFloat.Elementary
import CliffordT.BinFloat.Checked
import CliffordT.Fault
import CliffordT.Ring.Euclid
import CliffordT.Settings.Json
import CliffordT.Settings.Context
import CliffordT.Ring.Denominator
import CliffordT.Ring.Embedding
import CliffordT.Unitary.Basic
import CliffordT.Unitary.Numeric
import CliffordT.Unitary.Word
import CliffordT.Text.Fields
import CliffordT.Unitary.ClosedForm
import CliffordT.Unitary.Synthesis
import CliffordT.Grid.Embedding
import CliffordT.Plane.Checked
import CliffordT.Plane.Ellipse
import CliffordT.Grid.Skew
import CliffordT.Grid.Points
import CliffordT.Prime.Factor
import CliffordT.Prime.Root
import CliffordT.Report
import CliffordT.Approximation.Basic
import CliffordT.Approximation.Search
import CliffordT.Random.KeyHash
import CliffordT.Session.Basic
import CliffordT.Session.Batch
import CliffordT.CommandLine.Arguments
import CliffordT.CommandLine.Files
import CliffordT.CommandLine.Run
import CliffordT.Main
import CliffordT.Proofs.Norm.Completeness
import CliffordT.Proofs.Unitary.Synthesis
import CliffordT.Proofs.Unitary.Matrix
import CliffordT.Proofs.BinFloat.Scaled
import CliffordT.Proofs.BinFloat.Logarithm
import CliffordT.Proofs.BinFloat.CheckedAngle
import CliffordT.Proofs.BinFloat.Literal
import CliffordT.Proofs.Plane.Inclusion
import CliffordT.Proofs.Grid.Choice
import CliffordT.Proofs.Grid.Pair
import CliffordT.Proofs.Grid.Progress
import CliffordT.Proofs.Grid.Action
import CliffordT.Proofs.Session.Batch
import CliffordT.Proofs.Grid.Completeness
import CliffordT.Proofs.Grid.Rim
import CliffordT.Proofs.Approximation.Candidates
import CliffordT.Proofs.Unitary.Rounds
import CliffordT.Proofs.Unitary.Simplification
import CliffordT.Proofs.Unitary.TableText
import CliffordT.Proofs.Session.History
import CliffordT.Proofs.Session.Denotation
import CliffordT.Proofs.Unitary.SimplifiedWord
import CliffordT.Proofs.BinFloat.CheckedRounding
import CliffordT.Proofs.Approximation.Found
import CliffordT.Proofs.Grid.Conjugation
import CliffordT.Proofs.Prime.Residue
import CliffordT.Proofs.Prime.Factors
import CliffordT.Proofs.Ring.Euclid
import CliffordT.Proofs.Ring.SquareRoot
import CliffordT.Proofs.Ring.Sign
import CliffordT.Proofs.Ring.Powers
import CliffordT.Proofs.Ring.Descriptions
import CliffordT.Proofs.Unitary.ClosedForm
import CliffordT.Proofs.Approximation.Coverage
import CliffordT.Proofs.Norm.Valuation
import CliffordT.Proofs.Unitary.Exponent
import CliffordT.Proofs.Unitary.TableReading
import CliffordT.Proofs.Norm.LeftoverUnit
