import Surds.Main
import Surds.PerfectPower.Basic
import Surds.Proofs.Calculator
import Surds.Proofs.Numeral
import Surds.Proofs.PerfectPower.Exact
import Surds.Proofs.PerfectPower.Multiplicity
import Surds.Proofs.PerfectPower.Residue
import Surds.Proofs.PerfectPower.Rounds
import Surds.Proofs.PerfectPower.SmallPart
import Surds.Proofs.PerfectPower.Width
import Surds.Proofs.Power.Addition
import Surds.Proofs.Power.Copies
import Surds.Proofs.Power.Doubling
import Surds.Proofs.Power.Exact
import Surds.Proofs.Power.Integer
import Surds.Proofs.Power.Rational
import Surds.Proofs.Power.Reciprocal
import Surds.Proofs.Power.Refusal
import Surds.Proofs.Power.Shape
import Surds.Proofs.Root
import Surds.Proofs.Runs
import Surds.Proofs.Scalar.Laws
import Surds.Proofs.Scalar.Order
import Surds.Proofs.Scalar.Power
import Surds.Proofs.Scalar.Reading
import Surds.Proofs.Scalar.Representation
import Surds.Proofs.Scalar.Root
import Surds.Proofs.Scalar.RoundTrip
import Surds.Proofs.Surd.Addition
import Surds.Proofs.Surd.Canonical
import Surds.Proofs.Surd.Carry
import Surds.Proofs.Surd.Decoding
import Surds.Proofs.Surd.Exponents
import Surds.Proofs.Surd.Fold
import Surds.Proofs.Surd.Form
import Surds.Proofs.Surd.Grouping
import Surds.Proofs.Surd.Opposite
import Surds.Proofs.Surd.Parts
import Surds.Proofs.Surd.Refusal
import Surds.Proofs.Surd.Roots
import Surds.Proofs.Trust.Circulation
import Surds.Proofs.Trust.Scalar
import Surds.Proofs.Trust.Surd
import Surds.Scalar.Hash
import Surds.Scalar.Order
import Surds.Scalar.Root
import Surds.Surd.Order
