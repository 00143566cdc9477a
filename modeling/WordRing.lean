import WordRing.Bytes
import WordRing.Operator
import WordRing.Quantum
import WordRing.ByteRing
import WordRing.Error
import WordRing.Binary64
import WordRing.Text
import WordRing.Text.Digits
import WordRing.Text.Order
import WordRing.Text.Shortest
import WordRing.Text.Numeral
import WordRing.Text.Similar
import WordRing.Json
import WordRing.Json.Inspect
import WordRing.Json.Canonical
import WordRing.Json.Indented
import WordRing.Json.Reader
import WordRing.Hash.Sha256
import WordRing.Hash.ContentId
import WordRing.Random.Twister
import WordRing.Term
import WordRing.Term.Written
import WordRing.Term.Metrics
import WordRing.Term.Candidate
import WordRing.Term.Structure
import WordRing.Canonical.Rule
import WordRing.Canonical.Form
import WordRing.Evaluation
import WordRing.Address
import WordRing.Coherence.Law
import WordRing.Coherence.Sample
import WordRing.Coherence.Check
import WordRing.Grade
import WordRing.Derivation
import WordRing.Certificate
import WordRing.Receipt
import WordRing.Session
import WordRing.CommandLine.Arguments
import WordRing.CommandLine.Commands
import WordRing.Main
import WordRing.Proofs.Digits
import WordRing.Proofs.Numeral
import WordRing.Proofs.Written
import WordRing.Proofs.Operands
import WordRing.Proofs.Nodes
import WordRing.Proofs.Word
import WordRing.Proofs.Weight
import WordRing.Proofs.Value
import WordRing.Proofs.Conversion
import WordRing.Proofs.Residue
import WordRing.Proofs.Address
import WordRing.Proofs.Segment
import WordRing.Proofs.Canonical.Shape
import WordRing.Proofs.Canonical.Pass
import WordRing.Proofs.Canonical.Size
import WordRing.Proofs.Canonical.Settle
import WordRing.Proofs.Canonical.NormalForm
import WordRing.Proofs.Canonical.Limit
import WordRing.Proofs.Canonical.Variables
import WordRing.Proofs.Canonical.Rules
import WordRing.Proofs.Canonical.RuleOrder
import WordRing.Proofs.Canonical.Soundness
import WordRing.Proofs.Canonical.Ground
import WordRing.Proofs.Canonical.Joined
import WordRing.Proofs.Canonical.Spread
import WordRing.Proofs.Canonical.Readout
import WordRing.Proofs.Canonical.Steady
import WordRing.Proofs.Canonical.Compositional
import WordRing.Proofs.Canonical.Balanced
import WordRing.Proofs.Canonical.Uniform
import WordRing.Proofs.Canonical.Invariant
import WordRing.Proofs.Derivation
import WordRing.Proofs.Canonical.Ascending
import WordRing.Proofs.Unbound
import WordRing.Proofs.Level
import WordRing.Proofs.Rearranged
import WordRing.Proofs.Certificate
import WordRing.Proofs.Alike
import WordRing.Proofs.Coherence.Law
import WordRing.Proofs.Coherence.Walk
import WordRing.Proofs.Coherence.Check
import WordRing.Proofs.Coherence.Faulty
import WordRing.Proofs.CommandLine
import WordRing.Proofs.Coherence.Mode
import WordRing.Proofs.Session
import WordRing.Proofs.Structure
import WordRing.Proofs.Grammar
import WordRing.Proofs.Json
import WordRing.Proofs.Receipt
import WordRing.Proofs.ReceiptId
import WordRing.Proofs.ContentId
import WordRing.Proofs.Binary64
import WordRing.Proofs.Shortest
import WordRing.Proofs.Number
import WordRing.Proofs.Indented
import WordRing.Proofs.Printed
import WordRing.Proofs.Document
import WordRing.Proofs.DeriveCommand
