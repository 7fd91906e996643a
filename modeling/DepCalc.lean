import DepCalc.Main
import DepCalc.Proofs.Fuel
import DepCalc.Proofs.Bare.Reduction
import DepCalc.Proofs.Bare.Typing
import DepCalc.Proofs.Erasure
import DepCalc.Proofs.Meaning
import DepCalc.Proofs.NormalForms
import DepCalc.Proofs.Outcome
import DepCalc.Proofs.Conversion
import DepCalc.Proofs.Inference
import DepCalc.Proofs.Preservation
import DepCalc.Proofs.Source.Grammar
import DepCalc.Proofs.Source.Parsing
import DepCalc.Proofs.Naming
import DepCalc.Proofs.Source.RoundTrip
import DepCalc.Proofs.Refusal
import DepCalc.Proofs.Weakening
import DepCalc.Proofs.Regularity
import DepCalc.Proofs.Scoping
import DepCalc.Proofs.NameIndependence
import DepCalc.Proofs.Universes
import DepCalc.Proofs.Idempotence
import DepCalc.Proofs.BinderNames
import DepCalc.Proofs.Instantiation
import DepCalc.Proofs.Rereading
import DepCalc.Proofs.Bare.Candidates
import DepCalc.Proofs.Bare.Validity
import DepCalc.Proofs.EnoughFuel
import DepCalc.Proofs.Termination
import DepCalc.Proofs.Insertion
import DepCalc.Proofs.ContextConversion
import DepCalc.Proofs.NormalResults
import DepCalc.Proofs.Division
import DepCalc.Proofs.Resolution
import DepCalc.Proofs.Text.Decoding
import DepCalc.Proofs.Source.Positions
import DepCalc.Proofs.ErrorReports
import DepCalc.Proofs.Numbered
import DepCalc.Proofs.Source.Outline
import DepCalc.Proofs.Lookalikes
import DepCalc.Proofs.Mismatches
import DepCalc.Proofs.Source.BoundNames
import DepCalc.Proofs.Substitution
import DepCalc.Proofs.Batches
import DepCalc.Proofs.Source.Layout
import DepCalc.Proofs.Source.Progress
import DepCalc.Proofs.DisplayedNames
import DepCalc.Proofs.Accounts
