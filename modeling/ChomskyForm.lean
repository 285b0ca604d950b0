import ChomskyForm.Grammar.Derivation
import ChomskyForm.Grammar.NormalForm
import ChomskyForm.Grammar.Samples
import ChomskyForm.Session
import ChomskyForm.Language
import ChomskyForm.Command.Directory
import ChomskyForm.Main
import ChomskyForm.Proofs.Preservation
import ChomskyForm.Proofs.Recognition
import ChomskyForm.Proofs.Normalization
import ChomskyForm.Proofs.Budget
import ChomskyForm.Proofs.Language
import ChomskyForm.Proofs.WellFormed
import ChomskyForm.Proofs.UndefinedStart
import ChomskyForm.Proofs.Session
import ChomskyForm.Proofs.FixedPoint
import ChomskyForm.Proofs.Lines
import ChomskyForm.Proofs.Scan
import ChomskyForm.Proofs.Reading
import ChomskyForm.Proofs.StandardInput
import ChomskyForm.Proofs.Rendered
import ChomskyForm.Proofs.SameRules
import ChomskyForm.Proofs.KeptMapping
import ChomskyForm.Proofs.PairSteps
import ChomskyForm.Proofs.RowWalk
import ChomskyForm.Proofs.Lexing
import ChomskyForm.Proofs.LineGrammar
import ChomskyForm.Proofs.Spacing
import ChomskyForm.Proofs.Declared
import ChomskyForm.Proofs.Places
import ChomskyForm.Proofs.EmptyStart
import ChomskyForm.Proofs.UnitClosure
import ChomskyForm.Proofs.Variants
