import RuneSolver.Main
import RuneSolver.Proofs.Word
import RuneSolver.Proofs.Grammar.Enumeration
import RuneSolver.Proofs.Grammar.Listing
import RuneSolver.Proofs.Grammar.Attempts
import RuneSolver.Proofs.Grammar.Overflow
import RuneSolver.Proofs.Grammar.Rule
import RuneSolver.Proofs.Grammar.Replacements
import RuneSolver.Proofs.Formula.Token
import RuneSolver.Proofs.Formula.Expression
import RuneSolver.Proofs.Formula.Postfix
import RuneSolver.Proofs.Number.Primes
import RuneSolver.Proofs.Number.Totient
import RuneSolver.Proofs.Language.Frequencies
import RuneSolver.Proofs.Language.Windows
import RuneSolver.Proofs.Double.Rounding
import RuneSolver.Proofs.Double.Packing
import RuneSolver.Proofs.Double.Arithmetic
import RuneSolver.Proofs.Double.Order
import RuneSolver.Proofs.Double.Monotone
import RuneSolver.Proofs.Language.Smoothing
import RuneSolver.Proofs.Cipher.Passing
import RuneSolver.Proofs.Cipher.Reading
import RuneSolver.Proofs.Cipher.Translation
import RuneSolver.Proofs.Alphabet
import RuneSolver.Proofs.Alphabet.Lookup
import RuneSolver.Proofs.Alphabet.Written
import RuneSolver.Proofs.Cipher.Selection
import RuneSolver.Proofs.Cipher.Smoothing
import RuneSolver.Proofs.Cipher.Elimination
import RuneSolver.Proofs.Cipher.Shifting
import RuneSolver.Proofs.Equivalence.Earliest
import RuneSolver.Proofs.Grammar.Vocabulary
import RuneSolver.Proofs.Grammar.Derivation
import RuneSolver.Proofs.Grammar.Bundled
import RuneSolver.Proofs.Grammar.StackType
import RuneSolver.Proofs.Text.Occurrence
import RuneSolver.Proofs.Text.Slice
import RuneSolver.Proofs.Grammar.Shape
import RuneSolver.Proofs.Grammar.Cleaning
import RuneSolver.Proofs.Json.Reading
import RuneSolver.Proofs.Json.RoundTrip
import RuneSolver.Proofs.Disk.Writing
import RuneSolver.Proofs.Disk.Path
import RuneSolver.Proofs.Disk.Listing
import RuneSolver.Proofs.Settings.Validity
import RuneSolver.Proofs.Settings.Editing
import RuneSolver.Proofs.Settings.Reading
import RuneSolver.Proofs.Settings.Rebuilding
import RuneSolver.Proofs.Settings.JobFile
import RuneSolver.Proofs.Job.Generation
import RuneSolver.Proofs.CommandLine.Generation
import RuneSolver.Proofs.Cipher.Encryption
import RuneSolver.Proofs.Job.Progress
import RuneSolver.Proofs.Job.Percentage
import RuneSolver.Proofs.Job.Saturation
import RuneSolver.Proofs.Job.Schedule
import RuneSolver.Proofs.Job.Location
import RuneSolver.Proofs.Job.Selection
