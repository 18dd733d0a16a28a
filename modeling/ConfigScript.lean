import ConfigScript.Main
import ConfigScript.Program.Printer
import ConfigScript.Proofs.Equivalence
import ConfigScript.Proofs.Comparison
import ConfigScript.Proofs.Batches
import ConfigScript.Proofs.Gates
import ConfigScript.Proofs.Phases
import ConfigScript.Proofs.Statements
import ConfigScript.Proofs.Lexemes
import ConfigScript.Proofs.Outcomes
import ConfigScript.Proofs.Replaced
import ConfigScript.Proofs.Values
import ConfigScript.Proofs.Splices
import ConfigScript.Proofs.Histories
import ConfigScript.Proofs.RoundTrip
import ConfigScript.Proofs.Unmasking
import ConfigScript.Proofs.Occurrences
import ConfigScript.Proofs.Restoring
import ConfigScript.Proofs.Kept
import ConfigScript.Proofs.Terminators
import ConfigScript.Proofs.Tracing
import ConfigScript.Proofs.Limits
import ConfigScript.Proofs.Printing
import ConfigScript.Proofs.PrintedPrograms
import ConfigScript.Proofs.MaskStates
import ConfigScript.Proofs.Genuine
import ConfigScript.Proofs.Rendered
import ConfigScript.Proofs.Relocated
import ConfigScript.Proofs.Seams
import ConfigScript.Proofs.Again
import ConfigScript.Proofs.Boundaries
import ConfigScript.Proofs.Shown
import ConfigScript.Proofs.Sources
import ConfigScript.Proofs.Searching
import ConfigScript.Proofs.EqualsSigns
import ConfigScript.Proofs.ControlCharacters
import ConfigScript.Proofs.Standalone
import ConfigScript.Proofs.Fields
import ConfigScript.Proofs.Transposes
import ConfigScript.Proofs.Subscripts
import ConfigScript.Proofs.Ranges
import ConfigScript.Proofs.JoinedPaths
import ConfigScript.Proofs.NextNumber
import ConfigScript.Proofs.Canonical
import ConfigScript.Proofs.Unmentioned
import ConfigScript.Proofs.BackupNames
import ConfigScript.Proofs.Weaving
import ConfigScript.Proofs.ErrorLines
