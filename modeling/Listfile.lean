import Listfile.Command.Inspect
import Listfile.Command.Survey
import Listfile.Main
import Listfile.Token.Cursor
import Listfile.Proofs.Lists
import Listfile.Proofs.Lexeme
import Listfile.Proofs.Scan
import Listfile.Proofs.Enclosed
import Listfile.Proofs.Blocks
import Listfile.Proofs.Alike
import Listfile.Proofs.Emit
import Listfile.Proofs.Settle
import Listfile.Proofs.Settled
import Listfile.Proofs.Spelling
import Listfile.Proofs.Items
import Listfile.Proofs.Written
import Listfile.Proofs.RoundTrip
import Listfile.Proofs.Nesting
import Listfile.Proofs.Formatting
import Listfile.Proofs.Definitions
import Listfile.Proofs.Comments
import Listfile.Proofs.Lossless
import Listfile.Proofs.Lexical
import Listfile.Proofs.Phrase
import Listfile.Proofs.Grammar
import Listfile.Proofs.Retained
import Listfile.Proofs.BlankLines
import Listfile.Proofs.Places
import Listfile.Proofs.Gist
import Listfile.Proofs.Seam
import Listfile.Proofs.Reports
import Listfile.Proofs.Locality
import Listfile.Proofs.Inside
import Listfile.Proofs.Descent
import Listfile.Proofs.Progress
import Listfile.Proofs.Wording
import Listfile.Proofs.Files
import Listfile.Proofs.Wrapping
import Listfile.Proofs.Columns
import Listfile.Proofs.Separation
import Listfile.Proofs.Checked
import Listfile.Proofs.Indentation
import Listfile.Proofs.Pruning
import Listfile.Proofs.Lines
import Listfile.Proofs.Placement
import Listfile.Proofs.Listing
import Listfile.Proofs.Operations
import Listfile.Proofs.Delimited
import Listfile.Proofs.Respacing
import Listfile.Proofs.Options
import Listfile.Proofs.Overrides
import Listfile.Proofs.Flags
import Listfile.Proofs.Lookup
import Listfile.Proofs.Stripping
