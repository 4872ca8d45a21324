import Sema.Checking.Session
import Sema.Command.Workspace
import Sema.Main
import Sema.Proofs.Analysis.Lines
import Sema.Proofs.Analysis.Merging
import Sema.Proofs.Checking.Contents
import Sema.Proofs.Checking.Deduplication
import Sema.Proofs.Checking.Footprint
import Sema.Proofs.Checking.Heads
import Sema.Proofs.Checking.Histories
import Sema.Proofs.Checking.Isolation
import Sema.Proofs.Checking.Order
import Sema.Proofs.Checking.Plain
import Sema.Proofs.Checking.Programs
import Sema.Proofs.Checking.RenamedPrograms
import Sema.Proofs.Checking.Renaming
import Sema.Proofs.Checking.Unknown
import Sema.Proofs.Diagnostics.Submissions
import Sema.Proofs.Diagnostics.Texts
import Sema.Proofs.Parsing.BorrowedPlaces
import Sema.Proofs.Parsing.Closing
import Sema.Proofs.Parsing.ClosingBraces
import Sema.Proofs.Parsing.Dropping
import Sema.Proofs.Parsing.Layout
import Sema.Proofs.Parsing.Locations
import Sema.Proofs.Parsing.Progress
import Sema.Proofs.Parsing.Recovery
import Sema.Proofs.Parsing.ReportPlaces
import Sema.Proofs.Parsing.StraySemicolons
import Sema.Proofs.Parsing.Terminators
import Sema.Proofs.Parsing.ViablePrefixes
import Sema.Proofs.Syntax.Contents
