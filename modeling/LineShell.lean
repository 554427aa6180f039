import LineShell.Main
import LineShell.Proofs.Line.Failure
import LineShell.Proofs.Line.Quotation
import LineShell.Proofs.Line.RoundTrip
import LineShell.Proofs.Line.Backtracking
import LineShell.Proofs.Line.Viable
import LineShell.Proofs.FileSystem.Tree
import LineShell.Proofs.FileSystem.Walk
import LineShell.Proofs.FileSystem.Place
import LineShell.Proofs.FileSystem.Canonical
import LineShell.Proofs.Machine.Work
import LineShell.Proofs.Session.Builtin
import LineShell.Proofs.Session.Directory
import LineShell.Proofs.Session.Line
import LineShell.Proofs.Session.Change
import LineShell.Proofs.Session.Footprint
import LineShell.Proofs.Session.Directories
import LineShell.Proofs.Session.History
import LineShell.Proofs.Session.Lookup
import LineShell.Proofs.Session.Prefix
import LineShell.Proofs.Session.Privacy
import LineShell.Proofs.Session.Strictness
import LineShell.Proofs.Session.Conversation
import LineShell.Proofs.FileSystem.Permanence
import LineShell.Proofs.Session.Stack
import LineShell.Proofs.Line.Boundary
import LineShell.Proofs.Line.Bounds
import LineShell.Proofs.Line.Names
import LineShell.Proofs.Line.Scanner
import LineShell.Proofs.Parser.Position
import LineShell.Proofs.Word.Interpolation
import LineShell.Proofs.Word.Literal
import LineShell.Proofs.Word.Fusion
import LineShell.Proofs.Expansion.Escaping
import LineShell.Proofs.Expansion.Order
import LineShell.Proofs.Session.Candidates
import LineShell.Proofs.Session.Assignments
import LineShell.Proofs.Session.Export
