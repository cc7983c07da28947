import Monkey.Command
import Monkey.Eval.Depth
import Monkey.Main
import Monkey.Value.Outline
import Monkey.Proofs.Grammar
import Monkey.Proofs.Grammar.Reads
import Monkey.Proofs.Grammar.Sound
import Monkey.Proofs.Grammar.Complete
import Monkey.Proofs.Keeps
import Monkey.Proofs.Frame
import Monkey.Proofs.Reach
import Monkey.Proofs.Reference
import Monkey.Proofs.Reference.Sound
import Monkey.Proofs.Reference.Complete
import Monkey.Proofs.Grammar.Leaves
import Monkey.Proofs.Lexeme
import Monkey.Proofs.Lexeme.Written
import Monkey.Proofs.Canonical
import Monkey.Proofs.Rendered
import Monkey.Proofs.Lexical
import Monkey.Proofs.Lexical.Run
import Monkey.Expr.Names
import Monkey.Proofs.Renaming
import Monkey.Proofs.Mirror
import Monkey.Proofs.Growth
import Monkey.Proofs.Grounded
import Monkey.Proofs.Alike
import Monkey.Proofs.Purity
import Monkey.Proofs.Unread
import Monkey.Proofs.Covered
import Monkey.Proofs.Joined
import Monkey.Proofs.Lines
import Monkey.Proofs.Dialogue
import Monkey.Proofs.Script
import Monkey.Proofs.Events
import Monkey.Proofs.Events.Places
import Monkey.Proofs.Reported
import Monkey.Proofs.Inert
import Monkey.Proofs.Continued
import Monkey.Proofs.Entries
import Monkey.Proofs.Arithmetic
import Monkey.Proofs.Arrays
import Monkey.Proofs.Ledger
import Monkey.Proofs.Identity
import Monkey.Proofs.Inspected
import Monkey.Proofs.FirstOrder
import Monkey.Proofs.History
