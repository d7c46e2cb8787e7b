import LetLang.Source
import LetLang.Proofs.Overflow
import LetLang.Proofs.Lookahead
import LetLang.Proofs.Statements
import LetLang.Proofs.Runs
import LetLang.Proofs.Segments
import LetLang.Proofs.Concatenation
import LetLang.Proofs.Synchronisation
import LetLang.Proofs.Rendering
import LetLang.Proofs.Chains
import LetLang.Proofs.RoundTrip
import LetLang.Proofs.Openings
import LetLang.Proofs.Failures
import LetLang.Proofs.EarliestError
import LetLang.Proofs.Blocks
import LetLang.Proofs.Lexemes
import LetLang.Proofs.Commands
import LetLang.Proofs.Accounts
import LetLang.Proofs.MainLoop
import LetLang.Proofs.Termination
import LetLang.Proofs.Climbing
import LetLang.Proofs.Sessions
import LetLang.Proofs.Cutoff
import LetLang.Proofs.Positions
import LetLang.Proofs.Patterns
import LetLang.Proofs.Seams
import LetLang.Proofs.Paths
import LetLang.Proofs.Signs
import LetLang.Proofs.Lines
import LetLang.Proofs.OneTokenAhead
import LetLang.Proofs.Frames
