import GrammarPaint.Presentation
import GrammarPaint.Text.Cursor
import GrammarPaint.Token.Walk
import GrammarPaint.Proofs.Acceptance
import GrammarPaint.Proofs.Colouring
import GrammarPaint.Proofs.Complaints
import GrammarPaint.Proofs.Drawing
import GrammarPaint.Proofs.LineEndings
import GrammarPaint.Proofs.Lookahead
import GrammarPaint.Proofs.Lossless
import GrammarPaint.Proofs.Naming
import GrammarPaint.Proofs.Repainting
import GrammarPaint.Proofs.Reporting
import GrammarPaint.Proofs.Restarting
import GrammarPaint.Proofs.Semicolons
import GrammarPaint.Proofs.Separators
import GrammarPaint.Proofs.Sites
import GrammarPaint.Proofs.Snippets
import GrammarPaint.Proofs.RawStrings
import GrammarPaint.Proofs.Openings
import GrammarPaint.Proofs.Comments
import GrammarPaint.Proofs.Numbers
import GrammarPaint.Proofs.LongestMatch
import GrammarPaint.Proofs.Punctuators
import GrammarPaint.Proofs.Words
import GrammarPaint.Proofs.Membership
import GrammarPaint.Proofs.Stepping
import GrammarPaint.Proofs.Walking
