import Bibstyle.Main
import Bibstyle.Session.Trace
import Bibstyle.Proofs.Execution
import Bibstyle.Proofs.Reduction
import Bibstyle.Proofs.Termination
import Bibstyle.Proofs.Locals
import Bibstyle.Proofs.Calls
import Bibstyle.Proofs.Drawing
import Bibstyle.Proofs.StackMachine
import Bibstyle.Proofs.Sessions
import Bibstyle.Proofs.Lockstep
import Bibstyle.Proofs.Making
import Bibstyle.Proofs.Operands
import Bibstyle.Proofs.Closedness
import Bibstyle.Proofs.Assignment
import Bibstyle.Proofs.Changes
import Bibstyle.Proofs.Bookkeeping
import Bibstyle.Proofs.Conduct
import Bibstyle.Proofs.Passages
import Bibstyle.Proofs.Faults
import Bibstyle.Proofs.Lexis
import Bibstyle.Proofs.Grammar
import Bibstyle.Proofs.Indifference
import Bibstyle.Proofs.ReadingBack
import Bibstyle.Proofs.Relevance
import Bibstyle.Proofs.Footprint
import Bibstyle.Proofs.Storing
import Bibstyle.Proofs.Pending
import Bibstyle.Proofs.LoopVariables
import Bibstyle.Proofs.Merging
import Bibstyle.Proofs.Literals
import Bibstyle.Proofs.Formulas
import Bibstyle.Proofs.Precedence
import Bibstyle.Proofs.NormalForm
import Bibstyle.Proofs.Braces
import Bibstyle.Proofs.Layout
import Bibstyle.Proofs.Building
import Bibstyle.Proofs.Meeting
import Bibstyle.Proofs.Equality
import Bibstyle.Proofs.Missing
import Bibstyle.Proofs.Counting
import Bibstyle.Proofs.Contracts
import Bibstyle.Proofs.Header
import Bibstyle.Proofs.Positions
import Bibstyle.Proofs.Extents
import Bibstyle.Proofs.Nesting
import Bibstyle.Proofs.Naming
import Bibstyle.Proofs.Quotation
import Bibstyle.Proofs.Margins
