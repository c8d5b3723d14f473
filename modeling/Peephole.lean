import Peephole.Main
import Peephole.Proofs.Making
import Peephole.Script.Run
import Peephole.Proofs.Editing
import Peephole.Proofs.Edits
import Peephole.Proofs.Programs
import Peephole.Proofs.History
import Peephole.Proofs.Coherence
import Peephole.Proofs.Links
import Peephole.Proofs.Nesting
import Peephole.Proofs.Scopes
import Peephole.Proofs.Shapes
import Peephole.Proofs.Validity
import Peephole.Proofs.Availability
import Peephole.Proofs.Frames
import Peephole.Proofs.Preservation
import Peephole.Proofs.Tracking
import Peephole.Proofs.Formulas
import Peephole.Proofs.Reductions
import Peephole.Proofs.Surroundings
import Peephole.Proofs.Rules
import Peephole.Proofs.Runs
import Peephole.Proofs.Safety
import Peephole.Proofs.Meaning
import Peephole.Proofs.Quiet
import Peephole.Proofs.Marks
import Peephole.Proofs.Fixpoint
import Peephole.Proofs.Turns
import Peephole.Proofs.Weights
import Peephole.Proofs.Budgets
import Peephole.Proofs.Redexes
import Peephole.Proofs.Wakeups
import Peephole.Proofs.Linearity
import Peephole.Proofs.Completeness
import Peephole.Proofs.Ancestry
import Peephole.Proofs.UseLists
import Peephole.Proofs.Halting
import Peephole.Proofs.Termination
import Peephole.Proofs.Liveness
import Peephole.Proofs.Permanence
import Peephole.Proofs.LooseEnds
import Peephole.Proofs.Residues
import Peephole.Proofs.Bodies
import Peephole.Proofs.Construction
import Peephole.Proofs.Printing
import Peephole.Proofs.Isolation
import Peephole.Proofs.Notices
import Peephole.Proofs.Confinement
import Peephole.Proofs.Order
import Peephole.Proofs.Drains
import Peephole.Proofs.Rows
import Peephole.Proofs.Collapse
import Peephole.Proofs.FoldedSeries
import Peephole.Proofs.Unchanged
import Peephole.Proofs.Replacement
import Peephole.Proofs.Patches
import Peephole.Proofs.Rewrites
import Peephole.Proofs.Traversals
import Peephole.Proofs.Alarms
import Peephole.Proofs.Pieces
import Peephole.Proofs.Renaming
import Peephole.Proofs.Numbers
import Peephole.Proofs.Naming
import Peephole.Proofs.Interning
import Peephole.Proofs.Priority
import Peephole.Proofs.Logs
import Peephole.Proofs.Attention
