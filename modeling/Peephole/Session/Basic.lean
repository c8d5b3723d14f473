import Peephole.Graph.Edit
import Peephole.Session.Error
import Peephole.Session.Observer

/-!
# Editing sessions

A graph that is being looked at by rules is changed through a session.  A session
tells an observer of every change and remembers whether there was one.

`EditM` is the monad of edits.  An edit error keeps what was done before it, and a
fault does not.
-/

namespace Peephole

/-- A graph being edited. -/
structure Session where
  /-- The graph. -/
  graph : Graph
  /-- Who is told of changes. -/
  observer : Observer
  /-- Whether there was a change. -/
  mutated : Bool := false
  /-- Whether the work that this session is part of was asked to stop. -/
  stopRequested : Bool := false

/-- Edits, which may end in an edit error or in a fault. -/
abbrev EditM := ExceptT EditError (StateT Session (Except Fault))

namespace EditM

/-- Runs edits on a session: their answer, and the session after them. -/
def runOn {α : Type} (edits : EditM α) (s : Session) :
    Except Fault (Except EditError α × Session) := edits.run.run s

/-- The graph. -/
def graph : EditM Graph := return (← get).graph

/-- Asks a question of the graph. -/
def ask {α : Type} (question : Graph → Except Fault α) : EditM α := do
  question (← get).graph

/-- Puts a changed graph in place and tells the observer of the change. -/
def changed (g : Graph) (n : Notice) : EditM Unit := do
  let s ← get
  let observer ← s.observer.notify g n
  set { s with graph := g, observer, mutated := true }

/-- Asks the work that this session is part of to stop. -/
def requestStop : EditM Unit := modify fun s => { s with stopRequested := true }

/-! ## Insertion -/

/-- Makes an operation right before another one. -/
def insert (anchor : OpId) (d : Draft) : EditM OpId := do
  let (o, g) ← ask fun g => g.newOp d
  let g ← g.placeBefore anchor o
  changed g (.inserted o)
  return o

/-! ## Replacement and erasure -/

/-- Makes every slot that holds `old` hold `new`. -/
def redirectUses (old new : ValueId) : EditM Unit := do
  let g ← graph
  let users := g.readers old
  if old = new ∨ users = [] then return ()
  changed (← g.redirectUses old new) (.replaced old users)

/-- Tells the observer that operations are about to be erased. -/
def announceErasing (ops : List OpId) : EditM Unit := do
  let s ← get
  let observer ← ops.foldlM (fun observer o => observer.notify s.graph (.erasing o)) s.observer
  set { s with observer }

/-- Erases an operation whose results nobody reads, with what is nested in it. -/
def erase (o : OpId) : EditM Unit := do
  let g ← graph
  if !(← g.isLive o) then throwThe Fault (.alreadyErased o)
  let uses ← g.totalUses o
  if uses > 0 then throw (.stillRead o (← g.kind o) uses)
  announceErasing ((← g.nestedOps o) ++ [o])
  let erased ← g.erase o
  modify fun s => { s with graph := erased, mutated := true }

/-- Moves the uses of the results of an operation to other values, one for each, and
erases the operation. -/
def replace (o : OpId) (values : List ValueId) : EditM Unit := do
  let results ← ask fun g => g.results o
  if results.length ≠ values.length then
    throwThe Fault (.replacementCount o results.length values.length)
  for (old, new) in results.zip values do
    redirectUses old new
  erase o

end EditM

end Peephole
