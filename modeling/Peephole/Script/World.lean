import Peephole.Graph.Function
import Peephole.Script.Step

/-!
# The world of a script

A script works on a graph and binds names to what it makes.  `ScriptM` is the monad of
that work.  The statements of a function or a block are done here, one after the other
at the end of the block, and a branch around the statements of its body.
-/

namespace Peephole.Script

/-- What a script works on. -/
structure World where
  /-- The graph. -/
  graph : Graph
  /-- The names bound so far. -/
  names : Names

/-- Work of a script.  What was done before an unresolved expression stays done. -/
abbrev ScriptM := OptionT (StateT World (Except Fault))

/-- The world at the start, with the path of unknown locations interned. -/
def World.start : World := ⟨Graph.empty.nowhere.2, {}⟩

/-- Asks a question that may have no answer. -/
def asking {α : Type} (question : Scope → Resolve α) : ScriptM α := do
  let w ← get
  let answer ← (question { graph := w.graph, names := w.names }).run
  OptionT.mk (return answer)

/-- Asks a question of the graph. -/
def ask {α : Type} (question : Graph → Except Fault α) : ScriptM α := do
  question (← get).graph

/-- Changes the graph and keeps the answer. -/
def change {α : Type} (act : Graph → Except Fault (α × Graph)) : ScriptM α := do
  let w ← get
  let (a, graph) ← act w.graph
  set { w with graph }
  return a

/-- Changes the names. -/
def rename (f : Names → Names) : ScriptM Unit := modify fun w => { w with names := f w.names }

/-- Binds an optional name to an operation. -/
def bindOp (name : Option String) (o : OpId) : ScriptM Unit := do
  match name with
  | none => return ()
  | some name =>
      let results ← ask fun g => g.results o
      rename fun ns => ns.bindOp name o results

/-- The location of a place, interned, or the unknown one. -/
def located (place : Option Place) : ScriptM Location :=
  change fun g =>
    match place with
    | some place =>
        let (path, g) := g.intern place.path
        return (⟨path, place.start, place.stop⟩, g)
    | none => return g.nowhere

mutual

/-- The paths that a statement mentions. -/
def Stmt.paths : Stmt → List String
  | .locate place => [place.path]
  | .branch _ _ _ _ body => stmtPaths body
  | _ => []

/-- The paths that statements mention, in order. -/
def stmtPaths : List Stmt → List String
  | [] => []
  | s :: rest => s.paths ++ stmtPaths rest

end

/-- Interns the paths that statements mention. -/
def internPaths (body : List Stmt) : ScriptM Unit :=
  modify fun w => { w with graph := w.graph.internAll (stmtPaths body) }

mutual

/-- Does a statement at the end of a block.  Gives the current source location after
it. -/
def Stmt.build (b : BlockId) (l : Location) : Stmt → ScriptM Location
  | .add spec name => do
      let draft ← asking fun s => spec.draft s l
      let o ← change fun g => g.appendOp b draft
      bindOp name o
      return l
  | .addAtBlock spec name => do
      let home := (← ask fun g => g.block b).location
      let draft ← asking fun s => spec.draft s home
      let o ← change fun g => g.appendOp b draft
      bindOp name o
      return l
  | .locate place => located (some place)
  | .branch condition types name names body => do
      let condition ← asking condition.eval
      let inner ← change fun g =>
        let (inner, _, g) := g.openBlock [] l
        return (inner, g)
      buildAll inner l body
      let o ← change fun g => g.closeBranch b l condition types inner
      bindOp name o
      let results ← ask fun g => g.results o
      rename fun ns => ns.bindValues names results
      return l

/-- Does statements at the end of a block. -/
def buildAll (b : BlockId) (l : Location) : List Stmt → ScriptM Unit
  | [] => return ()
  | s :: rest => do
      let l ← s.build b l
      buildAll b l rest

end

end Peephole.Script
