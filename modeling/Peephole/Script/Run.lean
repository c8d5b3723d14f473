import Peephole.Graph.Printer
import Peephole.Script.Answer
import Peephole.Script.World

/-!
# Running scripts

The steps of a script are done one after the other, and their answers collected.  A
fault ends the script, and after any other answer it goes on.
-/

namespace Peephole.Script

/-! ## Reading -/

/-- The parts of a function, or nothing for another operation. -/
def readFunc (g : Graph) (o : OpId) : Except Fault (Option FuncInfo) := do
  if !(← g.isKind o .func) then return none
  let name ← g.funcName o
  let body ← g.body o
  let entry ← g.firstBlock o
  return some ⟨o, name, body, entry, g.blockArgs entry⟩

/-- The parts of an operation by its kind, or nothing for an erased one. -/
def readView (g : Graph) (o : OpId) : Except Fault (Option View) := do
  if !(← g.isLive o) then return none
  match ← g.kind o with
  | .func => return some (.func (← g.funcName o))
  | .ret => return some .ret
  | .branch => return some (.branch (← g.operand o 0) (← g.body o))
  | .yield => return some .yield
  | .alloc => return some .alloc
  | .rotate =>
      return some (.rotate (← g.rotationAxis o) (← g.rotationAngle o) (← g.rotationQubit o)
        (← g.result o 0))
  | .hadamard => return some (.hadamard (← g.gateQubit o))
  | .pauliX => return some (.pauliX (← g.gateQubit o))
  | .pauliZ => return some (.pauliZ (← g.gateQubit o))
  | .measure => return some .measure
  | .const => return some (.const (← g.constNumber o) (← g.result o 0))
  | .add => return some (.add (← g.operand o 0) (← g.operand o 1) (← g.result o 0))

/-- The visitor that keeps the operations it sees, stops at some kinds and passes over
what is nested in others. -/
def kindVisitor (g : Graph) (skip stop : List Kind) : Visitor (List OpId) OpId := fun seen o => do
  let kind ← g.kind o
  if kind ∈ stop then return (o :: seen, .stop o)
  else if kind ∈ skip then return (o :: seen, .skip)
  else return (o :: seen, .advance)

/-- Walks from a place. -/
def walkFrom (skip stop : List Kind) : WalkFrom → ScriptM Answer
  | .op o => do
      let o ← asking o.eval
      finish fun g => g.walkTree (kindVisitor g skip stop) [] o
  | .nested o => do
      let o ← asking o.eval
      finish fun g => g.walkInside (kindVisitor g skip stop) [] o
  | .region r => finish fun g => g.walkRegion (kindVisitor g skip stop) [] r
  | .block b => finish fun g => g.walkBlock (kindVisitor g skip stop) [] b
  | .ofKind k o => do
      let o ← asking o.eval
      finish fun g => g.walkKind k (kindVisitor g skip stop) [] o
  | .collect o => do
      let o ← asking o.eval
      return .walked (← ask fun g => g.nestedOps o) none
where
  /-- Asks for the walk and puts what it saw in order. -/
  finish (walk : Graph → Except Fault (Walked (List OpId) OpId)) : ScriptM Answer := do
    let (seen, stoppedAt) ← ask walk
    return .walked seen.reverse stoppedAt

/-- Asks a question about an operation. -/
def aboutOp (o : OpExpr) (question : Graph → OpId → Except Fault Fact) : ScriptM Fact := do
  let o ← asking o.eval
  ask fun g => question g o

/-- Asks a question about a value. -/
def aboutValue (v : ValueExpr) (question : Graph → ValueId → Except Fault Fact) :
    ScriptM Fact := do
  let v ← asking v.eval
  ask fun g => question g v

/-- Answers a question about one thing. -/
def Query.answer : Query → ScriptM Fact
  | .isLive o => aboutOp o fun g o => return .bool (← g.isLive o)
  | .kind o => aboutOp o fun g o => return .kind (← g.kind o)
  | .operands o => aboutOp o fun g o => return .values (← g.operands o)
  | .operand o i => aboutOp o fun g o => return .value (← g.operand o i)
  | .resultTypes o => aboutOp o fun g o => return .types (← g.op o).resultTypes
  | .results o => aboutOp o fun g o => return .values (← g.results o)
  | .result o i => aboutOp o fun g o => return .value (← g.result o i)
  | .attribute o key => aboutOp o fun g o => return .attribute (← g.attribute? o key)
  | .regionOf o => aboutOp o fun g o => return .region (← g.regionOf? o)
  | .ownerOf o => aboutOp o fun g o => return .op (← g.ownerOf? o)
  | .position o => aboutOp o fun g o => return .position (← g.position? o)
  | .totalUses o => aboutOp o fun g o => return .count (← g.totalUses o)
  | .users o => aboutOp o fun g o => return .ops (← g.users o)
  | .type v => aboutValue v fun g v => return .type (← g.value v).type
  | .origin v => aboutValue v fun g v => return .origin (← g.origin v)
  | .definer v => aboutValue v fun g v => return .op (← g.definer? v)
  | .uses v => aboutValue v fun g v => return .uses (g.uses v)
  | .hasUses v => aboutValue v fun g v => return .bool !(g.uses v).isEmpty
  | .useCount v => aboutValue v fun g v => return .count (g.useCount v)
  | .available v o => do
      let v ← asking v.eval
      aboutOp o fun g o => return .bool (← g.inScope v o)
  | .blockArgs b => ask fun g => return .values (g.blockArgs b)
  | .blockArg b i => ask fun g => return .value (← g.blockArg b i)
  | .blockOps b => ask fun g => return .ops (← g.block b).ops
  | .regionBlocks r => ask fun g => return .blocks (← g.region r).blocks

/-! ## Running -/

/-- Does a step. -/
def Step.perform : Step → ScriptM Answer
  | .func funcName args body name => do
      internPaths body
      let l ← located none
      let (entry, values) ← change fun g =>
        let (entry, values, g) := g.openBlock (args.map Prod.snd) l
        return ((entry, values), g)
      rename fun ns => ns.bindValues (args.map Prod.fst) values
      buildAll entry l body
      let o ← change fun g => g.closeFunc l funcName entry
      bindOp name o
      return .funcInfo (← ask fun g => readFunc g o)
  | .append b body place => do
      internPaths body
      let l ← located place
      buildAll b l body
      return .ops (← ask fun g => g.block b).ops
  | .block args names ops home place => do
      let l ← located place
      let ops ← asking fun s => ops.mapM (OpExpr.eval s)
      let b ← change fun g => return g.newBlock args l ops home
      let values ← ask fun g => return g.blockArgs b
      rename fun ns => ns.bindValues names values
      return .block b values
  | .region blocks owner place => do
      let _ ← located place
      let owner ← asking fun s => owner.mapM (OpExpr.eval s)
      return .region (← change fun g => g.newRegion blocks owner)
  | .newOp spec name preset place => do
      let l ← located place
      let draft ← asking fun s => spec.draft s l
      let o ← change fun g => g.newOp { draft with block := preset }
      bindOp name o
      return .op o (← ask fun g => g.results o)
  | .placeLast b o => do
      let o ← asking o.eval
      change fun g => return ((), ← g.placeLast b o)
      return .ops (← ask fun g => g.block b).ops
  | .intern path => do
      let p ← change fun g => return g.intern path
      return .path p path
  | .print o => do
      let o ← asking o.eval
      return .text (← ask fun g => g.opText o)
  | .validate o check => do
      let o ← asking o.eval
      match check with
      | .all => return .report (← ask fun g => g.validate o)
      | .scopes => return .report (← ask fun g => g.validateScopes o)
      | .uses => return .report (← ask fun g => g.validateUses o)
  | .requireValid o stage => do
      let o ← asking o.eval
      ask fun g => g.requireValid o stage
      return .ok
  | .foldedSum o => do
      let o ← asking o.eval
      return .number (← ask fun g => g.foldedSum? o)
  | .funcInfo o => do
      let o ← asking o.eval
      return .funcInfo (← ask fun g => readFunc g o)
  | .view o => do
      let o ← asking o.eval
      return .view (← ask fun g => readView g o)
  | .walk start skip stop => walkFrom skip stop start
  | .query q => return .fact (← q.answer)
  | .dump => return .dump (← get).graph
  | .edit edits => do
      let w ← get
      let (results, s) ← attemptAll { names := w.names } edits
        { graph := w.graph, observer := .recorder [] }
      set { w with graph := s.graph }
      return .edited results s.mutated s.observer.events
  | .apply rule o => do
      let o ← asking o.eval
      let w ← get
      let (answer, s) ← ((rule.rule w.names).apply o).runOn
        { graph := w.graph, observer := .recorder [] }
      set { w with graph := s.graph }
      return .applied answer s.mutated s.observer.events
  | .run o rules config => do
      let o ← asking o.eval
      let w ← get
      let rules : RuleList := ⟨rules.map (RuleSpec.rule w.names)⟩
      let r ← w.graph.simplify o rules.freeze config
      set { w with graph := r.progress.graph }
      return .ran r.outcome r.progress.calls
  | .pass o settings => do
      let o ← asking o.eval
      let w ← get
      let (result, graph) ← settings.run w.graph o
      set { w with graph }
      return .passed result

/-- Does steps one after the other and collects their answers.  A fault ends the
script. -/
def runSteps (w : World) : List Step → List Answer
  | [] => []
  | step :: rest =>
      match step.perform.run.run w with
      | .error f => [.fault f]
      | .ok (answer, w) => answer.getD .unresolved :: runSteps w rest

/-- The answers of a script. -/
def run (steps : List Step) : List Answer := runSteps .start steps

end Peephole.Script
