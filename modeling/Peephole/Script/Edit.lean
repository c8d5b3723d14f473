import Peephole.Rules.Hadamard
import Peephole.Rules.Rotation
import Peephole.Script.Expr

/-!
# Scripted edits and rules

An edit is one operation of an editing session with its arguments as expressions.  A
list of edits behind a list of conditions is a scripted rule.
-/

namespace Peephole.Script

/-- An edit. -/
inductive Edit where
  /-- Makes an operation before another, at its source location. -/
  | insert (anchor : OpExpr) (new : Spec)
  /-- Writes an operand slot. -/
  | writeSlot (o : OpExpr) (i : Nat) (v : ValueExpr)
  /-- Writes operand slots as one update. -/
  | update (o : OpExpr) (slots : List (Nat × ValueExpr)) (ending : Ending)
  /-- Moves all uses of a value to another. -/
  | redirectUses (old new : ValueExpr)
  /-- Erases an operation. -/
  | erase (o : OpExpr)
  /-- Replaces the results of an operation and erases it. -/
  | replace (o : OpExpr) (values : List ValueExpr)
  /-- Folds an addition of constants. -/
  | fold (o : OpExpr)
  /-- Asks the running work to stop. -/
  | requestStop

/-- What an edit leaves. -/
inductive EditResult where
  /-- It is done. -/
  | done
  /-- It has inserted an operation. -/
  | inserted (o : OpId)
  /-- It has updated an operation, whose operands were these right before the end. -/
  | updated (o : OpId) (operands : List ValueId)
  /-- It has folded an operation, or not. -/
  | folded (did : Bool)
  /-- An expression of it is unresolved. -/
  | unresolved
  /-- It failed. -/
  | failed (e : EditError)
  /-- A fault came up in an update and was caught there. -/
  | caught (f : Fault)

/-- What the expressions of edits are read in, but for the graph. -/
structure EditScope where
  /-- The names bound so far. -/
  names : Names
  /-- The operation offered to a rule. -/
  root : Option OpId := none
  /-- The operations inserted by the edits so far, in order. -/
  inserted : List OpId := []

/-- The scope with a graph. -/
def EditScope.withGraph (s : EditScope) (g : Graph) : Scope := ⟨g, s.names, s.root, s.inserted⟩

/-- The scope after an edit with the given result. -/
def EditScope.after (s : EditScope) : EditResult → EditScope
  | .inserted o => { s with inserted := s.inserted ++ [o] }
  | _ => s

/-- Asks a question that may have no answer. -/
def resolve {α : Type} (s : EditScope) (question : Scope → Resolve α) : EditM (Option α) := do
  let g ← EditM.graph
  (question (s.withGraph g)).run

/-- Does something with the answer to a question, if there is one. -/
def withAnswer {α : Type} (s : EditScope) (question : Scope → Resolve α)
    (act : α → EditM EditResult) : EditM EditResult := do
  match ← resolve s question with
  | none => return .unresolved
  | some a => act a

/-- The operation and the slots of an update. -/
def updateArgs (s : Scope) (o : OpExpr) (slots : List (Nat × ValueExpr)) :
    Resolve (OpId × List (Nat × ValueId)) := do
  let o ← o.eval s
  let slots ← slots.mapM fun (i, v) => return (i, ← v.eval s)
  return (o, slots)

/-- Does an update.  Faults in it are caught. -/
def attemptUpdate (s : EditScope) (o : OpExpr) (slots : List (Nat × ValueExpr))
    (ending : Ending) : EditM EditResult := do
  let g ← EditM.graph
  match (updateArgs (s.withGraph g) o slots).run with
  | .error f => return .caught f
  | .ok none => return .unresolved
  | .ok (some (o, slots)) =>
      match ← EditM.attemptUpdate o slots ending with
      | .error f => return .caught f
      | .ok operands => return .updated o operands

/-- Does an edit. -/
def Edit.perform (s : EditScope) : Edit → EditM EditResult
  | insert anchor new =>
      withAnswer s (fun scope => do
        let anchor ← anchor.eval scope
        return (anchor, ← new.draft scope (← known (scope.graph.op anchor)).location))
        fun (anchor, draft) => return .inserted (← EditM.insert anchor draft)
  | writeSlot o i v =>
      withAnswer s (fun scope => return (← o.eval scope, ← v.eval scope))
        fun (o, v) => do EditM.writeSlot o i v; return .done
  | update o slots ending => do
      match ← attemptUpdate s o slots ending with
      | .caught f => throwThe Fault f
      | result => return result
  | redirectUses old new =>
      withAnswer s (fun scope => return (← old.eval scope, ← new.eval scope))
        fun (old, new) => do EditM.redirectUses old new; return .done
  | erase o => withAnswer s o.eval fun o => do EditM.erase o; return .done
  | replace o values =>
      withAnswer s (fun scope => return (← o.eval scope, ← values.mapM (ValueExpr.eval scope)))
        fun (o, values) => do EditM.replace o values; return .done
  | fold o => withAnswer s o.eval fun o => return .folded (← EditM.fold o)
  | requestStop => do EditM.requestStop; return .done

/-! ## Edits one after the other -/

/-- Does an edit of a list of edits that goes on after it.  An edit error is a result,
and so is a fault in an update. -/
def Edit.attempt (s : EditScope) (e : Edit) (session : Session) :
    Except Fault (EditResult × Session) := do
  let edit :=
    match e with
    | update o slots ending => attemptUpdate s o slots ending
    | e => e.perform s
  match ← edit.runOn session with
  | (.ok result, session) => return (result, session)
  | (.error e, session) => return (.failed e, session)

/-- Does edits one after the other, whatever becomes of them. -/
def attemptAll (s : EditScope) : List Edit → Session → Except Fault (List EditResult × Session)
  | [], session => return ([], session)
  | e :: rest, session => do
      let (result, session) ← e.attempt s session
      let (results, session) ← attemptAll (s.after result) rest session
      return (result :: results, session)

/-! ## Scripted rules -/

/-- What a scripted rule answers after its edits. -/
inductive RuleAnswer where
  /-- It says that it applied. -/
  | applied
  /-- It says that it did not apply. -/
  | noMatch
  /-- It complains that the operation had been erased. -/
  | stale
deriving DecidableEq, Repr

/-- A rule of a script. -/
inductive RuleSpec where
  /-- Rotation fusion. -/
  | fuseRotations (axes : Rules.AxisMatch)
  /-- Removal of Hadamard pairs. -/
  | hadamardPair
  /-- Conjugation of an X gate. -/
  | hadamardConjugation
  /-- A rule by conditions and edits. -/
  | scripted (name : String) (root : Kind) (benefit : Nat) (conditions : List Condition)
      (edits : List Edit) (answer : RuleAnswer)

/-- Whether all conditions are resolved and hold. -/
def allHold (s : Scope) : List Condition → Except Fault Bool
  | [] => return true
  | c :: rest => do
      match ← (c.eval s).run with
      | some true => allHold s rest
      | _ => return false

/-- Does the edits of a rule.  Tells whether it came to the end. -/
def performAll (s : EditScope) : List Edit → EditM Bool
  | [] => return true
  | e :: rest => do
      match ← e.perform s with
      | .unresolved => return false
      | result => performAll (s.after result) rest

/-- A scripted rule: its conditions, then its edits, then its answer. -/
def applyScripted (names : Names) (conditions : List Condition) (edits : List Edit)
    (answer : RuleAnswer) (o : OpId) : EditM Match := do
  let s : EditScope := { names, root := some o }
  if !(← EditM.ask fun g => allHold (s.withGraph g) conditions) then return .noMatch
  if !(← performAll s edits) then return .noMatch
  match answer with
  | .applied => return .applied
  | .noMatch => return .noMatch
  | .stale => throw (.staleOp o)

/-! ## Discretion -/

theorem withAnswer_discreet {α : Type} {s : EditScope} {question : Scope → Resolve α}
    {act : α → EditM EditResult} (hact : ∀ a, (act a).Discreet) :
    (withAnswer s question act).Discreet := by
  refine EditM.Discreet.bind (.bind .graph fun g => .lift _) fun answer => ?_
  cases answer with
  | none => exact .pure _
  | some a => exact hact a

theorem attemptUpdate_discreet (s : EditScope) (o : OpExpr) (slots : List (Nat × ValueExpr))
    (ending : Ending) : (attemptUpdate s o slots ending).Discreet := by
  refine EditM.Discreet.graph.bind fun g => ?_
  split
  · exact .pure _
  · exact .pure _
  · refine (EditM.Discreet.attemptUpdate _ _ ending).bind fun operands => ?_
    cases operands with
    | error f => exact .pure _
    | ok operands => exact .pure _

theorem Edit.perform_discreet (s : EditScope) (e : Edit) : (e.perform s).Discreet := by
  cases e with
  | insert anchor new =>
    exact withAnswer_discreet fun _ => (EditM.Discreet.insert _ _).bind fun _ => .pure _
  | writeSlot o i v =>
    exact withAnswer_discreet fun _ => (EditM.Discreet.writeSlot _ i _).bind fun _ => .pure _
  | update o slots ending =>
    refine (attemptUpdate_discreet s o slots ending).bind fun result => ?_
    split
    · exact .fault _
    · exact .pure _
  | redirectUses old new =>
    exact withAnswer_discreet fun _ => (EditM.Discreet.redirectUses _ _).bind fun _ => .pure _
  | erase o => exact withAnswer_discreet fun o => (EditM.Discreet.erase o).bind fun _ => .pure _
  | replace o values =>
    exact withAnswer_discreet fun _ => (EditM.Discreet.replace _ _).bind fun _ => .pure _
  | fold o => exact withAnswer_discreet fun o => (EditM.Discreet.fold o).bind fun _ => .pure _
  | requestStop => exact EditM.Discreet.requestStop.bind fun _ => .pure _

theorem performAll_discreet : ∀ (s : EditScope) (edits : List Edit), (performAll s edits).Discreet
  | _, [] => .pure _
  | s, e :: rest => by
      refine (e.perform_discreet s).bind fun result => ?_
      split
      · exact .pure _
      · exact performAll_discreet _ rest

theorem applyScripted_discreet (names : Names) (conditions : List Condition) (edits : List Edit)
    (answer : RuleAnswer) (o : OpId) :
    (applyScripted names conditions edits answer o).Discreet := by
  refine (EditM.Discreet.ask _).bind fun holds => ?_
  cases holds with
  | false => exact .pure _
  | true =>
    refine (performAll_discreet _ edits).bind fun complete => ?_
    cases complete with
    | false => exact .pure _
    | true =>
      cases answer with
      | applied | noMatch => exact .pure _
      | stale => exact .throw _

/-- The rule of a script, with the names bound so far. -/
def RuleSpec.rule (names : Names) : RuleSpec → Rule
  | fuseRotations axes => Rules.fuseRotations axes
  | hadamardPair => Rules.hadamardPair
  | hadamardConjugation => Rules.hadamardConjugation
  | scripted name root benefit conditions edits answer =>
      { name, root, benefit, apply := applyScripted names conditions edits answer,
        discreet := applyScripted_discreet names conditions edits answer }

end Peephole.Script
