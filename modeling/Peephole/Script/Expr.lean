import Peephole.Graph.Parts
import Peephole.Graph.Scope

/-!
# Expressions of scripts

A script names the things it works on by expressions: by number, by a name bound
earlier, or by their relation to another thing, such as the next operation in a block
or the user of a value.  An expression asks for something that may be absent.  Then it
is *unresolved*, which is not a fault.  Asking an erased operation is one.
-/

namespace Peephole.Script

/-- An answer that may be absent, or a fault. -/
abbrev Resolve := OptionT (Except Fault)

/-- The names a script has bound. -/
structure Names where
  /-- Operations, the last one bound first. -/
  ops : List (String × OpId) := []
  /-- Values, the last one bound first. -/
  values : List (String × ValueId) := []
deriving DecidableEq, Repr

namespace Names

/-- Binds a name to a value. -/
def bindValue (ns : Names) (name : String) (v : ValueId) : Names :=
  { ns with values := (name, v) :: ns.values }

/-- Binds names to values, as far as both go. -/
def bindValues (ns : Names) (names : List String) (values : List ValueId) : Names :=
  (names.zip values).foldl (fun ns (name, v) => ns.bindValue name v) ns

/-- Binds a name to an operation, and to its first result if it has one. -/
def bindOp (ns : Names) (name : String) (o : OpId) (results : List ValueId) : Names :=
  let ns := { ns with ops := (name, o) :: ns.ops }
  match results with
  | v :: _ => ns.bindValue name v
  | [] => ns

end Names

/-- What expressions are read in. -/
structure Scope where
  /-- The graph. -/
  graph : Graph
  /-- The names bound so far. -/
  names : Names
  /-- The operation offered to a rule. -/
  root : Option OpId := none
  /-- The operations inserted by the edits so far, in order. -/
  inserted : List OpId := []

mutual

/-- An expression for a value. -/
inductive ValueExpr where
  /-- The value of a number. -/
  | number (n : Nat)
  /-- The value of a name. -/
  | name (s : String)
  /-- A result of an operation. -/
  | result (o : OpExpr) (i : Nat)
  /-- An operand of an operation. -/
  | operand (o : OpExpr) (i : Nat)

/-- An expression for an operation. -/
inductive OpExpr where
  /-- The operation of a number. -/
  | number (n : Nat)
  /-- The operation of a name. -/
  | name (s : String)
  /-- The operation offered to a rule. -/
  | root
  /-- An operation inserted by an earlier edit. -/
  | inserted (k : Nat)
  /-- The operation after another in its block. -/
  | next (o : OpExpr)
  /-- The operation before another in its block. -/
  | prev (o : OpExpr)
  /-- The operation around another. -/
  | parent (o : OpExpr)
  /-- The operation that makes a value. -/
  | definer (v : ValueExpr)
  /-- The operation of an entry of the use list of a value. -/
  | user (v : ValueExpr) (k : Nat)

end

/-- The answer to a question that always has one. -/
def known {α : Type} (answer : Except Fault α) : Resolve α := OptionT.lift answer

/-- What was found, which may be nothing. -/
def orAbsent {α : Type} (found : Option α) : Resolve α := OptionT.mk (.ok found)

/-- The neighbour of an operation at the position that `move` gives. -/
def neighbour (g : Graph) (o : OpId) (move : Nat → Option Nat) : Resolve OpId := do
  match (← known (g.op o)).block with
  | none => failure
  | some b =>
      let ops := (← known (g.block b)).ops
      let i ← orAbsent ((ops.idxOf? o).bind move)
      orAbsent ops[i]?

mutual

/-- The value an expression stands for. -/
def ValueExpr.eval (s : Scope) : ValueExpr → Resolve ValueId
  | .number n => return ⟨n⟩
  | .name x => orAbsent (s.names.values.lookup x)
  | .result o i => do
      let o ← o.eval s
      orAbsent (← known (s.graph.results o))[i]?
  | .operand o i => do
      let o ← o.eval s
      orAbsent (← known (s.graph.operands o))[i]?

/-- The operation an expression stands for. -/
def OpExpr.eval (s : Scope) : OpExpr → Resolve OpId
  | .number n => return ⟨n⟩
  | .name x => orAbsent (s.names.ops.lookup x)
  | .root => orAbsent s.root
  | .inserted k => orAbsent s.inserted[k]?
  | .next o => do neighbour s.graph (← o.eval s) fun i => some (i + 1)
  | .prev o => do neighbour s.graph (← o.eval s) fun i => if i = 0 then none else some (i - 1)
  | .parent o => do
      let o ← o.eval s
      orAbsent (← known (s.graph.ownerOf? o))
  | .definer v => do
      let v ← v.eval s
      orAbsent (← known (s.graph.definer? v))
  | .user v k => do
      let v ← v.eval s
      orAbsent ((s.graph.uses v)[k]?.map Use.user)

end

/-! ## Operations to be made -/

/-- An operation to be made. -/
inductive Spec where
  /-- A new qubit. -/
  | alloc
  /-- A constant. -/
  | const (x : Binary64)
  /-- A sum. -/
  | add (left right : ValueExpr)
  /-- A rotation. -/
  | rotate (axis : Axis) (angle qubit : ValueExpr)
  /-- A gate without parameters. -/
  | gate (kind : Kind) (qubit : ValueExpr)
  /-- A measurement. -/
  | measure (qubit : ValueExpr)
  /-- The end of a function. -/
  | ret (values : List ValueExpr)
  /-- The end of the region of a branch. -/
  | yield (values : List ValueExpr)
  /-- A branch. -/
  | branch (condition : ValueExpr) (types : List Ty) (region : RegionId)
  /-- A function. -/
  | func (name : String) (region : RegionId)
  /-- Any operation, part by part. -/
  | raw (kind : Kind) (operands : List ValueExpr) (types : List Ty)
      (attributes : List (String × Attribute)) (regions : List RegionId)

/-- The draft of an operation to be made at a source location. -/
def Spec.draft (s : Scope) (l : Location) : Spec → Resolve Draft
  | alloc => return .alloc l
  | const x => return .const l x
  | add left right => return .add l (← left.eval s) (← right.eval s)
  | rotate axis angle qubit => return .rotate l axis (← angle.eval s) (← qubit.eval s)
  | gate kind qubit => do known (Draft.gate l kind (← qubit.eval s))
  | measure qubit => return .measure l (← qubit.eval s)
  | ret values => return .ret l (← values.mapM (ValueExpr.eval s))
  | yield values => return .yield l (← values.mapM (ValueExpr.eval s))
  | branch condition types region => return .branch l (← condition.eval s) types region
  | func name region => return .func l name region
  | raw kind operands types attributes regions =>
      return { kind, location := l, operands := ← operands.mapM (ValueExpr.eval s),
               resultTypes := types, attributes := .ofList attributes, regions }

/-! ## Conditions -/

/-- A condition of a scripted rule. -/
inductive Condition where
  /-- An operation is of a kind. -/
  | kind (o : OpExpr) (k : Kind)
  /-- A value has a number of uses. -/
  | useCount (v : ValueExpr) (n : Nat)
  /-- Nobody reads the results of an operation. -/
  | unused (o : OpExpr)
  /-- Two operations are in the same region. -/
  | sameRegion (a b : OpExpr)
  /-- A value is available at an operation. -/
  | available (v : ValueExpr) (o : OpExpr)
  /-- Another condition does not hold. -/
  | not (c : Condition)

/-- Whether a condition holds. -/
def Condition.eval (s : Scope) : Condition → Resolve Bool
  | kind o k => do
      let o ← o.eval s
      return (← known (s.graph.kind o)) = k
  | useCount v n => do
      let v ← v.eval s
      return s.graph.useCount v = n
  | unused o => do
      let o ← o.eval s
      return (← known (s.graph.totalUses o)) = 0
  | sameRegion a b => do
      let a ← a.eval s
      let b ← b.eval s
      return (← known (s.graph.regionOf? a)) = (← known (s.graph.regionOf? b))
  | available v o => do
      let v ← v.eval s
      let o ← o.eval s
      known (s.graph.inScope v o)
  | not c => return !(← c.eval s)

end Peephole.Script
