import Peephole.Graph.Scope

/-!
# Validation

Two checks of the operations under a root.  Every operand has to be available where
it is read.  And the use lists have to say what the operand slots say: each list
holds the slots under the root that hold the value, each of them once.

The first check lists its findings in the order of the operations, and the second
in the order of their texts.
-/

namespace Peephole

/-- An operand that is not available at its reader. -/
structure Unavailable where
  /-- The reader. -/
  user : OpId
  /-- The position of the operand. -/
  index : Nat
  /-- The value and where it is made. -/
  description : String
deriving DecidableEq, Repr

/-- The finding as written. -/
def Unavailable.text (u : Unavailable) : String :=
  s!"operand #{u.index} of {u.user.text} references {u.description}"

/-- A disagreement between a use list and the operand slots. -/
inductive UseError where
  /-- A slot that the use list of its value lacks. -/
  | missing (value : ValueId) (use : Use) (kind : Kind)
  /-- A use by an erased operation. -/
  | erasedUser (value : ValueId) (user : OpId)
  /-- A use that no slot under the root bears out. -/
  | unfounded (value : ValueId) (use : Use)
  /-- A use list longer or shorter than the slots it should list. -/
  | miscounted (value : ValueId) (uses slots : Nat)
deriving DecidableEq, Repr

/-- The disagreement as written. -/
def UseError.text : UseError → String
  | missing value use kind =>
      s!"operand #{use.index} of {use.user.text} ({kind.text}) uses {value.text} "
        ++ "but no use-chain entry exists"
  | erasedUser value user =>
      s!"use-chain entry for {value.text} claims use by erased {user.text}"
  | unfounded value use =>
      s!"use-chain entry for {value.text} claims use by {use.user.text} "
        ++ s!"operand #{use.index}, but no such operand exists"
  | miscounted value uses slots =>
      s!"use count of {value.text} is {uses} but {slots} operand slot(s) reference it"

/-- What the checks found. -/
structure Report where
  /-- Operands that are not available. -/
  unavailable : List Unavailable
  /-- Use lists that disagree with the slots. -/
  useErrors : List UseError
deriving DecidableEq, Repr

namespace Report

/-- Whether nothing was found. -/
def isOk (r : Report) : Bool := r.unavailable.isEmpty && r.useErrors.isEmpty

/-- The texts of the use list findings, in ascending order. -/
def useTexts (r : Report) : List String :=
  (r.useErrors.map UseError.text).mergeSort fun a b => !decide (b < a)

/-- A list of findings under a heading, nothing if it is empty. -/
def listing (heading : String) (findings : List String) : String :=
  if findings.isEmpty then ""
  else s!"{findings.length} {heading} found:\n"
    ++ String.join (findings.map fun finding => s!"  - {finding}\n")

/-- The report as written. -/
def text (r : Report) : String :=
  if r.isOk then "validation passed"
  else listing "unavailable operand(s)" (r.unavailable.map Unavailable.text)
    ++ listing "use-chain error(s)" r.useTexts

end Report

namespace Graph

/-! ## Availability of operands -/

/-- A value and where it is made, as written. -/
def describe (g : Graph) (v : ValueId) : Except Fault String := do
  match ← g.origin v with
  | .argument block i => return s!"{v.text} (arg #{i} of {block.text})"
  | .result o i =>
      let data ← g.slot o
      if data.erased then return s!"{v.text} (result #{i} of erased {o.text})"
      else return s!"{v.text} (result #{i} of {o.text}, {data.kind.text})"

/-- The finding for one operand, if there is one. -/
def checkOperand (g : Graph) (user : OpId) (index : Nat) (v : ValueId) :
    Except Fault (Option Unavailable) := do
  if ← g.inScope v user then return none
  else return some ⟨user, index, ← g.describe v⟩

/-- The findings for the operands of an operation, from position `i` on. -/
def checkOperands (g : Graph) (user : OpId) : (i : Nat) → List ValueId →
    Except Fault (List Unavailable)
  | _, [] => return []
  | i, v :: rest => do
      let found ← g.checkOperand user i v
      return found.toList ++ (← g.checkOperands user (i + 1) rest)

/-- The visitor that checks the operands of the operations it sees. -/
def availabilityVisitor (g : Graph) : Visitor (List Unavailable) Unit := fun found o => do
  return (found ++ (← g.checkOperands o 0 (← g.operands o)), .advance)

/-- The operands of operations nested in the root that are not available where they
are read. -/
def unavailableOperands (g : Graph) (root : OpId) : Except Fault (List Unavailable) := do
  return (← g.walkInside g.availabilityVisitor [] root).1

/-! ## Use lists -/

/-- The operand slots of an operation with the values they hold. -/
def slotsOf (o : OpId) (data : Op) : List (ValueId × Use) :=
  data.operands.mapIdx fun i v => (v, ⟨o, i⟩)

/-- The values whose use lists an operation makes the check look at: its operands,
its results and the arguments of the blocks inside it. -/
def valuesOf (g : Graph) (data : Op) : Except Fault (List ValueId) := do
  let regions ← data.regions.mapM g.region
  return data.operands ++ data.results ++ (regions.flatMap Region.blocks).flatMap g.blockArgs

/-- The slots among `slots` that hold a value. -/
def slotsHolding (slots : List (ValueId × Use)) (v : ValueId) : List Use :=
  slots.filterMap fun (w, u) => if w = v then some u else none

/-- What is wrong with one entry of the use list of a value, if anything. -/
def checkUse (g : Graph) (v : ValueId) (held : List Use) (u : Use) :
    Except Fault (Option UseError) := do
  if !(← g.isLive u.user) then return some (.erasedUser v u.user)
  else if !held.contains u then return some (.unfounded v u)
  else return none

/-- The disagreements between the use list of a value and the slots that hold it. -/
def checkUses (g : Graph) (slots : List (ValueId × Use)) (v : ValueId) :
    Except Fault (List UseError) := do
  let held := slotsHolding slots v
  let uses := g.uses v
  let missing ← (held.eraseDups.filter fun u => !uses.contains u).mapM fun u => do
    return UseError.missing v u (← g.kind u.user)
  let wrong ← uses.filterMapM (g.checkUse v held)
  let count :=
    if uses.length = held.length then [] else [.miscounted v uses.length held.length]
  return missing ++ wrong ++ count

/-- The disagreements between the use lists and the slots of the operations of the
tree under the root. -/
def useErrors (g : Graph) (root : OpId) : Except Fault (List UseError) := do
  let tree ← g.opTree root
  let datas ← tree.mapM fun o => return (o, ← g.op o)
  let slots := datas.flatMap fun (o, data) => slotsOf o data
  let values ← datas.mapM fun (_, data) => g.valuesOf data
  let findings ← values.flatten.eraseDups.mapM (g.checkUses slots)
  return findings.flatten

/-! ## Reports -/

/-- Checks that operands are available. -/
def validateScopes (g : Graph) (root : OpId) : Except Fault Report := do
  return ⟨← g.unavailableOperands root, []⟩

/-- Checks that use lists and slots agree. -/
def validateUses (g : Graph) (root : OpId) : Except Fault Report := do
  return ⟨[], ← g.useErrors root⟩

/-- Makes both checks. -/
def validate (g : Graph) (root : OpId) : Except Fault Report := do
  return ⟨← g.unavailableOperands root, ← g.useErrors root⟩

/-- Makes both checks and takes a finding as a fault of the named stage. -/
def requireValid (g : Graph) (root : OpId) (stage : String) : Except Fault Unit := do
  let report ← g.validate root
  if report.isOk then return () else throw (.invalid stage report.text)

end Graph

end Peephole
