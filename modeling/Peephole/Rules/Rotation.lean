import Peephole.Graph.Parts
import Peephole.Graph.Scope
import Peephole.Rule

/-!
# Rotation fusion

Two rotations in a row are fused into one by the sum of their angles.  They have to be
in the same region, nobody else may read the qubit between them, and, unless the rule
is told not to look, they have to turn about the same axis.  The sum is placed before
the first rotation, so the angle of the second one has to be available there.
-/

namespace Peephole.Rules

open EditM

/-- Whether rotations about different axes may be fused. -/
inductive AxisMatch where
  /-- Only rotations about the same axis are fused. -/
  | same
  /-- The axes are not looked at. -/
  | any
deriving DecidableEq, Repr

/-- The rotation right before the given one, if the two can be fused. -/
def fusible? (axes : AxisMatch) (g : Graph) (second : OpId) : Except Fault (Option OpId) := do
  if !(← g.isKind second .rotate) then return none
  match ← g.definerOfKind? (← g.rotationQubit second) .rotate with
  | none => return none
  | some first =>
      if (← g.regionOf? first) ≠ (← g.regionOf? second) then return none
      if axes = .same then
        if (← g.rotationAxis first) ≠ (← g.rotationAxis second) then return none
      if g.useCount (← g.result first 0) ≠ 1 then return none
      if !(← g.inScope (← g.rotationAngle second) first) then return none
      return some first

/-- Two rotations in a row become one by the sum of their angles. -/
def fuseRotations (axes : AxisMatch) : Rule where
  name := "fold-rotation"
  root := .rotate
  apply second := do
    match ← ask fun g => fusible? axes g second with
    | none => return .noMatch
    | some first =>
        let secondAngle ← ask fun g => g.rotationAngle second
        let location := (← ask fun g => g.op first).location
        let firstAngle ← ask fun g => g.rotationAngle first
        let input ← ask fun g => g.rotationQubit first
        let add ← insert first (.add location firstAngle secondAngle)
        let sum ← ask fun g => g.result add 0
        update second [(0, sum), (1, input)]
        erase first
        return .applied
  discreet second := by
    refine (Discreet.ask _).bind fun first => ?_
    cases first with
    | none => exact .pure _
    | some first =>
      exact (Discreet.ask _).bind fun secondAngle => (Discreet.ask _).bind fun data =>
        (Discreet.ask _).bind fun firstAngle => (Discreet.ask _).bind fun input =>
          (Discreet.insert first _).bind fun add => (Discreet.ask _).bind fun sum =>
            (Discreet.update second _).bind fun _ => (Discreet.erase first).bind fun _ => .pure _

end Peephole.Rules
