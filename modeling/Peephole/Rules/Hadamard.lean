import Peephole.Graph.Parts
import Peephole.Rule

/-!
# Hadamard rules

Two Hadamard gates in a row do nothing, and an X gate between two Hadamard gates is a
Z gate.  Both rules look at the last gate of the group and want the gates before it to
be in the same region and read by nobody else.
-/

namespace Peephole.Rules

open EditM

/-- The gate of the given kind that makes a value, if nobody else reads the value and
the gate is in the region of the reader. -/
def exclusiveGate? (g : Graph) (v : ValueId) (kind : Kind) (reader : OpId) :
    Except Fault (Option OpId) := do
  match ← g.definer? v with
  | none => return none
  | some o =>
      if (← g.kind o) ≠ kind then return none
      if g.useCount v ≠ 1 then return none
      if (← g.regionOf? o) ≠ (← g.regionOf? reader) then return none
      return some o

/-- Two Hadamard gates in a row are removed. -/
def hadamardPair : Rule where
  name := "cancel-hadamard-pair"
  root := .hadamard
  benefit := 2
  apply o := do
    match ← ask fun g => do exclusiveGate? g (← g.gateQubit o) .hadamard o with
    | none => return .noMatch
    | some first =>
        let input ← ask fun g => g.gateQubit first
        let output ← ask fun g => g.result o 0
        redirectUses output input
        erase o
        erase first
        return .applied
  discreet o := by
    refine (Discreet.ask _).bind fun first => ?_
    cases first with
    | none => exact .pure _
    | some first =>
      exact (Discreet.ask _).bind fun input => (Discreet.ask _).bind fun output =>
        (Discreet.redirectUses _ _).bind fun _ => (Discreet.erase o).bind fun _ =>
          (Discreet.erase first).bind fun _ => .pure _

/-- The first two gates of a Hadamard, X, Hadamard group that ends with the given
Hadamard gate: the X gate and the first Hadamard gate. -/
def conjugatedX? (g : Graph) (o : OpId) : Except Fault (Option (OpId × OpId)) := do
  match ← exclusiveGate? g (← g.gateQubit o) .pauliX o with
  | none => return none
  | some x =>
      match ← exclusiveGate? g (← g.gateQubit x) .hadamard o with
      | none => return none
      | some first => return some (x, first)

/-- An X gate between two Hadamard gates becomes a Z gate in place of the last one. -/
def hadamardConjugation : Rule where
  name := "conjugate-x-by-hadamard"
  root := .hadamard
  benefit := 3
  apply o := do
    match ← ask fun g => conjugatedX? g o with
    | none => return .noMatch
    | some (x, first) =>
        let input ← ask fun g => g.gateQubit first
        let location := (← ask fun g => g.op o).location
        let z ← insert o (← Draft.gate location .pauliZ input)
        let output ← ask fun g => g.result z 0
        replace o [output]
        erase x
        erase first
        return .applied
  discreet o := by
    refine (Discreet.ask _).bind fun gates => ?_
    cases gates with
    | none => exact .pure _
    | some gates =>
      exact (Discreet.ask _).bind fun input => (Discreet.ask _).bind fun data =>
        (Discreet.lift _).bind fun draft => (Discreet.insert o _).bind fun z =>
          (Discreet.ask _).bind fun output => (Discreet.replace o _).bind fun _ =>
            (Discreet.erase _).bind fun _ => (Discreet.erase _).bind fun _ => .pure _

end Peephole.Rules
