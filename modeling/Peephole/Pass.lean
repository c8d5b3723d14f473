import Peephole.Greedy.Run
import Peephole.Rules.Hadamard
import Peephole.Rules.Rotation

/-!
# The pass

The pass simplifies a function greedily with the Hadamard rules and rotation fusion.
It succeeds if nothing applies any more, and the function has to be valid then.
-/

namespace Peephole

/-- The pass with its settings. -/
structure Pass where
  /-- How greedy simplification is done. -/
  config : Config := {}
  /-- Which rotations are fused. -/
  axisMatch : Rules.AxisMatch := .same

namespace Pass

/-- What a pass that succeeded has done. -/
structure Summary where
  /-- The sweeps made. -/
  sweeps : Nat
  /-- The reductions made. -/
  reductions : Nat
deriving DecidableEq, Repr

/-- Why a pass did not succeed. -/
inductive Failure where
  /-- A limit was reached. -/
  | unfinished (outcome : Outcome)
  /-- Someone asked to stop. -/
  | stopped (reductions : Nat)
  /-- A reduction failed. -/
  | refused (e : EditError)
deriving DecidableEq, Repr

/-- The failure as written. -/
def Failure.message : Failure → String
  | unfinished o =>
      s!"quantum-hx did not converge: {o.status.text} after {o.sweeps} sweep(s) "
        ++ s!"and {o.reductions} rewrite(s)"
  | stopped reductions => s!"quantum-hx was cancelled after {reductions} rewrite(s)"
  | refused e => "quantum-hx aborted: " ++ e.message

/-- The rules of the pass. -/
def rules (p : Pass) : RuleSet :=
  RuleList.freeze
    ⟨[Rules.hadamardPair, Rules.hadamardConjugation, Rules.fuseRotations p.axisMatch]⟩

/-- Runs the pass on a function: its summary or its failure, and the graph after it. -/
def run (p : Pass) (g : Graph) (root : OpId) : Except Fault (Except Failure Summary × Graph) := do
  let r ← g.simplify root p.rules p.config
  let g := r.progress.graph
  match r.outcome with
  | .error e => return (.error (.refused e), g)
  | .ok o =>
      match o.status with
      | .converged =>
          g.requireValid root "quantum-hx"
          return (.ok ⟨o.sweeps, o.reductions⟩, g)
      | .stopped => return (.error (.stopped o.reductions), g)
      | _ => return (.error (.unfinished o), g)

end Pass

end Peephole
