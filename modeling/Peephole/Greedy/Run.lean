import Peephole.Greedy.Sweep

/-!
# Greedy simplification

The operations under a root are simplified until nothing applies any more.  Sweeps are
repeated until one makes no reduction, or until their number reaches its limit, the
budget of reductions is spent, or someone asks to stop.
-/

namespace Peephole

/-- What a run leaves. -/
structure RunResult where
  /-- What the work came to, or the reduction that failed. -/
  outcome : Except EditError Outcome
  /-- The work at the end. -/
  progress : Progress

/-- Sweeps until the end, at most `left` more times, after `made` sweeps. -/
def sweepUpTo (c : Config) (rules : RuleSet) (root : OpId) :
    (left made : Nat) → Progress → Except Fault RunResult
  | 0, made, p => return ⟨.ok ⟨.sweepLimit, made, p.reductions⟩, p⟩
  | left + 1, made, p => do
      let (e, after) ← sweep c rules root p
      let ended (status : RunStatus) : RunResult :=
        ⟨.ok ⟨status, made + 1, after.reductions⟩, after⟩
      match e with
      | .failed e => return ⟨.error e, after⟩
      | .limited => return ended .budgetSpent
      | .settled => return ended .converged
      | .stopped => return ended .stopped
      | .finished =>
          if after.reductions = p.reductions then return ended .converged
          else sweepUpTo c rules root left (made + 1) after

/-- Simplifies the operations under a root until nothing applies any more. -/
def Graph.simplify (g : Graph) (root : OpId) (rules : RuleSet) (c : Config) :
    Except Fault RunResult :=
  sweepUpTo c rules root c.maxSweeps 0 (.start g)

end Peephole
