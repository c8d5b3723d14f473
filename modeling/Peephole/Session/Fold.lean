import Peephole.Graph.Parts
import Peephole.Session.Basic

/-!
# Constant folding

An addition of two constants is replaced by the constant that is their sum.  The new
constant stands where the addition stood and has its source location.
-/

namespace Peephole.EditM

/-- Replaces an addition of constants by a constant.  Tells whether it did. -/
def fold (o : OpId) : EditM Bool := do
  match ← ask fun g => g.foldedSum? o with
  | none => return false
  | some sum =>
      let location := (← ask fun g => g.op o).location
      let constant ← insert o (.const location sum)
      let value ← ask fun g => g.result constant 0
      replace o [value]
      return true

end Peephole.EditM
