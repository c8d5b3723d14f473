import Peephole.Graph.Basic

/-!
# Walks

A walk visits operations in pre-order: an operation, then what is nested in its
regions, then its later neighbours.  The visitor says after each visit whether to
descend, to pass over what is nested in the operation, or to stop the walk with an
answer.

Nesting is as deep as the longest chain of owners, and a chain that repeats no
operation is no longer than the table of operations.  So the depth is bounded by
the size of that table, and a walk that goes deeper is going in circles, which is a
fault.
-/

namespace Peephole

/-- What a visitor wants next. -/
inductive Visit (β : Type) where
  /-- Go on, with what is nested first. -/
  | advance
  /-- Go on, but pass over what is nested. -/
  | skip
  /-- End the walk with an answer. -/
  | stop (answer : β)

/-- What a walk leaves: the visitor's state, and the answer if it was stopped. -/
abbrev Walked (σ β : Type) := σ × Option β

/-- A visitor: its state and the operation at hand give the new state and what is
wanted next. -/
abbrev Visitor (σ β : Type) := σ → OpId → Except Fault (σ × Visit β)

/-- Does one walk after the other, until one is stopped. -/
def walkAll {σ β α : Type} (walk : σ → α → Except Fault (Walked σ β)) :
    σ → List α → Except Fault (Walked σ β)
  | s, [] => return (s, none)
  | s, a :: rest => do
      match ← walk s a with
      | (s, some answer) => return (s, some answer)
      | (s, none) => walkAll walk s rest

namespace Graph

variable {σ β : Type}

/-- How deep operations can nest. -/
def depth (g : Graph) : Nat := g.ops.size + 1

/-- Walks the operations of a block by the given walk of one operation. -/
def walkBlockBy (g : Graph) (walk : σ → OpId → Except Fault (Walked σ β)) (s : σ) (b : BlockId) :
    Except Fault (Walked σ β) := do
  walkAll walk s (← g.block b).ops

/-- Walks the operations of a region by the given walk of one operation. -/
def walkRegionBy (g : Graph) (walk : σ → OpId → Except Fault (Walked σ β)) (s : σ) (r : RegionId) :
    Except Fault (Walked σ β) := do
  walkAll (g.walkBlockBy walk) s (← g.region r).blocks

/-- Walks an operation and what is nested in it, down to the given depth. -/
def walkTreeTo (g : Graph) (visit : Visitor σ β) :
    (depth : Nat) → σ → OpId → Except Fault (Walked σ β)
  | 0, _, _ => throw .endless
  | depth + 1, s, o => do
      match ← visit s o with
      | (s, .stop answer) => return (s, some answer)
      | (s, .skip) => return (s, none)
      | (s, .advance) => walkAll (g.walkRegionBy (g.walkTreeTo visit depth)) s (← g.op o).regions

/-- Walks an operation and what is nested in it. -/
def walkTree (g : Graph) (visit : Visitor σ β) (s : σ) (o : OpId) : Except Fault (Walked σ β) :=
  g.walkTreeTo visit g.depth s o

/-- Walks the operations of a block and what is nested in them. -/
def walkBlock (g : Graph) (visit : Visitor σ β) (s : σ) (b : BlockId) :
    Except Fault (Walked σ β) :=
  g.walkBlockBy (g.walkTree visit) s b

/-- Walks the operations of a region and what is nested in them. -/
def walkRegion (g : Graph) (visit : Visitor σ β) (s : σ) (r : RegionId) :
    Except Fault (Walked σ β) :=
  g.walkRegionBy (g.walkTree visit) s r

/-- Walks what is nested in an operation, without the operation itself. -/
def walkInside (g : Graph) (visit : Visitor σ β) (s : σ) (o : OpId) :
    Except Fault (Walked σ β) := do
  walkAll (g.walkRegion visit) s (← g.op o).regions

/-- Walks what is nested in an operation, visiting only operations of one kind. -/
def walkKind (g : Graph) (k : Kind) (visit : Visitor σ β) (s : σ) (o : OpId) :
    Except Fault (Walked σ β) :=
  g.walkInside (fun s o => do if ← g.isKind o k then visit s o else return (s, .advance)) s o

/-- The visitor that keeps the operations it sees, the last one first. -/
def collector : Visitor (List OpId) Unit := fun seen o => return (o :: seen, .advance)

/-- The operations nested in an operation, in pre-order. -/
def nestedOps (g : Graph) (o : OpId) : Except Fault (List OpId) := do
  return (← g.walkInside collector [] o).1.reverse

/-- An operation and the operations nested in it, in pre-order. -/
def opTree (g : Graph) (o : OpId) : Except Fault (List OpId) := do
  return (← g.walkTree collector [] o).1.reverse

end Graph

end Peephole
