/-!
# Kinds of operation

The operations of a circuit come in twelve kinds, from four families.  A kind is
written as its family and its name with a point between them.
-/

namespace Peephole

/-- The kind of an operation. -/
inductive Kind where
  /-- A function.  Its arguments are those of the first block of its body. -/
  | func
  /-- Leaves a function. -/
  | ret
  /-- Runs a nested region if a measured bit is set. -/
  | branch
  /-- Leaves the region of a branch. -/
  | yield
  /-- Makes a new qubit. -/
  | alloc
  /-- Rotates a qubit about an axis, by an angle operand. -/
  | rotate
  /-- The Hadamard gate. -/
  | hadamard
  /-- The Pauli X gate. -/
  | pauliX
  /-- The Pauli Z gate. -/
  | pauliZ
  /-- Measures a qubit. -/
  | measure
  /-- A number known in advance. -/
  | const
  /-- The sum of two numbers. -/
  | add
deriving DecidableEq, Repr, Inhabited

namespace Kind

/-- Every kind, in the order of their indices. -/
def all : List Kind :=
  [func, ret, branch, yield, alloc, rotate, hadamard, pauliX, pauliZ, measure, const, add]

/-- The place of a kind in `all`. -/
def index : Kind → Nat
  | func => 0
  | ret => 1
  | branch => 2
  | yield => 3
  | alloc => 4
  | rotate => 5
  | hadamard => 6
  | pauliX => 7
  | pauliZ => 8
  | measure => 9
  | const => 10
  | add => 11

/-- The number of kinds. -/
def count : Nat := all.length

/-- The family a kind belongs to. -/
def family : Kind → String
  | func | ret => "func"
  | branch | yield => "scf"
  | alloc | rotate | hadamard | pauliX | pauliZ | measure => "quantum"
  | const | add => "arith"

/-- The name of a kind within its family. -/
def name : Kind → String
  | func => "func"
  | ret => "return"
  | branch => "if"
  | yield => "yield"
  | alloc => "alloc"
  | rotate => "rotate"
  | hadamard => "h"
  | pauliX => "x"
  | pauliZ => "z"
  | measure => "measure"
  | const => "constf"
  | add => "addf"

/-- A kind as written, family first. -/
def text (k : Kind) : String := k.family ++ "." ++ k.name

/-- The kind written as the given text. -/
def ofText? (s : String) : Option Kind := all.find? fun k => k.text == s

/-- Kinds whose only effect is their results, so that an operation with unused
results may go.  Gates are not among them: a gate changes its qubit whether or not
anyone reads the result. -/
def isPure : Kind → Bool
  | const | add => true
  | _ => false

theorem mem_all (k : Kind) : k ∈ all := by cases k <;> decide

theorem all_getElem_index (k : Kind) : all[k.index]? = some k := by cases k <;> rfl

theorem index_lt (k : Kind) : k.index < count := by cases k <;> decide

/-- The index of a kind, in tables with an entry for every kind. -/
def place (k : Kind) : Fin count := ⟨k.index, k.index_lt⟩

theorem index_inj {k k' : Kind} : k.index = k'.index ↔ k = k' := by
  refine ⟨fun h => ?_, congrArg index⟩
  have hk := all_getElem_index k
  rw [h, all_getElem_index k'] at hk
  exact (Option.some.inj hk).symm

@[simp]
theorem place_inj {k k' : Kind} : k.place.val = k'.place.val ↔ k = k' := index_inj

end Kind

end Peephole
