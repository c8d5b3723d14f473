import Peephole.Graph.Walk

/-!
# Printing

An operation is printed with everything nested in it, one operation to a line.
Values are numbered in the order they are printed, and every function starts its
numbering over.  The operands of an operation are named before its results are
numbered, so a value that is not known yet where it is read is written `%?`.
-/

namespace Peephole

/-- The numbers given to values so far. -/
structure Numbering where
  /-- Values with their numbers, the last one numbered first. -/
  known : List (ValueId × Nat)
  /-- The next number. -/
  next : Nat
deriving DecidableEq, Repr

namespace Numbering

/-- No value numbered. -/
def empty : Numbering := ⟨[], 0⟩

/-- A number as a name. -/
def label (n : Nat) : String := s!"%{n}"

/-- The name of a value where it is read. -/
def name (ns : Numbering) (v : ValueId) : String :=
  match ns.known.find? fun entry => entry.1 = v with
  | some (_, n) => label n
  | none => "%?"

/-- Gives a value the next number. -/
def assign (ns : Numbering) (v : ValueId) : Numbering := ⟨(v, ns.next) :: ns.known, ns.next + 1⟩

/-- Gives values the next numbers, and their names. -/
def assignAll (ns : Numbering) : List ValueId → List String × Numbering
  | [] => ([], ns)
  | v :: rest =>
      let (names, after) := (ns.assign v).assignAll rest
      (label ns.next :: names, after)

end Numbering

/-- Texts with a comma between them. -/
def commaList (texts : List String) : String := ", ".intercalate texts

/-- Blanks to start a line with. -/
def margin (width : Nat) : String := String.ofList (List.replicate width ' ')

/-- Attributes in braces, nothing if there are none. -/
def Attributes.text (as : Attributes) : String :=
  if as.entries.isEmpty then ""
  else " \x7b" ++ commaList (as.entries.map fun (key, a) => s!"{key} = {a.render}") ++ "\x7d"

namespace Graph

/-- A text and the numbering after it. -/
abbrev Printed := String × Numbering

/-- Prints one thing after the other. -/
def printAll {α : Type} (print : Numbering → α → Except Fault Printed) :
    Numbering → List α → Except Fault Printed
  | ns, [] => return ("", ns)
  | ns, a :: rest => do
      let (first, ns) ← print ns a
      let (others, ns) ← printAll print ns rest
      return (first ++ others, ns)

/-- Block arguments with their types, newly numbered. -/
def printArgs (g : Graph) (ns : Numbering) (args : List ValueId) : Except Fault Printed := do
  let (names, ns) := ns.assignAll args
  let types ← args.mapM fun v => return (← g.value v).type
  return (commaList (names.zipWith (fun name type => s!"{name}: {type.text}") types), ns)

/-- The line that starts the block at position `i` of its region. -/
def printLabel (g : Graph) (width : Nat) (ns : Numbering) (i : Nat) (b : BlockId) :
    Except Fault Printed := do
  let start := margin width ++ s!"^bb{i}"
  let args := g.blockArgs b
  if args.isEmpty then return (start ++ ":\n", ns)
  else
    let (text, ns) ← g.printArgs ns args
    return (start ++ "(" ++ text ++ "):\n", ns)

/-- Prints the operations of a block by the given printer of one operation. -/
def printBlockBy (g : Graph) (print : Numbering → OpId → Except Fault Printed) (ns : Numbering)
    (b : BlockId) : Except Fault Printed := do
  printAll print ns (← g.block b).ops

/-- Prints blocks with the lines that start them. -/
def printLabelledBy (g : Graph) (print : Numbering → OpId → Except Fault Printed) (width : Nat)
    (ns : Numbering) (blocks : List (BlockId × Nat)) : Except Fault Printed :=
  printAll (fun ns (b, i) => do
    let (label, ns) ← g.printLabel width ns i b
    let (body, ns) ← g.printBlockBy print ns b
    return (label ++ body, ns)) ns blocks

/-- Prints a region.  The line that starts a block is left out if the block is the
only one and has no arguments. -/
def printRegionBy (g : Graph) (print : Numbering → OpId → Except Fault Printed) (width : Nat)
    (ns : Numbering) (r : RegionId) : Except Fault Printed := do
  match (← g.region r).blocks with
  | [b] =>
      if (g.blockArgs b).isEmpty then g.printBlockBy print ns b
      else g.printLabelledBy print width ns [(b, 0)]
  | blocks => g.printLabelledBy print width ns blocks.zipIdx

/-- Prints an operation that is not a function. -/
def printPlainBy (g : Graph) (print : Numbering → OpId → Except Fault Printed) (width : Nat)
    (ns : Numbering) (data : Op) : Except Fault Printed := do
  let operands := data.operands.map ns.name
  let (names, ns) := ns.assignAll data.results
  let results := if names.isEmpty then "" else commaList names ++ " = "
  let inputs := if operands.isEmpty then "" else " " ++ commaList operands
  let types :=
    if data.resultTypes.isEmpty then "" else " : " ++ commaList (data.resultTypes.map Ty.text)
  let (regions, ns) ← printAll (fun ns r => do
    let (body, ns) ← g.printRegionBy print width ns r
    return (" \x7b\n" ++ body ++ margin width ++ "\x7d", ns)) ns data.regions
  return (margin width ++ results ++ data.kind.text ++ inputs ++ data.attributes.text ++ types
    ++ regions ++ "\n", ns)

/-- Prints a function.  The arguments of its first block are its own. -/
def printFuncBy (g : Graph) (print : Numbering → OpId → Except Fault Printed) (width : Nat)
    (data : Op) : Except Fault Printed := do
  let name :=
    match (data.attributes.get? "sym_name").bind Attribute.text? with
    | some name => " @" ++ name
    | none => ""
  let start := margin width ++ data.kind.text ++ name
  match data.regions with
  | [] => return (start ++ "\n", .empty)
  | body :: _ =>
      match (← g.region body).blocks with
      | [] => return (start ++ "() \x7b\n" ++ margin width ++ "\x7d\n", .empty)
      | first :: others =>
          let (args, ns) ← g.printArgs .empty (g.blockArgs first)
          let (head, ns) ← g.printBlockBy print ns first
          let (tail, ns) ← g.printLabelledBy print width ns (others.zipIdx 1)
          return (start ++ "(" ++ args ++ ") \x7b\n" ++ head ++ tail ++ margin width ++ "\x7d\n",
            ns)

/-- Prints an operation at a margin, with nesting down to the given depth. -/
def printTo (g : Graph) : (depth : Nat) → (width : Nat) → Numbering → OpId → Except Fault Printed
  | 0, _, _, _ => throw .endless
  | depth + 1, width, ns, o => do
      let data ← g.op o
      let print := g.printTo depth (width + 2)
      if data.kind = .func then g.printFuncBy print width data
      else g.printPlainBy print width ns data

/-- An operation as text, with everything nested in it. -/
def opText (g : Graph) (o : OpId) : Except Fault String := do
  return (← g.printTo g.depth 0 .empty o).1

end Graph

end Peephole
