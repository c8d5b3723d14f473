import Peephole.Graph.Id

/-!
# Interned paths and locations

Source paths are interned: equal paths have one name, and names are numbered in
order of first occurrence.  The paths are kept twice, by number and in a table that
is searched by path.  A location is a path with a span of byte offsets in it.
-/

namespace Peephole

/-- A table of names, searched by path. -/
structure PathTable where
  /-- The rows, the last one entered first. -/
  rows : List (String × PathId)
deriving DecidableEq, Inhabited

namespace PathTable

/-- The table without rows. -/
def empty : PathTable := ⟨[]⟩

/-- The name entered for a path. -/
def get? (t : PathTable) (path : String) : Option PathId := t.rows.lookup path

/-- Enters a name for a path, in place of the one it had. -/
def insert (t : PathTable) (path : String) (p : PathId) : PathTable :=
  ⟨(path, p) :: t.rows.filter fun row => row.1 ≠ path⟩

end PathTable

/-- The paths met so far, in order of first occurrence. -/
structure Paths where
  /-- The paths by number. -/
  entries : Array String
  /-- The names by path. -/
  table : PathTable
deriving DecidableEq, Inhabited

namespace Paths

/-- No path met yet. -/
def empty : Paths := ⟨#[], .empty⟩

/-- The name of a path, a new one if the path was not met before. -/
def intern (ps : Paths) (path : String) : PathId × Paths :=
  match ps.table.get? path with
  | some p => (p, ps)
  | none =>
      let p : PathId := ⟨ps.entries.size⟩
      (p, ⟨ps.entries.push path, ps.table.insert path p⟩)

/-- The path of a name. -/
def get? (ps : Paths) (p : PathId) : Option String := ps.entries[p.index]?

/-- Interns paths one after the other and collects their names. -/
def internAll (ps : Paths) : List String → List PathId × Paths
  | [] => ([], ps)
  | path :: rest =>
      let (p, ps) := ps.intern path
      let (names, ps) := ps.internAll rest
      (p :: names, ps)

end Paths

/-- A place in a source text. -/
structure Location where
  /-- The source. -/
  path : PathId
  /-- The offset of its first byte. -/
  start : Nat
  /-- The offset after its last byte. -/
  stop : Nat
deriving DecidableEq, Repr, Inhabited

end Peephole
