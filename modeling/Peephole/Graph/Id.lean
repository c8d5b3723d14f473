/-!
# Identifiers

Operations, values, blocks, regions and paths are kept in tables and named by
their place there.  A place is given out once and never used again, so the name of
an erased operation differs from that of every later one.
-/

namespace Peephole

/-- The name of an operation. -/
structure OpId where
  /-- The place in the table of operations. -/
  index : Nat
deriving DecidableEq, Repr, Inhabited

/-- The name of a value. -/
structure ValueId where
  /-- The place in the table of values. -/
  index : Nat
deriving DecidableEq, Repr, Inhabited

/-- The name of a block. -/
structure BlockId where
  /-- The place in the table of blocks. -/
  index : Nat
deriving DecidableEq, Repr, Inhabited

/-- The name of a region. -/
structure RegionId where
  /-- The place in the table of regions. -/
  index : Nat
deriving DecidableEq, Repr, Inhabited

/-- The name of an interned path. -/
structure PathId where
  /-- The place in the table of paths. -/
  index : Nat
deriving DecidableEq, Repr, Inhabited

/-- An operation's name as written. -/
def OpId.text (o : OpId) : String := "op" ++ toString o.index

/-- A value's name as written. -/
def ValueId.text (v : ValueId) : String := "v" ++ toString v.index

/-- A block's name as written. -/
def BlockId.text (b : BlockId) : String := "block" ++ toString b.index

/-- A region's name as written. -/
def RegionId.text (r : RegionId) : String := "region" ++ toString r.index

/-- A path's name as written. -/
def PathId.text (p : PathId) : String := "path" ++ toString p.index

end Peephole
