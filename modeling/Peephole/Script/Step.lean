import Peephole.Pass
import Peephole.Script.Edit

/-!
# Steps of scripts

A script builds graphs, asks them questions and simplifies them, one step after the
other.  This module says what steps there are.
-/

namespace Peephole.Script

/-- A source location, its path not interned yet. -/
structure Place where
  /-- The path. -/
  path : String
  /-- The offset of the first byte. -/
  start : Nat
  /-- The offset after the last byte. -/
  stop : Nat
deriving DecidableEq, Repr

/-- A statement of a block being built. -/
inductive Stmt where
  /-- Adds an operation at the current source location. -/
  | add (spec : Spec) (name : Option String)
  /-- Adds an operation at the source location of the block. -/
  | addAtBlock (spec : Spec) (name : Option String)
  /-- Changes the current source location. -/
  | locate (place : Place)
  /-- Adds a branch around a body. -/
  | branch (condition : ValueExpr) (types : List Ty) (name : Option String)
      (names : List String) (body : List Stmt)

/-- Which checks to make. -/
inductive Check where
  /-- Both. -/
  | all
  /-- That operands are available. -/
  | scopes
  /-- That use lists and slots agree. -/
  | uses
deriving DecidableEq, Repr

/-- Where a walk goes. -/
inductive WalkFrom where
  /-- An operation and what is nested in it. -/
  | op (o : OpExpr)
  /-- What is nested in an operation. -/
  | nested (o : OpExpr)
  /-- A region. -/
  | region (r : RegionId)
  /-- A block. -/
  | block (b : BlockId)
  /-- What is nested in an operation and of one kind. -/
  | ofKind (k : Kind) (o : OpExpr)
  /-- What is nested in an operation, without skipping or stopping. -/
  | collect (o : OpExpr)

/-- A question about one thing in the graph. -/
inductive Query where
  | isLive (o : OpExpr)
  | kind (o : OpExpr)
  | operands (o : OpExpr)
  | operand (o : OpExpr) (i : Nat)
  | resultTypes (o : OpExpr)
  | results (o : OpExpr)
  | result (o : OpExpr) (i : Nat)
  | attribute (o : OpExpr) (key : String)
  | regionOf (o : OpExpr)
  | ownerOf (o : OpExpr)
  | position (o : OpExpr)
  | totalUses (o : OpExpr)
  | users (o : OpExpr)
  | type (v : ValueExpr)
  | origin (v : ValueExpr)
  | definer (v : ValueExpr)
  | uses (v : ValueExpr)
  | hasUses (v : ValueExpr)
  | useCount (v : ValueExpr)
  | available (v : ValueExpr) (o : OpExpr)
  | blockArgs (b : BlockId)
  | blockArg (b : BlockId) (i : Nat)
  | blockOps (b : BlockId)
  | regionBlocks (r : RegionId)

/-- A step of a script. -/
inductive Step where
  /-- Builds a function. -/
  | func (funcName : String) (args : List (String × Ty)) (body : List Stmt)
      (name : Option String)
  /-- Adds to a block. -/
  | append (b : BlockId) (body : List Stmt) (place : Option Place)
  /-- Makes a block. -/
  | block (args : List Ty) (names : List String) (ops : List OpExpr) (region : Option RegionId)
      (place : Option Place)
  /-- Makes a region. -/
  | region (blocks : List BlockId) (owner : Option OpExpr) (place : Option Place)
  /-- Makes an operation. -/
  | newOp (spec : Spec) (name : Option String) (block : Option BlockId)
      (place : Option Place)
  /-- Puts an operation at the end of a block. -/
  | placeLast (b : BlockId) (o : OpExpr)
  /-- Interns a path. -/
  | intern (path : String)
  /-- Prints an operation. -/
  | print (o : OpExpr)
  /-- Validates what is under an operation. -/
  | validate (o : OpExpr) (check : Check)
  /-- Validates what is under an operation and takes a finding as a fault. -/
  | requireValid (o : OpExpr) (stage : String)
  /-- Asks for the sum of an addition of constants. -/
  | foldedSum (o : OpExpr)
  /-- Asks for the parts of a function. -/
  | funcInfo (o : OpExpr)
  /-- Asks for the parts of an operation by its kind. -/
  | view (o : OpExpr)
  /-- Walks. -/
  | walk (start : WalkFrom) (skip stop : List Kind)
  /-- Asks a question. -/
  | query (q : Query)
  /-- Asks for everything. -/
  | dump
  /-- Edits the graph in one session. -/
  | edit (edits : List Edit)
  /-- Tries a rule once. -/
  | apply (rule : RuleSpec) (o : OpExpr)
  /-- Simplifies greedily. -/
  | run (o : OpExpr) (rules : List RuleSpec) (config : Config)
  /-- Runs the pass. -/
  | pass (o : OpExpr) (pass : Pass)

end Peephole.Script
