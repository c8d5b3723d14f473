import Peephole.Circuit
import Peephole.Decimal.Reader

/-!
# The command line

A command line names one of the demo circuits and says how to build and optimise it.
`parse?` reads it, and `execute` prints the circuit, runs the pass and prints the
circuit again.

An option is written with two dashes.  Its value follows after an equals sign, or as
the next word if that does not start with a dash.  Options are given at most once, but
for the angles, whose lists are joined.  The only one-letter option is `-v`, which
stands on either side of the circuit's name.  It asks for log lines, of which this
program has none.
-/

namespace Peephole.CommandLine

/-! ## Words -/

/-- What an option takes. -/
inductive Arity where
  /-- Nothing. -/
  | flag
  /-- A value. -/
  | value
deriving DecidableEq, Repr

/-- An option as given, without its dashes. -/
structure Given where
  /-- Its name. -/
  name : String
  /-- Its value, if it takes one. -/
  value : Option String
deriving DecidableEq, Repr

/-- What the options of a command take, by their names. -/
abbrev Options := List (String × Arity)

/-- Whether a word can be the value of the option before it. -/
def isValueWord (word : String) : Bool := word = "-" || !word.toList.head? == some '-'

/-- Reads the words of a command.  Gives `none` for a word that is no option of the
command, a value that is missing or not wanted, and anything after a final `--`. -/
def given? (options : Options) : List String → Option (List Given)
  | [] => some []
  | "--" :: rest => if rest.isEmpty then some [] else none
  | word :: rest =>
      match word.toList with
      | '-' :: '-' :: chars =>
          let name := String.ofList (chars.takeWhile (· ≠ '='))
          match options.lookup name, chars.dropWhile (· ≠ '='), rest with
          | some .flag, [], rest => (given? options rest).map (⟨name, none⟩ :: ·)
          | some .value, _ :: value, rest =>
              (given? options rest).map (⟨name, some (String.ofList value)⟩ :: ·)
          | some .value, [], value :: rest =>
              if isValueWord value then (given? options rest).map (⟨name, some value⟩ :: ·)
              else none
          | _, _, _ => none
      | ['-', 'v'] => (given? options rest).map (⟨"verbose", none⟩ :: ·)
      | _ => none

/-- Whether no option but the angles is given twice. -/
def givenOnce (given : List Given) : Bool :=
  let names := (given.map Given.name).filter (· ≠ "angles")
  names.eraseDups.length = names.length

/-- Whether an option is given. -/
def isGiven (given : List Given) (name : String) : Bool := given.any fun o => o.name = name

/-- Reads the value of an option, which has a default if it is not given. -/
def readValue? {α : Type} (given : List Given) (name : String) (default : α)
    (read? : String → Option α) : Option α :=
  match (given.find? fun o => o.name = name).bind Given.value with
  | none => some default
  | some text => read? text

/-! ## Commands -/

/-- What is printed for a command line that is not well-formed. -/
def usage : String := "Usage: qhx [OPTIONS] <fuse|hadamard>"

/-- The circuit to build. -/
inductive Source where
  /-- A rotation series. -/
  | rotations (s : RotationSeries)
  /-- The Hadamard series. -/
  | hadamards
deriving DecidableEq

/-- What a command line asks for. -/
structure Command where
  /-- The circuit. -/
  source : Source
  /-- The pass to run on it. -/
  pass : Pass

/-- The options that stand on either side of the circuit's name. -/
def globalOptions : Options := [("verbose", .flag)]

/-- The options that say how to optimise. -/
def passOptions : Options :=
  [("max-iterations", .value), ("max-rewrites", .value), ("unbounded", .flag),
    ("no-fold", .flag), ("permissive-axis", .flag), ("verify-each", .flag)]

/-- The options that say what rotation series to build. -/
def seriesOptions : Options :=
  [("angles", .value), ("axis", .value), ("mixed-axes", .flag), ("cross-region", .flag)]

/-- Reads an axis. -/
def readAxis? : String → Option Axis
  | "x" => some .x
  | "y" => some .y
  | "z" => some .z
  | _ => none

/-- The parts of a text between commas, which may be empty. -/
def commaParts (text : String) : List String :=
  (text.toList.splitOn ',').map String.ofList

/-- The angles of a series that is given none: a quarter and a half. -/
def defaultAngles : List Binary64 := [.ofRatio false 1 4, .ofRatio false 1 2]

/-- Reads the angles, from all the lists that are given. -/
def readAngles? (given : List Given) : Option (List Binary64) :=
  match (given.filter fun o => o.name = "angles").filterMap Given.value with
  | [] => some defaultAngles
  | lists => (lists.flatMap commaParts).mapM readBinary64?

/-- Reads how to optimise.  A budget of reductions and no budget exclude each other. -/
def readPass? (given : List Given) : Option Pass := do
  let maxSweeps ← readValue? given "max-iterations" 10 readCount?
  let budget ← readValue? given "max-rewrites" 10000 readCount?
  let unbounded := isGiven given "unbounded"
  if unbounded && isGiven given "max-rewrites" then none
  else
    return {
      config := {
        maxSweeps
        budget := if unbounded then none else some budget
        fold := !isGiven given "no-fold"
        verify := isGiven given "verify-each" }
      axisMatch := if isGiven given "permissive-axis" then .any else .same }

/-- Reads what rotation series to build. -/
def readSeries? (given : List Given) : Option RotationSeries := do
  return {
    angles := ← readAngles? given
    axis := ← readValue? given "axis" .z readAxis?
    cycleAxes := isGiven given "mixed-axes"
    lastBranched := isGiven given "cross-region" }

/-- Reads the words after the circuit's name. -/
def readCommand? (name : String) (words : List String) : Option Command := do
  let own := if name = "fuse" then seriesOptions else []
  let given ← given? (globalOptions ++ passOptions ++ own) words
  if !givenOnce given then none
  let pass ← readPass? given
  match name with
  | "fuse" => return ⟨.rotations (← readSeries? given), pass⟩
  | "hadamard" => return ⟨.hadamards, pass⟩
  | _ => none

/-- Reads a command line, the program's name left out.  Gives `none` if it is not
well-formed. -/
def parse? (words : List String) : Option Command :=
  let before := words.takeWhile fun word => word.toList.head? == some '-'
  match words.dropWhile fun word => word.toList.head? == some '-' with
  | [] => none
  | name :: rest =>
      if "--" ∈ before then none
      else
        match given? globalOptions before with
        | some given => if givenOnce given then readCommand? name rest else none
        | none => none

/-! ## Execution -/

/-- What the program leaves. -/
structure Response where
  /-- The exit code. -/
  code : UInt8
  /-- The text on standard output. -/
  output : String
  /-- The lines on standard error. -/
  errors : List String
deriving DecidableEq, Repr

/-- The circuit to build. -/
def Source.build : Source → Except Fault Circuit
  | rotations s => s.build
  | hadamards => hadamardSeries

/-- Builds the circuit, runs the pass, and prints the circuit before and after. -/
def Command.execute (c : Command) : Except Fault Response := do
  let circuit ← c.source.build
  let before ← circuit.print
  let (result, circuit) ← circuit.optimize c.pass
  let after ← circuit.print
  let output := "=== Input ===\n" ++ before ++ "\n=== Output ===\n" ++ after ++ "\n"
  match result with
  | .ok done =>
      let summary :=
        s!"converged after {done.sweeps} sweep(s), {done.reductions} rewrite(s)\n"
      return ⟨0, output ++ summary, []⟩
  | .error failure => return ⟨1, output, ["error: " ++ failure.message]⟩

end Peephole.CommandLine
