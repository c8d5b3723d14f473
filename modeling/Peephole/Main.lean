import Peephole.CommandLine

/-!
# The program

Reads the command line, does what it asks for and leaves with its exit code.  A
command line that is not well-formed gets the usage line and exit code 2.
-/

open Peephole

/-- The program. -/
def main (words : List String) : IO UInt32 := do
  match CommandLine.parse? words with
  | none =>
      IO.eprintln CommandLine.usage
      return 2
  | some command =>
      match command.execute with
      | .error fault =>
          IO.eprintln (fault.message.getD "index out of bounds")
          return 101
      | .ok response =>
          IO.print response.output
          response.errors.forM fun line => IO.eprintln line
          return response.code.toUInt32
