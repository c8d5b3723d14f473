import Peephole.Text.Graphic

/-!
# Quoted text

`quote` writes a text between double quotes.  A quote, a backslash and the four
controls that have a letter of their own take a backslash, and any other
character that is not graphic is written by its code point in braces.  A single
quote stands as itself.
-/

namespace Peephole.Text

/-- The code point of a character in lower-case hexadecimal, in escape braces. -/
def codePoint (c : Char) : List Char :=
  '\\' :: 'u' :: '\x7b' :: Nat.toDigits 16 c.toNat ++ ['\x7d']

/-- One character as it stands inside quotes. -/
def quoteChar (c : Char) : List Char :=
  match c with
  | '\x00' => ['\\', '0']
  | '\t' => ['\\', 't']
  | '\r' => ['\\', 'r']
  | '\n' => ['\\', 'n']
  | '\\' => ['\\', '\\']
  | '"' => ['\\', '"']
  | c => if isGraphic c then [c] else codePoint c

/-- A text between double quotes. -/
def quote (s : String) : String :=
  String.ofList ('"' :: s.toList.flatMap quoteChar ++ ['"'])

end Peephole.Text
