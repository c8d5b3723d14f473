import Peephole.Decimal.Shortest
import Peephole.Text.Quoted

/-!
# Types and attributes

The type of a value says whether it carries a qubit, a number or a measured bit.
An attribute is a fixed datum of an operation: a number, a text or a rotation
axis.  The attributes of an operation are kept in order of their keys.
-/

namespace Peephole

/-- The type of a value. -/
inductive Ty where
  /-- A qubit. -/
  | qubit
  /-- A number, such as a rotation angle. -/
  | number
  /-- The outcome of a measurement. -/
  | bit
deriving DecidableEq, Repr, Inhabited

/-- A type as written. -/
def Ty.text : Ty → String
  | .qubit => "qubit"
  | .number => "f64"
  | .bit => "i1"

/-- The axis of a rotation. -/
inductive Axis where
  | x
  | y
  | z
deriving DecidableEq, Repr, Inhabited

namespace Axis

/-- An axis as written. -/
def text : Axis → String
  | x => "x"
  | y => "y"
  | z => "z"

/-- The axis after this one, in the cycle x, y, z. -/
def next : Axis → Axis
  | x => y
  | y => z
  | z => x

end Axis

/-- A fixed datum of an operation. -/
inductive Attribute where
  /-- A number. -/
  | number (value : Binary64)
  /-- A text. -/
  | text (value : String)
  /-- A rotation axis. -/
  | axis (value : Axis)
deriving DecidableEq, Inhabited

namespace Attribute

/-- The number of a number attribute. -/
def number? : Attribute → Option Binary64
  | number v => some v
  | _ => none

/-- The text of a text attribute. -/
def text? : Attribute → Option String
  | text v => some v
  | _ => none

/-- The axis of an axis attribute. -/
def axis? : Attribute → Option Axis
  | axis v => some v
  | _ => none

/-- An attribute as printed: texts are quoted. -/
def render : Attribute → String
  | number v => v.text
  | text v => Text.quote v
  | axis v => v.text

end Attribute

/-- The attributes of an operation by key, in ascending order of the keys. -/
structure Attributes where
  /-- Keys with their attributes. -/
  entries : List (String × Attribute)
deriving DecidableEq, Inhabited

namespace Attributes

/-- No attributes. -/
def empty : Attributes := ⟨[]⟩

/-- Puts an attribute at its place, in front of the first greater key, or over the
one with the same key. -/
def insertEntry (key : String) (value : Attribute) :
    List (String × Attribute) → List (String × Attribute)
  | [] => [(key, value)]
  | (k, v) :: rest =>
      if key < k then (key, value) :: (k, v) :: rest
      else if key = k then (key, value) :: rest
      else (k, v) :: insertEntry key value rest

/-- The attributes with one more, or with the one of that key replaced. -/
def insert (as : Attributes) (key : String) (value : Attribute) : Attributes :=
  ⟨insertEntry key value as.entries⟩

/-- The attributes of a list of pairs, a later pair winning over an earlier one. -/
def ofList (pairs : List (String × Attribute)) : Attributes :=
  pairs.foldl (fun as (k, v) => as.insert k v) empty

/-- The attribute of a key. -/
def get? (as : Attributes) (key : String) : Option Attribute :=
  (as.entries.find? fun entry => entry.1 == key).map Prod.snd

theorem find?_insertEntry_self (key : String) (value : Attribute)
    (entries : List (String × Attribute)) :
    (insertEntry key value entries).find? (fun entry => entry.1 == key) = some (key, value) := by
  induction entries with
  | nil => simp [insertEntry]
  | cons e rest ih =>
    obtain ⟨k, v⟩ := e
    rw [insertEntry]
    split
    · simp
    · split
      · simp
      · rename_i hne
        rw [List.find?_cons_of_neg (by simpa using Ne.symm hne)]
        exact ih

/-- An attribute is found under the key it was put. -/
theorem get?_insert_self (as : Attributes) (key : String) (value : Attribute) :
    (as.insert key value).get? key = some value := by
  rw [get?, insert, find?_insertEntry_self]
  rfl

end Attributes

end Peephole
