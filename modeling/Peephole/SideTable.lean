/-!
# Side tables

A side table holds one entry per number, and an entry that was never written reads
as the default.  Writing past the end makes room first, so a number may be written
before the thing it names exists.
-/

namespace Peephole

/-- Entries by number, with a default for those never written. -/
structure SideTable (α : Type) where
  /-- The entries up to the last one written. -/
  entries : Array α
deriving DecidableEq, Inhabited

namespace SideTable

variable {α : Type} [Inhabited α]

/-- Nothing written yet. -/
def empty : SideTable α := ⟨#[]⟩

/-- The entry of a number. -/
def get (t : SideTable α) (i : Nat) : α := t.entries[i]?.getD default

/-- Changes the entry of a number. -/
def modify (t : SideTable α) (i : Nat) (f : α → α) : SideTable α :=
  ⟨(t.entries ++ Array.replicate (i + 1 - t.entries.size) default).modify i f⟩

/-- Writes the entry of a number. -/
def set (t : SideTable α) (i : Nat) (a : α) : SideTable α := t.modify i fun _ => a

@[simp]
theorem get_empty (i : Nat) : (empty : SideTable α).get i = default := by
  simp [empty, get]

theorem get_modify (t : SideTable α) (i j : Nat) (f : α → α) :
    (t.modify i f).get j = if i = j then f (t.get j) else t.get j := by
  simp only [get, modify, Array.getElem?_modify, Array.getElem?_append, Array.getElem?_replicate]
  grind

@[simp]
theorem get_modify_self (t : SideTable α) (i : Nat) (f : α → α) :
    (t.modify i f).get i = f (t.get i) := by
  simp [get_modify]

theorem get_modify_of_ne (t : SideTable α) {i j : Nat} (h : i ≠ j) (f : α → α) :
    (t.modify i f).get j = t.get j := by
  simp [get_modify, h]

theorem get_set (t : SideTable α) (i j : Nat) (a : α) :
    (t.set i a).get j = if i = j then a else t.get j := by
  simp [set, get_modify]

end SideTable

end Peephole
