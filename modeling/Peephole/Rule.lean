import Peephole.Session.Discretion

/-!
# Rules

A rule is offered operations of one kind.  It looks at the graph, edits it through a
session if it applies, and says whether it did.  Of the rules for a kind those of
greater benefit are tried first, and those of equal benefit in the order they were
registered.  This order is worked out once, before any rule is tried: freezing a list of
rules makes a table of places for every kind.
-/

namespace Peephole

/-- What a rule says it did. -/
inductive Match where
  /-- It applied. -/
  | applied
  /-- It did not apply. -/
  | noMatch
deriving DecidableEq, Repr

/-- A rule that simplifies a graph around an operation. -/
structure Rule where
  /-- Its name. -/
  name : String
  /-- The kind of operation it is offered. -/
  root : Kind
  /-- How early it is tried. -/
  benefit : Nat := 1
  /-- Tries the rule on an operation. -/
  apply : OpId → EditM Match
  /-- It tells the observer nothing without a change. -/
  discreet : ∀ o, (apply o).Discreet

/-- Rules in the order they were registered. -/
structure RuleList where
  /-- The rules. -/
  rules : List Rule

/-- Rules that are ready to be tried. -/
structure RuleSet where
  /-- The rules, in the order they were registered. -/
  rules : List Rule
  /-- For every kind, at its index, the places of its rules in the order they are tried. -/
  tables : Vector (List (Fin rules.length)) Kind.count
  /-- The table of a kind has the rules for it and no others. -/
  mem_tables : ∀ (k : Kind) (i : Fin rules.length),
    i ∈ tables[k.place] ↔ rules[i].root = k

namespace RuleList

/-- Adds the place of a rule to the table of its kind. -/
def enter (rs : RuleList) (tables : Vector (List (Fin rs.rules.length)) Kind.count)
    (i : Fin rs.rules.length) : Vector (List (Fin rs.rules.length)) Kind.count :=
  let k := rs.rules[i].root.place
  tables.set k (tables[k] ++ [i])

/-- For every kind the places of its rules, in the order they were registered. -/
def entered (rs : RuleList) : Vector (List (Fin rs.rules.length)) Kind.count :=
  (List.finRange rs.rules.length).foldl rs.enter (Vector.replicate Kind.count [])

/-- Whether the rule at the first place has no less benefit than the one at the second. -/
def outranks (rs : RuleList) (i j : Fin rs.rules.length) : Bool :=
  rs.rules[j].benefit ≤ rs.rules[i].benefit

/-- Entering places one after the other appends to every table those of its kind. -/
theorem getElem_enterAll (rs : RuleList) (k : Kind) :
    ∀ (places : List (Fin rs.rules.length))
      (tables : Vector (List (Fin rs.rules.length)) Kind.count),
      (places.foldl rs.enter tables)[k.place] =
        tables[k.place] ++ places.filter fun i => rs.rules[i].root = k
  | [], tables => (List.append_nil _).symm
  | i :: rest, tables => by
      rw [List.foldl_cons, getElem_enterAll rs k rest, List.filter_cons]
      by_cases hk : rs.rules[i.val].root = k
      · simp [enter, hk]
      · simp [enter, hk]

theorem getElem_entered (rs : RuleList) (k : Kind) : rs.entered[k.place] =
    (List.finRange rs.rules.length).filter fun i => rs.rules[i].root = k := by
  rw [entered, getElem_enterAll]
  simp

/-- Makes the tables, each of them sorted by benefit. -/
def freeze (rs : RuleList) : RuleSet where
  rules := rs.rules
  tables := rs.entered.map fun table => table.mergeSort rs.outranks
  mem_tables k i := by
    have hk := rs.getElem_entered k
    simp_all

@[simp]
theorem rules_freeze (rs : RuleList) : rs.freeze.rules = rs.rules := rfl

end RuleList

namespace RuleSet

/-- The number of rules. -/
def size (rs : RuleSet) : Nat := rs.rules.length

/-- Whether there are none. -/
def isEmpty (rs : RuleSet) : Bool := rs.rules.isEmpty

/-- The rules for a kind, in the order they are tried. -/
def rulesFor (rs : RuleSet) (k : Kind) : List Rule :=
  rs.tables[k.place].map fun i => rs.rules[i]

end RuleSet

end Peephole
