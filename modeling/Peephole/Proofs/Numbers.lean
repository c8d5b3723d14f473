import Peephole.Proofs.Pieces

/-!
# Names by number

While pieces are written, values are numbered, and a value goes by its number from there on.  All
numbers that are known at a time are different (`Numbering.Distinct`), so two values never have the
same name, other than `%?`, which says that there is none.

A function starts the numbering over.  What was numbered before it begins is not known any more, not
even after its end.  `Piece.faithful_or_forgotten` says that this is the only way to lose a name.
-/

namespace Peephole

/-! ## Names by a numbering -/

namespace Numbering

variable {ns : Numbering} {v w : ValueId} {vs : List ValueId}

theorem label_eq (n : Nat) : label n = "%" ++ n.repr := by
  simp [label, ToString.toString]

theorem label_inj {m n : Nat} : label m = label n ↔ m = n := by
  rw [label_eq, label_eq, String.append_right_inj]
  refine ⟨fun h => ?_, congrArg _⟩
  have hdigits : Nat.toDigits 10 m = Nat.toDigits 10 n := by
    rw [← Nat.toList_repr, h, Nat.toList_repr]
  rw [← Nat.ofDigitChars_ten_toDigits (n := m), hdigits, Nat.ofDigitChars_ten_toDigits]

theorem label_ne_unknown (n : Nat) : label n ≠ "%?" := by
  intro h
  have hrepr : "%" ++ n.repr = "%" ++ "?" := (label_eq n).symm.trans h
  have hdigits : Nat.toDigits 10 n = ['?'] := by
    rw [← String.ofList_inj]
    exact (String.append_right_inj _).1 hrepr
  have hdigit : ('?').isDigit = true := by
    refine Nat.isDigit_of_mem_toDigits (n := n) (by decide : 0 < 10) (Nat.le_refl 10) ?_
    rw [hdigits]
    exact .head _
  revert hdigit
  decide

/-- A value is written with its number if it has one. -/
theorem name_cases (ns : Numbering) (v : ValueId) :
    (∃ n, (v, n) ∈ ns.known ∧ ns.name v = label n) ∨
      (∀ n, (v, n) ∉ ns.known) ∧ ns.name v = "%?" := by
  rw [name]
  split
  · rename_i w n hfind
    have hw : w = v := by simpa using List.find?_some hfind
    cases hw
    exact .inl ⟨n, List.mem_of_find?_eq_some hfind, rfl⟩
  · rename_i hfind
    refine .inr ⟨fun n hn => ?_, rfl⟩
    simpa using List.find?_eq_none.1 hfind (v, n) hn

theorem name_of_unknown (h : ∀ n, (v, n) ∉ ns.known) : ns.name v = "%?" := by
  rcases name_cases ns v with ⟨n, hn, -⟩ | ⟨-, h⟩
  · exact absurd hn (h n)
  · exact h

theorem name_assign_self : (ns.assign v).name v = label ns.next := by
  simp [name, assign]

theorem name_assign_of_ne (h : w ≠ v) : (ns.assign w).name v = ns.name v := by
  simp [name, assign, h]

theorem assignAll_append (ns : Numbering) (vs ws : List ValueId) :
    (ns.assignAll (vs ++ ws)).2 = ((ns.assignAll vs).2.assignAll ws).2 := by
  induction vs generalizing ns with
  | nil => rfl
  | cons v vs ih => exact ih (ns.assign v)

theorem name_assignAll_of_not_mem (h : v ∉ vs) : (ns.assignAll vs).2.name v = ns.name v := by
  induction vs generalizing ns with
  | nil => rfl
  | cons w vs ih =>
    rw [List.mem_cons, not_or] at h
    exact (ih h.2).trans (name_assign_of_ne (Ne.symm h.1))

/-- Values that are numbered one after the other go by the names they are given. -/
theorem name_assignAll (hvs : vs.Nodup) (hv : v ∈ vs) :
    (v, (ns.assignAll vs).2.name v) ∈ vs.zip (ns.assignAll vs).1 := by
  induction vs generalizing ns with
  | nil => cases hv
  | cons w vs ih =>
    obtain ⟨hw, hvs⟩ := List.nodup_cons.1 hvs
    rcases List.mem_cons.1 hv with rfl | hv
    · have hname : (ns.assignAll (v :: vs)).2.name v = label ns.next :=
        (name_assignAll_of_not_mem hw).trans name_assign_self
      rw [hname]
      exact .head _
    · exact .tail _ (ih hvs hv)

theorem ne_unknown_of_mem {s : String} (h : s ∈ (ns.assignAll vs).1) : s ≠ "%?" := by
  induction vs generalizing ns with
  | nil => cases h
  | cons v vs ih =>
    rcases List.mem_cons.1 h with rfl | h
    · exact label_ne_unknown ns.next
    · exact ih h

/-- Numbers are given out once. -/
structure Distinct (ns : Numbering) : Prop where
  below {e : ValueId × Nat} : e ∈ ns.known → e.2 < ns.next
  inj {e e' : ValueId × Nat} : e ∈ ns.known → e' ∈ ns.known → e.2 = e'.2 → e = e'

theorem Distinct.empty : Distinct .empty := ⟨nofun, nofun⟩

theorem Distinct.assign (h : Distinct ns) (v : ValueId) : Distinct (ns.assign v) where
  below he := by
    rcases List.mem_cons.1 he with rfl | he
    · exact Nat.lt_succ_self _
    · exact Nat.lt_succ_of_lt (h.below he)
  inj he he' heq := by
    rcases List.mem_cons.1 he with rfl | he <;> rcases List.mem_cons.1 he' with rfl | he'
    · rfl
    · exact absurd heq (Nat.ne_of_gt (h.below he'))
    · exact absurd heq (Nat.ne_of_lt (h.below he))
    · exact h.inj he he' heq

theorem Distinct.assignAll (h : Distinct ns) (vs : List ValueId) :
    Distinct (ns.assignAll vs).2 := by
  induction vs generalizing ns with
  | nil => exact h
  | cons v vs ih => exact ih (h.assign v)

/-- Values that have the same name are one value, or both have none. -/
theorem Distinct.name_inj (h : Distinct ns) (heq : ns.name v = ns.name w) :
    ns.name v = "%?" ∨ v = w := by
  rcases name_cases ns v with ⟨n, hn, hv⟩ | ⟨-, hv⟩
  · rcases name_cases ns w with ⟨m, hm, hw⟩ | ⟨-, hw⟩
    · rw [hv, hw, label_inj] at heq
      exact .inr (congrArg Prod.fst (h.inj hn hm heq))
    · exact .inl (heq.trans hw)
  · exact .inl hv

end Numbering

namespace Piece

variable {ps qs : List Piece} {v : ValueId} {ns : Numbering}

/-- The numbering after pieces that nothing is printed before. -/
def numbering (ps : List Piece) : Numbering := (fillAll .empty ps).2

/-- The names that a piece is written with for the values it numbers. -/
def names (ns : Numbering) (p : Piece) : List String := (ns.assignAll p.made).1

/-- The value was numbered in these pieces and no function has begun since, and it still goes by
the name that it was written with there. -/
def Faithful (ps : List Piece) (v : ValueId) : Prop :=
  ∃ before p since, ps = before ++ p :: since ∧ .restart ∉ since ∧
    (v, (numbering ps).name v) ∈ p.made.zip (p.names (numbering before))

/-- The value was numbered in these pieces, and a function has begun since. -/
def Forgotten (ps : List Piece) (v : ValueId) : Prop :=
  ∃ before p since, ps = before ++ p :: since ∧ v ∈ p.made ∧ .restart ∈ since

theorem numbering_append (ps qs : List Piece) :
    numbering (ps ++ qs) = (fillAll (numbering ps) qs).2 := by
  rw [numbering, fillAll_append, numbering]

theorem fill_distinct {p : Piece} (h : ns.Distinct) : (p.fill ns).2.Distinct := by
  cases p with
  | text s => exact h
  | args vs types => exact h.assignAll vs
  | line l => exact h.assignAll l.results
  | restart => exact .empty

theorem fillAll_distinct (h : ns.Distinct) (ps : List Piece) : (fillAll ns ps).2.Distinct := by
  induction ps generalizing ns with
  | nil => exact h
  | cons p ps ih => exact ih (fill_distinct h)

theorem known_fillAll {e : ValueId × Nat} (h : e ∈ (fillAll ns ps).2.known) :
    e ∈ ns.known ∨ e.1 ∈ ps.flatMap made := by
  induction ps generalizing ns with
  | nil => exact .inl h
  | cons p ps ih =>
    rw [List.flatMap_cons, List.mem_append]
    rcases ih h with he | he
    · exact (known_fill he).imp_right .inl
    · exact .inr (.inr he)

/-- As long as no function begins, pieces number the values they make, one after the other. -/
theorem fillAll_numbers (h : .restart ∉ ps) :
    (fillAll ns ps).2 = (ns.assignAll (ps.flatMap made)).2 := by
  induction ps generalizing ns with
  | nil => rfl
  | cons p ps ih =>
    rw [List.mem_cons, not_or] at h
    have hp : (p.fill ns).2 = (ns.assignAll p.made).2 := by
      cases p with
      | restart => exact absurd rfl h.1
      | _ => rfl
    rw [fillAll, List.flatMap_cons, Numbering.assignAll_append, ← hp]
    exact ih h.2

/-- A value that no piece makes has no name after the pieces. -/
theorem name_of_not_made (hv : v ∉ ps.flatMap made) : (numbering ps).name v = "%?" := by
  refine Numbering.name_of_unknown fun n hn => ?_
  rcases known_fillAll hn with hn | hn
  · cases hn
  · exact hv hn

/-- A value that is made by pieces, each value being made once, is known by the name it was given,
or a function has begun since and it has no name. -/
theorem faithful_or_forgotten (hps : (ps.flatMap made).Nodup) (hv : v ∈ ps.flatMap made) :
    (numbering ps).name v ≠ "%?" ∧ Faithful ps v ∨
      (numbering ps).name v = "%?" ∧ Forgotten ps v := by
  obtain ⟨p, hp, hvp⟩ := List.mem_flatMap.1 hv
  obtain ⟨before, since, rfl⟩ := List.append_of_mem hp
  rw [List.flatMap_append, List.flatMap_cons] at hps
  obtain ⟨hmade, -, hdisjoint⟩ := List.nodup_append'.1 (List.nodup_append'.1 hps).2.1
  have hsince : v ∉ since.flatMap made := fun h => hdisjoint hvp h
  by_cases hrestart : .restart ∈ since
  · refine .inr ⟨?_, before, p, since, rfl, hvp, hrestart⟩
    obtain ⟨s, t, rfl⟩ := List.append_of_mem hrestart
    have hnumbering : numbering (before ++ p :: (s ++ restart :: t)) = numbering t := by
      rw [← List.cons_append, ← List.append_assoc, numbering_append]
      rfl
    rw [hnumbering]
    refine name_of_not_made fun ht => hsince ?_
    rw [List.flatMap_append, List.flatMap_cons]
    exact List.mem_append_right _ (List.mem_append_right _ ht)
  · have hne : .restart ∉ p :: since := by
      rintro (_ | ⟨_, h⟩)
      · cases hvp
      · exact hrestart h
    have hname : (numbering (before ++ p :: since)).name v =
        ((numbering before).assignAll p.made).2.name v := by
      rw [numbering_append, fillAll_numbers hne, List.flatMap_cons, Numbering.assignAll_append,
        Numbering.name_assignAll_of_not_mem hsince]
    have hzip := @Numbering.name_assignAll (numbering before) v p.made hmade hvp
    rw [← hname] at hzip
    exact .inl ⟨Numbering.ne_unknown_of_mem (List.of_mem_zip hzip).2,
      before, p, since, rfl, hrestart, hzip⟩

end Piece

end Peephole
