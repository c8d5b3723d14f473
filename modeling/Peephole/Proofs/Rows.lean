import Peephole.Proofs.Completeness
import Peephole.Proofs.Order

/-!
# Rotations in a row

A *row* is a sequence of rotations, each on the qubit that the one before it gives.  In a
function with no other gates a sweep takes the rotations of a row in their order, and each one
takes over the one before it if their axes allow that.

`Graph.Rotating` describes the function in the middle of such a sweep.  The row has a front
part, where everything that could be fused has been, and a rest of rotations that are still to
come.  When the next one is looked at in vain it joins the front (`Rotating.advance`), and when
it is fused it takes the place of the last one there (`Rotating.fused`).  Sums of constants may
be folded meanwhile, and constants that nobody reads may go (`Rotating.folded`,
`Rotating.unused`).
-/

namespace Peephole

namespace Graph

variable {g g' : Graph} {root o p : OpId} {f f' : Formula} {v w : ValueId}

/-! ## Rows -/

/-- An operation computes one thing. -/
theorem Computes.unique (h : g.Computes o f v) (h' : g.Computes o f' w) : f = f' ∧ v = w := by
  obtain ⟨d, hd, hf, hv, -⟩ := h
  obtain ⟨d', hd', hf', hw, -⟩ := h'
  rw [hd] at hd'
  cases hd'
  rw [hf] at hf'
  rw [hv] at hw
  cases hf'
  cases hw
  exact ⟨rfl, rfl⟩

/-- An operation that computes something has one result. -/
theorem Computes.eq_of_result {d : Op} (h : g.Computes o f v) (hd : g.op o = .ok d)
    (hw : w ∈ d.results) : w = v := by
  obtain ⟨d', hd', -, hv, -⟩ := h
  rw [hd] at hd'
  cases hd'
  rwa [hv, List.mem_singleton] at hw

/-- A value is computed by one operation. -/
theorem Computes.op_unique (h : g.Computes o f v) (hg : g.Linked) (h' : g.Computes p f' v) :
    o = p := by
  obtain ⟨d, hd, hv, -⟩ := h.op_ok
  obtain ⟨d', hd', hv', -⟩ := h'.op_ok
  exact hg.result_unique (slot_of_op hd) hv (slot_of_op hd') hv'

/-- Whoever has a computed value among its results computes it. -/
theorem Computes.op_of_result {d : Op} (h : g.Computes o f v) (hg : g.Linked)
    (hd : g.op p = .ok d) (hv : v ∈ d.results) : o = p := by
  obtain ⟨d', hd', hv', -⟩ := h.op_ok
  exact hg.result_unique (slot_of_op hd') hv' (slot_of_op hd) hv

/-- The slots of a rotation hold its angle and its qubit. -/
theorem Computes.rotation_slots {axis : Axis} {a q : ValueId} {r : Use}
    (h : g.Computes o (.rotation axis a q) v) (hr : g.held? r = some w) (ho : r.user = o) :
    r = ⟨o, 0⟩ ∧ w = a ∨ r = ⟨o, 1⟩ ∧ w = q := by
  obtain ⟨user, i⟩ := r
  obtain rfl := ho
  rw [h.held?] at hr
  match i, hr with
  | 0, hr =>
    cases hr
    exact .inl ⟨rfl, rfl⟩
  | 1, hr =>
    cases hr
    exact .inr ⟨rfl, rfl⟩

/-- The slots of a sum hold its two terms. -/
theorem Computes.sum_slots {a b : ValueId} {r : Use} (h : g.Computes o (.sum a b) v)
    (hr : g.held? r = some w) (ho : r.user = o) : w = a ∨ w = b := by
  obtain ⟨user, i⟩ := r
  obtain rfl := ho
  rw [h.held?] at hr
  have hmem : w ∈ [a, b] := List.mem_of_getElem? hr
  simpa using hmem

/-- A rotation of a row, with what is known of its angle. -/
structure Link (α : Type*) where
  /-- The operation. -/
  op : OpId
  /-- Its axis. -/
  axis : Axis
  /-- What is known of its angle. -/
  angle : α

variable {α : Type*} {q out : ValueId} {row l₁ l₂ : List (Link α)} {x y : Link α}

/-- The rotations are on one qubit, one after the other, and lead from the first value to the
last one. -/
inductive Row (g : Graph) : ValueId → List (Link α) → ValueId → Prop
  | nil {q : ValueId} : Row g q [] q
  | cons {x : Link α} {row : List (Link α)} {a q v out : ValueId} :
      g.Computes x.op (.rotation x.axis a q) v → Row g v row out → Row g q (x :: row) out

namespace Row

theorem append_iff : g.Row q (l₁ ++ l₂) out ↔ ∃ u, g.Row q l₁ u ∧ g.Row u l₂ out := by
  constructor
  · intro h
    induction l₁ generalizing q with
    | nil => exact ⟨q, .nil, h⟩
    | cons x l₁ ih =>
      cases h with
      | cons hx h =>
        obtain ⟨u, h₁, h₂⟩ := ih h
        exact ⟨u, .cons hx h₁, h₂⟩
  · rintro ⟨u, h₁, h₂⟩
    induction h₁ with
    | nil => exact h₂
    | cons hx _ ih => exact .cons hx (ih h₂)

/-- The last rotation gives the last value. -/
theorem last (h : g.Row q row out) (hg : g.Linked) (hq : ∀ {o f}, ¬g.Computes o f q)
    (hp : g.Computes p f out) :
    ∃ rest x a u, row = rest ++ [x] ∧ x.op = p ∧ g.Row q rest u ∧
      g.Computes p (.rotation x.axis a u) out := by
  rcases List.eq_nil_or_concat row with rfl | ⟨rest, x, rfl⟩
  · cases h
    exact absurd hp hq
  · rw [List.concat_eq_append] at h
    obtain ⟨u, hrest, hx⟩ := append_iff.1 h
    cases hx with
    | cons hx hnil =>
      cases hnil
      obtain rfl := hx.op_unique hg hp
      exact ⟨rest, x, _, u, by simp, rfl, hrest, hx⟩

/-- Of two rotations in a row, the second is on the qubit that the first one gives. -/
theorem next (h : g.Row q (l₁ ++ x :: y :: l₂) out) : ∃ a b u v w,
    g.Computes x.op (.rotation x.axis a u) v ∧ g.Computes y.op (.rotation y.axis b v) w := by
  obtain ⟨u, -, hxy⟩ := append_iff.1 h
  cases hxy with
  | cons hx hy =>
    cases hy with
    | cons hy _ => exact ⟨_, _, _, _, _, hx, hy⟩

/-- What a rotation of a row turns is the first value or comes from a rotation of the row. -/
theorem input (h : g.Row q row out) (hx : x ∈ row) {axis : Axis} {a u : ValueId}
    (hf : g.Computes x.op (.rotation axis a u) v) :
    u = q ∨ ∃ y ∈ row, ∃ axis' a' u', g.Computes y.op (.rotation axis' a' u') u := by
  induction h with
  | nil => cases hx
  | @cons y row b q' v' out hy _ ih =>
    rcases List.mem_cons.1 hx with rfl | hx
    · obtain ⟨hf, -⟩ := hf.unique hy
      cases hf
      exact .inl rfl
    · rcases ih hx with rfl | ⟨z, hz, hrest⟩
      · exact .inr ⟨y, .head row, _, _, _, hy⟩
      · exact .inr ⟨z, .tail y hz, hrest⟩

/-- A row stays one as long as its rotations are on the same qubits. -/
theorem carry (h : g.Row q row out) (hkept : ∀ x ∈ row, ∀ {a u v},
      g.Computes x.op (.rotation x.axis a u) v → ∃ a', g'.Computes x.op (.rotation x.axis a' u) v) :
    g'.Row q row out := by
  induction h with
  | nil => exact .nil
  | cons hx _ ih =>
    obtain ⟨a', hx'⟩ := hkept _ (.head _) hx
    exact .cons hx' (ih fun y hy => hkept y (.tail _ hy))

theorem computes (h : g.Row q row out) (hx : x ∈ row) :
    ∃ a u v, g.Computes x.op (.rotation x.axis a u) v := by
  induction h with
  | nil => cases hx
  | cons hy _ ih =>
    rcases List.mem_cons.1 hx with rfl | hx
    · exact ⟨_, _, _, hy⟩
    · exact ih hx

/-- The last value comes from the row, if there is a rotation. -/
theorem out_computed (h : g.Row q (x :: row) out) :
    ∃ y ∈ x :: row, ∃ a u, g.Computes y.op (.rotation y.axis a u) out := by
  induction row generalizing q x with
  | nil =>
    cases h with
    | cons hx hnil =>
      cases hnil
      exact ⟨x, .head _, _, _, hx⟩
  | cons y row ih =>
    cases h with
    | cons _ h =>
      obtain ⟨z, hz, hrest⟩ := ih h
      exact ⟨z, .tail x hz, hrest⟩

/-- The value of the first rotation is not made by the others. -/
theorem rest_not_made (hg : g.Linked) (hnodup : ((x :: row).map Link.op).Nodup)
    (hx : g.Computes x.op f v) : ∀ y ∈ row, ∀ f', ¬g.Computes y.op f' v := by
  intro y hy f' hf'
  obtain heq := hx.op_unique hg hf'
  exact (List.nodup_cons.1 hnodup).1 (heq ▸ List.mem_map_of_mem hy)

/-- Two rotations of a row do not turn the same value. -/
theorem input_inj (h : g.Row q row out) (hg : g.Linked) (hnodup : (row.map Link.op).Nodup)
    (hq : ∀ x ∈ row, ∀ f, ¬g.Computes x.op f q) (hx : x ∈ row) (hy : y ∈ row)
    {axis axis' : Axis} {a a' u : ValueId} (hfx : g.Computes x.op (.rotation axis a u) v)
    (hfy : g.Computes y.op (.rotation axis' a' u) w) : x.op = y.op := by
  induction h with
  | nil => cases hx
  | @cons z row b q v' out hz hrow ih =>
    have hlater : ∀ {y axis a u w}, y ∈ row → g.Computes y.op (.rotation axis a u) w → u ≠ q := by
      rintro y axis a u w hy hfy rfl
      rcases hrow.input hy hfy with rfl | ⟨y', hy', _, _, _, hf⟩
      · exact hq z (.head row) _ hz
      · exact hq y' (.tail z hy') _ hf
    rcases List.mem_cons.1 hx with rfl | hx'
    · obtain ⟨hform, -⟩ := hfx.unique hz
      cases hform
      rcases List.mem_cons.1 hy with rfl | hy
      · rfl
      · exact absurd rfl (hlater hy hfy)
    · rcases List.mem_cons.1 hy with rfl | hy'
      · obtain ⟨hform, -⟩ := hfy.unique hz
        cases hform
        exact absurd rfl (hlater hx' hfx)
      · exact ih (List.nodup_cons.1 hnodup).2 (rest_not_made hg hnodup hz) hx' hy'

/-- No rotation of a row turns its last value. -/
theorem input_ne_out (h : g.Row q row out) (hg : g.Linked) (hnodup : (row.map Link.op).Nodup)
    (hq : ∀ x ∈ row, ∀ f, ¬g.Computes x.op f q) (hx : x ∈ row) {axis : Axis} {a u : ValueId}
    (hf : g.Computes x.op (.rotation axis a u) v) : u ≠ out := by
  induction h with
  | nil => cases hx
  | @cons z row b q v' out hz hrow ih =>
    rcases List.mem_cons.1 hx with rfl | hx
    · obtain ⟨hform, -⟩ := hf.unique hz
      cases hform
      rintro rfl
      obtain ⟨y, hy, _, _, hfy⟩ := (Row.cons hz hrow).out_computed
      exact hq y hy _ hfy
    · exact ih (List.nodup_cons.1 hnodup).2 (rest_not_made hg hnodup hz) hx

end Row

/-! ## Losing an operation -/

/-- The operation `e`, which made `r`, is gone.  Some constants or sums may be new, and slots
may have been written. -/
structure Without (e : OpId) (r : ValueId) (g g' : Graph) : Prop extends Evolves g g' where
  born {o : OpId} {f : Formula} {v : ValueId} : g'.Computes o f v →
    f.kind.isPure = true ∨ ∃ f', g.Computes o f' v ∧ f'.outline = f.outline
  kept {root o : OpId} : g.Inside root o → o ≠ e → g'.Inside root o
  order {p o : OpId} : g.Precedes p o → p ≠ e → o ≠ e → g'.Precedes p o
  scope {v : ValueId} {o : OpId} : g.Visible v o → v ≠ r → o ≠ e → g'.Visible v o
  gone (d : Op) : g'.op e ≠ .ok d

theorem Erased.without {e : OpId} {r : ValueId} (h : Erased g e g') (hf : g.Computes e f r) :
    Without e r g g' where
  toEvolves := h.evolves
  born {o f v} hv := by
    obtain ⟨d, hd, hrest⟩ := hv
    exact .inr ⟨f, ⟨d, h.trimmed.op_ok hd, hrest⟩, rfl⟩
  kept ho hne := h.trimmed.inside_iff.2 ⟨ho, hne⟩
  order hpo hp ho := h.trimmed.precedes_iff.2 ⟨hpo, hp, ho⟩
  scope hv hne ho := by
    refine h.trimmed.visible (fun d hd hmem => hne ?_) hv ho
    obtain ⟨d', hd', -, hr, -⟩ := hf
    rw [hd] at hd'
    cases hd'
    rw [hr, List.mem_singleton] at hmem
    exact hmem
  gone := h.trimmed.gone

/-- After an insertion, writing of slots and an erasure, an operation that was not inserted
computes as before, from whatever values. -/
theorem Inserted.computes_old {a n e : OpId} {d : Draft} {g₁ g₂ : Graph}
    (hi : Inserted g a d n g₁) (hr : Rewired g₁ g₂) (he : Erased g₂ e g') (hne : o ≠ n)
    (hf : g'.Computes o f v) : ∃ f', g.Computes o f' v ∧ f'.outline = f.outline := by
  obtain ⟨x, hx⟩ := hf.value_ok he.linked
  rw [he.value, hr.value] at hx
  obtain ⟨f₁, ⟨d, hd, hrest⟩, hout⟩ := (hr.evolves.trans he.evolves).computes hf hx
  exact ⟨f₁, ⟨d, (hi.trimmed.op hne).trans hd, hrest⟩, hout⟩

/-- And so does an operation that was there before and is not erased. -/
theorem Inserted.computes_kept {a n e : OpId} {d : Draft} {g₁ g₂ : Graph}
    (hi : Inserted g a d n g₁) (hr : Rewired g₁ g₂) (he : Erased g₂ e g') (hne : o ≠ e)
    (hf : g.Computes o f v) : ∃ f', g'.Computes o f' v ∧ f'.outline = f.outline := by
  obtain ⟨x, hx⟩ := (hi.computes hf).value_ok hi.linked
  rw [← hr.value] at hx
  obtain ⟨f', hf', hout⟩ := hr.symm.evolves.computes (hi.computes hf) hx
  exact ⟨f', he.computes hf' hne, hout⟩

/-- What is there then was there before, but for what has been inserted. -/
theorem Inserted.inside_old {a n e : OpId} {d : Draft} {g₁ g₂ : Graph}
    (hi : Inserted g a d n g₁) (hr : Rewired g₁ g₂) (he : Erased g₂ e g')
    (ho : g'.Inside root o) : o = n ∨ g.Inside root o ∧ o ≠ e := by
  obtain ⟨ho, hne⟩ := he.trimmed.inside_iff.1 ho
  rcases eq_or_ne o n with heq | hn
  · exact .inl heq
  · exact .inr ⟨hi.trimmed.inside_iff.2 ⟨hr.symm.inside ho, hn⟩, hne⟩

/-- A constant or a sum is inserted, slots are written, and an operation is erased. -/
theorem Inserted.without {a n e : OpId} {d : Draft} {g₁ g₂ : Graph} {r u : ValueId} {s : Formula}
    (hi : Inserted g a d n g₁) (hn : g₁.Computes n s u) (hs : s.kind.isPure = true)
    (hr : Rewired g₁ g₂) (he : Erased g₂ e g') (hf : g₂.Computes e f r) : Without e r g g' where
  toEvolves := hi.evolves.trans (hr.evolves.trans he.evolves)
  born {o f v} hv := by
    rcases eq_or_ne o n with rfl | hne
    · obtain ⟨x, hx⟩ := hv.value_ok he.linked
      rw [he.value, hr.value] at hx
      obtain ⟨f₁, hf₁, hout⟩ := (hr.evolves.trans he.evolves).computes hv hx
      obtain ⟨rfl, -⟩ := hf₁.unique hn
      exact .inl (Formula.kind_of_outline hout ▸ hs)
    · exact .inr (hi.computes_old hr he hne hv)
  kept ho hne := he.trimmed.inside_iff.2 ⟨hr.inside (hi.trimmed.inside_iff.1 ho).1, hne⟩
  order hpo hp ho := he.trimmed.precedes_iff.2
    ⟨hr.precedes (hi.trimmed.precedes_iff.1 hpo).1, hp, ho⟩
  scope hv hne ho := (he.without hf).scope (hr.visible (hi.trimmed.visible_old hv)) hne ho
  gone := he.trimmed.gone

/-! ## Functions with a row -/

/-- The rules do not fuse rotations with the axes of these two. -/
def Unlike (axes : Rules.AxisMatch) (x y : Link α) : Prop := axes = .same ∧ x.axis ≠ y.axis

/-- In the middle of a sweep: the rotations in `front` have been looked at, and those in `todo`
have not.  There are no other gates, but for rotations in `extra` that no rotation stands
before.  Sums are all read. -/
structure Rotating (axes : Rules.AxisMatch) (root : OpId) (q out : ValueId) (extra : List OpId)
    (front todo : List (Link α)) (g : Graph) : Prop where
  row : g.Row q (front ++ todo) out
  exist : ∃ y, g.value q = .ok y
  source {o : OpId} {f : Formula} : ¬g.Computes o f q
  inside : ∀ x ∈ front ++ todo, g.Inside root x.op
  ordered : ((front ++ todo).map Link.op).Pairwise g.Precedes
  apart : front.IsChain (Unlike axes)
  ready : ∀ x ∈ todo, ∀ b, g.held? ⟨x.op, 0⟩ = some b →
    (∀ {o a a'}, ¬g.Computes o (.sum a a') b) ∧ ∀ y ∈ front ++ todo, g.Visible b y.op
  whole {o : OpId} {axis : Axis} {a u v : ValueId} : g.Inside root o →
    g.Computes o (.rotation axis a u) v → o ∈ (front ++ todo).map Link.op ∨ o ∈ extra
  extras : ∀ o ∈ extra, g.Makes o ∧
    ∀ {p axis a u v}, g.Computes p (.rotation axis a u) v → ¬g.Precedes p o
  plain {o : OpId} {k : Kind} {u v : ValueId} : g.Inside root o → ¬g.Computes o (.gate k u) v
  read {o : OpId} {a b v : ValueId} : g.Inside root o → g.Computes o (.sum a b) v →
    ∃ u, g.held? u = some v

namespace Rotating

variable {axes : Rules.AxisMatch} {extra : List OpId} {front todo front' todo' : List (Link α)}

theorem nodup (h : g.Rotating axes root q out extra front todo) (hg : g.Linked) :
    ((front ++ todo).map Link.op).Nodup :=
  h.ordered.imp fun hpo => hg.ne_of_precedes hpo

/-- The last rotation of the front and the next one are two, and none of the others. -/
theorem apart_of_next (h : g.Rotating axes root q out extra (front ++ [x]) (y :: todo))
    (hg : g.Linked) : x.op ≠ y.op ∧ ∀ z ∈ front ++ todo, z.op ≠ x.op ∧ z.op ≠ y.op := by
  have hnodup := h.nodup hg
  simp only [List.map_append, List.map_cons, List.append_assoc, List.singleton_append] at hnodup
  obtain ⟨-, hnodup', hdisjoint⟩ := List.nodup_append'.1 hnodup
  obtain ⟨hx, hnodup'⟩ := List.nodup_cons.1 hnodup'
  obtain ⟨hy, -⟩ := List.nodup_cons.1 hnodup'
  refine ⟨fun heq => hx (heq ▸ .head _), fun z hz => ?_⟩
  rcases List.mem_append.1 hz with hz | hz
  · have hzm : z.op ∈ front.map Link.op := List.mem_map_of_mem hz
    exact ⟨fun heq => hdisjoint (heq ▸ hzm) (.head _),
      fun heq => hdisjoint (heq ▸ hzm) (.tail _ (.head _))⟩
  · have hzm : z.op ∈ todo.map Link.op := List.mem_map_of_mem hz
    exact ⟨fun heq => hx (.tail _ (heq ▸ hzm)), fun heq => hy (heq ▸ hzm)⟩

/-- The qubit that a rotation of the row turns does not come from a sum. -/
theorem input_not_sum (h : g.Rotating axes root q out extra front todo) (hg : g.Linked)
    (hx : x ∈ front ++ todo) {a u : ValueId} (hf : g.Computes x.op (.rotation x.axis a u) v)
    {b c : ValueId} : ¬g.Computes o (.sum b c) u := by
  intro hsum
  rcases h.row.input hx hf with rfl | ⟨y, -, _, _, _, hy⟩
  · exact h.source hsum
  · cases hy.formula_unique hg hsum

/-- When an operation is lost that is none of those still in the row, all but the row itself and
the readers of sums is as before. -/
theorem carry {e : OpId} {r : ValueId} (h : g.Rotating axes root q out extra front todo)
    (hg : g.Valid root) (hw : Without e r g g') (hrow : g'.Row q (front' ++ todo') out)
    (hsub : ((front' ++ todo').map Link.op).Sublist ((front ++ todo).map Link.op))
    (hlost : ∀ o ∈ (front ++ todo).map Link.op, o ≠ e → o ∈ (front' ++ todo').map Link.op)
    (hgone : e ∉ (front' ++ todo').map Link.op) (hapart : front'.IsChain (Unlike axes))
    (htodo : ∀ x ∈ todo', x ∈ todo ∧ g'.held? ⟨x.op, 0⟩ = g.held? ⟨x.op, 0⟩ ∧
      g.held? ⟨x.op, 0⟩ ≠ some r)
    (hread : ∀ {o a b v}, g'.Inside root o → g'.Computes o (.sum a b) v →
      ∃ u, g'.held? u = some v) :
    g'.Rotating axes root q out extra front' todo' where
  row := hrow
  exist := by
    obtain ⟨y, hy⟩ := h.exist
    exact ⟨y, hw.value hy⟩
  source {o f} hf := by
    obtain ⟨y, hy⟩ := h.exist
    obtain ⟨f', hf', -⟩ := hw.computes hf hy
    exact h.source hf'
  inside x hx := by
    have hmem : x.op ∈ (front' ++ todo').map Link.op := List.mem_map_of_mem hx
    obtain ⟨y, hy, heq⟩ := List.mem_map.1 (hsub.subset hmem)
    rw [← heq]
    refine hw.kept (h.inside y hy) ?_
    rw [heq]
    exact fun heq => hgone (heq ▸ hmem)
  ordered := by
    refine (h.ordered.sublist hsub).imp_of_mem fun ha hb hpo => hw.order hpo ?_ ?_
    · exact fun heq => hgone (heq ▸ ha)
    · exact fun heq => hgone (heq ▸ hb)
  apart := hapart
  ready x hx b hb := by
    obtain ⟨hx, hheld, hne⟩ := htodo x hx
    rw [hheld] at hb
    obtain ⟨hsum, hvisible⟩ := h.ready x hx b hb
    refine ⟨fun hf => ?_, fun y hy => ?_⟩
    · obtain ⟨z, hz⟩ := hg.exist hb
      obtain ⟨f', hf', hout⟩ := hw.computes hf hz
      obtain ⟨a₁, a₂, rfl⟩ := hf'.sum_of_kind (Formula.kind_of_outline hout)
      exact hsum hf'
    · have hmem : y.op ∈ (front' ++ todo').map Link.op := List.mem_map_of_mem hy
      obtain ⟨z, hz, heq⟩ := List.mem_map.1 (hsub.subset hmem)
      refine hw.scope (heq ▸ hvisible z hz) ?_ fun heq => hgone (heq ▸ hmem)
      rintro rfl
      exact hne hb
  whole {o axis a u v} ho hf := by
    rcases hw.born hf with hpure | ⟨f', hf', hout⟩
    · cases hpure
    · obtain ⟨axis', a', u', rfl⟩ := hf'.rotation_of_kind (Formula.kind_of_outline hout)
      have hin := hw.inside ho (hf'.makes hg.linked)
      rcases h.whole hin hf' with hmem | hmem
      · refine .inl (hlost o hmem ?_)
        rintro rfl
        obtain ⟨d, hd, -⟩ := hf
        exact hw.gone d hd
      · exact .inr hmem
  extras o ho := by
    obtain ⟨hmakes, hfree⟩ := h.extras o ho
    refine ⟨hw.makes hmakes, fun hf hpo => ?_⟩
    rcases hw.born hf with hpure | ⟨f', hf', hout⟩
    · cases hpure
    · obtain ⟨axis', a', u', rfl⟩ := hf'.rotation_of_kind (Formula.kind_of_outline hout)
      exact hfree hf' (hw.precedes hpo (hf'.makes hg.linked) hmakes)
  plain {o k u v} ho hf := by
    rcases hw.born hf with hpure | ⟨f', hf', hout⟩
    · have hk := hf.isGate
      simp only [Formula.kind, Kind.IsGate, List.mem_cons, List.not_mem_nil, or_false] at hpure hk
      rcases hk with rfl | rfl | rfl <;> cases hpure
    · obtain ⟨u', rfl⟩ := Formula.gate_of_outline hout
      exact h.plain (hw.inside ho (hf'.makes hg.linked)) hf'
  read := hread

/-- A rotation that has been looked at in vain joins the front. -/
theorem advance {c : Config} (h : g.Rotating axes root q out extra front (y :: todo))
    (hx : g.Exclusive root) (hidle : ¬g.Redex c axes y.op) :
    g.Rotating axes root q out extra (front ++ [y]) todo := by
  have heq : front ++ [y] ++ todo = front ++ y :: todo := by simp
  refine ⟨by rw [heq]; exact h.row, h.exist, h.source, by rw [heq]; exact h.inside,
    by rw [heq]; exact h.ordered, ?_, ?_, by rw [heq]; exact h.whole, h.extras, h.plain, h.read⟩
  · refine List.isChain_append.2 ⟨h.apart, .singleton y, ?_⟩
    intro x hxlast y' hy'
    cases hy'
    obtain ⟨rest, rfl⟩ := List.getLast?_eq_some_iff.1 hxlast
    have hlist : rest ++ [x] ++ y :: todo = rest ++ x :: y :: todo := by simp
    have hrow := h.row
    have hordered := h.ordered
    rw [hlist] at hrow hordered
    obtain ⟨a, b, u, v, w, hfx, hfy⟩ := hrow.next
    have hpo : g.Precedes x.op y.op := by
      rw [List.map_append] at hordered
      exact List.rel_of_pairwise_cons (List.pairwise_append.1 hordered).2.1 (.head _)
    have hxin := h.inside x (by simp)
    obtain ⟨-, hvisible⟩ := h.ready y (.head todo) b (hfy.held? 0)
    -- otherwise the two would be fused
    by_contra hlike
    refine hidle (.fusion hfy ⟨hfx, fun hu => hx hxin hfx rfl hu (hfy.held? 1)⟩ hpo
      (hvisible x (by simp)) fun hsame => ?_)
    by_contra hne
    exact hlike ⟨hsame, hne⟩
  · rw [heq]
    exact fun x hx => h.ready x (.tail y hx)

section Fused

variable {n : OpId} {axis axis' : Axis} {a b u u' input sum : ValueId} {l : Location}
  {g₁ g₂ : Graph}

/-- What is neither of two fused rotations is as it was. -/
theorem op_of_fusion (hi : Inserted g p (.add l a b) n g₁) (hr : Rerouted g₁ o sum input g₂)
    (he : Erased g₂ p g') {z : OpId} {d : Op} (hz : g.op z = .ok d) (hzo : z ≠ o) (hzp : z ≠ p) :
    g'.op z = .ok d := by
  rw [he.trimmed.op hzp]
  exact hr.op hzo (hi.trimmed.op_ok hz)

/-- What is neither of two fused rotations computes what it did. -/
theorem computes_of_fusion (hi : Inserted g p (.add l a b) n g₁) (hr : Rerouted g₁ o sum input g₂)
    (he : Erased g₂ p g') {z : OpId} (hz : g.Computes z f w) (hzo : z ≠ o) (hzp : z ≠ p) :
    g'.Computes z f w := by
  obtain ⟨d, hd, hrest⟩ := hz
  exact ⟨d, op_of_fusion hi hr he hd hzo hzp, hrest⟩

/-- Constants and sums compute what they did. -/
theorem pure_of_fusion (hf : g.Computes o (.rotation axis b u) v)
    (hp : g.Computes p (.rotation axis' a input) u') (hi : Inserted g p (.add l a b) n g₁)
    (hr : Rerouted g₁ o sum input g₂) (he : Erased g₂ p g') {z : OpId} {s : Formula}
    (hz : g.Computes z s w) (hpure : s.kind.isPure = true) : g'.Computes z s w := by
  refine computes_of_fusion hi hr he hz ?_ ?_
  · rintro rfl
    rw [(hz.unique hf).1] at hpure
    cases hpure
  · rintro rfl
    rw [(hz.unique hp).1] at hpure
    cases hpure

/-- Slots of other operations hold what they held. -/
theorem held_of_fusion (hi : Inserted g p (.add l a b) n g₁) (hr : Rerouted g₁ o sum input g₂)
    (he : Erased g₂ p g') {r : Use} (hn : r.user ≠ n) (ho : r.user ≠ o) (hp : r.user ≠ p) :
    g'.held? r = g.held? r := by
  have hslot : ∀ i, r ≠ ⟨o, i⟩ := fun i heq => ho (congrArg Use.user heq)
  rw [he.held, if_neg hp, hr.held, if_neg (hslot 1), if_neg (hslot 0), hi.held, if_neg hn]

/-- Sums are still read when two rotations have been fused. -/
theorem read_of_fusion (h : g.Rotating axes root q out extra front todo) (hg : g.Valid root)
    (hf : g.Computes o (.rotation axis b u) v) (hp : g.Computes p (.rotation axis' a input) u)
    (hpo : p ≠ o) (hinput : ∀ {z c c'}, ¬g.Computes z (.sum c c') input)
    (hi : Inserted g p (.add l a b) n g₁) (hn : g₁.Computes n (.sum a b) sum)
    (hr : Rerouted g₁ o sum input g₂) (he : Erased g₂ p g') {z : OpId} {c c' w : ValueId}
    (hz : g'.Inside root z) (hs : g'.Computes z (.sum c c') w) : ∃ r, g'.held? r = some w := by
  have hno : n ≠ o := hi.ne_of_computes hf
  have hnp : n ≠ p := hi.ne_of_computes hp
  -- the new sum reads both angles
  have hleft : g'.held? ⟨n, 0⟩ = some a := by
    have hn₂ := hr.computes_other hn hno
    exact (he.computes hn₂ hnp).held? 0
  have hright : g'.held? ⟨n, 1⟩ = some b := by
    have hn₂ := hr.computes_other hn hno
    exact (he.computes hn₂ hnp).held? 1
  rcases eq_or_ne z n with rfl | hzn
  · -- it is read itself by the rotation that is left
    obtain ⟨-, rfl⟩ := hs.unique (he.computes (hr.computes_other hn hno) hnp)
    have ho' := he.computes (hr.computes (hi.computes hf)) hpo.symm
    exact ⟨⟨o, 0⟩, ho'.held? 0⟩
  · have hzp : z ≠ p := by
      obtain ⟨d, hd, -⟩ := hs
      exact he.trimmed.ne_of_op hd
    have hzo : z ≠ o := by
      rintro rfl
      cases (hs.unique (he.computes (hr.computes (hi.computes hf)) hpo.symm)).1
    obtain ⟨f', hs', hout⟩ := hi.computes_old hr.rewired he hzn hs
    obtain ⟨c₁, c₂, rfl⟩ := hs'.sum_of_kind (Formula.kind_of_outline hout)
    have hev := hi.evolves.trans (hr.rewired.evolves.trans he.evolves)
    obtain ⟨r, hr'⟩ := h.read (hev.inside hz (hs'.makes hg.linked)) hs'
    have hrn : r.user ≠ n := by
      rintro heq
      obtain ⟨d, hd, -⟩ := held?_eq_some.1 hr'
      exact hi.trimmed.gone d (heq ▸ hd)
    rcases eq_or_ne r.user p with hrp | hrp
    · -- a slot of the rotation that goes: its angle is read by the new sum
      rcases hp.rotation_slots hr' hrp with ⟨-, rfl⟩ | ⟨-, rfl⟩
      · exact ⟨_, hleft⟩
      · exact absurd hs' hinput
    rcases eq_or_ne r.user o with hro | hro
    · rcases hf.rotation_slots hr' hro with ⟨-, rfl⟩ | ⟨-, rfl⟩
      · exact ⟨_, hright⟩
      · cases hs'.formula_unique hg.linked hp
    · exact ⟨r, by rw [held_of_fusion hi hr he hrn hro hrp, hr']⟩

/-- A rotation that can be fused with the one before it, and is none of the later ones, is the
next one of the row.  The one before it is the last of the front. -/
theorem found (h : g.Rotating axes root q out extra front todo) (hg : g.Linked)
    (ho : g.Inside root o) (hnext : o ∉ (todo.map Link.op).tail)
    (hf : g.Computes o (.rotation axis b u) v) (hp : g.Computes p (.rotation axis' a input) u)
    (hpo : g.Precedes p o) (haxes : axes = .same → axis' = axis) :
    ∃ F x y rest, front = F ++ [x] ∧ todo = y :: rest ∧ x.op = p ∧ x.axis = axis' ∧ y.op = o ∧
      y.axis = axis ∧ g.Row q F input ∧ g.Row v rest out := by
  have hmem : o ∈ (front ++ todo).map Link.op :=
    (h.whole ho hf).resolve_right fun hextra => (h.extras o hextra).2 hp hpo
  obtain ⟨y, hy, hyo⟩ := List.mem_map.1 hmem
  obtain ⟨before, rest, hlist⟩ := List.append_of_mem hy
  have hrow := h.row
  rw [hlist] at hrow
  obtain ⟨u', hbefore, hrest⟩ := Row.append_iff.1 hrow
  cases hrest with
  | @cons _ _ b' _ v' _ hfy hrest =>
  rw [hyo] at hfy
  obtain ⟨hform, rfl⟩ := hfy.unique hf
  cases hform
  obtain ⟨F, x, a', u', rfl, hxp, hF, hfx⟩ := hbefore.last hg h.source hp
  obtain ⟨hform, -⟩ := hfx.unique hp
  cases hform
  have hsplit : front = F ++ [x] ∧ todo = y :: rest := by
    rcases List.append_eq_append_iff.1 hlist with ⟨m, hm, htodo⟩ | ⟨m, hm, hrest'⟩
    · cases m with
      | nil => exact ⟨by simpa using hm.symm, htodo⟩
      | cons z m =>
        refine absurd ?_ hnext
        simp [htodo, hyo]
    · cases m with
      | nil => exact ⟨by simpa using hm, hrest'.symm⟩
      | cons z m =>
        obtain ⟨rfl, -⟩ := List.cons.inj hrest'
        have hchain := h.apart
        rw [hm, List.append_assoc, List.singleton_append, List.isChain_append_cons_cons] at hchain
        exact absurd (haxes hchain.2.1.1) hchain.2.1.2
  exact ⟨F, x, y, rest, hsplit.1, hsplit.2, hxp, rfl, hyo, rfl, hF, hrest⟩

/-- A rotation that is fused takes the place of the one before it. -/
theorem fused (h : g.Rotating axes root q out extra front todo) (hg : g.Valid root)
    (ho : g.Inside root o) (hnext : o ∉ (todo.map Link.op).tail)
    (hf : g.Computes o (.rotation axis b u) v) (hp : g.Feeds p (.rotation axis' a input) u ⟨o, 1⟩)
    (hpo : g.Precedes p o) (haxes : axes = .same → axis' = axis)
    (hi : Inserted g p (.add l a b) n g₁) (hn : g₁.Computes n (.sum a b) sum)
    (hr : Rerouted g₁ o sum input g₂) (he : Erased g₂ p g') :
    ∃ F x y rest, front = F ++ [x] ∧ todo = y :: rest ∧ x.op = p ∧ y.op = o ∧ y.axis = axis ∧
      ∀ z, g'.Rotating axes root q out extra (F ++ [⟨o, axis, z⟩]) rest := by
  obtain ⟨F, x, y, rest, rfl, rfl, rfl, rfl, rfl, rfl, hF, hrest⟩ :=
    h.found hg.linked ho hnext hf hp.computes hpo haxes
  obtain ⟨hne, hothers⟩ := h.apart_of_next hg.linked
  have hinput : ∀ {z c c'}, ¬g.Computes z (.sum c c') input := by
    intro z c c'
    exact h.input_not_sum hg.linked (x := x) (by simp) hp.computes
  refine ⟨F, x, y, rest, rfl, rfl, rfl, rfl, rfl, fun z => ?_⟩
  have hp₂ := hr.computes_other (hi.computes hp.computes) hne
  refine h.carry hg (hi.without hn rfl hr.rewired he hp₂) ?_ ?_ ?_ ?_ ?_ ?_
    (h.read_of_fusion hg hf hp.computes hne hinput hi hn hr he)
  · -- the row, with the two in one
    have hkept : ∀ z ∈ F ++ rest, ∀ {a u v}, g.Computes z.op (.rotation z.axis a u) v →
        ∃ a', g'.Computes z.op (.rotation z.axis a' u) v := by
      intro z hz a u v hfz
      obtain ⟨hzp, hzo⟩ := hothers z hz
      exact ⟨a, computes_of_fusion hi hr he hfz hzo hzp⟩
    have ho₃ := he.computes (hr.computes (hi.computes hf)) hne.symm
    rw [List.append_assoc]
    refine Row.append_iff.2 ⟨_, hF.carry fun z hz => hkept z (by simp [hz]), ?_⟩
    exact .cons (x := ⟨y.op, y.axis, z⟩) ho₃ (hrest.carry fun z hz => hkept z (by simp [hz]))
  · simp only [List.map_append, List.map_cons, List.append_assoc, List.singleton_append]
    exact (List.Sublist.refl _).append ((List.Sublist.refl _).cons _)
  · intro z hz hzp
    simp only [List.map_append, List.map_cons, List.map_nil, List.mem_append,
      List.mem_cons, List.not_mem_nil, or_false] at hz ⊢
    tauto
  · intro hmem
    obtain ⟨w, hw, hwx⟩ := List.mem_map.1 hmem
    rcases List.mem_append.1 hw with hw | hw
    · rcases List.mem_append.1 hw with hw | hw
      · exact (hothers w (List.mem_append_left _ hw)).1 hwx
      · obtain rfl := List.mem_singleton.1 hw
        exact hne hwx.symm
    · exact (hothers w (List.mem_append_right _ hw)).1 hwx
  · -- the one that is left has the axis of the one that goes, if axes matter
    obtain ⟨hFchain, -, hlast⟩ := List.isChain_append.1 h.apart
    refine List.isChain_append.2 ⟨hFchain, .singleton _, ?_⟩
    intro w hw z' hz'
    cases hz'
    obtain ⟨hsame, hax⟩ := hlast w hw x rfl
    exact ⟨hsame, haxes hsame ▸ hax⟩
  · intro z hz
    obtain ⟨hzp, hzo⟩ := hothers z (by simp [hz])
    have hzn : z.op ≠ n := by
      obtain ⟨_, _, _, hfz⟩ := h.row.computes (x := z) (by simp [hz])
      exact (hi.ne_of_computes hfz).symm
    refine ⟨.tail y hz, held_of_fusion hi hr he hzn hzo hzp, fun hheld => ?_⟩
    exact Nat.zero_ne_one (congrArg Use.index (hp.only hheld))

end Fused

/-- An operation that computes a constant or a sum is not in the row. -/
theorem not_mem_of_pure (h : g.Rotating axes root q out extra front todo)
    (hf : g.Computes o f v) (hpure : f.kind.isPure = true) : o ∉ (front ++ todo).map Link.op := by
  intro hmem
  obtain ⟨x, hx, rfl⟩ := List.mem_map.1 hmem
  obtain ⟨a, u, w, hfx⟩ := h.row.computes hx
  obtain ⟨rfl, -⟩ := hf.unique hfx
  cases hpure

/-- A constant takes the place of a sum of constants. -/
theorem folded {n p' : OpId} {a b : ValueId} {c d : Binary64} {l : Location} {g₁ g₂ : Graph}
    (h : g.Rotating axes root q out extra front todo) (hg : g.Valid root)
    (hf : g.Computes o (.sum a b) v) (hp : g.Computes p (.const c) a)
    (hp' : g.Computes p' (.const d) b) (hi : Inserted g o (.const l (c + d)) n g₁)
    (hn : g₁.Computes n (.const (c + d)) w) (hr : Redirected g₁ v w g₂) (he : Erased g₂ o g') :
    g'.Rotating axes root q out extra front todo := by
  have ho := h.not_mem_of_pure hf rfl
  have hrow : ∀ x ∈ front ++ todo, x.op ≠ o := by
    rintro x hx rfl
    exact ho (List.mem_map_of_mem hx)
  refine h.carry hg (hi.without hn rfl hr.rewired he (hr.computes (hi.computes hf))) ?_
    (.refl _) (fun _ hz _ => hz) ho h.apart ?_ ?_
  · refine h.row.carry fun x hx {a' u v'} hfx => ?_
    have hu : u ≠ v := by
      rintro rfl
      exact h.input_not_sum hg.linked hx hfx hf
    have hfx' := he.computes (hr.computes (hi.computes hfx)) (hrow x hx)
    simp only [Formula.rename, if_neg hu] at hfx'
    exact ⟨_, hfx'⟩
  · intro x hx
    have hxo := hrow x (by simp [hx])
    obtain ⟨a', u, v', hfx⟩ := h.row.computes (x := x) (by simp [hx])
    have ha' : g.held? ⟨x.op, 0⟩ = some a' := hfx.held? 0
    have hne : a' ≠ v := by
      rintro rfl
      exact (h.ready x hx a' ha').1 hf
    refine ⟨hx, ?_, by simpa [ha'] using hne⟩
    rw [he.held, if_neg hxo, hr.held, (hi.computes hfx).held? 0, ha']
    simp [Formula.operands, hne]
  · intro z c₁ c₂ w' hz hs
    have hzo : z ≠ o := by
      obtain ⟨d, hd, -⟩ := hs
      exact he.trimmed.ne_of_op hd
    have hzn : z ≠ n := by
      rintro rfl
      cases (hs.unique (he.computes (hr.computes hn) hzo)).1
    obtain ⟨f', hs', hout⟩ := hi.computes_old hr.rewired he hzn hs
    obtain ⟨c₁', c₂', rfl⟩ := hs'.sum_of_kind (Formula.kind_of_outline hout)
    have hev := hi.evolves.trans (hr.rewired.evolves.trans he.evolves)
    obtain ⟨r, hr'⟩ := h.read (hev.inside hz (hs'.makes hg.linked)) hs'
    have hne : w' ≠ v := by
      rintro rfl
      exact hzo (hs'.op_unique hg.linked hf)
    -- the slots of the sum that goes hold constants
    have hro : r.user ≠ o := by
      intro hro
      rcases hf.sum_slots hr' hro with rfl | rfl
      · cases hs'.formula_unique hg.linked hp
      · cases hs'.formula_unique hg.linked hp'
    have hrn : r.user ≠ n := by
      rintro heq
      obtain ⟨d, hd, -⟩ := held?_eq_some.1 hr'
      exact hi.trimmed.gone d (heq ▸ hd)
    refine ⟨r, ?_⟩
    rw [he.held, if_neg hro, hr.held, hi.held, if_neg hrn, hr']
    simp [hne]

/-- A constant that nobody reads goes, and it is never a sum. -/
theorem unused (h : g.Rotating axes root q out extra front todo) (hg : g.Valid root)
    (ho : g.Inside root o) (hf : g.Computes o f v) (hpure : f.kind.isPure = true)
    (hfree : ∀ r, g.held? r ≠ some v) (he : Erased g o g') :
    (∃ c, f = .const c) ∧ g'.Rotating axes root q out extra front todo := by
  have hmem := h.not_mem_of_pure hf hpure
  obtain ⟨c, rfl⟩ : ∃ c, f = .const c := by
    cases f with
    | const c => exact ⟨c, rfl⟩
    | sum a b =>
      obtain ⟨r, hr⟩ := h.read ho hf
      exact absurd hr (hfree r)
    | gate k u => exact absurd hf (h.plain ho)
    | rotation axis a u => cases hpure
  refine ⟨⟨c, rfl⟩, h.carry hg (he.without hf) ?_ (.refl _) (fun _ hz _ => hz) hmem h.apart ?_ ?_⟩
  · refine h.row.carry fun x hx {a' u v'} hfx => ⟨a', he.computes hfx ?_⟩
    rintro rfl
    exact hmem (List.mem_map_of_mem hx)
  · intro x hx
    refine ⟨hx, ?_, hfree _⟩
    rw [he.held, if_neg]
    rintro rfl
    exact hmem (List.mem_map_of_mem (by simp [hx]))
  · intro z c₁ c₂ w hz hs
    have hs' : g.Computes z (.sum c₁ c₂) w := by
      obtain ⟨d, hd, hrest⟩ := hs
      exact ⟨d, he.trimmed.op_ok hd, hrest⟩
    obtain ⟨r, hr⟩ := h.read (he.trimmed.inside_iff.1 hz).1 hs'
    refine ⟨r, ?_⟩
    rw [he.held, if_neg, hr]
    rintro heq
    obtain ⟨user, i⟩ := r
    obtain rfl := heq
    rw [hf.held?] at hr
    cases hr

end Rotating

end Graph

end Peephole
