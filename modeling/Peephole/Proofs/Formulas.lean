import Peephole.Proofs.Preservation

/-!
# Formulas

The operations that reductions make and erase are constants, additions and gates.  The
*formula* of a value is how such an operation computes it from other values: a number, a
sum, a gate on a qubit, or a rotation of one.  Other values have none.

An edit changes formulas in a simple way.  An insertion adds those of the new results, an
erasure drops those of the results that are gone, and moving uses renames a value in all
of them.
-/

namespace Peephole

/-- How a value is computed. -/
inductive Formula where
  | const (x : Binary64)
  | sum (left right : ValueId)
  | gate (kind : Kind) (qubit : ValueId)
  | rotation (axis : Axis) (angle qubit : ValueId)

/-- The kinds of operation that reductions make and erase. -/
def Kind.isReducible : Kind → Bool
  | .const | .add | .rotate | .hadamard | .pauliX | .pauliZ => true
  | .func | .ret | .branch | .yield | .alloc | .measure => false

namespace Formula

/-- The kind of the operations that compute in this way. -/
def kind : Formula → Kind
  | const _ => .const
  | sum _ _ => .add
  | gate kind _ => kind
  | rotation _ _ _ => .rotate

/-- The formula with other values in it. -/
def rename (σ : ValueId → ValueId) : Formula → Formula
  | const x => const x
  | sum left right => sum (σ left) (σ right)
  | gate kind qubit => gate kind (σ qubit)
  | rotation axis angle qubit => rotation axis (σ angle) (σ qubit)

theorem rename_id (f : Formula) : f.rename id = f := by
  cases f with
  | _ => rfl

/-- The values in a formula. -/
def operands : Formula → List ValueId
  | const _ => []
  | sum left right => [left, right]
  | gate _ qubit => [qubit]
  | rotation _ angle qubit => [angle, qubit]

theorem eq_gate {f : Formula} {k : Kind} (h : f.kind = k) (hk : k.IsGate) :
    ∃ qubit, f = gate k qubit := by
  cases f with
  | gate kind qubit =>
    cases h
    exact ⟨qubit, rfl⟩
  | const x | sum left right | rotation axis angle qubit =>
    cases h
    simp [kind, Kind.IsGate] at hk

theorem rename_of_not_mem {old new : ValueId} {f : Formula} (h : old ∉ f.operands) :
    f.rename (fun v => if v = old then new else v) = f := by
  cases f with
  | const x => rfl
  | sum left right =>
    simp only [operands, List.mem_cons, List.not_mem_nil, or_false, not_or] at h
    simp [rename, Ne.symm h.1, Ne.symm h.2]
  | gate kind qubit =>
    simp only [operands, List.mem_singleton] at h
    simp [rename, Ne.symm h]
  | rotation axis angle qubit =>
    simp only [operands, List.mem_cons, List.not_mem_nil, or_false, not_or] at h
    simp [rename, Ne.symm h.1, Ne.symm h.2]

end Formula

namespace Op

/-- How an operation computes its result. -/
def formula? (d : Op) : Option Formula :=
  match d.kind, d.operands with
  | .const, [] => ((d.attributes.get? "value").bind Attribute.number?).map .const
  | .add, [left, right] => some (.sum left right)
  | .rotate, [angle, qubit] =>
      ((d.attributes.get? "axis").bind Attribute.axis?).map fun axis => .rotation axis angle qubit
  | .hadamard, [qubit] => some (.gate .hadamard qubit)
  | .pauliX, [qubit] => some (.gate .pauliX qubit)
  | .pauliZ, [qubit] => some (.gate .pauliZ qubit)
  | _, _ => none

variable {d : Op}

/-- The formula of an operation is determined by its kind, operands and attributes. -/
theorem formula?_congr {d' : Op} (hk : d'.kind = d.kind) (hops : d'.operands = d.operands)
    (hattrs : d'.attributes = d.attributes) : d'.formula? = d.formula? := by
  rw [formula?, formula?, hk, hops, hattrs]

theorem formula?_eq_some {f : Formula} (h : d.formula? = some f) :
    d.kind = f.kind ∧ d.operands = f.operands ∧ d.kind.isReducible = true := by
  unfold formula? at h
  split at h
  · rename_i hk hops
    obtain ⟨x, -, rfl⟩ := Option.map_eq_some_iff.1 h
    exact ⟨hk, hops, by rw [hk]; rfl⟩
  · rename_i hk hops
    cases h
    exact ⟨hk, hops, by rw [hk]; rfl⟩
  · rename_i hk hops
    obtain ⟨axis, -, rfl⟩ := Option.map_eq_some_iff.1 h
    exact ⟨hk, hops, by rw [hk]; rfl⟩
  all_goals
    rename_i hk hops
    cases h
  all_goals exact ⟨hk, hops, by rw [hk]; rfl⟩

/-- An operation of the usual shape has a formula if its kind is one of those. -/
theorem Shaped.formula?_ok (h : d.Shaped) (hk : d.kind.isReducible = true) :
    ∃ f, d.formula? = some f ∧ d.resultTypes.length = 1 ∧ d.regions = [] := by
  have hgate : d.kind.IsGate → ∃ f, d.formula? = some f ∧ d.resultTypes.length = 1 ∧
      d.regions = [] := by
    intro hgate
    obtain ⟨q, hops, htypes, hregions⟩ := h.gate hgate
    refine ⟨.gate d.kind q, ?_, by rw [htypes]; rfl, hregions⟩
    simp only [Kind.IsGate, List.mem_cons, List.not_mem_nil, or_false] at hgate
    rcases hgate with hk | hk | hk
    all_goals simp only [formula?, hk, hops]
  cases hkind : d.kind with
  | const =>
    obtain ⟨x, hops, htypes, hregions, hx⟩ := h.const hkind
    refine ⟨.const x, ?_, by rw [htypes]; rfl, hregions⟩
    simp only [formula?, hkind, hops, hx]
    rfl
  | add =>
    obtain ⟨left, right, hops, htypes, hregions⟩ := h.add hkind
    refine ⟨.sum left right, ?_, by rw [htypes]; rfl, hregions⟩
    simp only [formula?, hkind, hops]
  | rotate =>
    obtain ⟨axis, angle, qubit, hops, htypes, hregions, haxis⟩ := h.rotate hkind
    refine ⟨.rotation axis angle qubit, ?_, by rw [htypes]; rfl, hregions⟩
    simp only [formula?, hkind, hops, haxis]
    rfl
  | hadamard => exact hgate (by simp [Kind.IsGate, hkind])
  | pauliX => exact hgate (by simp [Kind.IsGate, hkind])
  | pauliZ => exact hgate (by simp [Kind.IsGate, hkind])
  | func | ret | branch | yield | alloc | measure =>
    rw [hkind] at hk
    cases hk

theorem formula?_eq_rotation {axis : Axis} {angle qubit : ValueId} :
    d.formula? = some (.rotation axis angle qubit) ↔ d.kind = .rotate ∧
      d.operands = [angle, qubit] ∧
        (d.attributes.get? "axis").bind Attribute.axis? = some axis := by
  constructor
  · intro h
    obtain ⟨hk, hops, -⟩ := formula?_eq_some h
    rw [Formula.kind] at hk
    rw [Formula.operands] at hops
    refine ⟨hk, hops, ?_⟩
    simp only [formula?, hk, hops, Option.map_eq_some_iff, Formula.rotation.injEq, and_true,
      exists_eq_right] at h
    exact h
  · rintro ⟨hk, hops, haxis⟩
    simp only [formula?, hk, hops, haxis, Option.map_some]

theorem formula?_rename (σ : ValueId → ValueId) :
    formula? { d with operands := d.operands.map σ } = d.formula?.map (Formula.rename σ) := by
  obtain ⟨kind, vs, results, resultTypes, attributes, regions, block, location, erased⟩ := d
  -- a formula wants none, one or two operands, and renaming keeps their number
  cases kind with
  | const =>
    rcases vs with _ | ⟨v, vs⟩
    · simp only [formula?, List.map_nil, Option.map_map]
      rfl
    · rfl
  | rotate =>
    rcases vs with _ | ⟨v, _ | ⟨w, _ | ⟨x, vs⟩⟩⟩
    · rfl
    · rfl
    · simp only [formula?, List.map_cons, List.map_nil, Option.map_map]
      rfl
    · rfl
  | add => rcases vs with _ | ⟨v, _ | ⟨w, _ | ⟨x, vs⟩⟩⟩ <;> rfl
  | hadamard => rcases vs with _ | ⟨v, _ | ⟨w, vs⟩⟩ <;> rfl
  | pauliX => rcases vs with _ | ⟨v, _ | ⟨w, vs⟩⟩ <;> rfl
  | pauliZ => rcases vs with _ | ⟨v, _ | ⟨w, vs⟩⟩ <;> rfl
  | func => rfl
  | ret => rfl
  | branch => rfl
  | yield => rfl
  | alloc => rfl
  | measure => rfl

end Op

namespace Graph

variable {g g' : Graph} {v : ValueId} {o : OpId} {d : Op}

/-- How a value is computed, if a live operation does. -/
def formula? (g : Graph) (v : ValueId) : Option Formula :=
  match g.definer? v with
  | .ok (some o) =>
      match g.op o with
      | .ok d => d.formula?
      | .error _ => none
  | _ => none

theorem Linked.formula?_of_result (hg : g.Linked) (hd : g.op o = .ok d) (hv : v ∈ d.results) :
    g.formula? v = d.formula? := by
  simp [formula?, hg.definer?_of_result (slot_of_op hd) hv, hd]

theorem Linked.formula?_eq_some (hg : g.Linked) {f : Formula} (h : g.formula? v = some f) :
    ∃ o d, g.op o = .ok d ∧ v ∈ d.results ∧ d.formula? = some f := by
  unfold formula? at h
  split at h
  · rename_i o ho
    split at h
    · rename_i d hd
      obtain ⟨x, hx, hv⟩ := hg.definer?_eq_some ho
      rw [slot_of_op hd] at hx
      cases hx
      exact ⟨o, d, hd, hv, h⟩
    · cases h
  · cases h

/-- A formula of a trimmed graph is one of the whole graph, but for what is gone. -/
theorem Trimmed.formula? {e : OpId} (h : Trimmed g g' e) (hvalue : g'.value v = g.value v)
    (hmade : g.definer? v ≠ .ok (some e)) : g'.formula? v = g.formula? v := by
  have hdefiner : g'.definer? v = g.definer? v := by simp only [definer?, origin, hvalue]
  unfold Graph.formula?
  rw [hdefiner]
  cases hd : g.definer? v with
  | error f => rfl
  | ok definer =>
    cases definer with
    | none => rfl
    | some o =>
      have ho : o ≠ e := by
        rintro rfl
        exact hmade hd
      simp only [h.op ho]

/-- Moving uses renames a value in all formulas. -/
theorem Rewired.formula? {σ : ValueId → ValueId} (h : Rewired g g')
    (hheld : ∀ {o}, g.definer? v = .ok (some o) →
      ∀ i, g'.held? ⟨o, i⟩ = (g.held? ⟨o, i⟩).map σ) :
    g'.formula? v = (g.formula? v).map (Formula.rename σ) := by
  have hdefiner : g'.definer? v = g.definer? v := by simp only [definer?, origin, h.value]
  unfold Graph.formula?
  rw [hdefiner]
  cases hv : g.definer? v with
  | error f => rfl
  | ok definer =>
    cases definer with
    | none => rfl
    | some o =>
      cases hd : g.op o with
      | ok d =>
        simp only [hd, h.op_map hd (hheld hv)]
        exact Op.formula?_rename σ
      | error f =>
        cases hd' : g'.op o with
        | error f' => simp only [hd, hd', Option.map_none]
        | ok d' =>
          obtain ⟨d, hd'', -⟩ := h.symm.op_ok hd'
          rw [hd] at hd''
          cases hd''

/-! ## Operations that compute a value -/

/-- The operation computes one value, in the given way. -/
def Computes (g : Graph) (o : OpId) (f : Formula) (v : ValueId) : Prop :=
  ∃ d, g.op o = .ok d ∧ d.formula? = some f ∧ d.results = [v] ∧ d.regions = []

variable {f : Formula}

namespace Computes

theorem op_ok (h : g.Computes o f v) :
    ∃ d, g.op o = .ok d ∧ v ∈ d.results ∧ d.formula? = some f := by
  obtain ⟨d, hd, hf, hv, -⟩ := h
  exact ⟨d, hd, by rw [hv]; exact .head _, hf⟩

theorem kind (h : g.Computes o f v) : g.kind o = .ok f.kind := by
  obtain ⟨d, hd, hf, -⟩ := h
  simp [Graph.kind, hd, (Op.formula?_eq_some hf).1]

theorem formula? (h : g.Computes o f v) (hg : g.Linked) : g.formula? v = some f := by
  obtain ⟨d, hd, hv, hf⟩ := h.op_ok
  rw [hg.formula?_of_result hd hv, hf]

theorem held? (h : g.Computes o f v) (i : Nat) : g.held? ⟨o, i⟩ = f.operands[i]? := by
  obtain ⟨d, hd, hf, -⟩ := h
  rw [held?_of_op (u := ⟨o, i⟩) hd, (Op.formula?_eq_some hf).2.1]

theorem operand (h : g.Computes o f v) {i : Nat} {w : ValueId} (hi : f.operands[i]? = some w) :
    g.operand o i = .ok w := by
  obtain ⟨d, hd, hf, -⟩ := h
  simp [Graph.operand, Graph.operands, hd, (Op.formula?_eq_some hf).2.1, hi, entry]

theorem results (h : g.Computes o f v) : g.results o = .ok [v] := by
  obtain ⟨d, hd, -, hv, -⟩ := h
  simp [Graph.results, hd, hv]

theorem result (h : g.Computes o f v) : g.result o 0 = .ok v := by
  simp [Graph.result, h.results, entry]

/-! The formula of an operation has the form that belongs to its kind. -/

theorem isGate {k : Kind} {qubit : ValueId} (h : g.Computes o (.gate k qubit) v) : k.IsGate := by
  obtain ⟨d, -, hf, -⟩ := h
  unfold Op.formula? at hf
  split at hf
  all_goals simp only [Option.map_eq_some_iff, Option.some.injEq, Formula.gate.injEq, reduceCtorEq,
    and_false, exists_false] at hf
  all_goals simp [← hf.1, Kind.IsGate]

theorem const_of_kind (h : g.Computes o f v) (hk : f.kind = .const) : ∃ x, f = .const x := by
  cases f with
  | const x => exact ⟨x, rfl⟩
  | gate kind qubit =>
    cases hk
    simpa [Kind.IsGate] using h.isGate
  | sum left right | rotation axis angle qubit => cases hk

theorem sum_of_kind (h : g.Computes o f v) (hk : f.kind = .add) :
    ∃ left right, f = .sum left right := by
  cases f with
  | sum left right => exact ⟨left, right, rfl⟩
  | gate kind qubit =>
    cases hk
    simpa [Kind.IsGate] using h.isGate
  | const x | rotation axis angle qubit => cases hk

theorem rotation_of_kind (h : g.Computes o f v) (hk : f.kind = .rotate) :
    ∃ axis angle qubit, f = .rotation axis angle qubit := by
  cases f with
  | rotation axis angle qubit => exact ⟨axis, angle, qubit, rfl⟩
  | gate kind qubit =>
    cases hk
    simpa [Kind.IsGate] using h.isGate
  | const x | sum left right => cases hk

theorem eq_of_definer? (h : g.Computes o f v) (hg : g.Linked) {w : ValueId}
    (hw : g.definer? w = .ok (some o)) : w = v := by
  obtain ⟨x, hx, hmem⟩ := hg.definer?_eq_some hw
  obtain ⟨d, hd, -, hv, -⟩ := h
  rw [slot_of_op hd] at hx
  cases hx
  rw [hv, List.mem_singleton] at hmem
  exact hmem

theorem value_ok (h : g.Computes o f v) (hg : g.Linked) : ∃ y, g.value v = .ok y := by
  obtain ⟨d, hd, hv, -⟩ := h.op_ok
  obtain ⟨y, i, hy, -⟩ := hg.origin_result (slot_of_op hd) hv
  exact ⟨y, hy⟩

theorem formula_unique {p : OpId} {f' : Formula} (h : g.Computes o f v) (hg : g.Linked)
    (h' : g.Computes p f' v) : f = f' :=
  Option.some.inj ((h.formula? hg).symm.trans (h'.formula? hg))

theorem constNumber {x : Binary64} (h : g.Computes o (.const x) v) : g.constNumber o = .ok x := by
  obtain ⟨d, hd, hf, -⟩ := h
  obtain ⟨hk, hops, -⟩ := Op.formula?_eq_some hf
  rw [Formula.kind] at hk
  rw [Formula.operands] at hops
  simp only [Op.formula?, hk, hops, Option.map_eq_some_iff, Formula.const.injEq,
    exists_eq_right] at hf
  simp [Graph.constNumber, attribute?, hd, hf]

theorem rotationAxis {axis : Axis} {angle qubit : ValueId}
    (h : g.Computes o (.rotation axis angle qubit) v) : g.rotationAxis o = .ok axis := by
  obtain ⟨d, hd, hf, -⟩ := h
  simp [Graph.rotationAxis, attribute?, hd, (Op.formula?_eq_rotation.1 hf).2.2]

end Computes

/-- Under the root, an operation of one of those kinds computes a value. -/
theorem Valid.computes {root : OpId} (h : g.Valid root) (ho : g.Inside root o)
    (hd : g.op o = .ok d) (hk : d.kind.isReducible = true) :
    ∃ f v, g.Computes o f v ∧ f.kind = d.kind := by
  obtain ⟨f, hf, hlen, hregions⟩ := (h.shaped ho hd).formula?_ok hk
  rw [← (h.linked.formed (slot_of_op hd)).2, List.length_eq_one_iff] at hlen
  obtain ⟨v, hv⟩ := hlen
  exact ⟨f, v, ⟨d, hd, hf, hv, hregions⟩, (Op.formula?_eq_some hf).1.symm⟩

theorem Valid.computes_result {root : OpId} (h : g.Valid root) (ho : g.Inside root o)
    (hd : g.op o = .ok d) (hv : v ∈ d.results) (hk : d.kind.isReducible = true) :
    ∃ f, g.Computes o f v ∧ f.kind = d.kind := by
  obtain ⟨f, w, hf, hfk⟩ := h.computes ho hd hk
  obtain ⟨d', hd', -, hw, -⟩ := id hf
  rw [hd] at hd'
  cases hd'
  rw [hw, List.mem_singleton] at hv
  exact ⟨f, hv ▸ hf, hfk⟩

/-! ## Edits -/

/-- The second graph is the first with the uses of one value moved to another. -/
structure Redirected (g : Graph) (old new : ValueId) (g' : Graph) : Prop where
  rewired : Rewired g g'
  coherent : g'.Coherent
  held (u : Use) : g'.held? u = (g.held? u).map fun v => if v = old then new else v

theorem Redirected.held_cases {old new : ValueId} {u : Use} (h : Redirected g old new g')
    (hu : g'.held? u = some v) :
    g.held? u = some v ∧ v ≠ old ∨ g.held? u = some old ∧ v = new := by
  rw [h.held, Option.map_eq_some_iff] at hu
  obtain ⟨w, hw, hv⟩ := hu
  split at hv
  · rename_i heq
    exact .inr ⟨heq ▸ hw, hv.symm⟩
  · rename_i hne
    exact .inl (hv ▸ ⟨hw, hne⟩)

theorem Redirected.computes {old new : ValueId} (h : Redirected g old new g')
    (hf : g.Computes o f v) :
    g'.Computes o (f.rename fun w => if w = old then new else w) v := by
  obtain ⟨d, hd, hf, hv, hregions⟩ := hf
  refine ⟨_, h.rewired.op_map hd fun i => h.held ⟨o, i⟩, ?_, hv, hregions⟩
  rw [Op.formula?_rename, hf]
  rfl

theorem Erased.computes {e : OpId} (h : Erased g e g') (hf : g.Computes o f v) (ho : o ≠ e) :
    g'.Computes o f v := by
  obtain ⟨d, hd, hrest⟩ := hf
  exact ⟨d, (h.trimmed.op ho).trans hd, hrest⟩

theorem Inserted.computes {a n : OpId} {e : Draft} (h : Inserted g a e n g')
    (hf : g.Computes o f v) : g'.Computes o f v := by
  obtain ⟨d, hd, hrest⟩ := hf
  exact ⟨d, h.trimmed.op_ok hd, hrest⟩

theorem Inserted.ne_of_computes {a n : OpId} {e : Draft} (h : Inserted g a e n g')
    (hf : g.Computes o f v) : n ≠ o := by
  obtain ⟨d, hd, -⟩ := hf
  rintro rfl
  exact h.trimmed.gone d hd

/-- What is inserted computes a value that was not there. -/
theorem Inserted.computes_new {a n : OpId} {e : Draft} (h : Inserted g a e n g')
    (hf : ∀ results, (e.made results).formula? = some f) (hlen : e.resultTypes.length = 1)
    (hregions : e.regions = []) :
    ∃ v, g'.Computes n f v ∧ ∀ y, g.value v ≠ .ok y := by
  obtain ⟨b, hd⟩ := h.made
  rw [hlen] at hd
  refine ⟨⟨g.values.size⟩, ⟨_, hd, ?_, by simp [Op.inBlock, Draft.made, nextValues], hregions⟩, ?_⟩
  · exact (Op.formula?_congr rfl rfl rfl).trans (hf (g.nextValues 1))
  · intro y hy
    exact Nat.lt_irrefl _ (index_lt_of_value hy)

end Graph

end Peephole
