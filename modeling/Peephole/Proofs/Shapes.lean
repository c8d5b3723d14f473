import Peephole.Graph.Parts
import Peephole.Proofs.Links

/-!
# Operations of the usual shape

The library has a draft for every kind.  `Op.Shaped` says that an operation looks like
one made from such a draft: it has the operands, result types, attributes and regions
that belong to its kind.  What the readers of a kind need then follows from the kind.
-/

namespace Peephole

/-- The drafts that the library has for the kinds. -/
inductive Draft.Standard : Draft → Prop
  | alloc (l : Location) : Standard (.alloc l)
  | const (l : Location) (x : Binary64) : Standard (.const l x)
  | add (l : Location) (left right : ValueId) : Standard (.add l left right)
  | rotate (l : Location) (axis : Axis) (angle qubit : ValueId) :
      Standard (.rotate l axis angle qubit)
  | gate {l : Location} {kind : Kind} {qubit : ValueId} {d : Draft} :
      Draft.gate l kind qubit = .ok d → Standard d
  | measure (l : Location) (qubit : ValueId) : Standard (.measure l qubit)
  | ret (l : Location) (values : List ValueId) : Standard (.ret l values)
  | yield (l : Location) (values : List ValueId) : Standard (.yield l values)
  | branch (l : Location) (condition : ValueId) (types : List Ty) (body : RegionId) :
      Standard (.branch l condition types body)
  | func (l : Location) (name : String) (body : RegionId) : Standard (.func l name body)

/-- The draft that would make an operation like this one. -/
def Op.draft (d : Op) : Draft :=
  { kind := d.kind, location := d.location, operands := d.operands, resultTypes := d.resultTypes,
    attributes := d.attributes, regions := d.regions }

/-- The operation has the operands, result types, attributes and regions of its kind. -/
def Op.Shaped (d : Op) : Prop := d.draft.Standard

/-- The kinds of the gates without parameters. -/
def Kind.IsGate (k : Kind) : Prop := k ∈ [Kind.hadamard, .pauliX, .pauliZ]

theorem Draft.gate_eq_ok {l : Location} {k : Kind} {q : ValueId} {d : Draft} :
    Draft.gate l k q = .ok d ↔
      k.IsGate ∧ d = { kind := k, location := l, operands := [q], resultTypes := [.qubit] } := by
  rw [Draft.gate]
  split
  · rename_i hk
    simp [Kind.IsGate, hk, eq_comm]
  · rename_i hk
    simp [Kind.IsGate, hk]

/-- A standard draft is the draft of its kind. -/
theorem Draft.Standard.of_kind {e : Draft} (h : e.Standard) :
    match e.kind with
    | .alloc => e = .alloc e.location
    | .const => ∃ x, e = .const e.location x
    | .add => ∃ left right, e = .add e.location left right
    | .rotate => ∃ axis angle qubit, e = .rotate e.location axis angle qubit
    | .hadamard | .pauliX | .pauliZ => ∃ qubit, Draft.gate e.location e.kind qubit = .ok e
    | .measure => ∃ qubit, e = .measure e.location qubit
    | .ret => ∃ values, e = .ret e.location values
    | .yield => ∃ values, e = .yield e.location values
    | .branch => ∃ condition types body, e = .branch e.location condition types body
    | .func => ∃ name body, e = .func e.location name body := by
  cases h with
  | gate hd =>
    obtain ⟨hk, rfl⟩ := Draft.gate_eq_ok.1 hd
    simp only [Kind.IsGate, List.mem_cons, List.not_mem_nil, or_false] at hk
    rcases hk with rfl | rfl | rfl
    all_goals exact ⟨_, hd⟩
  | alloc l => rfl
  | const l x => exact ⟨x, rfl⟩
  | add l left right => exact ⟨left, right, rfl⟩
  | rotate l axis angle qubit => exact ⟨axis, angle, qubit, rfl⟩
  | measure l qubit => exact ⟨qubit, rfl⟩
  | ret l values => exact ⟨values, rfl⟩
  | yield l values => exact ⟨values, rfl⟩
  | branch l condition types body => exact ⟨condition, types, body, rfl⟩
  | func l name body => exact ⟨name, body, rfl⟩

namespace Op.Shaped

variable {d : Op}

theorem made {e : Draft} (h : e.Standard) (hb : e.block = none) (results : List ValueId) :
    (e.made results).Shaped := by
  have heq : (e.made results).draft = e := by
    cases e
    cases hb
    rfl
  rw [Shaped, heq]
  exact h

/-- A shape fixes how many operands there are, and not which. -/
theorem withOperands (h : d.Shaped) {vs : List ValueId} (hvs : vs.length = d.operands.length) :
    Op.Shaped { d with operands := vs } := by
  have hdraft : Op.draft { d with operands := vs } = { d.draft with operands := vs } := rfl
  have hlen : vs.length = d.draft.operands.length := hvs
  rw [Shaped, hdraft]
  rw [Shaped] at h
  generalize d.draft = e at h hlen
  cases h with
  | alloc l =>
    cases List.length_eq_zero_iff.1 hlen
    exact .alloc l
  | const l x =>
    cases List.length_eq_zero_iff.1 hlen
    exact .const l x
  | add l left right =>
    obtain ⟨v, w, rfl⟩ := List.length_eq_two.1 hlen
    exact .add l v w
  | rotate l axis angle qubit =>
    obtain ⟨v, w, rfl⟩ := List.length_eq_two.1 hlen
    exact .rotate l axis v w
  | gate he =>
    obtain ⟨hk, rfl⟩ := Draft.gate_eq_ok.1 he
    obtain ⟨v, rfl⟩ := List.length_eq_one_iff.1 hlen
    exact .gate (Draft.gate_eq_ok.2 ⟨hk, rfl⟩)
  | measure l qubit =>
    obtain ⟨v, rfl⟩ := List.length_eq_one_iff.1 hlen
    exact .measure l v
  | ret l values => exact .ret l vs
  | yield l values => exact .yield l vs
  | branch l condition types body =>
    obtain ⟨v, rfl⟩ := List.length_eq_one_iff.1 hlen
    exact .branch l v types body
  | func l name body =>
    cases List.length_eq_zero_iff.1 hlen
    exact .func l name body

theorem gate (h : d.Shaped) (hk : d.kind.IsGate) :
    ∃ q, d.operands = [q] ∧ d.resultTypes = [.qubit] ∧ d.regions = [] := by
  have hkind := Draft.Standard.of_kind h
  have hgate : ∃ q, Draft.gate d.location d.kind q = .ok d.draft := by
    simp only [Kind.IsGate, List.mem_cons, List.not_mem_nil, or_false] at hk
    rcases hk with hk | hk | hk
    all_goals
      rw [show d.draft.kind = d.kind from rfl, hk] at hkind
      rw [hk]
      exact hkind
  obtain ⟨q, hq⟩ := hgate
  have hdraft := (Draft.gate_eq_ok.1 hq).2
  exact ⟨q, congrArg Draft.operands hdraft, congrArg Draft.resultTypes hdraft,
    congrArg Draft.regions hdraft⟩

theorem rotate (h : d.Shaped) (hk : d.kind = .rotate) :
    ∃ axis angle qubit, d.operands = [angle, qubit] ∧ d.resultTypes = [.qubit] ∧ d.regions = [] ∧
      d.attributes.get? "axis" = some (.axis axis) := by
  have hkind := Draft.Standard.of_kind h
  rw [show d.draft.kind = .rotate from hk] at hkind
  obtain ⟨axis, angle, qubit, hdraft⟩ := hkind
  refine ⟨axis, angle, qubit, congrArg Draft.operands hdraft, congrArg Draft.resultTypes hdraft,
    congrArg Draft.regions hdraft, ?_⟩
  rw [show d.attributes = _ from congrArg Draft.attributes hdraft]
  exact Attributes.get?_insert_self ..

theorem const (h : d.Shaped) (hk : d.kind = .const) :
    ∃ x, d.operands = [] ∧ d.resultTypes = [.number] ∧ d.regions = [] ∧
      d.attributes.get? "value" = some (.number x) := by
  have hkind := Draft.Standard.of_kind h
  rw [show d.draft.kind = .const from hk] at hkind
  obtain ⟨x, hdraft⟩ := hkind
  refine ⟨x, congrArg Draft.operands hdraft, congrArg Draft.resultTypes hdraft,
    congrArg Draft.regions hdraft, ?_⟩
  rw [show d.attributes = _ from congrArg Draft.attributes hdraft]
  exact Attributes.get?_insert_self ..

theorem add (h : d.Shaped) (hk : d.kind = .add) :
    ∃ left right, d.operands = [left, right] ∧ d.resultTypes = [.number] ∧ d.regions = [] := by
  have hkind := Draft.Standard.of_kind h
  rw [show d.draft.kind = .add from hk] at hkind
  obtain ⟨left, right, hdraft⟩ := hkind
  exact ⟨left, right, congrArg Draft.operands hdraft, congrArg Draft.resultTypes hdraft,
    congrArg Draft.regions hdraft⟩

theorem func (h : d.Shaped) (hk : d.kind = .func) : d.operands = [] ∧ d.resultTypes = [] := by
  have hkind := Draft.Standard.of_kind h
  rw [show d.draft.kind = .func from hk] at hkind
  obtain ⟨name, body, hdraft⟩ := hkind
  exact ⟨congrArg Draft.operands hdraft, congrArg Draft.resultTypes hdraft⟩

end Op.Shaped

end Peephole
