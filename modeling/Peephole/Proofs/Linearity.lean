import Peephole.Proofs.Wakeups
import Peephole.Proofs.Weights

/-!
# Linear circuits

In a *linear* function no qubit is used twice: a value of qubit type has at most one use.
Results have the types that their operations were made with (`typed_invariant`), so the
results of gates and rotations are qubits and have at most one reader each.

This weaker property, `Graph.Exclusive`, is what the rules depend on, and every reduction
keeps it.  Where a reduction makes a new use of a qubit, it takes over the slot of a reader
that goes, or the value that had been read there goes.
-/

namespace Peephole

namespace Graph

variable {g g' : Graph} {root o : OpId} {v : ValueId}

/-! ## Types -/

/-- A result has the type that its operation was made with. -/
def Typed (g : Graph) : Prop :=
  ∀ {v : ValueId} {x : Value} {o : OpId} {i : Nat}, g.value v = .ok x → x.origin = .result o i →
    ∃ d, g.slot o = .ok d ∧ d.resultTypes[i]? = some x.type

namespace Typed

/-- A change that makes no values keeps their types. -/
theorem of_slots (h : g.Typed) (hvalue : ∀ v, g'.value v = g.value v)
    (hslot : ∀ {o d}, g.slot o = .ok d →
      ∃ d', g'.slot o = .ok d' ∧ d'.resultTypes = d.resultTypes) : g'.Typed := by
  intro v x o i hx horigin
  rw [hvalue] at hx
  obtain ⟨d, hd, hi⟩ := h hx horigin
  obtain ⟨d', hd', htypes⟩ := hslot hd
  exact ⟨d', hd', by rw [htypes, hi]⟩

theorem newOp {d : Draft} {n : OpId} (h : g.Typed) (hn : g.newOp d = .ok (n, g')) :
    g'.Typed := by
  intro v x o i hx horigin
  rcases (value_newOp hn).1 hx with hx | ⟨j, t, ht, -, rfl⟩
  · obtain ⟨d', hd', hi⟩ := h hx horigin
    refine ⟨d', ?_, hi⟩
    rw [slot_newOp hn, if_neg, hd']
    rintro rfl
    exact not_slot_of_newOp hn d' hd'
  · cases horigin
    exact ⟨_, by rw [slot_newOp hn, if_pos rfl], ht⟩

theorem rewired (h : g.Typed) (hr : Rewired g g') : g'.Typed := by
  refine h.of_slots hr.value fun hd => ?_
  obtain ⟨d', hd', hu⟩ := hr.slot_ok hd
  have htypes := congrArg Op.resultTypes hu
  exact ⟨d', hd', htypes⟩

theorem put (h : g.Typed) (o : OpId) (b : BlockId) (k : List OpId → List OpId) :
    (g.put o b k).Typed := by
  refine h.of_slots (value_put g o b k) fun {p d} hd => ?_
  rw [slot_put, hd]
  split
  · exact ⟨d.inBlock b, rfl, rfl⟩
  · exact ⟨d, rfl, rfl⟩

theorem erase (h : g.Typed) (he : g.erase o = .ok g') : g'.Typed := by
  obtain ⟨d, os, bs, -, -, he⟩ := dismantled_of_erase he
  refine h.of_slots he.value fun {p x} hx => ?_
  rw [he.slot, hx]
  split
  · exact ⟨_, rfl, rfl⟩
  · exact ⟨x, rfl, rfl⟩

end Typed

/-- Results have the types of their operations in every graph one can come to. -/
theorem typed_invariant (presets : Bool) : Invariant presets Typed where
  newOp h hn := h.newOp hn
  placeBefore h hp := by
    obtain ⟨d, a, b, B, i, -, -, -, -, -, -, rfl⟩ := placeBefore_eq_ok.1 hp
    exact h.put _ _ _
  writeSlot h _ hw := h.rewired (.writeSlot hw)
  redirectUses h hr := h.rewired (.redirectUses hr)
  erase h he := h.erase he
  empty := by
    intro v x o i hx
    cases hx
  paths _ h := h
  newBlock args l ops region h _ := by
    intro v x o i hx horigin
    rcases (value_newBlock _ args l ops region).1 hx with hx | ⟨j, t, -, -, rfl⟩
    · exact h hx horigin
    · cases horigin
  newRegion h _ hr := h.of_slots (value_newRegion hr) fun {o d} hd =>
    ⟨d, (slot_newRegion hr o).trans hd, rfl⟩
  placeLast h hp := by
    obtain ⟨d, B, -, -, -, rfl⟩ := placeLast_eq_ok.1 hp
    exact h.put _ _ _

/-! ## Qubits -/

/-- No qubit of the function is used twice. -/
def Linear (g : Graph) (root : OpId) : Prop :=
  ∀ {v : ValueId} {x : Value}, g.Belongs root v → g.value v = .ok x → x.type = .qubit →
    g.useCount v ≤ 1

/-- At most one slot holds the value. -/
def Single (g : Graph) (v : ValueId) : Prop :=
  ∀ ⦃r r' : Use⦄, g.held? r = some v → g.held? r' = some v → r = r'

/-- The result of a gate or a rotation has at most one reader. -/
def Exclusive (g : Graph) (root : OpId) : Prop :=
  ∀ {p : OpId} {f : Formula} {v : ValueId} {r r' : Use}, g.Inside root p → g.Computes p f v →
    f.kind.isUnitary = true → g.held? r = some v → g.held? r' = some v → r = r'

theorem Exclusive.single {f : Formula} (h : g.Exclusive root) (ho : g.Inside root o)
    (hf : g.Computes o f v) (hk : f.kind.isUnitary = true) : g.Single v :=
  fun _ _ hr hr' => h ho hf hk hr hr'

theorem resultTypes_of_isReducible {d : Op} (h : d.Shaped) (hk : d.kind.isReducible = true) :
    d.resultTypes = [if d.kind.isUnitary then .qubit else .number] := by
  have hdraft : d.draft.kind = d.kind := rfl
  show d.draft.resultTypes = _
  rw [← hdraft] at hk ⊢
  rw [Op.Shaped] at h
  generalize d.draft = e at h hk
  cases h with
  | gate he =>
    obtain ⟨hgate, rfl⟩ := Draft.gate_eq_ok.1 he
    simp only [Kind.IsGate, List.mem_cons, List.not_mem_nil, or_false] at hgate
    rcases hgate with rfl | rfl | rfl <;> rfl
  | rotate | const | add => rfl
  | alloc | measure | ret | yield | branch | func => cases hk

/-- Gates and rotations make qubits, constants and sums make numbers. -/
theorem Valid.type_eq (h : g.Valid root) (ht : g.Typed) {f : Formula} {x : Value}
    (ho : g.Inside root o) (hf : g.Computes o f v) (hx : g.value v = .ok x) :
    x.type = if f.kind.isUnitary then .qubit else .number := by
  obtain ⟨d, hd, hdf, hv, -⟩ := hf
  have hmem : v ∈ d.results := hv ▸ .head _
  obtain ⟨y, i, hy, horigin⟩ := h.linked.origin_result (slot_of_op hd) hmem
  rw [hx] at hy
  cases hy
  obtain ⟨d', hd', htype⟩ := ht hx horigin
  rw [slot_of_op hd] at hd'
  cases hd'
  obtain ⟨hkind, -, hk⟩ := Op.formula?_eq_some hdf
  rw [resultTypes_of_isReducible (h.shaped ho hd) hk, hkind] at htype
  cases i with
  | zero => exact (Option.some.inj htype).symm
  | succ i => cases htype

theorem Coherent.single_iff (h : g.Coherent) : g.Single v ↔ g.useCount v ≤ 1 := by
  have hnodup := h.nodup_uses v
  simp only [Single, ← h.mem_uses, useCount]
  generalize g.uses v = l at hnodup
  rcases l with _ | ⟨u, _ | ⟨u', l⟩⟩
  · simp
  · simp
  · simp only [List.length_cons]
    constructor
    · intro hsingle
      have heq := hsingle (.head (u' :: l)) (.tail u (.head l))
      simp [heq] at hnodup
    · omega

theorem Linear.exclusive (h : g.Linear root) (hg : g.Valid root) (ht : g.Typed) :
    g.Exclusive root := by
  intro p f v r r' hp hf hk hr hr'
  obtain ⟨d, hd, hmem, -⟩ := hf.op_ok
  obtain ⟨x, hx⟩ := hf.value_ok hg.linked
  have htype : x.type = .qubit := by rw [hg.type_eq ht hp hf hx, if_pos hk]
  exact hg.coherent.single_iff.2 (h (.result hp hd hmem) hx htype) hr hr'

end Graph

/-! ## Values with at most one reader -/

namespace Graph.Single

open Peephole.Graph

variable {g g₁ g₂ g₃ g₄ g' : Graph} {o p x n : OpId} {d : Draft} {y : ValueId}

theorem erased (h : g.Single y) (he : Erased g o g') : g'.Single y :=
  fun _ _ hr hr' => h (he.held_cases hr).2 (he.held_cases hr').2

theorem inserted (h : g.Single y) (hi : Inserted g o d n g') (hy : y ∉ d.operands) :
    g'.Single y := by
  have hback : ∀ {r}, g'.held? r = some y → g.held? r = some y := by
    intro r hr
    rcases hi.held_cases hr with ⟨-, hmem⟩ | ⟨-, hr⟩
    · exact absurd hmem hy
    · exact hr
  exact fun _ _ hr hr' => h (hback hr) (hback hr')

theorem redirected {old new : ValueId} (h : g.Single y) (hy : y ≠ new)
    (hr : Redirected g old new g') : g'.Single y := by
  have hback : ∀ {r}, g'.held? r = some y → g.held? r = some y := by
    intro r hheld
    rcases hr.held_cases hheld with ⟨hheld, -⟩ | ⟨-, heq⟩
    · exact hheld
    · exact absurd heq hy
  exact fun _ _ hr hr' => h (hback hr) (hback hr')

/-- The first gate of a pair reads the input and goes.  Who read the result of the last one
reads the input in its place. -/
theorem pair {input v : ValueId} (h : g.Single y) (hv : g.Single v)
    (hinput : g.held? ⟨p, 0⟩ = some input) (hr : Redirected g v input g₁) (he : Erased g₁ o g₂)
    (he' : Erased g₂ p g') : g'.Single y := by
  have hback : ∀ {r}, g'.held? r = some y → r.user ≠ p ∧
      (g.held? r = some y ∨ g.held? r = some v ∧ y = input) := by
    intro r hheld
    obtain ⟨hne, hheld⟩ := he'.held_cases hheld
    obtain ⟨-, hheld⟩ := he.held_cases hheld
    exact ⟨hne, (hr.held_cases hheld).imp_left And.left⟩
  intro r r' hheld hheld'
  obtain ⟨hne, hheld | ⟨hheld, rfl⟩⟩ := hback hheld
  · obtain ⟨-, hheld' | ⟨-, rfl⟩⟩ := hback hheld'
    · exact h hheld hheld'
    · exact absurd (congrArg Use.user (h hheld hinput)) hne
  · obtain ⟨hne', hheld' | ⟨hheld', -⟩⟩ := hback hheld'
    · exact absurd (congrArg Use.user (h hheld' hinput)) hne'
    · exact hv hheld hheld'

/-- The new gate takes the place of the first one of a conjugation, and its result that of the
last one. -/
theorem conjugation {input v w : ValueId} (h : g.Single y) (hv : g.Single v)
    (hinput : g.held? ⟨p, 0⟩ = some input) (hne_v : input ≠ v) (hfresh : ∀ r, g.held? r ≠ some w)
    (hoperands : d.operands = [input]) (hi : Inserted g o d n g₁) (hr : Redirected g₁ v w g₂)
    (he : Erased g₂ o g₃) (he' : Erased g₃ x g₄) (he'' : Erased g₄ p g') : g'.Single y := by
  have hnew : ∀ {r z}, g₁.held? r = some z → r = ⟨n, 0⟩ ∧ z = input ∨ g.held? r = some z := by
    intro r z hz
    rcases hi.held_slot hz with ⟨i, rfl, hslot⟩ | ⟨-, hz⟩
    · rw [hoperands] at hslot
      match i, hslot with
      | 0, rfl => exact .inl ⟨rfl, rfl⟩
    · exact .inr hz
  have hback : ∀ {r}, g'.held? r = some y → r.user ≠ p ∧
      (r = ⟨n, 0⟩ ∧ y = input ∨ g.held? r = some y ∨ g.held? r = some v ∧ y = w) := by
    intro r hheld
    obtain ⟨hne, hheld⟩ := he''.held_cases hheld
    obtain ⟨-, hheld⟩ := he'.held_cases hheld
    obtain ⟨-, hheld⟩ := he.held_cases hheld
    refine ⟨hne, ?_⟩
    rcases hr.held_cases hheld with ⟨hheld, -⟩ | ⟨hheld, rfl⟩
    · exact (hnew hheld).imp_right .inl
    · rcases hnew hheld with ⟨-, heq⟩ | hheld
      · exact absurd heq.symm hne_v
      · exact .inr (.inr ⟨hheld, rfl⟩)
  intro r r' hheld hheld'
  obtain ⟨hne, ⟨rfl, rfl⟩ | hheld | ⟨hheld, rfl⟩⟩ := hback hheld
  · obtain ⟨hne', ⟨rfl, -⟩ | hheld' | ⟨-, rfl⟩⟩ := hback hheld'
    · rfl
    · exact absurd (congrArg Use.user (h hheld' hinput)) hne'
    · exact absurd hinput (hfresh _)
  · obtain ⟨-, ⟨-, rfl⟩ | hheld' | ⟨-, rfl⟩⟩ := hback hheld'
    · exact absurd (congrArg Use.user (h hheld hinput)) hne
    · exact h hheld hheld'
    · exact absurd hheld (hfresh _)
  · obtain ⟨-, ⟨-, rfl⟩ | hheld' | ⟨hheld', -⟩⟩ := hback hheld'
    · exact absurd hinput (hfresh _)
    · exact absurd hheld' (hfresh _)
    · exact hv hheld hheld'

/-- In a fusion the rotation takes over one slot of the one that goes, and the new sum the
other one. -/
theorem fusion {a b input sum : ValueId} (h : g.Single y) (ha : g.held? ⟨p, 0⟩ = some a)
    (hinput : g.held? ⟨p, 1⟩ = some input) (hb : g.held? ⟨o, 0⟩ = some b) (hne : p ≠ o)
    (hy : y ≠ sum) (hoperands : d.operands = [a, b]) (hi : Inserted g p d n g₁)
    (hr : Rerouted g₁ o sum input g₂) (he : Erased g₂ p g') : g'.Single y := by
  -- Each reader afterwards stands for one before, and no two of them for the same.
  have hback : ∀ {r}, g'.held? r = some y → ∃ r₀, g.held? r₀ = some y ∧
      (r = ⟨o, 1⟩ ∧ r₀ = ⟨p, 1⟩ ∨ r = ⟨n, 0⟩ ∧ r₀ = ⟨p, 0⟩ ∨ r = ⟨n, 1⟩ ∧ r₀ = ⟨o, 0⟩ ∨
        r = r₀ ∧ r.user ≠ p ∧ r ≠ ⟨o, 0⟩) := by
    intro r hheld
    obtain ⟨huser, hheld⟩ := he.held_cases hheld
    rcases hr.held_cases hheld with ⟨rfl, rfl⟩ | ⟨-, heq⟩ | ⟨-, h₀, hheld⟩
    · exact ⟨_, hinput, .inl ⟨rfl, rfl⟩⟩
    · exact absurd heq hy
    · rcases hi.held_slot hheld with ⟨i, rfl, hslot⟩ | ⟨-, hheld⟩
      · rw [hoperands] at hslot
        match i, hslot with
        | 0, rfl => exact ⟨_, ha, .inr (.inl ⟨rfl, rfl⟩)⟩
        | 1, rfl => exact ⟨_, hb, .inr (.inr (.inl ⟨rfl, rfl⟩))⟩
      · exact ⟨r, hheld, .inr (.inr (.inr ⟨rfl, huser, h₀⟩))⟩
  intro r r' hheld hheld'
  obtain ⟨r₀, hr₀, hfrom⟩ := hback hheld
  obtain ⟨r₁, hr₁, hfrom'⟩ := hback hheld'
  cases h hr₀ hr₁
  grind

end Graph.Single

/-! ## Reductions of linear circuits -/

namespace Graph.Evolves

open Peephole.Graph

variable {g g' : Graph} {root c : OpId} {f : Formula} {y : ValueId}

/-- What a gate computes afterwards had at most one reader before. -/
theorem exclusive (h : Evolves g g') (hg : g.Valid root) (hx : g.Exclusive root)
    (hc : g'.Inside root c) (hf : g'.Computes c f y) (hk : f.kind.isUnitary = true) :
    g.Single y := by
  intro r r' hr hr'
  obtain ⟨x, hyx⟩ := hg.exist hr
  obtain ⟨f', hf', hout⟩ := h.computes hf hyx
  rw [← Formula.kind_of_outline hout] at hk
  exact hx (h.inside hc (hf'.makes hg.linked)) hf' hk hr hr'

/-- An operation computes by the same kind of formula as long as it is there. -/
theorem kind_eq (h : Evolves g g') (hg : g.Linked) {n : OpId} {f₁ : Formula}
    (hn : g.Computes n f₁ y) (hf : g'.Computes c f y) : f₁.kind = f.kind := by
  obtain ⟨x, hyx⟩ := hn.value_ok hg
  obtain ⟨f', hf', hout⟩ := h.computes hf hyx
  rw [hn.formula_unique hg hf', Formula.kind_of_outline hout]

end Graph.Evolves

namespace Session

open Peephole.Graph

variable {axes : Rules.AxisMatch} {s t : Session} {root o : OpId}

theorem Reduction.linked (h : s.Reduction axes o t) : t.graph.Linked := by
  cases h with
  | unused _ _ _ he | sum _ _ _ _ _ _ he | pair _ _ _ _ _ he => exact he.graph.linked
  | conjugation _ _ _ _ _ _ _ _ _ _ _ _ he => exact he.graph.linked
  | fusion _ _ _ _ _ _ _ _ he => exact he.graph.linked

/-- A value that is no number has at most one reader after a reduction if it had at most one
before, and if the same holds of what a gate at the operation makes. -/
theorem Reduction.single (h : s.Reduction axes o t) (hs : s.graph.Valid root)
    (ho : s.graph.Inside root o) {y : ValueId} (hold : s.graph.Single y)
    (hout : ∀ {f v}, s.graph.Computes o f v → f.kind.isUnitary = true → s.graph.Single v)
    (hk : ∀ {c f}, t.graph.Computes c f y → f.kind.isUnitary = true) : t.graph.Single y := by
  cases h with
  | unused _ _ _ he => exact hold.erased he.graph
  | sum hf₀ _ _ hi hn hr he =>
    refine Single.erased ?_ he.graph
    refine Single.redirected (hold.inserted hi.graph List.not_mem_nil) ?_ hr.graph
    rintro rfl
    cases hk (he.graph.computes (hr.graph.computes hn) (hi.graph.ne_of_computes hf₀))
  | pair hf₀ hp _ hr he he' =>
    exact hold.pair (hout hf₀ rfl) (hp.computes.held? 0) hr.graph he.graph he'.graph
  | @conjugation _ _ _ _ _ input v w _ _ _ _ _ _ hf₀ _ hxo hp hpx _ hoperands hi hn hr he he'
      he'' =>
    have hne_v : input ≠ v := by
      have hpo := hs.linked.precedes_trans hpx hxo
      have hpi := ho.before hs.linked hpo
      exact hf₀.ne_of_visible hs hpi (.inr hpo) (hs.operand_visible hpi hp.computes (.head _))
    have hfresh : ∀ r, s.graph.held? r ≠ some w := by
      intro r hr
      obtain ⟨z, hz⟩ := hs.exist hr
      exact hi.graph.ne_of_value hn hz rfl
    exact hold.conjugation (hout hf₀ rfl) (hp.computes.held? 0) hne_v hfresh hoperands hi.graph
      hr.graph he.graph he'.graph he''.graph
  | fusion hf₀ hp hpo _ _ hi hn hr he =>
    refine hold.fusion (hp.computes.held? 0) (hp.computes.held? 1) (hf₀.held? 0)
      (hs.linked.ne_of_precedes hpo) ?_ rfl hi.graph hr.graph he.graph
    rintro rfl
    cases hk (he.graph.computes (hr.graph.computes_other hn (hi.graph.ne_of_computes hf₀))
      (hi.graph.ne_of_computes hp.computes))

/-- Reductions leave every gate and rotation with at most one reader. -/
theorem Reduction.exclusive (h : s.Reduction axes o t) (hs : s.graph.Valid root)
    (ho : s.graph.Inside root o) (hx : s.graph.Exclusive root) : t.graph.Exclusive root := by
  have hevolves := (h.wakes hs.linked hs.coherent).2.toEvolves
  intro c f y r r' hc hf hk hr hr'
  have hkind : ∀ {c f'}, t.graph.Computes c f' y → f'.kind.isUnitary = true := by
    intro c f' hf'
    rw [hf'.formula_unique h.linked hf, hk]
  exact h.single hs ho (hevolves.exclusive hs hx hc hf hk) (hx.single ho) hkind hr hr'

end Session

end Peephole
