import Peephole.Proofs.LooseEnds
import Peephole.Proofs.Meaning
import Mathlib.Data.Finset.Image
import Mathlib.Data.Set.Finite.Basic

/-!
# Residues

A qubit of a well-typed function *denotes* a value that no gate makes and the action of the
gates on the way from there.  The *residue* of the function is what its loose qubits denote,
with multiplicity.

Every reduction keeps the residue of a linear, well-typed function, and so does the pass
(`Pass.run_keeps_residue`).  A pair of Hadamard gates acts as nothing, so the qubit that is
loose in place of their result denotes the same, and so does the result of a Z gate that
takes the place of three gates.  In `strayGraph` a sum reads qubits, and the pass does not
keep the residue (`Pass.run_stray`).
-/

namespace Peephole

open Peephole.Graph Relation

/-! ## What is left -/

section

variable {M : Type*} [Monoid M] (I : Interpretation M) (env : ValueId → Binary64)

/-- The value is what gates make of another one, which no gate makes. -/
def Graph.Denotes (g : Graph) (v : ValueId) (m : ValueId × M) : Prop :=
  Means I env g v ⟨.value m.1, m.2⟩

/-- What the loose qubits of the function denote, with multiplicity. -/
def Graph.Residue (g : Graph) (root : OpId) (ms : Multiset (ValueId × M)) : Prop :=
  ∃ S : Finset ValueId, (∀ v, v ∈ S ↔ g.Loose root v) ∧ Multiset.Rel (Denotes I env g) S.val ms

end

namespace Graph

variable {M : Type*} [Monoid M] {I : Interpretation M} {env : ValueId → Binary64} {g g' : Graph}
  {root o : OpId} {v : ValueId} {ms ms' : Multiset (ValueId × M)}

/-! ## Meanings that stay -/

section Edits

variable {x : Value} {m : Meaning M}

/-- An edit keeps the meaning of what it leaves under the root. -/
theorem Edit.means (he : Edit .same root g g') (h : g.Valid root) (hv : g'.Belongs root v)
    (hx : g.value v = .ok x) (hm : Means I env g v m) : Means I env g' v m := by
  cases he with
  | insert _ _ _ _ _ hi => exact hi.means h.toFramed hm ⟨x, hx⟩
  | redirect halike _ _ hr => exact (hr.means halike hm).1
  | fuse _ hf hq hsum haxis hne _ _ hr =>
    obtain rfl := haxis rfl
    exact hr.means h.linked hf hq hsum hne hm
  | erase _ hf hfree he =>
    exact he.means h.toFramed hf hfree hm ((he.belongs_iff h.linked hf).1 hv).2

theorem Edit.means_all (he : ReflTransGen (Edit .same root) g g') (h : g.Valid root)
    (hv : g'.Belongs root v) (hx : g.value v = .ok x) (hm : Means I env g v m) :
    Means I env g' v m := by
  induction he using ReflTransGen.head_induction_on with
  | refl => exact hm
  | head he hrest ih =>
    have hx' := he.value hx
    exact ih (he.valid h) hx' (he.means h (Edit.belongs_old_all hrest hx' hv) hx hm)

end Edits

theorem Valid.computes_of_formula? (h : g.Valid root) {f : Formula} (hv : g.Belongs root v)
    (hf : g.formula? v = some f) : ∃ o, g.Inside root o ∧ g.Computes o f v := by
  obtain ⟨o, d, hd, hmem, hdf⟩ := h.linked.formula?_eq_some hf
  have ho := hv.definer h.linked hd hmem
  obtain ⟨f', hf', -⟩ := h.computes_result ho hd hmem (Op.formula?_eq_some hdf).2.2
  obtain rfl : f' = f := Option.some.inj ((hf'.formula? h.linked).symm.trans hf)
  exact ⟨o, ho, hf'⟩

/-- Gates on a qubit of a well-typed function start from a value. -/
theorem Function.source_value {m : Meaning M} (h : g.Function root) (hw : g.WellTyped root)
    (hv : g.Belongs root v) (hq : g.IsQubit v) (hm : Means I env g v m) :
    ∃ u, m.source = .value u := by
  have hoperand : ∀ {f v a}, g.Belongs root v → g.formula? v = some f → a ∈ f.operands →
      g.Belongs root a := by
    intro f v a hv hf ha
    obtain ⟨o, ho, hf⟩ := h.valid.computes_of_formula? hv hf
    exact (h.valid.operand_visible ho hf ha).belongs h.valid.linked h.valid.detached ho
  induction hm with
  | const hf =>
    obtain ⟨o, ho, hf⟩ := h.valid.computes_of_formula? hv hf
    cases (h.isQubit_iff ho hf).1 hq
  | sum hf =>
    obtain ⟨o, ho, hf⟩ := h.valid.computes_of_formula? hv hf
    cases (h.isQubit_iff ho hf).1 hq
  | gate hf _ ih =>
    obtain ⟨o, ho, hf'⟩ := h.valid.computes_of_formula? hv hf
    exact ih (hoperand hv hf (.head _)) (hw ho hf')
  | rotation hf _ _ _ ih =>
    obtain ⟨o, ho, hf'⟩ := h.valid.computes_of_formula? hv hf
    exact ih (hoperand hv hf (.tail _ (.head _))) (hw ho hf').2
  | other => exact ⟨_, rfl⟩

theorem Function.denotes (h : g.Function root) (hw : g.WellTyped root) (hv : g.Belongs root v)
    (hq : g.IsQubit v) : ∃ m, Denotes I env g v m := by
  obtain ⟨⟨source, action⟩, hm⟩ : ∃ m, Means I env g v m := by
    apply Means.of_operands
    intro f a hf ha
    obtain ⟨o, ho, hf⟩ := h.valid.computes_of_formula? hv hf
    obtain ⟨k, hlevel⟩ := id ho
    exact h.valid.means I env hlevel (h.valid.operand_visible ho hf ha)
  obtain ⟨u, rfl⟩ := h.source_value hw hv hq hm
  exact ⟨(u, action), hm⟩

theorem Denotes.unique {m n : ValueId × M} (h : Denotes I env g v m) (h' : Denotes I env g v n) :
    m = n := by
  have heq := Means.unique h h'
  simp only [Meaning.mk.injEq, Source.value.injEq] at heq
  exact Prod.ext heq.1 heq.2

theorem exists_loose (g : Graph) (root : OpId) :
    ∃ S : Finset ValueId, ∀ v, v ∈ S ↔ g.Loose root v := by
  have hfinite : {v | g.Loose root v}.Finite := by
    refine ((Set.finite_lt_nat g.values.size).image ValueId.mk).subset ?_
    intro v hv
    obtain ⟨x, hx, -⟩ := hv.qubit
    exact ⟨v.index, index_lt_of_value hx, rfl⟩
  exact ⟨hfinite.toFinset, fun v => hfinite.mem_toFinset⟩

/-- In a well-typed function all loose qubits denote something. -/
theorem Function.residue (h : g.Function root) (hw : g.WellTyped root) :
    ∃ ms, Residue I env g root ms := by
  obtain ⟨S, hS⟩ := exists_loose g root
  have hall : ∀ v, ∃ m : ValueId × M, g.Loose root v → Denotes I env g v m := by
    intro v
    by_cases hv : g.Loose root v
    · obtain ⟨m, hm⟩ : ∃ m, Denotes I env g v m := h.denotes hw hv.belongs hv.qubit
      exact ⟨m, fun _ => hm⟩
    · exact ⟨(v, 1), fun hv' => absurd hv' hv⟩
  choose f hf using hall
  refine ⟨S.val.map f, S, hS, ?_⟩
  rw [Multiset.rel_map_right]
  exact Multiset.rel_refl_of_refl_on fun v hv => hf v ((hS v).1 hv)

theorem Residue.unique (h : Residue I env g root ms) (h' : Residue I env g root ms') :
    ms = ms' := by
  obtain ⟨S, hS, hrel⟩ := h
  obtain ⟨S', hS', hrel'⟩ := h'
  obtain rfl : S = S' := Finset.ext fun v => (hS v).trans (hS' v).symm
  have hall : ∀ v, ∃ m : ValueId × M, ∀ n, Denotes I env g v n → m = n := by
    intro v
    by_cases hv : ∃ m, Denotes I env g v m
    · obtain ⟨m, hm⟩ := hv
      exact ⟨m, fun n hn => hm.unique hn⟩
    · exact ⟨(v, 1), fun n hn => absurd ⟨n, hn⟩ hv⟩
  choose f hf using hall
  have hmap : ∀ {ms}, Multiset.Rel (Denotes I env g) S.val ms → S.val.map f = ms := by
    intro ms hrel
    rw [← Multiset.rel_eq, Multiset.rel_map_left]
    exact hrel.mono fun v _ m _ hm => hf v m hm
  rw [← hmap hrel, ← hmap hrel']

/-- The residue stays if every loose qubit goes over to one that denotes the same. -/
theorem Residue.rename {σ : ValueId → ValueId} (h : Residue I env g root ms)
    (himage : ∀ v, g'.Loose root v ↔ ∃ u, g.Loose root u ∧ σ u = v)
    (hinj : Set.InjOn σ {v | g.Loose root v})
    (hm : ∀ {v m}, g.Loose root v → Denotes I env g v m → Denotes I env g' (σ v) m) :
    Residue I env g' root ms := by
  classical
  obtain ⟨S, hS, hrel⟩ := h
  have hinjS : Set.InjOn σ S := by
    intro u hu v hv
    exact hinj ((hS u).1 hu) ((hS v).1 hv)
  refine ⟨S.image σ, ?_, ?_⟩
  · intro v
    rw [Finset.mem_image, himage]
    simp only [hS]
  · rw [Finset.image_val_of_injOn hinjS, Multiset.rel_map_left]
    exact hrel.mono fun u hu m _ hd => hm ((hS u).1 hu) hd

theorem Residue.spares (h : Residue I env g root ms) (hspares : g.Spares root g')
    (hm : ∀ {v m}, g.IsQubit v → g'.Belongs root v → Means I env g v m → Means I env g' v m) :
    Residue I env g' root ms := by
  refine h.rename (σ := id) (fun v => by simp [hspares.loose]) Function.injective_id.injOn ?_
  intro v m hv
  exact hm hv.qubit ((hspares.loose v).2 hv).belongs

theorem Residue.swaps {old new : ValueId} (h : Residue I env g root ms)
    (hswaps : g.Swaps root old new g')
    (hm : ∀ {v m}, g.IsQubit v → g'.Belongs root v → Means I env g v m → Means I env g' v m)
    (hnew : g'.Loose root new → ∀ m, Means I env g old m → Means I env g' new m) :
    Residue I env g' root ms := by
  refine h.rename (σ := fun v => if v = old then new else v) ?_ ?_ ?_
  · intro v
    rw [hswaps.loose]
    constructor
    · rintro (⟨hv, hne⟩ | ⟨rfl, hv⟩)
      · exact ⟨v, hv, if_neg hne⟩
      · exact ⟨old, hv, if_pos rfl⟩
    · rintro ⟨u, hu, rfl⟩
      split
      · rename_i heq
        exact .inr ⟨rfl, heq ▸ hu⟩
      · rename_i hne
        exact .inl ⟨hu, hne⟩
  · intro u hu v hv heq
    dsimp only at heq
    split at heq
    · rename_i hu'
      split at heq
      · rename_i hv'
        rw [hu', hv']
      · exact absurd (heq ▸ hv) hswaps.taken
    · split at heq
      · exact absurd (heq ▸ hu) hswaps.taken
      · exact heq
  · intro v m hv hd
    split
    · rename_i heq
      subst heq
      exact hnew ((hswaps.loose new).2 (.inr ⟨rfl, hv⟩)) _ hd
    · rename_i hne
      exact hm hv.qubit ((hswaps.loose v).2 (.inl ⟨hv, hne⟩)).belongs hd

end Graph

/-! ## Reductions -/

namespace Session.Reduction

variable {M : Type*} [Monoid M] {I : Interpretation M} {env : ValueId → Binary64} {s t : Session}
  {root o : OpId} {ms : Multiset (ValueId × M)}

/-- A reduction of a linear and well-typed function keeps its residue. -/
theorem residue (h : s.Reduction .same o t) (hs : s.graph.Function root)
    (ht : t.graph.Function root) (hedits : ReflTransGen (Edit .same root) s.graph t.graph)
    (ho : s.graph.Inside root o) (hl : s.graph.Linear root) (hw : s.graph.WellTyped root)
    (hres : Residue I env s.graph root ms) : Residue I env t.graph root ms := by
  have hg := hs.valid.linked
  have hkeeps : ∀ {v m}, s.graph.IsQubit v → t.graph.Belongs root v →
      Means I env s.graph v m → Means I env t.graph v m := by
    rintro v m ⟨x, hx, -⟩ hv hm
    exact Edit.means_all hedits hs.valid hv hx hm
  cases h with
  | unused hf hk _ he => exact hres.spares (hs.spares_unused hw ho hf hk he.graph) hkeeps
  | sum hf _ _ hi hn hr he =>
    exact hres.spares (hs.spares_sum hw ht ho hf hi.graph hn hr.graph he.graph) hkeeps
  | pair hf hp hpo hr he he' =>
    have hswaps := hs.swaps_pair hl hw ho hf hp hpo hr.graph he.graph he'.graph
    refine hres.swaps hswaps hkeeps fun hnew m hm => ?_
    obtain ⟨n, hn, rfl⟩ := Means.gate_inv hm (hf.formula? hg)
    obtain ⟨k, hk, rfl⟩ := hn.gate_inv (hp.computes.formula? hg)
    rw [I.hadamard_hadamard]
    exact hkeeps (hw (ho.before hg hpo) hp.computes) hnew.belongs hk
  | @conjugation x p n a b input v w d s₁ s₂ s₃ s₄ _ hf hx hxo hp hpx _ hd hi hn hr he he' he'' =>
    obtain ⟨hswaps, hn'⟩ := hs.swaps_conjugation hw ht ho hf hx hxo hp hpx hd hi.graph hn hr.graph
      he.graph he'.graph he''.graph
    refine hres.swaps hswaps hkeeps fun hnew m hm => ?_
    obtain ⟨n, hn, rfl⟩ := Means.gate_inv hm (hf.formula? hg)
    obtain ⟨k, hk, rfl⟩ := hn.gate_inv (hx.computes.formula? hg)
    obtain ⟨j, hj, rfl⟩ := hk.gate_inv (hp.computes.formula? hg)
    rw [I.hadamard_pauliX_hadamard]
    have hni := hn'.inside ht.valid.linked hnew.belongs
    have hinput := (ht.valid.operand_visible hni hn' (.head _)).belongs ht.valid.linked
      ht.valid.detached hni
    have hpi := (ho.before hg hxo).before hg hpx
    exact .gate (hn'.formula? ht.valid.linked) (hkeeps (hw hpi hp.computes) hinput hj)
  | fusion hf hp hpo _ _ hi hn hr he =>
    exact hres.spares (hs.spares_fusion hw ht ho hf hp hpo hi.graph hn hr.graph he.graph) hkeeps

end Session.Reduction

/-! ## Runs -/

section Runs

variable {axes : Rules.AxisMatch} {c : Config} {rules : RuleSet} {root : OpId} {g : Graph}
  {p : Progress}

/-- What reductions of functions keep holds of every function that a run goes through. -/
theorem Progress.Visited.induct {P : Graph → Prop} (hrules : rules.Regular axes root)
    (h : g.Function root) (hstart : P g)
    (hstep : ∀ {s t : Session} {o : OpId}, s.graph.Function root → t.graph.Function root →
      ReflTransGen (Edit axes root) s.graph t.graph → s.graph.Inside root o →
      s.Reduction axes o t → P s.graph → P t.graph)
    (hp : Visited c rules root g p) : P p.graph := by
  have hfunction : ∀ {p}, Visited c rules root g p → p.graph.Function root := fun hp =>
    (hp.sound hrules.reduces hrules.clean.programs h.valid).valid.function
      (hp.reachable hrules.clean.programs h.built)
  induction hp with
  | start => exact hstart
  | seed _ _ ih => exact ih
  | again hp ht ih =>
    have hq := hfunction (hp.again ht)
    have hsound := hp.sound hrules.reduces hrules.clean.programs h.valid
    cases hsound.again hrules ht with
    | passes _ _ _ hgraph _ => rwa [graph_passed, hgraph]
    | reduces _ ho _ _ _ hs hleads hreduction hgraph _ =>
      subst hs
      rw [graph_reduced, hgraph] at hq ⊢
      exact hstep (hfunction hp) hq hleads.edits ho hreduction ih
  | done hp ht ih =>
    have hsound := hp.sound hrules.reduces hrules.clean.programs h.valid
    rwa [(turn_done ht (hsound.not_failed hrules ht)).1]

end Runs

variable {M : Type*} [Monoid M] {root : OpId} {g : Graph}

/-- The pass keeps qubits linear and loses no gate.  In a linear function no qubit has two
uses afterwards, however the run ends.  If the function is well-typed, the loose qubits are
what gates make of the same values, with the same actions, before and after. -/
theorem Pass.run_keeps_residue (I : Interpretation M) (env : ValueId → Binary64) (c : Config)
    (h : g.Function root) (hlinear : g.Linear root) :
    ∃ result g', Pass.run ⟨c, .same⟩ g root = .ok (result, g') ∧ g'.Linear root ∧
      (g.WellTyped root → ∃ ms, (∀ n, g.Residue I env root n ↔ n = ms) ∧
        ∀ n, g'.Residue I env root n ↔ n = ms) := by
  obtain ⟨result, q, hrun, -, -, -, hvisited⟩ := Pass.run_ok ⟨c, .same⟩ h.valid
  have hrules := Pass.rules_regular ⟨c, .same⟩ root
  have hkept : q.graph.Linear root := by
    refine hvisited.induct (P := fun g => g.Linear root) hrules h hlinear ?_
    intro s t o hs ht hedits ho hreduction hl
    exact hreduction.linear hs ht hedits ho hl
  refine ⟨result, q.graph, hrun c.verify, hkept, fun hw => ?_⟩
  obtain ⟨ms, hms⟩ : ∃ ms, g.Residue I env root ms := h.residue hw
  let P (g : Graph) := g.Linear root ∧ g.WellTyped root ∧ g.Residue I env root ms
  obtain ⟨-, -, hms'⟩ : P q.graph := by
    refine hvisited.induct hrules h ⟨hlinear, hw, hms⟩ ?_
    rintro s t o hs ht hedits ho hreduction ⟨hl, hw, hres⟩
    exact ⟨hreduction.linear hs ht hedits ho hl, hreduction.wellTyped hs ht ho hl hw,
      hreduction.residue hs ht hedits ho hl hw hres⟩
  refine ⟨ms, fun n => ⟨fun hn => hn.unique hms, ?_⟩, fun n => ⟨fun hn => hn.unique hms', ?_⟩⟩
  · rintro rfl
    exact hms
  · rintro rfl
    exact hms'

/-! ## Two functions -/

namespace Graph

/-- Two Hadamard gates on the argument of a function, which returns nothing. -/
def danglingBody (args : List ValueId) : BuildM Unit := do
  let a ← BuildM.gate .hadamard (args.headD default)
  let _ ← BuildM.gate .hadamard a
  let _ ← BuildM.ret []

/-- The function that `danglingBody` is the body of. -/
def danglingGraph : Graph where
  ops := #[
    { kind := .hadamard, operands := [⟨0⟩], results := [⟨1⟩], resultTypes := [.qubit],
      attributes := .empty, regions := [], block := some ⟨0⟩, location := ⟨⟨0⟩, 0, 0⟩,
      erased := false },
    { kind := .hadamard, operands := [⟨1⟩], results := [⟨2⟩], resultTypes := [.qubit],
      attributes := .empty, regions := [], block := some ⟨0⟩, location := ⟨⟨0⟩, 0, 0⟩,
      erased := false },
    { kind := .ret, operands := [], results := [], resultTypes := [],
      attributes := .empty, regions := [], block := some ⟨0⟩, location := ⟨⟨0⟩, 0, 0⟩,
      erased := false },
    { kind := .func, operands := [], results := [], resultTypes := [],
      attributes := .insert .empty "sym_name" (.text "f"), regions := [⟨0⟩], block := none,
      location := ⟨⟨0⟩, 0, 0⟩, erased := false }]
  values := #[⟨.argument ⟨0⟩ 0, .qubit⟩, ⟨.result ⟨0⟩ 0, .qubit⟩, ⟨.result ⟨1⟩ 0, .qubit⟩]
  blocks := #[⟨[⟨0⟩], [.qubit], [⟨0⟩, ⟨1⟩, ⟨2⟩], some ⟨0⟩, ⟨⟨0⟩, 0, 0⟩⟩]
  regions := #[⟨[⟨0⟩], some ⟨3⟩⟩]
  useLists := ⟨#[[⟨⟨0⟩, 0⟩], [⟨⟨1⟩, 0⟩]]⟩
  paths := ⟨#["<unknown>"], ⟨[("<unknown>", ⟨0⟩)]⟩⟩

theorem newFunc_dangling :
    Graph.empty.newFunc "f" [.qubit] danglingBody = .ok (⟨3⟩, danglingGraph) := by
  decide +kernel

theorem mem_ops {g : Graph} {o : OpId} {d : Op} (h : g.op o = .ok d) : d ∈ g.ops.toList :=
  Array.mem_toList_iff.2 (Array.mem_of_getElem? (slot_eq_ok.1 (slot_of_op h)))

theorem unread_of_ops {g : Graph} {v : ValueId}
    (h : ∀ d ∈ g.ops.toList, d.erased = false → v ∉ d.operands) : g.Unread v := by
  intro u hu
  obtain ⟨d, hd, hi⟩ := held?_eq_some.1 hu
  exact h d (mem_ops hd) (op_eq_ok.1 hd).2 (List.mem_of_getElem? hi)

theorem danglingGraph_function : danglingGraph.Function ⟨3⟩ where
  built := by
    refine .move .empty (.newFunc (fun args => ?_) newFunc_dangling)
    exact .bind (.single _) fun a => .bind (.single _) fun b => .bind (.op _) fun _ => .pure ()
  existing {o d v} hd hv := by
    have hbound : ∀ d ∈ danglingGraph.ops.toList, ∀ v ∈ d.operands,
        v.index < danglingGraph.values.size := by
      decide
    exact value_of_index_lt (hbound d (mem_ops hd) v hv)
  top := ⟨_, rfl, rfl, rfl⟩
  shaped := by
    refine ⟨[⟨3⟩, ⟨0⟩, ⟨1⟩, ⟨2⟩], by decide +kernel, ?_⟩
    simp only [List.forall_mem_cons, List.not_mem_nil, false_imp_iff, implies_true, and_true]
    exact ⟨⟨_, rfl, Draft.Standard.func _ _ _⟩,
      ⟨_, rfl, @Draft.Standard.gate _ .hadamard ⟨0⟩ _ rfl⟩,
      ⟨_, rfl, @Draft.Standard.gate _ .hadamard ⟨1⟩ _ rfl⟩, ⟨_, rfl, Draft.Standard.ret _ _⟩⟩
  checked := by
    refine ⟨⟨[], []⟩, by decide +kernel, rfl⟩

theorem danglingGraph_linear : danglingGraph.Linear ⟨3⟩ := by
  have huses : ∀ i < danglingGraph.values.size, danglingGraph.useCount ⟨i⟩ ≤ 1 := by
    decide +kernel
  intro v x _ hx _
  exact huses v.index (index_lt_of_value hx)

theorem danglingGraph_wellTyped : danglingGraph.WellTyped ⟨3⟩ := by
  intro o f v _ hf
  obtain ⟨d, hd, hdf, -⟩ := hf
  have hmem := mem_ops hd
  simp only [danglingGraph, List.mem_cons, List.not_mem_nil, or_false] at hmem
  rcases hmem with rfl | rfl | rfl | rfl
  · cases hdf
    exact ⟨_, rfl, rfl⟩
  · cases hdf
    exact ⟨_, rfl, rfl⟩
  · cases hdf
  · cases hdf

theorem danglingGraph_residue :
    danglingGraph.Residue signs (fun _ => default) ⟨3⟩ {(⟨0⟩, 1)} := by
  refine ⟨{⟨2⟩}, ?_, ?_⟩
  · intro v
    rw [Finset.mem_singleton]
    constructor
    · rintro rfl
      have hinside : danglingGraph.Inside ⟨3⟩ ⟨1⟩ := ⟨0, .step rfl .root⟩
      exact ⟨.result hinside rfl (.head _), ⟨_, rfl, rfl⟩, unread_of_ops (by decide)⟩
    · intro hv
      obtain ⟨x, hx, -⟩ := hv.qubit
      obtain ⟨i⟩ := v
      match i, index_lt_of_value hx with
      | 0, _ => exact absurd rfl (hv.unread ⟨⟨0⟩, 0⟩)
      | 1, _ => exact absurd rfl (hv.unread ⟨⟨1⟩, 0⟩)
      | 2, _ => rfl
  · have hargument : Means signs (fun _ => default) danglingGraph ⟨0⟩ ⟨.value ⟨0⟩, 1⟩ :=
      .other rfl
    have hfirst : Means signs (fun _ => default) danglingGraph ⟨1⟩ ⟨.value ⟨0⟩, -1⟩ :=
      .gate (k := .hadamard) rfl hargument
    have hsecond : Denotes signs (fun _ => default) danglingGraph ⟨2⟩ (⟨0⟩, 1) :=
      .gate (k := .hadamard) rfl hfirst
    exact .cons hsecond .zero

end Graph

/-- Two Hadamard gates on a qubit leave it loose in place of what they made of it. -/
theorem Pass.run_keeps_residue_dangling : danglingGraph.Function ⟨3⟩ ∧
    danglingGraph.Linear ⟨3⟩ ∧ danglingGraph.WellTyped ⟨3⟩ ∧
    ∃ result g', Pass.run ⟨{}, .same⟩ danglingGraph ⟨3⟩ = .ok (result, g') ∧ g'.Linear ⟨3⟩ ∧
      g'.Residue signs (fun _ => default) ⟨3⟩ {(⟨0⟩, 1)} := by
  obtain ⟨result, g', hrun, hlinear, hresidue⟩ := Pass.run_keeps_residue signs (fun _ => default) {}
    danglingGraph_function danglingGraph_linear
  obtain ⟨ms, hbefore, hafter⟩ := hresidue danglingGraph_wellTyped
  have hms := (hbefore _).1 danglingGraph_residue
  exact ⟨danglingGraph_function, danglingGraph_linear, danglingGraph_wellTyped, result, g', hrun,
    hlinear, (hafter _).2 hms⟩

namespace Graph

/-- A sum of the two qubits that a function is given.  Nobody reads it. -/
def strayBody (args : List ValueId) : BuildM Unit := do
  let _ ← BuildM.add (args.headD default) (args.getD 1 default)
  let _ ← BuildM.ret []

/-- The function that `strayBody` is the body of. -/
def strayGraph : Graph where
  ops := #[
    { kind := .add, operands := [⟨0⟩, ⟨1⟩], results := [⟨2⟩], resultTypes := [.number],
      attributes := .empty, regions := [], block := some ⟨0⟩, location := ⟨⟨0⟩, 0, 0⟩,
      erased := false },
    { kind := .ret, operands := [], results := [], resultTypes := [],
      attributes := .empty, regions := [], block := some ⟨0⟩, location := ⟨⟨0⟩, 0, 0⟩,
      erased := false },
    { kind := .func, operands := [], results := [], resultTypes := [],
      attributes := .insert .empty "sym_name" (.text "f"), regions := [⟨0⟩], block := none,
      location := ⟨⟨0⟩, 0, 0⟩, erased := false }]
  values := #[⟨.argument ⟨0⟩ 0, .qubit⟩, ⟨.argument ⟨0⟩ 1, .qubit⟩, ⟨.result ⟨0⟩ 0, .number⟩]
  blocks := #[⟨[⟨0⟩, ⟨1⟩], [.qubit, .qubit], [⟨0⟩, ⟨1⟩], some ⟨0⟩, ⟨⟨0⟩, 0, 0⟩⟩]
  regions := #[⟨[⟨0⟩], some ⟨2⟩⟩]
  useLists := ⟨#[[⟨⟨0⟩, 0⟩], [⟨⟨0⟩, 1⟩]]⟩
  paths := ⟨#["<unknown>"], ⟨[("<unknown>", ⟨0⟩)]⟩⟩

/-- The function without the sum. -/
def strayLeft : Graph :=
  { strayGraph with
    ops := strayGraph.ops.modify 0 fun d => { d with block := none, erased := true }
    blocks := strayGraph.blocks.modify 0 fun B => { B with ops := [⟨1⟩] }
    useLists := ⟨#[[], []]⟩ }

theorem newFunc_stray :
    Graph.empty.newFunc "f" [.qubit, .qubit] strayBody = .ok (⟨2⟩, strayGraph) := by
  decide +kernel

theorem strayGraph_function : strayGraph.Function ⟨2⟩ where
  built := by
    refine .move .empty (.newFunc (fun args => ?_) newFunc_stray)
    exact .bind (.single _) fun a => .bind (.op _) fun _ => .pure ()
  existing {o d v} hd hv := by
    have hbound : ∀ d ∈ strayGraph.ops.toList, ∀ v ∈ d.operands,
        v.index < strayGraph.values.size := by
      decide
    exact value_of_index_lt (hbound d (mem_ops hd) v hv)
  top := ⟨_, rfl, rfl, rfl⟩
  shaped := by
    refine ⟨[⟨2⟩, ⟨0⟩, ⟨1⟩], by decide +kernel, ?_⟩
    simp only [List.forall_mem_cons, List.not_mem_nil, false_imp_iff, implies_true, and_true]
    exact ⟨⟨_, rfl, Draft.Standard.func _ _ _⟩, ⟨_, rfl, Draft.Standard.add _ _ _⟩,
      ⟨_, rfl, Draft.Standard.ret _ _⟩⟩
  checked := by
    refine ⟨⟨[], []⟩, by decide +kernel, rfl⟩

theorem strayGraph_linear : strayGraph.Linear ⟨2⟩ := by
  have huses : ∀ i < strayGraph.values.size, strayGraph.useCount ⟨i⟩ ≤ 1 := by decide +kernel
  intro v x _ hx _
  exact huses v.index (index_lt_of_value hx)

theorem strayGraph_residue : strayGraph.Residue signs (fun _ => default) ⟨2⟩ 0 := by
  refine ⟨∅, fun v => ⟨nofun, fun hv => ?_⟩, .zero⟩
  obtain ⟨x, hx, hq⟩ := hv.qubit
  obtain ⟨i⟩ := v
  match i, index_lt_of_value hx with
  | 0, _ => exact absurd rfl (hv.unread ⟨⟨0⟩, 0⟩)
  | 1, _ => exact absurd rfl (hv.unread ⟨⟨0⟩, 1⟩)
  | 2, _ =>
    cases hx
    cases hq

theorem strayLeft_residue :
    strayLeft.Residue signs (fun _ => default) ⟨2⟩ {(⟨0⟩, 1), (⟨1⟩, 1)} := by
  refine ⟨{⟨0⟩, ⟨1⟩}, fun v => ?_, .cons ?_ (.cons ?_ .zero)⟩
  · rw [Finset.mem_insert, Finset.mem_singleton]
    constructor
    · have hbelongs : ∀ v ∈ [⟨0⟩, ⟨1⟩], strayLeft.Belongs ⟨2⟩ v := fun v hv =>
        .argument (r := ⟨0⟩) (b := ⟨0⟩) .root rfl rfl rfl rfl hv
      rintro (rfl | rfl)
      · exact ⟨hbelongs _ (.head _), ⟨_, rfl, rfl⟩, unread_of_ops (by decide)⟩
      · exact ⟨hbelongs _ (.tail _ (.head _)), ⟨_, rfl, rfl⟩, unread_of_ops (by decide)⟩
    · intro hv
      obtain ⟨x, hx, hq⟩ := hv.qubit
      obtain ⟨i⟩ := v
      match i, index_lt_of_value hx with
      | 0, _ => exact .inl rfl
      | 1, _ => exact .inr rfl
      | 2, _ =>
        cases hx
        cases hq
  · exact Means.other rfl
  · exact Means.other rfl

end Graph

/-- The sum of two qubits goes when nobody reads it, and they are loose then. -/
theorem Pass.run_stray : strayGraph.Function ⟨2⟩ ∧ strayGraph.Linear ⟨2⟩ ∧
    strayGraph.Residue signs (fun _ => default) ⟨2⟩ 0 ∧
    ∃ summary g', Pass.run ⟨{}, .same⟩ strayGraph ⟨2⟩ = .ok (.ok summary, g') ∧
      g'.Residue signs (fun _ => default) ⟨2⟩ {(⟨0⟩, 1), (⟨1⟩, 1)} ∧
      ¬g'.Residue signs (fun _ => default) ⟨2⟩ 0 := by
  have hsweeps : (sweepWithin {} (Pass.rules {}) ⟨2⟩ 3 (.start strayGraph)).bind (fun r =>
      (sweepWithin {} (Pass.rules {}) ⟨2⟩ 2 r.2).map fun r' =>
        (r.1, r.2.reductions, r'.1, r'.2.reductions, r'.2.graph)) =
      some (.finished, 1, .finished, 1, strayLeft) := by
    decide +kernel
  obtain ⟨⟨e, q⟩, hfirst, hrest⟩ := Option.bind_eq_some_iff.1 hsweeps
  obtain ⟨⟨e', q'⟩, hsecond, heq⟩ := Option.map_eq_some_iff.1 hrest
  simp only [Prod.mk.injEq] at heq
  obtain ⟨rfl, hq, rfl, hq', hgraph⟩ := heq
  have hrun : strayGraph.simplify ⟨2⟩ (Pass.rules {}) {} = .ok ⟨.ok ⟨.converged, 2, 1⟩, q'⟩ := by
    rw [simplify, sweepUpTo_succ 9 0 (sweep_of_sweepWithin hfirst)]
    simp [hq, hq', Progress.start, sweepUpTo_succ 8 1 (sweep_of_sweepWithin hsecond)]
  have hvisited : Progress.Visited {} (Pass.rules {}) ⟨2⟩ strayGraph q' := .simplify hrun
  have hrules := Pass.rules_regular {} ⟨2⟩
  have hsound := hvisited.sound hrules.reduces hrules.clean.programs strayGraph_function.valid
  refine ⟨strayGraph_function, strayGraph_linear, strayGraph_residue, _, _,
    run_of_converged hrun hsound.valid, ?_⟩
  rw [hgraph]
  refine ⟨strayLeft_residue, fun hzero => ?_⟩
  have hcard := congrArg Multiset.card (hzero.unique strayLeft_residue)
  simp at hcard

end Peephole
