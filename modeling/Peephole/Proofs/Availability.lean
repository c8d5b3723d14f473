import Peephole.Proofs.History
import Peephole.Proofs.Validity

/-!
# Lexical scoping

`Graph.Available g v o` says where a value may be read: around the operation `o`, or at `o`
itself, stands an operation in a block that has the value as an argument or in which a live
operation further up makes it.  This is what `Visible` says one level at a time.

In a graph built without presets the search `inScope` answers this question wherever the chain
of owners ends (`Graph.Topped`), and the first check finds just the slots whose values are not
available, in the order of a walk.
-/

namespace Peephole.Graph

variable {g : Graph} {v : ValueId} {root o : OpId}

/-- The operation `c`, which is `o` or around it, is in a block that has the value as an
argument, or in which a live operation before `c` makes it. -/
def Available (g : Graph) (v : ValueId) (o : OpId) : Prop :=
  ∃ c n b B, Within g c n o ∧ g.block b = .ok B ∧ c ∈ B.ops ∧
    (v ∈ B.args ∨ ∃ p x, g.op p = .ok x ∧ v ∈ x.results ∧ [p, c].Sublist B.ops)

theorem Visible.available (h : g.Visible v o) : g.Available v o := by
  induction h with
  | @argument o b B hB ho hv => exact ⟨o, 0, b, B, .root, hB, ho, .inl hv⟩
  | @earlier o p x hpo hx hv =>
    obtain ⟨b, B, hB, hbefore⟩ := hpo
    have ho : o ∈ B.ops := hbefore.subset (.tail p (.head []))
    exact ⟨o, 0, b, B, .root, hB, ho, .inr ⟨p, x, hx, hv, hbefore⟩⟩
  | outer howner _ ih =>
    obtain ⟨c, n, b, B, hn, hB⟩ := ih
    exact ⟨c, n + 1, b, B, .step howner hn, hB⟩

theorem Available.visible (h : g.Available v o) : g.Visible v o := by
  obtain ⟨c, n, b, B, hn, hB, hc, hv⟩ := h
  induction hn with
  | root =>
    rcases hv with hv | ⟨p, x, hx, hv, hbefore⟩
    · exact .argument hB hc hv
    · exact .earlier ⟨b, B, hB, hbefore⟩ hx hv
  | step howner _ ih => exact .outer howner ih

theorem visible_iff_available : g.Visible v o ↔ g.Available v o :=
  ⟨Visible.available, Available.visible⟩

open Classical in
/-- Where the chain of owners ends, the search for a value that exists says whether the value
is available.  The first check lists the slots of the operations in a root whose values are
not, by the order of the walk and then by position. -/
theorem Reachable.scopes_lexical (h : g.Reachable false) :
    (∀ {v y o}, g.value v = .ok y → g.Topped o →
      ∃ answer, g.inScope v o = .ok answer ∧ (answer = true ↔ g.Available v o)) ∧
    ∀ {root d}, g.op root = .ok d → (∀ o, g.Inside root o → g.Topped o) →
      (∀ u v, g.Inside root u.user → g.held? u = some v → ∃ y, g.value v = .ok y) →
      ∃ cs n nested report, g.children root = .ok cs ∧ Forest g n cs nested ∧ nested.Nodup ∧
        (∀ o, o ∈ nested ↔ g.Inside root o) ∧
        g.validateScopes root = .ok report ∧ report.useErrors = [] ∧
        report.unavailable.map Unavailable.slot =
          (nested.flatMap g.operandSlots).filter fun u =>
            ∃ v, g.held? u = some v ∧ ¬g.Available v u.user := by
  have hg := h.linked
  simp only [← visible_iff_available]
  refine ⟨fun hy ho => hg.inScope_ok hy ho, ?_⟩
  intro root d hd htopped hexist
  -- if the root were nested in itself, its chain of owners would not end
  have hroot : ¬g.Inside root root := fun hin => (htopped root hin).not_inside hin
  obtain ⟨nested, hnested, -, hnodup, hmem⟩ := hg.housed.walk_ok hd hroot
  obtain ⟨cs, hcs, hforest⟩ := nestedOps_eq_ok.1 hnested
  obtain ⟨found, hfound, hslots⟩ := hg.unavailableOperands_ok hnested
    (fun o ho => htopped o ((hmem o).1 ho)) fun hu hheld => hexist _ _ ((hmem _).1 hu) hheld
  exact ⟨cs, _, nested, ⟨found, []⟩, hcs, hforest, (List.nodup_cons.1 hnodup).2, hmem,
    by simp [validateScopes, hfound], rfl, hslots⟩

/-! ## A value that leaves its branch -/

/-- A branch in which a sum of the second argument is made, and behind the branch a sum that
reads it from there. -/
def leakBody (args : List ValueId) : BuildM Unit := do
  let _ ← BuildM.branch (args.headD default) [] do
    let _ ← BuildM.add (args.getLastD default) (args.getLastD default)
    let _ ← BuildM.yield []
  let _ ← BuildM.add ⟨2⟩ ⟨2⟩
  let _ ← BuildM.ret []

/-- The function that `leakBody` is the body of. -/
def leakGraph : Graph where
  ops := #[
    { kind := .add, operands := [⟨1⟩, ⟨1⟩], results := [⟨2⟩], resultTypes := [.number],
      attributes := .empty, regions := [], block := some ⟨1⟩, location := ⟨⟨0⟩, 0, 0⟩,
      erased := false },
    { kind := .yield, operands := [], results := [], resultTypes := [],
      attributes := .empty, regions := [], block := some ⟨1⟩, location := ⟨⟨0⟩, 0, 0⟩,
      erased := false },
    { kind := .branch, operands := [⟨0⟩], results := [], resultTypes := [],
      attributes := .empty, regions := [⟨0⟩], block := some ⟨0⟩, location := ⟨⟨0⟩, 0, 0⟩,
      erased := false },
    { kind := .add, operands := [⟨2⟩, ⟨2⟩], results := [⟨3⟩], resultTypes := [.number],
      attributes := .empty, regions := [], block := some ⟨0⟩, location := ⟨⟨0⟩, 0, 0⟩,
      erased := false },
    { kind := .ret, operands := [], results := [], resultTypes := [],
      attributes := .empty, regions := [], block := some ⟨0⟩, location := ⟨⟨0⟩, 0, 0⟩,
      erased := false },
    { kind := .func, operands := [], results := [], resultTypes := [],
      attributes := .insert .empty "sym_name" (.text "f"), regions := [⟨1⟩], block := none,
      location := ⟨⟨0⟩, 0, 0⟩, erased := false }]
  values := #[⟨.argument ⟨0⟩ 0, .bit⟩, ⟨.argument ⟨0⟩ 1, .number⟩, ⟨.result ⟨0⟩ 0, .number⟩,
    ⟨.result ⟨3⟩ 0, .number⟩]
  blocks := #[
    ⟨[⟨0⟩, ⟨1⟩], [.bit, .number], [⟨2⟩, ⟨3⟩, ⟨4⟩], some ⟨1⟩, ⟨⟨0⟩, 0, 0⟩⟩,
    ⟨[], [], [⟨0⟩, ⟨1⟩], some ⟨0⟩, ⟨⟨0⟩, 0, 0⟩⟩]
  regions := #[⟨[⟨1⟩], some ⟨2⟩⟩, ⟨[⟨0⟩], some ⟨5⟩⟩]
  useLists := ⟨#[[⟨⟨2⟩, 0⟩], [⟨⟨0⟩, 0⟩, ⟨⟨0⟩, 1⟩], [⟨⟨3⟩, 0⟩, ⟨⟨3⟩, 1⟩]]⟩
  paths := ⟨#["<unknown>"], ⟨[("<unknown>", ⟨0⟩)]⟩⟩

theorem newFunc_leak : Graph.empty.newFunc "f" [.bit, .number] leakBody = .ok (⟨5⟩, leakGraph) := by
  decide +kernel

theorem leakGraph_built : leakGraph.Reachable false := by
  refine .move .empty (.newFunc (fun args => ?_) newFunc_leak)
  refine .bind (.branch ?_) fun _ => .bind (.single _) fun _ => .bind (.op _) fun _ => .pure ()
  exact .bind (.single _) fun _ => .bind (.op _) fun _ => .pure ()

open Classical in
/-- The argument is available in the branch, and what the branch makes is not behind it: of the
five slots, two are found. -/
theorem scopes_lexical_leak : leakGraph.Available ⟨1⟩ ⟨0⟩ ∧ ¬leakGraph.Available ⟨2⟩ ⟨3⟩ ∧
    ∃ report, leakGraph.validateScopes ⟨5⟩ = .ok report ∧
      report.unavailable.map Unavailable.slot = [⟨⟨3⟩, 0⟩, ⟨⟨3⟩, 1⟩] ∧
      [⟨⟨3⟩, 0⟩, ⟨⟨3⟩, 1⟩] = ([⟨2⟩, ⟨0⟩, ⟨1⟩, ⟨3⟩, ⟨4⟩].flatMap leakGraph.operandSlots).filter
        fun u => ∃ v, leakGraph.held? u = some v ∧ ¬leakGraph.Available v u.user := by
  obtain ⟨hsearch, hcheck⟩ := leakGraph_built.scopes_lexical
  have htopped : ∀ o, leakGraph.Inside ⟨5⟩ o → leakGraph.Topped o :=
    fun o ⟨n, hn⟩ => ⟨⟨5⟩, n + 1, hn, by decide +kernel⟩
  have hbound : ∀ d ∈ leakGraph.ops.toList, ∀ v ∈ d.operands, v.index < leakGraph.values.size := by
    decide
  have hexist : ∀ u v, leakGraph.Inside ⟨5⟩ u.user → leakGraph.held? u = some v →
      ∃ y, leakGraph.value v = .ok y := by
    intro u v _ hu
    obtain ⟨d, hd, hi⟩ := held?_eq_some.1 hu
    have hd := slot_eq_ok.1 (slot_of_op hd)
    exact value_of_index_lt (hbound d (Array.mem_toList_iff.2 (Array.mem_of_getElem? hd)) v
      (List.mem_of_getElem? hi))
  have hsum : leakGraph.Inside ⟨5⟩ ⟨0⟩ :=
    ⟨1, .step (p := ⟨2⟩) (by decide +kernel) (.step (by decide +kernel) .root)⟩
  have hreader : leakGraph.Inside ⟨5⟩ ⟨3⟩ := ⟨0, .step (by decide +kernel) .root⟩
  obtain ⟨answer, hanswer, hin⟩ := hsearch (v := ⟨1⟩) rfl (htopped _ hsum)
  obtain ⟨answer', hanswer', hout⟩ := hsearch (v := ⟨2⟩) rfl (htopped _ hreader)
  have hfound : leakGraph.inScope ⟨1⟩ ⟨0⟩ = .ok true := by decide +kernel
  have hlost : leakGraph.inScope ⟨2⟩ ⟨3⟩ = .ok false := by decide +kernel
  cases hanswer.symm.trans hfound
  cases hanswer'.symm.trans hlost
  have hnested : leakGraph.nestedOps ⟨5⟩ = .ok [⟨2⟩, ⟨0⟩, ⟨1⟩, ⟨3⟩, ⟨4⟩] := by decide +kernel
  obtain ⟨cs', hcs', hforest'⟩ := nestedOps_eq_ok.1 hnested
  obtain ⟨cs, n, nested, report, hcs, hforest, -, -, hreport, -, hslots⟩ :=
    @hcheck ⟨5⟩ _ rfl htopped hexist
  cases hcs.symm.trans hcs'
  cases hforest.unique hforest'
  have hlisted : (leakGraph.validateScopes ⟨5⟩).map (fun r => r.unavailable.map Unavailable.slot) =
      .ok [⟨⟨3⟩, 0⟩, ⟨⟨3⟩, 1⟩] := by decide +kernel
  have htwo : report.unavailable.map Unavailable.slot = [⟨⟨3⟩, 0⟩, ⟨⟨3⟩, 1⟩] := by
    simpa [hreport] using hlisted
  exact ⟨hin.1 rfl, fun h => Bool.false_ne_true (hout.2 h), report, hreport, htwo,
    htwo.symm.trans hslots⟩

end Peephole.Graph
