import Peephole.Proofs.Confinement
import Peephole.Proofs.UseLists

/-!
# False alarms

The check of use lists compares the whole list of a value with the slots of one tree.  In a
graph built without presets the lists are right, and yet the check has findings: a value that is
read or made in the tree may be read outside it too.  The reader outside is reported as if it had
no such operand.

`Reachable.validateUses_alarms` says what the findings are.  Each of them is about a value that
somebody outside the tree reads, and there is none just if nobody does.
-/

namespace Peephole.Graph

variable {g : Graph} {root : OpId} {d : Op} {v : ValueId} {tree : List OpId}

/-- The uses of a value by operations that are not in the tree. -/
def usesBeyond (g : Graph) (tree : List OpId) (v : ValueId) : List Use :=
  (g.uses v).filter fun u => u.user ∉ tree

theorem Coherent.mem_usesBeyond (hg : g.Coherent) {u : Use} :
    u ∈ g.usesBeyond tree v ↔ g.held? u = some v ∧ u.user ∉ tree := by
  simp [usesBeyond, hg.mem_uses]

/-- A value has as many uses as there are slots in the tree that hold it just if nobody else uses
it. -/
theorem Coherent.length_eq_iff (hg : g.Coherent) (htree : tree.Nodup) :
    (g.uses v).length = (g.slotsIn tree v).length ↔ g.usesBeyond tree v = [] := by
  have hwithin : ((g.uses v).filter fun u => u.user ∈ tree).Perm (g.slotsIn tree v) := by
    rw [List.perm_ext_iff_of_nodup ((hg.nodup_uses v).filter _) (nodup_slotsIn htree v)]
    intro u
    rw [mem_slotsIn, List.mem_filter, hg.mem_uses, decide_eq_true_iff, And.comm]
  have hsum := List.length_eq_length_filter_add (l := g.uses v) fun u => decide (u.user ∈ tree)
  have hbeyond : (g.uses v).filter (fun u => !decide (u.user ∈ tree)) = g.usesBeyond tree v := by
    simp [usesBeyond]
  rw [hwithin.length_eq, hbeyond] at hsum
  rw [← List.length_eq_zero_iff]
  omega

/-- What the check of a value finds where use lists are right: each use from outside the tree,
and if there is one, that the numbers differ. -/
theorem Coherent.checkUses_eq (hg : g.Coherent) (htree : tree.Nodup)
    {slots : List (ValueId × Use)} (hslots : (slotsHolding slots v).Perm (g.slotsIn tree v)) :
    g.checkUses slots v = .ok ((g.usesBeyond tree v).map (.unfounded v) ++
      if g.usesBeyond tree v = [] then []
      else [.miscounted v (g.useCount v) (g.slotsIn tree v).length]) := by
  have hmem : ∀ u, u ∈ slotsHolding slots v ↔ u ∈ g.uses v ∧ u.user ∈ tree := by
    intro u
    rw [hslots.mem_iff, mem_slotsIn, hg.mem_uses, And.comm]
  have hnone : ((slotsHolding slots v).eraseDups.filter fun u => !(g.uses v).contains u) = [] := by
    refine List.filter_eq_nil_iff.2 fun u hu => ?_
    have huse := ((hmem u).1 (List.mem_eraseDups.1 hu)).1
    simpa using huse
  have hwrong : (g.uses v).filterMapM (g.checkUse v (slotsHolding slots v)) =
      .ok ((g.usesBeyond tree v).map (.unfounded v)) := by
    rw [usesBeyond, ← List.filterMap_eq_map, List.filterMap_filter]
    refine filterMapM_eq_ok fun u hu => ?_
    obtain ⟨x, hx, -⟩ := held?_eq_some.1 (hg.mem_uses.1 hu)
    by_cases hin : u.user ∈ tree
    · simp [checkUse, isLive_of_op hx, hin, (hmem u).2 ⟨hu, hin⟩]
    · have hout : u ∉ slotsHolding slots v := fun h => hin ((hmem u).1 h).2
      simp [checkUse, isLive_of_op hx, hin, hout]
  rw [checkUses, hnone, List.mapM_nil, pure_eq_ok, ok_bind, hwrong, ok_bind, hslots.length_eq,
    List.nil_append]
  simp only [hg.length_eq_iff htree]
  rfl

/-- Each finding about a value comes with a use from outside the tree. -/
theorem mem_alarms {e count : UseError} :
    e ∈ (g.usesBeyond tree v).map (.unfounded v) ++
        (if g.usesBeyond tree v = [] then [] else [count]) ↔
      ∃ u ∈ g.usesBeyond tree v, e = .unfounded v u ∨ e = count := by
  rw [List.mem_append, List.mem_map]
  constructor
  · rintro (⟨u, hu, rfl⟩ | he)
    · exact ⟨u, hu, .inl rfl⟩
    · split at he
      · cases he
      · rename_i hne
        obtain ⟨u, hu⟩ := List.exists_mem_of_ne_nil _ hne
        exact ⟨u, hu, .inr (List.mem_singleton.1 he)⟩
  · rintro ⟨u, hu, rfl | rfl⟩
    · exact .inl ⟨u, hu, rfl⟩
    · rw [if_neg (List.ne_nil_of_mem hu)]
      exact .inr (.head _)

/-- The second check looks at the values of the tree, and compares them with its slots. -/
theorem Housed.useErrors_touched (hg : g.Housed) (hd : g.op root = .ok d)
    (hroot : g.Anchored root) :
    ∃ tree slots, ∃ values : List ValueId, g.opTree root = .ok tree ∧ tree.Nodup ∧
      (∀ o, o ∈ tree ↔ o = root ∨ g.Inside root o) ∧
      g.useErrors root = (values.mapM (g.checkUses slots)).map List.flatten ∧
      (∀ v, (slotsHolding slots v).Perm (g.slotsIn tree v)) ∧
      ∀ v, v ∈ values ↔ g.Touches root v := by
  obtain ⟨nested, -, htree, hnodup, hmem⟩ := hg.walk_ok hd hroot.not_inside
  have hin : ∀ o, o ∈ root :: nested ↔ o = root ∨ g.Inside root o := by
    intro o
    rw [List.mem_cons, hmem]
  have hlive : ∀ o ∈ root :: nested, ∃ x, g.op o = .ok x := by
    intro o ho
    rcases (hin o).1 ho with rfl | ho
    · exact ⟨d, hd⟩
    · exact ho.live
  have hlook : ∀ o ∈ root :: nested, ∃ x vs, g.op o = .ok x ∧ g.valuesOf x = .ok vs := by
    intro o ho
    obtain ⟨x, hx⟩ := hlive o ho
    obtain ⟨vs, hvs, -⟩ := valuesOf_ok hg hx
    exact ⟨x, vs, hx, hvs⟩
  obtain ⟨slots, values, heq, hslots, hvalues⟩ := useErrors_eq htree hnodup hlook
  refine ⟨root :: nested, slots, values, htree, hnodup, hin, heq, fun v => ?_, fun v => ?_⟩
  · exact (List.perm_ext_iff_of_nodup (hslots v).1 (nodup_slotsIn hnodup v)).2 (hslots v).2
  · rw [hvalues, touches_iff hd]
    constructor
    · rintro ⟨o, ho, x, vs, hx, hvs, hv⟩
      obtain ⟨vs', hvs', hlisted⟩ := valuesOf_ok hg hx
      rw [hvs] at hvs'
      cases hvs'
      exact ⟨o, x, (hin o).1 ho, hx, (hlisted v).1 hv⟩
    · rintro ⟨o, x, ho, hx, hv⟩
      obtain ⟨vs, hvs, hlisted⟩ := valuesOf_ok hg hx
      exact ⟨o, (hin o).2 ho, x, vs, hx, hvs, (hlisted v).2 hv⟩

/-- In a graph built without presets, and under a live root whose chain of owners ends, each
finding of the second check is about a value of the tree that somebody outside reads: it reports
a slot outside that does hold the value, or that the value has uses outside.  Nothing is found
just if nobody outside reads a value of the tree. -/
theorem Reachable.validateUses_alarms (h : g.Reachable false) (hd : g.op root = .ok d)
    (hroot : g.Anchored root) :
    ∃ tree report, g.opTree root = .ok tree ∧ g.validateUses root = .ok report ∧
      report.unavailable = [] ∧
      (∀ e, e ∈ report.useErrors ↔ ∃ v u, g.Touches root v ∧ g.held? u = some v ∧
        ¬(u.user = root ∨ g.Inside root u.user) ∧
        (e = .unfounded v u ∨ e = .miscounted v (g.useCount v) (g.slotsIn tree v).length)) ∧
      (report.isOk = true ↔ ∀ v u, g.Touches root v → g.held? u = some v →
        u.user = root ∨ g.Inside root u.user) := by
  have hg := h.coherent
  obtain ⟨tree, slots, values, htree, hnodup, hin, heq, hslots, hvalues⟩ :=
    h.linked.housed.useErrors_touched hd hroot
  have hchecks : ∀ v ∈ values, ∃ found, g.checkUses slots v = .ok found ∧ found.map id =
      (g.usesBeyond tree v).map (.unfounded v) ++ if g.usesBeyond tree v = [] then []
        else [.miscounted v (g.useCount v) (g.slotsIn tree v).length] :=
    fun v _ => ⟨_, hg.checkUses_eq hnodup (hslots v), List.map_id _⟩
  obtain ⟨all, hall, hfound⟩ := mapM_flatten hchecks
  rw [List.map_id] at hfound
  have hmem : ∀ e, e ∈ all.flatten ↔ ∃ v u, g.Touches root v ∧ g.held? u = some v ∧
      ¬(u.user = root ∨ g.Inside root u.user) ∧
      (e = .unfounded v u ∨ e = .miscounted v (g.useCount v) (g.slotsIn tree v).length) := by
    intro e
    rw [hfound, List.mem_flatMap]
    simp only [hvalues, mem_alarms, hg.mem_usesBeyond, hin]
    constructor
    · rintro ⟨v, hv, u, ⟨hheld, hout⟩, he⟩
      exact ⟨v, u, hv, hheld, hout, he⟩
    · rintro ⟨v, u, hv, hheld, hout, he⟩
      exact ⟨v, hv, u, ⟨hheld, hout⟩, he⟩
  refine ⟨tree, ⟨[], all.flatten⟩, htree, by simp [validateUses, heq, hall], rfl, hmem, ?_⟩
  rw [Report.isOk_iff, and_iff_right rfl, List.eq_nil_iff_forall_not_mem]
  simp only [hmem]
  constructor
  · intro hnone v u hv hheld
    by_contra hout
    exact hnone _ ⟨v, u, hv, hheld, hout, .inl rfl⟩
  · rintro hall e ⟨v, u, hv, hheld, hout, -⟩
    exact hout (hall v u hv hheld)

/-- The argument of the function is read in the first branch and also before it, and the check of
that branch reports the reader outside, which does read it. -/
theorem validateUses_alarms_branch : branchesGraph.held? ⟨⟨2⟩, 0⟩ = some ⟨0⟩ ∧
    ∃ report, branchesGraph.validateUses ⟨6⟩ = .ok report ∧
      .unfounded ⟨0⟩ ⟨⟨2⟩, 0⟩ ∈ report.useErrors := by
  have howner : branchesGraph.ownerOf? ⟨6⟩ = .ok (some ⟨11⟩) := by decide +kernel
  have hops : branchesGraph.nestedOps ⟨6⟩ = .ok [⟨3⟩, ⟨4⟩, ⟨5⟩] := by decide +kernel
  have hinside : ∀ o, branchesGraph.Inside ⟨6⟩ o ↔ o ∈ ([⟨3⟩, ⟨4⟩, ⟨5⟩] : List OpId) :=
    fun o => branchesGraph_inside howner hops
  have hanchored : branchesGraph.Anchored ⟨6⟩ :=
    (Anchored.of_no_owner (by decide +kernel)).within (branchesGraph_within howner)
  obtain ⟨tree, report, -, hreport, -, hmem, -⟩ :=
    @branchesGraph_function.built.validateUses_alarms _ ⟨6⟩ _ rfl hanchored
  refine ⟨rfl, report, hreport, (hmem _).2 ⟨⟨0⟩, ⟨⟨2⟩, 0⟩, ?_, rfl, ?_, .inl rfl⟩⟩
  · exact .inl ⟨⟨3⟩, _, .inr ((hinside _).2 (by decide)), rfl, .inl (by decide)⟩
  · rw [hinside]
    decide

/-- The check of a branch in a valid function has findings.  The argument of the function, the
condition and the result of the branch are said to have a reader with no such operand, and the
readers have it. -/
theorem validateUses_branch : branchesGraph.Function ⟨11⟩ ∧
    Within branchesGraph ⟨11⟩ 1 ⟨6⟩ ∧
    (branchesGraph.validateUses ⟨6⟩).map Report.useErrors =
      .ok [.unfounded ⟨3⟩ ⟨⟨9⟩, 0⟩, .miscounted ⟨3⟩ 2 1, .unfounded ⟨6⟩ ⟨⟨10⟩, 0⟩,
        .miscounted ⟨6⟩ 1 0, .unfounded ⟨0⟩ ⟨⟨2⟩, 0⟩, .miscounted ⟨0⟩ 2 1] ∧
    branchesGraph.held? ⟨⟨9⟩, 0⟩ = some ⟨3⟩ ∧ branchesGraph.held? ⟨⟨10⟩, 0⟩ = some ⟨6⟩ ∧
    branchesGraph.held? ⟨⟨2⟩, 0⟩ = some ⟨0⟩ :=
  ⟨branchesGraph_function, branchesGraph_within (by decide +kernel), by decide +kernel, rfl, rfl,
    rfl⟩

end Peephole.Graph
