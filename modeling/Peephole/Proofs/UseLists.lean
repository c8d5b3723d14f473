import Peephole.Proofs.Surroundings
import Peephole.Proofs.Ancestry

/-!
# The check of use lists

The second check compares use lists with slots.  It looks at the values that the root and what
is nested in it read or make, and at the arguments of the blocks in it (`Graph.Touches`).

`Housed.validateUses_decides` says what it finds in a graph whose use lists may be anything at
all, as long as they name operations that have entries.  It finds nothing just if the use list
of each of these values names the slots in the tree that hold the value, each of them once.
-/

namespace Peephole.Graph

variable {g : Graph} {root : OpId} {d : Op}

/-- The root or an operation nested in it reads or makes the value, or the value is an argument
of a block in it. -/
def Touches (g : Graph) (root : OpId) (v : ValueId) : Prop :=
  (∃ o x, (o = root ∨ g.Inside root o) ∧ g.op o = .ok x ∧ (v ∈ x.operands ∨ v ∈ x.results)) ∨
    ∃ b B, g.Encloses root b ∧ g.block b = .ok B ∧ v ∈ B.args

/-- The values that the check looks at are those that concern an operation of the tree. -/
theorem touches_iff (hd : g.op root = .ok d) {v : ValueId} : g.Touches root v ↔
    ∃ o x, (o = root ∨ g.Inside root o) ∧ g.op o = .ok x ∧ g.Concerns o x v := by
  constructor
  · rintro (⟨o, x, ho, hx, hv | hv⟩ | ⟨b, B, ⟨n, p, r, R, B', hn, hR, howner, hB', hr⟩, hB, hv⟩)
    · exact ⟨o, x, ho, hx, .inl hv⟩
    · exact ⟨o, x, ho, hx, .inr (.inl hv)⟩
    · rw [hB] at hB'
      cases hB'
      obtain ⟨x, hx⟩ := hn.live hd
      exact ⟨p, x, hn.eq_or_inside, hx, .inr (.inr ⟨r, R, b, B, hR, howner, hB, hr, hv⟩)⟩
  · rintro ⟨o, x, ho, hx, hv | hv | ⟨r, R, b, B, hR, howner, hB, hr, hv⟩⟩
    · exact .inl ⟨o, x, ho, hx, .inl hv⟩
    · exact .inl ⟨o, x, ho, hx, .inr hv⟩
    · refine .inr ⟨b, B, ?_, hB, hv⟩
      rcases ho with rfl | ⟨n, hn⟩
      · exact ⟨0, o, r, R, B, .root, hR, howner, hB, hr⟩
      · exact ⟨n + 1, o, r, R, B, hn, hR, howner, hB, hr⟩

/-- Under a live root whose chain of owners ends, the second check finds nothing just if the
use lists of the values it looks at are permutations of the slots that hold them. -/
theorem Housed.validateUses_decides (hg : g.Housed) (hd : g.op root = .ok d)
    (hroot : g.Anchored root) (husers : ∀ v, ∀ u ∈ g.uses v, ∃ x, g.slot u.user = .ok x) :
    ∃ tree report, g.opTree root = .ok tree ∧ tree.Nodup ∧
      (∀ o, o ∈ tree ↔ o = root ∨ g.Inside root o) ∧
      g.validateUses root = .ok report ∧ report.unavailable = [] ∧
      (report.isOk = true ↔ ∀ v, g.Touches root v → (g.uses v).Perm (g.slotsIn tree v)) := by
  obtain ⟨nested, -, htree, hnodup, hmem⟩ := hg.walk_ok hd hroot.not_inside
  have hin : ∀ o, o ∈ root :: nested ↔ o = root ∨ g.Inside root o := by
    intro o
    rw [List.mem_cons, hmem]
  have hlook : ∀ o ∈ root :: nested, ∃ x vs, g.op o = .ok x ∧ g.valuesOf x = .ok vs := by
    intro o ho
    have hlive : ∃ x, g.op o = .ok x := by
      rcases (hin o).1 ho with rfl | ho
      · exact ⟨d, hd⟩
      · exact ho.live
    obtain ⟨x, hx⟩ := hlive
    obtain ⟨vs, hvs, -⟩ := valuesOf_ok hg hx
    exact ⟨x, vs, hx, hvs⟩
  obtain ⟨errors, herrors, hiff⟩ := useErrors_perm htree hnodup hlook husers
  refine ⟨root :: nested, ⟨[], errors⟩, htree, hnodup, hin, by simp [validateUses, herrors], rfl,
    ?_⟩
  rw [Report.isOk_iff, hiff]
  simp only [touches_iff hd, true_and]
  constructor
  · rintro hall v ⟨o, x, ho, hx, hv⟩
    obtain ⟨vs, hvs, hlisted⟩ := valuesOf_ok hg hx
    exact hall o ((hin o).2 ho) x vs hx hvs v ((hlisted v).2 hv)
  · intro hall o ho x vs hx hvs v hv
    obtain ⟨vs', hvs', hlisted⟩ := valuesOf_ok hg hx
    rw [hvs] at hvs'
    cases hvs'
    exact hall v ⟨o, x, (hin o).1 ho, hx, (hlisted v).1 hv⟩

/-- The function `pairGraph` with a use list that names its only slot twice. -/
def frayedGraph : Graph :=
  { pairGraph with useLists := ⟨#[[⟨⟨0⟩, 0⟩], [⟨⟨1⟩, 0⟩, ⟨⟨1⟩, 0⟩], [⟨⟨2⟩, 0⟩]]⟩ }

/-- The doubled entry is found. -/
theorem validateUses_decides_frayed : ∃ report, frayedGraph.validateUses ⟨3⟩ = .ok report ∧
    report.isOk = false ∧ frayedGraph.Touches ⟨3⟩ ⟨1⟩ := by
  have hpair := pairGraph_function.built.linked.housed
  have hhoused : frayedGraph.Housed := ⟨hpair.placed, hpair.parted, hpair.owned, hpair.nodupOps,
    hpair.nodupBlocks, hpair.nodupRegions⟩
  have hbound : ∀ us ∈ frayedGraph.useLists.entries.toList, ∀ u ∈ us,
      u.user.index < frayedGraph.ops.size := by
    decide
  have husers : ∀ v, ∀ u ∈ frayedGraph.uses v, ∃ x, frayedGraph.slot u.user = .ok x := by
    intro v u hu
    cases hus : frayedGraph.useLists.entries[v.index]? with
    | none =>
      rw [uses, SideTable.get, hus] at hu
      cases hu
    | some us =>
      have hu : u ∈ us := by simpa [uses, SideTable.get, hus] using hu
      have hlt := hbound us (Array.mem_toList_iff.2 (Array.mem_of_getElem? hus)) u hu
      exact ⟨_, slot_eq_ok.2 (Array.getElem?_eq_getElem hlt)⟩
  have htouches : frayedGraph.Touches ⟨3⟩ ⟨1⟩ :=
    .inl ⟨⟨0⟩, _, .inr ⟨0, .step (by decide +kernel) .root⟩, rfl, .inr (by decide)⟩
  obtain ⟨tree, report, htree, -, -, hreport, -, hiff⟩ :=
    @hhoused.validateUses_decides _ ⟨3⟩ _ rfl (.of_no_owner (by decide +kernel)) husers
  have hwalk : frayedGraph.opTree ⟨3⟩ = .ok [⟨3⟩, ⟨0⟩, ⟨1⟩, ⟨2⟩] := by decide +kernel
  cases htree.symm.trans hwalk
  refine ⟨report, hreport, ?_, htouches⟩
  rw [← Bool.not_eq_true, hiff]
  intro hall
  exact absurd (hall _ htouches) (by decide +kernel)

end Peephole.Graph
