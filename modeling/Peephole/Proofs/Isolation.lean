import Peephole.Proofs.Construction
import Peephole.Proofs.Printing
import Peephole.Proofs.Turns

/-!
# Runs stay inside their function

A graph may hold many functions, and operations that are in none.  A run on one of them writes
nothing outside it, whatever ends the run: every state that the run goes through has all that
was outside the function at the start, in the sense of `Graph.SameOutside`.

What is printed of an operation outside the function is outside too, so its text stays the
same, letter for letter.
-/

namespace Peephole

open Peephole.Graph

namespace Graph

variable {g g' : Graph} {root o : OpId}

/-- What is listed in a block of an operation is owned by it. -/
theorem Linked.ownerOf?_of_contained {b : BlockId} {B : Block} {p : OpId} (hg : g.Linked)
    (hb : g.Contained o b) (hB : g.block b = .ok B) (hp : p ∈ B.ops) :
    g.ownerOf? p = .ok (some o) := by
  obtain ⟨d, r, R, hd, hr, hR, hmem⟩ := hb
  obtain ⟨R', hR', howner⟩ := hg.owned.2 ⟨d, slot_of_op hd, hr⟩
  rw [hR] at hR'
  cases hR'
  obtain ⟨B', hB', hBr⟩ := hg.parted.2 ⟨R, hR, hmem⟩
  rw [hB] at hB'
  cases hB'
  obtain ⟨x, hx, hxb⟩ := hg.placed.2 ⟨B, hB, hp⟩
  exact ownerOf?_of_block hx hxb hB hBr hR howner

theorem Linked.not_encloses {b : BlockId} (hg : g.Linked) (hne : o ≠ root)
    (ho : ¬g.Inside root o) (hb : g.Contained o b) : ¬g.Encloses root b := by
  obtain ⟨d, r, R, hd, hr, hR, hmem⟩ := hb
  rintro ⟨n, p, r', R', B, hn, hR', hp, hB, hBr⟩
  -- the block is in one region, and that has one owner
  obtain ⟨B', hB', hBr'⟩ := hg.parted.2 ⟨R, hR, hmem⟩
  rw [hB] at hB'
  cases hB'
  rw [hBr] at hBr'
  cases hBr'
  obtain ⟨R'', hR'', howner⟩ := hg.owned.2 ⟨d, slot_of_op hd, hr⟩
  rw [hR'] at hR''
  cases hR''
  rw [hp] at howner
  cases howner
  cases n with
  | zero =>
    cases hn
    exact hne rfl
  | succ n => exact ho ⟨n, hn⟩

/-- The operation is live, it is not the root, and it is not nested in the root. -/
def Elsewhere (g : Graph) (root o : OpId) : Prop :=
  (∃ d, g.op o = .ok d) ∧ o ≠ root ∧ ¬g.Inside root o

theorem SameOutside.agreeOn (h : SameOutside root g g') (hroot : g.Detached root) :
    AgreeOn (g.Elsewhere root) g g' where
  op ho := by
    obtain ⟨⟨d, hd⟩, -, hout⟩ := ho
    rw [hd]
    exact h.op hd hout
  region ho hd hr := by
    obtain ⟨R, hR, -⟩ := h.before.owned.2 ⟨_, slot_of_op hd, hr⟩
    rw [hR]
    exact h.region hR
  block ho hb := by
    obtain ⟨d, r, R, -, -, hR, hmem⟩ := id hb
    obtain ⟨B, hB, -⟩ := h.before.parted.2 ⟨R, hR, hmem⟩
    rw [hB]
    exact h.block hB (h.before.not_encloses ho.2.1 ho.2.2 hb)
  value _ _ hB hv := by
    obtain ⟨y, i, hy, -⟩ := h.before.origin_argument hB hv
    rw [hy]
    exact h.value hy
  nested {o p b B} ho hb hB hp := by
    have howner := h.before.ownerOf?_of_contained hb hB hp
    obtain ⟨x, hx, -⟩ := h.before.placed.2 ⟨B, hB, hp⟩
    refine ⟨⟨x, hx⟩, ?_, ?_⟩
    · rintro rfl
      rw [hroot.no_owner] at howner
      cases howner
    · intro hin
      obtain ⟨n, q, hq, hn⟩ := hin.owner
      rw [howner] at hq
      cases hq
      cases n with
      | zero =>
        cases hn
        exact ho.2.1 rfl
      | succ n => exact ho.2.2 ⟨n, hn⟩

end Graph

variable {g : Graph} {root : OpId}

/-- Every state that a run goes through has what was outside the function at the start. -/
theorem Progress.Visited.outside {axes : Rules.AxisMatch} {c : Config} {rules : RuleSet}
    {p : Progress} (hrules : rules.Regular axes root) (hg : g.Valid root)
    (h : Visited c rules root g p) : SameOutside root g p.graph := by
  have hsound : ∀ {p}, Visited c rules root g p → p.Sound root := fun hp =>
    hp.sound hrules.reduces hrules.clean.programs hg
  induction h with
  | start => exact .refl hg.linked
  | seed _ _ ih => exact ih
  | again hp ht ih =>
    refine ih.trans ?_
    cases (hsound hp).again hrules ht with
    | passes _ _ _ hgraph =>
      rw [graph_passed, hgraph]
      exact .refl (hsound hp).valid.linked
    | reduces _ _ _ _ _ hs hleads _ hgraph =>
      rw [graph_reduced, hgraph]
      subst hs
      exact hleads.outside
  | done hp ht ih =>
    rw [(turn_done ht fun x => (hsound hp).not_failed hrules ht x).1]
    exact ih

/-- A run on a function leaves alone all that is not nested in it, whatever ends the run: the
operations, with the function itself and those already erased, the blocks, the regions, and
the values that are not made in it with the lists of their uses.  So nothing else that is live
and not nested in the function is printed any differently. -/
theorem Pass.run_isolated (p : Pass) (h : g.Function root) :
    ∃ result g', p.run g root = .ok (result, g') ∧
      (∀ o d, g.slot o = .ok d → o = root ∨ ¬g.Inside root o → g'.slot o = .ok d) ∧
      (∀ b B, g.block b = .ok B → ¬g.Encloses root b → g'.block b = .ok B) ∧
      (∀ r R, g.region r = .ok R → g'.region r = .ok R) ∧
      (∀ v y, g.value v = .ok y → ¬g.Belongs root v → g'.value v = .ok y ∧ g'.uses v = g.uses v) ∧
      ∀ o d, g.op o = .ok d → o ≠ root → ¬g.Inside root o → g'.opText o = g.opText o := by
  have hvalid := h.valid
  obtain ⟨result, q, hrun, -, -, -, hvisited⟩ := p.run_ok hvalid
  have hsame := hvisited.outside (p.rules_regular root) hvalid
  refine ⟨result, q.graph, hrun p.config.verify, ?_, fun _ _ => hsame.block,
    fun _ _ => hsame.region, fun _ _ hy hv => ⟨hsame.value hy, hsame.uses hy hv⟩, ?_⟩
  · rintro o d hd (rfl | ho)
    · exact hsame.slot hd (not_inside_of_no_owner hvalid.detached.no_owner)
    · exact hsame.slot hd ho
  · intro o d hd hne ho
    exact (hsame.agreeOn hvalid.detached).opText hsame.size_le ⟨⟨d, hd⟩, hne, ho⟩

/-- Two functions side by side: a run on the second leaves the first as it is, and its text. -/
theorem Pass.run_isolated_beside : ∃ g, pairGraph.newFunc "g" [.qubit] guardedText.build =
      .ok (⟨9⟩, g) ∧ g.Function ⟨9⟩ ∧ ∃ result g', Pass.run {} g ⟨9⟩ = .ok (result, g') ∧
    g'.slot ⟨0⟩ = g.slot ⟨0⟩ ∧ g'.opText ⟨3⟩ = g.opText ⟨3⟩ := by
  have hroot : (pairGraph.newFunc "g" [.qubit] guardedText.build).map Prod.fst = .ok ⟨9⟩ := by
    decide +kernel
  obtain ⟨root, r, b, B, ops, g, hnew, hraised⟩ :=
    newFunc_raised pairGraph "g" [.qubit] guardedText
  rw [hnew, map_ok, Except.ok.injEq] at hroot
  subst hroot
  have hfunction : g.Function ⟨9⟩ :=
    hraised.function (.move pairGraph_function.built (.newFunc guardedText.build_program hnew))
      pairGraph_function.existing
  have hout : ∀ o : OpId, o.index < 4 → ¬g.Inside ⟨9⟩ o := by
    intro o ho hin
    have hmem := (hfunction.valid.mem_nestedOps hraised.nestedOps).2 hin
    have hrange := (hraised.range o).1 (.tail _ hmem)
    exact Nat.not_lt_of_le hrange.1 ho
  have h₀ := hraised.grows.op (o := ⟨0⟩) (rfl : pairGraph.op ⟨0⟩ = .ok _)
  have h₃ := hraised.grows.op (o := ⟨3⟩) (rfl : pairGraph.op ⟨3⟩ = .ok _)
  obtain ⟨result, g', hrun, hslot, -, -, -, htext⟩ := Pass.run_isolated {} hfunction
  refine ⟨g, hnew, hfunction, result, g', hrun, ?_, ?_⟩
  · rw [slot_of_op h₀]
    exact hslot ⟨0⟩ _ (slot_of_op h₀) (.inr (hout ⟨0⟩ (by decide)))
  · exact htext ⟨3⟩ _ h₃ (by decide) (hout ⟨3⟩ (by decide))

end Peephole
