import Peephole.Proofs.Budgets
import Peephole.Proofs.Completeness

/-!
# Sweeps that are drained

If its limit is out of the way, a sweep ends when nothing waits any more.  The state at which
this happens does not depend on the limit, so what a run comes to can be told from it, as soon
as it has made fewer reductions than the limit allows (`Progress.Drained.run`).  The budget
need not be larger than the function weighs.
-/

namespace Peephole

open Peephole.Graph Relation

variable {axes : Rules.AxisMatch} {c : Config} {rules : RuleSet} {root : OpId} {limit : Limit}
  {g : Graph} {p q : Progress}

/-- Turns that stay below another limit can be taken with that one. -/
theorem Progress.Turns.relimit {limit' : Limit} (h : p.Turns c rules root limit q)
    (hq : q.reductions < limit'.reductions) : p.Turns c rules root limit' q := by
  induction h with
  | refl => exact .refl
  | tail _ ht ih =>
    have hstep := turn_again_reductions ht
    have hlimit := (turn_again_limit ht).2
    refine .tail (ih (by omega)) ?_
    rw [← turn_below hlimit (by omega)]
    exact ht

namespace Progress

/-- The second state is reached by turns from the first one, with everything queued, and nothing
waits there. -/
structure Drained (c : Config) (rules : RuleSet) (root : OpId) (ops : List OpId) (p q : Progress) :
    Prop extends q.Undisturbed c root where
  nested : p.graph.nestedOps root = .ok ops
  turns : ∃ limit, Turns c rules root limit (p.seeded ops) q
  empty (o : OpId) : ¬q.worklist.Waits o

/-- With a limit that no sweep reaches, a sweep is drained. -/
theorem Undisturbed.drained (hrules : rules.Regular axes root) (hp : p.Undisturbed c root) :
    ∃ ops q, p.Drained c rules root ops q := by
  obtain ⟨ops, hops, -⟩ := hp.valid.linked.nestedOps_ok hp.valid.detached
  have hseed := hp.seed hops
  obtain ⟨e, q', hdrain, -⟩ := drain_ok hrules.reduces hrules.clean.programs hseed.toSound c
    (.budget (p.reductions + p.graph.weight root + 1))
  obtain ⟨q, hturns, hdone⟩ := drain_eq_ok.1 (hdrain c.verify)
  have hq := hseed.turns hrules hturns
  have hweight := hturns.reductions_add_weight hrules hseed.toSound
  rw [reductions_seeded, graph_seeded] at hweight
  refine ⟨ops, q, hq, hops, ⟨_, hturns⟩, ?_⟩
  obtain ⟨hfinding, -⟩ := hq.done hrules hdone
  cases hfinding with
  | drained hnone => exact hnone
  | capped heq hle => cases heq
  | settled heq hle | limited heq hle =>
    cases heq
    omega

namespace Drained

variable {ops : List OpId}

/-- Where the limit is not reached, the sweep finishes at the state where nothing waits. -/
theorem sweep (h : p.Drained c rules root ops q)
    (hlimit : q.reductions < (p.limit c ops.length).reductions) :
    ∃ r, Peephole.sweep c rules root p = .ok (.finished, r) ∧ r.Undisturbed c root ∧
      r.graph = q.graph ∧ r.reductions = q.reductions := by
  obtain ⟨limit, hturns⟩ := h.turns
  refine ⟨{ q.next with worklist := q.worklist.clear }, ?_,
    ⟨⟨h.valid, h.queues⟩, h.goesOn, h.unraised⟩, rfl, rfl⟩
  rw [Peephole.sweep, h.nested]
  refine drain_eq_ok.2 ⟨q, hturns.relimit hlimit, ?_⟩
  have hpop : q.worklist.pop = none := by
    cases hpop : q.worklist.pop with
    | none => rfl
    | some x => exact absurd (Worklist.waits_of_pop hpop) (h.empty _)
  rw [turn, if_neg (by simp [h.isStopped]), if_neg (Nat.not_le.2 hlimit), hpop]
  rfl

/-- Nothing is left to do at a state where nothing waits, if the gates have one reader each. -/
theorem settled {a : Pass} (h : p.Drained c a.rules root ops q) (hp : p.Sound root)
    (hx : p.graph.Exclusive root) (hmarks : p.worklist.Marks p.graph.Gone) :
    q.graph.Settled c a.rules root := by
  obtain ⟨limit, hturns⟩ := h.turns
  obtain ⟨-, hattentive⟩ := hturns.attentive (hp.seed h.nested) (hmarks.queueAll _)
    (attentive_seed hp hx hmarks h.nested)
  rw [h.valid.settled_iff]
  exact fun ho => (hattentive.attends ho).resolve_right (h.empty _)

/-- A run whose first sweep is drained makes the reductions of this sweep, and a second sweep if
there are any. -/
theorem run {a : Pass} (h : (start g).Drained a.config a.rules root ops q)
    (hg : g.Function root) (hx : g.Exclusive root) (hsweeps : 2 ≤ a.config.maxSweeps)
    (hbudget : ∀ m, a.config.budget = some m → q.reductions < m) :
    a.run g root = .ok (.ok ⟨if q.reductions = 0 then 1 else 2, q.reductions⟩, q.graph) := by
  have hrules := a.rules_regular root
  have hstart : Visited a.config a.rules root g (start g) := .start
  have hmarks := hstart.marks hrules.clean.programs
  have hsound : (start g).Sound root :=
    hstart.sound hrules.reduces hrules.clean.programs hg.valid
  have hsettled := h.settled hsound hx hmarks
  obtain ⟨limit, hturns⟩ := h.turns
  have hlimit : q.reductions < ((start g).limit a.config ops.length).reductions := by
    cases hb : a.config.budget with
    | some m =>
      rw [Progress.limit, hb]
      exact hbudget m hb
    | none =>
      have hle := hturns.reductions_add_weight hrules (hsound.seed h.nested)
      have hweight := weight_le (show g.nestedOps root = .ok ops from h.nested)
      simp only [start, reductions_seeded, graph_seeded] at hle
      rw [Progress.limit, hb]
      show q.reductions < 0 + max ops.length 1 * 32
      omega
  obtain ⟨r, hsweep, hr, hgraph, hreductions⟩ := h.sweep hlimit
  rw [← hgraph, ← hreductions]
  rw [← hgraph] at hsettled
  obtain ⟨left, hleft⟩ := Nat.exists_eq_add_of_le' hsweeps
  have hrun := sweepUpTo_succ (left + 1) 0 hsweep
  by_cases hzero : r.reductions = 0
  · rw [if_pos hzero]
    refine Pass.run_of_converged ?_ hr.valid
    rw [Graph.simplify, hleft, hrun]
    simp [start, hzero]
  · obtain ⟨q', hrun', hgraph', -⟩ := hr.of_settled hsettled left 1
    rw [if_neg hzero, ← hgraph']
    refine Pass.run_of_converged ?_ (hgraph' ▸ hr.valid)
    rw [Graph.simplify, hleft, hrun]
    simpa [start, hzero] using hrun'

end Drained

end Progress

end Peephole
