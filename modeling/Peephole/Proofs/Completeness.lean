import Peephole.Proofs.Linearity
import Peephole.Proofs.Redexes

/-!
# One sweep is enough for linear circuits

A sweep starts with every operation queued, and each reduction queues what it concerns.  For
the pass on a linear function this is enough: whatever is not queued is no redex, from the
first turn on to the last one (`Turns.attends`).  So the first sweep comes to a settled
function, and the second one finds that nothing applies.

It has to be shown that what a reduction makes a redex is covered (`Reduction.redex`).  A
redex depends on slots and readers of the operation, which are watched, on the order of
operations, which does not change, on the number of readers of qubits, which is one before
and after, and in the conjugation rule on a slot of another operation.  That slot may be
written when a pair of Hadamard gates goes, and then the second gate of the pair had been
good enough for the conjugation rule.
-/

namespace Peephole

open Peephole.Graph

namespace Session

variable {axes : Rules.AxisMatch} {c : Config} {S : OpId → Prop} {s t : Session} {root o y : OpId}

/-! ## Operations that are not covered -/

/-- What is not covered is as it was. -/
theorem Wakes.op_eq (h : s.Wakes S t) (hy : ¬t.observer.Covers y) {d : Op}
    (hd : t.graph.op y = .ok d) : s.graph.op y = .ok d := by
  obtain ⟨d', hd', hu⟩ := (h.born hd).resolve_left hy
  have hoperands : d'.operands = d.operands := by
    refine List.ext_getElem? fun i => ?_
    have hslot := (h.slots ⟨y, i⟩).resolve_left hy
    rw [held?_of_op hd, held?_of_op hd'] at hslot
    exact hslot.symm
  rw [hd', Op.eq_of_unread hu, hoperands]

theorem Wakes.computes_eq (h : s.Wakes S t) (hy : ¬t.observer.Covers y) {f : Formula} {v : ValueId}
    (hf : t.graph.Computes y f v) : s.graph.Computes y f v := by
  obtain ⟨d, hd, hf⟩ := hf
  exact ⟨d, h.op_eq hy hd, hf⟩

/-- A slot of an X gate that comes to hold the result of a Hadamard gate held that of another
one, which was the second of a pair. -/
theorem Reduction.slot_of_pauliX (h : s.Reduction axes o t) {x p : OpId}
    {a a₀ b input : ValueId} (hx : s.graph.Computes x (.gate .pauliX a₀) b)
    (ha : t.graph.held? ⟨x, 0⟩ = some a) (hne : a ≠ a₀)
    (hp : t.graph.Computes p (.gate .hadamard input) a) :
    ∃ first q, s.graph.Computes o (.gate .hadamard q) a₀ ∧
      s.graph.Computes first (.gate .hadamard a) q ∧ s.graph.Precedes first o := by
  have ha₀ : s.graph.held? ⟨x, 0⟩ = some a₀ := hx.held? 0
  have hold : s.graph.held? ⟨x, 0⟩ ≠ some a := by
    rw [ha₀]
    rintro heq
    cases heq
    exact hne rfl
  cases h with
  | unused _ _ _ he => exact absurd (he.graph.held_cases ha).2 hold
  | @sum _ _ n _ _ v w _ _ _ s₁ s₂ _ _ _ _ hi hn hr he =>
    rcases hr.graph.held_cases (he.graph.held_cases ha).2 with ⟨ha, -⟩ | ⟨-, rfl⟩
    · rw [(hi.graph.computes hx).held? 0] at ha
      cases ha
      exact absurd rfl hne
    · have hev := hr.graph.rewired.evolves.trans he.graph.evolves
      cases hev.kind_eq hi.graph.linked hn hp
  | @pair first q input' v s₁ s₂ _ hf hfirst hpo hr he he' =>
    rcases hr.graph.held_cases (he.graph.held_cases (he'.graph.held_cases ha).2).2 with
      ⟨ha, -⟩ | ⟨hv, rfl⟩
    · exact absurd ha hold
    · rw [ha₀] at hv
      cases hv
      exact ⟨first, q, hf, hfirst.computes, hpo⟩
  | @conjugation _ _ n _ _ _ v w _ s₁ s₂ s₃ s₄ _ _ _ _ _ _ _ _ hi hn hr he he' he'' =>
    have ha₂ := (he.graph.held_cases (he'.graph.held_cases (he''.graph.held_cases ha).2).2).2
    rcases hr.graph.held_cases ha₂ with ⟨ha, -⟩ | ⟨-, rfl⟩
    · rw [(hi.graph.computes hx).held? 0] at ha
      cases ha
      exact absurd rfl hne
    · have hev := hr.graph.rewired.evolves.trans
        (he.graph.evolves.trans (he'.graph.evolves.trans he''.graph.evolves))
      cases hev.kind_eq hi.graph.linked hn hp
  | @fusion _ n _ _ _ _ _ _ _ _ _ s₁ s₂ _ hf _ _ _ _ hi _ hr he =>
    have hxo : x ≠ o := by
      rintro rfl
      obtain ⟨d, hd, hdf, -⟩ := hx
      obtain ⟨d', hd', hdf', -⟩ := hf
      rw [hd] at hd'
      cases hd'
      rw [hdf] at hdf'
      cases hdf'
    rcases hr.graph.held_cases (he.graph.held_cases ha).2 with ⟨heq, -⟩ | ⟨heq, -⟩ | ⟨-, -, ha⟩
    · exact absurd (congrArg Use.user heq) hxo
    · exact absurd (congrArg Use.user heq) hxo
    · rw [(hi.graph.computes hx).held? 0] at ha
      cases ha
      exact absurd rfl hne

end Session

namespace Graph

variable {g g' : Graph} {root o y : OpId}

/-- A gate that feeds an operation afterwards did so before. -/
theorem Evolves.feeds (h : Evolves g g') (hg : g.Valid root) (hx : g.Exclusive root) {p : OpId}
    {i : Nat} {f : Formula} {q : ValueId} (hy : g.Inside root y) (hmakes : g.Makes y)
    (hq : g.held? ⟨y, i⟩ = some q) (hp : g'.Computes p f q) (hk : f.kind.isUnitary = true)
    (hpy : g'.Precedes p y) :
    ∃ f', f'.outline = f.outline ∧ g.Feeds p f' q ⟨y, i⟩ ∧ g.Precedes p y := by
  obtain ⟨x, hqx⟩ := hg.exist hq
  obtain ⟨f', hf', hout⟩ := h.computes hp hqx
  have hpy' := h.precedes hpy (hf'.makes hg.linked) hmakes
  rw [← Formula.kind_of_outline hout] at hk
  exact ⟨f', hout, ⟨hf', fun hr => hx (hy.before hg.linked hpy') hf' hk hr hq⟩, hpy'⟩

/-- An operation comes before a reader of its result, if what is read right before it is made
at the level of that reader. -/
theorem Valid.precedes_reader (hg : g.Valid root) {first p x : OpId} {f f' : Formula}
    {a a₀ : ValueId} {i j : Nat} (ho : g.Inside root o) (hx : g.Inside root x)
    (hf : g.Computes o f a₀) (ha₀ : g.held? ⟨x, i⟩ = some a₀) (hfirst : g.Precedes first o)
    (ha : g.held? ⟨first, j⟩ = some a) (hp : g.Computes p f' a) (hpx : g.Precedes p x) :
    g.Precedes o x := by
  have hroot := hg.detached.no_owner
  have hsee := hg.visible ha (ho.before hg.linked hfirst)
  have hsee₀ := hg.visible ha₀ hx
  obtain ⟨d, hd, hmem, -⟩ := hp.op_ok
  obtain ⟨d₀, hd₀, hmem₀, -⟩ := hf.op_ok
  obtain ⟨n, hn⟩ := hx
  obtain ⟨m, hm⟩ := ho
  have hnm := hsee.level_le hg.linked hroot (slot_of_op hd) hmem
    (hn.sibling (hg.linked.ownerOf?_of_precedes hpx))
    (hm.sibling (hg.linked.ownerOf?_of_precedes hfirst))
  have hmn := hsee₀.level_le hg.linked hroot (slot_of_op hd₀) hmem₀ hm hn
  obtain rfl := Nat.le_antisymm (Nat.le_of_succ_le_succ hnm) (Nat.le_of_succ_le_succ hmn)
  exact hsee₀.precedes_of_level hg.linked hroot (slot_of_op hd₀) hmem₀ hm hn

end Graph

namespace Session

variable {axes : Rules.AxisMatch} {c : Config} {s t : Session} {root o y : OpId}

/-- What is a redex after a reduction and not covered was a redex before. -/
theorem Reduction.redex (h : s.Reduction axes o t) (hs : s.graph.Valid root)
    (ho : s.graph.Inside root o) (hx : s.graph.Exclusive root) (hy : t.graph.Inside root y)
    (hcovers : ¬t.observer.Covers y) (hredex : t.graph.Redex c axes y) :
    s.graph.Redex c axes y := by
  have hwakes := (h.wakes hs.linked hs.coherent).2
  have hev := hwakes.toEvolves
  have hin : ∀ {f v}, s.graph.Computes y f v → s.graph.Makes y ∧ s.graph.Inside root y :=
    fun hf => ⟨hf.makes hs.linked, hev.inside hy (hf.makes hs.linked)⟩
  cases hredex with
  | @unused f v hc hf hpure hfree =>
    have hf' := hwakes.computes_eq hcovers hf
    refine .unused hc hf' hpure fun u hu => ?_
    obtain ⟨d, hd, hmem, -⟩ := hf'.op_ok
    rcases hwakes.read hd hmem hu with hcov | hcov | ⟨u', hu'⟩
    · exact hcovers hcov
    · exact hcovers hcov
    · exact hfree u' hu'
  | sum hc hf hp hq =>
    have hf' := hwakes.computes_eq hcovers hf
    obtain ⟨_, ha⟩ := hs.exist (hf'.held? 0)
    obtain ⟨_, hb⟩ := hs.exist (hf'.held? 1)
    obtain ⟨f₁, hp', hout⟩ := hev.computes hp ha
    obtain ⟨f₂, hq', hout'⟩ := hev.computes hq hb
    obtain rfl := Formula.const_of_outline hout
    obtain rfl := Formula.const_of_outline hout'
    exact .sum hc hf' hp' hq'
  | pair hf hp hpo =>
    have hf' := hwakes.computes_eq hcovers hf
    obtain ⟨hmakes, hy'⟩ := hin hf'
    obtain ⟨f₁, hout, hfeeds, hpo'⟩ := hev.feeds hs hx hy' hmakes (hf'.held? 0) hp.computes rfl hpo
    obtain ⟨input, rfl⟩ := Formula.gate_of_outline hout
    exact .pair hf' hfeeds hpo'
  | @conjugation x p a b input v hf hx' hxo hp hpx =>
    have hf' := hwakes.computes_eq hcovers hf
    obtain ⟨hmakes, hy'⟩ := hin hf'
    obtain ⟨f₁, hout, hfeeds, hxo'⟩ := hev.feeds hs hx hy' hmakes (hf'.held? 0) hx'.computes rfl hxo
    obtain ⟨a₀, rfl⟩ := Formula.gate_of_outline hout
    have hxi := hy'.before hs.linked hxo'
    have hxm := hfeeds.computes.makes hs.linked
    have ha₀ : s.graph.held? ⟨x, 0⟩ = some a₀ := hfeeds.computes.held? 0
    by_cases heq : a = a₀
    · subst heq
      obtain ⟨f₂, hout', hfeeds', hpx'⟩ := hev.feeds hs hx hxi hxm ha₀ hp.computes rfl hpx
      obtain ⟨input', rfl⟩ := Formula.gate_of_outline hout'
      exact .conjugation hf' hfeeds hxo' hfeeds' hpx'
    · obtain ⟨first, q, hoq, hfirst, hpre⟩ :=
        h.slot_of_pauliX hfeeds.computes (hx'.computes.held? 0) heq hp.computes
      have ha : s.graph.held? ⟨first, 0⟩ = some a := hfirst.held? 0
      obtain ⟨_, hax⟩ := hs.exist ha
      obtain ⟨f₂, hp', -⟩ := hev.computes hp.computes hax
      have hpx' := hev.precedes hpx (hp'.makes hs.linked) hxm
      have hox := hs.precedes_reader ho hxi hoq ha₀ hpre ha hp' hpx'
      exact .conjugation hf' hfeeds hxo' ⟨hoq, fun hr => hx ho hoq rfl hr ha₀⟩ hox
  | @fusion p axis axis' a b q input v hf hp hpo hb haxes =>
    have hf' := hwakes.computes_eq hcovers hf
    obtain ⟨hmakes, hy'⟩ := hin hf'
    obtain ⟨f₁, hout, hfeeds, hpo'⟩ := hev.feeds hs hx hy' hmakes (hf'.held? 1) hp.computes rfl hpo
    obtain ⟨a', input', rfl⟩ := Formula.rotation_of_outline hout
    obtain ⟨_, hbx⟩ := hs.exist (hf'.held? 0)
    exact .fusion hf' hfeeds hpo' (hev.visible hb hbx (hfeeds.computes.makes hs.linked)) haxes

end Session

/-! ## Runs -/

theorem Graph.Redex.makes {axes : Rules.AxisMatch} {c : Config} {g : Graph} {o : OpId}
    (h : g.Redex c axes o) (hg : g.Linked) : g.Makes o := by
  cases h with
  | unused _ hf | sum _ hf | pair hf | conjugation hf | fusion hf => exact hf.makes hg

namespace Progress

variable {c : Config} {root : OpId} {limit : Limit} {a : Pass} {p q : Progress}

/-- Gates have at most one reader each, and every operation under the root is idle or waits. -/
structure Attentive (c : Config) (rules : RuleSet) (root : OpId) (p : Progress) : Prop where
  exclusive : p.graph.Exclusive root
  attends {o : OpId} : p.graph.Inside root o → p.graph.Idle c rules o ∨ p.worklist.Waits o

theorem Advance.attentive (h : p.Advance a.axisMatch c a.rules root q) (hp : p.Sound root)
    (hmarks : q.worklist.Marks q.graph.Gone) (ha : p.Attentive c a.rules root) :
    q.Attentive c a.rules root := by
  cases h with
  | @passes o w d hpop ho hidle hgraph _ =>
    refine ⟨by rw [graph_passed, hgraph]; exact ha.exclusive, ?_⟩
    intro y hy
    rw [graph_passed, hgraph] at hy ⊢
    rw [worklist_passed]
    rcases ha.attends hy with hy | hy
    · exact .inl hy
    · by_cases heq : o = y
      · exact .inl (heq ▸ hidle)
      · have hw := (hy.pop hpop).resolve_left (Ne.symm heq)
        exact .inr ((hw.mark heq .inProgress).settle o)
  | @reduces o w w' d name s t hpop ho _ _ _ hs hleads hreduction hgraph hobserver hw' =>
    subst hs
    obtain ⟨hcovers, hwakes⟩ := hreduction.wakes hp.valid.linked hp.valid.coherent
    refine ⟨by rw [graph_reduced, hgraph]; exact hreduction.exclusive hp.valid ho ha.exclusive, ?_⟩
    intro y hy
    rw [graph_reduced, hgraph] at hy hmarks ⊢
    rw [worklist_reduced, hw', Observer.worklistD] at hmarks ⊢
    by_cases hwaits : w'.Waits y
    · exact .inr (hwaits.settle o)
    -- Otherwise it is not covered, so it did not wait before and was idle.
    have huncovered : ¬t.observer.Covers y := by
      rw [hobserver]
      rintro (herased | hw)
      · obtain ⟨x, hx⟩ := hy.live
        exact (hmarks y (Worklist.status_settle_erased herased)).not_live hx
      · exact hwaits hw
    refine .inl ((a.idle_iff hleads.sound.valid hy).2 fun hredex => ?_)
    have hbefore := hreduction.redex hp.valid ho ha.exclusive hy huncovered hredex
    have hy' := hwakes.inside hy (hbefore.makes hp.valid.linked)
    rcases ha.attends hy' with hidle | hw
    · exact (a.idle_iff hp.valid hy').1 hidle hbefore
    · have hne : o ≠ y := by
        rintro rfl
        exact huncovered hcovers
      have hw' := (hw.pop hpop).resolve_left (Ne.symm hne)
      have hs : (Observer.worklist (w.mark o .inProgress)).Covers y := .inr (hw'.mark hne _)
      exact huncovered (hwakes.kept hs)

theorem Turns.attentive (h : p.Turns c a.rules root limit q) (hp : p.Sound root)
    (hmarks : p.worklist.Marks p.graph.Gone) (ha : p.Attentive c a.rules root) :
    q.worklist.Marks q.graph.Gone ∧ q.Attentive c a.rules root := by
  have hrules := a.rules_regular root
  induction h with
  | refl => exact ⟨hmarks, ha⟩
  | tail hturns ht ih =>
    have hsound := hp.turns hrules hturns
    have hmarks' := marks_of_turn hrules.clean.programs ih.1 ht
    exact ⟨hmarks', (hsound.again hrules ht).attentive hsound hmarks' ih.2⟩

/-- With everything queued, a sweep starts attentive. -/
theorem attentive_seed {ops : List OpId} (hp : p.Sound root) (hx : p.graph.Exclusive root)
    (hmarks : p.worklist.Marks p.graph.Gone) (hops : p.graph.nestedOps root = .ok ops) :
    Attentive c a.rules root (p.seeded ops) where
  exclusive := hx
  attends ho := .inr (waits_seed hmarks hops ((hp.valid.mem_nestedOps hops).2 ho))

/-- A sweep whose limit is not in the way leaves nothing to do. -/
theorem Undisturbed.sweep_settles (hp : p.Undisturbed c root) (hx : p.graph.Exclusive root)
    (hmarks : p.worklist.Marks p.graph.Gone)
    (hbudget : ∀ m, c.budget = some m → p.reductions + p.graph.weight root < m) :
    ∃ q, Peephole.sweep c a.rules root p = .ok (.finished, q) ∧ q.Undisturbed c root ∧
      q.graph.Settled c a.rules root := by
  have hrules := a.rules_regular root
  obtain ⟨ops, e, p', q, hops, hsweep, hturns, hp', hfinding, hgraph, -, hq⟩ := hp.sweep hrules
  have hlimit := hturns.lt_limit hrules hp.toSound hops hbudget
  obtain ⟨-, hattentive⟩ := hturns.attentive (hp.toSound.seed hops) (hmarks.queueAll _)
    (attentive_seed hp.toSound hx hmarks hops)
  cases hfinding with
  | drained hnone =>
    refine ⟨q, hsweep, hq rfl, ?_⟩
    rw [hgraph, hp'.valid.settled_iff]
    exact fun ho => (hattentive.attends ho).resolve_right (hnone _)
  | capped heq hle | settled heq hle | limited heq hle =>
    rw [heq] at hlimit
    exact absurd hlimit (Nat.not_lt.2 hle)

end Progress

variable {root : OpId} {g : Graph}

/-- On a linear function the first sweep reaches the fixpoint, so the pass succeeds with at
most two sweeps.  Nobody may ask to stop, and the budget has to be larger than the function
weighs. -/
theorem Pass.first_sweep_settles (p : Pass) (h : g.Function root) (hlinear : g.Linear root)
    (hstop : p.config.Unraised) (hsweeps : 2 ≤ p.config.maxSweeps)
    (hbudget : ∀ m, p.config.budget = some m → g.weight root < m) :
    ∃ q n, sweep p.config p.rules root (.start g) = .ok (.finished, q) ∧
      q.graph.Settled p.config p.rules root ∧ n ≤ 2 ∧
      p.run g root = .ok (.ok ⟨n, q.reductions⟩, q.graph) := by
  have hrules := p.rules_regular root
  have hx : g.Exclusive root := hlinear.exclusive h.valid (h.built.holds (typed_invariant false))
  have hstart : Progress.Visited p.config p.rules root g (.start g) := .start
  obtain ⟨q, hsweep, hq, hsettled⟩ := Progress.Undisturbed.sweep_settles (a := p) (c := p.config)
    (.start h.valid hstop) hx (hstart.marks hrules.clean.programs)
    (by simpa [Progress.start] using hbudget)
  obtain ⟨left, hleft⟩ := Nat.exists_eq_add_of_le' hsweeps
  have hrun := sweepUpTo_succ (left + 1) 0 hsweep
  by_cases hzero : q.reductions = 0
  · refine ⟨q, 1, hsweep, hsettled, by decide, run_of_converged ?_ hq.valid⟩
    rw [Graph.simplify, hleft, hrun]
    simp [Progress.start, hzero]
  · obtain ⟨q', hrun', hgraph, -⟩ := hq.of_settled hsettled left 1
    refine ⟨q, 2, hsweep, hsettled, Nat.le_refl 2, ?_⟩
    rw [← hgraph] at hsettled ⊢
    refine run_of_converged ?_ (hgraph ▸ hq.valid)
    rw [Graph.simplify, hleft, hrun]
    simpa [Progress.start, hzero] using hrun'

/-- Two Hadamard gates on one qubit are a linear circuit, and the pass takes at most two
sweeps to cancel them, whatever may be folded and removed. -/
theorem Pass.first_sweep_settles_pair : pairGraph.Function ⟨3⟩ ∧ pairGraph.Linear ⟨3⟩ ∧
    ∃ q n, sweep {} (Pass.rules {}) ⟨3⟩ (.start pairGraph) = .ok (.finished, q) ∧
      q.graph.Settled {} (Pass.rules {}) ⟨3⟩ ∧ n ≤ 2 ∧
      Pass.run {} pairGraph ⟨3⟩ = .ok (.ok ⟨n, q.reductions⟩, q.graph) := by
  have hlinear : pairGraph.Linear ⟨3⟩ := by
    have huses : ∀ i < pairGraph.values.size, pairGraph.useCount ⟨i⟩ ≤ 1 := by decide +kernel
    intro v x _ hx _
    exact huses v.index (index_lt_of_value hx)
  have hbudget : ∀ m, some 10000 = some m → pairGraph.weight ⟨3⟩ < m := by
    intro m hm
    cases hm
    decide +kernel
  exact ⟨pairGraph_function, hlinear,
    Pass.first_sweep_settles {} pairGraph_function hlinear (fun _ => rfl) (by decide) hbudget⟩

end Peephole
