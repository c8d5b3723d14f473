import Peephole.Proofs.Fixpoint

/-!
# Turns of the pass

A sweep is a chain of turns, the last of which ends it (`drain_eq_ok`).  For rules that only
make reductions, `Progress.Advance` says what a turn inside the chain has done: it looked at
an operation in vain, or made one reduction there.  `Progress.Undisturbed.done` says what the
last one has found, if nobody asks to stop: nothing waits or the cap is reached, or the
budget is spent and nothing applies, or the budget is spent and something does.
-/

namespace Peephole

open Peephole.Graph Relation

variable {axes : Rules.AxisMatch} {c : Config} {rules : RuleSet} {root : OpId} {limit : Limit}
  {g : Graph} {p q : Progress} {e : SweepEnd}

theorem Graph.Valid.mem_nestedOps (hg : g.Valid root) {ops : List OpId}
    (hops : g.nestedOps root = .ok ops) {o : OpId} : o ∈ ops ↔ g.Inside root o := by
  obtain ⟨ops', hops', -, -, hmem⟩ := hg.linked.nestedOps_ok hg.detached
  rw [hops] at hops'
  cases hops'
  exact hmem o

theorem Graph.Valid.settled_iff (hg : g.Valid root) :
    g.Settled c rules root ↔ ∀ {o}, g.Inside root o → g.Idle c rules o := by
  constructor
  · rintro ⟨ops, hops, hidle⟩ o ho
    exact hidle o ((hg.mem_nestedOps hops).2 ho)
  · intro h
    obtain ⟨ops, hops, -⟩ := hg.linked.nestedOps_ok hg.detached
    exact ⟨ops, hops, fun o ho => h ((hg.mem_nestedOps hops).1 ho)⟩

/-! ## Chains of turns -/

/-- The second state comes from the first by turns after which the sweep goes on. -/
def Progress.Turns (c : Config) (rules : RuleSet) (root : OpId) (limit : Limit) :
    Progress → Progress → Prop :=
  ReflTransGen fun p q => turn c rules root limit p = .ok (.again q)

theorem drain_eq_ok : drain c rules root limit p = .ok (e, q) ↔
    ∃ p', p.Turns c rules root limit p' ∧ turn c rules root limit p' = .ok (.done e q) := by
  constructor
  · intro h
    induction p using drain.induct c rules root limit with
    | case1 p f ht =>
      rw [drain_eq, ht] at h
      cases h
    | case2 p e' q' ht =>
      rw [drain_eq, ht] at h
      cases h
      exact ⟨p, .refl, ht⟩
    | case3 p p' ht ih =>
      rw [drain_eq, ht] at h
      obtain ⟨p'', hturns, hdone⟩ := ih h
      exact ⟨p'', .head ht hturns, hdone⟩
  · rintro ⟨p', hturns, hdone⟩
    induction hturns using ReflTransGen.head_induction_on with
    | refl =>
      rw [drain_eq, hdone]
      rfl
    | head ht _ ih =>
      rw [drain_eq, ht]
      exact ih

/-- A turn makes at most one reduction. -/
theorem turn_again_reductions (h : turn c rules root limit p = .ok (.again q)) :
    q.reductions = p.reductions ∨ q.reductions = p.reductions + 1 := by
  obtain ⟨o, w, d, -, -, ⟨-, rfl⟩ | ⟨name, -, rfl⟩⟩ := turn_again h
  · exact .inl rfl
  · exact .inr rfl

/-- The count of reductions never goes down, and does not go beyond the limit. -/
theorem Progress.Turns.reductions_le (h : p.Turns c rules root limit q) :
    p.reductions ≤ q.reductions ∧
      (p.reductions ≤ limit.reductions → q.reductions ≤ limit.reductions) := by
  induction h with
  | refl => exact ⟨Nat.le_refl _, id⟩
  | tail _ ht ih =>
    have hstep := turn_again_reductions ht
    have hlimit := (turn_again_limit ht).2
    exact ⟨by omega, fun _ => by omega⟩

/-! ## What turns do -/

/-- The rules make reductions only, and leave the graph alone where they do not apply. -/
structure RuleSet.Regular (axes : Rules.AxisMatch) (root : OpId) (rules : RuleSet) : Prop where
  reduces : rules.Reduces axes root
  clean : rules.Clean

theorem Pass.rules_regular (p : Pass) (root : OpId) : p.rules.Regular p.axisMatch root :=
  ⟨p.rules_reduce, p.rules_clean⟩

namespace Progress

/-- The state after the operation that was on top is looked at in vain, or after one
reduction there. -/
inductive Advance (axes : Rules.AxisMatch) (c : Config) (rules : RuleSet) (root : OpId)
    (p : Progress) : Progress → Prop
  | passes {o : OpId} {w : Worklist} {d : Dispatched} : p.worklist.pop = some (o, w) →
      p.graph.Inside root o → p.graph.Idle c rules o → d.graph = p.graph →
      d.stopRequested = false → Advance axes c rules root p (p.passed d o (w.mark o .inProgress))
  | reduces {o : OpId} {w w' : Worklist} {d : Dispatched} {name : String} {s t : Session} :
      p.worklist.pop = some (o, w) → p.graph.Inside root o →
      dispatch c rules p.graph (.worklist (w.mark o .inProgress)) o = .ok d →
      d.verdict = .applied name → d.stopRequested = false →
      s = { graph := p.graph, observer := .worklist (w.mark o .inProgress) } →
      s.Leads axes root t → s.Reduction axes o t → d.graph = t.graph →
      t.observer = .worklist w' → d.observer = .worklist w' →
      Advance axes c rules root p (p.reduced d o (w.mark o .inProgress))

/-- In a sound state, what is on top is idle, or there is a reduction there. -/
theorem Sound.dispatched {o : OpId} {w : Worklist} {d : Dispatched}
    (hrules : rules.Regular axes root) (hp : p.Sound root) (hpop : p.worklist.pop = some (o, w))
    (hd : dispatch c rules p.graph (.worklist (w.mark o .inProgress)) o = .ok d) :
    d.verdict = .idle ∧ p.Advance axes c rules root (p.passed d o (w.mark o .inProgress)) ∨
      ∃ name, d.verdict = .applied name ∧
        p.Advance axes c rules root (p.reduced d o (w.mark o .inProgress)) := by
  obtain ⟨ho, hw⟩ := hp.queues.pop hpop
  have htracks : (Observer.worklist (w.mark o .inProgress)).Tracks p.graph root :=
    hw.mark (by decide)
  obtain ⟨d', hd', hstop, hsafe⟩ := dispatch_ok hrules.reduces hp.valid htracks ho c
  rw [hd] at hd'
  cases hd'
  cases hv : d.verdict with
  | idle =>
    simp only [hv] at hsafe
    exact .inl ⟨rfl, .passes hpop ho (idle_of_dispatch hrules.clean hd hv) hsafe hstop⟩
  | failed e =>
    simp only [hv] at hsafe
  | applied name =>
    simp only [hv] at hsafe
    obtain ⟨t, hleads, hreduction, hgraph, hobserver⟩ := hsafe
    obtain ⟨w', hw'⟩ := dispatch_worklist hrules.clean.programs hd
    exact .inr ⟨name, rfl,
      .reduces hpop ho hd hv hstop rfl hleads hreduction hgraph (hobserver.symm.trans hw') hw'⟩

/-- What a turn does to a function does not depend on where in it the run was started. -/
theorem Sound.again {start : OpId} (hrules : rules.Regular axes root) (hp : p.Sound root)
    (h : turn c rules start limit p = .ok (.again q)) : p.Advance axes c rules root q := by
  obtain ⟨o, w, d, hpop, hd, hcases⟩ := turn_again h
  rcases hp.dispatched hrules hpop hd with ⟨hv, hq⟩ | ⟨name, hv, hq⟩
  · rcases hcases with ⟨-, rfl⟩ | ⟨name, hv', -⟩
    · exact hq
    · rw [hv] at hv'
      cases hv'
  · rcases hcases with ⟨hv', -⟩ | ⟨name', -, rfl⟩
    · rw [hv] at hv'
      cases hv'
    · exact hq

theorem Advance.sound (h : p.Advance axes c rules root q) (hp : p.Sound root) : q.Sound root := by
  cases h with
  | passes hpop _ _ hgraph _ =>
    refine ⟨?_, ?_⟩
    · rw [graph_passed, hgraph]
      exact hp.valid
    · rw [graph_passed, worklist_passed, hgraph]
      exact ((hp.queues.pop hpop).2.mark (by decide)).settle
  | reduces _ _ _ _ _ _ hleads _ hgraph hobserver hw' =>
    have htracks := hleads.sound.tracks
    rw [hobserver] at htracks
    refine ⟨?_, ?_⟩
    · rw [graph_reduced, hgraph]
      exact hleads.sound.valid
    · rw [graph_reduced, worklist_reduced, hgraph, hw']
      exact Worklist.Queues.settle htracks

theorem Advance.stopRequested (h : p.Advance axes c rules root q) :
    q.stopRequested = p.stopRequested := by
  cases h with
  | passes _ _ _ _ hstop => simp [passed, record, next, hstop]
  | reduces _ _ _ _ hstop => simp [reduced, record, next, hstop]

/-- The state with the operations under the root queued. -/
theorem Sound.seed (hp : p.Sound root) {ops : List OpId} (hops : p.graph.nestedOps root = .ok ops) :
    Sound root (p.seeded ops) := by
  refine ⟨hp.valid, hp.queues.queueAll fun o ho => ?_⟩
  exact (hp.valid.mem_nestedOps hops).1 (List.mem_reverse.1 ho)

theorem Sound.turns (hrules : rules.Regular axes root) (hp : p.Sound root)
    (h : p.Turns c rules root limit q) : q.Sound root := by
  induction h with
  | refl => exact hp
  | tail _ ht ih => exact (ih.again hrules ht).sound ih

theorem Sound.not_failed (hrules : rules.Regular axes root) (hp : p.Sound root)
    (h : turn c rules root limit p = .ok (.done e q)) (x : EditError) : e ≠ .failed x := by
  obtain ⟨t, ht, hsafe⟩ := turn_ok hrules.reduces hrules.clean.programs hp c
  rw [ht c.verify] at h
  cases h
  rintro rfl
  exact hsafe.succeeds rfl

theorem Sound.sweep (hrules : rules.Regular axes root) (hp : p.Sound root)
    (h : sweep c rules root p = .ok (e, q)) : q.Sound root := by
  obtain ⟨e', q', hsweep, hleads, -⟩ := sweep_ok hrules.reduces hrules.clean.programs hp c
  rw [hsweep c.verify] at h
  cases h
  exact hleads.sound

/-! ## What the last turn finds -/

/-- The state is sound, no rule asked to stop, and the host does not either. -/
structure Undisturbed (c : Config) (root : OpId) (p : Progress) : Prop extends p.Sound root where
  goesOn : p.stopRequested = false
  unraised : c.Unraised

namespace Undisturbed

theorem start (hg : g.Valid root) (hflag : c.Unraised) :
    (Progress.start g).Undisturbed c root where
  valid := hg
  queues := by
    intro o ho
    have hnone : Worklist.empty.status o = .queued := ho
    rw [Worklist.status_empty] at hnone
    cases hnone
  goesOn := rfl
  unraised := hflag

theorem isStopped (hp : p.Undisturbed c root) : p.isStopped c = false :=
  hp.unraised.isStopped hp.goesOn

theorem seed (hp : p.Undisturbed c root) {ops : List OpId}
    (hops : p.graph.nestedOps root = .ok ops) :
    Undisturbed c root (p.seeded ops) :=
  ⟨hp.toSound.seed hops, hp.goesOn, hp.unraised⟩

theorem turns (hrules : rules.Regular axes root) (hp : p.Undisturbed c root)
    (h : p.Turns c rules root limit q) : q.Undisturbed c root := by
  refine ⟨hp.toSound.turns hrules h, ?_, hp.unraised⟩
  induction h with
  | refl => exact hp.goesOn
  | tail hturns ht ih =>
    exact (((hp.toSound.turns hrules hturns).again hrules ht).stopRequested).trans ih

end Undisturbed

/-- An attempt on a copy stops at an operation that is not idle. -/
theorem probe_limited (hrules : rules.Regular axes root) {ops : List OpId} (hg : g.Valid root)
    (hops : ∀ o ∈ ops, g.Inside root o) (h : probe c rules p g ops = .ok (.limited, q)) :
    ∃ o ∈ ops, ¬g.Idle c rules o := by
  induction ops generalizing p with
  | nil => cases h
  | cons o ops ih =>
    rw [probe, bind_eq_ok] at h
    obtain ⟨d, hd, h⟩ := h
    cases hv : d.verdict with
    | idle =>
      have htracks : Observer.silent.Tracks g root := trivial
      obtain ⟨d', hd', -, hsafe⟩ := dispatch_ok hrules.reduces hg htracks (hops o (.head ops)) c
      rw [hd] at hd'
      cases hd'
      simp only [hv] at h hsafe
      rw [hsafe] at h
      obtain ⟨o', ho', hidle⟩ := ih (fun o' ho' => hops o' (.tail o ho')) h
      exact ⟨o', .tail o ho', hidle⟩
    | applied name =>
      refine ⟨o, .head ops, fun hidle => ?_⟩
      obtain ⟨calls, hd'⟩ := hidle .silent
      rw [hd] at hd'
      cases hd'
      cases hv
    | failed e =>
      simp only [hv] at h
      cases h

/-- What the last turn of a sweep finds, if nobody asks to stop. -/
inductive Finding (c : Config) (rules : RuleSet) (root : OpId) (limit : Limit) (p : Progress) :
    SweepEnd → Prop
  | capped {n : Nat} : limit = .cap n → n ≤ p.reductions → Finding c rules root limit p .finished
  | drained : (∀ o, ¬p.worklist.Waits o) → Finding c rules root limit p .finished
  | settled {n : Nat} : limit = .budget n → n ≤ p.reductions → p.graph.Settled c rules root →
      Finding c rules root limit p .settled
  | limited {n : Nat} {o : OpId} : limit = .budget n → n ≤ p.reductions →
      p.graph.Inside root o → ¬p.graph.Idle c rules o → Finding c rules root limit p .limited

theorem Undisturbed.done (hrules : rules.Regular axes root) (hp : p.Undisturbed c root)
    (h : turn c rules root limit p = .ok (.done e q)) :
    p.Finding c rules root limit e ∧ (e = .finished → q.stopRequested = false) := by
  have hfailed := hp.toSound.not_failed hrules h
  rw [turn, if_neg (by simp [hp.isStopped])] at h
  split at h
  · rename_i hlimit
    cases limit with
    | cap n =>
      cases h
      exact ⟨.capped rfl hlimit, fun _ => hp.goesOn⟩
    | budget n =>
      rcases limitTurn_cases h with ⟨m, hm, -⟩ | ⟨hany, ht⟩ | ⟨ops, e', q', hops, hprobe, ht⟩
      · cases hm
      · cases ht
        refine ⟨.drained fun o ho => ?_, fun _ => hp.goesOn⟩
        rw [worklist_next, ho.anyQueued] at hany
        cases hany
      · cases ht
        rcases probe_idle hrules.clean hprobe with rfl | ⟨x, rfl⟩ | ⟨rfl, hidle⟩
        · have hin : ∀ o ∈ ops, p.graph.Inside root o := fun o => (hp.valid.mem_nestedOps hops).1
          obtain ⟨o, ho, hbusy⟩ := probe_limited hrules hp.valid hin hprobe
          exact ⟨.limited rfl hlimit (hin o ho) hbusy, by simp⟩
        · exact absurd rfl (hfailed x)
        · exact ⟨.settled rfl hlimit ⟨ops, hops, hidle⟩, by simp⟩
  · split at h
    · rename_i hpop
      cases h
      exact ⟨.drained fun o ho => ho.pop_ne_none hpop, fun _ => hp.goesOn⟩
    · obtain ⟨x, hx⟩ := dispatchTurn_done h
      exact absurd hx (hfailed x)

/-- A sweep that nobody stops leaves off at a state that its last turn was taken in. -/
theorem Undisturbed.sweep (hrules : rules.Regular axes root) (hp : p.Undisturbed c root) :
    ∃ ops e p' q, p.graph.nestedOps root = .ok ops ∧
      sweep c rules root p = .ok (e, q) ∧
      Turns c rules root (p.limit c ops.length) (p.seeded ops) p' ∧
      p'.Undisturbed c root ∧ p'.Finding c rules root (p.limit c ops.length) e ∧
      q.graph = p'.graph ∧ q.reductions = p'.reductions ∧
      (e = .finished → q.Undisturbed c root) := by
  obtain ⟨e, q, hsweep, hleads, he⟩ := sweep_ok hrules.reduces hrules.clean.programs hp.toSound c
  obtain ⟨ops, hops, hdrain⟩ := bind_eq_ok.1 (hsweep c.verify)
  obtain ⟨p', hturns, hdone⟩ := drain_eq_ok.1 hdrain
  have hp' := (hp.seed hops).turns hrules hturns
  obtain ⟨hgraph, hreductions⟩ := turn_done hdone he
  obtain ⟨hfinding, hgoes⟩ := hp'.done hrules hdone
  exact ⟨ops, e, p', q, hops, hsweep c.verify, hturns, hp', hfinding, hgraph, hreductions,
    fun hfinished => ⟨hleads.sound, hgoes hfinished, hp.unraised⟩⟩

/-- A sweep that ran to its end leaves an undisturbed state. -/
theorem Undisturbed.finished (hrules : rules.Regular axes root) (hp : p.Undisturbed c root)
    (h : Peephole.sweep c rules root p = .ok (.finished, q)) : q.Undisturbed c root := by
  obtain ⟨ops, e, p', q', -, hsweep, -, -, -, -, -, hq'⟩ := hp.sweep hrules
  rw [h] at hsweep
  cases hsweep
  exact hq' rfl

/-- Sweeps of a settled function stop after the first one. -/
theorem Undisturbed.of_settled (hp : p.Undisturbed c root) (h : p.graph.Settled c rules root)
    (left made : Nat) : ∃ q, sweepUpTo c rules root (left + 1) made p =
        .ok ⟨.ok ⟨.converged, made + 1, p.reductions⟩, q⟩ ∧
      q.graph = p.graph ∧ q.reductions = p.reductions := by
  obtain ⟨ops, hops, hidle⟩ := h
  exact sweepUpTo_of_settled hops hidle hp.unraised left made rfl hp.goesOn
    (hp.queues.mono fun o ho => (hp.valid.mem_nestedOps hops).2 ho)

/-- A sweep marks what it erases. -/
theorem marks_of_sweep (hrules : rules.Programs) (hp : p.worklist.Marks p.graph.Gone)
    (h : Peephole.sweep c rules root p = .ok (e, q)) : q.worklist.Marks q.graph.Gone := by
  obtain ⟨ops, -, hdrain⟩ := bind_eq_ok.1 h
  obtain ⟨p', hturns, hdone⟩ := drain_eq_ok.1 hdrain
  have hp' : p'.worklist.Marks p'.graph.Gone := by
    clear hdone
    induction hturns with
    | refl => exact hp.queueAll _
    | tail _ ht ih => exact marks_of_turn hrules ih ht
  exact marks_of_turn hrules hp' hdone

end Progress

/-! ## Outcomes -/

/-- The outcome counts the reductions of the state that a run leaves. -/
theorem sweepUpTo_reductions {outcome : Outcome} : ∀ {left made : Nat} {p : Progress},
    sweepUpTo c rules root left made p = .ok ⟨.ok outcome, q⟩ → outcome.reductions = q.reductions
  | 0, made, p, h => by
      cases h
      rfl
  | left + 1, made, p, h => by
      obtain ⟨⟨e, q'⟩, hsweep, -⟩ := bind_eq_ok.1 h
      rw [sweepUpTo_succ left made hsweep] at h
      cases e with
      | finished =>
        dsimp only at h
        split at h
        · cases h
          rfl
        · exact sweepUpTo_reductions h
      | limited | settled | stopped =>
        cases h
        rfl
      | failed x => cases h

/-- The last turn of a sweep makes a reduction only if validation then fails. -/
theorem turn_done_reductions (h : turn c rules root limit p = .ok (.done e q)) :
    q.reductions = p.reductions ∨
      p.reductions < limit.reductions ∧ q.reductions = p.reductions + 1 := by
  rw [turn] at h
  split at h
  · cases h
    exact .inl rfl
  split at h
  · rcases limitTurn_cases h with ⟨n, -, ht⟩ | ⟨-, ht⟩ | ⟨ops, e', q', -, hprobe, ht⟩
    · cases ht
      exact .inl rfl
    · cases ht
      exact .inl rfl
    · cases ht
      exact .inl (probe_graph hprobe).2.2
  rename_i hlimit
  split at h
  · cases h
    exact .inl rfl
  rcases dispatchTurn_cases h with ⟨-, ht⟩ | ⟨-, d, -, h⟩
  · cases ht
    exact .inl rfl
  split at h
  · cases h
  · cases h
    exact .inl rfl
  · obtain ⟨report, -, h⟩ := h
    split at h
    · cases h
      exact .inr ⟨Nat.lt_of_not_le hlimit, rfl⟩
    · cases h

/-- A sweep makes no reduction beyond its limit. -/
theorem drain_reductions_le (h : drain c rules root limit p = .ok (e, q))
    (hp : p.reductions ≤ limit.reductions) :
    p.reductions ≤ q.reductions ∧ q.reductions ≤ limit.reductions := by
  obtain ⟨p', hturns, hdone⟩ := drain_eq_ok.1 h
  have hmono := hturns.reductions_le.1
  have hle := hturns.reductions_le.2 hp
  rcases turn_done_reductions hdone with hq | ⟨hlt, hq⟩ <;> omega

/-- A run does not make more reductions than its budget. -/
theorem sweepUpTo_reductions_le {m : Nat} (hc : c.budget = some m) {outcome : Outcome} :
    ∀ {left made : Nat} {p : Progress}, p.reductions ≤ m →
      sweepUpTo c rules root left made p = .ok ⟨.ok outcome, q⟩ → outcome.reductions ≤ m
  | 0, made, p, hp, h => by
      cases h
      exact hp
  | left + 1, made, p, hp, h => by
      obtain ⟨⟨e, q'⟩, hsweep, -⟩ := bind_eq_ok.1 h
      have hq' : q'.reductions ≤ m := by
        obtain ⟨ops, -, hdrain⟩ := bind_eq_ok.1 hsweep
        have hlimit : p.limit c ops.length = .budget m := by rw [Progress.limit, hc]
        rw [hlimit] at hdrain
        exact (drain_reductions_le hdrain hp).2
      rw [sweepUpTo_succ left made hsweep] at h
      cases e with
      | failed x => cases h
      | limited | settled | stopped =>
        cases h
        exact hq'
      | finished =>
        dsimp only at h
        split at h
        · cases h
          exact hq'
        · exact sweepUpTo_reductions_le hc hq' h

/-- The pass succeeds if simplification converges to a valid function. -/
theorem Pass.run_of_converged {p : Pass} {sweeps reductions : Nat}
    (h : g.simplify root p.rules p.config = .ok ⟨.ok ⟨.converged, sweeps, reductions⟩, q⟩)
    (hq : q.graph.Valid root) : p.run g root = .ok (.ok ⟨sweeps, reductions⟩, q.graph) := by
  obtain ⟨report, hreport, hok⟩ := hq.validate_ok
  have hclean : report.isOk = true := hok.2 ⟨hq.visible, hq.closed⟩
  simp [run, h, requireValid, hreport, hclean]

end Peephole
