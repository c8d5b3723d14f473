import Peephole.Proofs.Turns

/-!
# Budgets

What a run does is a list of *applications*: the reduction that was made, where, and the
graph after it.  `Graph.applications` reads the list off a run, turn by turn.  It is as long
as the count of reductions, and its last graph is the one that the run leaves.

A smaller budget only cuts the list short (`Pass.simplify_truncated`).  Below both budgets two
runs take the same turns, so they part where the smaller one is spent.  There, the run with
that budget finds out whether anything applies: if so, the other run goes on to make another
reduction, and if not, it makes none.
-/

namespace Peephole

open Peephole.Graph Relation

variable {axes : Rules.AxisMatch} {c : Config} {rules : RuleSet} {root : OpId} {limit : Limit}
  {g : Graph} {p q : Progress} {e : SweepEnd} {k m : Nat}

/-! ## Applications -/

/-- One reduction that was made. -/
structure Application where
  /-- Its name. -/
  name : String
  /-- Where it was made. -/
  op : OpId
  /-- The graph after it. -/
  graph : Graph

/-- The graph after applications that began with `g`. -/
def Graph.after (g : Graph) (log : List Application) : Graph := log.foldl (fun _ a => a.graph) g

theorem Graph.after_append (g : Graph) (log log' : List Application) :
    g.after (log ++ log') = (g.after log).after log' := List.foldl_append

/-- The reduction that is made at the operation on top, if any. -/
def Progress.application? (p : Progress) (c : Config) (rules : RuleSet) : Option Application :=
  match p.worklist.pop with
  | none => none
  | some (o, w) =>
      match dispatch c rules p.graph (.worklist (w.mark o .inProgress)) o with
      | .ok ⟨graph, _, _, _, .applied name⟩ => some ⟨name, o, graph⟩
      | _ => none

/-- The applications of a sweep. -/
def drainLog (c : Config) (rules : RuleSet) (root : OpId) (limit : Limit) (p : Progress) :
    List Application :=
  match _h : turn c rules root limit p with
  | .ok (.again q) => (p.application? c rules).toList ++ drainLog c rules root limit q
  | .ok (.done _ _) => []
  | .error _ => []
termination_by p.remaining limit
decreasing_by exact remaining_lt_of_turn ‹_›

/-- The applications of a sweep that begins with queueing the operations under the root. -/
def sweepLog (c : Config) (rules : RuleSet) (root : OpId) (p : Progress) : List Application :=
  match p.graph.nestedOps root with
  | .ok ops => drainLog c rules root (p.limit c ops.length) (p.seeded ops)
  | .error _ => []

/-- The applications of at most `left` sweeps. -/
def sweepUpToLog (c : Config) (rules : RuleSet) (root : OpId) : Nat → Progress → List Application
  | 0, _ => []
  | left + 1, p => sweepLog c rules root p ++
      match sweep c rules root p with
      | .ok (.finished, q) =>
          if q.reductions = p.reductions then [] else sweepUpToLog c rules root left q
      | _ => []

/-- The applications of a run, in order. -/
def Graph.applications (g : Graph) (root : OpId) (rules : RuleSet) (c : Config) :
    List Application :=
  sweepUpToLog c rules root c.maxSweeps (.start g)

theorem drainLog_eq : drainLog c rules root limit p =
    match turn c rules root limit p with
    | .ok (.again q) => (p.application? c rules).toList ++ drainLog c rules root limit q
    | _ => [] := by
  rw [drainLog]
  split
  · rename_i ht
    rw [ht]
  · rename_i ht
    rw [ht]
  · rename_i ht
    rw [ht]

theorem drainLog_done (h : turn c rules root limit p = .ok (.done e q)) :
    drainLog c rules root limit p = [] := by
  rw [drainLog_eq, h]

/-! A run is over after a sweep, or goes on with the next one. -/

/-- The end of a sweep that is the last one of a run that converges. -/
def SweepEnd.Ends (e : SweepEnd) (p q : Progress) : Prop :=
  e = .settled ∨ e = .finished ∧ q.reductions = p.reductions

theorem sweepUpTo_ends (left made : Nat) (h : sweep c rules root p = .ok (e, q)) (he : e.Ends p q) :
    sweepUpTo c rules root (left + 1) made p =
        .ok ⟨.ok ⟨.converged, made + 1, q.reductions⟩, q⟩ ∧
      sweepUpToLog c rules root (left + 1) p = sweepLog c rules root p := by
  rw [sweepUpTo_succ left made h, sweepUpToLog, h]
  rcases he with rfl | ⟨rfl, heq⟩
  · simp
  · simp [heq]

theorem sweepUpTo_next (left made : Nat) (h : sweep c rules root p = .ok (.finished, q))
    (hne : q.reductions ≠ p.reductions) :
    sweepUpTo c rules root (left + 1) made p = sweepUpTo c rules root left (made + 1) q ∧
      sweepUpToLog c rules root (left + 1) p =
        sweepLog c rules root p ++ sweepUpToLog c rules root left q := by
  rw [sweepUpTo_succ left made h, sweepUpToLog, h]
  simp [hne]

theorem sweepUpTo_converged_cases {left made sweeps n : Nat} {q' : Progress}
    (h : sweepUpTo c rules root (left + 1) made p = .ok ⟨.ok ⟨.converged, sweeps, n⟩, q'⟩)
    (hsweep : sweep c rules root p = .ok (e, q)) :
    e.Ends p q ∧ q' = q ∧ n = q.reductions ∨ e = .finished ∧ q.reductions ≠ p.reductions ∧
      sweepUpTo c rules root left (made + 1) q = .ok ⟨.ok ⟨.converged, sweeps, n⟩, q'⟩ := by
  rw [sweepUpTo_succ left made hsweep] at h
  cases e with
  | failed x | limited | stopped => cases h
  | settled =>
    cases h
    exact .inl ⟨.inl rfl, rfl, rfl⟩
  | finished =>
    dsimp only at h
    split at h
    · rename_i heq
      cases h
      exact .inl ⟨.inr ⟨rfl, heq⟩, rfl, rfl⟩
    · rename_i hne
      exact .inr ⟨rfl, hne, h⟩

/-- A turn that goes on makes the application that is due, if any. -/
theorem Progress.Advance.application? (h : p.Advance axes c rules root q) :
    (p.application? c rules = none ∧ q.reductions = p.reductions ∧ q.graph = p.graph) ∨
      ∃ a, p.application? c rules = some a ∧ q.reductions = p.reductions + 1 ∧
        q.graph = a.graph := by
  cases h with
  | @passes o w d hpop _ hidle hgraph _ =>
    obtain ⟨calls, hd⟩ := hidle (.worklist (w.mark o .inProgress))
    refine .inl ⟨?_, rfl, hgraph⟩
    simp [Progress.application?, hpop, hd]
  | @reduces o w w' d name s t hpop _ hd hv _ _ _ _ _ _ _ =>
    obtain ⟨graph, observer, stop, calls, verdict⟩ := d
    dsimp only at hv
    subst hv
    refine .inr ⟨⟨name, o, graph⟩, ?_, rfl, rfl⟩
    simp [Progress.application?, hpop, hd]

/-- Below two limits, a turn is the same for both. -/
theorem turn_below {limit' : Limit} (h : p.reductions < limit.reductions)
    (h' : p.reductions < limit'.reductions) :
    turn c rules root limit p = turn c rules root limit' p := by
  rw [turn, turn, if_neg (Nat.not_le.2 h), if_neg (Nat.not_le.2 h')]

/-- What turns add to the log, whatever the limit above is. -/
theorem Progress.Turns.logged (hrules : rules.Regular axes root) (hp : p.Sound root)
    (h : p.Turns c rules root limit q) : ∃ log, log.length + p.reductions = q.reductions ∧
      p.graph.after log = q.graph ∧ ∀ limit', limit.reductions ≤ limit'.reductions →
        drainLog c rules root limit' p = log ++ drainLog c rules root limit' q := by
  induction h with
  | refl => exact ⟨[], Nat.zero_add _, rfl, fun _ _ => rfl⟩
  | @tail p₁ p₂ hturns ht ih =>
    obtain ⟨log, hlength, hgraph, hlog⟩ := ih
    have hnext : ∀ limit', limit.reductions ≤ limit'.reductions → drainLog c rules root limit' p₁ =
        (p₁.application? c rules).toList ++ drainLog c rules root limit' p₂ := by
      intro limit' hle
      have hlt := (turn_again_limit ht).2
      rw [drainLog_eq, ← turn_below hlt (Nat.lt_of_lt_of_le hlt hle), ht]
    rcases ((hp.turns hrules hturns).again hrules ht).application? with
      ⟨hnone, hn, hq⟩ | ⟨a, hsome, hn, hq⟩
    · refine ⟨log, by rw [hlength, hn], by rw [hgraph, hq], fun limit' hle => ?_⟩
      rw [hlog limit' hle, hnext limit' hle, hnone]
      rfl
    · refine ⟨log ++ [a], ?_, ?_, fun limit' hle => ?_⟩
      · rw [List.length_append, List.length_singleton, hn]
        omega
      · rw [after_append, hq]
        rfl
      · rw [hlog limit' hle, hnext limit' hle, hsome, Option.toList_some, List.append_assoc]

theorem drain_logged (hrules : rules.Regular axes root) (hp : p.Sound root)
    (h : drain c rules root limit p = .ok (e, q)) :
    (drainLog c rules root limit p).length + p.reductions = q.reductions ∧
      p.graph.after (drainLog c rules root limit p) = q.graph := by
  obtain ⟨p', hturns, hdone⟩ := drain_eq_ok.1 h
  obtain ⟨log, hlength, hgraph, hlog⟩ := hturns.logged hrules hp
  obtain ⟨hgraph', hn'⟩ := turn_done hdone ((hp.turns hrules hturns).not_failed hrules hdone)
  rw [hlog limit (Nat.le_refl _), drainLog_done hdone, List.append_nil, hgraph, hgraph', hn']
  exact ⟨hlength, rfl⟩

theorem sweep_logged (hrules : rules.Regular axes root) (hp : p.Sound root)
    (h : sweep c rules root p = .ok (e, q)) :
    (sweepLog c rules root p).length + p.reductions = q.reductions ∧
      p.graph.after (sweepLog c rules root p) = q.graph := by
  obtain ⟨ops, hops, hdrain⟩ := bind_eq_ok.1 h
  rw [sweepLog, hops]
  exact drain_logged hrules (hp.seed hops) hdrain

/-- The log of a run is as long as its count of reductions and leads to its graph. -/
theorem sweepUpTo_logged (hrules : rules.Regular axes root) {outcome : Outcome} :
    ∀ {left made : Nat} {p : Progress}, p.Sound root →
      sweepUpTo c rules root left made p = .ok ⟨.ok outcome, q⟩ →
      (sweepUpToLog c rules root left p).length + p.reductions = outcome.reductions ∧
        p.graph.after (sweepUpToLog c rules root left p) = q.graph
  | 0, made, p, hp, h => by
      cases h
      exact ⟨Nat.zero_add _, rfl⟩
  | left + 1, made, p, hp, h => by
      obtain ⟨⟨e, q'⟩, hsweep, -⟩ := bind_eq_ok.1 h
      obtain ⟨hlength, hgraph⟩ := sweep_logged hrules hp hsweep
      rw [sweepUpTo_succ left made hsweep] at h
      rw [sweepUpToLog, hsweep]
      cases e with
      | failed x => cases h
      | limited | settled | stopped =>
        cases h
        simpa using ⟨hlength, hgraph⟩
      | finished =>
        dsimp only at h ⊢
        split at h
        · rename_i heq
          cases h
          rw [if_pos heq]
          simpa using ⟨hlength, hgraph⟩
        · rename_i hne
          obtain ⟨hlength', hgraph'⟩ := sweepUpTo_logged hrules (hp.sweep hrules hsweep) h
          rw [if_neg hne, List.length_append, after_append, hgraph]
          exact ⟨by omega, hgraph'⟩

/-! ## Where two budgets part -/

/-- The settings with another budget. -/
def Config.withBudget (c : Config) (n : Nat) : Config := { c with budget := some n }

/-! A turn does not look at the budget in the settings, only at the limit it is given. -/

theorem probe_withBudget {n : Nat} {copy : Graph} {ops : List OpId} :
    probe (c.withBudget n) rules p copy ops = probe c rules p copy ops := by
  induction ops generalizing p copy with
  | nil => rfl
  | cons o ops ih =>
    simp only [probe, ih]
    rfl

theorem turn_withBudget {n : Nat} :
    turn (c.withBudget n) rules root limit p = turn c rules root limit p := by
  have hlimit : limitTurn (c.withBudget n) rules root p.next limit =
      limitTurn c rules root p.next limit := by
    cases limit with
    | cap _ => rfl
    | budget _ => simp only [limitTurn, probe_withBudget]
  simp only [turn, hlimit]
  rfl

theorem Progress.turns_withBudget {n : Nat} : Turns (c.withBudget n) rules root limit p q ↔
    Turns c rules root limit p q := by
  simp only [Turns, turn_withBudget]

theorem drain_withBudget {n : Nat} : drain (c.withBudget n) rules root limit p = .ok (e, q) ↔
    drain c rules root limit p = .ok (e, q) := by
  simp only [drain_eq_ok, Progress.turns_withBudget, turn_withBudget]

theorem drainLog_withBudget {n : Nat} :
    drainLog (c.withBudget n) rules root limit p = drainLog c rules root limit p := by
  induction p using drain.induct c rules root limit with
  | case1 p f ht => rw [drainLog_eq, drainLog_eq, turn_withBudget, ht]
  | case2 p e q ht => rw [drainLog_eq, drainLog_eq, turn_withBudget, ht]
  | case3 p q ht ih =>
    rw [drainLog_eq, drainLog_eq, turn_withBudget, ht]
    simp only [ih]
    rfl

theorem Progress.undisturbed_withBudget {n : Nat} :
    p.Undisturbed (c.withBudget n) root ↔ p.Undisturbed c root :=
  ⟨fun h => ⟨h.toSound, h.goesOn, h.unraised⟩, fun h => ⟨h.toSound, h.goesOn, h.unraised⟩⟩

/-- A sweep that ran to its end within a budget leaves an undisturbed state. -/
theorem Progress.Undisturbed.finishedWithin {n : Nat} (hrules : rules.Regular axes root)
    (hp : p.Undisturbed c root)
    (h : Peephole.sweep (c.withBudget n) rules root p = .ok (.finished, q)) :
    q.Undisturbed c root :=
  undisturbed_withBudget.1 ((undisturbed_withBudget.2 hp).finished hrules h)

/-- Turns below the larger budget are turns below the smaller one up to where that is
spent. -/
theorem Progress.Turns.split (h : p.Turns c rules root (.budget m) q) (hp : p.reductions ≤ k) :
    (q.reductions < k ∧ p.Turns c rules root (.budget k) q) ∨ ∃ p', p'.reductions = k ∧
      p.Turns c rules root (.budget k) p' ∧ p'.Turns c rules root (.budget m) q := by
  induction h with
  | refl =>
    rcases Nat.lt_or_eq_of_le hp with hlt | heq
    · exact .inl ⟨hlt, .refl⟩
    · exact .inr ⟨p, heq, .refl, .refl⟩
  | @tail q q' _ ht ih =>
    rcases ih with ⟨hlt, hturns⟩ | ⟨p', hp', hturns, hrest⟩
    · have ht' : turn c rules root (.budget k) q = .ok (.again q') := by
        rw [turn_below hlt (turn_again_limit ht).2, ht]
      have hle : q'.reductions ≤ q.reductions + 1 := by
        obtain ⟨o, w, d, -, -, ⟨-, rfl⟩ | ⟨name, -, rfl⟩⟩ := turn_again ht
        · exact Nat.le_succ _
        · exact Nat.le_refl _
      have hturns' := ReflTransGen.tail hturns ht'
      rcases Nat.lt_or_eq_of_le (show q'.reductions ≤ k by omega) with hlt' | heq
      · exact .inl ⟨hlt', hturns'⟩
      · exact .inr ⟨q', heq, hturns', .refl⟩
    · exact .inr ⟨p', hp', hturns, .tail hrest ht⟩

theorem sweep_withBudget {ops : List OpId} (hops : p.graph.nestedOps root = .ok ops) :
    sweep (c.withBudget k) rules root p = .ok (e, q) ↔ drain c rules root (.budget k)
      (p.seeded ops) = .ok (e, q) := by
  rw [sweep, hops, ok_bind]
  exact drain_withBudget

theorem sweepLog_withBudget {ops : List OpId} (hops : p.graph.nestedOps root = .ok ops) :
    sweepLog (c.withBudget k) rules root p = drainLog c rules root (.budget k) (p.seeded ops) := by
  rw [sweepLog, hops]
  exact drainLog_withBudget

/-- From `p` on, a sweep with the budget `k` ends as `e'` at `last`, with the state `q'`.  A sweep
with the budget `m` goes on from there and ends as `e` with the state `q`. -/
structure Parting (c : Config) (rules : RuleSet) (root : OpId) (k m : Nat) (p last : Progress)
    (e : SweepEnd) (q : Progress) (e' : SweepEnd) (q' : Progress) : Prop where
  undisturbed : last.Undisturbed c root
  spent : last.reductions = k
  longer : drain c rules root (.budget m) last = .ok (e, q)
  shorter : sweep (c.withBudget k) rules root p = .ok (e', q')
  finding : last.Finding c rules root (.budget k) e'
  graph : q'.graph = last.graph
  reductions : q'.reductions = k
  goesOn : e' = .finished → q'.Undisturbed c root
  log : (sweepLog (c.withBudget k) rules root p).length + p.reductions = k ∧
    sweepLog (c.withBudget m) rules root p =
      sweepLog (c.withBudget k) rules root p ++ drainLog c rules root (.budget m) last

/-- A sweep with a smaller budget is the same, or it leaves off where its budget is spent. -/
theorem sweep_truncated (hrules : rules.Regular axes root) (hp : p.Undisturbed c root)
    (hk : p.reductions ≤ k) (hkm : k ≤ m) (h : sweep (c.withBudget m) rules root p = .ok (e, q)) :
    (sweep (c.withBudget k) rules root p = .ok (e, q) ∧ q.reductions < k ∧
      sweepLog (c.withBudget k) rules root p = sweepLog (c.withBudget m) rules root p) ∨
    ∃ last e' q', Parting c rules root k m p last e q e' q' := by
  obtain ⟨ops, hops, -⟩ := bind_eq_ok.1 h
  rw [sweep_withBudget hops] at h
  have hseed := hp.seed hops
  obtain ⟨last, hturns, hdone⟩ := drain_eq_ok.1 h
  rcases hturns.split hk with ⟨hlt, hturns'⟩ | ⟨p', hp', hturns', hrest⟩
  · left
    obtain ⟨-, hn⟩ := turn_done hdone ((hseed.toSound.turns hrules hturns).not_failed hrules hdone)
    have hlt' : last.reductions < (Limit.budget m).reductions := Nat.lt_of_lt_of_le hlt hkm
    have hdone' : turn c rules root (.budget k) last = .ok (.done e q) := by
      rw [turn_below hlt hlt', hdone]
    obtain ⟨log, -, -, hlog⟩ := hturns'.logged hrules hseed.toSound
    refine ⟨(sweep_withBudget hops).2 (drain_eq_ok.2 ⟨last, hturns', hdone'⟩), hn.trans_lt hlt, ?_⟩
    rw [sweepLog_withBudget hops, sweepLog_withBudget hops, hlog _ (Nat.le_refl _),
      hlog (.budget m) hkm, drainLog_done hdone, drainLog_done hdone']
  · right
    have hsound := hseed.turns hrules hturns'
    obtain ⟨t, ht, -⟩ := turn_ok hrules.reduces hrules.clean.programs hsound.toSound c
    have ht' : turn c rules root (.budget k) p' = .ok t := ht c.verify
    cases t with
    | again q' =>
      have hlt := (turn_again_limit ht').2
      rw [hp'] at hlt
      exact absurd hlt (Nat.lt_irrefl k)
    | done e' q' =>
      obtain ⟨hgraph, hn⟩ := turn_done ht' (hsound.toSound.not_failed hrules ht')
      obtain ⟨hfinding, hgoes⟩ := hsound.done hrules ht'
      obtain ⟨log, hlength, -, hlog⟩ := hturns'.logged hrules hseed.toSound
      have hsweep := (sweep_withBudget hops).2 (drain_eq_ok.2 ⟨p', hturns', ht'⟩)
      have hshorter : sweepLog (c.withBudget k) rules root p = log := by
        rw [sweepLog_withBudget hops, hlog _ (Nat.le_refl _), drainLog_done ht', List.append_nil]
      refine ⟨p', e', q', hsound, hp', drain_eq_ok.2 ⟨last, hrest, hdone⟩, hsweep, hfinding, hgraph,
        hn.trans hp', fun he => ⟨hp.toSound.sweep hrules hsweep, hgoes he, hp.unraised⟩, ?_, ?_⟩
      · rw [hshorter, ← hp', ← hlength, Progress.reductions_seeded]
      · rw [hshorter, sweepLog_withBudget hops]
        exact hlog _ hkm

/-! ## After the budget is spent -/

/-- Where the budget is spent, a sweep tells whether anything applies. -/
theorem sweep_spent (hrules : rules.Regular axes root) (hp : p.Undisturbed c root)
    (hmarks : p.worklist.Marks p.graph.Gone) (hk : p.reductions = k) :
    sweepLog (c.withBudget k) rules root p = [] ∧ ∃ e q,
      sweep (c.withBudget k) rules root p = .ok (e, q) ∧ q.reductions = k ∧
      (p.graph.Settled c rules root ∧ (e = .finished ∨ e = .settled) ∨
        ¬p.graph.Settled c rules root ∧ e = .limited) := by
  obtain ⟨ops, e, p', q, hops, hsweep, hturns, -, hfinding, -, hreductions, -⟩ :=
    (Progress.undisturbed_withBudget (n := k).2 hp).sweep hrules
  -- there is no turn before the last one
  have hp' : p' = p.seeded ops := by
    rcases ReflTransGen.cases_head hturns with heq | ⟨_, ht, -⟩
    · exact heq.symm
    · have hlt : p.reductions < k := (turn_again_limit ht).2
      omega
  subst hp'
  have hempty : sweepLog (c.withBudget k) rules root p = [] := by
    have hlog := (sweep_logged hrules hp.toSound hsweep).1
    rw [hreductions] at hlog
    exact List.length_eq_zero_iff.1 (by simpa using hlog)
  rw [Progress.reductions_seeded, hk] at hreductions
  refine ⟨hempty, e, q, hsweep, hreductions, ?_⟩
  cases hfinding with
  | capped hlimit _ => cases hlimit
  | drained hnone =>
    -- what is under the root would wait, so there is nothing
    exact .inl ⟨⟨ops, hops, fun o ho => absurd (Progress.waits_seed hmarks hops ho) (hnone o)⟩,
      .inl rfl⟩
  | settled _ _ hsettled => exact .inl ⟨hsettled, .inr rfl⟩
  | limited _ _ ho hbusy =>
    exact .inr ⟨fun hsettled => hbusy (hp.valid.settled_iff.1 hsettled ho), rfl⟩

/-- The status of a run that left off at a graph because its budget was spent. -/
def RunStatus.Tells (status : RunStatus) (g : Graph) (c : Config) (rules : RuleSet) (root : OpId) :
    Prop :=
  g.Settled c rules root ∧ status = .converged ∨ ¬g.Settled c rules root ∧ status = .budgetSpent

theorem sweepUpTo_spent (hrules : rules.Regular axes root) (hp : p.Undisturbed c root)
    (hmarks : p.worklist.Marks p.graph.Gone) (hk : p.reductions = k) {status : RunStatus}
    (hstatus : status.Tells p.graph c rules root) (left made : Nat) :
    sweepUpToLog (c.withBudget k) rules root (left + 1) p = [] ∧ ∃ sweeps n q,
      sweepUpTo (c.withBudget k) rules root (left + 1) made p =
        .ok ⟨.ok ⟨status, sweeps, n⟩, q⟩ := by
  obtain ⟨hlog, e, q, hsweep, hq, htells⟩ := sweep_spent (c := c) hrules hp hmarks hk
  rw [sweepUpToLog, hlog, hsweep, sweepUpTo_succ left made hsweep]
  rcases htells with ⟨hsettled, he⟩ | ⟨hbusy, rfl⟩
  · obtain ⟨-, rfl⟩ := hstatus.resolve_right fun h => h.1 hsettled
    rcases he with rfl | rfl
    · simp [hq, hk]
    · simp
  · obtain ⟨-, rfl⟩ := hstatus.resolve_left fun h => hbusy h.1
    simp

/-- A run from a settled graph makes no more reductions. -/
theorem drain_of_settled_eq (hp : p.Undisturbed c root) (hsettled : p.graph.Settled c rules root)
    (h : drain c rules root limit p = .ok (e, q)) :
    (e = .finished ∨ e = .settled) ∧ q.graph = p.graph ∧ q.reductions = p.reductions := by
  obtain ⟨ops, hops, hidle⟩ := hsettled
  obtain ⟨e', q', hdrain, he, hgraph, hn⟩ := drain_of_settled hops hidle hp.unraised limit rfl
    hp.goesOn (hp.queues.mono fun o ho => (hp.valid.mem_nestedOps hops).2 ho)
  rw [h] at hdrain
  cases hdrain
  exact ⟨he, hgraph, hn⟩

/-- Where nothing waits below the limit, a sweep is over. -/
theorem drain_of_drained (hp : p.Undisturbed c root) (hlimit : p.reductions < limit.reductions)
    (hnone : ∀ o, ¬p.worklist.Waits o) (h : drain c rules root limit p = .ok (e, q)) :
    e = .finished ∧ q.reductions = p.reductions := by
  have hpop : p.worklist.pop = none := by
    cases hpop : p.worklist.pop with
    | none => rfl
    | some next => exact absurd (Worklist.waits_of_pop hpop) (hnone _)
  rw [drain_eq, turn, if_neg (by simp [hp.isStopped]), if_neg (Nat.not_le.2 hlimit), hpop] at h
  cases h
  exact ⟨rfl, rfl⟩

/-- A state of a run that converges is settled if the run makes no more reductions. -/
theorem settled_iff_of_converged (hrules : rules.Regular axes root) (hp : p.Undisturbed c root)
    {q₁ : Progress} {r : Nat} (hdrain : drain c rules root limit p = .ok (e, q₁))
    (hrest : q = q₁ ∧ r = q₁.reductions ∨ ∃ left made sweeps, q₁.Undisturbed c root ∧
      sweepUpTo (c.withBudget m) rules root left made q₁ = .ok ⟨.ok ⟨.converged, sweeps, r⟩, q⟩)
    (hq : q.graph.Settled c rules root) : p.graph.Settled c rules root ↔ r ≤ p.reductions := by
  obtain ⟨hlength, hafter⟩ := drain_logged hrules hp.toSound hdrain
  constructor
  · intro hsettled
    obtain ⟨-, hgraph, hn⟩ := drain_of_settled_eq hp hsettled hdrain
    rcases hrest with ⟨-, rfl⟩ | ⟨left, made, sweeps, hq₁, hrun⟩
    · exact Nat.le_of_eq hn
    · have hsettled₁ : q₁.graph.Settled (c.withBudget m) rules root := by
        rw [hgraph]
        exact hsettled
      have hr : r = q₁.reductions := by
        cases left with
        | zero => cases hrun
        | succ left =>
          obtain ⟨q', hrun', -⟩ :=
            (Progress.undisturbed_withBudget.2 hq₁).of_settled hsettled₁ left made
          rw [hrun] at hrun'
          cases hrun'
          rfl
      exact Nat.le_of_eq (hr.trans hn)
  · intro hr
    rcases hrest with ⟨rfl, rfl⟩ | ⟨left, made, sweeps, hq₁, hrun⟩
    · have hnil : drainLog c rules root limit p = [] := List.length_eq_zero_iff.1 (by omega)
      rw [hnil] at hafter
      rw [show p.graph = q.graph from hafter]
      exact hq
    · obtain ⟨hlength', hafter'⟩ := sweepUpTo_logged hrules hq₁.toSound hrun
      dsimp only at hlength'
      have hnil : drainLog c rules root limit p = [] := List.length_eq_zero_iff.1 (by omega)
      have hnil' : sweepUpToLog (c.withBudget m) rules root left q₁ = [] :=
        List.length_eq_zero_iff.1 (by omega)
      rw [hnil] at hafter
      rw [hnil', ← hafter] at hafter'
      rw [show p.graph = q.graph from hafter']
      exact hq

theorem settled_withBudget {n : Nat} :
    g.Settled (c.withBudget n) rules root ↔ g.Settled c rules root := Iff.rfl

/-- Where the sweeps part, the run with the smaller budget finds out whether the other one will
make another reduction. -/
theorem Parting.truncated (hrules : rules.Regular axes root) (hp : p.Undisturbed c root)
    (hkm : k < m) (hmarks : p.worklist.Marks p.graph.Gone) {last q₁ q' : Progress} {e' : SweepEnd}
    (h : Parting c rules root k m p last e q₁ e' q')
    (hsweep : sweep (c.withBudget m) rules root p = .ok (e, q₁)) {left made sweeps r : Nat}
    (hcases : e.Ends p q₁ ∧ q = q₁ ∧ r = q₁.reductions ∨
      e = .finished ∧ q₁.reductions ≠ p.reductions ∧ sweepUpTo (c.withBudget m) rules root left
        (made + 1) q₁ = .ok ⟨.ok ⟨.converged, sweeps, r⟩, q⟩)
    (hq : q.graph.Settled c rules root) :
    sweepUpToLog (c.withBudget k) rules root (left + 1) p =
        (sweepUpToLog (c.withBudget m) rules root (left + 1) p).take (k - p.reductions) ∧
      ∃ sweeps' n q', sweepUpTo (c.withBudget k) rules root (left + 1) made p =
        .ok ⟨.ok ⟨if r ≤ k then .converged else .budgetSpent, sweeps', n⟩, q'⟩ := by
  have hrest : q = q₁ ∧ r = q₁.reductions ∨ ∃ left made sweeps, q₁.Undisturbed c root ∧
      sweepUpTo (c.withBudget m) rules root left made q₁ =
        .ok ⟨.ok ⟨.converged, sweeps, r⟩, q⟩ := by
    rcases hcases with ⟨-, hend⟩ | ⟨rfl, -, hrun⟩
    · exact .inl hend
    · exact .inr ⟨left, made + 1, sweeps, hp.finishedWithin hrules hsweep, hrun⟩
  have hsettled : last.graph.Settled c rules root ↔ r ≤ k := by
    rw [settled_iff_of_converged hrules h.undisturbed h.longer hrest hq, h.spent]
  have hcut : sweepLog (c.withBudget k) rules root p =
      (sweepUpToLog (c.withBudget m) rules root (left + 1) p).take (k - p.reductions) := by
    obtain ⟨hlength, hlog⟩ := h.log
    have hprefix : sweepLog (c.withBudget k) rules root p <+:
        sweepUpToLog (c.withBudget m) rules root (left + 1) p := by
      rw [sweepUpToLog, hlog, List.append_assoc]
      exact List.prefix_append _ _
    rw [show k - p.reductions = (sweepLog (c.withBudget k) rules root p).length by omega]
    exact List.prefix_iff_eq_take.1 hprefix
  rw [← hcut]
  cases h.finding with
  | capped hlimit _ => cases hlimit
  | settled _ _ hsettled' =>
    obtain ⟨hrun', hends'⟩ := sweepUpTo_ends left made h.shorter (.inl rfl)
    rw [hrun', hends', if_pos (hsettled.1 hsettled')]
    exact ⟨rfl, made + 1, q'.reductions, q', rfl⟩
  | limited _ _ ho hbusy =>
    have hmore : ¬r ≤ k := fun hr => hbusy (h.undisturbed.valid.settled_iff.1 (hsettled.2 hr) ho)
    rw [sweepUpTo_succ left made h.shorter, sweepUpToLog, h.shorter, if_neg hmore]
    exact ⟨List.append_nil _, made + 1, q'.reductions, q', rfl⟩
  | drained hnone =>
    have hlimit : last.reductions < (Limit.budget m).reductions := by
      rw [h.spent]
      exact hkm
    have hn := h.reductions
    have hspent := h.spent
    obtain ⟨rfl, hn₁⟩ := drain_of_drained h.undisturbed hlimit hnone h.longer
    rcases hcases with ⟨hends, rfl, rfl⟩ | ⟨-, hne, hrun⟩
    · have heq : q'.reductions = p.reductions := by
        rcases hends with hnot | ⟨-, heq⟩
        · cases hnot
        · omega
      obtain ⟨hrun', hends'⟩ := sweepUpTo_ends left made h.shorter (.inr ⟨rfl, heq⟩)
      rw [hrun', hends', if_pos (show q.reductions ≤ k by omega)]
      exact ⟨rfl, made + 1, q'.reductions, q', rfl⟩
    · -- another sweep follows with both budgets
      cases left with
      | zero => cases hrun
      | succ left =>
        have htells : RunStatus.Tells (if r ≤ k then .converged else .budgetSpent) q'.graph c rules
            root := by
          rw [RunStatus.Tells, h.graph, hsettled]
          by_cases hr : r ≤ k
          · exact .inl ⟨hr, if_pos hr⟩
          · exact .inr ⟨hr, if_neg hr⟩
        obtain ⟨hnext, hnext'⟩ := sweepUpTo_next (left + 1) made h.shorter (by omega)
        obtain ⟨hnil, hrun'⟩ := sweepUpTo_spent hrules (h.goesOn rfl)
          (Progress.marks_of_sweep hrules.clean.programs hmarks h.shorter) hn htells left (made + 1)
        rw [hnext, hnext', hnil]
        exact ⟨List.append_nil _, hrun'⟩

/-- A run with a smaller budget than one that converged makes its first reductions.  It
converges as well if it could make them all, and else finds its budget spent. -/
theorem sweepUpTo_truncated (hrules : rules.Regular axes root) (hkm : k < m) {sweeps r : Nat} :
    ∀ {left made : Nat} {p : Progress}, Progress.Visited (c.withBudget m) rules root g p →
      p.Undisturbed c root → p.reductions ≤ k →
      sweepUpTo (c.withBudget m) rules root left made p = .ok ⟨.ok ⟨.converged, sweeps, r⟩, q⟩ →
      sweepUpToLog (c.withBudget k) rules root left p =
        (sweepUpToLog (c.withBudget m) rules root left p).take (k - p.reductions) ∧
      ∃ sweeps' n q', sweepUpTo (c.withBudget k) rules root left made p =
        .ok ⟨.ok ⟨if r ≤ k then .converged else .budgetSpent, sweeps', n⟩, q'⟩
  | 0, made, p, _, _, _, h => by cases h
  | left + 1, made, p, hvisited, hp, hk, h => by
      have hq := settled_withBudget.1 (sweepUpTo_settled hrules.clean rfl rfl hvisited h)
      obtain ⟨⟨e, q₁⟩, hsweep, -⟩ := bind_eq_ok.1 h
      obtain ⟨hlength, -⟩ := sweep_logged hrules hp.toSound hsweep
      have hcases := sweepUpTo_converged_cases h hsweep
      rcases sweep_truncated hrules hp hk (Nat.le_of_lt hkm) hsweep with
        ⟨hsweep', hlt, hlog⟩ | ⟨last, e', q', hparting⟩
      · -- the sweep is the same with both budgets
        rcases hcases with ⟨hends, rfl, rfl⟩ | ⟨rfl, hne, hrun⟩
        · obtain ⟨hrun', hends'⟩ := sweepUpTo_ends left made hsweep' hends
          rw [hrun', hends', (sweepUpTo_ends left made hsweep hends).2, hlog,
            if_pos (Nat.le_of_lt hlt)]
          exact ⟨(List.take_of_length_le (by omega)).symm, made + 1, q.reductions, q, rfl⟩
        · obtain ⟨hrest, hrun'⟩ := sweepUpTo_truncated hrules hkm (hvisited.sweep hsweep)
            (hp.finishedWithin hrules hsweep) (Nat.le_of_lt hlt) hrun
          obtain ⟨hnext, hnext'⟩ := sweepUpTo_next left made hsweep' hne
          have htake : (sweepLog (c.withBudget m) rules root p).take (k - p.reductions) =
              sweepLog (c.withBudget m) rules root p := List.take_of_length_le (by omega)
          have hsub : k - p.reductions - (sweepLog (c.withBudget m) rules root p).length =
              k - q₁.reductions := by omega
          rw [hnext, hnext', (sweepUpTo_next left made hsweep hne).2, hlog, hrest, List.take_append,
            htake, hsub]
          exact ⟨rfl, hrun'⟩
      · exact hparting.truncated hrules hp hkm (hvisited.marks hrules.clean.programs) hsweep
          hcases hq

/-- A budget only cuts a run short.  Take a run of the pass that nobody stops and that
converges within a budget, after some number of reductions.  With a smaller budget it makes the
first of the same reductions in the same order.  If the budget lets it make all of them it
converges to the same graph, and else it ends with a spent budget at the graph that the longer
run had after so many reductions. -/
theorem Pass.simplify_truncated (p : Pass) (h : g.Function root)
    (hflag : p.config.Unraised) {sweeps r : Nat}
    (hrun : g.simplify root p.rules (p.config.withBudget m) = .ok ⟨.ok ⟨.converged, sweeps, r⟩, q⟩)
    (hkm : k ≤ m) :
    (g.applications root p.rules (p.config.withBudget m)).length = r ∧
    g.after (g.applications root p.rules (p.config.withBudget m)) = q.graph ∧
    g.applications root p.rules (p.config.withBudget k) =
      (g.applications root p.rules (p.config.withBudget m)).take (min k r) ∧
    ∃ sweeps' q', g.simplify root p.rules (p.config.withBudget k) =
        .ok ⟨.ok ⟨if r ≤ k then .converged else .budgetSpent, sweeps', min k r⟩, q'⟩ ∧
      q'.graph = g.after ((g.applications root p.rules (p.config.withBudget m)).take (min k r)) ∧
      (r ≤ k → q'.graph = q.graph) := by
  have hrules := p.rules_regular root
  have hstart : (Progress.start g).Undisturbed p.config root := .start h.valid hflag
  obtain ⟨hlength, hafter⟩ := sweepUpTo_logged hrules hstart.toSound hrun
  have hlength' : (g.applications root p.rules (p.config.withBudget m)).length = r := hlength
  have hafter' : g.after (g.applications root p.rules (p.config.withBudget m)) = q.graph := hafter
  obtain ⟨hlog, sweeps', n, q', hrun'⟩ :
      g.applications root p.rules (p.config.withBudget k) =
        (g.applications root p.rules (p.config.withBudget m)).take k ∧
      ∃ sweeps' n q', g.simplify root p.rules (p.config.withBudget k) =
        .ok ⟨.ok ⟨if r ≤ k then .converged else .budgetSpent, sweeps', n⟩, q'⟩ := by
    rcases Nat.lt_or_eq_of_le hkm with hlt | rfl
    · exact sweepUpTo_truncated hrules hlt .start hstart (Nat.zero_le k) hrun
    · have hle : r ≤ k := sweepUpTo_reductions_le rfl (Nat.zero_le k) hrun
      rw [List.take_of_length_le (Nat.le_trans (Nat.le_of_eq hlength') hle), if_pos hle]
      exact ⟨rfl, sweeps, r, q, hrun⟩
  have htake : (g.applications root p.rules (p.config.withBudget m)).take k =
      (g.applications root p.rules (p.config.withBudget m)).take (min k r) := by
    rw [← hlength', List.take_eq_take_min]
  obtain ⟨hcount, hgraph⟩ := sweepUpTo_logged hrules hstart.toSound hrun'
  have hcount' : (g.applications root p.rules (p.config.withBudget k)).length = n := hcount
  have hgraph' : g.after (g.applications root p.rules (p.config.withBudget k)) = q'.graph := hgraph
  obtain rfl : n = min k r := by rw [← hcount', hlog, List.length_take, hlength']
  refine ⟨hlength', hafter', hlog.trans htake, sweeps', q', hrun', ?_, ?_⟩
  · rw [← htake, ← hlog, hgraph']
  · intro hle
    rw [← hgraph', hlog, List.take_of_length_le (Nat.le_trans (Nat.le_of_eq hlength') hle), hafter']

/-- Without a budget for the reduction that cancels a pair of Hadamard gates, both stay. -/
theorem Pass.simplify_truncated_pair : pairGraph.Function ⟨3⟩ ∧
    (∃ p, pairGraph.simplify ⟨3⟩ (Pass.rules {}) (Config.withBudget {} 1) =
      .ok ⟨.ok ⟨.converged, 1, 1⟩, p⟩) ∧
    ∃ sweeps q, pairGraph.simplify ⟨3⟩ (Pass.rules {}) (Config.withBudget {} 0) =
      .ok ⟨.ok ⟨.budgetSpent, sweeps, 0⟩, q⟩ ∧ q.graph = pairGraph := by
  obtain ⟨p, hp⟩ := simplify_pair
  obtain ⟨-, -, -, sweeps, q, hrun, hgraph, -⟩ :=
    Pass.simplify_truncated (m := 1) (k := 0) {} pairGraph_function (fun _ => rfl) hp
      (Nat.zero_le 1)
  exact ⟨pairGraph_function, ⟨p, hp⟩, sweeps, q, hrun, hgraph⟩

end Peephole
