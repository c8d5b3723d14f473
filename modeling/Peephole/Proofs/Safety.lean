import Peephole.Proofs.Rules
import Peephole.Proofs.Runs

/-!
# The pass keeps functions valid

Every reduction that the pass makes in a valid function leaves a valid function, and no
turn of a sweep is a fault or fails.  So the checks that the pass may be told to make, and
the one it makes at the end, find nothing.
-/

namespace Peephole

open Peephole.Graph Relation

variable {axes : Rules.AxisMatch} {c : Config} {rules : RuleSet} {root o : OpId} {limit : Limit}
  {g : Graph} {p q : Progress}

/-! ## The rules of the pass -/

/-- Every rule does not match or makes edits of a function. -/
def RuleSet.Reduces (axes : Rules.AxisMatch) (root : OpId) (rules : RuleSet) : Prop :=
  ∀ r ∈ rules.rules, r.Reduces axes root

theorem Pass.mem_rules (p : Pass) {r : Rule} : r ∈ p.rules.rules ↔ r = Rules.hadamardPair ∨
    r = Rules.hadamardConjugation ∨ r = Rules.fuseRotations p.axisMatch := by
  simp [Pass.rules]

theorem Pass.rules_reduce (p : Pass) : p.rules.Reduces p.axisMatch root := by
  intro r hr
  rcases p.mem_rules.1 hr with rfl | rfl | rfl
  · exact Rules.hadamardPair_reduces
  · exact Rules.hadamardConjugation_reduces
  · exact Rules.fuseRotations_reduces

theorem Pass.rules_programs (p : Pass) : p.rules.Programs := by
  intro r hr o
  rcases p.mem_rules.1 hr with rfl | rfl | rfl
  · refine .bind (.ask _) fun first => ?_
    cases first with
    | none => exact .pure _
    | some first =>
      refine .bind (.ask _) fun input => .bind (.ask _) fun output => ?_
      exact .bind (.redirectUses output input) fun _ => .bind (.erase o) fun _ =>
        .bind (.erase first) fun _ => .pure _
  · refine .bind (.ask _) fun group => ?_
    cases group with
    | none => exact .pure _
    | some group =>
      refine .bind (.ask _) fun input => .bind (.ask _) fun d => .bind (.lift _) fun z => ?_
      exact .bind (.insert trivial) fun z => .bind (.ask _) fun output =>
        .bind (.replace o [output]) fun _ => .bind (.erase group.1) fun _ =>
          .bind (.erase group.2) fun _ => .pure _
  · refine .bind (.ask _) fun first => ?_
    cases first with
    | none => exact .pure _
    | some first =>
      refine .bind (.ask _) fun b => .bind (.ask _) fun d => .bind (.ask _) fun a =>
        .bind (.ask _) fun input => ?_
      exact .bind (.insert trivial) fun add => .bind (.ask _) fun sum =>
        .bind (.update o _) fun _ => .bind (.erase first) fun _ => .pure _

/-! ## Dispatch -/

/-- The dispatch did nothing, or made a reduction by edits of a function.  Nobody asked to
stop. -/
structure Dispatched.Safe (axes : Rules.AxisMatch) (root : OpId) (s : Session) (o : OpId)
    (d : Dispatched) : Prop where
  goesOn : d.stopRequested = false
  verdict : match d.verdict with
    | .idle => d.graph = s.graph
    | .applied _ => ∃ t, s.Leads axes root t ∧ s.Reduction axes o t ∧ d.graph = t.graph ∧
        d.observer = t.observer
    | .failed _ => False

section Dispatch

variable {observer : Observer} {x : Op}

theorem tryRules_ok (hg : g.Valid root) (htracks : observer.Tracks g root) (ho : g.Inside root o)
    (hx : g.op o = .ok x) :
    ∀ {rs : List Rule} (calls : List Call), (∀ r ∈ rs, r.Reduces axes root ∧ r.root = x.kind) →
      ∃ d, tryRules observer o g false calls rs = .ok d ∧
        d.Safe axes root { graph := g, observer } o
  | [], calls, _ => ⟨_, rfl, rfl, rfl⟩
  | r :: rs, calls, hrs => by
      obtain ⟨hr, hk⟩ := hrs r (.head rs)
      have hs : Session.Sound root { graph := g, observer } := ⟨hg, htracks⟩
      rcases hr hs ho hx hk.symm with hrun | ⟨t, hrun, hleads, hmutated, hreduction⟩
      · obtain ⟨d, hd, hsafe⟩ := tryRules_ok hg htracks ho hx
          (calls ++ [⟨r.name, o, .ok .noMatch⟩]) fun r' hr' => hrs r' (.tail r hr')
        refine ⟨d, ?_, hsafe⟩
        rw [tryRules, hrun]
        exact hd
      · refine ⟨t.dispatched (calls ++ [⟨r.name, o, .ok .applied⟩]) (.applied r.name), ?_,
          hleads.stop, t, hleads, hreduction, rfl, rfl⟩
        rw [tryRules, hrun, ok_bind]
        dsimp only
        rw [hmutated]
        rfl

theorem Kind.isReducible_of_isPure {k : Kind} (h : k.isPure = true) : k.isReducible = true := by
  cases k with
  | const | add => rfl
  | _ => cases h

/-- A value is read by nobody if the operation that computes it has no uses. -/
theorem Graph.Computes.unread_of_totalUses {f : Formula} {v : ValueId} (hf : g.Computes o f v)
    (hg : g.Coherent) (h : g.totalUses o = .ok 0) (u : Use) : g.held? u ≠ some v := by
  intro hu
  have hempty : g.uses v = [] := by simpa [totalUses, hf.results] using h
  have hmem := hg.mem_uses.2 hu
  rw [hempty] at hmem
  cases hmem

theorem dispatch_ok (hrules : rules.Reduces axes root) (hg : g.Valid root)
    (htracks : observer.Tracks g root) (ho : g.Inside root o) (c : Config) :
    ∃ d, dispatch c rules g observer o = .ok d ∧ d.Safe axes root { graph := g, observer } o := by
  have hs : Session.Sound root { graph := g, observer } := ⟨hg, htracks⟩
  obtain ⟨x, hx⟩ := ho.live
  have hkind : g.kind o = .ok x.kind := by simp [Graph.kind, hx]
  obtain ⟨n, hn⟩ : ∃ n, g.totalUses o = .ok n := ⟨_, by simp [totalUses, results, hx]; rfl⟩
  have hrest : ∃ d, tryRules observer o g false [] (rules.rulesFor x.kind) = .ok d ∧
      d.Safe axes root { graph := g, observer } o := by
    apply tryRules_ok hg htracks ho hx
    intro r hr
    obtain ⟨hmem, hk⟩ := RuleSet.mem_rulesFor.1 hr
    exact ⟨hrules r hmem, hk⟩
  simp only [dispatch, hkind, hn, ok_bind]
  split
  · rename_i hdead
    simp only [Bool.and_eq_true, decide_eq_true_eq] at hdead
    obtain ⟨⟨-, hpure⟩, rfl⟩ := hdead
    obtain ⟨f, v, hf, hfk⟩ := hg.computes ho hx (Kind.isReducible_of_isPure hpure)
    have hfree := hf.unread_of_totalUses hg.coherent hn
    obtain ⟨t, hrun, hleads, -, herases⟩ := hs.erase_ok axes ho hf hfree
    rw [hrun]
    exact ⟨_, rfl, hleads.stop, t, hleads, .unused hf (hfk ▸ hpure) hfree herases, rfl, rfl⟩
  · split
    · rcases EditM.fold_reduces axes hs ho with hrun | ⟨t, hrun, hleads, hreduction⟩
      · rw [hrun]
        exact hrest
      · rw [hrun]
        exact ⟨_, rfl, hleads.stop, t, hleads, hreduction, rfl, rfl⟩
    · exact hrest

end Dispatch

/-! ## Turns -/

/-- The work holds a valid function, and only operations under the root are queued. -/
structure Progress.Sound (root : OpId) (p : Progress) : Prop where
  valid : p.graph.Valid root
  queues : p.worklist.Queues (p.graph.Inside root)

/-- The turn keeps the work sound and does not fail. -/
structure Turn.Safe (axes : Rules.AxisMatch) (root : OpId) (p : Progress) (t : Turn) : Prop where
  sound : t.progress.Sound root
  edits : ReflTransGen (Edit axes root) p.graph t.progress.graph
  succeeds {e : EditError} {q : Progress} : t ≠ .done (.failed e) q

/-- A turn that dispatches an operation under the root.  A check of the graph after a
reduction finds nothing, so it makes no difference. -/
theorem dispatchTurn_ok {w : Worklist} (hrules : rules.Reduces axes root)
    (hprograms : rules.Programs) (hg : p.graph.Valid root)
    (hw : w.Queues (p.graph.Inside root)) (ho : p.graph.Inside root o) (c : Config) :
    ∃ t, (∀ verify, dispatchTurn { c with verify } rules root p.next o w = .ok t) ∧
      t.Safe axes root p := by
  have htracks : (Observer.worklist (w.mark o .inProgress)).Tracks p.graph root :=
    hw.mark (by decide)
  obtain ⟨x, hx⟩ := ho.live
  obtain ⟨d, hd, -, hsafe⟩ := dispatch_ok hrules hg htracks ho c
  have hd' : ∀ verify, dispatch { c with verify } rules p.graph
      (.worklist (w.mark o .inProgress)) o = .ok d := fun _ => hd
  cases hv : d.verdict with
  | idle =>
    simp only [hv] at hsafe
    refine ⟨.again (p.passed d o (w.mark o .inProgress)), ?_, ⟨?_, ?_⟩, ?_, by simp⟩
    · intro verify
      simp [dispatchTurn, isLive_of_op hx, hd', hv, observer_of_dispatch hd hv, Observer.worklistD,
        Progress.passed]
    · rw [Turn.progress_again, Progress.graph_passed, hsafe]
      exact hg
    · rw [Turn.progress_again, Progress.graph_passed, Progress.worklist_passed, hsafe]
      exact Worklist.Queues.settle htracks
    · rw [Turn.progress_again, Progress.graph_passed, hsafe]
  | failed e =>
    simp only [hv] at hsafe
  | applied name =>
    simp only [hv] at hsafe
    obtain ⟨t, hleads, -, hgraph, hobserver⟩ := hsafe
    have hvalid : d.graph.Valid root := hgraph ▸ hleads.sound.valid
    have hedits : ReflTransGen (Edit axes root) p.graph d.graph := hgraph ▸ hleads.edits
    obtain ⟨w', hw'⟩ := dispatch_worklist hprograms hd
    have htracks' : (Observer.worklist w').Tracks d.graph root := by
      rw [← hw', hobserver, hgraph]
      exact hleads.sound.tracks
    obtain ⟨report, hreport, hok⟩ := hvalid.validate_ok
    have hclean : report.isOk = true := hok.2 ⟨hvalid.visible, hvalid.closed⟩
    refine ⟨.again (p.reduced d o (w.mark o .inProgress)), ?_, ⟨hvalid, ?_⟩, hedits, by simp⟩
    · intro verify
      have hrecord : (p.next.record d).graph = d.graph := rfl
      cases verify with
      | true =>
        simp [dispatchTurn, isLive_of_op hx, hd', hv, hrecord, hreport, hclean, Progress.reduced]
      | false => simp [dispatchTurn, isLive_of_op hx, hd', hv, Progress.reduced]
    · rw [Turn.progress_again, Progress.worklist_reduced, hw']
      exact Worklist.Queues.settle htracks'

/-- Trying operations under the root on a copy of the graph. -/
theorem probe_ok (hrules : rules.Reduces axes root) (hg : g.Valid root) (c : Config) :
    ∀ {ops : List OpId} (p : Progress), (∀ o ∈ ops, g.Inside root o) →
      ∃ e q, (∀ verify, probe { c with verify } rules p g ops = .ok (e, q)) ∧
        ∀ x, e ≠ .failed x
  | [], p, _ => ⟨.settled, p, fun _ => rfl, by simp⟩
  | o :: ops, p, hops => by
      have htracks : Observer.silent.Tracks g root := trivial
      obtain ⟨d, hd, -, hsafe⟩ := dispatch_ok hrules hg htracks (hops o (.head ops)) c
      have hd' : ∀ verify, dispatch { c with verify } rules g .silent o = .ok d := fun _ => hd
      cases hv : d.verdict with
      | idle =>
        simp only [hv] at hsafe
        obtain ⟨e, q, hrest, hne⟩ := probe_ok hrules hg c { p.record d with graph := p.graph }
          fun r hr => hops r (.tail o hr)
        refine ⟨e, q, ?_, hne⟩
        intro verify
        rw [probe, hd' verify, ok_bind]
        simp only [hv, hsafe]
        exact hrest verify
      | applied name =>
        refine ⟨.limited, { p.record d with graph := p.graph }, ?_, by simp⟩
        intro verify
        rw [probe, hd' verify, ok_bind]
        simp only [hv, pure_eq_ok]
      | failed e => simp only [hv] at hsafe

/-- A turn that ends the sweep and changes nothing but what is queued. -/
theorem Turn.Safe.done {e : SweepEnd} (hp : p.Sound root) (he : ∀ x, e ≠ .failed x)
    (hgraph : q.graph = p.graph) (hq : q.worklist.Queues (p.graph.Inside root)) :
    Turn.Safe axes root p (.done e q) := by
  refine ⟨⟨hgraph ▸ hp.valid, hgraph ▸ hq⟩, ?_, ?_⟩
  · show ReflTransGen (Edit axes root) p.graph q.graph
    rw [hgraph]
  · intro x q' heq
    cases heq
    exact he x rfl

theorem limitTurn_ok (hrules : rules.Reduces axes root) (hp : p.Sound root) (c : Config)
    (limit : Limit) :
    ∃ t, (∀ verify, limitTurn { c with verify } rules root p limit = .ok t) ∧
      t.Safe axes root p := by
  cases limit with
  | cap n => exact ⟨_, fun _ => rfl, .done hp nofun rfl hp.queues⟩
  | budget n =>
    by_cases hany : p.worklist.anyQueued = true
    · obtain ⟨ops, hops, -, -, hmem⟩ := hp.valid.linked.nestedOps_ok hp.valid.detached
      obtain ⟨e, q, hprobe, he⟩ := probe_ok hrules hp.valid c p fun o ho => (hmem o).1 ho
      obtain ⟨hgraph, hw, -⟩ := probe_graph (hprobe true)
      refine ⟨.done e q, ?_, .done hp he hgraph (hw ▸ hp.queues)⟩
      intro verify
      rw [limitTurn, if_pos hany, hops, ok_bind, hprobe verify]
      rfl
    · refine ⟨.done .finished p, ?_, .done hp nofun rfl hp.queues⟩
      intro verify
      rw [limitTurn, if_neg hany]
      rfl

theorem turn_ok (hrules : rules.Reduces axes root) (hprograms : rules.Programs)
    (hp : p.Sound root) (c : Config) :
    ∃ t, (∀ verify, turn { c with verify } rules root limit p = .ok t) ∧ t.Safe axes root p := by
  by_cases hstop : p.isStopped c = true
  · refine ⟨.done .stopped p.next, ?_, .done hp (by simp) rfl hp.queues⟩
    intro verify
    rw [turn, if_pos (show p.isStopped { c with verify } = true from hstop)]
    rfl
  have hgo : ∀ verify, ¬p.isStopped { c with verify } = true := fun _ => hstop
  by_cases hlimit : limit.reductions ≤ p.reductions
  · have hnext : p.next.Sound root := ⟨hp.valid, hp.queues⟩
    obtain ⟨t, ht, hsafe⟩ := limitTurn_ok hrules hnext c limit
    refine ⟨t, ?_, hsafe.sound, hsafe.edits, hsafe.succeeds⟩
    intro verify
    rw [turn, if_neg (hgo verify), if_pos hlimit, ht verify]
  cases hpop : p.worklist.pop with
  | none =>
    refine ⟨.done .finished { p.next with worklist := p.worklist.clear }, ?_,
      .done hp (by simp) rfl hp.queues⟩
    intro verify
    rw [turn, if_neg (hgo verify), if_neg hlimit, hpop]
    rfl
  | some next =>
    obtain ⟨o, w⟩ := next
    obtain ⟨ho, hw⟩ := hp.queues.pop hpop
    obtain ⟨t, ht, hsafe⟩ := dispatchTurn_ok hrules hprograms hp.valid hw ho c
    refine ⟨t, ?_, hsafe⟩
    intro verify
    rw [turn, if_neg (hgo verify), if_neg hlimit, hpop]
    exact ht verify

/-! ## Whole runs -/

/-- The second state comes from the first by edits of a function. -/
structure Progress.Leads (axes : Rules.AxisMatch) (root : OpId) (p q : Progress) : Prop where
  sound : q.Sound root
  edits : ReflTransGen (Edit axes root) p.graph q.graph

theorem drain_ok (hrules : rules.Reduces axes root) (hprograms : rules.Programs) {p : Progress}
    (hp : p.Sound root) (c : Config) (limit : Limit) :
    ∃ e q, (∀ verify, drain { c with verify } rules root limit p = .ok (e, q)) ∧
      p.Leads axes root q ∧ ∀ x, e ≠ .failed x := by
  obtain ⟨t, ht, hsafe⟩ := turn_ok hrules hprograms hp c
  cases t with
  | done e q =>
    refine ⟨e, q, ?_, ⟨hsafe.sound, hsafe.edits⟩, ?_⟩
    · intro verify
      rw [drain_eq, ht verify]
      rfl
    · rintro x rfl
      exact hsafe.succeeds rfl
  | again p' =>
    have hless := remaining_lt_of_turn (ht c.verify)
    obtain ⟨e, q, hrest, hleads, he⟩ := drain_ok hrules hprograms hsafe.sound c limit
    refine ⟨e, q, ?_, ⟨hleads.sound, ReflTransGen.trans hsafe.edits hleads.edits⟩, he⟩
    intro verify
    rw [drain_eq, ht verify, ok_bind]
    exact hrest verify
termination_by p.remaining limit
decreasing_by exact hless

theorem sweep_ok (hrules : rules.Reduces axes root) (hprograms : rules.Programs)
    (hp : p.Sound root) (c : Config) :
    ∃ e q, (∀ verify, sweep { c with verify } rules root p = .ok (e, q)) ∧
      p.Leads axes root q ∧ ∀ x, e ≠ .failed x := by
  obtain ⟨ops, hops, -, -, hmem⟩ := hp.valid.linked.nestedOps_ok hp.valid.detached
  have hseed : Progress.Sound root (p.seeded ops) :=
    ⟨hp.valid, hp.queues.queueAll fun o ho => (hmem o).1 (List.mem_reverse.1 ho)⟩
  obtain ⟨e, q, hdrain, hleads, he⟩ :=
    drain_ok hrules hprograms hseed c (p.limit c ops.length)
  refine ⟨e, q, ?_, ⟨hleads.sound, hleads.edits⟩, he⟩
  intro verify
  rw [sweep, hops, ok_bind]
  exact hdrain verify

theorem sweepUpTo_ok (hrules : rules.Reduces axes root) (hprograms : rules.Programs) (c : Config) :
    ∀ (left made : Nat) {p : Progress}, p.Sound root →
      ∃ outcome q, (∀ verify, sweepUpTo { c with verify } rules root left made p =
        .ok ⟨.ok outcome, q⟩) ∧ p.Leads axes root q
  | 0, made, p, hp => ⟨_, p, fun _ => rfl, hp, .refl⟩
  | left + 1, made, p, hp => by
      obtain ⟨e, q, hsweep, hleads, he⟩ := sweep_ok hrules hprograms hp c
      have hrun := fun verify => sweepUpTo_succ left made (hsweep verify)
      cases e with
      | failed x => exact absurd rfl (he x)
      | limited | settled | stopped => exact ⟨_, q, hrun, hleads⟩
      | finished =>
        dsimp only at hrun
        split at hrun
        · exact ⟨_, q, hrun, hleads⟩
        · obtain ⟨outcome, q', hrest, hleads'⟩ :=
            sweepUpTo_ok hrules hprograms c left (made + 1) hleads.sound
          refine ⟨outcome, q', ?_, hleads'.sound, hleads.edits.trans hleads'.edits⟩
          intro verify
          rw [hrun verify, hrest verify]

/-- The states that the pass goes through hold valid functions. -/
theorem Progress.Visited.sound (hrules : rules.Reduces axes root) (hprograms : rules.Programs)
    (hg : g.Valid root) (h : Visited c rules root g p) : p.Sound root := by
  induction h with
  | start =>
    refine ⟨hg, ?_⟩
    intro o ho
    have hnone : Worklist.empty.status o = .queued := ho
    rw [Worklist.status_empty] at hnone
    cases hnone
  | seed _ hops ih =>
    obtain ⟨ops, hops', -, -, hmem⟩ := ih.valid.linked.nestedOps_ok ih.valid.detached
    rw [hops] at hops'
    cases hops'
    exact ⟨ih.valid, ih.queues.queueAll fun o ho => (hmem o).1 (List.mem_reverse.1 ho)⟩
  | again _ ht ih =>
    obtain ⟨t, ht', hsafe⟩ := turn_ok hrules hprograms ih c
    rw [ht' c.verify] at ht
    cases ht
    exact hsafe.sound
  | done _ ht ih =>
    obtain ⟨t, ht', hsafe⟩ := turn_ok hrules hprograms ih c
    rw [ht' c.verify] at ht
    cases ht
    exact hsafe.sound

/-- The pass ends without a fault, in a state that edits of a function lead to. -/
theorem Pass.run_ok (p : Pass) (hg : g.Valid root) :
    ∃ result q, (∀ verify, Pass.run { p with config := { p.config with verify } } g root =
        .ok (result, q.graph)) ∧ (∀ e, result ≠ .error (.refused e)) ∧
      q.Sound root ∧ ReflTransGen (Edit p.axisMatch root) g q.graph ∧
      Progress.Visited p.config p.rules root g q := by
  have hstart : (Progress.start g).Sound root :=
    (Progress.Visited.start (c := p.config)).sound p.rules_reduce p.rules_programs hg
  obtain ⟨outcome, q, hrun, hleads⟩ :=
    sweepUpTo_ok p.rules_reduce p.rules_programs p.config p.config.maxSweeps 0 hstart
  have hsimplify : ∀ verify, g.simplify root p.rules { p.config with verify } =
      .ok ⟨.ok outcome, q⟩ := hrun
  have hvisited : Progress.Visited p.config p.rules root g q :=
    .simplify (hsimplify p.config.verify)
  obtain ⟨report, hreport, hok⟩ := hleads.sound.valid.validate_ok
  have hclean : report.isOk = true := hok.2 ⟨hleads.sound.valid.visible, hleads.sound.valid.closed⟩
  have hrules : ∀ verify, Pass.rules { p with config := { p.config with verify } } = p.rules :=
    fun _ => rfl
  have hrequire : q.graph.requireValid root "quantum-hx" = .ok () := by
    simp [requireValid, hreport, hclean]
  cases hstatus : outcome.status with
  | converged =>
    refine ⟨.ok ⟨outcome.sweeps, outcome.reductions⟩, q, ?_, nofun, hleads.sound, hleads.edits,
      hvisited⟩
    intro verify
    simp [run, hrules, hsimplify, hstatus, hrequire]
  | stopped =>
    refine ⟨.error (.stopped outcome.reductions), q, ?_, nofun, hleads.sound, hleads.edits,
      hvisited⟩
    intro verify
    simp [run, hrules, hsimplify, hstatus]
  | sweepLimit | budgetSpent =>
    refine ⟨.error (.unfinished outcome), q, ?_, nofun, hleads.sound, hleads.edits, hvisited⟩
    intro verify
    simp [run, hrules, hsimplify, hstatus]

/-- The pass takes a function through functions only: every state it goes through holds a
function that passes its checks.  So it ends without a fault and is never refused a
reduction, whatever ends it, and checking after every reduction changes nothing. -/
theorem Pass.run_valid (p : Pass) (h : g.Function root) :
    (∀ q, Progress.Visited p.config p.rules root g q → q.graph.Function root) ∧
      ∃ result g', p.run g root = .ok (result, g') ∧ (∀ e, result ≠ .error (.refused e)) ∧
        g'.Function root ∧
        ∀ verify, Pass.run { p with config := { p.config with verify } } g root =
          .ok (result, g') := by
  have hfunction : ∀ q, Progress.Visited p.config p.rules root g q → q.graph.Function root := by
    intro q hq
    exact (hq.sound p.rules_reduce p.rules_programs h.valid).valid.function
      (hq.reachable p.rules_programs h.built)
  obtain ⟨result, q, hrun, hresult, -, -, hvisited⟩ := p.run_ok h.valid
  exact ⟨hfunction, result, q.graph, hrun p.config.verify, hresult, hfunction q hvisited, hrun⟩

theorem Pass.run_valid_pair : pairGraph.Function ⟨3⟩ ∧ ∃ result g',
    Pass.run {} pairGraph ⟨3⟩ = .ok (result, g') ∧ g'.Function ⟨3⟩ := by
  obtain ⟨-, result, g', hrun, -, hg', -⟩ := Pass.run_valid {} pairGraph_function
  exact ⟨pairGraph_function, result, g', hrun, hg'⟩

end Peephole
