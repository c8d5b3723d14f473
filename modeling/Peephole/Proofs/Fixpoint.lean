import Peephole.Proofs.Marks
import Peephole.Proofs.Quiet
import Peephole.Proofs.Safety

/-!
# Fixpoints

An operation is *idle* in a graph if dispatching it does nothing, whoever is told.  A graph
is *settled* under a root if every operation nested in the root is idle.

For rules that leave the graph alone where they do not apply, a run that converges leaves a
settled graph (`sweepUpTo_settled`): a sweep without a reduction has dispatched all it had
queued on one and the same graph, and a spent budget ends in convergence only after every
operation was tried.  A run on a settled graph takes one sweep, makes no reduction and
leaves the graph as it is (`Graph.Settled.simplify_ok`).
-/

namespace Peephole

variable {c : Config} {rules : RuleSet} {root o : OpId} {limit : Limit} {g : Graph}
  {p q : Progress}

/-! ## Idle operations -/

/-- The rule edits the graph through its session only, and if it tells nobody of a change
it leaves the graph alone and does not ask to stop. -/
structure Rule.Clean (r : Rule) : Prop where
  program (o : OpId) : (r.apply o).Program fun _ => True
  untouched {o : OpId} {s t : Session} {m : Match} : (r.apply o).runOn s = .ok (.ok m, t) →
    t.mutated = false → t.graph = s.graph ∧ t.stopRequested = s.stopRequested

/-- Every rule is clean. -/
def RuleSet.Clean (rules : RuleSet) : Prop := ∀ r ∈ rules.rules, r.Clean

theorem RuleSet.Clean.programs (h : rules.Clean) : rules.Programs :=
  fun r hr o => (h r hr).program o

/-- Dispatching the operation does nothing, whoever is told. -/
def Graph.Idle (g : Graph) (c : Config) (rules : RuleSet) (o : OpId) : Prop :=
  ∀ observer, ∃ calls, dispatch c rules g observer o = .ok ⟨g, observer, false, calls, .idle⟩

/-- Every operation under the root is idle. -/
def Graph.Settled (g : Graph) (c : Config) (rules : RuleSet) (root : OpId) : Prop :=
  ∃ ops, g.nestedOps root = .ok ops ∧ ∀ o ∈ ops, g.Idle c rules o

/-- Clean rules that did nothing once do nothing again. -/
theorem tryRules_idle {observer : Observer} {calls : List Call} {d : Dispatched} {rs : List Rule}
    (hrs : ∀ r ∈ rs, r.Clean) (h : tryRules observer o g false calls rs = .ok d)
    (hd : d.verdict = .idle) (observer' : Observer) (calls' : List Call) :
    ∃ called, tryRules observer' o g false calls' rs =
      .ok ⟨g, observer', false, called, .idle⟩ := by
  induction rs generalizing calls calls' with
  | nil => exact ⟨calls', rfl⟩
  | cons r rs ih =>
    rw [tryRules, bind_eq_ok] at h
    obtain ⟨⟨answer, s⟩, hrun, h⟩ := h
    have hr := hrs r (.head rs)
    dsimp only at h
    split at h
    · cases h
      cases hd
    · cases h
      cases hd
    · cases h
      cases hd
    · rename_i m hmutated
      obtain ⟨hgraph, hstop⟩ := hr.untouched hrun hmutated
      obtain ⟨-, -, hagain⟩ := (hr.program o).quiet hrun hmutated hstop
      have hobserver : s.observer = observer := (r.discreet o hrun hmutated).2
      rw [hgraph, hstop, hobserver] at h
      obtain ⟨called, hrest⟩ := ih (fun r' hr' => hrs r' (.tail r hr')) h
        (calls' ++ [⟨r.name, o, .ok m⟩])
      refine ⟨called, ?_⟩
      rw [tryRules, hagain observer' false false, hgraph, ok_bind]
      cases m with
      | applied => exact hrest
      | noMatch => exact hrest

/-- An operation that is not erased or folded is offered to the rules. -/
theorem dispatch_eq_tryRules {observer : Observer} {x : Op} {n : Nat} (hx : g.op o = .ok x)
    (hn : g.totalUses o = .ok n)
    (hdead : ¬(c.removeDead = true ∧ x.kind.isPure = true ∧ n = 0))
    (hfold : c.fold = true → g.foldedSum? o = .ok none) :
    dispatch c rules g observer o = tryRules observer o g false [] (rules.rulesFor x.kind) := by
  have hkind : g.kind o = .ok x.kind := by simp [Graph.kind, hx]
  simp only [dispatch, hkind, hn, ok_bind]
  rw [if_neg (by simpa [and_assoc] using hdead)]
  split
  · rename_i hc
    rw [EditM.runOn_fold_none (s := { graph := g, observer }) (hfold hc)]
    rfl
  · rfl

/-- An operation that was dispatched in vain is idle. -/
theorem idle_of_dispatch {observer : Observer} {d : Dispatched} (hrules : rules.Clean)
    (h : dispatch c rules g observer o = .ok d) (hd : d.verdict = .idle) : g.Idle c rules o := by
  have hfor : ∀ k, ∀ r ∈ rules.rulesFor k, r.Clean :=
    fun k r hr => hrules r (RuleSet.mem_rulesFor.1 hr).1
  obtain ⟨x, n, hx, hn, ⟨-, answer, s, -, rfl⟩ | ⟨hdead, ⟨-, answer, s, hrun, h⟩ | ⟨hc, h⟩⟩⟩ :=
    dispatch_cases h
  · cases answer with
    | ok _ => cases hd
    | error e => cases hd
  · split at h
    · subst h
      cases hd
    · subst h
      cases hd
    · have hsum := EditM.runOn_fold_false hrun
      intro observer'
      rw [dispatch_eq_tryRules hx hn hdead fun _ => hsum]
      exact tryRules_idle (hfor x.kind) h hd observer' []
  · intro observer'
    rw [dispatch_eq_tryRules hx hn hdead fun hc' => by rw [hc] at hc'; cases hc']
    exact tryRules_idle (hfor x.kind) h hd observer' []

/-! ## Sweeps that change nothing -/

/-- Trying operations on a copy ends well only if all of them are idle. -/
theorem probe_idle {copy : Graph} {ops : List OpId} {e : SweepEnd} (hrules : rules.Clean)
    (h : probe c rules p copy ops = .ok (e, q)) :
    e = .limited ∨ (∃ x, e = .failed x) ∨ e = .settled ∧ ∀ o ∈ ops, copy.Idle c rules o := by
  induction ops generalizing p with
  | nil =>
    cases h
    exact .inr (.inr ⟨rfl, nofun⟩)
  | cons o ops ih =>
    rw [probe, bind_eq_ok] at h
    obtain ⟨d, hd, h⟩ := h
    dsimp only at h
    split at h
    · rename_i hv
      have hidle := idle_of_dispatch hrules hd hv
      obtain ⟨calls, hd'⟩ := hidle .silent
      rw [hd] at hd'
      cases hd'
      refine (ih h).imp_right (Or.imp_right fun hrest => ⟨hrest.1, ?_⟩)
      exact List.forall_mem_cons.2 ⟨hidle, hrest.2⟩
    · cases h
      exact .inl rfl
    · cases h
      exact .inr (.inl ⟨_, rfl⟩)

/-- A sweep that has run out of operations leaves none waiting, unless a cap ended it. -/
theorem turn_finished (hrules : rules.Clean)
    (h : turn c rules root limit p = .ok (.done .finished q)) :
    q.graph = p.graph ∧ q.reductions = p.reductions ∧
      ((∃ n, limit = .cap n ∧ n ≤ p.reductions) ∨ ∀ o, ¬p.worklist.Waits o) := by
  rcases turn_cases h with ht | ⟨hlimit, h⟩ | ⟨hpop, ht⟩ | ⟨o, w, -, h⟩
  · cases ht
  · rcases limitTurn_cases h with ⟨n, rfl, ht⟩ | ⟨hany, ht⟩ | ⟨ops, e, q, -, hprobe, ht⟩
    · cases ht
      exact ⟨rfl, rfl, .inl ⟨n, rfl, hlimit⟩⟩
    · cases ht
      refine ⟨rfl, rfl, .inr fun o ho => ?_⟩
      rw [Progress.worklist_next, ho.anyQueued] at hany
      cases hany
    · cases ht
      rcases probe_idle hrules hprobe with he | ⟨x, he⟩ | ⟨he, -⟩
      · cases he
      · cases he
      · cases he
  · cases ht
    exact ⟨rfl, rfl, .inr fun o ho => ho.pop_ne_none hpop⟩
  · obtain ⟨x, hx⟩ := dispatchTurn_done h
    cases hx

/-- A sweep that ends with a spent budget and nothing to do has tried everything. -/
theorem turn_settled (hrules : rules.Clean)
    (h : turn c rules root limit p = .ok (.done .settled q)) : q.graph.Settled c rules root := by
  rcases turn_cases h with ht | ⟨-, h⟩ | ⟨-, ht⟩ | ⟨o, w, -, h⟩
  · cases ht
  · rcases limitTurn_cases h with ⟨n, -, ht⟩ | ⟨-, ht⟩ | ⟨ops, e, q, hops, hprobe, ht⟩
    · cases ht
    · cases ht
    · cases ht
      rw [(probe_graph hprobe).1]
      rcases probe_idle hrules hprobe with he | ⟨x, he⟩ | ⟨-, hidle⟩
      · cases he
      · cases he
      · exact ⟨ops, hops, hidle⟩
  · cases ht
  · obtain ⟨x, hx⟩ := dispatchTurn_done h
    cases hx

/-- The count of reductions never goes down. -/
theorem drain_reductions (hrules : rules.Clean) {p : Progress}
    (h : drain c rules root limit p = .ok (.finished, q)) : p.reductions ≤ q.reductions := by
  rw [drain_eq, bind_eq_ok] at h
  obtain ⟨t, ht, h⟩ := h
  cases t with
  | done e p' =>
    cases h
    exact Nat.le_of_eq (turn_finished hrules ht).2.1.symm
  | again p' =>
    have hrest := drain_reductions hrules h
    obtain ⟨o, w, d, -, -, ⟨-, rfl⟩ | ⟨name, -, rfl⟩⟩ := turn_again ht
    · exact hrest
    · rw [Progress.reductions_reduced] at hrest
      omega
termination_by p.remaining limit
decreasing_by exact remaining_lt_of_turn ht

/-- A sweep that makes no reduction dispatches every operation that waits, always on the
same graph. -/
theorem drain_finished (hrules : rules.Clean) {ops : List OpId} {n : Nat} {p : Progress}
    (h : drain c rules root limit p = .ok (.finished, q)) (hgraph : p.graph = g)
    (hp : p.reductions = n) (hq : q.reductions = n) (hlimit : ∀ m, limit = .cap m → n < m)
    (hops : ∀ o ∈ ops, g.Idle c rules o ∨ p.worklist.Waits o) :
    q.graph = g ∧ ∀ o ∈ ops, g.Idle c rules o := by
  rw [drain_eq, bind_eq_ok] at h
  obtain ⟨t, ht, h⟩ := h
  cases t with
  | done e p' =>
    cases h
    obtain ⟨hgraph', -, hend⟩ := turn_finished hrules ht
    refine ⟨hgraph'.trans hgraph, fun o ho => (hops o ho).resolve_right ?_⟩
    rcases hend with ⟨m, hm, hle⟩ | hnone
    · have hlt := hlimit m hm
      omega
    · exact hnone o
  | again p' =>
    have hdrain : drain c rules root limit p' = .ok (.finished, q) := h
    obtain ⟨o, w, d, hpop, hd, ⟨hv, hp'⟩ | ⟨name, -, hp'⟩⟩ := turn_again ht
    · rw [hgraph] at hd
      have hidle := idle_of_dispatch hrules hd hv
      obtain ⟨calls, hd'⟩ := hidle (.worklist (w.mark o .inProgress))
      rw [hd, Except.ok.injEq] at hd'
      refine drain_finished hrules hdrain (by rw [hp', hd']; rfl) (by rw [hp']; exact hp) hq
        hlimit ?_
      intro o' ho'
      by_cases heq : o = o'
      · exact .inl (heq ▸ hidle)
      · refine (hops o' ho').imp_right fun hwaits => ?_
        have hw := (hwaits.pop hpop).resolve_left (Ne.symm heq)
        rw [hp', Progress.worklist_passed]
        exact (hw.mark heq .inProgress).settle o
    · have hrest := drain_reductions hrules hdrain
      rw [hp', Progress.reductions_reduced] at hrest
      omega
termination_by p.remaining limit
decreasing_by exact remaining_lt_of_turn ht

theorem drain_settled (hrules : rules.Clean) {p : Progress}
    (h : drain c rules root limit p = .ok (.settled, q)) : q.graph.Settled c rules root := by
  rw [drain_eq, bind_eq_ok] at h
  obtain ⟨t, ht, h⟩ := h
  cases t with
  | done e p' =>
    cases h
    exact turn_settled hrules ht
  | again p' => exact drain_settled hrules h
termination_by p.remaining limit
decreasing_by exact remaining_lt_of_turn ht

/-! ## Runs that converge -/

theorem Progress.lt_limit {n seeded : Nat} (h : p.limit c seeded = .cap n) : p.reductions < n := by
  rw [Progress.limit] at h
  split at h
  · cases h
  · cases h
    have hpos : 0 < max seeded 1 * sweepFactor :=
      Nat.mul_pos (Nat.lt_of_lt_of_le Nat.one_pos (Nat.le_max_right seeded 1)) (by decide)
    omega

/-- A sweep that makes no reduction leaves a settled graph. -/
theorem sweep_finished (hrules : rules.Clean) (hp : p.worklist.Marks p.graph.Gone)
    (h : sweep c rules root p = .ok (.finished, q)) (hq : q.reductions = p.reductions) :
    q.graph.Settled c rules root := by
  rw [sweep, bind_eq_ok] at h
  obtain ⟨ops, hops, h⟩ := h
  obtain ⟨hgraph, hidle⟩ := drain_finished hrules h rfl rfl hq (fun m hm => Progress.lt_limit hm)
    fun o ho => .inr (Progress.waits_seed hp hops ho)
  rw [hgraph]
  exact ⟨ops, hops, hidle⟩

theorem sweepUpTo_settled (hrules : rules.Clean) {r : RunResult} {outcome : Outcome}
    (hr : r.outcome = .ok outcome) (hstatus : outcome.status = .converged) :
    ∀ {left made : Nat} {p : Progress}, Progress.Visited c rules root g p →
      sweepUpTo c rules root left made p = .ok r → r.progress.graph.Settled c rules root
  | 0, made, p, hp, h => by
      cases h
      cases hr
      cases hstatus
  | left + 1, made, p, hp, h => by
      obtain ⟨⟨e, q⟩, hsweep, -⟩ := bind_eq_ok.1 h
      rw [sweepUpTo_succ left made hsweep] at h
      cases e with
      | finished =>
        dsimp only at h
        split at h
        · rename_i hq
          cases h
          exact sweep_finished hrules (hp.marks hrules.programs) hsweep hq
        · exact sweepUpTo_settled hrules hr hstatus (hp.sweep hsweep) h
      | settled =>
        cases h
        obtain ⟨ops, -, hdrain⟩ := bind_eq_ok.1 hsweep
        exact drain_settled hrules hdrain
      | limited | stopped =>
        cases h
        cases hr
        cases hstatus
      | failed e =>
        cases h
        cases hr

/-! ## Runs on settled graphs -/

section Settled

variable {ops : List OpId}

theorem probe_settled {copy : Graph} (h : ∀ o ∈ ops, copy.Idle c rules o) :
    ∃ q, probe c rules p copy ops = .ok (.settled, q) := by
  induction ops generalizing p with
  | nil => exact ⟨p, rfl⟩
  | cons o ops ih =>
    obtain ⟨calls, hd⟩ := h o (.head ops) .silent
    rw [probe, hd, ok_bind]
    exact ih fun o' ho' => h o' (.tail o ho')

variable (hops : g.nestedOps root = .ok ops) (hidle : ∀ o ∈ ops, g.Idle c rules o)
  (hflag : c.Unraised)
include hops hidle hflag

/-- A turn on a settled graph ends the sweep well, or looks at an operation in vain. -/
theorem turn_of_settled (limit : Limit) (hgraph : p.graph = g) (hstop : p.stopRequested = false)
    (hqueues : p.worklist.Queues (· ∈ ops)) :
    (∃ e q, turn c rules root limit p = .ok (.done e q) ∧ (e = .finished ∨ e = .settled) ∧
      q.graph = g ∧ q.reductions = p.reductions) ∨
    ∃ q, turn c rules root limit p = .ok (.again q) ∧ q.graph = g ∧ q.reductions = p.reductions ∧
      q.stopRequested = false ∧ q.worklist.Queues (· ∈ ops) := by
  subst hgraph
  rw [turn, if_neg (by simp [hflag.isStopped hstop])]
  split
  · left
    rw [limitTurn.eq_def]
    split
    · exact ⟨.finished, _, rfl, .inl rfl, rfl, rfl⟩
    · split
      · obtain ⟨q, hprobe⟩ := probe_settled (p := p.next) hidle
        obtain ⟨hgraph, -, hreductions⟩ := probe_graph hprobe
        refine ⟨.settled, q, ?_, .inr rfl, hgraph, hreductions⟩
        simp [hops, hprobe]
      · exact ⟨.finished, _, rfl, .inl rfl, rfl, rfl⟩
  · split
    · exact .inl ⟨.finished, _, rfl, .inl rfl, rfl, rfl⟩
    · rename_i o w hpop
      obtain ⟨ho, hw⟩ := hqueues.pop hpop
      obtain ⟨x, hx⟩ := Graph.live_of_nestedOps hops ho
      obtain ⟨calls, hd⟩ := hidle o ho (.worklist (w.mark o .inProgress))
      have hturn : dispatchTurn c rules root p.next o w = .ok (.again (p.passed
          ⟨p.graph, .worklist (w.mark o .inProgress), false, calls, .idle⟩ o
          (w.mark o .inProgress))) := by
        simp [dispatchTurn, Graph.isLive_of_op hx, hd, Progress.passed, Observer.worklistD]
      refine .inr ⟨_, hturn, Progress.graph_passed, Progress.reductions_passed, ?_, ?_⟩
      · simp [Progress.passed, Progress.record, Progress.next, hstop]
      · rw [Progress.worklist_passed]
        exact (hw.mark (by decide)).settle

theorem drain_of_settled (limit : Limit) {p : Progress} (hgraph : p.graph = g)
    (hstop : p.stopRequested = false) (hqueues : p.worklist.Queues (· ∈ ops)) :
    ∃ e q, drain c rules root limit p = .ok (e, q) ∧ (e = .finished ∨ e = .settled) ∧
      q.graph = g ∧ q.reductions = p.reductions := by
  rw [drain_eq]
  rcases turn_of_settled hops hidle hflag limit hgraph hstop hqueues with
    ⟨e, q, ht, he, hq, hn⟩ | ⟨p', ht, hgraph', hn', hstop', hqueues'⟩
  · exact ⟨e, q, by rw [ht]; rfl, he, hq, hn⟩
  · obtain ⟨e, q, hdrain, he, hq, hn⟩ := drain_of_settled limit hgraph' hstop' hqueues'
    exact ⟨e, q, by rw [ht]; exact hdrain, he, hq, hn.trans hn'⟩
termination_by p.remaining limit
decreasing_by exact remaining_lt_of_turn ht

/-- Sweeps of a settled graph stop after the first one, which changes nothing. -/
theorem sweepUpTo_of_settled (left made : Nat) {p : Progress} (hgraph : p.graph = g)
    (hstop : p.stopRequested = false) (hqueues : p.worklist.Queues (· ∈ ops)) :
    ∃ q, sweepUpTo c rules root (left + 1) made p =
        .ok ⟨.ok ⟨.converged, made + 1, p.reductions⟩, q⟩ ∧
      q.graph = g ∧ q.reductions = p.reductions := by
  subst hgraph
  have hseed : (p.worklist.queueAll ops.reverse).Queues (· ∈ ops) :=
    hqueues.queueAll fun o ho => List.mem_reverse.1 ho
  obtain ⟨e, q, hdrain, he, hgraph, hn⟩ :=
    drain_of_settled (p := p.seeded ops)
      hops hidle hflag (p.limit c ops.length) rfl hstop hseed
  have hsweep : sweep c rules root p = .ok (e, q) := by
    rw [sweep, hops]
    exact hdrain
  refine ⟨q, ?_, hgraph, hn⟩
  have hsame : q.reductions = p.reductions := hn
  rw [sweepUpTo_succ left made hsweep]
  rcases he with rfl | rfl
  · simp [hsame]
  · simp [hsame]

end Settled

/-- A run on a settled graph takes one sweep and changes nothing. -/
theorem Graph.Settled.simplify_ok (h : g.Settled c rules root) (hsweeps : c.maxSweeps ≠ 0)
    (hflag : c.Unraised) :
    ∃ q, g.simplify root rules c = .ok ⟨.ok ⟨.converged, 1, 0⟩, q⟩ ∧ q.graph = g := by
  obtain ⟨ops, hops, hidle⟩ := h
  obtain ⟨left, hleft⟩ := Nat.exists_eq_succ_of_ne_zero hsweeps
  have hempty : Worklist.empty.Queues (· ∈ ops) := by
    intro o ho
    rw [Worklist.status_empty] at ho
    cases ho
  obtain ⟨q, hrun, hgraph, -⟩ :=
    sweepUpTo_of_settled (p := .start g) hops hidle hflag left 0 rfl rfl hempty
  refine ⟨q, ?_, hgraph⟩
  rw [Graph.simplify, hleft]
  exact hrun

/-- A run that converges leaves a graph in which nothing applies under the root.  Another
run with the same settings that nobody stops takes one sweep, makes no reduction and leaves
the graph as it is. -/
theorem Graph.simplify_fixpoint (hrules : rules.Clean) {r : RunResult} {sweeps reductions : Nat}
    (h : g.simplify root rules c = .ok r)
    (hr : r.outcome = .ok ⟨.converged, sweeps, reductions⟩) :
    r.progress.graph.Settled c rules root ∧ ∀ flag, Config.Unraised { c with stopFlag := flag } →
      ∃ q, r.progress.graph.simplify root rules { c with stopFlag := flag } =
          .ok ⟨.ok ⟨.converged, 1, 0⟩, q⟩ ∧ q.graph = r.progress.graph := by
  have hsettled := sweepUpTo_settled hrules hr rfl .start h
  refine ⟨hsettled, fun flag hflag => ?_⟩
  have hsweeps : c.maxSweeps ≠ 0 := by
    intro hzero
    rw [Graph.simplify, hzero] at h
    cases h
    cases hr
  have hsame : r.progress.graph.Settled { c with stopFlag := flag } rules root := hsettled
  exact hsame.simplify_ok hsweeps hflag

/-! ## The pass -/

/-- The rule asks a question first.  It does nothing if the answer is none, and makes a change
that somebody is told of if it succeeds with another answer. -/
def Rule.Asks {α : Type} (r : Rule) (question : OpId → Graph → Except Fault (Option α)) : Prop :=
  ∀ o, ∃ f, r.apply o = (EditM.ask (question o) >>= f) ∧ f none = pure .noMatch ∧
    ∀ a, (f (some a)).Tells

namespace Rule.Asks

variable {α : Type} {r : Rule} {question : OpId → Graph → Except Fault (Option α)} {s t : Session}
  {m : Match}

theorem noMatch (h : r.Asks question) (hnone : question o s.graph = .ok none) :
    (r.apply o).runOn s = .ok (.ok .noMatch, s) := by
  obtain ⟨f, happly, hf, -⟩ := h o
  rw [happly, EditM.runOn_ask_bind, hnone, ok_bind, hf]
  rfl

theorem mutated (h : r.Asks question) {a : α} (hsome : question o s.graph = .ok (some a))
    (hrun : (r.apply o).runOn s = .ok (.ok m, t)) : t.mutated = true := by
  obtain ⟨f, happly, -, htells⟩ := h o
  rw [happly, EditM.runOn_ask_bind, hsome, ok_bind] at hrun
  exact htells a hrun

theorem untouched (h : r.Asks question) (hrun : (r.apply o).runOn s = .ok (.ok m, t))
    (hmutated : t.mutated = false) : t.graph = s.graph ∧ t.stopRequested = s.stopRequested := by
  obtain ⟨f, happly, hf, htells⟩ := h o
  rw [happly, EditM.runOn_ask_bind, bind_eq_ok] at hrun
  obtain ⟨answer, -, hrun⟩ := hrun
  cases answer with
  | none =>
    rw [hf] at hrun
    cases hrun
    exact ⟨rfl, rfl⟩
  | some a =>
    rw [htells a hrun] at hmutated
    cases hmutated

end Rule.Asks

namespace Rules

theorem hadamardPair_asks :
    hadamardPair.Asks fun o g => (do exclusiveGate? g (← g.gateQubit o) .hadamard o) :=
  fun _ => ⟨_, rfl, rfl, fun _ => .bind fun _ => .bind fun _ => .bind fun _ => .bind fun _ =>
    .erase _ _⟩

theorem hadamardConjugation_asks : hadamardConjugation.Asks fun o g => conjugatedX? g o :=
  fun _ => ⟨_, rfl, rfl, fun _ => .bind fun _ => .bind fun _ => .bind fun _ => .bind fun _ =>
    .bind fun _ => .bind fun _ => .bind fun _ => .erase _ _⟩

theorem fuseRotations_asks (axes : AxisMatch) :
    (fuseRotations axes).Asks fun o g => fusible? axes g o :=
  fun _ => ⟨_, rfl, rfl, fun _ => .bind fun _ => .bind fun _ => .bind fun _ => .bind fun _ =>
    .bind fun _ => .bind fun _ => .bind fun _ => .erase _ _⟩

end Rules

theorem Pass.rules_clean (p : Pass) : p.rules.Clean := by
  intro r hr
  refine ⟨p.rules_programs r hr, ?_⟩
  rcases p.mem_rules.1 hr with rfl | rfl | rfl
  · exact Rules.hadamardPair_asks.untouched
  · exact Rules.hadamardConjugation_asks.untouched
  · exact (Rules.fuseRotations_asks p.axisMatch).untouched

/-! ## Evaluating a sweep -/

namespace RuleList

theorem benefit_trans (a b c : Rule) : decide (b.benefit ≤ a.benefit) = true →
    decide (c.benefit ≤ b.benefit) = true → decide (c.benefit ≤ a.benefit) = true := by
  simp only [decide_eq_true_eq]
  omega

theorem benefit_total (a b : Rule) :
    (decide (b.benefit ≤ a.benefit) || decide (a.benefit ≤ b.benefit)) = true := by
  simp only [Bool.or_eq_true, decide_eq_true_eq]
  omega

variable (rs : RuleList)

/-- Puts a rule into a table, before the first one that has no more benefit. -/
def rankIn (i : Fin rs.rules.length) : List (Fin rs.rules.length) → List (Fin rs.rules.length)
  | [] => [i]
  | j :: table => if rs.outranks i j then i :: j :: table else j :: rankIn i table

theorem rankIn_append {i : Fin rs.rules.length} {above below : List (Fin rs.rules.length)}
    (habove : ∀ j ∈ above, rs.outranks i j = false)
    (hbelow : ∀ j ∈ below, rs.outranks i j = true) :
    rs.rankIn i (above ++ below) = above ++ i :: below := by
  induction above with
  | nil =>
    cases below with
    | nil => rfl
    | cons j below => rw [List.nil_append, rankIn, if_pos (hbelow j (.head _))]; rfl
  | cons j above ih =>
    rw [List.cons_append, rankIn, if_neg (by simp [habove j (.head _)]),
      ih fun k hk => habove k (.tail j hk), List.cons_append]

/-- A table is sorted by putting its rules in one after the other, from the last one on. -/
theorem mergeSort_eq_foldr (table : List (Fin rs.rules.length)) :
    table.mergeSort rs.outranks = table.foldr rs.rankIn [] := by
  have htrans : ∀ i j k, rs.outranks i j = true → rs.outranks j k = true →
      rs.outranks i k = true := fun _ _ _ => benefit_trans _ _ _
  have htotal : ∀ i j, (rs.outranks i j || rs.outranks j i) = true := fun _ _ =>
    benefit_total _ _
  induction table with
  | nil => simp
  | cons i table ih =>
    obtain ⟨above, below, hsort, hrest, habove⟩ := List.mergeSort_cons htrans htotal i table
    have hsorted := List.pairwise_mergeSort htrans htotal (i :: table)
    rw [hsort] at hsorted ⊢
    have hbelow := (List.pairwise_cons.1 (List.pairwise_append.1 hsorted).2.1).1
    rw [List.foldr_cons, ← ih, hrest, rs.rankIn_append (by simpa using habove) hbelow]

/-- The tables, sorted in a way that can be evaluated. -/
def ranks : Vector (List (Fin rs.rules.length)) Kind.count :=
  rs.entered.map fun table => table.foldr rs.rankIn []

theorem tables_freeze : rs.freeze.tables = rs.ranks := by
  simp only [freeze, ranks, mergeSort_eq_foldr]

theorem mem_ranks (k : Kind) (i : Fin rs.rules.length) :
    i ∈ rs.ranks.get k.place ↔ (rs.rules.get i).root = k := by
  rw [← tables_freeze]
  exact rs.freeze.mem_tables k i

theorem freeze_eq : rs.freeze = ⟨rs.rules, rs.ranks, rs.mem_ranks⟩ := by
  simp only [freeze, ranks, mergeSort_eq_foldr]

end RuleList

/-- Takes at most `n` turns, and says nothing if the sweep has not ended by then. -/
def drainWithin (c : Config) (rules : RuleSet) (root : OpId) (limit : Limit) :
    (n : Nat) → Progress → Option (SweepEnd × Progress)
  | 0, _ => none
  | n + 1, p =>
      match turn c rules root limit p with
      | .error _ => none
      | .ok (.done e q) => some (e, q)
      | .ok (.again q) => drainWithin c rules root limit n q

theorem drain_of_within {e : SweepEnd} {n : Nat}
    (h : drainWithin c rules root limit n p = some (e, q)) :
    drain c rules root limit p = .ok (e, q) := by
  induction n generalizing p with
  | zero => cases h
  | succ n ih =>
    rw [drain_eq]
    rw [drainWithin] at h
    split at h
    · cases h
    · rename_i ht
      cases h
      rw [ht]
      rfl
    · rename_i ht
      rw [ht]
      exact ih h

theorem sweep_of_within {e : SweepEnd} {n : Nat} {ops : List OpId}
    (hops : p.graph.nestedOps root = .ok ops)
    (h : drainWithin c rules root (p.limit c ops.length) n (p.seeded ops) = some (e, q)) :
    sweep c rules root p = .ok (e, q) := by
  rw [sweep, hops]
  exact drain_of_within h

/-- A sweep of at most `n` turns. -/
def sweepWithin (c : Config) (rules : RuleSet) (root : OpId) (n : Nat) (p : Progress) :
    Option (SweepEnd × Progress) :=
  match p.graph.nestedOps root with
  | .error _ => none
  | .ok ops => drainWithin c rules root (p.limit c ops.length) n (p.seeded ops)

theorem sweep_of_sweepWithin {e : SweepEnd} {n : Nat}
    (h : sweepWithin c rules root n p = some (e, q)) : sweep c rules root p = .ok (e, q) := by
  rw [sweepWithin] at h
  split at h
  · cases h
  · rename_i hops
    exact sweep_of_within hops h

/-- The pass cancels a pair of Hadamard gates with a budget of one reduction, and finds that
nothing else applies. -/
theorem simplify_pair : ∃ p, Graph.pairGraph.simplify ⟨3⟩ (Pass.rules {}) { budget := some 1 } =
    .ok ⟨.ok ⟨.converged, 1, 1⟩, p⟩ := by
  have hends : (sweepWithin { budget := some 1 } (Pass.rules {}) ⟨3⟩ 5
      (.start Graph.pairGraph)).map (Prod.map id (·.reductions)) = some (.settled, 1) := by
    rw [Pass.rules, RuleList.freeze_eq]
    decide +kernel
  obtain ⟨⟨e, q⟩, hwithin, heq⟩ := Option.map_eq_some_iff.1 hends
  obtain ⟨rfl, hq⟩ := Prod.mk.inj heq
  refine ⟨q, ?_⟩
  rw [Graph.simplify, sweepUpTo_succ 9 0 (sweep_of_sweepWithin hwithin)]
  simpa using hq

theorem Graph.simplify_fixpoint_pair : (Pass.rules {}).Clean ∧
    ∃ p q, pairGraph.simplify ⟨3⟩ (Pass.rules {}) { budget := some 1 } =
        .ok ⟨.ok ⟨.converged, 1, 1⟩, p⟩ ∧
      p.graph.Settled { budget := some 1 } (Pass.rules {}) ⟨3⟩ ∧
      p.graph.simplify ⟨3⟩ (Pass.rules {}) { budget := some 1 } =
        .ok ⟨.ok ⟨.converged, 1, 0⟩, q⟩ ∧ q.graph = p.graph := by
  obtain ⟨p, hp⟩ := simplify_pair
  obtain ⟨hsettled, hagain⟩ := simplify_fixpoint (Pass.rules_clean {}) hp rfl
  obtain ⟨q, hq, hgraph⟩ := hagain none fun _ => rfl
  exact ⟨Pass.rules_clean {}, p, q, hp, hsettled, hq, hgraph⟩

end Peephole
