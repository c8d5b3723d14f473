import Peephole.Greedy.Run
import Peephole.Proofs.History

/-!
# Runs

How greedy simplification goes from one state to the next.  `Progress.Visited` lists the
states that a run goes through: it starts, queues the operations under the root again and
again, and takes turns.  What a run leaves is one of them.

Rules that are programs of edits lead to graphs one can come to, so every visited graph is
one.
-/

namespace Peephole

variable {c : Config} {rules : RuleSet} {root o : OpId} {limit : Limit} {g : Graph}
  {p q : Progress}

/-- A sweep is a turn and, if that was not the last one, the rest of the sweep. -/
theorem drain_eq : drain c rules root limit p = (do
    match ← turn c rules root limit p with
    | .again q => drain c rules root limit q
    | .done e q => return (e, q)) := by
  rw [drain]
  split
  · rename_i hturn
    rw [hturn]
    rfl
  · rename_i hturn
    rw [hturn]
    rfl
  · rename_i hturn
    rw [hturn]
    rfl

theorem drain_again (h : turn c rules root limit p = .ok (.again q)) :
    drain c rules root limit p = drain c rules root limit q := by
  rw [drain_eq, h]
  rfl

theorem drain_error {f : Fault} (h : turn c rules root limit p = .error f) :
    drain c rules root limit p = .error f := by
  rw [drain_eq, h]
  rfl

/-- How a sweep ends decides whether another one follows. -/
theorem sweepUpTo_succ {e : SweepEnd} (left made : Nat) :
    sweep c rules root p = .ok (e, q) → sweepUpTo c rules root (left + 1) made p =
      match e with
      | .failed x => .ok ⟨.error x, q⟩
      | .limited => .ok ⟨.ok ⟨.budgetSpent, made + 1, q.reductions⟩, q⟩
      | .settled => .ok ⟨.ok ⟨.converged, made + 1, q.reductions⟩, q⟩
      | .stopped => .ok ⟨.ok ⟨.stopped, made + 1, q.reductions⟩, q⟩
      | .finished =>
          if q.reductions = p.reductions then .ok ⟨.ok ⟨.converged, made + 1, q.reductions⟩, q⟩
          else sweepUpTo c rules root left (made + 1) q := by
  intro h
  rw [sweepUpTo, h, ok_bind]
  cases e with
  | _ => rfl

/-- The states that a run goes through. -/
inductive Progress.Visited (c : Config) (rules : RuleSet) (root : OpId) (g : Graph) :
    Progress → Prop
  | start : Visited c rules root g (.start g)
  | seed {p : Progress} {ops : List OpId} : Visited c rules root g p →
      p.graph.nestedOps root = .ok ops →
      Visited c rules root g (p.seeded ops)
  | again {p q : Progress} {limit : Limit} : Visited c rules root g p →
      turn c rules root limit p = .ok (.again q) → Visited c rules root g q
  | done {p q : Progress} {limit : Limit} {e : SweepEnd} : Visited c rules root g p →
      turn c rules root limit p = .ok (.done e q) → Visited c rules root g q

namespace Progress.Visited

theorem drain {e : SweepEnd} {p q : Progress} (hp : Visited c rules root g p)
    (h : drain c rules root limit p = .ok (e, q)) : Visited c rules root g q := by
  rw [drain_eq, bind_eq_ok] at h
  obtain ⟨t, ht, h⟩ := h
  cases t with
  | again p' => exact drain (.again hp ht) h
  | done e' p' =>
    cases h
    exact .done hp ht
termination_by p.remaining limit
decreasing_by exact remaining_lt_of_turn ht

theorem sweep {e : SweepEnd} (hp : Visited c rules root g p)
    (h : sweep c rules root p = .ok (e, q)) : Visited c rules root g q := by
  rw [Peephole.sweep, bind_eq_ok] at h
  obtain ⟨ops, hops, h⟩ := h
  exact (seed hp hops).drain h

theorem sweepUpTo {r : RunResult} : ∀ {left made : Nat} {p : Progress},
    Visited c rules root g p → sweepUpTo c rules root left made p = .ok r →
      Visited c rules root g r.progress
  | 0, made, p, hp, h => by
      cases h
      exact hp
  | left + 1, made, p, hp, h => by
      obtain ⟨⟨e, q⟩, hsweep, -⟩ := bind_eq_ok.1 h
      have hq := hp.sweep hsweep
      rw [sweepUpTo_succ left made hsweep] at h
      cases e with
      | finished =>
        dsimp only at h
        split at h
        · cases h
          exact hq
        · exact sweepUpTo hq h
      | limited | settled | stopped | failed e =>
        cases h
        exact hq

/-- What a run leaves is one of the states it goes through. -/
theorem simplify {r : RunResult} (h : g.simplify root rules c = .ok r) :
    Visited c rules root g r.progress := sweepUpTo .start h

end Progress.Visited

/-! ## Reachable graphs -/

/-- The rules edit the graph through the session only. -/
def RuleSet.Programs (rules : RuleSet) : Prop :=
  ∀ r ∈ rules.rules, ∀ o, (r.apply o).Program fun _ => True

theorem RuleSet.mem_rulesFor {r : Rule} {k : Kind} :
    r ∈ rules.rulesFor k ↔ r ∈ rules.rules ∧ r.root = k := by
  constructor
  · intro hr
    obtain ⟨i, hi, rfl⟩ := List.mem_map.1 hr
    exact ⟨List.getElem_mem _, (rules.mem_tables k i).1 hi⟩
  · rintro ⟨hr, hk⟩
    obtain ⟨n, hn, rfl⟩ := List.getElem_of_mem hr
    exact List.mem_map.2 ⟨⟨n, hn⟩, (rules.mem_tables k ⟨n, hn⟩).2 hk, rfl⟩

/-- What a dispatch can be: an erasure, a fold, or the rules after a fold that did nothing
or without one. -/
theorem dispatch_cases {observer : Observer} {d : Dispatched}
    (h : dispatch c rules g observer o = .ok d) : ∃ x n, g.op o = .ok x ∧ g.totalUses o = .ok n ∧
      ((c.removeDead = true ∧ x.kind.isPure = true ∧ n = 0) ∧ (∃ answer s,
          (EditM.erase o).runOn { graph := g, observer } = .ok (answer, s) ∧
          d = s.dispatched [] (match answer with
            | .ok _ => .applied "dead-op-removal"
            | .error e => .failed e)) ∨
        ¬(c.removeDead = true ∧ x.kind.isPure = true ∧ n = 0) ∧ (
          c.fold = true ∧ (∃ answer s,
            (EditM.fold o).runOn { graph := g, observer } = .ok (answer, s) ∧
            match answer with
            | .ok true => d = s.dispatched [] (.applied "constant-folding")
            | .error e => d = s.dispatched [] (.failed e)
            | .ok false => tryRules observer o g false [] (rules.rulesFor x.kind) = .ok d) ∨
          c.fold = false ∧ tryRules observer o g false [] (rules.rulesFor x.kind) = .ok d)) := by
  simp only [dispatch, Graph.kind, bind_eq_ok] at h
  obtain ⟨_, ⟨x, hx, hk⟩, n, hn, h⟩ := h
  cases hk
  refine ⟨x, n, hx, hn, ?_⟩
  split at h
  · rename_i hdead
    obtain ⟨⟨answer, s⟩, hrun, h⟩ := bind_eq_ok.1 h
    refine .inl ⟨by simpa [and_assoc] using hdead, answer, s, hrun, ?_⟩
    cases answer with
    | ok _ =>
      cases h
      rfl
    | error e =>
      cases h
      rfl
  · rename_i hdead
    refine .inr ⟨by simpa [and_assoc] using hdead, ?_⟩
    split at h
    · rename_i hfold
      obtain ⟨⟨answer, s⟩, hrun, h⟩ := bind_eq_ok.1 h
      refine .inl ⟨hfold, answer, s, hrun, ?_⟩
      cases answer with
      | error e =>
        cases h
        rfl
      | ok changed =>
        cases changed with
        | true =>
          cases h
          rfl
        | false =>
          cases EditM.fold_false hrun
          exact h
    · rename_i hfold
      exact .inr ⟨by simpa using hfold, h⟩

section Keeps

variable {allowed : Draft → Prop} {Q : Graph → Observer → Prop} {observer : Observer}
  {d : Dispatched}

/-- What programs of edits keep, rules that are programs keep. -/
theorem tryRules_keeps (hkeep : ∀ {α : Type} {m : EditM α} {s t : Session} {answer},
      m.Program allowed → m.runOn s = .ok (answer, t) → Q s.graph s.observer →
      Q t.graph t.observer) {stop : Bool} {calls : List Call}
    {rs : List Rule} (hrs : ∀ r ∈ rs, ∀ o, (r.apply o).Program allowed) (hg : Q g observer)
    (h : tryRules observer o g stop calls rs = .ok d) : Q d.graph d.observer := by
  induction rs generalizing g observer stop calls with
  | nil =>
    cases h
    exact hg
  | cons r rs ih =>
    rw [tryRules, bind_eq_ok] at h
    obtain ⟨⟨answer, s⟩, hrun, h⟩ := h
    have hs : Q s.graph s.observer := hkeep (hrs r (.head rs) o) hrun hg
    dsimp only at h
    split at h
    · cases h
      exact hs
    · cases h
      exact hs
    · cases h
      exact hs
    · exact ih (fun r' hr' => hrs r' (.tail r hr')) hs h

theorem dispatch_keeps (hconst : ∀ l x, allowed (.const l x))
    (hkeep : ∀ {α : Type} {m : EditM α} {s t : Session} {answer},
      m.Program allowed → m.runOn s = .ok (answer, t) → Q s.graph s.observer →
      Q t.graph t.observer)
    (hrules : ∀ r ∈ rules.rules, ∀ o, (r.apply o).Program allowed) (hg : Q g observer)
    (h : dispatch c rules g observer o = .ok d) : Q d.graph d.observer := by
  have hfor : ∀ k, ∀ r ∈ rules.rulesFor k, ∀ o, (r.apply o).Program allowed :=
    fun k r hr => hrules r (RuleSet.mem_rulesFor.1 hr).1
  obtain ⟨x, n, -, -, ⟨-, answer, s, hrun, rfl⟩ | ⟨-, ⟨-, answer, s, hrun, h⟩ | ⟨-, h⟩⟩⟩ :=
    dispatch_cases h
  · exact hkeep (.erase o) hrun hg
  · have hs : Q s.graph s.observer := hkeep (.fold hconst o) hrun hg
    split at h
    · subst h
      exact hs
    · subst h
      exact hs
    · exact tryRules_keeps hkeep (hfor x.kind) hg h
  · exact tryRules_keeps hkeep (hfor x.kind) hg h

end Keeps

theorem Graph.Reachable.dispatch {presets : Bool} {observer : Observer} {d : Dispatched}
    (hrules : rules.Programs) (hg : g.Reachable presets)
    (h : dispatch c rules g observer o = .ok d) : d.graph.Reachable presets :=
  (dispatch_keeps (Q := fun g _ => g.Reachable presets) (fun _ _ => trivial)
    (fun hm hrun hs => .move hs (.edit hm hrun)) hrules hg h)

/-- A dispatch that is told to a worklist leaves a worklist. -/
theorem dispatch_worklist {w : Worklist} {d : Dispatched} (hrules : rules.Programs)
    (h : dispatch c rules g (.worklist w) o = .ok d) : ∃ w', d.observer = .worklist w' :=
  dispatch_keeps (Q := fun _ observer => ∃ w, observer = .worklist w) (fun _ _ => trivial)
    (fun hm hrun hs => (hm.steps hrun).worklist hs) hrules ⟨w, rfl⟩ h

/-- The state after a turn. -/
def Turn.progress : Turn → Progress
  | again p => p
  | done _ p => p

@[simp]
theorem Turn.progress_again : (again p).progress = p := rfl

/-- Trying operations on a copy leaves the graph alone, and what is queued. -/
theorem probe_graph {copy : Graph} {ops : List OpId} {e : SweepEnd}
    (h : probe c rules p copy ops = .ok (e, q)) :
    q.graph = p.graph ∧ q.worklist = p.worklist ∧ q.reductions = p.reductions := by
  induction ops generalizing p copy with
  | nil =>
    cases h
    exact ⟨rfl, rfl, rfl⟩
  | cons o ops ih =>
    rw [probe, bind_eq_ok] at h
    obtain ⟨d, -, h⟩ := h
    dsimp only at h
    split at h
    · have hrest := ih h
      exact hrest
    · cases h
      exact ⟨rfl, rfl, rfl⟩
    · cases h
      exact ⟨rfl, rfl, rfl⟩

/-- The host leaves the stop flag down. -/
def Config.Unraised (c : Config) : Prop := ∀ turn, c.raised turn = false

theorem Config.Unraised.isStopped (h : c.Unraised) (hp : p.stopRequested = false) :
    p.isStopped c = false := by
  simp [Progress.isStopped, hp, h p.turns]

namespace Progress

@[simp]
theorem graph_next : p.next.graph = p.graph := rfl

@[simp]
theorem worklist_next : p.next.worklist = p.worklist := rfl

@[simp]
theorem reductions_next : p.next.reductions = p.reductions := rfl

/-- The state after a dispatch in vain. -/
def passed (p : Progress) (d : Dispatched) (o : OpId) (w : Worklist) : Progress :=
  { p.next.record d with worklist := w.settle o }

/-- The state after a dispatch that made a reduction. -/
def reduced (p : Progress) (d : Dispatched) (o : OpId) (w : Worklist) : Progress :=
  { p.next.record d with
    worklist := (d.observer.worklistD w).settle o, reductions := p.reductions + 1 }

variable {d : Dispatched} {w : Worklist}

@[simp]
theorem graph_passed : (p.passed d o w).graph = d.graph := rfl

@[simp]
theorem worklist_passed : (p.passed d o w).worklist = w.settle o := rfl

@[simp]
theorem reductions_passed : (p.passed d o w).reductions = p.reductions := rfl

@[simp]
theorem graph_reduced : (p.reduced d o w).graph = d.graph := rfl

@[simp]
theorem worklist_reduced :
    (p.reduced d o w).worklist = (d.observer.worklistD w).settle o := rfl

@[simp]
theorem reductions_reduced : (p.reduced d o w).reductions = p.reductions + 1 := rfl

end Progress

/-- What a turn that dispatches an operation can be. -/
theorem dispatchTurn_cases {w : Worklist} {t : Turn}
    (h : dispatchTurn c rules root p.next o w = .ok t) :
    p.graph.isLive o = .ok false ∧
        t = .done (.failed (.staleOp o)) { p.next with worklist := w } ∨
      p.graph.isLive o = .ok true ∧ ∃ d,
        dispatch c rules p.graph (.worklist (w.mark o .inProgress)) o = .ok d ∧
        match d.verdict with
        | .idle => t = .again (p.passed d o (w.mark o .inProgress))
        | .failed e => t = .done (.failed e) { p.next.record d with
            worklist := d.observer.worklistD (w.mark o .inProgress) }
        | .applied name => ∃ report : Report,
            (c.verify = true → d.graph.validate root = .ok report) ∧
            t = if c.verify && !report.isOk then
                .done (.failed (.invalidAfter name report.text))
                  (p.reduced d o (w.mark o .inProgress))
              else .again (p.reduced d o (w.mark o .inProgress)) := by
  rw [dispatchTurn, bind_eq_ok] at h
  obtain ⟨live, hlive, h⟩ := h
  cases live with
  | false =>
    cases h
    exact .inl ⟨hlive, rfl⟩
  | true =>
    simp only [Bool.not_true, Bool.false_eq_true, if_false, bind_eq_ok] at h
    obtain ⟨d, hd, h⟩ := h
    refine .inr ⟨hlive, d, hd, ?_⟩
    cases hv : d.verdict with
    | idle =>
      rw [hv, observer_of_dispatch hd hv] at h
      cases h
      rfl
    | failed e =>
      rw [hv] at h
      cases h
      rfl
    | applied name =>
      rw [hv] at h
      dsimp only at h ⊢
      split at h
      · rename_i hverify
        obtain ⟨report, hreport, h⟩ := bind_eq_ok.1 h
        refine ⟨report, fun _ => hreport, ?_⟩
        split at h
        · rename_i hbad
          cases h
          rw [hverify, hbad]
          rfl
        · rename_i hok
          cases h
          rw [Bool.not_eq_true] at hok
          rw [hverify, hok]
          rfl
      · rename_i hverify
        cases h
        rw [Bool.not_eq_true] at hverify
        refine ⟨⟨[], []⟩, fun hc => ?_, ?_⟩
        · rw [hverify] at hc
          cases hc
        · rw [hverify]
          rfl

/-- What a turn at the limit can be. -/
theorem limitTurn_cases {t : Turn} (h : limitTurn c rules root p limit = .ok t) :
    (∃ n, limit = .cap n ∧ t = .done .finished { p with worklist := p.worklist.clear }) ∨
      p.worklist.anyQueued = false ∧ t = .done .finished p ∨
      ∃ ops e q, p.graph.nestedOps root = .ok ops ∧ probe c rules p p.graph ops = .ok (e, q) ∧
        t = .done e q := by
  cases limit with
  | cap n =>
    cases h
    exact .inl ⟨n, rfl, rfl⟩
  | budget n =>
    rw [limitTurn] at h
    split at h
    · simp only [bind_eq_ok] at h
      obtain ⟨ops, hops, ⟨e, q⟩, hprobe, h⟩ := h
      cases h
      exact .inr (.inr ⟨ops, e, q, hops, hprobe, rfl⟩)
    · rename_i hany
      cases h
      exact .inr (.inl ⟨by simpa using hany, rfl⟩)

/-- What a turn can be. -/
theorem turn_cases {t : Turn} (h : turn c rules root limit p = .ok t) :
    t = .done .stopped p.next ∨
      limit.reductions ≤ p.reductions ∧ limitTurn c rules root p.next limit = .ok t ∨
      p.worklist.pop = none ∧ t = .done .finished { p.next with worklist := p.worklist.clear } ∨
      ∃ o w, p.worklist.pop = some (o, w) ∧ dispatchTurn c rules root p.next o w = .ok t := by
  rw [turn] at h
  split at h
  · cases h
    exact .inl rfl
  split at h
  · rename_i hlimit
    exact .inr (.inl ⟨hlimit, h⟩)
  split at h
  · rename_i hpop
    cases h
    exact .inr (.inr (.inl ⟨hpop, rfl⟩))
  · rename_i o w hpop
    exact .inr (.inr (.inr ⟨o, w, hpop, h⟩))

/-- A turn after which the sweep goes on has dispatched an operation, in vain or with a
reduction. -/
theorem turn_again (h : turn c rules root limit p = .ok (.again q)) : ∃ o w d,
    p.worklist.pop = some (o, w) ∧
    dispatch c rules p.graph (.worklist (w.mark o .inProgress)) o = .ok d ∧
    (d.verdict = .idle ∧ q = p.passed d o (w.mark o .inProgress) ∨
      ∃ name, d.verdict = .applied name ∧ q = p.reduced d o (w.mark o .inProgress)) := by
  rcases turn_cases h with ht | ⟨-, h⟩ | ⟨-, ht⟩ | ⟨o, w, hpop, h⟩
  · cases ht
  · exact absurd h not_again_of_limitTurn
  · cases ht
  · rcases dispatchTurn_cases h with ⟨-, ht⟩ | ⟨-, d, hd, h⟩
    · cases ht
    refine ⟨o, w, d, hpop, hd, ?_⟩
    split at h
    · rename_i hv
      cases h
      exact .inl ⟨hv, rfl⟩
    · cases h
    · rename_i name hv
      obtain ⟨report, -, h⟩ := h
      split at h
      · cases h
      · cases h
        exact .inr ⟨name, hv, rfl⟩

/-- A sweep goes on only below its limit, and if nobody asked to stop. -/
theorem turn_again_limit (h : turn c rules root limit p = .ok (.again q)) :
    p.isStopped c = false ∧ p.reductions < limit.reductions := by
  rw [turn] at h
  split at h
  · cases h
  rename_i hstop
  split at h
  · exact absurd h not_again_of_limitTurn
  rename_i hlimit
  exact ⟨by simpa using hstop, by omega⟩

/-- A dispatch ends a sweep only if it fails. -/
theorem dispatchTurn_done {w : Worklist} {e : SweepEnd}
    (h : dispatchTurn c rules root p.next o w = .ok (.done e q)) : ∃ x, e = .failed x := by
  rcases dispatchTurn_cases h with ⟨-, ht⟩ | ⟨-, d, -, h⟩
  · cases ht
    exact ⟨_, rfl⟩
  split at h
  · cases h
  · cases h
    exact ⟨_, rfl⟩
  · obtain ⟨report, -, h⟩ := h
    split at h
    · cases h
      exact ⟨_, rfl⟩
    · cases h

/-- A turn that ends the sweep without a failure makes no reduction. -/
theorem turn_done {e : SweepEnd} (h : turn c rules root limit p = .ok (.done e q))
    (he : ∀ x, e ≠ .failed x) : q.graph = p.graph ∧ q.reductions = p.reductions := by
  rcases turn_cases h with ht | ⟨-, h⟩ | ⟨-, ht⟩ | ⟨o, w, -, h⟩
  · cases ht
    exact ⟨rfl, rfl⟩
  · rcases limitTurn_cases h with ⟨n, -, ht⟩ | ⟨-, ht⟩ | ⟨ops, e, q, -, hprobe, ht⟩
    · cases ht
      exact ⟨rfl, rfl⟩
    · cases ht
      exact ⟨rfl, rfl⟩
    · cases ht
      obtain ⟨hgraph, -, hreductions⟩ := probe_graph hprobe
      exact ⟨hgraph, hreductions⟩
  · cases ht
    exact ⟨rfl, rfl⟩
  · obtain ⟨x, hx⟩ := dispatchTurn_done h
    exact absurd hx (he x)

/-- A turn leaves the graph alone or dispatches one operation. -/
theorem turn_graph {t : Turn} (h : turn c rules root limit p = .ok t) :
    t.progress.graph = p.graph ∨ ∃ observer o d,
      dispatch c rules p.graph observer o = .ok d ∧ t.progress.graph = d.graph := by
  rcases turn_cases h with rfl | ⟨-, h⟩ | ⟨-, rfl⟩ | ⟨o, w, -, h⟩
  · exact .inl rfl
  · rcases limitTurn_cases h with ⟨n, -, rfl⟩ | ⟨-, rfl⟩ | ⟨ops, e, q, -, hprobe, rfl⟩
    · exact .inl rfl
    · exact .inl rfl
    · exact .inl (probe_graph hprobe).1
  · exact .inl rfl
  · rcases dispatchTurn_cases h with ⟨-, rfl⟩ | ⟨-, d, hd, h⟩
    · exact .inl rfl
    · refine .inr ⟨_, o, d, hd, ?_⟩
      split at h
      · rw [h]
        rfl
      · rw [h]
        rfl
      · obtain ⟨report, -, rfl⟩ := h
        split
        · rfl
        · rfl

/-- Rules that are programs lead to graphs one can come to. -/
theorem Progress.Visited.reachable {presets : Bool} (hrules : rules.Programs)
    (hg : g.Reachable presets) (h : Visited c rules root g p) : p.graph.Reachable presets := by
  have hturn : ∀ {p : Progress} {t : Turn} {limit : Limit}, p.graph.Reachable presets →
      turn c rules root limit p = .ok t → t.progress.graph.Reachable presets := by
    intro p t limit hp ht
    rcases turn_graph ht with heq | ⟨observer, o, d, hd, heq⟩
    · rw [heq]
      exact hp
    · rw [heq]
      exact hp.dispatch hrules hd
  induction h with
  | start => exact hg
  | seed _ _ ih => exact ih
  | again _ ht ih => exact hturn ih ht
  | done _ ht ih => exact hturn ih ht

end Peephole
