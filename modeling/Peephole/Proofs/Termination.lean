import Peephole.Proofs.Halting
import Peephole.Proofs.Turns

/-!
# Termination

Greedy simplification ends, also with rules that undo each other's work.  One turn of a sweep
makes a reduction, which brings the sweep nearer to its limit, or shortens the stack, so a sweep
takes finitely many turns.  What is left is that each turn ends.  The walks from the root end
since the chain of its owners does, and no edit can tie a knot in it.  A rule ends by assumption.
The erasures that are made without a rule, of dead operations and of folded additions, walk
what is nested in the operation, which ends unless the operation is nested in itself.

`Graph.simplify_terminates` says this, with the bounds on sweeps and reductions.
`knotGraph` has a constant that is nested in itself.  It is not under the root, but it is
looked at when its only reader is erased, and then its erasure goes on for ever
(`simplify_knot`).
-/

namespace Peephole

open Peephole.Graph Relation

variable {c : Config} {rules : RuleSet} {root o : OpId} {limit : Limit} {g g' : Graph}
  {p q : Progress} {e : SweepEnd}

/-! ## Graphs on which everything ends -/

/-- The rules edit graphs through the session, insert only operations without regions, and
end on every graph that one can come to by such edits. -/
structure RuleSet.Terminating (rules : RuleSet) (g : Graph) : Prop where
  program : ∀ r ∈ rules.rules, ∀ o, (r.apply o).Program Draft.Flat
  halts : ∀ r ∈ rules.rules, ∀ o (s : Session), g.Edited Draft.Flat s.graph →
    Halts ((r.apply o).runOn s)

theorem RuleSet.Terminating.edited (h : rules.Terminating g) (hg : g.Edited Draft.Flat g') :
    rules.Terminating g' :=
  ⟨h.program, fun r hr o s hs => h.halts r hr o s (hg.trans hs)⟩

/-- The settings let operations of this kind be erased without a rule. -/
def Config.Erases (c : Config) (k : Kind) : Prop :=
  c.removeDead = true ∧ k.isPure = true ∨ c.fold = true ∧ k = .add

/-- The chain of owners above the root ends, and so does everything that is tried on an
operation. -/
structure Graph.Grounded (c : Config) (rules : RuleSet) (root : OpId) (g : Graph) : Prop where
  linked : g.Linked
  entry : ∃ d, g.slot root = .ok d
  anchored : g.Anchored root
  unnested {o : OpId} {d : Op} : g.op o = .ok d → c.Erases d.kind → ¬g.Inside o o
  rules : rules.Terminating g

namespace Graph.Grounded

theorem erasable (h : g.Grounded c rules root) {d : Op} (hd : g.op o = .ok d)
    (hk : c.Erases d.kind) : g.Erasable o := ⟨h.linked, h.unnested hd hk⟩

theorem edited (h : g.Grounded c rules root) (he : g.Edited Draft.Flat g') :
    g'.Grounded c rules root := by
  have hshape := he.reshaped h.linked
  obtain ⟨x, hx⟩ := h.entry
  refine ⟨he.linked h.linked, ?_, hshape.anchored h.linked h.anchored hx, ?_, h.rules.edited he⟩
  · obtain ⟨x', hx', -⟩ := hshape.slot hx
    exact ⟨x', hx'⟩
  · intro o d hd hk ho
    -- kinds are kept, so what may be erased now might have been erased before
    have hself := hshape.inside_self h.linked ho
    obtain ⟨y, hy⟩ := hself.live
    obtain ⟨y', hy', hkind⟩ := hshape.slot (slot_of_op hy)
    rw [slot_of_op hd] at hy'
    cases hy'
    exact h.unnested hy (hkind ▸ hk) hself

theorem halts_nestedOps (h : g.Grounded c rules root) : Halts (g.nestedOps root) :=
  h.linked.halts_nestedOps h.anchored.not_inside

/-! ## Dispatch -/

theorem halts_tryRules {observer : Observer} {rs : List Rule} (h : g.Grounded c rules root)
    (hrs : ∀ r ∈ rs, r ∈ rules.rules) {stop : Bool} {calls : List Call} :
    Halts (tryRules observer o g stop calls rs) := by
  induction rs generalizing g observer stop calls with
  | nil => exact halts_ok _
  | cons r rs ih =>
    have hr : r ∈ rules.rules := hrs r (.head rs)
    rw [tryRules, halts_bind]
    refine ⟨h.rules.halts r hr o _ .refl, ?_⟩
    rintro ⟨answer, s⟩ hrun
    dsimp only
    split
    · exact halts_ok _
    · exact halts_ok _
    · exact halts_ok _
    · -- a rule that does not match may still have edited the graph
      have hs := h.edited ((h.rules.program r hr o).steps hrun).edited
      exact ih hs fun r' hr' => hrs r' (.tail r hr')

theorem halts_dispatch {observer : Observer} (h : g.Grounded c rules root) :
    Halts (dispatch c rules g observer o) := by
  have hrs : ∀ k, ∀ r ∈ rules.rulesFor k, r ∈ rules.rules :=
    fun k r hr => (RuleSet.mem_rulesFor.1 hr).1
  simp only [dispatch, halts_bind]
  refine ⟨halts_kind, fun k hk => ⟨halts_totalUses, fun n _ => ?_⟩⟩
  obtain ⟨d, hd, hkind⟩ := bind_eq_ok.1 hk
  cases hkind
  split
  · rename_i hdead
    simp only [Bool.and_eq_true] at hdead
    rw [halts_bind]
    refine ⟨EditM.halts_erase (h.erasable hd (.inl hdead.1)), ?_⟩
    rintro ⟨_ | _, s⟩ _
    · exact halts_ok _
    · exact halts_ok _
  · split
    · rename_i hfold
      rw [halts_bind]
      refine ⟨EditM.halts_fold fun x hx hadd => h.erasable hx (.inr ⟨hfold, hadd⟩), ?_⟩
      rintro ⟨answer, s⟩ hrun
      have hfolds : (EditM.fold o).Program Draft.Flat := .fold (fun _ _ => rfl) o
      split
      · exact halts_ok _
      · exact halts_ok _
      · rename_i heq
        cases heq
        exact (h.edited (hfolds.steps hrun).edited).halts_tryRules (hrs _)
    · exact h.halts_tryRules (hrs _)

theorem edited_of_dispatch {observer : Observer} {d : Dispatched} (h : g.Grounded c rules root)
    (hd : dispatch c rules g observer o = .ok d) : g.Edited Draft.Flat d.graph := by
  have hkeep : ∀ {α : Type} {m : EditM α} {s t : Session} {answer}, m.Program Draft.Flat →
      m.runOn s = .ok (answer, t) → g.Edited Draft.Flat s.graph → g.Edited Draft.Flat t.graph :=
    fun hm hrun hs => hs.trans (hm.steps hrun).edited
  exact dispatch_keeps (Q := fun g' _ => g.Edited Draft.Flat g') (fun _ _ => rfl) hkeep
    h.rules.program .refl hd

/-! ## Turns -/

theorem halts_probe {copy : Graph} {ops : List OpId} (h : copy.Grounded c rules root) :
    Halts (probe c rules p copy ops) := by
  induction ops generalizing p copy with
  | nil => exact halts_ok _
  | cons o ops ih =>
    rw [probe, halts_bind]
    refine ⟨h.halts_dispatch, fun d hd => ?_⟩
    dsimp only
    split
    · exact ih (h.edited (h.edited_of_dispatch hd))
    · exact halts_ok _
    · exact halts_ok _

theorem halts_dispatchTurn {w : Worklist} (h : p.graph.Grounded c rules root) :
    Halts (dispatchTurn c rules root p.next o w) := by
  rw [dispatchTurn, halts_bind]
  refine ⟨halts_isLive, fun live _ => ?_⟩
  split
  · exact halts_ok _
  · refine halts_bind.2 ⟨h.halts_dispatch, fun d hd => ?_⟩
    have hd' := h.edited (h.edited_of_dispatch hd)
    split
    · exact halts_ok _
    · exact halts_ok _
    · dsimp only
      split
      · refine halts_bind.2 ⟨hd'.linked.halts_validate hd'.anchored, fun report _ => ?_⟩
        simp
      · exact halts_ok _

theorem halts_turn (h : p.graph.Grounded c rules root) : Halts (turn c rules root limit p) := by
  rw [turn]
  split
  · exact halts_ok _
  split
  · cases limit with
    | cap n => exact halts_ok _
    | budget n =>
      rw [limitTurn, halts_ite]
      refine ⟨fun _ => halts_bind.2 ⟨h.halts_nestedOps, fun ops _ => ?_⟩, fun _ => halts_ok _⟩
      exact halts_bind.2 ⟨h.halts_probe, fun _ _ => halts_ok _⟩
  split
  · exact halts_ok _
  · exact h.halts_dispatchTurn

theorem turn {t : Turn} (h : p.graph.Grounded c rules root)
    (ht : turn c rules root limit p = .ok t) : t.progress.graph.Grounded c rules root := by
  rcases turn_graph ht with heq | ⟨observer, o, d, hd, heq⟩
  · rw [heq]
    exact h
  · rw [heq]
    exact h.edited (h.edited_of_dispatch hd)

/-! ## Sweeps -/

theorem turns (h : p.graph.Grounded c rules root) (hturns : p.Turns c rules root limit q) :
    q.graph.Grounded c rules root := by
  induction hturns with
  | refl => exact h
  | tail _ ht ih => exact ih.turn ht

theorem halts_drain (h : p.graph.Grounded c rules root) : Halts (drain c rules root limit p) := by
  induction p using drain.induct c rules root limit with
  | case1 p f ht =>
    have hturn : Halts (Peephole.turn c rules root limit p) := h.halts_turn
    rw [ht, halts_error] at hturn
    rw [drain_error ht, halts_error]
    exact hturn
  | case2 p e q ht =>
    rw [drain_eq, ht]
    exact halts_ok _
  | case3 p q ht ih =>
    rw [drain_again ht]
    exact ih (h.turn ht)

theorem halts_sweep (h : p.graph.Grounded c rules root) : Halts (sweep c rules root p) := by
  rw [Peephole.sweep, halts_bind]
  exact ⟨h.halts_nestedOps, fun ops _ => halts_drain h⟩

theorem sweep (h : p.graph.Grounded c rules root)
    (hsweep : sweep c rules root p = .ok (e, q)) : q.graph.Grounded c rules root := by
  rw [Peephole.sweep, bind_eq_ok] at hsweep
  obtain ⟨ops, -, hdrain⟩ := hsweep
  obtain ⟨p', hturns, hdone⟩ := drain_eq_ok.1 hdrain
  have hp' : p'.graph.Grounded c rules root :=
    turns (p := p.seeded ops) h hturns
  exact hp'.turn hdone

theorem halts_sweepUpTo : ∀ {left made : Nat} {p : Progress}, p.graph.Grounded c rules root →
    Halts (sweepUpTo c rules root left made p)
  | 0, made, p, _ => halts_ok _
  | left + 1, made, p, h => by
      rw [sweepUpTo, halts_bind]
      refine ⟨h.halts_sweep, ?_⟩
      rintro ⟨e, q⟩ hsweep
      cases e with
      | finished =>
        dsimp only
        split
        · exact halts_ok _
        · exact halts_sweepUpTo (h.sweep hsweep)
      | limited | settled | stopped | failed e => exact halts_ok _

end Graph.Grounded

/-! ## The bounds -/

/-- The second state comes from the first by a number of sweeps that came to their end, each
with a reduction. -/
inductive Progress.Sweeps (c : Config) (rules : RuleSet) (root : OpId) :
    Nat → Progress → Progress → Prop
  | none {p : Progress} : Sweeps c rules root 0 p p
  | next {n : Nat} {p q r : Progress} : sweep c rules root p = .ok (.finished, q) →
      p.reductions < q.reductions → Sweeps c rules root n q r → Sweeps c rules root (n + 1) p r

/-- A sweep never lowers the count of reductions. -/
theorem reductions_le_of_sweep (h : sweep c rules root p = .ok (e, q)) :
    p.reductions ≤ q.reductions := by
  obtain ⟨ops, -, hdrain⟩ := bind_eq_ok.1 h
  obtain ⟨p', hturns, hdone⟩ := drain_eq_ok.1 hdrain
  have hmono : p.reductions ≤ p'.reductions := hturns.reductions_le.1
  rcases turn_done_reductions hdone with hq | ⟨-, hq⟩ <;> omega

/-- A run makes no more sweeps than it may.  If it is cut off, it has made them all, and each
of them has made a reduction. -/
theorem sweepUpTo_sweeps {outcome : Outcome} : ∀ {left made : Nat} {p : Progress},
    sweepUpTo c rules root left made p = .ok ⟨.ok outcome, q⟩ →
      outcome.sweeps ≤ made + left ∧ (outcome.status = .sweepLimit →
        outcome.sweeps = made + left ∧ Progress.Sweeps c rules root left p q)
  | 0, made, p, h => by
      cases h
      exact ⟨Nat.le_refl made, fun _ => ⟨rfl, .none⟩⟩
  | left + 1, made, p, h => by
      obtain ⟨⟨e, q'⟩, hsweep, -⟩ := bind_eq_ok.1 h
      rw [sweepUpTo_succ left made hsweep] at h
      cases e with
      | finished =>
        dsimp only at h
        split at h
        · cases h
          exact ⟨by dsimp only; omega, nofun⟩
        · rename_i hne
          obtain ⟨hle, hlimit⟩ := sweepUpTo_sweeps h
          refine ⟨by omega, fun hstatus => ?_⟩
          obtain ⟨heq, hsweeps⟩ := hlimit hstatus
          have hmono := reductions_le_of_sweep hsweep
          exact ⟨by omega, .next hsweep (by omega) hsweeps⟩
      | limited | settled | stopped =>
        cases h
        exact ⟨by dsimp only; omega, nofun⟩
      | failed x => cases h

/-- Without a budget, the limit of a sweep is a multiple of the number of its operations. -/
theorem Progress.limit_of_no_budget (hc : c.budget = none) (n : Nat) :
    (p.limit c n).reductions = p.reductions + 32 * max 1 n := by
  simp only [limit, hc, Limit.reductions, sweepFactor]
  omega

/-- Simplification ends.  Its rules may be any that end themselves, and operations that it
erases without a rule must not be nested in themselves. -/
theorem Graph.simplify_terminates (hg : g.Reachable false) {d : Op} (hd : g.op root = .ok d)
    (hroot : g.Anchored root) (hrules : rules.Terminating g)
    (hknot : ∀ {o x}, g.op o = .ok x → c.Erases x.kind → ¬g.Inside o o) :
    (∀ limit, WellFounded fun q p => turn c rules root limit p = .ok (.again q)) ∧
    Halts (g.simplify root rules c) ∧
    (∀ {outcome q}, g.simplify root rules c = .ok ⟨.ok outcome, q⟩ →
      outcome.sweeps ≤ c.maxSweeps ∧ (∀ m, c.budget = some m → outcome.reductions ≤ m) ∧
      (outcome.status = .sweepLimit → outcome.sweeps = c.maxSweeps ∧
        Progress.Sweeps c rules root c.maxSweeps (.start g) q)) ∧
    (c.budget = none → ∀ {p : Progress} {ops}, p.graph.nestedOps root = .ok ops →
      (∀ q, Progress.Turns c rules root (p.limit c ops.length) (p.seeded ops) q →
        q.reductions ≤ p.reductions + 32 * max 1 ops.length) ∧
      ∀ e q, sweep c rules root p = .ok (e, q) →
        q.reductions ≤ p.reductions + 32 * max 1 ops.length) := by
  have hgrounded : g.Grounded c rules root :=
    ⟨hg.linked, ⟨d, slot_of_op hd⟩, hroot, hknot, hrules⟩
  refine ⟨fun limit => ?_, hgrounded.halts_sweepUpTo, ?_, ?_⟩
  · -- the reductions that are left, and for equal numbers of them the length of the stack
    have hlex := (Prod.lex ⟨_, Nat.lt_wfRel.wf⟩ ⟨_, Nat.lt_wfRel.wf⟩).wf
    exact Subrelation.wf remaining_lt_of_turn (InvImage.wf (Progress.remaining · limit) hlex)
  · intro outcome q hrun
    obtain ⟨hle, hlimit⟩ := sweepUpTo_sweeps hrun
    rw [Nat.zero_add] at hle hlimit
    refine ⟨hle, fun m hm => ?_, hlimit⟩
    exact sweepUpTo_reductions_le hm (Nat.zero_le m) hrun
  · intro hc p ops hops
    have hlimit := Progress.limit_of_no_budget (p := p) hc ops.length
    have hp : p.reductions ≤ (p.limit c ops.length).reductions := by omega
    refine ⟨fun q hturns => hlimit ▸ hturns.reductions_le.2 hp, fun e q hsweep => ?_⟩
    rw [sweep, hops, ok_bind] at hsweep
    exact hlimit ▸ (drain_reductions_le hsweep hp).2

/-! ## Rules that undo each other's work -/

/-- A gate of one kind is replaced by a gate of another kind. -/
def Rules.exchange (k k' : Kind) : Rule where
  name := "exchange-gates"
  root := k
  apply o := do
    let qubit ← EditM.ask fun g => g.gateQubit o
    let location := (← EditM.ask fun g => g.op o).location
    let new ← EditM.insert o
      { kind := k', location, operands := [qubit], resultTypes := [.qubit] }
    let value ← EditM.ask fun g => g.result new 0
    EditM.replace o [value]
    return .applied
  discreet o := (EditM.Discreet.ask _).bind fun _ => (EditM.Discreet.ask _).bind fun _ =>
    (EditM.Discreet.insert o _).bind fun _ => (EditM.Discreet.ask _).bind fun _ =>
      (EditM.Discreet.replace o _).bind fun _ => .pure _

theorem Rules.exchange_program {allowed : Draft → Prop} {k k' : Kind} (hallowed : ∀ l q,
      allowed { kind := k', location := l, operands := [q], resultTypes := [.qubit] }) (o : OpId) :
    ((exchange k k').apply o).Program allowed :=
  .bind (.ask _) fun _ => .bind (.ask _) fun _ => .bind (.insert (hallowed _ _)) fun _ =>
    .bind (.ask _) fun _ => .bind (.replace o _) fun _ => .pure _

/-- Hadamard gates become X gates and X gates become Hadamard gates. -/
def Rules.oscillating : RuleSet :=
  RuleList.freeze ⟨[exchange .hadamard .pauliX, exchange .pauliX .hadamard]⟩

theorem Rules.oscillating_terminating (hg : g.Linked) (hknot : ∀ o, ¬g.Inside o o) :
    oscillating.Terminating g := by
  have heach : ∀ r ∈ oscillating.rules, ∃ k k', r = exchange k k' := by
    simp [oscillating]
  refine ⟨fun r hr o => ?_, fun r hr o s hs => ?_⟩
  · obtain ⟨k, k', rfl⟩ := heach r hr
    exact exchange_program (fun _ _ => rfl) o
  · obtain ⟨k, k', rfl⟩ := heach r hr
    have ho : s.graph.Erasable o := Erasable.edited ⟨hg, hknot o⟩ hs
    simp only [exchange, EditM.runOn_ask_bind, halts_bind]
    refine ⟨by simp [gateQubit], fun qubit _ => ⟨halts_op, fun d _ => ?_⟩⟩
    refine EditM.halts_supersede ho ?_ Match.applied
    exact rfl

theorem Graph.pairGraph_anchored (o : OpId) : pairGraph.Anchored o := by
  refine ⟨o, fun p howner => ?_⟩
  obtain ⟨r, R, -, hR, hp⟩ := ownerOf?_eq_some.1 howner
  have hmem := Array.mem_of_getElem? (region_eq_ok.1 hR)
  obtain rfl : p = ⟨3⟩ := by
    simp only [pairGraph, List.mem_toArray, List.mem_singleton] at hmem
    subst hmem
    exact (Option.some.inj hp).symm
  exact Anchored.of_no_owner rfl

/-- Rules that undo each other's work are stopped by a budget, and without one by the cap on
each sweep. -/
theorem Graph.simplify_terminates_pair : pairGraph.Reachable false ∧ pairGraph.Anchored ⟨3⟩ ∧
    Rules.oscillating.Terminating pairGraph ∧
    (∃ q, pairGraph.simplify ⟨3⟩ Rules.oscillating { budget := some 2 } =
      .ok ⟨.ok ⟨.budgetSpent, 1, 2⟩, q⟩) ∧
    Halts (pairGraph.simplify ⟨3⟩ Rules.oscillating { budget := none }) ∧
    ∀ e q, sweep { budget := none } Rules.oscillating ⟨3⟩ (.start pairGraph) = .ok (e, q) →
      q.reductions ≤ 96 := by
  have hbuilt := pairGraph_function.built
  have hknot : ∀ o, ¬pairGraph.Inside o o := fun o => (pairGraph_anchored o).not_inside
  have hrules := Rules.oscillating_terminating hbuilt.linked hknot
  have hops : pairGraph.nestedOps ⟨3⟩ = .ok [⟨0⟩, ⟨1⟩, ⟨2⟩] := by decide +kernel
  obtain ⟨-, hhalts, -, hcap⟩ := Graph.simplify_terminates (c := { budget := none }) (d := _)
    hbuilt rfl (pairGraph_anchored ⟨3⟩) hrules fun _ _ => hknot _
  have hcap := @hcap rfl (.start pairGraph) _ hops
  refine ⟨hbuilt, pairGraph_anchored ⟨3⟩, hrules, ?_, hhalts, hcap.2⟩
  -- two reductions are evaluated, since the cap without a budget is too far away
  have hends : (sweepWithin { budget := some 2 } Rules.oscillating ⟨3⟩ 5
      (.start Graph.pairGraph)).map (Prod.map id (·.reductions)) = some (.limited, 2) := by
    rw [Rules.oscillating, RuleList.freeze_eq]
    decide +kernel
  obtain ⟨⟨e, q⟩, hwithin, heq⟩ := Option.map_eq_some_iff.1 hends
  obtain ⟨rfl, hq⟩ := Prod.mk.inj heq
  refine ⟨q, ?_⟩
  rw [Graph.simplify, sweepUpTo_succ 9 0 (sweep_of_sweepWithin hwithin)]
  simpa using hq

/-! ## A knot -/

/-- The state that the next turn is taken in. -/
def Turn.next? : Turn → Option Progress
  | again p => some p
  | done _ _ => none

theorem again_of_next? {x : Except Fault Turn} {t : Turn} (h : x.toOption = some t)
    (ht : t.next? = some q) : x = .ok (.again q) := by
  cases x with
  | error f => cases h
  | ok t' =>
    cases h
    cases t with
    | done e p => cases ht
    | again p =>
      cases ht
      rfl

namespace Graph

/-- Builds a constant that is nested in itself, and a function that adds it to itself and
returns nothing. -/
def buildKnot : Except Fault (OpId × Graph) := do
  let (location, g) := empty.nowhere
  let (block, g) := g.newBlock [] location
  let (region, g) ← g.newRegion [block]
  let (o, g) ← g.newOp { Draft.const location default with regions := [region] }
  let g ← g.placeLast block o
  g.newFunc "f" [] fun _ => do
    let _ ← BuildM.add ⟨0⟩ ⟨0⟩
    let _ ← BuildM.ret []

/-- The graph that `buildKnot` builds. -/
def knotGraph : Graph where
  ops := #[
    { kind := .const, operands := [], results := [⟨0⟩], resultTypes := [.number],
      attributes := .insert .empty "value" (.number default), regions := [⟨0⟩],
      block := some ⟨0⟩, location := ⟨⟨0⟩, 0, 0⟩, erased := false },
    { kind := .add, operands := [⟨0⟩, ⟨0⟩], results := [⟨1⟩], resultTypes := [.number],
      attributes := .empty, regions := [], block := some ⟨1⟩, location := ⟨⟨0⟩, 0, 0⟩,
      erased := false },
    { kind := .ret, operands := [], results := [], resultTypes := [], attributes := .empty,
      regions := [], block := some ⟨1⟩, location := ⟨⟨0⟩, 0, 0⟩, erased := false },
    { kind := .func, operands := [], results := [], resultTypes := [],
      attributes := .insert .empty "sym_name" (.text "f"), regions := [⟨1⟩], block := none,
      location := ⟨⟨0⟩, 0, 0⟩, erased := false }]
  values := #[⟨.result ⟨0⟩ 0, .number⟩, ⟨.result ⟨1⟩ 0, .number⟩]
  blocks := #[⟨[], [], [⟨0⟩], some ⟨0⟩, ⟨⟨0⟩, 0, 0⟩⟩,
    ⟨[], [], [⟨1⟩, ⟨2⟩], some ⟨1⟩, ⟨⟨0⟩, 0, 0⟩⟩]
  regions := #[⟨[⟨0⟩], some ⟨0⟩⟩, ⟨[⟨1⟩], some ⟨3⟩⟩]
  useLists := ⟨#[[⟨⟨1⟩, 0⟩, ⟨⟨1⟩, 1⟩]]⟩
  paths := ⟨#["<unknown>"], ⟨[("<unknown>", ⟨0⟩)]⟩⟩

theorem buildKnot_eq : buildKnot = .ok (⟨3⟩, knotGraph) := by decide +kernel

theorem knotGraph_built : knotGraph.Reachable false := by
  have h := buildKnot_eq
  simp only [buildKnot, bind_eq_ok] at h
  obtain ⟨⟨r, g₁⟩, hregion, ⟨o, g₂⟩, hop, g₃, hplace, hfunc⟩ := h
  have hblock : Reachable false (empty.nowhere.2.newBlock [] empty.nowhere.1).2 :=
    .move (.move .empty (.intern _)) (.newBlock [] _ (.inr ⟨rfl, rfl⟩))
  have hplaced : Reachable false g₃ :=
    .move (.move (.move hblock (.newRegion (.inr rfl) hregion)) (.newOp hop)) (.placeLast hplace)
  refine .move hplaced (.newFunc (fun _ => ?_) hfunc)
  exact .bind (.single _) fun _ => .bind (.op _) fun _ => .pure ()

/-- The function is looked at, and not the constant.  But when the addition is erased, the
constant is dead, and the walk of what is nested in it does not end. -/
theorem simplify_knot : knotGraph.Reachable false ∧ (∃ d, knotGraph.op ⟨3⟩ = .ok d) ∧
    knotGraph.Anchored ⟨3⟩ ∧ (RuleList.freeze ⟨[]⟩).Terminating knotGraph ∧
    ¬Halts (knotGraph.simplify ⟨3⟩ (RuleList.freeze ⟨[]⟩) {}) := by
  refine ⟨knotGraph_built, ⟨_, rfl⟩, .of_no_owner rfl, ⟨nofun, nofun⟩, ?_⟩
  have hops : knotGraph.nestedOps ⟨3⟩ = .ok [⟨1⟩, ⟨2⟩] := by decide +kernel
  have hends : (turn {} (RuleList.freeze ⟨[]⟩) ⟨3⟩ (.budget 10000)
      ((Progress.start knotGraph).seeded [⟨1⟩, ⟨2⟩])).toOption.bind (fun t =>
        t.next?.map (turn {} (RuleList.freeze ⟨[]⟩) ⟨3⟩ (.budget 10000))) =
      some (.error .endless) := by
    rw [RuleList.freeze_eq]
    rfl
  obtain ⟨t, hfirst, ht⟩ := Option.bind_eq_some_iff.1 hends
  obtain ⟨q, hnext, hlast⟩ := Option.map_eq_some_iff.1 ht
  have hsweep : sweep {} (RuleList.freeze ⟨[]⟩) ⟨3⟩ (.start knotGraph) = .error .endless := by
    rw [sweep, show (Progress.start knotGraph).graph.nestedOps ⟨3⟩ = _ from hops]
    exact (drain_again (again_of_next? hfirst hnext)).trans (drain_error hlast)
  rw [simplify, sweepUpTo, hsweep, error_bind, halts_error]
  exact fun h => h rfl

end Graph

end Peephole
