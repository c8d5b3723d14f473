import Mathlib.Algebra.GroupWithZero.Nat
import Peephole.Proofs.Turns

/-!
# Weights

A gate weighs three, a sum two and a constant one.  The weight of a function is what the
operations under its root weigh together, so it is three times the number of gates, twice
the number of sums and the number of constants.

An edit changes the weight by what it inserts or erases, and every reduction lowers it
(`Session.Reduction.weight_lt`).  So a run makes no more reductions than the function weighs.
Less than the cap of any sweep, this is never what ends a run, and a run that may make so
many reductions, and as many sweeps, ends with nothing left to do.
-/

namespace Peephole

/-! ## Kinds and their number -/

namespace Kind

/-- The gates that act on one qubit and can be undone. -/
def isUnitary : Kind → Bool
  | rotate | hadamard | pauliX | pauliZ => true
  | _ => false

/-- What an operation of the kind weighs. -/
def weight (k : Kind) : Nat :=
  if k.isUnitary then 3 else if k = add then 2 else if k = const then 1 else 0

end Kind

namespace Graph

variable {g g' : Graph} {root o e : OpId}

/-- How many operations under the root are of a kind with the property. -/
def countKind (g : Graph) (root : OpId) (P : Kind → Bool) : Nat :=
  match g.nestedOps root with
  | .ok ops => ops.countP fun o =>
      match g.kind o with
      | .ok k => P k
      | .error _ => false
  | .error _ => 0

/-- Three for every gate under the root, two for every sum and one for every constant. -/
def weight (g : Graph) (root : OpId) : Nat :=
  3 * g.countKind root Kind.isUnitary + 2 * g.countKind root (· = .add) +
    g.countKind root (· = .const)

/-- What one operation weighs. -/
def opWeight (g : Graph) (o : OpId) : Nat :=
  match g.kind o with
  | .ok k => k.weight
  | .error _ => 0

theorem opWeight_of_kind {k : Kind} (h : g.kind o = .ok k) : g.opWeight o = k.weight := by
  simp [opWeight, h]

theorem weight_eq_sum {ops : List OpId} (h : g.nestedOps root = .ok ops) :
    g.weight root = (ops.map g.opWeight).sum := by
  simp only [weight, countKind, h]
  clear h
  induction ops with
  | nil => rfl
  | cons o ops ih =>
    simp only [List.countP_cons, List.map_cons, List.sum_cons, ← ih, opWeight]
    cases g.kind o with
    | error f => simp
    | ok k =>
      cases k with
      | _ => simp [Kind.weight, Kind.isUnitary] <;> omega

/-! ## Edits and weights -/

/-- The links of the graph agree, and the root is in no block. -/
structure Rooted (g : Graph) (root : OpId) : Prop where
  linked : g.Linked
  detached : g.Detached root

theorem Valid.rooted (h : g.Valid root) : g.Rooted root := ⟨h.linked, h.detached⟩

theorem Rewired.kind (h : Rewired g g') {k : Kind} (hk : g.kind o = .ok k) : g'.kind o = .ok k := by
  simp only [Graph.kind, bind_eq_ok] at hk ⊢
  obtain ⟨d, hd, hk⟩ := hk
  obtain ⟨d', hd', hunread⟩ := h.op_ok hd
  exact ⟨d', hd', by rw [Op.kind_of_unread hunread, hk]⟩

theorem Rewired.rooted (h : Rewired g g') (hg : g.Rooted root) : g'.Rooted root := by
  obtain ⟨d, hd, hblock⟩ := hg.detached
  obtain ⟨d', hd', hunread⟩ := h.op_ok hd
  have hblock' : d'.unread.block = d.unread.block := congrArg Op.block hunread
  exact ⟨hg.linked.rewired h, d', hd', hblock'.trans hblock⟩

theorem Trimmed.kind (h : Trimmed g g' e) (ho : o ≠ e) : g'.kind o = g.kind o := by
  rw [Graph.kind, Graph.kind, h.op ho]

theorem Inserted.rooted {a n : OpId} {d : Draft} (h : Inserted g a d n g') (hg : g.Rooted root) :
    g'.Rooted root := by
  obtain ⟨x, hx, hblock⟩ := hg.detached
  exact ⟨h.linked, x, h.trimmed.op_ok hx, hblock⟩

theorem Erased.rooted (h : Erased g e g') (hg : g.Rooted root) (he : g.Inside root e) :
    g'.Rooted root := by
  obtain ⟨x, hx, hblock⟩ := hg.detached
  exact ⟨h.linked, x, by rw [h.trimmed.op (he.ne_root hg.detached).symm, hx], hblock⟩

/-- Writing operand slots does not change the weight. -/
theorem Rewired.weight (h : Rewired g g') (hg : g.Rooted root) :
    g'.weight root = g.weight root := by
  obtain ⟨ops, hops, -, hnodup, hmem⟩ := hg.linked.nestedOps_ok hg.detached
  obtain ⟨ops', hops', -, hnodup', hmem'⟩ :=
    (h.rooted hg).linked.nestedOps_ok (h.rooted hg).detached
  have hperm : ops'.Perm ops := by
    rw [List.perm_ext_iff_of_nodup (List.nodup_cons.1 hnodup').2 (List.nodup_cons.1 hnodup).2]
    intro o
    rw [hmem, hmem']
    exact ⟨h.symm.inside, h.inside⟩
  have hsame : ∀ o ∈ ops, g'.opWeight o = g.opWeight o := by
    intro o ho
    obtain ⟨d, hd⟩ := ((hmem o).1 ho).live
    have hk : g.kind o = .ok d.kind := by simp [Graph.kind, hd]
    rw [opWeight_of_kind hk, opWeight_of_kind (h.kind hk)]
  calc g'.weight root = (ops'.map g'.opWeight).sum := weight_eq_sum hops'
    _ = (ops.map g'.opWeight).sum := (hperm.map _).sum_nat
    _ = (ops.map g.opWeight).sum := by rw [List.map_congr_left hsame]
    _ = g.weight root := (weight_eq_sum hops).symm

/-- Without an operation under the root, a function weighs so much less. -/
theorem Trimmed.weight (h : Trimmed g g' e) (hg : g.Rooted root) (hg' : g'.Rooted root)
    (he : g.Inside root e) {k : Kind} (hk : g.kind e = .ok k) :
    g.weight root = g'.weight root + k.weight := by
  obtain ⟨ops, hops, -, hnodup, hmem⟩ := hg.linked.nestedOps_ok hg.detached
  obtain ⟨ops', hops', -, hnodup', hmem'⟩ := hg'.linked.nestedOps_ok hg'.detached
  have hne : ∀ o ∈ ops', o ≠ e := fun o ho => (h.inside_iff.1 ((hmem' o).1 ho)).2
  have hperm : ops.Perm (e :: ops') := by
    have hnodup'' : (e :: ops').Nodup :=
      List.nodup_cons.2 ⟨fun hin => hne e hin rfl, (List.nodup_cons.1 hnodup').2⟩
    rw [List.perm_ext_iff_of_nodup (List.nodup_cons.1 hnodup).2 hnodup'']
    intro o
    rw [List.mem_cons, hmem, hmem', h.inside_iff]
    constructor
    · intro ho
      rcases eq_or_ne o e with heq | hoe
      · exact .inl heq
      · exact .inr ⟨ho, hoe⟩
    · intro ho
      rcases ho with rfl | ⟨ho, -⟩
      · exact he
      · exact ho
  have hsame : ∀ o ∈ ops', g.opWeight o = g'.opWeight o := by
    intro o ho
    rw [opWeight, opWeight, h.kind (hne o ho)]
  calc g.weight root = (ops.map g.opWeight).sum := weight_eq_sum hops
    _ = ((e :: ops').map g.opWeight).sum := (hperm.map _).sum_nat
    _ = k.weight + (ops'.map g'.opWeight).sum := by
      rw [List.map_cons, List.sum_cons, opWeight_of_kind hk, List.map_congr_left hsame]
    _ = g'.weight root + k.weight := by rw [weight_eq_sum hops', Nat.add_comm]

/-! An operation of a known kind stays where it is until it is erased. -/

/-- The operation is under the root and of the kind. -/
structure Contains (g : Graph) (root o : OpId) (k : Kind) : Prop where
  inside : g.Inside root o
  kind : g.kind o = .ok k

section Contains

variable {k : Kind}

theorem Computes.contains {f : Formula} {v : ValueId} (h : g.Computes o f v)
    (ho : g.Inside root o) : g.Contains root o f.kind := ⟨ho, h.kind⟩

theorem Rewired.contains (h : Rewired g g') (ho : g.Contains root o k) : g'.Contains root o k :=
  ⟨h.inside ho.inside, h.kind ho.kind⟩

theorem Inserted.contains {a n : OpId} {d : Draft} (h : Inserted g a d n g')
    (ho : g.Contains root o k) : g'.Contains root o k := by
  obtain ⟨hin, hne⟩ := h.trimmed.inside_iff.1 ho.inside
  exact ⟨hin, by rw [← h.trimmed.kind hne, ho.kind]⟩

theorem Erased.contains (h : Erased g e g') (ho : g.Contains root o k) (hne : o ≠ e) :
    g'.Contains root o k :=
  ⟨h.trimmed.inside_iff.2 ⟨ho.inside, hne⟩, by rw [h.trimmed.kind hne, ho.kind]⟩

theorem Inserted.weight {a n : OpId} {d : Draft} (h : Inserted g a d n g') (hg : g.Rooted root)
    (ha : g.Inside root a) : g'.weight root = g.weight root + d.kind.weight := by
  refine h.trimmed.weight (h.rooted hg) hg (h.inside ha) ?_
  obtain ⟨b, hmade⟩ := h.made
  simp [Graph.kind, hmade, Draft.made, Op.inBlock]

theorem Erased.weight (h : Erased g e g') (hg : g.Rooted root) (he : g.Contains root e k) :
    g.weight root = g'.weight root + k.weight :=
  h.trimmed.weight hg (h.rooted hg he.inside) he.inside he.kind

end Contains

end Graph

/-! ## Reductions -/

theorem Kind.weight_pos_of_isPure {k : Kind} (h : k.isPure = true) : 0 < k.weight := by
  cases k with
  | const | add => decide
  | _ => cases h

namespace Session.Reduction

open Peephole.Graph

variable {axes : Rules.AxisMatch} {s t : Session} {root o : OpId}

/-- Every reduction makes a function lighter. -/
theorem weight_lt (h : s.Reduction axes o t) (hs : s.graph.Rooted root)
    (ho : s.graph.Inside root o) : t.graph.weight root < s.graph.weight root := by
  have hone : Kind.const.weight = 1 := rfl
  have htwo : Kind.add.weight = 2 := rfl
  cases h with
  | unused hf hpure _ he =>
    have herase := he.graph.weight hs (hf.contains ho)
    have hpos := Kind.weight_pos_of_isPure hpure
    omega
  | @sum p q n a b v w x y l s₁ s₂ _ hf _ _ hi _ hr he =>
    -- a constant weighs less than the sum
    have hs₁ := hi.graph.rooted hs
    have hinsert : s₁.graph.weight root = s.graph.weight root + 1 := hi.graph.weight hs ho
    have hwire := hr.graph.rewired.weight hs₁
    have herase : s₂.graph.weight root = t.graph.weight root + 2 :=
      he.graph.weight (hr.graph.rewired.rooted hs₁)
        (hr.graph.rewired.contains (hi.graph.contains (hf.contains ho)))
    omega
  | @pair p q input v s₁ s₂ _ hf hp hpo hr he he' =>
    have hne := hs.linked.ne_of_precedes hpo
    have hs₁ := hr.graph.rewired.rooted hs
    have ho₁ := hr.graph.rewired.contains (hf.contains ho)
    have hp₁ := hr.graph.rewired.contains (hp.computes.contains (ho.before hs.linked hpo))
    have hwire := hr.graph.rewired.weight hs
    have herase : s₁.graph.weight root = s₂.graph.weight root + 3 := he.graph.weight hs₁ ho₁
    have herase' : s₂.graph.weight root = t.graph.weight root + 3 :=
      he'.graph.weight (he.graph.rooted hs₁ ho₁.inside) (he.graph.contains hp₁ hne)
    omega
  | @conjugation x p n a b input v w d s₁ s₂ s₃ s₄ _ hf hx hxo hp hpx hk _ hi _ hr he he' he'' =>
    -- a Z gate weighs less than the three gates of the group
    have hxo_ne := hs.linked.ne_of_precedes hxo
    have hpx_ne := hs.linked.ne_of_precedes hpx
    have hpo_ne := hs.linked.ne_of_precedes (hs.linked.precedes_trans hpx hxo)
    have hxi := ho.before hs.linked hxo
    have hs₁ := hi.graph.rooted hs
    have hs₂ := hr.graph.rewired.rooted hs₁
    have ho₂ := hr.graph.rewired.contains (hi.graph.contains (hf.contains ho))
    have hx₂ := hr.graph.rewired.contains (hi.graph.contains (hx.computes.contains hxi))
    have hp₂ := hr.graph.rewired.contains
      (hi.graph.contains (hp.computes.contains (hxi.before hs.linked hpx)))
    have hs₃ := he.graph.rooted hs₂ ho₂.inside
    have hx₃ := he.graph.contains hx₂ hxo_ne
    have hinsert : s₁.graph.weight root = s.graph.weight root + 3 := by
      rw [hi.graph.weight hs ho, hk]
      rfl
    have hwire := hr.graph.rewired.weight hs₁
    have herase : s₂.graph.weight root = s₃.graph.weight root + 3 := he.graph.weight hs₂ ho₂
    have herase' : s₃.graph.weight root = s₄.graph.weight root + 3 := he'.graph.weight hs₃ hx₃
    have herase'' : s₄.graph.weight root = t.graph.weight root + 3 :=
      he''.graph.weight (he'.graph.rooted hs₃ hx₃.inside)
        (he'.graph.contains (he.graph.contains hp₂ hpo_ne) hpx_ne)
    omega
  | @fusion p n axis axis' a b q input v sum l s₁ s₂ _ hf hp hpo _ _ hi _ hr he =>
    -- the sum of the angles weighs less than the rotation that goes
    have hpi := ho.before hs.linked hpo
    have hs₁ := hi.graph.rooted hs
    have hinsert : s₁.graph.weight root = s.graph.weight root + 2 := hi.graph.weight hs hpi
    have hwire := hr.graph.rewired.weight hs₁
    have herase : s₂.graph.weight root = t.graph.weight root + 3 :=
      he.graph.weight (hr.graph.rewired.rooted hs₁)
        (hr.graph.rewired.contains (hi.graph.contains (hp.computes.contains hpi)))
    omega

end Session.Reduction

/-! ## Runs -/

open Peephole.Graph

variable {axes : Rules.AxisMatch} {c : Config} {rules : RuleSet} {root o : OpId} {limit : Limit}
  {g : Graph} {p q : Progress}

/-- An operation that is not idle has a reduction, so the function has a weight. -/
theorem Graph.Valid.weight_pos (hrules : rules.Regular axes root) (hg : g.Valid root)
    (ho : g.Inside root o) (hbusy : ¬g.Idle c rules o) : 0 < g.weight root := by
  have htracks : Observer.silent.Tracks g root := trivial
  obtain ⟨d, hd, -, hsafe⟩ := dispatch_ok hrules.reduces hg htracks ho c
  cases hv : d.verdict with
  | idle => exact absurd (idle_of_dispatch hrules.clean hd hv) hbusy
  | failed e => simp only [hv] at hsafe
  | applied name =>
    simp only [hv] at hsafe
    obtain ⟨t, -, hreduction, -⟩ := hsafe
    have hlt := hreduction.weight_lt hg.rooted ho
    exact Nat.lt_of_le_of_lt (Nat.zero_le _) hlt

namespace Progress

/-- What a turn takes off the weight, it adds to the count of reductions or more. -/
theorem Advance.reductions_add_weight (h : p.Advance axes c rules root q) (hp : p.Sound root) :
    q.reductions + q.graph.weight root ≤ p.reductions + p.graph.weight root := by
  cases h with
  | passes _ _ _ hgraph _ => rw [reductions_passed, graph_passed, hgraph]
  | reduces _ ho _ _ _ hs _ hreduction hgraph _ =>
    subst hs
    have hlt := hreduction.weight_lt hp.valid.rooted ho
    rw [reductions_reduced, graph_reduced, hgraph]
    dsimp only at hlt
    omega

theorem Turns.reductions_add_weight (hrules : rules.Regular axes root) (hp : p.Sound root)
    (h : p.Turns c rules root limit q) :
    q.reductions + q.graph.weight root ≤ p.reductions + p.graph.weight root := by
  induction h with
  | refl => exact Nat.le_refl _
  | tail hturns ht ih =>
    have hsound := hp.turns hrules hturns
    exact ((hsound.again hrules ht).reductions_add_weight hsound).trans ih

theorem Visited.reductions_add_weight (hrules : rules.Regular axes root) (hg : g.Valid root)
    (h : Visited c rules root g p) : p.reductions + p.graph.weight root ≤ g.weight root := by
  induction h with
  | start => exact Nat.le_of_eq (Nat.zero_add _)
  | seed _ _ ih => exact ih
  | again hp ht ih =>
    have hsound := hp.sound hrules.reduces hrules.clean.programs hg
    exact ((hsound.again hrules ht).reductions_add_weight hsound).trans ih
  | done hp ht ih =>
    have hsound := hp.sound hrules.reduces hrules.clean.programs hg
    obtain ⟨hgraph, hreductions⟩ := turn_done ht (hsound.not_failed hrules ht)
    rw [hgraph, hreductions]
    exact ih

end Progress

/-- A function weighs at most three for every operation in it. -/
theorem Graph.weight_le {ops : List OpId} (h : g.nestedOps root = .ok ops) :
    g.weight root ≤ 3 * ops.length := by
  rw [weight_eq_sum h]
  clear h
  induction ops with
  | nil => exact Nat.le_refl 0
  | cons o ops ih =>
    have hle : g.opWeight o ≤ 3 := by
      rw [opWeight]
      split
      · rw [Kind.weight]
        split
        · decide
        split
        · decide
        split
        · decide
        · decide
      · decide
    rw [List.map_cons, List.sum_cons, List.length_cons]
    omega

/-- The turns of a sweep without a budget stay below its cap. -/
theorem Progress.Turns.lt_cap (hrules : rules.Regular axes root) (hbudget : c.budget = none)
    {ops : List OpId} (hp : p.Sound root) (hops : p.graph.nestedOps root = .ok ops)
    (h : Turns c rules root (p.limit c ops.length) (p.seeded ops) q) :
    q.reductions < (p.limit c ops.length).reductions := by
  have hle := h.reductions_add_weight hrules (hp.seed hops)
  have hweight := weight_le hops
  rw [Progress.reductions_seeded, Progress.graph_seeded] at hle
  rw [Progress.limit, hbudget]
  show q.reductions < p.reductions + max ops.length 1 * 32
  omega

/-- The turns of a sweep do not reach a limit that leaves more reductions than the function
weighs. -/
theorem Progress.Turns.lt_limit (hrules : rules.Regular axes root) {ops : List OpId}
    (hp : p.Sound root) (hops : p.graph.nestedOps root = .ok ops)
    (hbudget : ∀ m, c.budget = some m → p.reductions + p.graph.weight root < m)
    (h : Turns c rules root (p.limit c ops.length) (p.seeded ops) q) :
    q.reductions < (p.limit c ops.length).reductions := by
  cases hb : c.budget with
  | none => exact h.lt_cap hrules hb hp hops
  | some m =>
    have hle := h.reductions_add_weight hrules (hp.seed hops)
    have hm := hbudget m hb
    rw [Progress.reductions_seeded, Progress.graph_seeded] at hle
    rw [Progress.limit, hb]
    show q.reductions < m
    omega

/-- A run that may make as many reductions as the function weighs, and more sweeps,
converges. -/
theorem sweepUpTo_converged (hrules : rules.Regular axes root) :
    ∀ {left : Nat} (made : Nat) {p : Progress}, p.Undisturbed c root → p.graph.weight root < left →
      (∀ m, c.budget = some m → p.reductions + p.graph.weight root ≤ m) →
      ∃ sweeps q, sweepUpTo c rules root left made p =
        .ok ⟨.ok ⟨.converged, sweeps, q.reductions⟩, q⟩
  | left + 1, made, p, hp, hleft, hbudget => by
      obtain ⟨ops, e, p', q, hops, hsweep, hturns, hp', hfinding, hgraph, hreductions, hq⟩ :=
        hp.sweep hrules
      have hle := hturns.reductions_add_weight hrules (hp.toSound.seed hops)
      have hmono := hturns.reductions_le.1
      rw [Progress.reductions_seeded] at hle hmono
      rw [Progress.graph_seeded] at hle
      rw [sweepUpTo_succ left made hsweep]
      cases hfinding with
      | capped _ _ | drained _ =>
        dsimp only
        split
        · exact ⟨made + 1, q, rfl⟩
        · -- a sweep that made a reduction leaves a lighter function
          rename_i hmade
          refine sweepUpTo_converged hrules (made + 1) (hq rfl) ?_ ?_
          · rw [hgraph]
            omega
          · intro m hm
            have hm' := hbudget m hm
            rw [hgraph, hreductions]
            omega
      | settled _ _ _ => exact ⟨made + 1, q, rfl⟩
      | @limited n o hlimit hn ho hbusy =>
        -- a spent budget leaves no weight, so nothing applies
        exfalso
        have hpos := hp'.valid.weight_pos hrules ho hbusy
        rw [Progress.limit] at hlimit
        split at hlimit
        · rename_i m hm
          cases hlimit
          have hm' := hbudget n hm
          omega
        · cases hlimit

/-- The second graph comes from the first, which is a valid function, by one reduction. -/
def Graph.Reduct (axes : Rules.AxisMatch) (root : OpId) (g g' : Graph) : Prop :=
  g.Valid root ∧ ∃ s t o, s.graph = g ∧ t.graph = g' ∧ g.Inside root o ∧
    Session.Reduction axes s o t

theorem Graph.reduct_wellFounded (axes : Rules.AxisMatch) (root : OpId) :
    WellFounded fun g' g => Reduct axes root g g' := by
  refine Subrelation.wf ?_ (measure fun g : Graph => g.weight root).wf
  intro g' g h
  obtain ⟨hg, s, t, o, rfl, rfl, ho, hreduction⟩ := h
  exact hreduction.weight_lt hg.rooted ho

/-- Reductions of functions come to an end in whatever order they are made.  The pass makes
at most three for every gate of the function, two for every sum and one for every constant.
Without a budget no sweep reaches its cap.  If nobody asks to stop, the pass succeeds when its
budget is as large as that number and its number of sweeps larger. -/
theorem Pass.run_normalizes (p : Pass) (h : g.Function root) :
    (WellFounded fun g' g => Graph.Reduct p.axisMatch root g g') ∧
    (∀ q, Progress.Visited p.config p.rules root g q → q.reductions ≤ g.weight root) ∧
    (∃ outcome q, g.simplify root p.rules p.config = .ok ⟨.ok outcome, q⟩ ∧
      outcome.reductions ≤ g.weight root) ∧
    (p.config.budget = none → ∀ {q q' ops}, Progress.Visited p.config p.rules root g q →
      q.graph.nestedOps root = .ok ops →
      Progress.Turns p.config p.rules root (q.limit p.config ops.length) (q.seeded ops) q' →
      q'.reductions < (q.limit p.config ops.length).reductions) ∧
    (p.config.Unraised → g.weight root < p.config.maxSweeps →
      (∀ m, p.config.budget = some m → g.weight root ≤ m) →
      ∃ summary g', p.run g root = .ok (.ok summary, g')) := by
  have hrules := p.rules_regular root
  have hbound : ∀ q, Progress.Visited p.config p.rules root g q → q.reductions ≤ g.weight root := by
    intro q hq
    have hle := hq.reductions_add_weight hrules h.valid
    omega
  refine ⟨reduct_wellFounded _ _, hbound, ?_, ?_, ?_⟩
  · have hstart : Progress.Visited p.config p.rules root g (.start g) := .start
    obtain ⟨outcome, q, hrun, -⟩ := sweepUpTo_ok hrules.reduces hrules.clean.programs p.config
      p.config.maxSweeps 0 (hstart.sound hrules.reduces hrules.clean.programs h.valid)
    refine ⟨outcome, q, hrun p.config.verify, ?_⟩
    rw [sweepUpTo_reductions (hrun p.config.verify)]
    exact hbound q (.sweepUpTo .start (hrun p.config.verify))
  · intro hbudget q q' ops hq hops hturns
    exact hturns.lt_cap hrules hbudget (hq.sound hrules.reduces hrules.clean.programs h.valid) hops
  · intro hstop hsweeps hbudget
    obtain ⟨sweeps, q, hrun⟩ := sweepUpTo_converged (c := p.config) hrules 0
      (.start h.valid hstop) hsweeps (by simpa [Progress.start] using hbudget)
    have hq : Progress.Visited p.config p.rules root g q := .sweepUpTo .start hrun
    exact ⟨_, _,
      run_of_converged hrun (hq.sound hrules.reduces hrules.clean.programs h.valid).valid⟩

/-- Two Hadamard gates weigh six, so seven sweeps are enough for them without a budget. -/
theorem Pass.run_normalizes_pair : pairGraph.Function ⟨3⟩ ∧ pairGraph.weight ⟨3⟩ = 6 ∧
    ∃ summary g', Pass.run { config := { maxSweeps := 7, budget := none } } pairGraph ⟨3⟩ =
      .ok (.ok summary, g') := by
  have hweight : pairGraph.weight ⟨3⟩ = 6 := by decide +kernel
  obtain ⟨-, -, -, -, hrun⟩ :=
    Pass.run_normalizes { config := { maxSweeps := 7, budget := none } } pairGraph_function
  refine ⟨pairGraph_function, hweight, hrun (fun _ => rfl) ?_ nofun⟩
  rw [hweight]
  decide

end Peephole
