import Peephole.Proofs.Turns

/-!
# Redexes

`Graph.Redex` says by the shape of a function what can be reduced at an operation: a pure
operation that nobody reads, a sum of constants, two Hadamard gates in a row, an X gate
between two Hadamard gates, or two rotations in a row.  It does not mention the rules or the
questions they ask.

In a valid function, an operation is idle for the pass just if it is no redex
(`Pass.idle_iff`).  One direction reads the shape off the answers that the questions give, and
the other one gives the answers for the shape.
-/

namespace Peephole

open Peephole.Graph

variable {axes : Rules.AxisMatch} {c : Config} {root o : OpId} {g : Graph}

/-- Something can be reduced at the operation. -/
inductive Graph.Redex (c : Config) (axes : Rules.AxisMatch) (g : Graph) (o : OpId) : Prop
  | unused {f : Formula} {v : ValueId} : c.removeDead = true → g.Computes o f v →
      f.kind.isPure = true → (∀ u, g.held? u ≠ some v) → Redex c axes g o
  | sum {p q : OpId} {a b v : ValueId} {x y : Binary64} : c.fold = true →
      g.Computes o (.sum a b) v → g.Computes p (.const x) a → g.Computes q (.const y) b →
      Redex c axes g o
  | pair {p : OpId} {q input v : ValueId} : g.Computes o (.gate .hadamard q) v →
      g.Feeds p (.gate .hadamard input) q ⟨o, 0⟩ → g.Precedes p o → Redex c axes g o
  | conjugation {x p : OpId} {a b input v : ValueId} : g.Computes o (.gate .hadamard b) v →
      g.Feeds x (.gate .pauliX a) b ⟨o, 0⟩ → g.Precedes x o →
      g.Feeds p (.gate .hadamard input) a ⟨x, 0⟩ → g.Precedes p x → Redex c axes g o
  | fusion {p : OpId} {axis axis' : Axis} {a b q input v : ValueId} :
      g.Computes o (.rotation axis b q) v → g.Feeds p (.rotation axis' a input) q ⟨o, 1⟩ →
      g.Precedes p o → g.Visible b p → (axes = .same → axis' = axis) → Redex c axes g o

/-! ## Answers for the shape -/

section Answers

variable {p : OpId} {f : Formula} {q v : ValueId}

theorem Graph.Feeds.useCount {u : Use} (h : g.Feeds p f q u) (hg : g.Coherent)
    (hu : g.held? u = some q) : g.useCount q = 1 := by
  have hperm : (g.uses q).Perm [u] := by
    rw [List.perm_ext_iff_of_nodup (hg.nodup_uses q) (List.nodup_singleton u)]
    intro u'
    rw [hg.mem_uses, List.mem_singleton]
    constructor
    · exact fun hu' => h.only hu'
    · rintro rfl
      exact hu
  exact hperm.length_eq

theorem Graph.Computes.definer? (h : g.Computes p f q) (hg : g.Linked) :
    g.definer? q = .ok (some p) := by
  obtain ⟨d, hd, hq, -⟩ := h.op_ok
  exact hg.definer?_of_result (slot_of_op hd) hq

theorem Graph.Computes.isKind (h : g.Computes p f q) (k : Kind) :
    g.isKind p k = .ok (decide (f.kind = k)) := by
  obtain ⟨d, hd, hf, -⟩ := h
  simp [Graph.isKind, slot_of_op hd, (op_eq_ok.1 hd).2, (Op.formula?_eq_some hf).1]

theorem Graph.Computes.definerOfKind? (h : g.Computes p f q) (hg : g.Linked) :
    g.definerOfKind? q f.kind = .ok (some p) := by
  simp [Graph.definerOfKind?, h.definer? hg, h.isKind]

theorem Rules.exclusiveGate?_of_feeds {i : Nat} {reader : OpId} (h : g.Feeds p f q ⟨o, i⟩)
    (hg : g.Valid root) (hq : g.held? ⟨o, i⟩ = some q) (hpo : g.Precedes p o)
    (hreader : g.regionOf? o = g.regionOf? reader) :
    exclusiveGate? g q f.kind reader = .ok (some p) := by
  obtain ⟨d, hd, -⟩ := id h.computes
  obtain ⟨r, hr⟩ := hg.regionOf?_ok hd
  have hregion : g.regionOf? reader = .ok r := by
    rw [← hreader, ← hg.linked.regionOf?_of_precedes hpo, hr]
  simp [exclusiveGate?, h.computes.definer? hg.linked, h.computes.kind, h.useCount hg.coherent hq,
    hr, hregion]

theorem Rules.conjugatedX?_of_feeds {x : OpId} {a b input : ValueId} (hg : g.Valid root)
    (hf : g.Computes o (.gate .hadamard b) v) (hx : g.Feeds x (.gate .pauliX a) b ⟨o, 0⟩)
    (hxo : g.Precedes x o) (hp : g.Feeds p (.gate .hadamard input) a ⟨x, 0⟩)
    (hpx : g.Precedes p x) : conjugatedX? g o = .ok (some (x, p)) := by
  have hb : g.gateQubit o = .ok b := hf.operand rfl
  have ha : g.gateQubit x = .ok a := hx.computes.operand rfl
  have hfirst : exclusiveGate? g b .pauliX o = .ok (some x) :=
    exclusiveGate?_of_feeds hx hg (hf.held? 0) hxo rfl
  have hsecond : exclusiveGate? g a .hadamard o = .ok (some p) :=
    exclusiveGate?_of_feeds hp hg (hx.computes.held? 0) hpx (hg.linked.regionOf?_of_precedes hxo)
  simp [conjugatedX?, hb, hfirst, ha, hsecond]

theorem Rules.fusible?_of_feeds {axis axis' : Axis} {a b input : ValueId} (hg : g.Valid root)
    (ho : g.Inside root o) (hf : g.Computes o (.rotation axis b q) v)
    (hp : g.Feeds p (.rotation axis' a input) q ⟨o, 1⟩) (hpo : g.Precedes p o)
    (hb : g.Visible b p) (haxes : axes = .same → axis' = axis) :
    fusible? axes g o = .ok (some p) := by
  have hq : g.rotationQubit o = .ok q := hf.operand rfl
  have hangle : g.rotationAngle o = .ok b := hf.operand rfl
  have hdefiner : g.definerOfKind? q .rotate = .ok (some p) := hp.computes.definerOfKind? hg.linked
  obtain ⟨x, hx, -⟩ := hp.computes.op_ok
  obtain ⟨r, hr⟩ := hg.regionOf?_ok hx
  have hr' : g.regionOf? o = .ok r := by rw [← hg.linked.regionOf?_of_precedes hpo, hr]
  obtain ⟨y, hy⟩ := hg.exist (hf.held? 0)
  obtain ⟨n, hn⟩ := ho.before hg.linked hpo
  obtain ⟨answer, hscope, hanswer⟩ := hg.linked.inScope_ok hy ⟨root, _, hn, hg.detached.no_owner⟩
  have hvisible : g.inScope b p = .ok true := by rw [hscope, hanswer.2 hb]
  have hcount := hp.useCount hg.coherent (hf.held? 1)
  by_cases hsame : axes = .same
  · simp [fusible?, hf.isKind, Formula.kind, hq, hdefiner, hr, hr', hp.computes.rotationAxis,
      hf.rotationAxis, hp.computes.result, hangle, hvisible, hcount, haxes hsame]
  · simp [fusible?, hf.isKind, Formula.kind, hq, hdefiner, hr, hr', hp.computes.result, hangle,
      hvisible, hcount, hsame]

end Answers

/-- Rules that all find no match leave an operation idle. -/
theorem tryRules_noMatch {observer : Observer} {rs : List Rule}
    (h : ∀ r ∈ rs, ∀ {s : Session}, s.graph = g → (r.apply o).runOn s = .ok (.ok .noMatch, s)) :
    ∀ calls, ∃ called, tryRules observer o g false calls rs =
      .ok ⟨g, observer, false, called, .idle⟩ := by
  induction rs with
  | nil => exact fun calls => ⟨calls, rfl⟩
  | cons r rs ih =>
    intro calls
    obtain ⟨called, hrest⟩ :=
      ih (fun r' hr' => h r' (.tail r hr')) (calls ++ [⟨r.name, o, .ok .noMatch⟩])
    refine ⟨called, ?_⟩
    rw [tryRules, h r (.head rs) rfl]
    exact hrest

/-- Rules that left an operation idle have all told nobody. -/
theorem tryRules_quiet {observer : Observer} {calls : List Call} {d : Dispatched} {rs : List Rule}
    (hrs : ∀ r ∈ rs, r.Clean) (h : tryRules observer o g false calls rs = .ok d)
    (hd : d.verdict = .idle) :
    ∀ r ∈ rs, ∃ m t, (r.apply o).runOn { graph := g, observer } = .ok (.ok m, t) ∧
      t.mutated = false := by
  induction rs generalizing calls with
  | nil => nofun
  | cons r rs ih =>
    rw [tryRules, bind_eq_ok] at h
    obtain ⟨⟨answer, s⟩, hrun, h⟩ := h
    dsimp only at h
    split at h
    · cases h
      cases hd
    · cases h
      cases hd
    · cases h
      cases hd
    · rename_i m hmutated
      obtain ⟨hgraph, hstop⟩ := (hrs r (.head rs)).untouched hrun hmutated
      have hobserver : s.observer = observer := (r.discreet o hrun hmutated).2
      rw [hgraph, hstop, hobserver] at h
      exact List.forall_mem_cons.2
        ⟨⟨m, s, hrun, hmutated⟩, ih (fun r' hr' => hrs r' (.tail r hr')) h⟩

/-- An idle operation is not unused, is no sum of constants, and its rules tell nobody. -/
theorem Graph.Idle.cases {rules : RuleSet} (hrules : rules.Clean) (h : g.Idle c rules o) :
    ∃ x n, g.op o = .ok x ∧ g.totalUses o = .ok n ∧
      ¬(c.removeDead = true ∧ x.kind.isPure = true ∧ n = 0) ∧
      (c.fold = true → g.foldedSum? o = .ok none) ∧
      ∀ r ∈ rules.rulesFor x.kind, ∃ m t,
        (r.apply o).runOn { graph := g, observer := .silent } = .ok (.ok m, t) ∧
          t.mutated = false := by
  obtain ⟨calls, hd⟩ := h .silent
  have hfor : ∀ k, ∀ r ∈ rules.rulesFor k, r.Clean :=
    fun k r hr => hrules r (RuleSet.mem_rulesFor.1 hr).1
  obtain ⟨x, n, hx, hn, ⟨-, answer, s, -, hd⟩ | ⟨hdead, ⟨-, answer, s, hrun, hd⟩ | ⟨hc, htry⟩⟩⟩ :=
    dispatch_cases hd
  · replace hd := congrArg Dispatched.verdict hd
    cases answer with
    | ok _ => cases hd
    | error e => cases hd
  · refine ⟨x, n, hx, hn, hdead, ?_⟩
    split at hd
    · replace hd := congrArg Dispatched.verdict hd
      cases hd
    · replace hd := congrArg Dispatched.verdict hd
      cases hd
    · have hsum := EditM.runOn_fold_false hrun
      exact ⟨fun _ => hsum, tryRules_quiet (hfor x.kind) hd rfl⟩
  · refine ⟨x, n, hx, hn, hdead, fun hc' => ?_, tryRules_quiet (hfor x.kind) htry rfl⟩
    rw [hc] at hc'
    cases hc'

namespace Pass

variable {x : Op} {f : Formula} {v : ValueId}

theorem not_redex_of_idle (p : Pass) (hg : g.Valid root) (ho : g.Inside root o)
    (h : g.Idle c p.rules o) : ¬g.Redex c p.axisMatch o := by
  intro hredex
  obtain ⟨x, n, hx, hn, hdead, hfold, hquiet⟩ := h.cases p.rules_clean
  have hkind : ∀ {f v}, g.Computes o f v → x.kind = f.kind := by
    intro f v hf
    simpa [Graph.kind, hx] using hf.kind
  -- The rules for the operation told nobody, so none of their questions has an answer.
  have hnone : ∀ {α : Type} {r : Rule} {question : OpId → Graph → Except Fault (Option α)} {a : α},
      r.Asks question → r ∈ p.rules.rules → r.root = x.kind → question o g ≠ .ok (some a) := by
    intro α r question a hasks hr hk hsome
    obtain ⟨m, t, hrun, hmutated⟩ := hquiet r (RuleSet.mem_rulesFor.2 ⟨hr, hk⟩)
    rw [hasks.mutated hsome hrun] at hmutated
    cases hmutated
  cases hredex with
  | unused hc hf hpure hfree =>
    refine hdead ⟨hc, hkind hf ▸ hpure, ?_⟩
    simpa [totalUses, hf.results, hg.coherent.uses_eq_nil hfree] using hn.symm
  | sum hc hf hp hq =>
    have hleft : g.operand o 0 = .ok _ := hf.operand rfl
    have hright : g.operand o 1 = .ok _ := hf.operand rfl
    have hp' : g.definerOfKind? _ .const = .ok _ := hp.definerOfKind? hg.linked
    have hq' : g.definerOfKind? _ .const = .ok _ := hq.definerOfKind? hg.linked
    have hsum := hfold hc
    simp [foldedSum?, hf.isKind, Formula.kind, hleft, hright, hp', hq', hp.constNumber,
      hq.constNumber] at hsum
  | @pair first q input v hf hp hpo =>
    have hq : g.gateQubit o = .ok q := hf.operand rfl
    refine hnone Rules.hadamardPair_asks (a := first) (.head _) (hkind hf).symm ?_
    rw [hq, ok_bind]
    exact Rules.exclusiveGate?_of_feeds hp hg (hf.held? 0) hpo rfl
  | conjugation hf hx' hxo hp hpx =>
    exact hnone Rules.hadamardConjugation_asks (.tail _ (.head _)) (hkind hf).symm
      (Rules.conjugatedX?_of_feeds hg hf hx' hxo hp hpx)
  | fusion hf hp hpo hb haxes =>
    exact hnone (Rules.fuseRotations_asks p.axisMatch) (.tail _ (.tail _ (.head _)))
      (hkind hf).symm (Rules.fusible?_of_feeds hg ho hf hp hpo hb haxes)

theorem idle_of_not_redex (p : Pass) (hg : g.Valid root) (ho : g.Inside root o)
    (h : ¬g.Redex c p.axisMatch o) : g.Idle c p.rules o := by
  obtain ⟨x, hx⟩ := ho.live
  obtain ⟨n, hn⟩ : ∃ n, g.totalUses o = .ok n := ⟨_, by simp [totalUses, results, hx]; rfl⟩
  have hdead : ¬(c.removeDead = true ∧ x.kind.isPure = true ∧ n = 0) := by
    rintro ⟨hc, hpure, rfl⟩
    obtain ⟨f, v, hf, hfk⟩ := hg.computes ho hx (Kind.isReducible_of_isPure hpure)
    exact h (.unused hc hf (hfk ▸ hpure) (hf.unread_of_totalUses hg.coherent hn))
  have hfold : c.fold = true → g.foldedSum? o = .ok none := by
    intro hc
    rcases hg.foldedSum?_ok ho with hnone | ⟨a, b, v, q, r, x, y, -, hf, hq, hr⟩
    · exact hnone
    · exact absurd (.sum hc hf hq hr) h
  intro observer
  rw [dispatch_eq_tryRules hx hn hdead hfold]
  refine tryRules_noMatch (fun r hr s hs => ?_) []
  obtain ⟨hmem, hroot⟩ := RuleSet.mem_rulesFor.1 hr
  subst hs
  rcases p.mem_rules.1 hmem with rfl | rfl | rfl
  · obtain ⟨f, v, hf, hfk⟩ := hg.computes ho hx (by rw [← hroot]; rfl)
    obtain ⟨q, rfl⟩ := Formula.eq_gate (hfk.trans hroot.symm) (.head _)
    refine Rules.hadamardPair_asks.noMatch ?_
    have hq : s.graph.gateQubit o = .ok q := hf.operand rfl
    rcases Rules.exclusiveGate?_ok .hadamard rfl hg ho (hf.held? 0) rfl with
      hnone | ⟨first, f', -, hfirst, hk, hpo⟩
    · simp [hq, hnone]
    · obtain ⟨input, rfl⟩ := Formula.eq_gate hk (.head _)
      exact absurd (.pair hf hfirst hpo) h
  · obtain ⟨f, v, hf, hfk⟩ := hg.computes ho hx (by rw [← hroot]; rfl)
    obtain ⟨b, rfl⟩ := Formula.eq_gate (hfk.trans hroot.symm) (.head _)
    refine Rules.hadamardConjugation_asks.noMatch ?_
    rcases Rules.conjugatedX?_ok hg ho hf with hnone | ⟨y, first, a, input, -, hy, hyo, hfirst, hpy⟩
    · exact hnone
    · exact absurd (.conjugation hf hy hyo hfirst hpy) h
  · obtain ⟨f, v, hf, hfk⟩ := hg.computes ho hx (by rw [← hroot]; rfl)
    obtain ⟨axis, b, q, rfl⟩ := hf.rotation_of_kind (hfk.trans hroot.symm)
    refine (Rules.fuseRotations_asks p.axisMatch).noMatch ?_
    rcases Rules.fusible?_ok p.axisMatch hg ho hf with
      hnone | ⟨first, axis', a, input, -, hfirst, hpo, hb, haxes⟩
    · exact hnone
    · exact absurd (.fusion hf hfirst hpo hb haxes) h

/-- An operation of a valid function is idle for the pass just if it is no redex. -/
theorem idle_iff (p : Pass) (hg : g.Valid root) (ho : g.Inside root o) :
    g.Idle c p.rules o ↔ ¬g.Redex c p.axisMatch o :=
  ⟨p.not_redex_of_idle hg ho, p.idle_of_not_redex hg ho⟩

end Pass

end Peephole
