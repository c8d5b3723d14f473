import Peephole.Pass
import Peephole.Proofs.Reductions

/-!
# The rules reduce

Each rule of the pass, and constant folding, does one of two things at an operation under
the root of a valid function.  It does not match and leaves the session alone, or it
applies and makes a sequence of edits of a function.  No call on the way is a fault or an
edit error.

The rules look at little: that two gates are in one region and that the value between them
has one use.  In a valid function this is enough.  A value that is visible and made in the
same region is made before, in the same block, so what the first gate reads is visible
wherever the result of the last one is, and what has lost its only use can be erased.

`Session.Reduction` lists the five reductions, each with the edits it consists of.
-/

namespace Peephole

open Peephole.Graph

variable {axes : Rules.AxisMatch} {root o : OpId} {s : Session}

/-! ## What rules see -/

namespace Graph

variable {g : Graph} {p : OpId} {f f' : Formula} {v w : ValueId}

theorem Valid.operand_visible (h : g.Valid root) (ho : g.Inside root o) (hf : g.Computes o f v)
    (hw : w ∈ f.operands) : g.Visible w o := by
  obtain ⟨i, hi⟩ := List.mem_iff_getElem?.1 hw
  have hheld : g.held? ⟨o, i⟩ = some w := (hf.held? i).trans hi
  exact h.visible hheld ho

/-- What is visible at an operation or before it is none of its results. -/
theorem Computes.ne_of_visible (hf : g.Computes p f v) (h : g.Valid root) (ho : g.Inside root o)
    (hop : o = p ∨ g.Precedes o p) (hw : g.Visible w o) : w ≠ v := by
  rintro rfl
  obtain ⟨d, hd, hv, -⟩ := hf.op_ok
  exact Visible.not_before h.linked h.detached (slot_of_op hd) hv ho hop hw

/-- What is computed is not new. -/
theorem Computes.ne_new (hf : g.Computes o f v) (hg : g.Linked) (hw : ∀ y, g.value w ≠ .ok y) :
    v ≠ w := by
  rintro rfl
  obtain ⟨y, hy⟩ := hf.value_ok hg
  exact hw y hy

theorem Computes.visible_after (hf : g.Computes p f v) (hpo : g.Precedes p o) : g.Visible v o := by
  obtain ⟨x, hx, hv, -⟩ := hf.op_ok
  exact .earlier hpo hx hv

theorem Inside.before (hg : g.Linked) (ho : g.Inside root o) (hpo : g.Precedes p o) :
    g.Inside root p := ho.sibling (hg.ownerOf?_of_precedes hpo)

/-- One slot that holds a value with one use is the only one. -/
theorem Coherent.only_use (h : g.Coherent) {u u' : Use} (hone : g.useCount v = 1)
    (hu : g.held? u = some v) (hu' : g.held? u' = some v) : u' = u := by
  obtain ⟨x, hx⟩ := List.length_eq_one_iff.1 hone
  have hmem := h.mem_uses.2 hu
  have hmem' := h.mem_uses.2 hu'
  rw [hx, List.mem_singleton] at hmem hmem'
  rw [hmem, hmem']

/-- The operation computes a value for one slot and for no other. -/
structure Feeds (g : Graph) (p : OpId) (f : Formula) (q : ValueId) (u : Use) : Prop where
  computes : g.Computes p f q
  only {u' : Use} : g.held? u' = some q → u' = u

namespace Feeds

variable {g' : Graph} {q : ValueId} {u : Use}

theorem inserted {a n : OpId} {d : Draft} (h : g.Feeds p f q u) (hi : Inserted g a d n g')
    (hq : q ∉ d.operands) : g'.Feeds p f q u := by
  refine ⟨hi.computes h.computes, ?_⟩
  intro u' hu'
  rcases hi.held_cases hu' with ⟨-, hmem⟩ | ⟨-, hu'⟩
  · exact absurd hmem hq
  · exact h.only hu'

theorem retired (h : g.Feeds p f q u) (hr : Retired g o v w g') (hpo : p ≠ o)
    (hv : v ∉ f.operands) (hq : q ≠ w) : g'.Feeds p f q u := by
  refine ⟨hr.computes h.computes hpo hv, ?_⟩
  intro u' hu'
  obtain ⟨-, hu' | hu'⟩ := hr.held hu'
  · exact h.only hu'
  · exact absurd hu' hq

/-- When the only reader of a value is gone, nobody reads it. -/
theorem unread_of_retired (h : g.Feeds p f q u) (hr : Retired g u.user v w g') (hq : q ≠ w)
    (u' : Use) : g'.held? u' ≠ some q := by
  intro hu'
  obtain ⟨huser, hu' | hu'⟩ := hr.held hu'
  · exact huser (congrArg Use.user (h.only hu'))
  · exact hq hu'

theorem unread_of_erased (h : g.Feeds p f q u) (he : Erased g u.user g') (u' : Use) :
    g'.held? u' ≠ some q := by
  intro hu'
  obtain ⟨huser, hu'⟩ := he.held_cases hu'
  exact huser (congrArg Use.user (h.only hu'))

theorem unread_of_rerouted (h : g.Feeds p f q ⟨o, 1⟩) (hr : Rerouted g o v w g') (hv : q ≠ v)
    (hw : q ≠ w) (u' : Use) : g'.held? u' ≠ some q := by
  intro hu'
  rcases hr.held_cases hu' with ⟨-, heq⟩ | ⟨-, heq⟩ | ⟨hslot, -, hu'⟩
  · exact hw heq
  · exact hv heq
  · exact hslot (h.only hu')

end Feeds

theorem Framed.regionOf?_ok (h : g.Framed root) {x : Op} (hx : g.op o = .ok x) :
    ∃ r, g.regionOf? o = .ok r := by
  cases hb : x.block with
  | none => exact ⟨none, by simp [regionOf?, hx, hb]⟩
  | some b =>
    obtain ⟨B, hB, -⟩ := h.linked.placed.1 ⟨x, hx, hb⟩
    exact ⟨B.region, by simp [regionOf?, hx, hb, hB]⟩

end Graph

/-- The definer of an operand under the root is there too. -/
theorem Graph.Valid.definer_ok {g : Graph} {q : ValueId} {i : Nat} (h : g.Valid root)
    (ho : g.Inside root o) (hq : g.held? ⟨o, i⟩ = some q) :
    g.definer? q = .ok none ∨ ∃ p x, g.definer? q = .ok (some p) ∧ g.op p = .ok x ∧
      q ∈ x.results ∧ g.Inside root p := by
  have hvisible : g.Visible q o := h.visible hq ho
  obtain ⟨y, hy⟩ := h.exist hq
  cases hdef : g.definer? q with
  | error e => simp [definer?, origin, hy] at hdef
  | ok definer =>
    cases definer with
    | none => exact .inl rfl
    | some p =>
      obtain ⟨x, hx, hmem⟩ := h.linked.definer?_eq_some hdef
      have hxp := hvisible.definer h.linked hx hmem
      exact .inr ⟨p, x, rfl, hxp, hmem,
        (hvisible.belongs h.linked h.detached ho).definer h.linked hxp hmem⟩

/-- The operation that makes an operand, if it has the kind a rule looks for. -/
theorem Graph.Valid.definerOfKind?_ok {g : Graph} {q : ValueId} {i : Nat} (kind : Kind)
    (hk : kind.isReducible = true) (h : g.Valid root) (ho : g.Inside root o)
    (hq : g.held? ⟨o, i⟩ = some q) :
    g.definerOfKind? q kind = .ok none ∨ ∃ p f, g.definerOfKind? q kind = .ok (some p) ∧
      g.Computes p f q ∧ f.kind = kind ∧ g.Inside root p := by
  rcases h.definer_ok ho hq with hnone | ⟨p, x, hsome, hx, hmem, hp⟩
  · exact .inl (by simp [definerOfKind?, hnone])
  · have hkind : g.isKind p kind = .ok (decide (x.kind = kind)) := by
      simp [isKind, slot_of_op hx, (op_eq_ok.1 hx).2]
    by_cases heq : x.kind = kind
    · obtain ⟨f, hf, hfk⟩ := h.computes_result hp hx hmem (heq ▸ hk)
      exact .inr ⟨p, f, by simp [definerOfKind?, hsome, hkind, heq], hf, hfk.trans heq, hp⟩
    · exact .inl (by simp [definerOfKind?, hsome, hkind, heq])

/-- The gate that a rule looks for comes before the operation that reads its result, in the
block of that operation, and nobody else reads it. -/
theorem Rules.exclusiveGate?_ok {g : Graph} {q : ValueId} {reader : OpId} {i : Nat} (kind : Kind)
    (hk : kind.isReducible = true) (h : g.Valid root) (ho : g.Inside root o)
    (hq : g.held? ⟨o, i⟩ = some q) (hregion : g.regionOf? o = g.regionOf? reader) :
    exclusiveGate? g q kind reader = .ok none ∨
      ∃ p f, exclusiveGate? g q kind reader = .ok (some p) ∧ g.Feeds p f q ⟨o, i⟩ ∧
        f.kind = kind ∧ g.Precedes p o := by
  rcases h.definer_ok ho hq with hnone | ⟨p, x, hsome, hx, hmem, hp⟩
  · exact .inl (by simp [exclusiveGate?, hnone])
  · obtain ⟨d, hd⟩ := ho.live
    obtain ⟨r, hr⟩ := h.regionOf?_ok hd
    obtain ⟨r', hr'⟩ := h.regionOf?_ok hx
    have hkind : g.kind p = .ok x.kind := by simp [Graph.kind, hx]
    have hanswer : exclusiveGate? g q kind reader =
        .ok (if x.kind = kind ∧ g.useCount q = 1 ∧ r' = r then some p else none) := by
      simp only [exclusiveGate?, hsome, hkind, hr', ← hregion, hr, ok_bind, pure_eq_ok]
      grind
    by_cases hall : x.kind = kind ∧ g.useCount q = 1 ∧ r' = r
    · obtain ⟨rfl, hone, rfl⟩ := id hall
      obtain ⟨f, hf, hfk⟩ := h.computes_result hp hx hmem hk
      refine .inr ⟨p, f, ?_, ⟨hf, fun hu => h.coherent.only_use hone hq hu⟩, hfk, ?_⟩
      · rw [hanswer, if_pos hall]
      · exact (h.visible hq ho).precedes h.linked h.detached (slot_of_op hx) hmem ho
          (hr'.trans hr.symm)
    · exact .inl (by rw [hanswer, if_neg hall])

theorem EditM.runOn_replace {s₁ : Session} {f : Formula} {v w : ValueId}
    (hf : s.graph.Computes o f v) (h : (EditM.redirectUses v w).runOn s = .ok (.ok (), s₁)) :
    (EditM.replace o [w]).runOn s = (EditM.erase o).runOn s₁ := by
  have hloop : (forM ([v].zip [w]) fun x => EditM.redirectUses x.1 x.2 : EditM Unit).runOn s =
      .ok (.ok (), s₁) := by
    rw [List.zip_cons_cons, List.forM_cons, EditM.runOn_bind_of_ok h]
    rfl
  rw [EditM.replace_eq, EditM.runOn_ask_bind, hf.results, ok_bind]
  dsimp only
  rw [if_neg (by simp)]
  exact EditM.runOn_bind_of_ok hloop

/-! ## The five reductions -/

/-- A reduction at an operation, edit by edit. -/
inductive Session.Reduction (axes : Rules.AxisMatch) (s : Session) (o : OpId) : Session → Prop
  /-- A constant or a sum that nobody reads goes. -/
  | unused {f : Formula} {v : ValueId} {t : Session} : s.graph.Computes o f v →
      f.kind.isPure = true → (∀ u, s.graph.held? u ≠ some v) → s.Erases o t → Reduction axes s o t
  /-- A constant takes the place of a sum of constants. -/
  | sum {p q n : OpId} {a b v w : ValueId} {x y : Binary64} {l : Location} {s₁ s₂ t : Session} :
      s.graph.Computes o (.sum a b) v → s.graph.Computes p (.const x) a →
      s.graph.Computes q (.const y) b → s.Inserts o (.const l (x + y)) n s₁ →
      s₁.graph.Computes n (.const (x + y)) w → s₁.Redirects v w s₂ → s₂.Erases o t →
      Reduction axes s o t
  /-- Two Hadamard gates in a row go. -/
  | pair {p : OpId} {q input v : ValueId} {s₁ s₂ t : Session} :
      s.graph.Computes o (.gate .hadamard q) v →
      s.graph.Feeds p (.gate .hadamard input) q ⟨o, 0⟩ → s.graph.Precedes p o →
      s.Redirects v input s₁ → s₁.Erases o s₂ → s₂.Erases p t → Reduction axes s o t
  /-- A Z gate takes the place of an X gate between two Hadamard gates. -/
  | conjugation {x p n : OpId} {a b input v w : ValueId} {d : Draft} {s₁ s₂ s₃ s₄ t : Session} :
      s.graph.Computes o (.gate .hadamard b) v → s.graph.Feeds x (.gate .pauliX a) b ⟨o, 0⟩ →
      s.graph.Precedes x o → s.graph.Feeds p (.gate .hadamard input) a ⟨x, 0⟩ →
      s.graph.Precedes p x → d.kind = .pauliZ → d.operands = [input] → s.Inserts o d n s₁ →
      s₁.graph.Computes n (.gate .pauliZ input) w → s₁.Redirects v w s₂ → s₂.Erases o s₃ →
      s₃.Erases x s₄ → s₄.Erases p t → Reduction axes s o t
  /-- A rotation takes over the one before it. -/
  | fusion {p n : OpId} {axis axis' : Axis} {a b q input v sum : ValueId} {l : Location}
      {s₁ s₂ t : Session} : s.graph.Computes o (.rotation axis b q) v →
      s.graph.Feeds p (.rotation axis' a input) q ⟨o, 1⟩ → s.graph.Precedes p o →
      s.graph.Visible b p → (axes = .same → axis' = axis) → s.Inserts p (.add l a b) n s₁ →
      s₁.graph.Computes n (.sum a b) sum → s₁.Reroutes o sum input s₂ → s₂.Erases p t →
      Reduction axes s o t

/-- At an operation under the root, the rule does not match and leaves the session alone,
or it makes a reduction there, which is a sequence of edits of a function. -/
def Rule.Reduces (axes : Rules.AxisMatch) (root : OpId) (r : Rule) : Prop :=
  ∀ {s : Session} {o : OpId} {d : Op}, s.Sound root → s.graph.Inside root o →
    s.graph.op o = .ok d → d.kind = r.root →
    (r.apply o).runOn s = .ok (.ok .noMatch, s) ∨ ∃ t,
      (r.apply o).runOn s = .ok (.ok .applied, t) ∧ s.Leads axes root t ∧ t.mutated = true ∧
        s.Reduction axes o t

/-! ## The Hadamard rules -/

namespace Rules

open EditM

theorem hadamardPair_reduces : hadamardPair.Reduces axes root := by
  intro s o d h ho hd hk
  have hg := h.valid.linked
  obtain ⟨f, v, hf, hfk⟩ := h.valid.computes ho hd (by rw [hk]; rfl)
  obtain ⟨q, rfl⟩ := Formula.eq_gate (hfk.trans hk) (.head _)
  have hq : s.graph.gateQubit o = .ok q := hf.operand rfl
  rcases exclusiveGate?_ok .hadamard rfl h.valid ho (hf.held? 0) rfl with
    hnone | ⟨p, f', hsome, hp, hpk, hpo⟩
  · left
    simp [hadamardPair, hq, hnone]
  right
  obtain ⟨input, rfl⟩ := Formula.eq_gate hpk (.head _)
  have hpi := ho.before hg hpo
  have hinput : s.graph.Visible input p := h.valid.operand_visible hpi hp.computes (.head _)
  have hne := hg.ne_of_precedes hpo
  have hinput_v : input ≠ v := hf.ne_of_visible h.valid hpi (.inr hpo) hinput
  have hinput_q : input ≠ q := hp.computes.ne_of_visible h.valid hpi (.inl rfl) hinput
  obtain ⟨s₁, s₂, hrun₁, hrun₂, hleads, -, hredirects, herases, hret⟩ := h.retire_ok axes ho hf
    (.pair (hf.formula? hg) (hp.computes.formula? hg))
    (fun r hor => (hinput.later hg hpo).later hg hor) hinput_v
  obtain ⟨t, hrun, hleads', hmutated, herases'⟩ := hleads.sound.erase_ok axes (hret.inside hpi hne)
    (hret.computes hp.computes hne (by simp [Formula.operands, hinput_v.symm]))
    (hp.unread_of_retired hret hinput_q.symm)
  refine ⟨t, ?_, hleads.trans hleads', hmutated, .pair hf hp hpo hredirects herases herases'⟩
  have hfirst : s.graph.gateQubit p = .ok input := hp.computes.operand rfl
  simp only [hadamardPair, runOn_ask_bind, hq, hsome, hfirst, hf.result, ok_bind]
  rw [runOn_bind_of_ok hrun₁, runOn_bind_of_ok hrun₂, runOn_bind_of_ok hrun]
  rfl

/-- The X gate and the Hadamard gate right before a Hadamard gate. -/
theorem conjugatedX?_ok {g : Graph} {b v : ValueId} (h : g.Valid root) (ho : g.Inside root o)
    (hf : g.Computes o (.gate .hadamard b) v) :
    conjugatedX? g o = .ok none ∨ ∃ x p a input, conjugatedX? g o = .ok (some (x, p)) ∧
      g.Feeds x (.gate .pauliX a) b ⟨o, 0⟩ ∧ g.Precedes x o ∧
      g.Feeds p (.gate .hadamard input) a ⟨x, 0⟩ ∧ g.Precedes p x := by
  have hb : g.gateQubit o = .ok b := hf.operand rfl
  rcases exclusiveGate?_ok .pauliX rfl h ho (hf.held? 0) rfl with
    hnone | ⟨x, f, hsome, hx, hxk, hxo⟩
  · exact .inl (by simp [conjugatedX?, hb, hnone])
  obtain ⟨a, rfl⟩ := Formula.eq_gate hxk (.tail _ (.head _))
  have ha : g.gateQubit x = .ok a := hx.computes.operand rfl
  rcases exclusiveGate?_ok .hadamard rfl h (ho.before h.linked hxo) (hx.computes.held? 0)
    (h.linked.regionOf?_of_precedes hxo) with hnone | ⟨p, f, hsome', hp, hpk, hpx⟩
  · exact .inl (by simp [conjugatedX?, hb, hsome, ha, hnone])
  obtain ⟨input, rfl⟩ := Formula.eq_gate hpk (.head _)
  exact .inr ⟨x, p, a, input, by simp [conjugatedX?, hb, hsome, ha, hsome'], hx, hxo, hp, hpx⟩

theorem hadamardConjugation_reduces : hadamardConjugation.Reduces axes root := by
  intro s o d h ho hd hk
  have hg := h.valid.linked
  obtain ⟨f, v, hf, hfk⟩ := h.valid.computes ho hd (by rw [hk]; rfl)
  obtain ⟨b, rfl⟩ := Formula.eq_gate (hfk.trans hk) (.head _)
  rcases conjugatedX?_ok h.valid ho hf with
    hnone | ⟨x, p, a, input, hsome, hx, hxo, hp, hpx⟩
  · left
    simp [hadamardConjugation, hnone]
  right
  have hxi := ho.before hg hxo
  have hpi := hxi.before hg hpx
  have hinput : s.graph.Visible input p := h.valid.operand_visible hpi hp.computes (.head _)
  have hinput_x := hinput.later hg hpx
  have hax : s.graph.Visible a x := h.valid.operand_visible hxi hx.computes (.head _)
  -- a Z gate on the input of the group is made before its last gate
  obtain ⟨e, he⟩ : ∃ e, Draft.gate d.location .pauliZ input = .ok e := ⟨_, rfl⟩
  obtain ⟨-, rfl⟩ := Draft.gate_eq_ok.1 he
  obtain ⟨n, s₁, hrun₁, hleads₁, hinserts⟩ := h.insert_ok axes ho (.gate he) rfl rfl rfl (by
    intro w hw
    rw [List.mem_singleton.1 hw]
    exact hinput_x.later hg hxo)
  have hi := hinserts.graph
  obtain ⟨w, hw, hnew⟩ := hi.computes_new (f := .gate .pauliZ input) (fun _ => rfl) rfl rfl
  have hg₁ := hleads₁.sound.valid.linked
  have hinput_a := hp.computes.ne_of_visible h.valid hpi (.inl rfl) hinput
  have hinput_b := hx.computes.ne_of_visible h.valid hpi (.inr hpx) hinput
  have hinput_v := hf.ne_of_visible h.valid hxi (.inr hxo) hinput_x
  have ha_v := hf.ne_of_visible h.valid hxi (.inr hxo) hax
  have hx₁ := hx.inserted hi (by simpa using hinput_b.symm)
  have hp₁ := hp.inserted hi (by simpa using hinput_a.symm)
  -- its result takes the place of the result of the last gate, and the group goes
  obtain ⟨s₂, s₃, hrun₂, hrun₃, hleads₃, -, hredirects, herases, hret⟩ :=
    hleads₁.sound.retire_ok axes (hi.trimmed.inside_iff.1 ho).1 (hi.computes hf)
    (.conjugation ((hi.computes hf).formula? hg₁) (hx₁.computes.formula? hg₁)
      (hp₁.computes.formula? hg₁) (hw.formula? hg₁) ha_v)
    (fun r hor => hw.visible_after (hg₁.precedes_trans hi.before hor)) (hf.ne_new hg hnew).symm
  have hxo_ne := hg.ne_of_precedes hxo
  have hpo_ne := hg.ne_of_precedes (hg.precedes_trans hpx hxo)
  have hp₃ := hp₁.retired hret hpo_ne (by simpa [Formula.operands] using hinput_v.symm)
    (hp.computes.ne_new hg hnew)
  obtain ⟨s₄, hrun₄, hleads₄, -, herases₄⟩ := hleads₃.sound.erase_ok axes
    (hret.inside (hi.trimmed.inside_iff.1 hxi).1 hxo_ne)
    (hret.computes hx₁.computes hxo_ne (by simpa [Formula.operands] using ha_v.symm))
    (hx₁.unread_of_retired hret (hx.computes.ne_new hg hnew))
  have he₄ := herases₄.graph
  obtain ⟨t, hrun, hleads, hmutated, herases'⟩ := hleads₄.sound.erase_ok axes
    (he₄.trimmed.inside_iff.2 ⟨hret.inside (hi.trimmed.inside_iff.1 hpi).1 hpo_ne,
      hg.ne_of_precedes hpx⟩)
    (he₄.computes hp₃.computes (hg.ne_of_precedes hpx)) (hp₃.unread_of_erased he₄)
  refine ⟨t, ?_, ((hleads₁.trans hleads₃).trans hleads₄).trans hleads, hmutated,
    .conjugation hf hx hxo hp hpx rfl rfl hinserts hw hredirects herases herases₄ herases'⟩
  have hfirst : s.graph.gateQubit p = .ok input := hp.computes.operand rfl
  simp only [hadamardConjugation, runOn_ask_bind, hsome, hfirst, hd, he, runOn_lift_bind, ok_bind]
  rw [runOn_bind_of_ok hrun₁, runOn_ask_bind, hw.result, ok_bind,
    runOn_bind_of_ok ((runOn_replace (hi.computes hf) hrun₂).trans hrun₃), runOn_bind_of_ok hrun₄,
    runOn_bind_of_ok hrun]
  rfl

/-! ## Rotation fusion -/

/-- The rotation right before another one, if the two can be fused. -/
theorem fusible?_ok (axes : AxisMatch) {g : Graph} {axis : Axis} {b q v : ValueId}
    (h : g.Valid root) (ho : g.Inside root o) (hf : g.Computes o (.rotation axis b q) v) :
    fusible? axes g o = .ok none ∨ ∃ p axis' a input, fusible? axes g o = .ok (some p) ∧
      g.Feeds p (.rotation axis' a input) q ⟨o, 1⟩ ∧ g.Precedes p o ∧ g.Visible b p ∧
      (axes = .same → axis' = axis) := by
  have hkind : g.isKind o .rotate = .ok true := by
    obtain ⟨d, hd, hdf, -⟩ := id hf
    simp [isKind, slot_of_op hd, (op_eq_ok.1 hd).2, (Op.formula?_eq_some hdf).1, Formula.kind]
  have hq : g.rotationQubit o = .ok q := hf.operand rfl
  have hb : g.rotationAngle o = .ok b := hf.operand rfl
  rcases h.definerOfKind?_ok .rotate rfl ho (hf.held? 1) with
    hnone | ⟨p, f, hsome, hp, hpk, hpi⟩
  · left
    simp [fusible?, hkind, hq, hnone]
  obtain ⟨axis', a, input, rfl⟩ := hp.rotation_of_kind hpk
  obtain ⟨d, hd⟩ := ho.live
  obtain ⟨x, hx, hmem, -⟩ := hp.op_ok
  obtain ⟨r, hr⟩ := h.regionOf?_ok hd
  obtain ⟨r', hr'⟩ := h.regionOf?_ok hx
  obtain ⟨y, hy⟩ := h.exist (hf.held? 0)
  obtain ⟨n, hn⟩ := id hpi
  obtain ⟨answer, hscope, hvisible⟩ := h.linked.inScope_ok hy ⟨root, _, hn, h.detached.no_owner⟩
  have hanswer : fusible? axes g o = .ok (if r' = r ∧ (axes = .same → axis' = axis) ∧
      g.useCount q = 1 ∧ answer = true then some p else none) := by
    simp only [fusible?, hkind, hq, hsome, hr', hr, hp.rotationAxis, hf.rotationAxis, hp.result, hb,
      hscope, ok_bind, pure_eq_ok]
    grind
  by_cases hall : r' = r ∧ (axes = .same → axis' = axis) ∧ g.useCount q = 1 ∧ answer = true
  · obtain ⟨rfl, haxes, hone, hanswer'⟩ := id hall
    refine .inr ⟨p, axis', a, input, by rw [hanswer, if_pos hall], ⟨hp, ?_⟩, ?_,
      hvisible.1 hanswer', haxes⟩
    · exact fun hu => h.coherent.only_use hone (hf.held? 1) hu
    · exact (h.visible (hf.held? 1) ho).precedes h.linked h.detached (slot_of_op hx) hmem ho
        (hr'.trans hr.symm)
  · exact .inl (by rw [hanswer, if_neg hall])

theorem fuseRotations_reduces : (fuseRotations axes).Reduces axes root := by
  intro s o d h ho hd hk
  have hg := h.valid.linked
  obtain ⟨f, v, hf, hfk⟩ := h.valid.computes ho hd (by rw [hk]; rfl)
  obtain ⟨axis, b, q, rfl⟩ := hf.rotation_of_kind (hfk.trans hk)
  rcases fusible?_ok axes h.valid ho hf with
    hnone | ⟨p, axis', a, input, hsome, hp, hpo, hb, haxes⟩
  · left
    simp [fuseRotations, hnone]
  right
  have hpi := ho.before hg hpo
  have ha : s.graph.Visible a p := h.valid.operand_visible hpi hp.computes (.head _)
  have hinput : s.graph.Visible input p :=
    h.valid.operand_visible hpi hp.computes (.tail _ (.head _))
  obtain ⟨x, hx, -⟩ := hp.computes.op_ok
  -- the sum of the angles is made before the first rotation
  have hadd : ∀ w ∈ (Draft.add x.location a b).operands, s.graph.Visible w p := by
    intro w hw
    simp only [Draft.add, List.mem_cons, List.not_mem_nil, or_false] at hw
    rcases hw with rfl | rfl
    · exact ha
    · exact hb
  obtain ⟨n, s₁, hrun₁, hleads₁, hinserts⟩ :=
    h.insert_ok axes hpi (.add x.location a b) rfl rfl rfl hadd
  have hi := hinserts.graph
  obtain ⟨sum, hsum, hnew⟩ := hi.computes_new (f := .sum a b) (fun _ => rfl) rfl rfl
  have hg₁ := hleads₁.sound.valid.linked
  have ha_q := hp.computes.ne_of_visible h.valid hpi (.inl rfl) ha
  have hb_q := hp.computes.ne_of_visible h.valid hpi (.inl rfl) hb
  have hinput_q := hp.computes.ne_of_visible h.valid hpi (.inl rfl) hinput
  have hq_v := hf.ne_of_visible h.valid ho (.inl rfl)
    (h.valid.operand_visible ho hf (.tail _ (.head _)))
  have hp₁ := hp.inserted hi (by simp [Draft.add, ha_q.symm, hb_q.symm])
  have ho₁ := (hi.trimmed.inside_iff.1 ho).1
  have hsum₁ : s₁.graph.Visible sum o :=
    hsum.visible_after (hg₁.precedes_trans hi.before (hi.trimmed.precedes_iff.1 hpo).1)
  -- the second rotation takes the sum and the qubit of the first, and the first one goes
  have hsum_b : sum ≠ b := by
    rintro rfl
    obtain ⟨y, hy⟩ := h.valid.exist (hf.held? 0)
    exact hnew y hy
  have hinput₁ := hi.trimmed.visible_old (hinput.later hg hpo)
  obtain ⟨s₂, hrun₂, hleads₂, hreroutes⟩ := hleads₁.sound.update_ok axes (hi.computes hf)
    (fun hr => .fuse ho₁ (hi.computes hf) (hp₁.computes.formula? hg₁) (hsum.formula? hg₁) haxes
      hq_v hsum₁ hinput₁ hr) ho₁ hsum₁ hinput₁ hsum_b
  have hr := hreroutes.graph
  have hne := hg.ne_of_precedes hpo
  have hp₂ : s₂.graph.Computes p (.rotation axis' a input) q := by
    obtain ⟨x, hx, hrest⟩ := hp₁.computes
    exact ⟨x, hr.op hne hx, hrest⟩
  obtain ⟨t, hrun, hleads, hmutated, herases⟩ := hleads₂.sound.erase_ok axes
    (hr.rewired.inside (hi.trimmed.inside_iff.1 hpi).1) hp₂
    (hp₁.unread_of_rerouted hr (hp.computes.ne_new hg hnew) hinput_q.symm)
  refine ⟨t, ?_, (hleads₁.trans hleads₂).trans hleads, hmutated,
    .fusion hf hp hpo hb haxes hinserts hsum hreroutes herases⟩
  have hsecond : s.graph.rotationAngle o = .ok b := hf.operand rfl
  have hfirst : s.graph.rotationAngle p = .ok a := hp.computes.operand rfl
  have hqubit : s.graph.rotationQubit p = .ok input := hp.computes.operand rfl
  simp only [fuseRotations, runOn_ask_bind, hsome, hsecond, hfirst, hqubit, hx, ok_bind]
  rw [runOn_bind_of_ok hrun₁, runOn_ask_bind, hsum.result, ok_bind, runOn_bind_of_ok hrun₂,
    runOn_bind_of_ok hrun]
  rfl

end Rules

/-! ## Constant folding -/

theorem Graph.Valid.foldedSum?_ok {g : Graph} (h : g.Valid root) (ho : g.Inside root o) :
    g.foldedSum? o = .ok none ∨ ∃ a b v p q x y, g.foldedSum? o = .ok (some (x + y)) ∧
      g.Computes o (.sum a b) v ∧ g.Computes p (.const x) a ∧ g.Computes q (.const y) b := by
  obtain ⟨d, hd⟩ := ho.live
  have hkind : g.isKind o .add = .ok (decide (d.kind = .add)) := by
    simp [isKind, slot_of_op hd, (op_eq_ok.1 hd).2]
  by_cases hk : d.kind = .add
  · obtain ⟨f, v, hf, hfk⟩ := h.computes ho hd (by rw [hk]; rfl)
    obtain ⟨a, b, rfl⟩ := hf.sum_of_kind (hfk.trans hk)
    have ha : g.operand o 0 = .ok a := hf.operand rfl
    have hb : g.operand o 1 = .ok b := hf.operand rfl
    rcases h.definerOfKind?_ok .const rfl ho (hf.held? 0) with hnone | ⟨p, f, hp, hpf, hpk, -⟩
    · exact .inl (by simp [foldedSum?, hkind, hk, ha, hnone])
    · rcases h.definerOfKind?_ok .const rfl ho (hf.held? 1) with hnone | ⟨q, f, hq, hqf, hqk, -⟩
      · exact .inl (by simp [foldedSum?, hkind, hk, ha, hp, hb, hnone])
      · obtain ⟨x, rfl⟩ := hpf.const_of_kind hpk
        obtain ⟨y, rfl⟩ := hqf.const_of_kind hqk
        refine .inr ⟨a, b, v, p, q, x, y, ?_, hf, hpf, hqf⟩
        simp [foldedSum?, hkind, hk, ha, hp, hb, hq, hpf.constNumber, hqf.constNumber]
  · exact .inl (by simp [foldedSum?, hkind, hk])

theorem EditM.fold_reduces (axes : Rules.AxisMatch) (h : s.Sound root)
    (ho : s.graph.Inside root o) :
    (EditM.fold o).runOn s = .ok (.ok false, s) ∨ ∃ t,
      (EditM.fold o).runOn s = .ok (.ok true, t) ∧ s.Leads axes root t ∧ s.Reduction axes o t := by
  have hg := h.valid.linked
  rcases h.valid.foldedSum?_ok ho with hnone | ⟨a, b, v, p, q, x, y, hsome, hf, hp, hq⟩
  · left
    simp [fold, hnone]
  right
  obtain ⟨d, hd, -⟩ := hf.op_ok
  obtain ⟨n, s₁, hrun₁, hleads₁, hinserts⟩ :=
    h.insert_ok axes ho (.const d.location (x + y)) rfl rfl rfl (by simp [Draft.const])
  have hi := hinserts.graph
  obtain ⟨w, hw, hnew⟩ := hi.computes_new (f := .const (x + y))
    (by simp [Op.formula?, Draft.made, Draft.const, Attributes.get?_insert_self, Attribute.number?])
    rfl rfl
  have hg₁ := hleads₁.sound.valid.linked
  obtain ⟨s₂, t, hrun₂, hrun, hleads, -, hredirects, herases, -⟩ := hleads₁.sound.retire_ok axes
    (hi.trimmed.inside_iff.1 ho).1 (hi.computes hf)
    (.sum ((hi.computes hf).formula? hg₁) ((hi.computes hp).formula? hg₁)
      ((hi.computes hq).formula? hg₁) (hw.formula? hg₁))
    (fun r hor => hw.visible_after (hg₁.precedes_trans hi.before hor)) (hf.ne_new hg hnew).symm
  refine ⟨t, ?_, hleads₁.trans hleads, .sum hf hp hq hinserts hw hredirects herases⟩
  simp only [fold, runOn_ask_bind, hsome, hd, ok_bind]
  rw [runOn_bind_of_ok hrun₁, runOn_ask_bind, hw.result, ok_bind,
    runOn_bind_of_ok ((runOn_replace (hi.computes hf) hrun₂).trans hrun)]
  rfl

end Peephole
