import Peephole.Proofs.Availability
import Peephole.Proofs.Construction
import Peephole.Proofs.Patches
import Peephole.Proofs.Redexes

/-!
# What the rules match and change

For each rule of the pass, at any operation of a function that it is offered: what has to
stand before the operation for the rule to apply, and the patch that it is then.  Where that
does not stand there, the rule does not match and leaves the session alone.  There is no
third case, so a rule never ends in a fault or an edit error.

What a rule matches is said in terms of what stands in the graph (`Graph.SoleSource`,
`Graph.Fusible`), and not by the questions it asks.  That what makes an operand comes before
its reader in the same block, and is read there only, follows in a valid function.
-/

namespace Peephole

open Peephole.Graph

variable {root o p : OpId} {s : Session} {g g' : Graph}

/-- Tried at an operation, the rule applies just if there is a redex there, and then changes
the graph as given.  Otherwise it does not match and leaves the session alone. -/
structure Rule.Rewrites {ι : Type} (r : Rule) (s : Session) (o : OpId) (redex : ι → Prop)
    (change : ι → Graph → Prop) : Prop where
  applied_iff : (∃ t, (r.apply o).runOn s = .ok (.ok .applied, t)) ↔ ∃ i, redex i
  noMatch : (¬∃ i, redex i) → (r.apply o).runOn s = .ok (.ok .noMatch, s)
  changes {i : ι} {t : Session} : redex i → (r.apply o).runOn s = .ok (.ok .applied, t) →
    change i t.graph

theorem Rule.Rewrites.of_cases {ι : Type} {r : Rule} {redex : ι → Prop} {change : ι → Graph → Prop}
    (hsome : ∀ i, redex i → ∃ t, (r.apply o).runOn s = .ok (.ok .applied, t) ∧ change i t.graph)
    (hnone : (¬∃ i, redex i) → (r.apply o).runOn s = .ok (.ok .noMatch, s)) :
    r.Rewrites s o redex change where
  applied_iff := by
    constructor
    · rintro ⟨t, hrun⟩
      by_contra hno
      rw [hnone hno] at hrun
      cases hrun
    · rintro ⟨i, hi⟩
      obtain ⟨t, hrun, -⟩ := hsome i hi
      exact ⟨t, hrun⟩
  noMatch := hnone
  changes hi hrun := by
    obtain ⟨t, hrun', hchange⟩ := hsome _ hi
    rw [hrun] at hrun'
    cases hrun'
    exact hchange

/-! ## Where values come from -/

/-- The operation has the given kind, stands in the region of the reader, and makes what the
slot holds, which has no other use. -/
def Graph.SoleSource (g : Graph) (kind : Kind) (p : OpId) (u : Use) : Prop :=
  ∃ x q r, g.op p = .ok x ∧ x.kind = kind ∧ q ∈ x.results ∧ g.held? u = some q ∧
    g.useCount q = 1 ∧ g.regionOf? p = .ok r ∧ g.regionOf? u.user = .ok r

/-- In a valid function, what makes an operand in the same region comes before the reader. -/
theorem Graph.Valid.soleSource_iff {kind : Kind} {u : Use} {q : ValueId} (h : g.Valid root)
    (hu : g.Inside root u.user) (hk : kind.isReducible = true) (hq : g.held? u = some q) :
    g.SoleSource kind p u ↔ ∃ f, g.Feeds p f q u ∧ f.kind = kind ∧ g.Precedes p u.user := by
  constructor
  · rintro ⟨x, q', r, hx, rfl, hmem, hq', hone, hr, hr'⟩
    rw [hq] at hq'
    cases hq'
    have hvisible := h.visible hq hu
    have hp := (hvisible.belongs h.linked h.detached hu).definer h.linked hx hmem
    obtain ⟨f, hf, hfk⟩ := h.computes_result hp hx hmem hk
    exact ⟨f, ⟨hf, fun hu' => h.coherent.only_use hone hq hu'⟩, hfk,
      hvisible.precedes h.linked h.detached (slot_of_op hx) hmem hu (hr.trans hr'.symm)⟩
  · rintro ⟨f, hfeeds, rfl, hbefore⟩
    obtain ⟨x, hx, hmem, hf⟩ := hfeeds.computes.op_ok
    obtain ⟨r, hr⟩ := h.regionOf?_ok hx
    exact ⟨x, q, r, hx, (Op.formula?_eq_some hf).1, hmem, hq, hfeeds.useCount h.coherent hq, hr,
      (h.linked.regionOf?_of_precedes hbefore).symm.trans hr⟩

/-- The first rotation makes the qubit of the second one for it only, their axes agree if they
have to, and the angle of the second one is available at the first. -/
def Graph.Fusible (g : Graph) (axes : Rules.AxisMatch) (p o : OpId) : Prop :=
  g.SoleSource .rotate p ⟨o, 1⟩ ∧ (axes = .any ∨ g.rotationAxis p = g.rotationAxis o) ∧
    ∃ b, g.held? ⟨o, 0⟩ = some b ∧ g.Available b p

theorem Graph.Valid.fusible_iff {axes : Rules.AxisMatch} {axis : Axis} {b q v : ValueId}
    (h : g.Valid root) (ho : g.Inside root o) (hf : g.Computes o (.rotation axis b q) v) :
    g.Fusible axes p o ↔ ∃ axis' a input, g.Feeds p (.rotation axis' a input) q ⟨o, 1⟩ ∧
      g.Precedes p o ∧ g.Visible b p ∧ (axes = .same → axis' = axis) := by
  have haxis : ∀ {axis' a input}, g.Computes p (.rotation axis' a input) q →
      ((axes = .any ∨ g.rotationAxis p = g.rotationAxis o) ↔ (axes = .same → axis' = axis)) := by
    intro axis' a input hp
    rw [hp.rotationAxis, hf.rotationAxis, Except.ok.injEq]
    cases axes with
    | same => simp
    | any => simp
  have hheld : g.held? ⟨o, 0⟩ = some b := hf.held? 0
  rw [Fusible, h.soleSource_iff ho rfl (hf.held? 1)]
  constructor
  · rintro ⟨⟨f, hp, hk, hpo⟩, haxes, b', hb', havailable⟩
    rw [hheld] at hb'
    cases hb'
    obtain ⟨axis', a, input, rfl⟩ := hp.computes.rotation_of_kind hk
    exact ⟨axis', a, input, hp, hpo, visible_iff_available.2 havailable,
      (haxis hp.computes).1 haxes⟩
  · rintro ⟨axis', a, input, hp, hpo, hb, haxes⟩
    exact ⟨⟨_, hp, rfl, hpo⟩, (haxis hp.computes).2 haxes, b, hheld, visible_iff_available.1 hb⟩

/-! ## Patches that move uses -/

/-- Slots that held `old` hold `new`, and the others hold what they did. -/
def Patch.Moves (P : Patch) (old new : ValueId) : Prop :=
  ∀ u w, P.reads u w = if w = old then new else w

section Moves

variable {P : Patch} {f : Formula} {old new q w : ValueId} {u : Use}

theorem Patch.Moves.kept (h : P.Moves old new) (hw : w ≠ old) : P.reads u w = w := by
  rw [h, if_neg hw]

theorem Patch.Moves.read (h : P.Moves old new) (hq : q ≠ new) (heq : P.reads u w = q) :
    w = q ∧ q ≠ old := by
  rw [h] at heq
  split at heq
  · exact absurd heq.symm hq
  · rename_i hw
    exact ⟨heq, heq ▸ hw⟩

theorem Graph.Patched.unread_old (h : g.Patched P g') (hm : P.Moves old new) (hne : old ≠ new)
    (hfresh : ∀ m y, (m, y) ∈ P.fresh → old ∉ y.operands) : g'.uses old = [] :=
  h.unread hfresh fun _ _ _ _ heq => (hm.read hne heq).2 rfl

/-- When the only reader of a value is gone, nobody reads it. -/
theorem Graph.Patched.unread_source (h : g.Patched P g') (hm : P.Moves old new)
    (hp : g.Feeds p f q u) (hu : u.user ∈ P.gone) (hq : q ≠ new)
    (hfresh : ∀ m y, (m, y) ∈ P.fresh → q ∉ y.operands) : g'.uses q = [] := by
  refine h.unread hfresh ?_
  intro u' w hw hgone heq
  obtain ⟨rfl, -⟩ := hm.read hq heq
  rw [hp.only hw] at hgone
  exact hgone hu

end Moves

/-! ## Two Hadamard gates -/

/-- Two gates go, and what read the result of the second one reads the input of the first. -/
def Patch.cancellation (p o : OpId) (input q v : ValueId) : Patch where
  gone := [p, o]
  fresh := []
  reads _ w := if w = v then input else w
  relist r := if r = p ∨ r = o then [] else [r]
  touched := [input, q, v]

/-- Two Hadamard gates in a row are gone. -/
def Graph.Cancelled (g : Graph) (p o : OpId) (g' : Graph) : Prop :=
  ∃ input q v, g.Computes p (.gate .hadamard input) q ∧ g.Computes o (.gate .hadamard q) v ∧
    g.Patched (.cancellation p o input q v) g'

/-- Three gates go, a new one stands in the place of the last, and what read the result of the
last one reads the result of the new one. -/
def Patch.conjugation (p x o n : OpId) (z : Op) (input a b v w : ValueId) : Patch where
  gone := [p, x, o]
  fresh := [(n, z)]
  reads _ r := if r = v then w else r
  relist r := if r = o then [n] else if r = p ∨ r = x then [] else [r]
  touched := [input, a, b, v, w]

/-- A gate on one qubit. -/
def Draft.ofGate (l : Location) (kind : Kind) (qubit : ValueId) : Draft :=
  { kind, location := l, operands := [qubit], resultTypes := [.qubit] }

/-- A Z gate on the same qubit stands in the place of an X gate between two Hadamard gates. -/
def Graph.Conjugated (g : Graph) (p x o : OpId) (g' : Graph) : Prop :=
  ∃ input a b v d n w, g.Computes p (.gate .hadamard input) a ∧ g.Computes x (.gate .pauliX a) b ∧
    g.Computes o (.gate .hadamard b) v ∧ g.op o = .ok d ∧
    g.Patched (.conjugation p x o n
      { (Draft.ofGate d.location .pauliZ input).made [w] with block := d.block } input a b v w) g'

namespace Rules

open EditM

theorem hadamardPair_patched {input q v : ValueId} (h : s.graph.Valid root)
    (ho : s.graph.Inside root o) (hf : s.graph.Computes o (.gate .hadamard q) v)
    (hp : s.graph.Feeds p (.gate .hadamard input) q ⟨o, 0⟩) (hpo : s.graph.Precedes p o) :
    ∃ t, (hadamardPair.apply o).runOn s = .ok (.ok .applied, t) ∧
      s.graph.Patched (.cancellation p o input q v) t.graph := by
  have hg := h.linked
  have hpi := ho.before hg hpo
  have hne := hg.ne_of_precedes hpo
  have hinput : s.graph.Visible input p := h.operand_visible hpi hp.computes (.head _)
  have hinput_v : input ≠ v := hf.ne_of_visible h hpi (.inr hpo) hinput
  have hinput_q : input ≠ q := hp.computes.ne_of_visible h hpi (.inl rfl) hinput
  have hq_v : q ≠ v := hf.ne_of_visible h ho (.inl rfl) (h.operand_visible ho hf (.head _))
  obtain ⟨y, hy⟩ := hf.value_ok hg
  -- the readers of the last gate read the input of the first, and both gates go
  obtain ⟨s₁, hrun₁, h₁⟩ := redirectUses_patched (.none hg h.coherent) hy hinput_v.symm rfl nofun
  have hm₁ : (Patch.none.redirect v input).Moves v input := fun _ _ => rfl
  obtain ⟨s₂, hrun₂, h₂⟩ := erase_patched h₁ hf nofun
    (fun i w hw => hm₁.kept (List.mem_singleton.1 hw ▸ hq_v)) h.exist
    (h₁.unread_old hm₁ hinput_v.symm nofun)
  have hm₂ : ((Patch.none.redirect v input).erase o [q]).Moves v input := fun _ _ => rfl
  obtain ⟨t, hrun, h₃⟩ := erase_patched h₂ hp.computes (by simpa using hne)
    (fun i w hw => hm₂.kept (List.mem_singleton.1 hw ▸ hinput_v)) h.exist
    (h₂.unread_source hm₂ hp (.head _) hinput_q.symm nofun)
  refine ⟨t, ?_, h₃.congr rfl rfl rfl ?_ ?_⟩
  · have hq : s.graph.gateQubit o = .ok q := hf.operand rfl
    have hsome : exclusiveGate? s.graph q .hadamard o = .ok (some p) :=
      exclusiveGate?_of_feeds hp h (hf.held? 0) hpo rfl
    have hfirst : s.graph.gateQubit p = .ok input := hp.computes.operand rfl
    simp only [hadamardPair, runOn_ask_bind, hq, hsome, hfirst, hf.result, ok_bind]
    rw [runOn_bind_of_ok hrun₁, runOn_bind_of_ok hrun₂, runOn_bind_of_ok hrun]
    rfl
  · funext r
    simp only [Patch.cancellation, Patch.erase, Patch.redirect, Patch.none]
    grind
  · simp [Patch.erase, Patch.redirect, Patch.none, Patch.cancellation, Formula.operands]

theorem hadamardConjugation_patched {x : OpId} {input a b v : ValueId} {d : Op}
    (h : s.graph.Valid root) (ho : s.graph.Inside root o) (hd : s.graph.op o = .ok d)
    (hf : s.graph.Computes o (.gate .hadamard b) v)
    (hx : s.graph.Feeds x (.gate .pauliX a) b ⟨o, 0⟩) (hxo : s.graph.Precedes x o)
    (hp : s.graph.Feeds p (.gate .hadamard input) a ⟨x, 0⟩) (hpx : s.graph.Precedes p x) :
    ∃ n w t, (hadamardConjugation.apply o).runOn s = .ok (.ok .applied, t) ∧
      s.graph.Patched (.conjugation p x o n
        { (Draft.ofGate d.location .pauliZ input).made [w] with block := d.block } input a b v w)
        t.graph := by
  have hg := h.linked
  have hxi := ho.before hg hxo
  have hpi := hxi.before hg hpx
  have hxo_ne := hg.ne_of_precedes hxo
  have hpx_ne := hg.ne_of_precedes hpx
  have hpo_ne := hg.ne_of_precedes (hg.precedes_trans hpx hxo)
  have hinput : s.graph.Visible input p := h.operand_visible hpi hp.computes (.head _)
  have hax : s.graph.Visible a x := h.operand_visible hxi hx.computes (.head _)
  have hinput_a := hp.computes.ne_of_visible h hpi (.inl rfl) hinput
  have hinput_b := hx.computes.ne_of_visible h hpi (.inr hpx) hinput
  have hinput_v := hf.ne_of_visible h hxi (.inr hxo) (hinput.later hg hpx)
  have ha_v := hf.ne_of_visible h hxi (.inr hxo) hax
  have hb_v := hf.ne_of_visible h ho (.inl rfl) (h.operand_visible ho hf (.head _))
  obtain ⟨y, hy⟩ := hf.value_ok hg
  -- a Z gate on the input of the group is made before its last gate
  have he : Draft.gate d.location .pauliZ input = .ok (.ofGate d.location .pauliZ input) := rfl
  obtain ⟨n, w, s₁, hrun₁, hnew, h₁⟩ :=
    insert_patched (.ofGate d.location .pauliZ input) hg h.coherent ho hd rfl rfl rfl
  have hw : s₁.graph.Computes n (.gate .pauliZ input) w :=
    ⟨_, op_eq_ok.2 ⟨h₁.made (.head _), rfl⟩, rfl, rfl, rfl⟩
  have hf₁ : s₁.graph.Computes o (.gate .hadamard b) v := by
    obtain ⟨d', hd', hrest⟩ := hf
    exact ⟨d', h₁.op_of_same hd' nofun fun _ _ _ => rfl, hrest⟩
  have hw_v := (hf.ne_new hg hnew).symm
  have hfresh : ∀ {z : ValueId}, input ≠ z → ∀ m y, (m, y) ∈ [(n,
      { (Draft.ofGate d.location .pauliZ input).made [w] with block := d.block })] →
      z ∉ y.operands := by
    intro z hz m y hmem
    cases List.mem_singleton.1 hmem
    exact fun hmem => hz (List.mem_singleton.1 hmem).symm
  -- its result takes the place of the result of the last gate, and the group goes
  obtain ⟨s₂, hrun₂, h₂⟩ := redirectUses_patched h₁ hy hw_v.symm rfl (hfresh hinput_v)
  obtain ⟨s₃, hrun₃, h₃⟩ := erase_patched h₂ hf nofun
    (fun i r hr => if_neg (List.mem_singleton.1 hr ▸ hb_v)) h.exist
    (h₂.unread_old (fun _ _ => rfl) hw_v.symm (hfresh hinput_v))
  obtain ⟨s₄, hrun₄, h₄⟩ := erase_patched h₃ hx.computes (by simpa using hxo_ne)
    (fun i r hr => if_neg (List.mem_singleton.1 hr ▸ ha_v)) h.exist
    (h₃.unread_source (fun _ _ => rfl) hx (.head _) (hx.computes.ne_new hg hnew) (hfresh hinput_b))
  obtain ⟨t, hrun, h₅⟩ := erase_patched h₄ hp.computes (by simp [hpx_ne, hpo_ne])
    (fun i r hr => if_neg (List.mem_singleton.1 hr ▸ hinput_v)) h.exist
    (h₄.unread_source (fun _ _ => rfl) hp (.head _) (hp.computes.ne_new hg hnew) (hfresh hinput_a))
  have hn : ∀ {r y}, s.graph.op r = .ok y → n ≠ r := by
    rintro r y hr rfl
    exact h₁.new (.head _) (slot_of_op hr)
  refine ⟨n, w, t, ?_, h₅.congr rfl rfl rfl ?_ ?_⟩
  · have hsome := conjugatedX?_of_feeds h hf hx hxo hp hpx
    have hfirst : s.graph.gateQubit p = .ok input := hp.computes.operand rfl
    simp only [hadamardConjugation, runOn_ask_bind, hsome, hfirst, hd, he, runOn_lift_bind, ok_bind]
    rw [runOn_bind_of_ok hrun₁, runOn_ask_bind, hw.result, ok_bind,
      runOn_bind_of_ok ((runOn_replace hf₁ hrun₂).trans hrun₃), runOn_bind_of_ok hrun₄,
      runOn_bind_of_ok hrun]
    rfl
  · obtain ⟨y, hy, -⟩ := hp.computes.op_ok
    obtain ⟨z, hz, -⟩ := hx.computes.op_ok
    have hn_p := hn hy
    have hn_x := hn hz
    have hn_o := hn hd
    funext r
    simp only [Patch.conjugation, Patch.erase, Patch.redirect, Patch.insertion]
    grind
  · simp [Patch.erase, Patch.redirect, Patch.insertion, Patch.conjugation, Formula.operands,
      Draft.made, Draft.ofGate]

end Rules

/-! ## Two rotations -/

/-- The first of two rotations goes, and a sum stands in its place.  The second one takes the
sum and the qubit of the first. -/
def Patch.fusion (p o n : OpId) (e : Op) (sum input q : ValueId) : Patch where
  gone := [p]
  fresh := [(n, e)]
  reads u r := if u = ⟨o, 1⟩ then input else if u = ⟨o, 0⟩ then sum else r
  relist r := if r = p then [n] else [r]
  touched := sum :: input :: q :: e.operands

/-- A rotation has taken over the one before it.  The sum of their angles stands where the
first one stood, and the second one stands where it did and is read by whom it was. -/
def Graph.Fused (g : Graph) (p o : OpId) (g' : Graph) : Prop :=
  ∃ axis axis' a b input q v x d n sum, g.Computes p (.rotation axis' a input) q ∧
    g.Computes o (.rotation axis b q) v ∧ g.op p = .ok x ∧ g.op o = .ok d ∧
    g.Patched (.fusion p o n { (Draft.add x.location a b).made [sum] with block := x.block }
      sum input q) g' ∧
    g'.position? n = g.position? p ∧ g'.position? o = g.position? o ∧
    g'.op o = .ok { d with operands := [sum, input] } ∧ g'.uses v = g.uses v

/-- With another name for one entry, every entry stands where it did. -/
theorem idxOf?_renamed {n r : OpId} : ∀ {l : List OpId}, n ∉ l → r ≠ n →
    (l.flatMap fun r => if r = p then [n] else [r]).idxOf? (if r = p then n else r) = l.idxOf? r
  | [], _, _ => rfl
  | q :: l, hn, hr => by
      obtain ⟨hq, hl⟩ := not_or.1 (mt List.mem_cons.2 hn)
      have ih := idxOf?_renamed hl hr
      have hhead : (if q = p then [n] else [q]) = [if q = p then n else q] := by
        split
        · rfl
        · rfl
      have heq : (if q = p then n else q) = (if r = p then n else r) ↔ q = r := by grind
      rw [List.flatMap_cons, hhead, List.singleton_append, List.idxOf?_cons, List.idxOf?_cons, ih]
      simp only [beq_iff_eq, heq]

/-- What is not named by the patch stands where it did, and the sum where the first rotation
stood. -/
theorem Graph.Patched.position?_fusion {n : OpId} {e x y : Op} {sum input q : ValueId} {m r : OpId}
    (h : g.Patched (.fusion p o n e sum input q) g') (hg : g.Linked)
    (hm : m = if r = p then n else r) (hx : g.op r = .ok x) (hy : g'.op m = .ok y)
    (hblock : y.block = x.block) : g'.position? m = g.position? r := by
  have hn : ∀ z, g.op n ≠ .ok z := fun z hz => h.new (.head _) (slot_of_op hz)
  cases hb : x.block with
  | none => simp [position?, hx, hy, hblock, hb]
  | some b =>
    obtain ⟨B, hB, -⟩ := hg.placed.1 ⟨x, hx, hb⟩
    have hB' := h.block b
    rw [hB, map_ok] at hB'
    rw [position?_eq_ok hy (hblock.trans hb) hB', position?_eq_ok hx hb hB, hm]
    refine congrArg _ (idxOf?_renamed ?_ ?_)
    · intro hmem
      obtain ⟨z, hz, -⟩ := hg.placed.2 ⟨B, hB, hmem⟩
      exact hn z hz
    · rintro rfl
      exact hn x hx

namespace Rules

open EditM

theorem fuseRotations_patched (axes : AxisMatch) {axis axis' : Axis} {a b input q v : ValueId}
    (h : s.graph.Valid root) (ho : s.graph.Inside root o)
    (hf : s.graph.Computes o (.rotation axis b q) v)
    (hp : s.graph.Feeds p (.rotation axis' a input) q ⟨o, 1⟩) (hpo : s.graph.Precedes p o)
    (hb : s.graph.Visible b p) (haxes : axes = .same → axis' = axis) :
    ∃ t, ((fuseRotations axes).apply o).runOn s = .ok (.ok .applied, t) ∧
      s.graph.Fused p o t.graph := by
  have hg := h.linked
  have hpi := ho.before hg hpo
  have hne := hg.ne_of_precedes hpo
  have ha : s.graph.Visible a p := h.operand_visible hpi hp.computes (.head _)
  have hinput : s.graph.Visible input p := h.operand_visible hpi hp.computes (.tail _ (.head _))
  have ha_q := hp.computes.ne_of_visible h hpi (.inl rfl) ha
  have hb_q := hp.computes.ne_of_visible h hpi (.inl rfl) hb
  have hinput_q := hp.computes.ne_of_visible h hpi (.inl rfl) hinput
  obtain ⟨x, hx, -⟩ := hp.computes.op_ok
  obtain ⟨d, hd, hformula, hresults, hregions⟩ := id hf
  have hoperands : d.operands = [b, q] := (Op.formula?_eq_some hformula).2.1
  -- the sum of the angles is made before the first rotation
  obtain ⟨n, sum, s₁, hrun₁, hnew, h₁⟩ :=
    insert_patched (.add x.location a b) hg h.coherent hpi hx rfl rfl rfl
  have hsum : s₁.graph.Computes n (.sum a b) sum :=
    ⟨_, op_eq_ok.2 ⟨h₁.made (.head _), rfl⟩, rfl, rfl, rfl⟩
  have hf₁ : s₁.graph.Computes o (.rotation axis b q) v :=
    ⟨d, h₁.op_of_same hd nofun fun _ _ _ => rfl, hformula, hresults, hregions⟩
  have hsum_b : sum ≠ b := by
    rintro rfl
    obtain ⟨y, hy⟩ := h.exist (hf.held? 0)
    exact hnew y hy
  -- the second rotation takes the sum and the qubit of the first, and the first one goes
  obtain ⟨s₂, hrun₂, h₂⟩ := update_patched input h₁ hd nofun hf₁ hsum_b
  obtain ⟨t, hrun, h₃⟩ := erase_patched h₂ hp.computes nofun
    (fun i w _ => by simp [Patch.write, Patch.insertion, hne]) h.exist
    (h₂.unread (by
      intro m y hmem
      cases List.mem_singleton.1 hmem
      simp [Draft.made, Draft.add, ha_q.symm, hb_q.symm]) (by
      intro u w hw _ heq
      simp only [Patch.write, Patch.insertion] at heq
      split at heq
      · exact hinput_q heq
      · rename_i hu
        split at heq
        · exact hp.computes.ne_new hg hnew heq.symm
        · exact hu (hp.only (heq ▸ hw))))
  have hn_p : n ≠ p := by
    rintro rfl
    exact h₁.new (.head _) (slot_of_op hx)
  have hfused : s.graph.Patched (.fusion p o n
      { (Draft.add x.location a b).made [sum] with block := x.block } sum input q) t.graph := by
    refine h₃.congr rfl rfl rfl ?_ ?_
    · funext r
      simp only [Patch.fusion, Patch.erase, Patch.write, Patch.insertion]
      grind
    · simp [Patch.erase, Patch.write, Patch.insertion, Patch.fusion, Formula.operands, Draft.made,
        Draft.add]
  have hop : t.graph.op o = .ok { d with operands := [sum, input] } := by
    rw [hfused.op hd (by simpa [Patch.fusion] using hne.symm), hoperands]
    simp [Patch.operands, Patch.fusion]
  have hmade := op_eq_ok.2 ⟨hfused.made (.head _), rfl⟩
  refine ⟨t, ?_, axis, axis', a, b, input, q, v, x, d, n, sum, hp.computes, hf, hx, hd, hfused,
    ?_, ?_, hop, hfused.uses ?_⟩
  · have hsome := fusible?_of_feeds h ho hf hp hpo hb haxes
    have hsecond : s.graph.rotationAngle o = .ok b := hf.operand rfl
    have hfirst : s.graph.rotationAngle p = .ok a := hp.computes.operand rfl
    have hqubit : s.graph.rotationQubit p = .ok input := hp.computes.operand rfl
    simp only [fuseRotations, runOn_ask_bind, hsome, hsecond, hfirst, hqubit, hx, ok_bind]
    rw [runOn_bind_of_ok hrun₁, runOn_ask_bind, hsum.result, ok_bind, runOn_bind_of_ok hrun₂,
      runOn_bind_of_ok hrun]
    rfl
  · exact hfused.position?_fusion hg (if_pos rfl).symm hx hmade rfl
  · exact hfused.position?_fusion hg (if_neg hne.symm).symm hd hop rfl
  · have hv : ∀ {w}, s.graph.Visible w o → v ≠ w :=
      fun hw => (hf.ne_of_visible h ho (.inl rfl) hw).symm
    have hv_b := hv (h.operand_visible ho hf (.head _))
    have hv_q := hv (h.operand_visible ho hf (.tail _ (.head _)))
    have hv_a := hv (ha.later hg hpo)
    have hv_input := hv (hinput.later hg hpo)
    have hv_sum := hf.ne_new hg hnew
    simp [Patch.fusion, Draft.made, Draft.add, hv_a, hv_b, hv_q, hv_input, hv_sum]

end Rules

/-! ## The rules -/

/-- An X gate between two Hadamard gates, and two rotations of what comes out. -/
def gatesText : Body [Ty.qubit, Ty.number, Ty.number].length :=
  .step (.gate .hadamard ⟨0, by decide⟩ hadamard_isGate) <|
  .step (.gate .pauliX ⟨3, by decide⟩ (by decide)) <|
  .step (.gate .hadamard ⟨4, by decide⟩ hadamard_isGate) <|
  .step (.rotate .x ⟨1, by decide⟩ ⟨5, by decide⟩) <|
  .step (.rotate .x ⟨2, by decide⟩ ⟨6, by decide⟩) <|
  .step (.ret [⟨7, by decide⟩]) .done

/-- The function that `gatesText` is the body of. -/
def gatesGraph : Graph where
  ops := #[
    ((Draft.ofGate default .hadamard ⟨0⟩).made [⟨3⟩]).inBlock ⟨0⟩,
    ((Draft.ofGate default .pauliX ⟨3⟩).made [⟨4⟩]).inBlock ⟨0⟩,
    ((Draft.ofGate default .hadamard ⟨4⟩).made [⟨5⟩]).inBlock ⟨0⟩,
    ((Draft.rotate default .x ⟨1⟩ ⟨5⟩).made [⟨6⟩]).inBlock ⟨0⟩,
    ((Draft.rotate default .x ⟨2⟩ ⟨6⟩).made [⟨7⟩]).inBlock ⟨0⟩,
    ((Draft.ret default [⟨7⟩]).made []).inBlock ⟨0⟩,
    (Draft.func default "f" ⟨0⟩).made []]
  values := #[⟨.argument ⟨0⟩ 0, .qubit⟩, ⟨.argument ⟨0⟩ 1, .number⟩, ⟨.argument ⟨0⟩ 2, .number⟩,
    ⟨.result ⟨0⟩ 0, .qubit⟩, ⟨.result ⟨1⟩ 0, .qubit⟩, ⟨.result ⟨2⟩ 0, .qubit⟩,
    ⟨.result ⟨3⟩ 0, .qubit⟩, ⟨.result ⟨4⟩ 0, .qubit⟩]
  blocks := #[⟨[⟨0⟩, ⟨1⟩, ⟨2⟩], [.qubit, .number, .number], [⟨0⟩, ⟨1⟩, ⟨2⟩, ⟨3⟩, ⟨4⟩, ⟨5⟩],
    some ⟨0⟩, default⟩]
  regions := #[⟨[⟨0⟩], some ⟨6⟩⟩]
  useLists := ⟨#[[⟨⟨0⟩, 0⟩], [⟨⟨3⟩, 0⟩], [⟨⟨4⟩, 0⟩], [⟨⟨1⟩, 0⟩], [⟨⟨2⟩, 0⟩], [⟨⟨3⟩, 1⟩], [⟨⟨4⟩, 1⟩],
    [⟨⟨5⟩, 0⟩]]⟩
  paths := ⟨#["<unknown>"], ⟨[("<unknown>", ⟨0⟩)]⟩⟩

theorem newFunc_gates : Graph.empty.newFunc "f" [.qubit, .number, .number] gatesText.build =
    .ok (⟨6⟩, gatesGraph) := by
  decide +kernel

theorem gatesGraph_function : gatesGraph.Function ⟨6⟩ := function_of_text gatesText newFunc_gates

namespace Rules

/-- Rotations are fused just if they are fusible, and then nothing else is changed. -/
theorem fuseRotations_rewrites (axes : AxisMatch) {d : Op} (h : s.graph.Function root)
    (ho : s.graph.Inside root o) (hd : s.graph.op o = .ok d) (hk : d.kind = .rotate) :
    (fuseRotations axes).Rewrites s o (s.graph.Fusible axes · o) (s.graph.Fused · o) := by
  have hvalid := h.valid
  obtain ⟨f, v, hf, hfk⟩ := hvalid.computes ho hd (by rw [hk]; rfl)
  obtain ⟨axis, b, q, rfl⟩ := hf.rotation_of_kind (hfk.trans hk)
  refine .of_cases ?_ ?_
  · intro p hp
    obtain ⟨axis', a, input, hfeeds, hpo, hb, haxes⟩ := (hvalid.fusible_iff ho hf).1 hp
    exact fuseRotations_patched axes hvalid ho hf hfeeds hpo hb haxes
  · intro hno
    refine (fuseRotations_asks axes).noMatch ?_
    rcases fusible?_ok axes hvalid ho hf with hnone | ⟨p, axis', a, input, -, hfeeds⟩
    · exact hnone
    · exact absurd ⟨p, (hvalid.fusible_iff ho hf).2 ⟨axis', a, input, hfeeds⟩⟩ hno

/-- The second rotation takes over the first one, which only it reads. -/
theorem fuseRotations_rewrites_gates : gatesGraph.Function ⟨6⟩ ∧
    gatesGraph.Fusible .same ⟨3⟩ ⟨4⟩ ∧
    ∃ t, ((fuseRotations .same).apply ⟨4⟩).runOn ⟨gatesGraph, .recorder [], false, false⟩ =
      .ok (.ok .applied, t) ∧ gatesGraph.Fused ⟨3⟩ ⟨4⟩ t.graph := by
  have hfusible : gatesGraph.Fusible .same ⟨3⟩ ⟨4⟩ :=
    ⟨⟨_, ⟨6⟩, some ⟨0⟩, rfl, rfl, .head _, rfl, rfl, rfl, rfl⟩, .inr (by decide +kernel), ⟨2⟩, rfl,
      ⟨3⟩, 0, ⟨0⟩, _, .root, rfl, by decide, .inl (by decide)⟩
  have hrewrites := fuseRotations_rewrites .same (s := ⟨gatesGraph, .recorder [], false, false⟩)
    (o := ⟨4⟩) gatesGraph_function ⟨0, .step rfl .root⟩ rfl rfl
  obtain ⟨t, hrun⟩ := hrewrites.applied_iff.2 ⟨⟨3⟩, hfusible⟩
  exact ⟨gatesGraph_function, hfusible, t, hrun, hrewrites.changes hfusible hrun⟩

/-- Two Hadamard gates are cancelled just if the first one is read by the second one only, and
an X gate between two is conjugated just if all that is between them is read there only.  Then
nothing else is changed. -/
theorem hadamard_rewrites {d : Op} (h : s.graph.Function root) (ho : s.graph.Inside root o)
    (hd : s.graph.op o = .ok d) (hk : d.kind = .hadamard) :
    hadamardPair.Rewrites s o (s.graph.SoleSource .hadamard · ⟨o, 0⟩) (s.graph.Cancelled · o) ∧
    hadamardConjugation.Rewrites s o
      (fun t : OpId × OpId => s.graph.SoleSource .pauliX t.1 ⟨o, 0⟩ ∧
        s.graph.SoleSource .hadamard t.2 ⟨t.1, 0⟩)
      (fun t => s.graph.Conjugated t.2 t.1 o) := by
  have hvalid := h.valid
  obtain ⟨f, v, hf, hfk⟩ := hvalid.computes ho hd (by rw [hk]; rfl)
  obtain ⟨b, rfl⟩ := Formula.eq_gate (hfk.trans hk) (.head _)
  have hb : s.graph.gateQubit o = .ok b := hf.operand rfl
  constructor
  · refine .of_cases ?_ ?_
    · intro p hp
      obtain ⟨f, hfeeds, hpk, hpo⟩ := (hvalid.soleSource_iff ho rfl (hf.held? 0)).1 hp
      obtain ⟨input, rfl⟩ := Formula.eq_gate hpk (.head _)
      obtain ⟨t, hrun, hpatched⟩ := hadamardPair_patched hvalid ho hf hfeeds hpo
      exact ⟨t, hrun, input, b, v, hfeeds.computes, hf, hpatched⟩
    · intro hno
      refine hadamardPair_asks.noMatch ?_
      rcases exclusiveGate?_ok .hadamard rfl hvalid ho (hf.held? 0) rfl with
        hnone | ⟨p, f, -, hfeeds⟩
      · simp [hb, hnone]
      · exact absurd ⟨p, (hvalid.soleSource_iff ho rfl (hf.held? 0)).2 ⟨f, hfeeds⟩⟩ hno
  · refine .of_cases ?_ ?_
    · rintro ⟨x, p⟩ ⟨hx, hp⟩
      obtain ⟨f, hx, hxk, hxo⟩ := (hvalid.soleSource_iff ho rfl (hf.held? 0)).1 hx
      obtain ⟨a, rfl⟩ := Formula.eq_gate hxk (.tail _ (.head _))
      obtain ⟨f, hp, hpk, hpx⟩ := (hvalid.soleSource_iff (ho.before hvalid.linked hxo) rfl
        (hx.computes.held? 0)).1 hp
      obtain ⟨input, rfl⟩ := Formula.eq_gate hpk (.head _)
      obtain ⟨n, w, t, hrun, hpatched⟩ := hadamardConjugation_patched hvalid ho hd hf hx hxo hp hpx
      exact ⟨t, hrun, input, a, b, v, d, n, w, hp.computes, hx.computes, hf, hd, hpatched⟩
    · intro hno
      refine hadamardConjugation_asks.noMatch ?_
      rcases conjugatedX?_ok hvalid ho hf with hnone | ⟨x, p, a, input, -, hx, hxo, hp, hpx⟩
      · exact hnone
      · exact absurd ⟨(x, p), (hvalid.soleSource_iff ho rfl (hf.held? 0)).2 ⟨_, hx, rfl, hxo⟩,
          (hvalid.soleSource_iff (ho.before hvalid.linked hxo) rfl (hx.computes.held? 0)).2
            ⟨_, hp, rfl, hpx⟩⟩ hno

/-- Two gates in a row are cancelled.  With an X gate between them they are not, and the X gate
is conjugated. -/
theorem hadamard_rewrites_gates :
    (pairGraph.Function ⟨3⟩ ∧
      ∃ t, (hadamardPair.apply ⟨1⟩).runOn ⟨pairGraph, .recorder [], false, false⟩ =
        .ok (.ok .applied, t) ∧ pairGraph.Cancelled ⟨0⟩ ⟨1⟩ t.graph) ∧
    gatesGraph.Function ⟨6⟩ ∧
      (hadamardPair.apply ⟨2⟩).runOn ⟨gatesGraph, .recorder [], false, false⟩ =
        .ok (.ok .noMatch, ⟨gatesGraph, .recorder [], false, false⟩) ∧
      ∃ t, (hadamardConjugation.apply ⟨2⟩).runOn ⟨gatesGraph, .recorder [], false, false⟩ =
        .ok (.ok .applied, t) ∧ gatesGraph.Conjugated ⟨0⟩ ⟨1⟩ ⟨2⟩ t.graph := by
  have hpair : pairGraph.SoleSource .hadamard ⟨0⟩ ⟨⟨1⟩, 0⟩ :=
    ⟨_, ⟨1⟩, some ⟨0⟩, rfl, rfl, .head _, rfl, rfl, rfl, rfl⟩
  have hgroup : gatesGraph.SoleSource .pauliX ⟨1⟩ ⟨⟨2⟩, 0⟩ ∧
      gatesGraph.SoleSource .hadamard ⟨0⟩ ⟨⟨1⟩, 0⟩ :=
    ⟨⟨_, ⟨4⟩, some ⟨0⟩, rfl, rfl, .head _, rfl, rfl, rfl, rfl⟩,
      ⟨_, ⟨3⟩, some ⟨0⟩, rfl, rfl, .head _, rfl, rfl, rfl, rfl⟩⟩
  have hno : ¬∃ p, gatesGraph.SoleSource .hadamard p ⟨⟨2⟩, 0⟩ := by
    rintro ⟨p, x, q, r, hx, hk, hmem, hq, -⟩
    cases hq
    have hlinked := gatesGraph_function.valid.linked
    have hgate : gatesGraph.slot ⟨1⟩ = .ok _ := rfl
    obtain rfl := hlinked.result_unique (slot_of_op hx) hmem hgate (.head _)
    cases hx
    cases hk
  obtain ⟨hcancels, -⟩ := hadamard_rewrites (s := ⟨pairGraph, .recorder [], false, false⟩)
    (o := ⟨1⟩) pairGraph_function ⟨0, .step rfl .root⟩ rfl rfl
  obtain ⟨hmisses, hconjugates⟩ := hadamard_rewrites (s := ⟨gatesGraph, .recorder [], false, false⟩)
    (o := ⟨2⟩) gatesGraph_function ⟨0, .step rfl .root⟩ rfl rfl
  obtain ⟨t, hrun⟩ := hcancels.applied_iff.2 ⟨⟨0⟩, hpair⟩
  obtain ⟨t', hrun'⟩ := hconjugates.applied_iff.2 ⟨(⟨1⟩, ⟨0⟩), hgroup⟩
  exact ⟨⟨pairGraph_function, t, hrun, hcancels.changes hpair hrun⟩, gatesGraph_function,
    hmisses.noMatch hno, t', hrun', hconjugates.changes (i := (⟨1⟩, ⟨0⟩)) hgroup hrun'⟩

end Rules

end Peephole
