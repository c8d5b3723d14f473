import Peephole.Proofs.Linearity

/-!
# Loose ends

A *loose* qubit of a function is one that nobody reads.  In a linear function every qubit is
read once or loose, so the loose qubits are what the circuit leaves, and their meanings say
which gates act on what.

Reductions keep a function linear.  In a well-typed function gates read qubits, and sums and
angles are no qubits.  There a reduction leaves the loose qubits alone (`Graph.Spares`), or
one takes the place of another (`Graph.Swaps`), and the function stays well-typed.
-/

namespace Peephole

open Peephole.Graph Relation

/-! ## Types of operands -/

/-- The formula reads qubits just where it wants them. -/
def Formula.Fits (isQubit : ValueId → Prop) : Formula → Prop
  | const _ => True
  | sum left right => ¬isQubit left ∧ ¬isQubit right
  | gate _ qubit => isQubit qubit
  | rotation _ angle qubit => ¬isQubit angle ∧ isQubit qubit

namespace Formula

variable {P Q : ValueId → Prop} {f : Formula}

theorem Fits.congr (h : f.Fits P) (hsame : ∀ v ∈ f.operands, (Q v ↔ P v)) : f.Fits Q := by
  cases f with
  | const x => trivial
  | sum left right | rotation axis left right =>
    simp only [operands, List.mem_cons, List.not_mem_nil, or_false, forall_eq_or_imp,
      forall_eq] at hsame
    simpa only [Fits, hsame] using h
  | gate kind qubit =>
    simp only [operands, List.mem_singleton, forall_eq] at hsame
    simpa only [Fits, hsame] using h

theorem Fits.rename {σ : ValueId → ValueId} (h : f.Fits P) (hσ : ∀ v, Q (σ v) ↔ P v) :
    (f.rename σ).Fits Q := by
  cases f with
  | const x => trivial
  | sum left right | gate kind left | rotation axis left right =>
    simpa only [Formula.rename, Fits, hσ] using h

end Formula

namespace Graph

variable {g g' : Graph} {root o : OpId} {v : ValueId} {f : Formula}

/-- The value is a qubit. -/
def IsQubit (g : Graph) (v : ValueId) : Prop := ∃ x, g.value v = .ok x ∧ x.type = .qubit

/-- Under the root, gates read qubits, and sums and angles are not made of any. -/
def WellTyped (g : Graph) (root : OpId) : Prop :=
  ∀ ⦃o : OpId⦄ ⦃f : Formula⦄ ⦃v : ValueId⦄, g.Inside root o → g.Computes o f v →
    f.Fits g.IsQubit

theorem isQubit_congr (h : g'.value v = g.value v) : g'.IsQubit v ↔ g.IsQubit v := by
  rw [IsQubit, IsQubit, h]

theorem Inserted.isQubit_iff {a n : OpId} {d : Draft} (h : Inserted g a d n g') {x : Value}
    (hx : g.value v = .ok x) : g'.IsQubit v ↔ g.IsQubit v :=
  isQubit_congr ((h.value.2 (.inl hx)).trans hx.symm)

theorem Function.typed (h : g.Function root) : g.Typed := h.built.holds (typed_invariant false)

/-- Of the results of constants, sums and gates, those of gates are qubits. -/
theorem Function.isQubit_iff (h : g.Function root) (ho : g.Inside root o)
    (hf : g.Computes o f v) : g.IsQubit v ↔ f.kind.isUnitary = true := by
  obtain ⟨x, hx⟩ := hf.value_ok h.valid.linked
  have htype := h.valid.type_eq h.typed ho hf hx
  constructor
  · rintro ⟨y, hy, hq⟩
    rw [hx] at hy
    cases hy
    by_contra hk
    rw [htype, if_neg hk] at hq
    cases hq
  · intro hk
    exact ⟨x, hx, by rw [htype, if_pos hk]⟩

theorem Computes.formula_eq {f' : Formula} {w : ValueId} (h : g.Computes o f v)
    (h' : g.Computes o f' w) : f = f' := by
  obtain ⟨d, hd, hf, -⟩ := h
  obtain ⟨d', hd', hf', -⟩ := h'
  rw [hd] at hd'
  cases hd'
  exact Option.some.inj (hf.symm.trans hf')

namespace WellTyped

theorem inserted {a n : OpId} {d : Draft} {w : ValueId} (h : g.WellTyped root)
    (hg : g.Framed root) (hi : Inserted g a d n g') (hn : g'.Computes n f w)
    (hf : f.Fits g.IsQubit) (hexist : ∀ v ∈ f.operands, ∃ x, g.value v = .ok x) :
    g'.WellTyped root := by
  intro p f' v hp hf'
  by_cases hpn : p = n
  · subst hpn
    obtain rfl := hn.formula_eq hf'
    refine hf.congr fun v hv => ?_
    obtain ⟨x, hx⟩ := hexist v hv
    exact hi.isQubit_iff hx
  · obtain ⟨e, he, hrest⟩ := hf'
    have hold : g.Computes p f' v := ⟨e, (hi.trimmed.op hpn).trans he, hrest⟩
    refine (h (hi.trimmed.inside_iff.2 ⟨hp, hpn⟩) hold).congr fun v hv => ?_
    obtain ⟨i, hi'⟩ := List.mem_iff_getElem?.1 hv
    obtain ⟨x, hx⟩ := hg.exist ((hold.held? i).trans hi')
    exact hi.isQubit_iff hx

theorem redirected {old new : ValueId} (h : g.WellTyped root) (hr : Redirected g old new g')
    (hsame : g.IsQubit old ↔ g.IsQubit new) : g'.WellTyped root := by
  intro p f' v hp hf'
  obtain ⟨d', hd', hf', hv, hregions⟩ := hf'
  obtain ⟨d, hd, hu⟩ := hr.rewired.symm.op_ok hd'
  rw [hr.rewired.op_map hd fun i => hr.held ⟨p, i⟩] at hd'
  cases hd'
  rw [Op.formula?_rename, Option.map_eq_some_iff] at hf'
  obtain ⟨f, hf, rfl⟩ := hf'
  refine (h (hr.rewired.symm.inside hp) ⟨d, hd, hf, hv, hregions⟩).rename fun w => ?_
  rw [isQubit_congr (hr.rewired.value _)]
  split
  · rename_i heq
    rw [heq, hsame]
  · exact Iff.rfl

theorem rerouted {axis : Axis} {b q x angle qubit : ValueId} (h : g.WellTyped root)
    (hr : Rerouted g o angle qubit g') (hf : g.Computes o (.rotation axis b q) x)
    (hangle : ¬g.IsQubit angle) (hqubit : g.IsQubit qubit) : g'.WellTyped root := by
  have hsame : ∀ v, g'.IsQubit v ↔ g.IsQubit v := fun v => isQubit_congr (hr.rewired.value v)
  intro p f' v hp hf'
  by_cases hpo : p = o
  · subst hpo
    obtain rfl := (hr.computes hf).formula_eq hf'
    exact ⟨(hsame angle).not.2 hangle, (hsame qubit).2 hqubit⟩
  · obtain ⟨d', hd', hrest⟩ := hf'
    obtain ⟨d, hd, -⟩ := hr.rewired.symm.op_ok hd'
    rw [hr.op hpo hd] at hd'
    cases hd'
    exact (h (hr.rewired.symm.inside hp) ⟨_, hd, hrest⟩).congr fun v _ => hsame v

theorem erased (h : g.WellTyped root) (he : Erased g o g') : g'.WellTyped root := by
  intro p f v hp hf
  obtain ⟨d, hd, hrest⟩ := hf
  have hold := h (he.trimmed.inside_iff.1 hp).1 ⟨d, he.trimmed.op_ok hd, hrest⟩
  exact hold.congr fun v _ => isQubit_congr (he.value v)

end WellTyped

/-! ## Readers -/

/-- Nobody reads the value. -/
def Unread (g : Graph) (v : ValueId) : Prop := ∀ u, g.held? u ≠ some v

theorem Computes.not_unread {w : ValueId} (h : g.Computes o f v) (hw : w ∈ f.operands) :
    ¬g.Unread w := by
  obtain ⟨i, hi⟩ := List.mem_iff_getElem?.1 hw
  exact fun hunread => hunread ⟨o, i⟩ ((h.held? i).trans hi)

theorem Computes.user_ne {w : ValueId} {u : Use} (h : g.Computes o f v) (hw : w ∉ f.operands)
    (hu : g.held? u = some w) : u.user ≠ o := by
  rintro rfl
  rw [h.held?] at hu
  exact hw (List.mem_of_getElem? hu)

theorem Erased.unread_iff {w : ValueId} (h : Erased g o g') (hf : g.Computes o f v)
    (hw : w ∉ f.operands) : g'.Unread w ↔ g.Unread w := by
  constructor
  · intro hunread u hu
    refine hunread u ?_
    rw [h.held, if_neg (hf.user_ne hw hu), hu]
  · intro hunread u hu
    exact hunread u (h.held_cases hu).2

theorem Inserted.unread_iff {a n : OpId} {d : Draft} (h : Inserted g a d n g')
    (hv : v ∉ d.operands) : g'.Unread v ↔ g.Unread v := by
  constructor
  · intro hunread u hu
    refine hunread u ?_
    rw [h.held, if_neg, hu]
    rintro rfl
    obtain ⟨x, hx, -⟩ := held?_eq_some.1 hu
    exact h.trimmed.gone x hx
  · intro hunread u hu
    rcases h.held_cases hu with ⟨-, hmem⟩ | ⟨-, hu⟩
    · exact hv hmem
    · exact hunread u hu

theorem Redirected.unread_iff {old new : ValueId} (h : Redirected g old new g') (hold : v ≠ old) :
    g'.Unread v ↔ g.Unread v ∧ (v = new → g.Unread old) := by
  constructor
  · intro hunread
    refine ⟨fun u hu => hunread u ?_, ?_⟩
    · rw [h.held, hu, Option.map_some, if_neg hold]
    · rintro rfl u hu
      exact hunread u (by rw [h.held, hu, Option.map_some, if_pos rfl])
  · rintro ⟨hunread, hnew⟩ u hu
    rcases h.held_cases hu with ⟨hu, -⟩ | ⟨hu, heq⟩
    · exact hunread u hu
    · exact hnew heq u hu

theorem Rerouted.unread_iff {axis : Axis} {b q x angle qubit : ValueId}
    (h : Rerouted g o angle qubit g') (hf : g.Computes o (.rotation axis b q) x)
    (hv : v ∉ [angle, qubit, b, q]) : g'.Unread v ↔ g.Unread v := by
  simp only [List.mem_cons, List.not_mem_nil, or_false, not_or] at hv
  obtain ⟨hangle, hqubit, hb, hq⟩ := hv
  constructor
  · intro hunread u hu
    refine hunread u ?_
    have hne : ∀ i, u ≠ ⟨o, i⟩ ∨ i ≠ 0 ∧ i ≠ 1 := by
      intro i
      by_contra hcon
      simp only [not_or, not_and_or, not_not] at hcon
      obtain ⟨rfl, hi⟩ := hcon
      rw [hf.held?] at hu
      rcases hi with rfl | rfl
      · exact hb (Option.some.inj hu).symm
      · exact hq (Option.some.inj hu).symm
    rw [h.held, if_neg ((hne 1).resolve_right (by simp)), if_neg ((hne 0).resolve_right (by simp)),
      hu]
  · intro hunread u hu
    rcases h.held_cases hu with ⟨-, heq⟩ | ⟨-, heq⟩ | ⟨-, -, hu⟩
    · exact hqubit heq
    · exact hangle heq
    · exact hunread u hu

/-! ## What is made under the root -/

theorem Rewired.belongs_iff (h : Rewired g g') : g'.Belongs root v ↔ g.Belongs root v :=
  ⟨h.symm.belongs, h.belongs⟩

theorem Computes.belongs (h : g.Computes o f v) (ho : g.Inside root o) : g.Belongs root v := by
  obtain ⟨d, hd, hv, -⟩ := h.op_ok
  exact .result ho hd hv

theorem Computes.inside (h : g.Computes o f v) (hg : g.Linked) (hv : g.Belongs root v) :
    g.Inside root o := by
  obtain ⟨d, hd, hmem, -⟩ := h.op_ok
  exact hv.definer hg hd hmem

theorem Inserted.belongs_iff {a n : OpId} {d : Draft} {w : ValueId} (h : Inserted g a d n g')
    (ha : g.Inside root a) (hn : g'.Computes n f w) :
    g'.Belongs root v ↔ g.Belongs root v ∨ v = w := by
  obtain ⟨x, hx, -, hw, -⟩ := hn
  constructor
  · intro hv
    refine (h.trimmed.belongs hv).imp_right ?_
    rintro ⟨y, hy, hmem⟩
    rw [hx] at hy
    cases hy
    rw [hw, List.mem_singleton] at hmem
    exact hmem
  · rintro (hv | rfl)
    · exact h.trimmed.belongs_old hv
    · exact .result (h.inside ha) hx (by rw [hw]; exact .head _)

theorem Erased.belongs_iff {w : ValueId} (h : Erased g o g') (hg : g.Linked)
    (hf : g.Computes o f w) : g'.Belongs root v ↔ g.Belongs root v ∧ v ≠ w := by
  obtain ⟨x, hx, -, hw, -⟩ := hf
  have hmem : w ∈ x.results := by rw [hw]; exact .head _
  constructor
  · intro hv
    refine ⟨h.trimmed.belongs_old hv, ?_⟩
    rintro rfl
    cases hv with
    | result _ hd hv =>
      have heq := hg.result_unique (slot_of_op (h.trimmed.op_ok hd)) hv (slot_of_op hx) hmem
      exact h.trimmed.ne_of_op hd heq
    | argument _ _ _ hB _ hv =>
      rw [h.trimmed.block] at hB
      obtain ⟨B', hB', rfl⟩ := map_eq_ok.1 hB
      exact hg.argument_not_result hB' hv (slot_of_op hx) hmem
  · rintro ⟨hv, hne⟩
    rcases h.trimmed.belongs hv with hv | ⟨y, hy, hv⟩
    · exact hv
    · rw [hx] at hy
      cases hy
      rw [hw, List.mem_singleton] at hv
      exact absurd hv hne

/-! ## Loose qubits -/

/-- The value is a qubit of the function that nobody reads. -/
structure Loose (g : Graph) (root : OpId) (v : ValueId) : Prop where
  belongs : g.Belongs root v
  qubit : g.IsQubit v
  unread : g.Unread v

/-! Edits of numbers leave the loose qubits alone. -/

theorem Inserted.loose_iff {a n : OpId} {d : Draft} {w : ValueId} (h : Inserted g a d n g')
    (hg : g.Linked) (ha : g.Inside root a) (hn : g'.Computes n f w) (hw : ¬g'.IsQubit w)
    (hd : ∀ u ∈ d.operands, ¬g'.IsQubit u) : g'.Loose root v ↔ g.Loose root v := by
  constructor
  · rintro ⟨hv, hq, hunread⟩
    rcases (h.belongs_iff ha hn).1 hv with hv | rfl
    · obtain ⟨x, hx⟩ := hv.exists hg
      exact ⟨hv, (h.isQubit_iff hx).1 hq, (h.unread_iff fun hmem => hd v hmem hq).1 hunread⟩
    · exact absurd hq hw
  · rintro ⟨hv, hq, hunread⟩
    obtain ⟨x, hx⟩ := hv.exists hg
    have hq' := (h.isQubit_iff hx).2 hq
    exact ⟨(h.belongs_iff ha hn).2 (.inl hv), hq',
      (h.unread_iff fun hmem => hd v hmem hq').2 hunread⟩

theorem Redirected.loose_iff {old new : ValueId} (h : Redirected g old new g')
    (hold : ¬g.IsQubit old) (hnew : ¬g.IsQubit new) : g'.Loose root v ↔ g.Loose root v := by
  have hunread : g.IsQubit v → (g'.Unread v ↔ g.Unread v) := by
    intro hq
    have hne_old : v ≠ old := fun heq => hold (heq ▸ hq)
    have hne_new : v ≠ new := fun heq => hnew (heq ▸ hq)
    rw [h.unread_iff hne_old, and_iff_left fun heq => absurd heq hne_new]
  have hqubit := isQubit_congr (h.rewired.value v)
  constructor
  · rintro ⟨hv, hq, hu⟩
    rw [hqubit] at hq
    exact ⟨h.rewired.belongs_iff.1 hv, hq, (hunread hq).1 hu⟩
  · rintro ⟨hv, hq, hu⟩
    exact ⟨h.rewired.belongs_iff.2 hv, hqubit.2 hq, (hunread hq).2 hu⟩

theorem Erased.loose_iff {w : ValueId} (h : Erased g o g') (hg : g.Linked)
    (hf : g.Computes o f w) (hw : ¬g.IsQubit w) (hops : ∀ u ∈ f.operands, ¬g.IsQubit u) :
    g'.Loose root v ↔ g.Loose root v := by
  have hunread : g.IsQubit v → (g'.Unread v ↔ g.Unread v) := fun hq =>
    h.unread_iff hf fun hmem => hops v hmem hq
  have hqubit := isQubit_congr (h.value v)
  constructor
  · rintro ⟨hv, hq, hu⟩
    rw [hqubit] at hq
    exact ⟨((h.belongs_iff hg hf).1 hv).1, hq, (hunread hq).1 hu⟩
  · rintro ⟨hv, hq, hu⟩
    exact ⟨(h.belongs_iff hg hf).2 ⟨hv, fun heq => hw (heq ▸ hq)⟩, hqubit.2 hq, (hunread hq).2 hu⟩

/-! ## What reductions do to loose qubits -/

/-- The second function is well-typed and has the loose qubits of the first. -/
structure Spares (g : Graph) (root : OpId) (g' : Graph) : Prop where
  wellTyped : g'.WellTyped root
  loose (v : ValueId) : g'.Loose root v ↔ g.Loose root v

/-- The second function is well-typed and has the loose qubits of the first, but for one
that another one takes the place of. -/
structure Swaps (g : Graph) (root : OpId) (old new : ValueId) (g' : Graph) : Prop where
  wellTyped : g'.WellTyped root
  loose (v : ValueId) :
    g'.Loose root v ↔ g.Loose root v ∧ v ≠ old ∨ v = new ∧ g.Loose root old
  taken : ¬g.Loose root new

theorem Function.spares_unused {out : ValueId} (h : g.Function root) (hw : g.WellTyped root)
    (ho : g.Inside root o) (hf : g.Computes o f out) (hk : f.kind.isPure = true)
    (he : Erased g o g') : g.Spares root g' := by
  have hfits := hw ho hf
  refine ⟨hw.erased he, fun v => he.loose_iff h.valid.linked hf ?_ ?_⟩
  · rw [h.isQubit_iff ho hf]
    cases hkind : f.kind with
    | const | add => nofun
    | _ =>
      rw [hkind] at hk
      cases hk
  · cases f with
    | const x => nofun
    | sum left right =>
      rintro u (_ | ⟨_, _ | ⟨_, ⟨⟩⟩⟩)
      · exact hfits.1
      · exact hfits.2
    | gate kind qubit =>
      have hgate := hf.isGate
      simp only [Kind.IsGate, List.mem_cons, List.not_mem_nil, or_false] at hgate
      rcases hgate with rfl | rfl | rfl <;> cases hk
    | rotation axis angle qubit => cases hk

/-- A constant takes the place of a sum. -/
theorem Function.spares_sum {g₁ g₂ : Graph} {n : OpId} {a b out w : ValueId} {x : Binary64}
    {l : Location} (h : g.Function root) (hw : g.WellTyped root) (h' : g'.Function root)
    (ho : g.Inside root o) (hf : g.Computes o (.sum a b) out)
    (hi : Inserted g o (.const l x) n g₁) (hn : g₁.Computes n (.const x) w)
    (hr : Redirected g₁ out w g₂) (he : Erased g₂ o g') : g.Spares root g' := by
  have hno := hi.ne_of_computes hf
  have hn' := he.computes (hr.computes hn) hno
  have hin : g'.Inside root n :=
    he.trimmed.inside_iff.2 ⟨hr.rewired.inside (hi.inside ho), hno⟩
  -- both the sum and the constant are numbers
  have hout : ¬g₁.IsQubit out := by
    obtain ⟨_, hy⟩ := hf.value_ok h.valid.linked
    rw [hi.isQubit_iff hy, h.isQubit_iff ho hf]
    nofun
  have hnew : ¬g₁.IsQubit w := by
    rw [← isQubit_congr (hr.rewired.value w), ← isQubit_congr (he.value w),
      h'.isQubit_iff hin hn']
    nofun
  have hw₁ := hw.inserted h.valid.toFramed hi hn trivial nofun
  have hw₂ := hw₁.redirected hr (by simp [hout, hnew])
  refine ⟨hw₂.erased he, fun v => ?_⟩
  have ho₂ := hr.rewired.inside (hi.trimmed.inside_iff.1 ho).1
  have hf₂ := hr.computes (hi.computes hf)
  obtain ⟨ha, hb⟩ := hw₂ ho₂ hf₂
  rw [he.loose_iff (hi.linked.rewired hr.rewired) hf₂
    ((isQubit_congr (hr.rewired.value out)).not.2 hout), hr.loose_iff hout hnew,
    hi.loose_iff h.valid.linked ho hn hnew nofun]
  rintro u (_ | ⟨_, _ | ⟨_, ⟨⟩⟩⟩)
  · exact ha
  · exact hb

/-- Two Hadamard gates in a row go.  The qubit they start from takes the place of the one
they make. -/
theorem Function.swaps_pair {g₁ g₂ : Graph} {p : OpId} {q input out : ValueId}
    (h : g.Function root) (hl : g.Linear root) (hw : g.WellTyped root) (ho : g.Inside root o)
    (hf : g.Computes o (.gate .hadamard q) out) (hp : g.Feeds p (.gate .hadamard input) q ⟨o, 0⟩)
    (hpo : g.Precedes p o) (hr : Redirected g out input g₁) (he : Erased g₁ o g₂)
    (he' : Erased g₂ p g') : g.Swaps root out input g' := by
  have hg := h.valid.linked
  have hne := hg.ne_of_precedes hpo
  have hpi := ho.before hg hpo
  have hvisible := h.valid.operand_visible hpi hp.computes (.head _)
  have hinput : input ≠ out := hf.ne_of_visible h.valid hpi (.inr hpo) hvisible
  have hq : q ≠ out := hf.ne_of_visible h.valid ho (.inl rfl)
    (h.valid.operand_visible ho hf (.head _))
  have hf₁ := hr.computes hf
  have hp₂ := he.computes (hr.computes hp.computes) hne
  simp only [Formula.rename, if_neg hq, if_neg hinput] at hf₁ hp₂
  have hbelongs : ∀ {v}, g'.Belongs root v ↔ (g.Belongs root v ∧ v ≠ out) ∧ v ≠ q := by
    intro v
    rw [he'.belongs_iff he.linked hp₂, he.belongs_iff (hg.rewired hr.rewired) hf₁,
      hr.rewired.belongs_iff]
  have hqubit : ∀ {v}, g'.IsQubit v ↔ g.IsQubit v := by
    intro v
    rw [isQubit_congr (he'.value v), isQubit_congr (he.value v), isQubit_congr (hr.rewired.value v)]
  have hunread : ∀ {v}, v ≠ out → v ≠ q → v ≠ input → (g'.Unread v ↔ g.Unread v) := by
    intro v hv_out hv_q hv_input
    rw [he'.unread_iff hp₂ (by simpa [Formula.operands] using hv_input),
      he.unread_iff hf₁ (by simpa [Formula.operands] using hv_q), hr.unread_iff hv_out,
      and_iff_left fun heq => absurd heq hv_input]
  have hbelongs_input := hvisible.belongs hg h.valid.detached hpi
  have hqubit_input : g.IsQubit input := hw hpi hp.computes
  have hsingle : g.Single input := by
    obtain ⟨x, hx, hq⟩ := id hqubit_input
    exact h.valid.coherent.single_iff.2 (hl hbelongs_input hx hq)
  -- who read the last qubit reads the first one, whose only reader is gone
  have hunread_input : g'.Unread input ↔ g.Unread out := by
    constructor
    · intro hunread u hu
      have huo : u.user ≠ o := hf.user_ne (by simpa [Formula.operands] using hq.symm) hu
      have hup : u.user ≠ p :=
        hp.computes.user_ne (by simpa [Formula.operands] using hinput.symm) hu
      refine hunread u ?_
      rw [he'.held, if_neg hup, he.held, if_neg huo, hr.held, hu, Option.map_some, if_pos rfl]
    · intro hunread u hu
      obtain ⟨hup, hu⟩ := he'.held_cases hu
      obtain ⟨-, hu⟩ := he.held_cases hu
      rcases hr.held_cases hu with ⟨hu, -⟩ | ⟨hu, -⟩
      · exact hup (congrArg Use.user (hsingle hu (hp.computes.held? 0)))
      · exact hunread u hu
  have hqubit_out : g.IsQubit out := (h.isQubit_iff ho hf).2 rfl
  have hw₁ := hw.redirected hr (by simp [hqubit_out, hqubit_input])
  refine ⟨(hw₁.erased he).erased he', fun v => ⟨?_, ?_⟩,
    fun hloose => hp.computes.not_unread (.head _) hloose.unread⟩
  · rintro ⟨hv, hq, hu⟩
    obtain ⟨⟨hv, hv_out⟩, hv_q⟩ := hbelongs.1 hv
    rcases eq_or_ne v input with rfl | hv_input
    · exact .inr ⟨rfl, hf.belongs ho, hqubit_out, hunread_input.1 hu⟩
    · exact .inl ⟨⟨hv, hqubit.1 hq, (hunread hv_out hv_q hv_input).1 hu⟩, hv_out⟩
  · rintro (⟨⟨hv, hq, hu⟩, hv_out⟩ | ⟨rfl, hloose⟩)
    · have hv_q : v ≠ q := fun heq => hf.not_unread (.head _) (heq ▸ hu)
      have hv_input : v ≠ input := fun heq => hp.computes.not_unread (.head _) (heq ▸ hu)
      exact ⟨hbelongs.2 ⟨⟨hv, hv_out⟩, hv_q⟩, hqubit.2 hq, (hunread hv_out hv_q hv_input).2 hu⟩
    · have hv_q : v ≠ q := hp.computes.ne_of_visible h.valid hpi (.inl rfl) hvisible
      exact ⟨hbelongs.2 ⟨⟨hbelongs_input, hinput⟩, hv_q⟩, hqubit.2 hqubit_input,
        hunread_input.2 hloose.unread⟩

/-- A Z gate takes the place of an X gate between two Hadamard gates, and its qubit that of
the one they make. -/
theorem Function.swaps_conjugation {g₁ g₂ g₃ g₄ : Graph} {x p n : OpId}
    {a b input out w : ValueId} {d : Draft} (h : g.Function root) (hw : g.WellTyped root)
    (h' : g'.Function root) (ho : g.Inside root o) (hf : g.Computes o (.gate .hadamard b) out)
    (hx : g.Feeds x (.gate .pauliX a) b ⟨o, 0⟩) (hxo : g.Precedes x o)
    (hp : g.Feeds p (.gate .hadamard input) a ⟨x, 0⟩) (hpx : g.Precedes p x)
    (hd : d.operands = [input]) (hi : Inserted g o d n g₁)
    (hn : g₁.Computes n (.gate .pauliZ input) w) (hr : Redirected g₁ out w g₂)
    (he : Erased g₂ o g₃) (he' : Erased g₃ x g₄) (he'' : Erased g₄ p g') :
    g.Swaps root out w g' ∧ g'.Computes n (.gate .pauliZ input) w := by
  have hg := h.valid.linked
  have hxi := ho.before hg hxo
  have hpi := hxi.before hg hpx
  have hpo := hg.precedes_trans hpx hxo
  have hvisible := h.valid.operand_visible hpi hp.computes (.head _)
  have hb : b ≠ out := hf.ne_of_visible h.valid ho (.inl rfl)
    (h.valid.operand_visible ho hf (.head _))
  have ha : a ≠ out := hf.ne_of_visible h.valid hxi (.inr hxo)
    (h.valid.operand_visible hxi hx.computes (.head _))
  have hinput : input ≠ out := hf.ne_of_visible h.valid hpi (.inr hpo) hvisible
  have hf₂ := hr.computes (hi.computes hf)
  have hx₃ := he.computes (hr.computes (hi.computes hx.computes)) (hg.ne_of_precedes hxo)
  have hp₄ := he'.computes (he.computes (hr.computes (hi.computes hp.computes))
    (hg.ne_of_precedes hpo)) (hg.ne_of_precedes hpx)
  have hn' := he''.computes (he'.computes (he.computes (hr.computes hn)
    (hi.ne_of_computes hf)) (hi.ne_of_computes hx.computes)) (hi.ne_of_computes hp.computes)
  simp only [Formula.rename, if_neg hb, if_neg ha, if_neg hinput] at hf₂ hx₃ hp₄ hn'
  have hbelongs : ∀ {v}, g'.Belongs root v ↔
      (((g.Belongs root v ∨ v = w) ∧ v ≠ out) ∧ v ≠ b) ∧ v ≠ a := by
    intro v
    rw [he''.belongs_iff he'.linked hp₄, he'.belongs_iff he.linked hx₃,
      he.belongs_iff (hi.linked.rewired hr.rewired) hf₂, hr.rewired.belongs_iff,
      hi.belongs_iff ho hn]
  have hunread : ∀ {v}, v ≠ out → v ≠ b → v ≠ a → v ≠ input →
      (g'.Unread v ↔ g.Unread v ∧ (v = w → g.Unread out)) := by
    intro v hv_out hv_b hv_a hv_input
    rw [he''.unread_iff hp₄ (by simpa [Formula.operands] using hv_input),
      he'.unread_iff hx₃ (by simpa [Formula.operands] using hv_a),
      he.unread_iff hf₂ (by simpa [Formula.operands] using hv_b), hr.unread_iff hv_out,
      hi.unread_iff (by simpa [hd] using hv_input), hi.unread_iff (by simpa [hd] using hinput.symm)]
  have hfresh : ∀ {u y}, g.value u = .ok y → u ≠ w := hi.ne_of_value hn
  have hqubit₁ : ∀ {v}, g'.IsQubit v ↔ g₁.IsQubit v := by
    intro v
    rw [isQubit_congr (he''.value v), isQubit_congr (he'.value v), isQubit_congr (he.value v),
      isQubit_congr (hr.rewired.value v)]
  have hqubit : ∀ {v y}, g.value v = .ok y → (g'.IsQubit v ↔ g.IsQubit v) := by
    intro v y hy
    rw [hqubit₁, hi.isQubit_iff hy]
  obtain ⟨_, hy_out⟩ := hf.value_ok hg
  obtain ⟨_, hy_b⟩ := hx.computes.value_ok hg
  obtain ⟨_, hy_a⟩ := hp.computes.value_ok hg
  obtain ⟨_, hy_input⟩ := h.valid.exist (hp.computes.held? 0)
  have hmade : g'.Belongs root w := hbelongs.2
    ⟨⟨⟨.inr rfl, (hfresh hy_out).symm⟩, (hfresh hy_b).symm⟩, (hfresh hy_a).symm⟩
  have hqubit_w : g'.IsQubit w := (h'.isQubit_iff (hn'.inside h'.valid.linked hmade) hn').2 rfl
  have hqubit_out : g.IsQubit out := (h.isQubit_iff ho hf).2 rfl
  have hqubit_input : g.IsQubit input := hw hpi hp.computes
  have hexist : ∀ u ∈ [input], ∃ y, g.value u = .ok y := by simp [hy_input]
  have hw₁ := hw.inserted h.valid.toFramed hi hn hqubit_input hexist
  have hw₂ := hw₁.redirected hr (by simp [← hqubit₁, hqubit hy_out, hqubit_out, hqubit_w])
  refine ⟨⟨((hw₂.erased he).erased he').erased he'', fun v => ⟨?_, ?_⟩, ?_⟩, hn'⟩
  · rintro ⟨hv, hq, hu⟩
    obtain ⟨⟨⟨hv, hv_out⟩, hv_b⟩, hv_a⟩ := hbelongs.1 hv
    have hv_input : v ≠ input := fun heq => hn'.not_unread (.head _) (heq ▸ hu)
    obtain ⟨hu, hu_out⟩ := (hunread hv_out hv_b hv_a hv_input).1 hu
    rcases hv with hv | heq
    · obtain ⟨y, hy⟩ := hv.exists hg
      exact .inl ⟨⟨hv, (hqubit hy).1 hq, hu⟩, hv_out⟩
    · exact .inr ⟨heq, hf.belongs ho, hqubit_out, hu_out heq⟩
  · rintro (⟨⟨hv, hq, hu⟩, hv_out⟩ | ⟨rfl, hloose⟩)
    · have hv_b : v ≠ b := fun heq => hf.not_unread (.head _) (heq ▸ hu)
      have hv_a : v ≠ a := fun heq => hx.computes.not_unread (.head _) (heq ▸ hu)
      have hv_input : v ≠ input := fun heq => hp.computes.not_unread (.head _) (heq ▸ hu)
      obtain ⟨y, hy⟩ := hv.exists hg
      exact ⟨hbelongs.2 ⟨⟨⟨.inl hv, hv_out⟩, hv_b⟩, hv_a⟩, (hqubit hy).2 hq,
        (hunread hv_out hv_b hv_a hv_input).2 ⟨hu, fun heq => absurd heq (hfresh hy)⟩⟩
    · have hnew : g.Unread v := by
        intro u hu
        obtain ⟨y, hy⟩ := h.valid.exist hu
        exact hfresh hy rfl
      exact ⟨hmade, hqubit_w, (hunread (hfresh hy_out).symm (hfresh hy_b).symm
        (hfresh hy_a).symm (hfresh hy_input).symm).2 ⟨hnew, fun _ => hloose.unread⟩⟩
  · intro hloose
    obtain ⟨y, hy⟩ := hloose.belongs.exists hg
    exact hfresh hy rfl

/-- A rotation takes over the one before it, with a sum for an angle. -/
theorem Function.spares_fusion {g₁ g₂ : Graph} {p n : OpId} {axis axis' : Axis}
    {a b q input out sum : ValueId} {l : Location} (h : g.Function root) (hw : g.WellTyped root)
    (h' : g'.Function root) (ho : g.Inside root o) (hf : g.Computes o (.rotation axis b q) out)
    (hp : g.Feeds p (.rotation axis' a input) q ⟨o, 1⟩) (hpo : g.Precedes p o)
    (hi : Inserted g p (.add l a b) n g₁) (hn : g₁.Computes n (.sum a b) sum)
    (hr : Rerouted g₁ o sum input g₂) (he : Erased g₂ p g') : g.Spares root g' := by
  have hg := h.valid.linked
  have hpi := ho.before hg hpo
  have hf₁ := hi.computes hf
  have hp₁ := hi.computes hp.computes
  have hne := hg.ne_of_precedes hpo
  have hp₂ := hr.computes_other hp₁ hne
  have hf' := he.computes (hr.computes hf₁) hne.symm
  have hn' := he.computes (hr.computes_other hn (hi.ne_of_computes hf))
    (hi.ne_of_computes hp.computes)
  have hqubit : ∀ v, g'.IsQubit v ↔ g₁.IsQubit v := by
    intro v
    rw [isQubit_congr (he.value v), isQubit_congr (hr.rewired.value v)]
  have hbelongs : ∀ {v}, g'.Belongs root v ↔ g₁.Belongs root v ∧ v ≠ q := by
    intro v
    rw [he.belongs_iff (hi.linked.rewired hr.rewired) hp₂, hr.rewired.belongs_iff]
  have hsum : ¬g₁.IsQubit sum := by
    obtain ⟨y, hy⟩ := hp.computes.value_ok hg
    have hmade : g'.Belongs root sum :=
      hbelongs.2 ⟨hn.belongs (hi.inside hpi), (hi.ne_of_value hn hy).symm⟩
    rw [← hqubit, h'.isQubit_iff (hn'.inside h'.valid.linked hmade) hn']
    nofun
  have ha : ¬g₁.IsQubit a := by
    obtain ⟨_, hy⟩ := h.valid.exist (hp.computes.held? 0)
    exact (hi.isQubit_iff hy).not.2 (hw hpi hp.computes).1
  have hb : ¬g₁.IsQubit b := by
    obtain ⟨_, hy⟩ := h.valid.exist (hf.held? 0)
    exact (hi.isQubit_iff hy).not.2 (hw ho hf).1
  -- the sum and the angles are numbers, so only the rotations are left to compare
  have hinsert : ∀ {v}, g₁.Loose root v ↔ g.Loose root v := by
    intro v
    refine hi.loose_iff hg hpi hn hsum ?_
    rintro u (_ | ⟨_, _ | ⟨_, ⟨⟩⟩⟩)
    · exact ha
    · exact hb
  have hunread : ∀ {v}, g₁.IsQubit v → v ≠ q → v ≠ input → (g'.Unread v ↔ g₁.Unread v) := by
    intro v hq hv_q hv_input
    have hv_sum : v ≠ sum := fun heq => hsum (heq ▸ hq)
    have hv_a : v ≠ a := fun heq => ha (heq ▸ hq)
    have hv_b : v ≠ b := fun heq => hb (heq ▸ hq)
    rw [he.unread_iff hp₂ (by simp [Formula.operands, hv_a, hv_input]),
      hr.unread_iff hf₁ (by simp [hv_sum, hv_input, hv_b, hv_q])]
  have hinput : g₁.IsQubit input := by
    obtain ⟨_, hy⟩ := h.valid.exist (hp.computes.held? 1)
    exact (hi.isQubit_iff hy).2 (hw hpi hp.computes).2
  have hexist : ∀ u ∈ [a, b], ∃ y, g.value u = .ok y := by
    simpa using ⟨h.valid.exist (hp.computes.held? 0), h.valid.exist (hf.held? 0)⟩
  have hw₁ := hw.inserted h.valid.toFramed hi hn ⟨(hw hpi hp.computes).1, (hw ho hf).1⟩ hexist
  refine ⟨(hw₁.rerouted hr hf₁ hsum hinput).erased he, fun v => ?_⟩
  rw [← hinsert]
  constructor
  · rintro ⟨hv, hq, hu⟩
    obtain ⟨hv, hv_q⟩ := hbelongs.1 hv
    rw [hqubit] at hq
    have hv_input : v ≠ input := fun heq => hf'.not_unread (.tail _ (.head _)) (heq ▸ hu)
    exact ⟨hv, hq, (hunread hq hv_q hv_input).1 hu⟩
  · rintro ⟨hv, hq, hu⟩
    have hv_q : v ≠ q := fun heq => hf₁.not_unread (.tail _ (.head _)) (heq ▸ hu)
    have hv_input : v ≠ input := fun heq => hp₁.not_unread (.tail _ (.head _)) (heq ▸ hu)
    exact ⟨hbelongs.2 ⟨hv, hv_q⟩, (hqubit v).2 hq, (hunread hq hv_q hv_input).2 hu⟩

/-! ## What edits keep -/

section Edits

variable {axes : Rules.AxisMatch} {x : Value}

theorem Edit.value (he : Edit axes root g g') (hx : g.value v = .ok x) : g'.value v = .ok x := by
  cases he with
  | insert _ _ _ _ _ hi => exact hi.value.2 (.inl hx)
  | redirect _ _ _ hr => exact (hr.rewired.value v).trans hx
  | fuse _ _ _ _ _ _ _ _ hr => exact (hr.rewired.value v).trans hx
  | erase _ _ _ he => exact (he.value v).trans hx

/-- What an edit leaves under the root was there before, unless it is new. -/
theorem Edit.belongs_old (he : Edit axes root g g') (hx : g.value v = .ok x)
    (hv : g'.Belongs root v) : g.Belongs root v := by
  cases he with
  | insert _ _ _ _ _ hi =>
    refine (hi.trimmed.belongs hv).resolve_right ?_
    rintro ⟨d, hd, hmem⟩
    exact hi.fresh hd hmem x hx
  | redirect _ _ _ hr => exact hr.rewired.belongs_iff.1 hv
  | fuse _ _ _ _ _ _ _ _ hr => exact hr.rewired.belongs_iff.1 hv
  | erase _ _ _ he => exact he.trimmed.belongs_old hv

theorem Edit.belongs_old_all (he : ReflTransGen (Edit axes root) g g') (hx : g.value v = .ok x)
    (hv : g'.Belongs root v) : g.Belongs root v := by
  induction he using ReflTransGen.head_induction_on with
  | refl => exact hv
  | head he _ ih => exact he.belongs_old hx (ih (he.value hx))

end Edits

end Graph

/-! ## Linear functions stay linear, and well-typed ones well-typed -/

namespace Session.Reduction

variable {axes : Rules.AxisMatch} {s t : Session} {root o : OpId}

theorem linear (h : s.Reduction axes o t) (hs : s.graph.Function root)
    (ht : t.graph.Function root) (hedits : ReflTransGen (Edit axes root) s.graph t.graph)
    (ho : s.graph.Inside root o) (hlinear : s.graph.Linear root) : t.graph.Linear root := by
  have hout : s.graph.Exclusive root := hlinear.exclusive hs.valid hs.typed
  intro v x hv hx hq
  refine ht.valid.coherent.single_iff.1 (h.single hs.valid ho ?_ (hout.single ho) fun hf => ?_)
  · cases hy : s.graph.value v with
    | ok y =>
      -- a qubit that was there had at most one reader before
      have hxy := (h.wakes hs.valid.linked hs.valid.coherent).2.toEvolves.value hy
      rw [hx] at hxy
      cases hxy
      have hold := Edit.belongs_old_all hedits hy hv
      exact hs.valid.coherent.single_iff.2 (hlinear hold hy hq)
    | error e =>
      intro r r' hr
      obtain ⟨y, hy'⟩ := hs.valid.exist hr
      rw [hy] at hy'
      cases hy'
  · obtain ⟨d, hd, hmem, -⟩ := hf.op_ok
    exact (ht.isQubit_iff (hv.definer ht.valid.linked hd hmem) hf).1 ⟨x, hx, hq⟩

theorem wellTyped (h : s.Reduction axes o t) (hs : s.graph.Function root)
    (ht : t.graph.Function root) (ho : s.graph.Inside root o) (hl : s.graph.Linear root)
    (hw : s.graph.WellTyped root) : t.graph.WellTyped root := by
  cases h with
  | unused hf hk _ he => exact (hs.spares_unused hw ho hf hk he.graph).wellTyped
  | sum hf _ _ hi hn hr he =>
    exact (hs.spares_sum hw ht ho hf hi.graph hn hr.graph he.graph).wellTyped
  | pair hf hp hpo hr he he' =>
    exact (hs.swaps_pair hl hw ho hf hp hpo hr.graph he.graph he'.graph).wellTyped
  | conjugation hf hx hxo hp hpx _ hd hi hn hr he he' he'' =>
    exact (hs.swaps_conjugation hw ht ho hf hx hxo hp hpx hd hi.graph hn hr.graph he.graph he'.graph
      he''.graph).1.wellTyped
  | fusion hf hp hpo _ _ hi hn hr he =>
    exact (hs.spares_fusion hw ht ho hf hp hpo hi.graph hn hr.graph he.graph).wellTyped

end Session.Reduction

end Peephole
