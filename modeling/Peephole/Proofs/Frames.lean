import Peephole.Proofs.Validity

/-!
# What edits leave alone

Two ways to change a graph cover all edits of a valid function.  A graph is *rewired* when
only operand slots are written, and *trimmed* when one operation without regions is taken
out.  An erasure trims a graph, and an insertion is the same seen backwards.

For both, this module says how nesting, order and visibility carry over.
-/

namespace Peephole

theorem Op.eq_of_unread {d d' : Op} (h : d'.unread = d.unread) :
    d' = { d with operands := d'.operands } := by
  obtain ⟨k, vs, res, tys, attrs, regs, blk, loc, er⟩ := d
  obtain ⟨k', vs', res', tys', attrs', regs', blk', loc', er'⟩ := d'
  simp only [Op.unread, Op.mk.injEq] at h
  obtain ⟨rfl, -, rfl, rfl, rfl, rfl, rfl, rfl, rfl⟩ := h
  rfl

theorem Op.kind_of_unread {d d' : Op} (h : d'.unread = d.unread) : d'.kind = d.kind := by
  rw [Op.eq_of_unread h]

namespace Graph

variable {g g' : Graph} {root o p : OpId} {v : ValueId} {n : Nat}

/-! ## Rewired graphs -/

namespace Rewired

theorem regionOf? (h : Rewired g g') {r : Option RegionId} (hr : g.regionOf? o = .ok r) :
    g'.regionOf? o = .ok r := by
  obtain ⟨d, hd, hr⟩ := bind_eq_ok.1 hr
  obtain ⟨d', hd', hu⟩ := h.op_ok hd
  have hblock : d'.block = d.block := by
    have : d'.unread.block = d.unread.block := by rw [hu]
    exact this
  refine bind_eq_ok.2 ⟨d', hd', ?_⟩
  rw [hblock]
  simp only [h.block]
  exact hr

theorem ownerOf? (h : Rewired g g') {q : Option OpId} (hq : g.ownerOf? o = .ok q) :
    g'.ownerOf? o = .ok q := by
  obtain ⟨r, hr, hq⟩ := bind_eq_ok.1 hq
  refine bind_eq_ok.2 ⟨r, h.regionOf? hr, ?_⟩
  simp only [h.region]
  exact hq

theorem within (h : Rewired g g') (ho : Within g root n o) : Within g' root n o := by
  induction ho with
  | root => exact .root
  | step howner _ ih => exact .step (h.ownerOf? howner) ih

theorem inside (h : Rewired g g') (ho : g.Inside root o) : g'.Inside root o := by
  obtain ⟨n, hn⟩ := ho
  exact ⟨n, h.within hn⟩

theorem precedes (h : Rewired g g') (hpo : g.Precedes p o) : g'.Precedes p o := by
  obtain ⟨b, B, hB, hs⟩ := hpo
  exact ⟨b, B, (h.block b).trans hB, hs⟩

theorem results (h : Rewired g g') {d : Op} (hd : g.op o = .ok d) :
    ∃ d', g'.op o = .ok d' ∧ d'.results = d.results := by
  obtain ⟨d', hd', hu⟩ := h.op_ok hd
  have : d'.unread.results = d.unread.results := by rw [hu]
  exact ⟨d', hd', this⟩

theorem visible (h : Rewired g g') (hv : g.Visible v o) : g'.Visible v o := by
  induction hv with
  | argument hB ho hv => exact .argument ((h.block _).trans hB) ho hv
  | earlier hpo hx hv =>
    obtain ⟨x', hx', hres⟩ := h.results hx
    exact .earlier (h.precedes hpo) hx' (hres ▸ hv)
  | outer howner _ ih => exact .outer (h.ownerOf? howner) ih

theorem belongs (h : Rewired g g') (hv : g.Belongs root v) : g'.Belongs root v := by
  cases hv with
  | result ho hx hv =>
    obtain ⟨x', hx', hres⟩ := h.results hx
    exact .result (h.inside ho) hx' (hres ▸ hv)
  | argument hp hR howner hB hr hv =>
    exact .argument (h.within hp) ((h.region _).trans hR) howner ((h.block _).trans hB) hr hv

theorem shaped (h : Rewired g g') {d d' : Op} (hd : g.op o = .ok d) (hd' : g'.op o = .ok d')
    (hs : d.Shaped) : d'.Shaped := by
  obtain ⟨d'', hd'', hu⟩ := h.op_ok hd
  rw [hd'] at hd''
  cases hd''
  have hlen : d'.operands.length = d.operands.length := by
    have := congrArg (fun x : Op => x.operands.length) hu
    simpa [Op.unread] using this
  rw [Op.eq_of_unread hu]
  exact hs.withOperands hlen

/-- An operation whose slots are all renamed the same way is the old one, renamed. -/
theorem op_map (h : Rewired g g') {σ : ValueId → ValueId} {d : Op} (hd : g.op o = .ok d)
    (hheld : ∀ i, g'.held? ⟨o, i⟩ = (g.held? ⟨o, i⟩).map σ) :
    g'.op o = .ok { d with operands := d.operands.map σ } := by
  obtain ⟨d', hd', hu⟩ := h.op_ok hd
  have hoperands : d'.operands = d.operands.map σ := by
    apply List.ext_getElem?
    intro i
    have hi := hheld i
    rw [held?_of_op (u := ⟨o, i⟩) hd', held?_of_op (u := ⟨o, i⟩) hd] at hi
    rw [List.getElem?_map]
    exact hi
  rw [hd', Op.eq_of_unread hu, hoperands]

end Rewired

/-! ## Trimmed graphs -/

/-- The second graph is the first without one operation, which owns no regions. -/
structure Trimmed (g g' : Graph) (e : OpId) : Prop where
  op {o : OpId} : o ≠ e → g'.op o = g.op o
  gone (d : Op) : g'.op e ≠ .ok d
  free {r : RegionId} {R : Region} : g.region r = .ok R → R.owner ≠ some e
  block (b : BlockId) :
    g'.block b = (g.block b).map fun B => { B with ops := B.ops.filter (· ≠ e) }
  region (r : RegionId) : g'.region r = g.region r

namespace Trimmed

variable {e : OpId}

theorem ne_of_op (h : Trimmed g g' e) {d : Op} (hd : g'.op o = .ok d) : o ≠ e := by
  rintro rfl
  exact h.gone d hd

theorem op_ok (h : Trimmed g g' e) {d : Op} (hd : g'.op o = .ok d) : g.op o = .ok d :=
  (h.op (h.ne_of_op hd)).symm.trans hd

theorem block_ok (h : Trimmed g g' e) {b : BlockId} {B : Block} (hB : g.block b = .ok B) :
    g'.block b = .ok { B with ops := B.ops.filter (· ≠ e) } := by
  rw [h.block, hB, map_ok]

theorem regionOf? (h : Trimmed g g' e) (ho : o ≠ e) : g'.regionOf? o = g.regionOf? o := by
  simp only [Graph.regionOf?, h.op ho, h.block]
  cases g.op o with
  | error f => rfl
  | ok d =>
    simp only [ok_bind]
    cases d.block with
    | none => rfl
    | some b =>
      dsimp only
      cases g.block b with
      | error f => rfl
      | ok B => rfl

theorem ownerOf? (h : Trimmed g g' e) (ho : o ≠ e) : g'.ownerOf? o = g.ownerOf? o := by
  simp only [Graph.ownerOf?, h.regionOf? ho, h.region]

theorem owner_ne (h : Trimmed g g' e) (howner : g.ownerOf? o = .ok (some p)) : p ≠ e := by
  obtain ⟨r, R, -, hR, hp⟩ := ownerOf?_eq_some.1 howner
  rintro rfl
  exact h.free hR hp

theorem within_old (h : Trimmed g g' e) (ho : Within g' root n o) : Within g root n o := by
  induction ho with
  | root => exact .root
  | step howner _ ih =>
    obtain ⟨d, hd⟩ := op_of_ownerOf? howner
    exact .step ((h.ownerOf? (h.ne_of_op hd)).symm.trans howner) ih

theorem within (h : Trimmed g g' e) (ho : Within g root n o) (hne : o ≠ e) :
    Within g' root n o := by
  induction ho with
  | root => exact .root
  | step howner _ ih =>
    exact .step ((h.ownerOf? hne).trans howner) (ih (h.owner_ne howner))

theorem inside_iff (h : Trimmed g g' e) : g'.Inside root o ↔ g.Inside root o ∧ o ≠ e := by
  constructor
  · rintro ⟨n, hn⟩
    obtain ⟨d, hd⟩ := Inside.live ⟨n, hn⟩
    exact ⟨⟨n, h.within_old hn⟩, h.ne_of_op hd⟩
  · rintro ⟨⟨n, hn⟩, hne⟩
    exact ⟨n, h.within hn hne⟩

theorem precedes_iff (h : Trimmed g g' e) :
    g'.Precedes p o ↔ g.Precedes p o ∧ p ≠ e ∧ o ≠ e := by
  constructor
  · rintro ⟨b, B', hB', hs⟩
    rw [h.block] at hB'
    obtain ⟨B, hB, rfl⟩ := map_eq_ok.1 hB'
    have hp := hs.subset (.head _)
    have ho := hs.subset (.tail p (.head _))
    simp only [ne_eq, decide_not, List.mem_filter, Bool.not_eq_eq_eq_not, Bool.not_true,
      decide_eq_false_iff_not] at hp ho
    exact ⟨⟨b, B, hB, hs.trans List.filter_sublist⟩, hp.2, ho.2⟩
  · rintro ⟨⟨b, B, hB, hs⟩, hp, ho⟩
    refine ⟨b, _, h.block_ok hB, ?_⟩
    have := hs.filter fun q => decide (q ≠ e)
    simpa [hp, ho] using this

theorem visible_old (h : Trimmed g g' e) (hv : g'.Visible v o) : g.Visible v o := by
  induction hv with
  | argument hB' ho hv =>
    rw [h.block] at hB'
    obtain ⟨B, hB, rfl⟩ := map_eq_ok.1 hB'
    exact .argument hB (List.mem_of_mem_filter ho) hv
  | earlier hpo hx hv => exact .earlier (h.precedes_iff.1 hpo).1 (h.op_ok hx) hv
  | outer howner _ ih =>
    obtain ⟨d, hd⟩ := op_of_ownerOf? howner
    exact .outer ((h.ownerOf? (h.ne_of_op hd)).symm.trans howner) ih

/-- What is not made by the operation that is gone stays visible. -/
theorem visible (h : Trimmed g g' e) (hmade : ∀ d, g.op e = .ok d → v ∉ d.results)
    (hv : g.Visible v o) (hne : o ≠ e) : g'.Visible v o := by
  induction hv with
  | argument hB ho hv =>
    exact .argument (h.block_ok hB) (List.mem_filter.2 ⟨ho, by simpa using hne⟩) hv
  | @earlier o p x hpo hx hv =>
    have hp : p ≠ e := by
      rintro rfl
      exact hmade x hx hv
    exact .earlier (h.precedes_iff.2 ⟨hpo, hp, hne⟩) ((h.op hp).trans hx) hv
  | outer howner _ ih =>
    exact .outer ((h.ownerOf? hne).trans howner) (ih (h.owner_ne howner))

theorem belongs_old (h : Trimmed g g' e) (hv : g'.Belongs root v) : g.Belongs root v := by
  cases hv with
  | result ho hx hv => exact .result (h.inside_iff.1 ho).1 (h.op_ok hx) hv
  | argument hp hR howner hB' hr hv =>
    rw [h.region] at hR
    rw [h.block] at hB'
    obtain ⟨B, hB, rfl⟩ := map_eq_ok.1 hB'
    exact .argument (h.within_old hp) hR howner hB hr hv

/-- What belongs to the root still does, or the operation that is gone made it. -/
theorem belongs (h : Trimmed g g' e) (hv : g.Belongs root v) :
    g'.Belongs root v ∨ ∃ d, g.op e = .ok d ∧ v ∈ d.results := by
  cases hv with
  | @result o d ho hd hv =>
    by_cases hne : o = e
    · subst hne
      exact .inr ⟨d, hd, hv⟩
    · exact .inl (.result (h.inside_iff.2 ⟨ho, hne⟩) ((h.op hne).trans hd) hv)
  | @argument n p r R b B hp hR howner hB hr hv =>
    have hne : p ≠ e := by
      rintro rfl
      exact h.free hR howner
    exact .inl (.argument (h.within hp hne) ((h.region r).trans hR) howner (h.block_ok hB) hr hv)

end Trimmed

end Graph

end Peephole
