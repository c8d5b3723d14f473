import Peephole.Proofs.Formulas

/-!
# What edits leave around a function

`Graph.SameOutside root g g'` says that the second graph has all that the first has outside
`root`.  Operations that are not nested in the root keep their entries, and blocks that it
does not enclose theirs.  Regions and values stay what they are everywhere, and a value
that is made outside keeps its use list, in its order.

What is outside stays outside, since the links that lead upwards from it stay too
(`SameOutside.inside_old`).  So what each of two edits leaves alone, both leave alone
(`SameOutside.trans`).  An edit of a valid function writes nothing but operations, blocks and
use lists under its root, and the last section says so of each of the four edits.
-/

namespace Peephole.Graph

variable {g g' g'' : Graph} {root o : OpId} {v : ValueId} {b : BlockId}

/-- The block is in a region of the root or of what is nested in it. -/
def Encloses (g : Graph) (root : OpId) (b : BlockId) : Prop :=
  ∃ n p r R B, Within g root n p ∧ g.region r = .ok R ∧ R.owner = some p ∧
    g.block b = .ok B ∧ B.region = some r

/-- The second graph has what the first has outside the root. -/
structure SameOutside (root : OpId) (g g' : Graph) : Prop where
  before : g.Linked
  after : g'.Linked
  entry {o : OpId} {d : Op} : g.slot o = .ok d → ∃ d', g'.slot o = .ok d'
  slot {o : OpId} {d : Op} : g.slot o = .ok d → ¬g.Inside root o → g'.slot o = .ok d
  block {b : BlockId} {B : Block} : g.block b = .ok B → ¬g.Encloses root b → g'.block b = .ok B
  region {r : RegionId} {R : Region} : g.region r = .ok R → g'.region r = .ok R
  value {v : ValueId} {x : Value} : g.value v = .ok x → g'.value v = .ok x
  uses {v : ValueId} {x : Value} : g.value v = .ok x → ¬g.Belongs root v → g'.uses v = g.uses v

/-! ## Inside and outside -/

theorem Inside.encloses {d : Op} (h : g.Inside root o) (hd : g.op o = .ok d)
    (hb : d.block = some b) : g.Encloses root b := by
  obtain ⟨n, p, howner, hn⟩ := h.owner
  obtain ⟨r, R, hr, hR, hp⟩ := ownerOf?_eq_some.1 howner
  obtain ⟨x, c, C, hx, hc, hC, hCr⟩ := regionOf?_eq_some.1 hr
  rw [hd] at hx
  cases hx
  rw [hb] at hc
  cases hc
  exact ⟨n, p, r, R, C, hn, hR, hp, hC, hCr⟩

theorem Encloses.inside {d : Op} (h : g.Encloses root b) (hd : g.op o = .ok d)
    (hb : d.block = some b) : g.Inside root o := by
  obtain ⟨n, p, r, R, B, hn, hR, hp, hB, hr⟩ := h
  have hregion : g.regionOf? o = .ok (some r) := regionOf?_eq_some.2 ⟨d, b, B, hd, hb, hB, hr⟩
  exact ⟨n, .step (ownerOf?_eq_some.2 ⟨r, R, hregion, hR, hp⟩) hn⟩

/-- A result of something nested is visible to what is nested only. -/
theorem Visible.inside_of_result {p : OpId} {x : Op} (hg : g.Linked) (h : g.Visible v o)
    (hx : g.slot p = .ok x) (hv : v ∈ x.results) (hp : g.Inside root p) : g.Inside root o := by
  induction h with
  | argument hB _ hv' => exact absurd hv (hg.argument_not_result hB hv' hx)
  | earlier hprec hy hv' =>
    obtain rfl := hg.result_unique hx hv (slot_of_op hy) hv'
    exact hp.sibling (hg.ownerOf?_of_precedes hprec).symm
  | outer howner _ ih =>
    obtain ⟨n, hn⟩ := ih
    exact ⟨n + 1, .step howner hn⟩

/-- So is an argument of a block inside. -/
theorem Visible.inside_of_argument {B : Block} (hg : g.Linked) (h : g.Visible v o)
    (hB : g.block b = .ok B) (hv : v ∈ B.args) (hb : g.Encloses root b) : g.Inside root o := by
  induction h with
  | @argument o c C hC ho hv' =>
    obtain ⟨y, i, hy, hyb⟩ := hg.origin_argument hB hv
    obtain ⟨y', j, hy', hyc⟩ := hg.origin_argument hC hv'
    rw [hy] at hy'
    cases hy'
    rw [hyb] at hyc
    cases hyc
    obtain ⟨x, hx, hxb⟩ := hg.placed.2 ⟨C, hC, ho⟩
    exact hb.inside hx hxb
  | earlier _ hy hv' => exact absurd hv' (hg.argument_not_result hB hv (slot_of_op hy))
  | outer howner _ ih =>
    obtain ⟨n, hn⟩ := ih
    exact ⟨n + 1, .step howner hn⟩

namespace SameOutside

theorem refl (hg : g.Linked) : SameOutside root g g where
  before := hg
  after := hg
  entry h := ⟨_, h⟩
  slot h _ := h
  block h _ := h
  region h := h
  value h := h
  uses _ _ := rfl

theorem size_le (h : SameOutside root g g') : g.ops.size ≤ g'.ops.size := by
  by_contra hlt
  have hlast : g'.ops.size < g.ops.size := Nat.lt_of_not_le hlt
  have hd : g.slot ⟨g'.ops.size⟩ = .ok g.ops[g'.ops.size] :=
    slot_eq_ok.2 (Array.getElem?_eq_getElem hlast)
  obtain ⟨d', hd'⟩ := h.entry hd
  exact Nat.lt_irrefl _ (index_lt_of_slot hd')

theorem op {d : Op} (h : SameOutside root g g') (hd : g.op o = .ok d) (ho : ¬g.Inside root o) :
    g'.op o = .ok d := by
  obtain ⟨hs, he⟩ := op_eq_ok.1 hd
  exact op_eq_ok.2 ⟨h.slot hs ho, he⟩

/-- An operation outside is owned by the same one as before. -/
theorem ownerOf?_old {d : Op} {p : OpId} (h : SameOutside root g g') (hd : g.slot o = .ok d)
    (ho : ¬g.Inside root o) (howner : g'.ownerOf? o = .ok (some p)) :
    g.ownerOf? o = .ok (some p) := by
  obtain ⟨r, R, hr', hR', hp⟩ := ownerOf?_eq_some.1 howner
  obtain ⟨d', c, B, hd', hc, hB', hBr⟩ := regionOf?_eq_some.1 hr'
  obtain ⟨hs', he'⟩ := op_eq_ok.1 hd'
  rw [h.slot hd ho] at hs'
  cases hs'
  have hlive : g.op o = .ok d := op_eq_ok.2 ⟨hd, he'⟩
  obtain ⟨B₀, hB, -⟩ := h.before.placed.1 ⟨d, hlive, hc⟩
  rw [h.block hB fun henc => ho (henc.inside hlive hc)] at hB'
  cases hB'
  obtain ⟨R₀, hR, -⟩ := h.before.parted.1 ⟨B, hB, hBr⟩
  rw [h.region hR] at hR'
  cases hR'
  exact ownerOf?_eq_some.2 ⟨r, R, regionOf?_eq_some.2 ⟨d, c, B, hlive, hc, hB, hBr⟩, hR, hp⟩

/-- What was not under the root is not under it afterwards. -/
theorem inside_old {d : Op} (h : SameOutside root g g') (hd : g.slot o = .ok d)
    (ho : g'.Inside root o) : g.Inside root o := by
  obtain ⟨n, hn⟩ := ho
  -- by the chain of owners, which is the same as long as it is outside
  induction n generalizing o d with
  | zero =>
    by_contra hout
    cases hn with
    | step howner hn =>
      cases hn
      exact hout ⟨0, .step (h.ownerOf?_old hd hout howner) .root⟩
  | succ n ih =>
    by_contra hout
    cases hn with
    | step howner hn =>
      have howner' := h.ownerOf?_old hd hout howner
      obtain ⟨r, R, -, hR, hp⟩ := ownerOf?_eq_some.1 howner'
      obtain ⟨x, hx, -⟩ := h.before.owned.1 ⟨R, hR, hp⟩
      obtain ⟨m, hm⟩ := ih hx hn
      exact hout ⟨m + 1, .step howner' hm⟩

theorem within_old {d : Op} {n : Nat} (h : SameOutside root g g') (hd : g.slot o = .ok d)
    (ho : Within g' root n o) : ∃ m, Within g root m o := by
  cases n with
  | zero =>
    cases ho
    exact ⟨0, .root⟩
  | succ n =>
    obtain ⟨m, hm⟩ := h.inside_old hd ⟨n, ho⟩
    exact ⟨m + 1, hm⟩

theorem encloses_old {B : Block} (h : SameOutside root g g') (hB : g.block b = .ok B)
    (hb : g'.Encloses root b) : g.Encloses root b := by
  by_contra hout
  obtain ⟨n, p, r, R, B', hn, hR', hp, hB', hBr⟩ := hb
  rw [h.block hB hout] at hB'
  cases hB'
  obtain ⟨R₀, hR, -⟩ := h.before.parted.1 ⟨B, hB, hBr⟩
  rw [h.region hR] at hR'
  cases hR'
  obtain ⟨x, hx, -⟩ := h.before.owned.1 ⟨R, hR, hp⟩
  obtain ⟨m, hm⟩ := h.within_old hx hn
  exact hout ⟨m, p, r, R, B, hm, hR, hp, hB, hBr⟩

theorem belongs_old {x : Value} (h : SameOutside root g g') (hx : g.value v = .ok x)
    (hv : g'.Belongs root v) : g.Belongs root v := by
  have hx' := h.value hx
  cases hv with
  | @result o d' ho hd' hmem =>
    obtain ⟨y, i, hy, horigin⟩ := h.after.origin_result (slot_of_op hd') hmem
    rw [hx'] at hy
    cases hy
    obtain ⟨d, hd, hi⟩ := h.before.result.1 ⟨x, hx, horigin⟩
    have hin := h.inside_old hd ho
    obtain ⟨e, he⟩ := hin.live
    rw [slot_of_op he] at hd
    cases hd
    exact .result hin he (List.mem_of_getElem? hi)
  | @argument n p r R' c C' hn hR' hp hC' hCr hmem =>
    obtain ⟨y, i, hy, horigin⟩ := h.after.origin_argument hC' hmem
    rw [hx'] at hy
    cases hy
    obtain ⟨C, hC, hi⟩ := h.before.argument.1 ⟨x, hx, horigin⟩
    obtain ⟨m, q, r', R, D, hm, hR, hq, hD, hDr⟩ :=
      h.encloses_old hC ⟨n, p, r, R', C', hn, hR', hp, hC', hCr⟩
    rw [hC] at hD
    cases hD
    exact .argument hm hR hq hC hDr (List.mem_of_getElem? hi)

theorem trans (h : SameOutside root g g') (h' : SameOutside root g' g'') :
    SameOutside root g g'' where
  before := h.before
  after := h'.after
  entry hd := by
    obtain ⟨d', hd'⟩ := h.entry hd
    exact h'.entry hd'
  slot hd ho := h'.slot (h.slot hd ho) fun hin => ho (h.inside_old hd hin)
  block hB hb := h'.block (h.block hB hb) fun henc => hb (h.encloses_old hB henc)
  region hR := h'.region (h.region hR)
  value hx := h'.value (h.value hx)
  uses hx hv :=
    (h'.uses (h.value hx) fun hb => hv (h.belongs_old hx hb)).trans (h.uses hx hv)

end SameOutside

/-! ## Use lists, exactly -/

theorem uses_addUses {op : OpId} :
    ∀ {i : Nat} {vs : List ValueId} {g : Graph}, v ∉ vs → (addUses op i vs g).uses v = g.uses v
  | _, [], _, _ => rfl
  | _, w :: vs, g, hv => by
      obtain ⟨hne, hv⟩ := not_or.1 (mt List.mem_cons.2 hv)
      rw [addUses, uses_addUses hv, uses_modifyUses, if_neg (Ne.symm hne)]

theorem uses_newOp {d : Draft} (h : g.newOp d = .ok (o, g')) (hv : v ∉ d.operands) :
    g'.uses v = g.uses v := by
  obtain ⟨-, -, g₁, h₁, rfl⟩ := newOp_eq_ok h
  show (addUses o 0 d.operands g₁).uses v = g.uses v
  rw [uses_addUses hv, (claimRegions_eq_ok h₁).2.2.2]
  rfl

/-! ## The four edits -/

theorem Rewired.entry {d : Op} (h : Rewired g g') (hd : g.slot o = .ok d) :
    ∃ d', g'.slot o = .ok d' := by
  obtain ⟨d', hd', -⟩ := h.slot_ok hd
  exact ⟨d', hd'⟩

namespace Valid

theorem outside_insert (h : g.Valid root) {a n : OpId} {d : Draft} {g₁ : Graph}
    (ha : g.Inside root a) (hregions : d.regions = [])
    (hvisible : ∀ v ∈ d.operands, g.Visible v a) (hnew : g.newOp d = .ok (n, g₁))
    (hplace : g₁.placeBefore a n = .ok g') : SameOutside root g g' := by
  have hafter := (h.linked.newOp hnew).placeBefore hplace
  obtain ⟨x, y, b, B, i, -, -, hy, hyb, -, -, rfl⟩ := placeBefore_eq_ok.1 hplace
  have hne : a ≠ n := by
    rintro rfl
    obtain ⟨z, hz⟩ := ha.live
    exact not_slot_of_newOp hnew z (slot_of_op hz)
  rw [op_newOp hnew, if_neg hne] at hy
  have hslot : ∀ {o d}, g.slot o = .ok d →
      (g₁.put n b fun ops => ops.insertIdx i n).slot o = .ok d := by
    intro o d hd
    have hon : o ≠ n := by
      rintro rfl
      exact not_slot_of_newOp hnew d hd
    rw [slot_put, if_neg (Ne.symm hon), slot_newOp hnew, if_neg hon]
    exact hd
  refine ⟨h.linked, hafter, fun hd => ⟨_, hslot hd⟩, fun hd _ => hslot hd, ?_, ?_, ?_, ?_⟩
  · intro c C hC hc
    rw [block_put, if_neg, block_newOp hnew]
    · exact hC
    · rintro rfl
      exact hc (ha.encloses hy hyb)
  · intro r R hR
    rw [region_put, region_newOp hnew, hregions, if_neg List.not_mem_nil]
    exact hR
  · intro v x hx
    rw [value_put]
    exact (value_newOp hnew).2 (.inl hx)
  · intro v x _ hv
    rw [uses_put]
    exact uses_newOp hnew fun hmem => hv ((hvisible v hmem).belongs h.linked h.detached ha)

theorem outside_redirectUses (h : g.Valid root) {old new : ValueId} (hold : g.Belongs root old)
    (hnew : g.uses old ≠ [] → g.Belongs root new) (hg' : g.redirectUses old new = .ok g') :
    SameOutside root g g' := by
  have hr : Rewired g g' := .redirectUses hg'
  have hlinked := h.linked.rewired hr
  rw [redirectUses] at hg'
  split at hg'
  · cases hg'
    exact .refl h.linked
  · have hwritten : ∀ u ∈ g.uses old, (g.modifyUses old fun _ => []).written? u = some old :=
      fun u hu => written?_of_held? (h.coherent.mem_uses.1 hu)
    obtain ⟨g₁, h₁, hslot, huses, -⟩ :=
      @redirects_ok old new _ (g.modifyUses old fun _ => []) (h.coherent.nodup_uses old) hwritten
    rw [h₁] at hg'
    cases hg'
    refine ⟨h.linked, hlinked, hr.entry, ?_, fun hB _ => (hr.block _).trans hB,
      fun hR => (hr.region _).trans hR, fun hx => (hr.value _).trans hx, ?_⟩
    · intro o d hd ho
      -- the slots that are written are under the root, since nobody else reads the old value
      have hnone : ∀ i, (⟨o, i⟩ : Use) ∉ g.uses old := fun i hu =>
        ho (h.closed (h.coherent.mem_uses.1 hu) hold)
      have hsame : Graph.rewired d o (g.uses old) new = d :=
        Eq.trans (by simp [Graph.rewired, hnone]) (rewired_nil d o new)
      rw [hslot, slot_modifyUses, hd, map_ok, hsame]
    · intro v x _ hv
      have hvold : old ≠ v := fun heq => hv (heq ▸ hold)
      rw [huses, uses_modifyUses, if_neg hvold]
      split
      · rename_i heq
        have hnil : g.uses old = [] := by
          by_contra hsome
          exact hv (heq ▸ hnew hsome)
        rw [hnil, List.append_nil]
      · rfl

theorem outside_writeSlot (h : g.Valid root) {i : Nat} {old new : ValueId} (ho : g.Inside root o)
    (hheld : g.held? ⟨o, i⟩ = some old) (hnew : g.Belongs root new)
    (hg' : g.writeSlot o i new = .ok g') : SameOutside root g g' := by
  have hr : Rewired g g' := .writeSlot hg'
  have hold : g.Belongs root old := (h.visible hheld ho).belongs h.linked h.detached ho
  refine ⟨h.linked, h.linked.rewired hr, hr.entry, ?_, fun hB _ => (hr.block _).trans hB,
    fun hR => (hr.region _).trans hR, fun hx => (hr.value _).trans hx, ?_⟩
  · intro p d hd hp
    rw [slot_writeSlot hg', if_neg]
    · exact hd
    · rintro rfl
      exact hp ho
  · intro v x _ hv
    obtain ⟨d, w, hd, hw, rfl⟩ := writeSlot_eq_ok.1 hg'
    have hwold : w = old := by
      have hwritten : g.written? ⟨o, i⟩ = some w := (written?_of_slot hd).trans hw
      rw [written?_of_held? hheld] at hwritten
      exact (Option.some.inj hwritten).symm
    subst hwold
    have hvw : w ≠ v := fun heq => hv (heq ▸ hold)
    have hvnew : new ≠ v := fun heq => hv (heq ▸ hnew)
    split
    · rfl
    · rw [uses_modifyUses, if_neg hvnew, uses_modifyUses, if_neg hvw, uses_modifyOp]

theorem outside_erase (h : g.Valid root) {d : Op} (ho : g.Inside root o) (hd : g.op o = .ok d)
    (hregions : d.regions = []) (hg' : g.erase o = .ok g') : SameOutside root g g' := by
  have hafter := h.linked.erase hg'
  obtain ⟨d', os, bs, hd', -, he⟩ := dismantled_of_erase hg'
  rw [hd] at hd'
  cases hd'
  obtain ⟨hmem, hinner⟩ := he.of_leaf (slot_of_op hd) hregions
  refine ⟨h.linked, hafter, ?_, ?_, ?_, fun hR => (he.region _).trans hR,
    fun hx => (he.value _).trans hx, ?_⟩
  · intro p x hx
    rw [he.slot, hx]
    split
    · exact ⟨_, rfl⟩
    · exact ⟨x, rfl⟩
  · intro p x hx hp
    rw [he.slot, if_neg]
    · exact hx
    · intro hin
      exact hp ((hmem p).1 hin ▸ ho)
  · intro c C hC hc
    rw [he.block, if_neg (hinner c), if_neg]
    · exact hC
    · intro hhome
      exact hc (ho.encloses hd hhome)
  · intro v x _ hv
    have hvd : v ∉ d.operands := by
      intro hmem
      obtain ⟨i, hi⟩ := List.mem_iff_getElem?.1 hmem
      have hheld : g.held? ⟨o, i⟩ = some v := held?_eq_some.2 ⟨d, hd, hi⟩
      exact hv ((h.visible hheld ho).belongs h.linked h.detached ho)
    rw [he.uses, List.filter_eq_self]
    intro u _
    apply decide_eq_true
    rintro ⟨huser, hw⟩
    obtain rfl := (hmem u.user).1 huser
    rw [written?_of_slot (slot_of_op hd)] at hw
    exact hvd (List.mem_of_getElem? hw)

end Valid

end Peephole.Graph
