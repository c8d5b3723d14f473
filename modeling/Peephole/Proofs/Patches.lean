import Peephole.Proofs.Reductions
import Peephole.Proofs.Replacement
import Peephole.Proofs.Updates

/-!
# Patches

A patch says what a local change does to a whole graph: which operations go and which ones are
made, what every slot holds then, what every block lists, and which use lists are other ones.
`Graph.Patched g P g'` says that `g'` is `g` with the patch `P`, and leaves nothing open but the
order in the use lists that change.

The edits of a session extend a patch, one lemma for each: an insertion starts one
(`EditM.insert_patched`), and writing slots, moving uses and erasing go on with it.  None of
them depends on who is told of the changes.
-/

namespace Peephole

/-- What a local change does. -/
structure Patch where
  /-- The operations that are erased. -/
  gone : List OpId
  /-- The operations that are made, with their entries. -/
  fresh : List (OpId × Op)
  /-- What a slot holds that held the given value. -/
  reads : Use → ValueId → ValueId
  /-- What a block lists in the place of an operation. -/
  relist : OpId → List OpId
  /-- The values whose use lists change. -/
  touched : List ValueId

namespace Patch

/-- What an operation reads that read the given values. -/
def operands (P : Patch) (o : OpId) (vs : List ValueId) : List ValueId :=
  vs.mapIdx fun i v => P.reads ⟨o, i⟩ v

/-- What becomes of the entry of an operation.  One that was erased before stays as it is. -/
def entry (P : Patch) (o : OpId) (d : Op) : Op :=
  if d.erased then d
  else { d with
    operands := P.operands o d.operands
    block := if o ∈ P.gone then none else d.block
    erased := decide (o ∈ P.gone) }

/-- Nothing is changed. -/
def none : Patch := ⟨[], [], fun _ v => v, fun o => [o], []⟩

/-- The operation `n` is made right before `a`. -/
def insertion (a n : OpId) (e : Op) : Patch where
  gone := []
  fresh := [(n, e)]
  reads _ v := v
  relist o := if o = a then [n, a] else [o]
  touched := e.operands

/-- A slot that held `old` is written. -/
def write (P : Patch) (u : Use) (old new : ValueId) : Patch :=
  { P with
    reads := fun u' v => if u' = u then new else P.reads u' v
    touched := old :: new :: P.touched }

/-- The slots that hold `old` then hold `new`. -/
def redirect (P : Patch) (old new : ValueId) : Patch :=
  { P with
    reads := fun u v => if P.reads u v = old then new else P.reads u v
    touched := old :: new :: P.touched }

/-- An operation with the given operands is erased. -/
def erase (P : Patch) (e : OpId) (vs : List ValueId) : Patch :=
  { P with
    gone := e :: P.gone
    relist := fun o => (P.relist o).filter (· ≠ e)
    touched := vs ++ P.touched }

@[simp] theorem gone_none : Patch.none.gone = [] := rfl

@[simp] theorem gone_insertion (a n : OpId) (e : Op) : (insertion a n e).gone = [] := rfl

@[simp] theorem gone_write (P : Patch) (u : Use) (old new : ValueId) :
    (P.write u old new).gone = P.gone := rfl

@[simp] theorem gone_redirect (P : Patch) (old new : ValueId) :
    (P.redirect old new).gone = P.gone := rfl

@[simp] theorem gone_erase (P : Patch) (e : OpId) (vs : List ValueId) :
    (P.erase e vs).gone = e :: P.gone := rfl

theorem getElem?_operands (P : Patch) (o : OpId) (vs : List ValueId) (i : Nat) :
    (P.operands o vs)[i]? = vs[i]?.map (P.reads ⟨o, i⟩) := List.getElem?_mapIdx

theorem operands_of_same {P : Patch} {o : OpId} {vs : List ValueId}
    (h : ∀ i v, vs[i]? = some v → P.reads ⟨o, i⟩ v = v) : P.operands o vs = vs := by
  apply List.ext_getElem?
  intro i
  rw [getElem?_operands]
  cases hi : vs[i]? with
  | none => rfl
  | some v => rw [Option.map_some, h i v hi]

/-- With a patch that changes no slots and erases nothing, an entry is what it was. -/
theorem entry_of_same {P : Patch} {o : OpId} {d : Op} (hgone : o ∉ P.gone)
    (h : ∀ i v, d.operands[i]? = some v → P.reads ⟨o, i⟩ v = v) : P.entry o d = d := by
  rw [entry, operands_of_same h, if_neg hgone, decide_eq_false hgone]
  split
  · rfl
  · rename_i he
    rw [← Bool.eq_false_iff.2 he]

theorem operands_write (P : Patch) (o p : OpId) (i : Nat) (old new : ValueId)
    (vs : List ValueId) : (P.write ⟨o, i⟩ old new).operands p vs =
      if o = p then (P.operands p vs).set i new else P.operands p vs := by
  apply List.ext_getElem?
  intro j
  have hreads : (P.write ⟨o, i⟩ old new).reads ⟨p, j⟩ =
      fun v => if p = o ∧ j = i then new else P.reads ⟨p, j⟩ v := by
    simp only [write, Use.mk.injEq]
  rw [getElem?_operands, hreads]
  by_cases hp : o = p
  · rw [if_pos hp, List.getElem?_set, getElem?_operands, operands, List.length_mapIdx]
    by_cases hj : i = j
    · by_cases hlt : i < vs.length
      · simp [hp, ← hj, hlt]
      · simp [← hj, hlt]
    · simp [hj, Ne.symm hj]
  · simp [hp, Ne.symm hp, getElem?_operands]

theorem operands_redirect (P : Patch) (o : OpId) (old new : ValueId) (vs : List ValueId) :
    (P.redirect old new).operands o vs = (P.operands o vs).map (substitute [(old, new)]) := by
  apply List.ext_getElem?
  intro i
  rw [List.getElem?_map, getElem?_operands, getElem?_operands, Option.map_map]
  congr 1
  funext v
  rw [Function.comp, substitute_cons, substitute_nil]
  rfl

end Patch

namespace Graph

variable {g g₁ g₂ : Graph} {P : Patch} {o e n : OpId} {d x : Op} {v old new : ValueId}

/-- What a new operation without regions leaves as it was. -/
theorem newOp_rest {draft : Draft} (hregions : draft.regions = [])
    (h : g.newOp draft = .ok (n, g₁)) : g₁ = { g with
      ops := g₁.ops
      useLists := g₁.useLists
      values := g.values ++
        (draft.resultTypes.mapIdx fun i type => ⟨.result n i, type⟩).toArray } := by
  obtain ⟨-, -, g₀, hclaim, rfl⟩ := newOp_eq_ok h
  rw [hregions] at hclaim
  cases hclaim
  rw [addUses_eq]
  rfl

/-- The second graph is the first with the patch. -/
structure Patched (g : Graph) (P : Patch) (g' : Graph) : Prop where
  linked : g'.Linked
  /-- The use lists follow the slots. -/
  coherent : g'.Coherent
  /-- What is made has its entry, and had none before. -/
  made {n : OpId} {e : Op} : (n, e) ∈ P.fresh → g'.slot n = .ok e
  new {n : OpId} {e x : Op} : (n, e) ∈ P.fresh → g.slot n ≠ .ok x
  /-- The other operations have the entries they had, but for what the patch says. -/
  slot {o : OpId} : (∀ e, (o, e) ∉ P.fresh) → g'.slot o = (g.slot o).map (P.entry o)
  block (b : BlockId) :
    g'.block b = (g.block b).map fun B => { B with ops := B.ops.flatMap P.relist }
  /-- There are no new values but the results of what is made. -/
  values : g'.values = g.values ++ (P.fresh.flatMap fun t =>
    t.2.resultTypes.mapIdx fun i type => (⟨.result t.1 i, type⟩ : Value)).toArray
  regions : g'.regions = g.regions
  paths : g'.paths = g.paths
  /-- The other use lists are what they were. -/
  uses {v : ValueId} : v ∉ P.touched → g'.uses v = g.uses v

namespace Patched

theorem none (hg : g.Linked) (hc : g.Coherent) : g.Patched .none g where
  linked := hg
  coherent := hc
  made h := nomatch h
  new h := nomatch h
  slot {o} _ := by
    cases hd : g.slot o with
    | error f => rfl
    | ok d => rw [map_ok, Patch.entry_of_same (List.not_mem_nil) fun _ _ _ => rfl]
  block b := by
    cases hB : g.block b with
    | error f => rfl
    | ok B => simp [Patch.none]
  values := by simp [Patch.none]
  regions := rfl
  paths := rfl
  uses _ := rfl

/-- A patch may be written in another way and may name more use lists. -/
theorem congr {P' : Patch} (h : g.Patched P g₁) (hgone : P'.gone = P.gone)
    (hfresh : P'.fresh = P.fresh) (hreads : P'.reads = P.reads) (hrelist : P'.relist = P.relist)
    (htouched : P.touched ⊆ P'.touched) : g.Patched P' g₁ := by
  obtain ⟨gone, fresh, reads, relist, touched⟩ := P'
  dsimp only at hgone hfresh hreads hrelist htouched
  subst hgone hfresh hreads hrelist
  exact { h with
    slot := h.slot
    block := h.block
    uses := fun hv => h.uses fun hmem => hv (htouched hmem) }

/-! ## What is known after a patch -/

theorem not_fresh (h : g.Patched P g₁) (hd : g.slot o = .ok d) (x : Op) : (o, x) ∉ P.fresh :=
  fun hmem => h.new hmem hd

theorem op (h : g.Patched P g₁) (hd : g.op o = .ok d) (ho : o ∉ P.gone) :
    g₁.op o = .ok { d with operands := P.operands o d.operands } := by
  obtain ⟨hs, he⟩ := op_eq_ok.1 hd
  refine op_eq_ok.2 ⟨?_, he⟩
  rw [h.slot (h.not_fresh hs), hs, map_ok, Patch.entry, he, if_neg ho, decide_eq_false ho]
  rfl

/-- An operation whose slots a patch leaves alone is what it was. -/
theorem op_of_same (h : g.Patched P g₁) (hd : g.op o = .ok d) (ho : o ∉ P.gone)
    (hsame : ∀ i v, d.operands[i]? = some v → P.reads ⟨o, i⟩ v = v) : g₁.op o = .ok d := by
  rw [h.op hd ho, Patch.operands_of_same hsame]

theorem value {y : Value} (h : g.Patched P g₁) (hy : g.value v = .ok y) : g₁.value v = .ok y := by
  have hlt := index_lt_of_value hy
  rw [value_eq_ok] at hy ⊢
  rw [h.values, Array.getElem?_append_left hlt, hy]

/-- What a slot holds after a patch comes from what is made or from what the slot held. -/
theorem held_cases {u : Use} (h : g.Patched P g₁) (hu : g₁.held? u = some v) :
    (∃ x, (u.user, x) ∈ P.fresh ∧ x.operands[u.index]? = some v) ∨
      u.user ∉ P.gone ∧ ∃ w, g.held? u = some w ∧ P.reads u w = v := by
  obtain ⟨d, hd, hi⟩ := held?_eq_some.1 hu
  obtain ⟨hs, he⟩ := op_eq_ok.1 hd
  by_cases hfresh : ∃ x, (u.user, x) ∈ P.fresh
  · obtain ⟨x, hx⟩ := hfresh
    have hmade := h.made hx
    rw [hs] at hmade
    cases hmade
    exact .inl ⟨d, hx, hi⟩
  · rw [h.slot fun x hx => hfresh ⟨x, hx⟩] at hs
    obtain ⟨x, hx, rfl⟩ := map_eq_ok.1 hs
    right
    rw [Patch.entry] at he hi
    split at he
    · rename_i hdead
      rw [hdead] at he
      cases he
    · rename_i hlive
      have hgone : u.user ∉ P.gone := of_decide_eq_false he
      rw [if_neg hlive, Patch.getElem?_operands, Option.map_eq_some_iff] at hi
      obtain ⟨w, hw, hreads⟩ := hi
      exact ⟨hgone, w, held?_eq_some.2 ⟨x, op_eq_ok.2 ⟨hx, Bool.eq_false_iff.2 hlive⟩, hw⟩, hreads⟩

/-- Nobody reads a value that nothing new reads and that no slot gets. -/
theorem unread (h : g.Patched P g₁) (hfresh : ∀ m y, (m, y) ∈ P.fresh → v ∉ y.operands)
    (hreads : ∀ u w, g.held? u = some w → u.user ∉ P.gone → P.reads u w ≠ v) : g₁.uses v = [] := by
  apply h.coherent.uses_eq_nil
  intro u hu
  rcases h.held_cases hu with ⟨x, hx, hi⟩ | ⟨hgone, w, hw, heq⟩
  · exact hfresh u.user x hx (List.mem_of_getElem? hi)
  · exact hreads u w hw hgone heq

/-! ## How edits extend a patch -/

/-- An operation without regions that is made before another one is a patch. -/
theorem of_insert {a : OpId} {draft : Draft} (hg : g.Linked) (hc : g.Coherent)
    (hregions : draft.regions = []) (hx : g.op a = .ok x) (h₁ : g.newOp draft = .ok (n, g₁))
    (h₂ : g₁.placeBefore a n = .ok g₂) :
    g.Patched (.insertion a n
      { draft.made (g.nextValues draft.resultTypes.length) with block := x.block }) g₂ := by
  have hi := inserted_of_ok hg hregions h₁ h₂
  obtain ⟨y, x', b, B, i, hy, -, hx', hb, -, -, rfl⟩ := placeBefore_eq_ok.1 h₂
  have hne : a ≠ n := by
    rintro rfl
    exact not_slot_of_newOp h₁ x (slot_of_op hx)
  rw [op_newOp h₁, if_neg hne, hx] at hx'
  cases hx'
  have hmade : ∀ {m e}, (m, e) ∈ (Patch.insertion a n
      { draft.made (g.nextValues draft.resultTypes.length) with block := x.block }).fresh →
      m = n ∧ e = { draft.made (g.nextValues draft.resultTypes.length) with block := x.block } := by
    intro m e hmem
    simpa [Patch.insertion] using hmem
  refine ⟨hi.linked, hi.coherent hc, ?_, ?_, ?_, ?_, ?_, ?_, ?_, ?_⟩
  · intro m e hmem
    obtain ⟨rfl, rfl⟩ := hmade hmem
    rw [slot_put, if_pos rfl, slot_newOp h₁, if_pos rfl, map_ok, hb]
    rfl
  · intro m e y hmem
    obtain ⟨rfl, rfl⟩ := hmade hmem
    exact not_slot_of_newOp h₁ y
  · intro o ho
    have hon : o ≠ n := by
      rintro rfl
      exact ho _ (.head _)
    rw [slot_put, if_neg (Ne.symm hon), slot_newOp h₁, if_neg hon]
    cases g.slot o with
    | error f => rfl
    | ok d => rw [map_ok, Patch.entry_of_same (List.not_mem_nil) fun _ _ _ => rfl]
  · intro c
    have htrimmed := hi.trimmed.block c
    cases hC : g.block c with
    | error f =>
      rw [hC] at htrimmed
      cases hC' : (g₁.put n b fun ops => ops.insertIdx i n).block c with
      | error f' =>
        rw [hC'] at htrimmed
        exact htrimmed.symm
      | ok C' =>
        rw [hC'] at htrimmed
        cases htrimmed
    | ok C =>
      obtain ⟨C', hC', hops⟩ := hi.block hC
      rw [hC, hC', map_ok, Except.ok.injEq] at htrimmed
      rw [hC', map_ok, Patch.insertion, ← hops, htrimmed]
  · show g₁.values = _
    rw [newOp_rest hregions h₁]
    simp [Patch.insertion, Draft.made]
  · show g₁.regions = g.regions
    rw [newOp_rest hregions h₁]
  · show g₁.paths = g.paths
    rw [newOp_rest hregions h₁]
  · intro v hv
    rw [uses_put, uses_newOp h₁ hv]

/-- A change to the entries that keeps those of new operations goes on with a patch. -/
theorem extend {P' : Patch} {k : OpId → Op → Op} {φ : List OpId → List OpId} (h : g.Patched P g₁)
    (hfresh : P'.fresh = P.fresh) (hlinked : g₂.Linked) (hcoherent : g₂.Coherent)
    (hslot : ∀ p, g₂.slot p = (g₁.slot p).map (k p)) (hmade : ∀ m y, (m, y) ∈ P.fresh → k m y = y)
    (hentry : ∀ p y, g.slot p = .ok y → k p (P.entry p y) = P'.entry p y)
    (hblock : ∀ b, g₂.block b = (g₁.block b).map fun B => { B with ops := φ B.ops })
    (hrelist : ∀ l : List OpId, φ (l.flatMap P.relist) = l.flatMap P'.relist)
    (hrest : g₂ = { g₁ with ops := g₂.ops, blocks := g₂.blocks, useLists := g₂.useLists })
    (huses : ∀ v, v ∉ P'.touched → v ∉ P.touched ∧ g₂.uses v = g₁.uses v) : g.Patched P' g₂ where
  linked := hlinked
  coherent := hcoherent
  made {m y} hmem := by
    rw [hfresh] at hmem
    rw [hslot, h.made hmem, map_ok, hmade m y hmem]
  new hmem := h.new (hfresh ▸ hmem)
  slot {p} hp := by
    rw [hslot, h.slot fun y hy => hp y (hfresh.symm ▸ hy)]
    cases hy : g.slot p with
    | error f => rfl
    | ok y => rw [map_ok, map_ok, map_ok, hentry p y hy]
  block b := by
    rw [hblock, h.block]
    cases g.block b with
    | error f => rfl
    | ok B => simp only [map_ok, hrelist]
  values := by
    rw [hfresh, ← h.values, hrest]
  regions := by
    rw [← h.regions, hrest]
  paths := by
    rw [← h.paths, hrest]
  uses {v} hv := by
    obtain ⟨hold, heq⟩ := huses v hv
    rw [heq, h.uses hold]

/-- Writing a slot of an operation that is not new. -/
theorem written {i : Nat} (h : g.Patched P g₁) (hd : g.op o = .ok d) (ho : o ∉ P.gone)
    (hold : g₁.held? ⟨o, i⟩ = some old) (hw : g₁.writeSlot o i new = .ok g₂) :
    g.Patched (P.write ⟨o, i⟩ old new) g₂ := by
  have hlive := h.op hd ho
  obtain ⟨x, old', hx, hold', hg₂⟩ := writeSlot_eq_ok.1 hw
  rw [slot_of_op hlive] at hx
  cases hx
  rw [held?_of_op hlive, hold'] at hold
  cases hold
  refine h.extend (k := fun p y => if o = p then { y with operands := y.operands.set i new } else y)
    (φ := id) rfl (h.linked.rewired (.writeSlot hw))
    (h.coherent.writeSlot (isLive_of_op hlive) hw) ?_ ?_ ?_ ?_ ?_ ?_ ?_
  · intro p
    rw [slot_writeSlot hw]
    split
    · rfl
    · cases g₁.slot p with
      | error f => rfl
      | ok y => rfl
  · intro m y hmem
    rw [if_neg]
    rintro rfl
    exact h.not_fresh (slot_of_op hd) y hmem
  · intro p y hy
    by_cases hp : o = p
    · subst hp
      obtain ⟨hs, he⟩ := op_eq_ok.1 hd
      rw [hs] at hy
      cases hy
      simp [Patch.entry, he, ho, Patch.operands_write]
    · simp only [Patch.entry, Patch.operands_write, if_neg hp]
      rfl
  · intro b
    rw [(Rewired.writeSlot hw).block]
    cases g₁.block b with
    | error f => rfl
    | ok B => rfl
  · intro l
    rfl
  · rw [hg₂]
    split
    · rfl
    · rfl
  · intro v hv
    obtain ⟨hv_old, hv⟩ := not_or.1 (mt List.mem_cons.2 hv)
    obtain ⟨hv_new, hv⟩ := not_or.1 (mt List.mem_cons.2 hv)
    refine ⟨hv, ?_⟩
    rw [hg₂]
    split
    · rfl
    · rw [uses_modifyUses, if_neg (Ne.symm hv_new), uses_modifyUses, if_neg (Ne.symm hv_old)]
      rfl

/-- Moving all uses of a value that nothing new reads. -/
theorem redirected (h : g.Patched P g₁) (hs : g₁.Substituted [(old, new)] g₂) (hc : g₂.Coherent)
    (hgone : P.gone = []) (hfresh : ∀ m y, (m, y) ∈ P.fresh → old ∉ y.operands) :
    g.Patched (P.redirect old new) g₂ := by
  refine h.extend (k := fun _ => Op.substituted [(old, new)]) (φ := id) rfl
    (h.linked.rewired hs.rewired) hc hs.slot ?_ ?_ ?_ ?_ ?_ ?_
  · intro m y hmem
    have hsame : y.operands.map (substitute [(old, new)]) = y.operands := by
      refine (List.map_congr_left fun v hv => ?_).trans (List.map_id _)
      rw [substitute_cons, substitute_nil, if_neg]
      · rfl
      · rintro rfl
        exact hfresh m y hmem hv
    rw [Op.substituted, hsame, ite_self]
  · intro p y hy
    have hp : p ∉ P.gone := hgone ▸ List.not_mem_nil
    by_cases he : y.erased = true
    · simp [Patch.entry, Op.substituted, he]
    · simp [Patch.entry, Op.substituted, he, hp, Patch.operands_redirect]
  · intro b
    rw [hs.rewired.block]
    cases g₁.block b with
    | error f => rfl
    | ok B => rfl
  · intro l
    rfl
  · rw [hs.rest]
  · intro v hv
    obtain ⟨hv_old, hv⟩ := not_or.1 (mt List.mem_cons.2 hv)
    obtain ⟨hv_new, hv⟩ := not_or.1 (mt List.mem_cons.2 hv)
    refine ⟨hv, ?_⟩
    rw [hs.uses]
    simp [hv_old, Ne.symm hv_new]

/-- Erasing an operation without regions that is not new. -/
theorem erased (h : g.Patched P g₁) (hd : g.op e = .ok d) (he : e ∉ P.gone)
    (hregions : d.regions = []) (herase : g₁.erase e = .ok g₂) :
    g.Patched (P.erase e (P.operands e d.operands)) g₂ := by
  have hlive := h.op hd he
  have hleaf := erased_of_ok h.linked hlive hregions herase
  obtain ⟨x, os, bs, hx, -, hgone⟩ := dismantled_of_erase herase
  rw [hlive] at hx
  cases hx
  obtain ⟨halone, -⟩ := hgone.of_leaf (slot_of_op hlive) hregions
  refine h.extend
    (k := fun p y => if p = e then { y with block := Option.none, erased := true } else y)
    (φ := List.filter (· ≠ e)) rfl hleaf.linked (hleaf.coherent h.coherent) ?_ ?_ ?_
    hleaf.trimmed.block ?_ ?_ ?_
  · intro p
    simp only [hgone.slot, halone]
    by_cases hp : p = e
    · simp [hp]
    · cases g₁.slot p with
      | error f => simp [hp]
      | ok y => simp [hp]
  · intro m y hmem
    rw [if_neg]
    rintro rfl
    exact h.not_fresh (slot_of_op hd) y hmem
  · intro p y hy
    by_cases hp : p = e
    · subst hp
      obtain ⟨hs, he'⟩ := op_eq_ok.1 hd
      rw [hs] at hy
      cases hy
      simp [Patch.entry, he', Patch.erase, Patch.operands]
    · simp [Patch.entry, hp, Patch.erase, Patch.operands]
  · intro l
    exact List.filter_flatMap
  · exact hgone.rest
  · intro v hv
    obtain ⟨hv_e, hv⟩ := not_or.1 (mt List.mem_append.2 hv)
    refine ⟨hv, ?_⟩
    rw [hgone.uses, List.filter_eq_self]
    intro u _
    simp only [halone, decide_eq_true_eq, not_and]
    rintro rfl hu
    rw [written?_of_slot (slot_of_op hlive)] at hu
    exact hv_e (List.mem_of_getElem? hu)

end Patched

end Graph

/-! ## Notices -/

namespace Observer

open Peephole.Graph

variable {g : Graph} {o : OpId} {d : Op} {v : ValueId}

/-- An observer can be told what a recorder can write down and a worklist can react to. -/
theorem notify_ok {n : Notice} (hevent : ∃ event, Event.ofNotice g n = .ok event)
    (hreact : ∀ w : Worklist, ∃ w', w.react g n = .ok w') (observer : Observer) :
    ∃ observer', observer.notify g n = .ok observer' := by
  cases observer with
  | silent => exact ⟨.silent, rfl⟩
  | recorder events =>
    obtain ⟨event, hevent⟩ := hevent
    exact ⟨.recorder (event :: events), by rw [notify, hevent]; rfl⟩
  | worklist w =>
    obtain ⟨w', hw'⟩ := hreact w
    exact ⟨.worklist w', by rw [notify, hw']; rfl⟩

theorem notify_inserted (hg : g.Linked) (hd : g.op o = .ok d) (observer : Observer) :
    ∃ observer', observer.notify g (.inserted o) = .ok observer' := by
  refine notify_ok ?_ (fun w => ⟨w.queue o, rfl⟩) observer
  have hkind : g.kind o = .ok d.kind := by
    rw [kind, hd]
    rfl
  obtain ⟨i, hi⟩ : ∃ i, g.position? o = .ok i := by
    cases hb : d.block with
    | none => exact ⟨none, by simp [position?, hd, hb]⟩
    | some b =>
      obtain ⟨B, hB, -⟩ := hg.placed.1 ⟨d, hd, hb⟩
      exact ⟨B.ops.idxOf? o, position?_eq_ok hd hb hB⟩
  exact ⟨.inserted o d.kind i, by rw [Event.ofNotice, hkind, ok_bind, hi]; rfl⟩

theorem notify_replaced {y : Value} (hg : g.Linked) (hy : g.value v = .ok y) (users : List OpId)
    (observer : Observer) : ∃ observer', observer.notify g (.replaced v users) = .ok observer' := by
  refine notify_ok ⟨_, rfl⟩ ?_ observer
  intro w
  obtain ⟨w', hw', -⟩ := queueDefiner_ok (P := fun _ => True) (w := w.queueAll users) hg hy
    (fun _ _ => trivial) fun _ _ => trivial
  exact ⟨w', hw'⟩

theorem notify_erasing (hg : g.Linked) (hd : g.op o = .ok d)
    (hexist : ∀ v ∈ d.operands, ∃ y, g.value v = .ok y) (observer : Observer) :
    ∃ observer', observer.notify g (.erasing o) = .ok observer' := by
  have hoperands : g.operands o = .ok d.operands := by
    rw [operands, hd]
    rfl
  have hqueue : ∀ (vs : List ValueId) (w : Worklist), (∀ v ∈ vs, ∃ y, g.value v = .ok y) →
      ∃ w', vs.foldlM (Worklist.queueDefiner g) w = .ok w' := by
    intro vs
    induction vs with
    | nil => exact fun w _ => ⟨w, rfl⟩
    | cons v vs ih =>
      intro w hvs
      obtain ⟨y, hy⟩ := hvs v (.head vs)
      obtain ⟨w₁, hw₁, -⟩ := queueDefiner_ok (P := fun _ => True) (w := w) hg hy
        (fun _ _ => trivial) fun _ _ => trivial
      obtain ⟨w', hw'⟩ := ih w₁ fun u hu => hvs u (.tail v hu)
      exact ⟨w', by rw [List.foldlM_cons, hw₁]; exact hw'⟩
  refine notify_ok ⟨.erasing o d.operands, by rw [Event.ofNotice, hoperands]; rfl⟩ ?_ observer
  intro w
  rw [Worklist.react, hoperands]
  exact hqueue d.operands (w.mark o .erased) hexist

end Observer

/-! ## Edits of a session -/

namespace EditM

open Peephole.Graph

variable {s : Session} {g : Graph} {P : Patch} {o e : OpId} {d x : Op} {v old new : ValueId}

/-- An operation with one result and without regions is made. -/
theorem insert_patched {root a : OpId} {type : Ty} (draft : Draft) (hg : s.graph.Linked)
    (hc : s.graph.Coherent) (ha : s.graph.Inside root a) (hx : s.graph.op a = .ok x)
    (hregions : draft.regions = []) (hblock : draft.block = none)
    (htypes : draft.resultTypes = [type]) :
    ∃ n w t, (insert a draft).runOn s = .ok (.ok n, t) ∧ (∀ y, s.graph.value w ≠ .ok y) ∧
      s.graph.Patched (.insertion a n { draft.made [w] with block := x.block }) t.graph := by
  obtain ⟨k, p, howner, -⟩ := ha.owner
  obtain ⟨r, R, hr, -⟩ := ownerOf?_eq_some.1 howner
  obtain ⟨y, b, B, hy, hb, -⟩ := regionOf?_eq_some.1 hr
  rw [hx] at hy
  cases hy
  obtain ⟨n, g₁, g₂, h₁, h₂⟩ := insert_ok hg hx hb hregions hblock
  have hpatched := Patched.of_insert hg hc hregions hx h₁ h₂
  have hvalues : s.graph.nextValues draft.resultTypes.length = [⟨s.graph.values.size⟩] := by
    rw [htypes]
    rfl
  rw [hvalues] at hpatched
  have hmade := op_eq_ok.2 ⟨hpatched.made (.head _), rfl⟩
  obtain ⟨observer, hobserver⟩ := s.observer.notify_inserted hpatched.linked hmade
  exact ⟨n, ⟨s.graph.values.size⟩, _,
    runOn_insert.2 ⟨n, g₁, g₂, observer, h₁, h₂, hobserver, rfl, rfl⟩,
    fun y hy => Nat.lt_irrefl _ (index_lt_of_value hy), hpatched⟩

theorem redirectUses_patched {y : Value} (h : g.Patched P s.graph) (hy : g.value old = .ok y)
    (hne : old ≠ new) (hgone : P.gone = []) (hfresh : ∀ m z, (m, z) ∈ P.fresh → old ∉ z.operands) :
    ∃ t, (redirectUses old new).runOn s = .ok (.ok (), t) ∧
      g.Patched (P.redirect old new) t.graph := by
  by_cases hidle : s.graph.readers old = []
  · have hsub : s.graph.Substituted [(old, new)] s.graph :=
      h.coherent.substituted_of_unread (uses_eq_nil_of_readers hidle)
    exact ⟨s, runOn_redirectUses.2 ⟨rfl, .inl ⟨.inr hidle, rfl⟩⟩,
      h.redirected hsub h.coherent hgone hfresh⟩
  · obtain ⟨g', hredirect, hsub⟩ := h.coherent.redirectUses_substituted hne
    have hpatched := h.redirected hsub ((coherent_invariant true).redirectUses h.coherent hredirect)
      hgone hfresh
    obtain ⟨observer, hobserver⟩ :=
      s.observer.notify_replaced hpatched.linked (hpatched.value hy) (s.graph.readers old)
    have hreads : ¬(old = new ∨ s.graph.readers old = []) := by simp [hne, hidle]
    exact ⟨_, runOn_redirectUses.2 ⟨rfl, .inr ⟨hreads, g', observer, hredirect, hobserver, rfl⟩⟩,
      hpatched⟩

/-- Both slots of a rotation are written, with another angle than before. -/
theorem update_patched {axis : Axis} {b q angle : ValueId} (qubit : ValueId)
    (h : g.Patched P s.graph) (hd : g.op o = .ok d) (ho : o ∉ P.gone)
    (hf : s.graph.Computes o (.rotation axis b q) v) (hne : angle ≠ b) :
    ∃ t, (update o [(0, angle), (1, qubit)]).runOn s = .ok (.ok (), t) ∧
      g.Patched ((P.write ⟨o, 0⟩ b angle).write ⟨o, 1⟩ q qubit) t.graph := by
  obtain ⟨u, g₁, g₂, hw₁, hw₂, hwrites, hchange, hr⟩ := h.coherent.reroute_ok hf qubit hne
  have hlive := h.op hd ho
  have hq₁ : g₁.held? ⟨o, 1⟩ = some q := by
    rw [held?_writeSlot hw₁ (isLive_of_op hlive), if_neg (by simp)]
    exact hf.held? 1
  have hpatched := (h.written hd ho (hf.held? 0) hw₁).written hd ho hq₁ hw₂
  obtain ⟨observer, hobserver⟩ := notify_updated (hpatched.op hd ho) s.observer
  exact ⟨_, runOn_update_of_change hlive hwrites hchange (hpatched.op hd ho) hobserver, hpatched⟩

/-- An operation is erased whose slots still hold what they did and whose result nobody reads
any more. -/
theorem erase_patched {f : Formula} (h : g.Patched P s.graph) (hf : g.Computes e f v)
    (he : e ∉ P.gone) (hsame : ∀ i, ∀ w ∈ f.operands, P.reads ⟨e, i⟩ w = w)
    (hexist : ∀ {u w}, g.held? u = some w → ∃ y, g.value w = .ok y)
    (hfree : s.graph.uses v = []) :
    ∃ t, (erase e).runOn s = .ok (.ok (), t) ∧ g.Patched (P.erase e f.operands) t.graph := by
  obtain ⟨d, hd, hformula, hresults, hregions⟩ := id hf
  have hoperands : d.operands = f.operands := (Op.formula?_eq_some hformula).2.1
  have hkept : P.operands e d.operands = f.operands := by
    rw [hoperands]
    exact Patch.operands_of_same fun i w hw => hsame i w (List.mem_of_getElem? hw)
  have hlive := h.op hd he
  have hfree' : ∀ w ∈ d.results, s.graph.uses w = [] := by
    intro w hw
    rw [hresults, List.mem_singleton] at hw
    rw [hw, hfree]
  obtain ⟨g', herase⟩ := erase_ok hlive hregions hfree'
  have htotal : s.graph.totalUses e = .ok 0 := by
    rw [totalUses, results, hlive]
    exact congrArg (fun l : List Use => Except.ok l.length) (List.flatMap_eq_nil_iff.2 hfree')
  obtain ⟨observer, hobserver⟩ := s.observer.notify_erasing h.linked hlive (by
    intro w hw
    obtain ⟨i, hi⟩ := List.mem_iff_getElem?.1 (hkept ▸ hw)
    obtain ⟨y, hy⟩ := hexist ((hf.held? i).trans hi)
    exact ⟨y, h.value hy⟩)
  have hpatched := h.erased hd he hregions herase
  rw [hkept] at hpatched
  refine ⟨_, runOn_erase.2 ⟨_, 0, hlive, htotal, .inr ⟨rfl, [], observer, g',
    nestedOps_leaf hlive hregions, ?_, herase, rfl, rfl⟩⟩, hpatched⟩
  rw [List.nil_append, List.foldlM_cons, hobserver]
  rfl

end EditM

end Peephole
