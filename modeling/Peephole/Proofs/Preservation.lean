import Peephole.Proofs.Frames

/-!
# Edits that keep a function valid

An operation may be inserted where its operands are visible, uses may be moved to a value
that is visible wherever they are, and an operation without regions may be erased when
nobody reads it.  Each of these edits then succeeds and leaves a valid function.
-/

namespace Peephole.Graph

variable {g g' : Graph} {root : OpId}

/-! ## Insertion -/

/-- The second graph is the first with an operation made from `d` right before `a`. -/
structure Inserted (g : Graph) (a : OpId) (d : Draft) (n : OpId) (g' : Graph) : Prop where
  linked : g'.Linked
  coherent : g.Coherent → g'.Coherent
  trimmed : Trimmed g' g n
  made : ∃ b, g'.op n = .ok ((d.made (g.nextValues d.resultTypes.length)).inBlock b)
  before : g'.Precedes n a
  after {p : OpId} : g.Precedes p a → g'.Precedes p n
  argument {b : BlockId} {B : Block} : g.block b = .ok B → a ∈ B.ops →
    ∃ B', g'.block b = .ok B' ∧ n ∈ B'.ops ∧ B'.args = B.args
  held (u : Use) : g'.held? u = if u.user = n then d.operands[u.index]? else g.held? u
  value {v : ValueId} {y : Value} : g'.value v = .ok y ↔
    g.value v = .ok y ∨ ∃ i t, d.resultTypes[i]? = some t ∧ v.index = g.values.size + i ∧
      y = ⟨.result n i, t⟩

theorem insertIdx_length (n a : OpId) (l₂ : List OpId) :
    ∀ l₁ : List OpId, (l₁ ++ a :: l₂).insertIdx l₁.length n = l₁ ++ n :: a :: l₂
  | [] => rfl
  | p :: l₁ => by
      rw [List.cons_append, List.length_cons, List.insertIdx_succ_cons, insertIdx_length n a l₂ l₁]
      rfl

theorem insertIdx_idxOf? {l : List OpId} {a : OpId} {i : Nat} (h : l.idxOf? a = some i)
    (n : OpId) : ∃ l₁ l₂, l = l₁ ++ a :: l₂ ∧ l.insertIdx i n = l₁ ++ n :: a :: l₂ := by
  obtain ⟨hi, ha, -⟩ := List.idxOf?_eq_some_iff.1 h
  have hl : l = l.take i ++ a :: l.drop (i + 1) := by
    rw [← ha, ← List.drop_eq_getElem_cons hi, List.take_append_drop]
  refine ⟨l.take i, l.drop (i + 1), hl, ?_⟩
  have hlen : (l.take i).length = i := List.length_take_of_le (Nat.le_of_lt hi)
  have hinsert := insertIdx_length n a (l.drop (i + 1)) (l.take i)
  rw [hlen, ← hl] at hinsert
  exact hinsert

theorem filter_ne_self {l : List OpId} {n : OpId} (h : n ∉ l) :
    l.filter (fun q => decide (q ≠ n)) = l := by
  rw [List.filter_eq_self]
  intro q hq
  have hne : q ≠ n := fun heq => h (heq ▸ hq)
  simpa using hne

theorem inserted_of_ok {g₁ : Graph} {a n : OpId} {d : Draft} (hg : g.Linked)
    (hregions : d.regions = []) (h₁ : g.newOp d = .ok (n, g₁))
    (h₂ : g₁.placeBefore a n = .ok g') : Inserted g a d n g' := by
  have hlinked := (hg.newOp h₁).placeBefore h₂
  have hcoherent : g.Coherent → g'.Coherent := fun hc => (hc.newOp h₁).placeBefore h₂
  have hnew : ∀ x, g.op n ≠ .ok x := fun x hx => not_slot_of_newOp h₁ x (slot_of_op hx)
  obtain ⟨x, y, b, B, i, hx, hxb, hy, hyb, hB, hi, rfl⟩ := placeBefore_eq_ok.1 h₂
  rw [block_newOp h₁] at hB
  have hout : ∀ {c C}, g.block c = .ok C → n ∉ C.ops := by
    intro c C hC hn
    obtain ⟨x, hx, -⟩ := hg.placed.2 ⟨C, hC, hn⟩
    exact hnew x hx
  obtain ⟨l₁, l₂, hl, hl'⟩ := insertIdx_idxOf? hi n
  have hb : (g₁.put n b fun ops => ops.insertIdx i n).block b =
      .ok { B with ops := l₁ ++ n :: a :: l₂ } := by
    rw [block_put, if_pos rfl, block_newOp h₁, hB, map_ok, hl']
  have hother : ∀ c, c ≠ b → (g₁.put n b fun ops => ops.insertIdx i n).block c = g.block c := by
    intro c hc
    rw [block_put, if_neg (Ne.symm hc), block_newOp h₁]
  have hin : ∀ {c C}, g.block c = .ok C → a ∈ C.ops → c = b ∧ C = B := by
    intro c C hC ha
    refine hg.block_unique hC hB ha ?_
    rw [hl]
    simp
  refine ⟨hlinked, hcoherent, ⟨?_, hnew, ?_, ?_, ?_⟩, ?_, ?_, ?_, ?_, ?_, ?_⟩
  · intro o ho
    rw [op_put, if_neg (Ne.symm ho), op_newOp h₁, if_neg ho]
  · intro r R hR howner
    rw [region_put, region_newOp h₁, hregions, if_neg (List.not_mem_nil)] at hR
    obtain ⟨x, hx, -⟩ := hg.owned.1 ⟨R, hR, howner⟩
    exact not_slot_of_newOp h₁ x hx
  · intro c
    by_cases hc : c = b
    · subst hc
      have hkeep : (l₁ ++ n :: a :: l₂).filter (fun q => decide (q ≠ n)) = B.ops := by
        have hskip : (l₁ ++ n :: a :: l₂).filter (fun q => decide (q ≠ n)) =
            (l₁ ++ a :: l₂).filter fun q => decide (q ≠ n) := by simp
        rw [hskip, ← hl, filter_ne_self (hout hB)]
      rw [hb, map_ok, hB]
      simp only [hkeep]
    · rw [hother c hc]
      cases hC : g.block c with
      | error f => rfl
      | ok C => simp only [map_ok, filter_ne_self (hout hC)]
  · intro r
    rw [region_put, region_newOp h₁, hregions, if_neg (List.not_mem_nil)]
  · refine ⟨b, ?_⟩
    rw [op_put, if_pos rfl, op_newOp h₁, if_pos rfl, map_ok]
  · refine ⟨b, _, hb, ?_⟩
    have hs : [n, a].Sublist (n :: a :: l₂) := by simp
    exact hs.trans (List.sublist_append_right l₁ _)
  · intro p hpa
    obtain ⟨c, C, hC, hs⟩ := hpa
    obtain ⟨rfl, rfl⟩ := hin hC (hs.subset (.tail p (.head _)))
    refine ⟨c, _, hb, ?_⟩
    have hnodup := hg.nodupOps hB
    rw [hl] at hs hnodup
    have hp : p ∈ l₁ := (before_iff hnodup).1 hs
    exact (List.singleton_sublist.2 hp).append (List.singleton_sublist.2 (.head _))
  · intro c C hC ha
    obtain ⟨rfl, rfl⟩ := hin hC ha
    exact ⟨_, hb, by simp, rfl⟩
  · intro u
    rw [held?_put, held?_newOp h₁]
  · intro v z
    rw [value_put, value_newOp h₁]

/-- An operation without regions can be made before any operation in a block. -/
theorem insert_ok {a : OpId} {x : Op} {b : BlockId} {d : Draft} (hg : g.Linked)
    (hx : g.op a = .ok x) (hxb : x.block = some b) (hregions : d.regions = [])
    (hblock : d.block = none) :
    ∃ n g₁ g', g.newOp d = .ok (n, g₁) ∧ g₁.placeBefore a n = .ok g' := by
  have hnew : ∃ n g₁, g.newOp d = .ok (n, g₁) := by
    simp [newOp, hblock, hregions]
  obtain ⟨n, g₁, h₁⟩ := hnew
  obtain ⟨B, hB, ha⟩ := hg.placed.1 ⟨x, hx, hxb⟩
  obtain ⟨i, hi⟩ := Option.isSome_iff_exists.1 (List.isSome_idxOf?.2 ha)
  have hne : a ≠ n := by
    rintro rfl
    exact not_slot_of_newOp h₁ x (slot_of_op hx)
  have hn := op_newOp h₁ n
  rw [if_pos rfl] at hn
  have ha' := op_newOp h₁ a
  rw [if_neg hne, hx] at ha'
  exact ⟨n, g₁, _, h₁, placeBefore_eq_ok.2
    ⟨_, x, b, B, i, hn, rfl, ha', hxb, (block_newOp h₁ b).trans hB, hi, rfl⟩⟩

namespace Inserted

variable {a n : OpId} {d : Draft} {v : ValueId}

/-- What is visible where the operation was made is visible at it. -/
theorem visible (h : Inserted g a d n g') (hv : g.Visible v a) : g'.Visible v n := by
  cases hv with
  | argument hB ha hv =>
    obtain ⟨B', hB', hn, hargs⟩ := h.argument hB ha
    exact .argument hB' hn (hargs ▸ hv)
  | earlier hpa hx hv =>
    have hx' := h.trimmed.op_ok hx
    exact .earlier (h.after hpa) hx' hv
  | outer howner hv =>
    obtain ⟨x, hx⟩ := op_of_ownerOf? howner
    have howner' : g'.ownerOf? n = .ok (some _) :=
      (h.linked.ownerOf?_of_precedes h.before).trans
        ((h.trimmed.ownerOf? (h.trimmed.ne_of_op hx)).symm.trans howner)
    exact .outer howner' (h.trimmed.visible_old hv)

/-- What a slot holds is an operand of the new operation, or it was held there before. -/
theorem held_slot (h : Inserted g a d n g') {u : Use} (hu : g'.held? u = some v) :
    (∃ i, u = ⟨n, i⟩ ∧ d.operands[i]? = some v) ∨ u.user ≠ n ∧ g.held? u = some v := by
  rw [h.held] at hu
  split at hu
  · rename_i huser
    exact .inl ⟨u.index, by rw [← huser], hu⟩
  · rename_i huser
    exact .inr ⟨huser, hu⟩

theorem held_cases (h : Inserted g a d n g') {u : Use} (hu : g'.held? u = some v) :
    u.user = n ∧ v ∈ d.operands ∨ u.user ≠ n ∧ g.held? u = some v := by
  rcases h.held_slot hu with ⟨i, rfl, hi⟩ | hu
  · exact .inl ⟨rfl, List.mem_of_getElem? hi⟩
  · exact .inr hu

theorem inside (h : Inserted g a d n g') (ha : g.Inside root a) : g'.Inside root n := by
  have ha' : g'.Inside root a := (h.trimmed.inside_iff.1 ha).1
  exact ha'.sibling (h.linked.ownerOf?_of_precedes h.before)

end Inserted

theorem Visible.exists {v : ValueId} {o : OpId} (hg : g.Linked) (h : g.Visible v o) :
    ∃ y, g.value v = .ok y := by
  induction h with
  | argument hB _ hv =>
    obtain ⟨y, i, hy, -⟩ := hg.origin_argument hB hv
    exact ⟨y, hy⟩
  | earlier _ hx hv =>
    obtain ⟨y, i, hy, -⟩ := hg.origin_result (slot_of_op hx) hv
    exact ⟨y, hy⟩
  | outer _ _ ih => exact ih

/-- An operation may be inserted where its operands are visible. -/
theorem Valid.inserted {a n : OpId} {d : Draft} (h : g.Valid root) (hi : Inserted g a d n g')
    (ha : g.Inside root a) (hd : d.Standard) (hblock : d.block = none)
    (hvisible : ∀ v ∈ d.operands, g.Visible v a) : g'.Valid root := by
  refine ⟨⟨hi.linked, hi.coherent h.coherent, ?_, ?_⟩, ?_, ?_, ?_⟩
  · obtain ⟨x, hx, hrest⟩ := h.top
    exact ⟨x, hi.trimmed.op_ok hx, hrest⟩
  · intro u v hu
    rcases hi.held_cases hu with ⟨-, hv⟩ | ⟨-, hu⟩
    · obtain ⟨y, hy⟩ := (hvisible v hv).exists h.linked
      exact ⟨y, hi.value.2 (.inl hy)⟩
    · obtain ⟨y, hy⟩ := h.exist hu
      exact ⟨y, hi.value.2 (.inl hy)⟩
  · intro u v hu hin
    rcases hi.held_cases hu with ⟨huser, hv⟩ | ⟨huser, hu⟩
    · rw [huser]
      exact hi.visible (hvisible v hv)
    · exact hi.trimmed.visible_old (h.visible hu (hi.trimmed.inside_iff.2 ⟨hin, huser⟩))
  · intro u v hu hv
    rcases hi.held_cases hu with ⟨huser, -⟩ | ⟨huser, hu⟩
    · rw [huser]
      exact hi.inside ha
    · rcases hi.trimmed.belongs hv with hv | ⟨x, hx, hv⟩
      · exact (hi.trimmed.inside_iff.1 (h.closed hu hv)).1
      · -- a new value was read by nobody before
        obtain ⟨b, hx'⟩ := hi.made
        rw [hx] at hx'
        cases hx'
        obtain ⟨y, hy⟩ := h.exist hu
        have := index_lt_of_value hy
        have := (index_of_mem_nextValues hv).1
        omega
  · intro o x ho hx
    by_cases hon : o = n
    · obtain ⟨b, hx'⟩ := hi.made
      rw [hon, hx'] at hx
      cases hx
      exact Op.Shaped.made hd hblock (g.nextValues d.resultTypes.length)
    · exact h.shaped (hi.trimmed.inside_iff.2 ⟨ho, hon⟩) ((hi.trimmed.op hon).trans hx)

/-! ## Rewiring -/

/-- Slots may be written with values that are visible there, by readers under the root. -/
theorem Valid.rewired (h : g.Valid root) (hr : Rewired g g') (hc : g'.Coherent)
    (hheld : ∀ {u v}, g'.held? u = some v →
      g.held? u = some v ∨ g.Inside root u.user ∧ g.Visible v u.user) : g'.Valid root := by
  refine ⟨⟨h.linked.rewired hr, hc, ?_, ?_⟩, ?_, ?_, ?_⟩
  · obtain ⟨d, hd, hb, hk, hs⟩ := h.top
    obtain ⟨d', hd', hu⟩ := hr.op_ok hd
    have hsame : d'.unread.block = d.unread.block ∧ d'.unread.kind = d.unread.kind := by
      rw [hu]
      exact ⟨rfl, rfl⟩
    exact ⟨d', hd', hsame.1.trans hb, hsame.2.trans hk, hr.shaped hd hd' hs⟩
  · intro u v hu
    rcases hheld hu with hu | ⟨-, hv⟩
    · obtain ⟨y, hy⟩ := h.exist hu
      exact ⟨y, (hr.value v).trans hy⟩
    · obtain ⟨y, hy⟩ := hv.exists h.linked
      exact ⟨y, (hr.value v).trans hy⟩
  · intro u v hu hin
    rcases hheld hu with hu | ⟨-, hv⟩
    · exact hr.visible (h.visible hu (hr.symm.inside hin))
    · exact hr.visible hv
  · intro u v hu hv
    rcases hheld hu with hu | ⟨hin, -⟩
    · exact hr.inside (h.closed hu (hr.symm.belongs hv))
    · exact hr.inside hin
  · intro o d' ho hd'
    obtain ⟨d, hd, -⟩ := hr.symm.op_ok hd'
    exact hr.shaped hd hd' (h.shaped (hr.symm.inside ho) hd)

/-! ## Erasure -/

theorem innerBlocks_leaf {e : OpId} {d : Op} (hd : g.op e = .ok d) (hregions : d.regions = []) :
    g.innerBlocks e = .ok [] := by
  simp [innerBlocks, hd, hregions]

theorem nestedOps_leaf {e : OpId} {d : Op} (hd : g.op e = .ok d) (hregions : d.regions = []) :
    g.nestedOps e = .ok [] := by
  have hchildren : g.children e = .ok [] := by simp [children, innerBlocks_leaf hd hregions]
  exact nestedOps_eq_ok.2 ⟨[], hchildren, .nil⟩

/-- The second graph is the first without an operation. -/
structure Erased (g : Graph) (e : OpId) (g' : Graph) : Prop where
  linked : g'.Linked
  coherent : g.Coherent → g'.Coherent
  trimmed : Trimmed g g' e
  held (u : Use) : g'.held? u = if u.user = e then none else g.held? u
  value (v : ValueId) : g'.value v = g.value v

theorem Erased.held_cases {e : OpId} {u : Use} {v : ValueId} (h : Erased g e g')
    (hu : g'.held? u = some v) : u.user ≠ e ∧ g.held? u = some v := by
  rw [h.held] at hu
  split at hu
  · cases hu
  · rename_i hne
    exact ⟨hne, hu⟩

/-- An operation without regions that nobody reads can be erased. -/
theorem erase_ok {e : OpId} {d : Op} (hd : g.op e = .ok d) (hregions : d.regions = [])
    (hfree : ∀ v ∈ d.results, g.uses v = []) : ∃ g', g.erase e = .ok g' := by
  have hslot : ∃ x, (g.unlist e d.block).slot e = .ok x ∧ x.regions = [] :=
    (exists_slot_unlist fun _ => Iff.rfl).2 ⟨d, slot_of_op hd, hregions⟩
  obtain ⟨x, hx, hnone⟩ := hslot
  have hrun : eraseDetachedTo (g.blocks.size + 1) (g.unlist e d.block) e =
      .ok ((g.unlist e d.block).bury e) := by
    rw [eraseDetachedTo, hx, ok_bind, hnone]
    rfl
  exact ⟨_, erase_eq_ok.2 ⟨d, hd, hfree, hrun⟩⟩

theorem erased_of_ok {e : OpId} {d : Op} (hg : g.Linked) (hd : g.op e = .ok d)
    (hregions : d.regions = []) (h : g.erase e = .ok g') : Erased g e g' := by
  have hlinked := hg.erase h
  have hcoherent : g.Coherent → g'.Coherent := fun hc => hc.erase h
  obtain ⟨d', os, bs, hd', -, he⟩ := dismantled_of_erase h
  rw [hd] at hd'
  cases hd'
  obtain ⟨hmem, hinner⟩ := he.of_leaf (slot_of_op hd) hregions
  refine ⟨hlinked, hcoherent, ⟨?_, ?_, ?_, ?_, he.region⟩, ?_, he.value⟩
  · intro o ho
    simp only [op, he.slot, hmem, if_neg ho]
  · intro x hx
    exact (he.op_iff.1 hx).1 he.self_mem
  · intro r R hR howner
    obtain ⟨x, hx, hr⟩ := hg.owned.1 ⟨R, hR, howner⟩
    rw [slot_of_op hd] at hx
    cases hx
    rw [hregions] at hr
    cases hr
  · intro b
    rw [he.block, if_neg (hinner b)]
    split
    · rfl
    · rename_i hb
      cases hB : g.block b with
      | error f => rfl
      | ok B =>
        have hout : e ∉ B.ops := by
          intro he
          obtain ⟨x, hx, hxb⟩ := hg.placed.2 ⟨B, hB, he⟩
          rw [hd] at hx
          cases hx
          exact hb hxb
        simp only [map_ok, filter_ne_self hout]
  · intro u
    rw [held?_erased he.slot]
    simp only [hmem]

/-- An operation that nobody reads may be erased. -/
theorem Valid.erased {e : OpId} {d : Op} (h : g.Valid root) (he : Erased g e g')
    (hd : g.op e = .ok d) (hroot : e ≠ root) (hfree : ∀ v ∈ d.results, g.uses v = []) :
    g'.Valid root := by
  refine ⟨⟨he.linked, he.coherent h.coherent, ?_, ?_⟩, ?_, ?_, ?_⟩
  · obtain ⟨x, hx, hrest⟩ := h.top
    exact ⟨x, (he.trimmed.op (Ne.symm hroot)).trans hx, hrest⟩
  · intro u v hu
    rw [he.value]
    exact h.exist (he.held_cases hu).2
  · intro u v hu hin
    obtain ⟨huser, hu⟩ := he.held_cases hu
    refine he.trimmed.visible ?_ (h.visible hu (he.trimmed.inside_iff.1 hin).1) huser
    intro x hx hv
    rw [hd] at hx
    cases hx
    have hmem := h.coherent.mem_uses.2 hu
    rw [hfree v hv] at hmem
    cases hmem
  · intro u v hu hv
    obtain ⟨huser, hu⟩ := he.held_cases hu
    exact he.trimmed.inside_iff.2 ⟨h.closed hu (he.trimmed.belongs_old hv), huser⟩
  · intro o x ho hx
    exact h.shaped (he.trimmed.inside_iff.1 ho).1 (he.trimmed.op_ok hx)

end Peephole.Graph
