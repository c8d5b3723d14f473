import Peephole.Graph.Parts
import Peephole.Proofs.Clearing
import Peephole.Proofs.History

/-!
# Use lists and operand slots

The use lists are derived data: they can be read off the operand slots of the live
operations.  `Graph.Coherent` says that they are, for every value and every slot, whether
the value exists or not.  Each change of a graph keeps it (`coherent_invariant`), so it
holds of every graph one can come to, presets or not.

Moving the uses of a value trusts its use list and is a fault when a slot in the list
holds something else.  In a coherent graph that does not happen.
-/

namespace Peephole.Graph

variable {g g' : Graph}

/-- The use list of every value has the slots that hold it, each of them once. -/
def Coherent (g : Graph) : Prop :=
  ∀ (v : ValueId) (u : Use), (g.uses v).count u = if g.held? u = some v then 1 else 0

namespace Coherent

theorem mem_uses (h : g.Coherent) {v : ValueId} {u : Use} : u ∈ g.uses v ↔ g.held? u = some v := by
  rw [← List.count_pos_iff, h]
  split
  · simp [*]
  · simp [*]

theorem nodup_uses (h : g.Coherent) (v : ValueId) : (g.uses v).Nodup := by
  rw [List.nodup_iff_count]
  intro u
  rw [h]
  split
  · exact Nat.le_refl 1
  · exact Nat.zero_le 1

/-- A graph with the same uses and the same slots is as coherent. -/
theorem congr (h : g.Coherent) (huses : ∀ v, g'.uses v = g.uses v)
    (hheld : ∀ u, g'.held? u = g.held? u) : g'.Coherent := by
  intro v u
  rw [huses, hheld]
  exact h v u

end Coherent

/-! ## What slots hold after a change -/

theorem held?_put (o : OpId) (b : BlockId) (k : List OpId → List OpId) (u : Use) :
    (g.put o b k).held? u = g.held? u := by
  simp only [held?, op, slot_put]
  by_cases ho : o = u.user
  · cases g.slot u.user with
    | error e => simp [ho]
    | ok d =>
      cases he : d.erased with
      | true => simp [ho, he, Op.inBlock]
      | false => simp [ho, he, Op.inBlock]
  · simp [ho]

theorem held?_newOp {d : Draft} {o : OpId} (h : g.newOp d = .ok (o, g')) (u : Use) :
    g'.held? u = if u.user = o then d.operands[u.index]? else g.held? u := by
  by_cases hu : u.user = o
  · have hop : g'.op u.user = .ok (d.made (g.nextValues d.resultTypes.length)) :=
      op_eq_ok.2 ⟨by rw [slot_newOp h, if_pos hu], rfl⟩
    rw [held?_of_op hop, if_pos hu]
    rfl
  · rw [if_neg hu]
    apply held?_congr
    rw [slot_newOp h, if_neg hu]

theorem held?_writeSlot {o : OpId} {i : Nat} {v : ValueId} (h : g.writeSlot o i v = .ok g')
    (hlive : g.isLive o = .ok true) (u : Use) :
    g'.held? u = if u = ⟨o, i⟩ then some v else g.held? u := by
  obtain ⟨p, j⟩ := u
  obtain ⟨d, old, hd, hold, -⟩ := writeSlot_eq_ok.1 h
  obtain ⟨d', hd'⟩ := isLive_eq_true.1 hlive
  have hlt : i < d.operands.length := (List.getElem?_eq_some_iff.1 hold).1
  simp only [held?, op, slot_writeSlot h, Use.mk.injEq]
  by_cases hp : o = p
  · subst hp
    obtain ⟨hs, he⟩ := op_eq_ok.1 hd'
    rw [hd] at hs
    cases hs
    simp only [hd, if_true, map_ok, ok_bind, he, Bool.false_eq_true, if_false, pure_eq_ok,
      List.getElem?_set, true_and]
    grind
  · simp [hp, Ne.symm hp]

/-- After slots were moved they hold the new value, and the others what they held. -/
theorem held?_rewired {us : List Use} {new : ValueId}
    (hslot : ∀ p, g'.slot p = (g.slot p).map fun d => rewired d p us new) (u : Use) :
    g'.held? u = if u ∈ us then (g.held? u).map fun _ => new else g.held? u := by
  simp only [held?, op, hslot]
  cases g.slot u.user with
  | error e => simp
  | ok d =>
    cases he : d.erased with
    | true => simp [rewired, he]
    | false =>
      cases hv : d.operands[u.index]? with
      | none => simp [rewired, he, hv]
      | some v =>
        simp only [rewired, map_ok, ok_bind, he, Bool.false_eq_true, if_false, pure_eq_ok,
          List.getElem?_mapIdx, hv, Option.map_some]
        split
        · rfl
        · rfl

/-- Erased operations hold nothing, and the others what they held. -/
theorem held?_erased {erased : OpId → Prop} [DecidablePred erased]
    (hslot : ∀ p, g'.slot p = if erased p then
      (g.slot p).map fun d => { d with block := none, erased := true } else g.slot p) (u : Use) :
    g'.held? u = if erased u.user then none else g.held? u := by
  split
  · rename_i hu
    unfold held? op
    rw [hslot, if_pos hu]
    cases g.slot u.user with
    | ok d => rfl
    | error e => rfl
  · rename_i hu
    apply held?_congr
    rw [hslot, if_neg hu]

/-! ## Coherence is kept -/

namespace Coherent

theorem newOp {d : Draft} {o : OpId} (hg : g.Coherent) (h : g.newOp d = .ok (o, g')) :
    g'.Coherent := by
  intro v u
  rw [count_uses_newOp h, hg, held?_newOp h]
  by_cases hu : u.user = o
  · -- nobody knew of the new operation before
    have hnone : g.held? u = none := by
      cases hv : g.held? u with
      | none => rfl
      | some w =>
        obtain ⟨x, hx, -⟩ := held?_eq_some.1 hv
        rw [hu] at hx
        exact absurd (slot_of_op hx) (not_slot_of_newOp h x)
    simp [hu, hnone]
  · simp [hu]

theorem placeBefore {anchor o : OpId} (hg : g.Coherent) (h : g.placeBefore anchor o = .ok g') :
    g'.Coherent := by
  obtain ⟨d, a, b, B, i, -, -, -, -, -, -, rfl⟩ := placeBefore_eq_ok.1 h
  exact hg.congr (uses_put g o b _) (held?_put o b _)

theorem placeLast {b : BlockId} {o : OpId} (hg : g.Coherent) (h : g.placeLast b o = .ok g') :
    g'.Coherent := by
  obtain ⟨d, B, -, -, -, rfl⟩ := placeLast_eq_ok.1 h
  exact hg.congr (uses_put g o b _) (held?_put o b _)

theorem writeSlot {o : OpId} {i : Nat} {new : ValueId} (hg : g.Coherent)
    (hlive : g.isLive o = .ok true) (h : g.writeSlot o i new = .ok g') : g'.Coherent := by
  have hheld := held?_writeSlot h hlive
  obtain ⟨d, old, hd, hold, hg'⟩ := writeSlot_eq_ok.1 h
  obtain ⟨d', hd'⟩ := isLive_eq_true.1 hlive
  have hown : g.held? ⟨o, i⟩ = some old := by
    rw [held?_eq_written? hd', written?_of_slot hd, hold]
  by_cases heq : old = new
  · rw [if_pos heq] at hg'
    rw [hg']
    exact hg
  · rw [if_neg heq] at hg'
    intro v u
    rw [hheld, hg', uses_modifyUses, uses_modifyUses, uses_modifyOp]
    by_cases hu : u = ⟨o, i⟩
    · -- the slot leaves the list of the old value and joins that of the new one
      subst hu
      have hgone : ((g.uses old).filter (· ≠ ⟨o, i⟩)).count ⟨o, i⟩ = 0 := by
        apply List.count_eq_zero_of_not_mem
        simp
      have hv := hg v ⟨o, i⟩
      rw [hown] at hv
      grind
    · have hstay : ((g.uses old).filter (· ≠ ⟨o, i⟩)).count u = (g.uses old).count u :=
        List.count_filter (by simpa using hu)
      have hv := hg v u
      grind

/-- Moving uses never fails in a coherent graph.  It leaves a coherent one, in which the
slots that held the old value hold the new one. -/
theorem redirectUses_ok (hg : g.Coherent) (old new : ValueId) :
    ∃ g', g.redirectUses old new = .ok g' ∧ g'.Coherent ∧
      ∀ u, g'.held? u = (g.held? u).map fun v => if v = old then new else v := by
  rw [Graph.redirectUses]
  split
  · rename_i heq
    refine ⟨g, rfl, hg, ?_⟩
    intro u
    cases g.held? u with
    | none => rfl
    | some v => grind
  · rename_i hne
    have hwritten : ∀ u ∈ g.uses old, (g.modifyUses old fun _ => []).written? u = some old :=
      fun u hu => written?_of_held? (hg.mem_uses.1 hu)
    obtain ⟨g', h, hslot, huses, -⟩ :=
      @redirects_ok old new _ (g.modifyUses old fun _ => []) (hg.nodup_uses old) hwritten
    have hheld : ∀ u, g'.held? u = (g.held? u).map fun v => if v = old then new else v := by
      intro u
      rw [held?_rewired (g := g) hslot]
      simp only [hg.mem_uses]
      cases g.held? u with
      | none => simp
      | some v => grind
    refine ⟨g', h, ?_, hheld⟩
    intro v u
    rw [huses, hheld, uses_modifyUses]
    have hold := hg old u
    have hv := hg v u
    cases hu : g.held? u with
    | none =>
      rw [hu] at hold hv
      grind
    | some w =>
      rw [hu] at hold hv
      grind

theorem erase {o : OpId} (hg : g.Coherent) (h : g.erase o = .ok g') : g'.Coherent := by
  obtain ⟨d, os, bs, -, -, he⟩ := dismantled_of_erase h
  intro v u
  rw [he.count_uses, held?_erased he.slot, hg]
  by_cases hu : u.user ∈ os
  · simp only [hu, true_and, if_true]
    split
    · rfl
    · rename_i hw
      rw [if_neg fun hheld => hw (written?_of_held? hheld)]
      rfl
  · simp [hu]

end Coherent

/-- Coherence is an invariant of everything one can do to a graph, presets or not. -/
theorem coherent_invariant (presets : Bool) : Invariant presets Coherent where
  newOp := Coherent.newOp
  placeBefore := Coherent.placeBefore
  writeSlot := Coherent.writeSlot
  redirectUses {g g' old new} hg h := by
    obtain ⟨g₁, h₁, hg₁, -⟩ := hg.redirectUses_ok old new
    rw [h] at h₁
    cases h₁
    exact hg₁
  erase := Coherent.erase
  empty v u := by
    have hnone : empty.uses v = [] := SideTable.get_empty v.index
    rw [hnone]
    rfl
  paths _ hg := hg
  newBlock args l _ _ hg _ := hg.congr (fun _ => rfl) fun _ => rfl
  newRegion hg _ h := hg.congr (uses_newRegion h) fun _ => held?_congr (slot_newRegion h _)
  placeLast := Coherent.placeLast

theorem Reachable.coherent {presets : Bool} (h : g.Reachable presets) : g.Coherent :=
  h.holds (coherent_invariant presets)

/-- In every graph one can come to, a slot stands once in the use list of the value that
a live operation holds there and in no other use list, so moving uses is never a fault. -/
theorem uses_exact {presets : Bool} (h : g.Reachable presets) :
    (∀ (v : ValueId) (o : OpId) (i : Nat) (d : Op), g.op o = .ok d → d.operands[i]? = some v →
      (g.uses v).count ⟨o, i⟩ = 1) ∧
    (∀ (v : ValueId) (o : OpId) (i : Nat), (∀ d, g.op o = .ok d → d.operands[i]? ≠ some v) →
      (g.uses v).count ⟨o, i⟩ = 0) ∧
    ∀ old new : ValueId, ∃ g', g.redirectUses old new = .ok g' := by
  have hg := h.coherent
  refine ⟨?_, ?_, ?_⟩
  · intro v o i d hd hv
    rw [hg, if_pos (held?_eq_some.2 ⟨d, hd, hv⟩)]
  · intro v o i hno
    rw [hg, if_neg]
    intro hheld
    obtain ⟨d, hd, hv⟩ := held?_eq_some.1 hheld
    exact hno d hd hv
  · intro old new
    obtain ⟨g', h', -⟩ := hg.redirectUses_ok old new
    exact ⟨g', h'⟩

/-- An addition may read a value twice, even one that does not exist yet. -/
theorem uses_exact_doubled : ∃ g', Graph.empty.newOp (.add default ⟨5⟩ ⟨5⟩) = .ok (⟨0⟩, g') ∧
    (g'.uses ⟨5⟩).count ⟨⟨0⟩, 1⟩ = 1 := by
  obtain ⟨g', h⟩ : ∃ g', Graph.empty.newOp (.add default ⟨5⟩ ⟨5⟩) = .ok (⟨0⟩, g') := ⟨_, rfl⟩
  have hreach : g'.Reachable false := .move .empty (.newOp h)
  have hop : g'.op ⟨0⟩ = .ok (Draft.made (.add default ⟨5⟩ ⟨5⟩) (empty.nextValues 1)) :=
    op_eq_ok.2 ⟨by rw [slot_newOp h, if_pos rfl]; rfl, rfl⟩
  exact ⟨g', h, (uses_exact hreach).1 ⟨5⟩ ⟨0⟩ 1 _ hop rfl⟩

end Peephole.Graph
