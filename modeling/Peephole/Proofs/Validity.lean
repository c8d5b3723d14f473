import Peephole.Graph.Report
import Peephole.Proofs.Coherence
import Peephole.Proofs.Scopes
import Peephole.Proofs.Shapes

/-!
# Valid functions

`Graph.Function g root` is a function as a caller has it: the graph was built without
presets, live operations read values that exist, the root is a function in no block, the
operations have the shapes of their kinds, and both checks of `Graph.validate` find
nothing.

`Graph.Valid g root` says the same by what the checks stand for.  The links and use lists
agree, every operand under the root is visible where it is read, and nobody outside reads
a value made inside.  `validate_ok` says that the checks decide just this.
-/

namespace Peephole.Graph

variable {g : Graph} {root : OpId}

/-- The value is made under the root. -/
inductive Belongs (g : Graph) (root : OpId) (v : ValueId) : Prop
  | result {o : OpId} {d : Op} : g.Inside root o → g.op o = .ok d → v ∈ d.results →
      Belongs g root v
  | argument {n : Nat} {p : OpId} {r : RegionId} {R : Region} {b : BlockId} {B : Block} :
      Within g root n p → g.region r = .ok R → R.owner = some p → g.block b = .ok B →
      B.region = some r → v ∈ B.args → Belongs g root v

/-- What holds of the graph around a function, whether the function is valid or not. -/
structure Framed (g : Graph) (root : OpId) : Prop where
  linked : g.Linked
  coherent : g.Coherent
  top : ∃ d, g.op root = .ok d ∧ d.block = none ∧ d.kind = .func ∧ d.Shaped
  exist {u : Use} {v : ValueId} : g.held? u = some v → ∃ y, g.value v = .ok y

/-- A function whose operands are visible and whose values stay inside. -/
structure Valid (g : Graph) (root : OpId) : Prop extends Framed g root where
  visible {u : Use} {v : ValueId} : g.held? u = some v → g.Inside root u.user → g.Visible v u.user
  closed {u : Use} {v : ValueId} : g.held? u = some v → g.Belongs root v → g.Inside root u.user
  shaped {o : OpId} {d : Op} : g.Inside root o → g.op o = .ok d → d.Shaped

namespace Framed

theorem detached (h : g.Framed root) : g.Detached root := by
  obtain ⟨d, hd, hb, -⟩ := h.top
  exact ⟨d, hd, hb⟩

/-- The root reads nothing. -/
theorem root_reads (h : g.Framed root) (i : Nat) : g.held? ⟨root, i⟩ = none := by
  obtain ⟨d, hd, -, hk, hs⟩ := h.top
  rw [held?_of_op hd, (hs.func hk).1]
  rfl

/-- The root makes nothing. -/
theorem root_makes (h : g.Framed root) {d : Op} (hd : g.op root = .ok d) : d.results = [] := by
  obtain ⟨d', hd', -, hk, hs⟩ := h.top
  rw [hd] at hd'
  cases hd'
  have hlen := (h.linked.formed (slot_of_op hd)).2
  rw [(hs.func hk).2] at hlen
  exact List.length_eq_zero_iff.1 hlen

end Framed

/-- The owner of what is under the root is the root or under it. -/
theorem Inside.owner {o : OpId} (h : g.Inside root o) :
    ∃ n p, g.ownerOf? o = .ok (some p) ∧ Within g root n p := by
  obtain ⟨n, h⟩ := h
  cases h with
  | step howner hn => exact ⟨n, _, howner, hn⟩

theorem Inside.sibling {o p : OpId} (h : g.Inside root o) (heq : g.ownerOf? p = g.ownerOf? o) :
    g.Inside root p := by
  obtain ⟨n, h⟩ := h
  exact ⟨n, h.sibling heq⟩

/-- What is visible under the root is made there. -/
theorem Visible.belongs {v : ValueId} {o : OpId} (hg : g.Linked) (hroot : g.Detached root)
    (h : g.Visible v o) (ho : g.Inside root o) : g.Belongs root v := by
  induction h with
  | @argument o b B hB hmem hv =>
    obtain ⟨n, p, howner, hn⟩ := ho.owner
    obtain ⟨r, R, hr, hR, hp⟩ := ownerOf?_eq_some.1 howner
    obtain ⟨d, c, C, hd, hc, hC, hCr⟩ := regionOf?_eq_some.1 hr
    obtain ⟨C', hC', ho'⟩ := hg.placed.1 ⟨d, hd, hc⟩
    rw [hC] at hC'
    cases hC'
    obtain ⟨rfl, rfl⟩ := hg.block_unique hB hC hmem ho'
    exact .argument hn hR hp hB hCr hv
  | earlier hpo hx hv => exact .result (ho.sibling (hg.ownerOf?_of_precedes hpo)) hx hv
  | @outer o p howner hvis ih =>
    obtain ⟨n, q, howner', hn⟩ := ho.owner
    rw [howner] at howner'
    cases howner'
    cases hn with
    | root => exact absurd hvis (Visible.not_detached hg hroot)
    | step hp hn => exact ih ⟨_, .step hp hn⟩

/-! ## The check of operands -/

theorem describe_ok (hg : g.Linked) {v : ValueId} {y : Value} (hy : g.value v = .ok y) :
    ∃ s, g.describe v = .ok s := by
  cases horigin : y.origin with
  | argument b i => exact ⟨_, by simp [describe, origin, hy, horigin]; rfl⟩
  | result o i =>
    obtain ⟨x, hx, -⟩ := hg.result.1 ⟨y, hy, horigin⟩
    cases he : x.erased with
    | true => exact ⟨_, by simp [describe, origin, hy, horigin, hx, he]; rfl⟩
    | false => exact ⟨_, by simp [describe, origin, hy, horigin, hx, he]; rfl⟩

/-- The slot that a finding is about. -/
def Unavailable.slot (e : Unavailable) : Use := ⟨e.user, e.index⟩

open Classical in
/-- The findings at one operation are those of its slots whose values are not visible there. -/
theorem checkOperands_ok {o : OpId} (hg : g.Linked) (ho : g.Topped o) :
    ∀ {vs : List ValueId} (i : Nat), (∀ v ∈ vs, ∃ y, g.value v = .ok y) →
      ∃ found, g.checkOperands o i vs = .ok found ∧ found.map Unavailable.slot =
        ((vs.zipIdx i).filter fun slot => ¬g.Visible slot.1 o).map fun slot => ⟨o, slot.2⟩
  | [], i, _ => ⟨[], rfl, rfl⟩
  | v :: vs, i, hvs => by
      obtain ⟨y, hy⟩ := hvs v (.head vs)
      obtain ⟨answer, hanswer, hiff⟩ := hg.inScope_ok hy ho
      obtain ⟨found, hfound, hall⟩ :=
        checkOperands_ok hg ho (i + 1) fun w hw => hvs w (.tail v hw)
      cases answer with
      | true =>
        refine ⟨found, by simp [checkOperands, checkOperand, hanswer, hfound], ?_⟩
        simp [hall, hiff.1 rfl]
      | false =>
        obtain ⟨s, hs⟩ := describe_ok hg hy
        have hnot : ¬g.Visible v o := fun h => Bool.false_ne_true (hiff.2 h)
        refine ⟨⟨o, i, s⟩ :: found, ?_, ?_⟩
        · simp [checkOperands, checkOperand, hanswer, hs, hfound]
        · simp [hnot, hall, Unavailable.slot]

/-- Findings that are put together one after the other are there together. -/
theorem foldlM_append {α β : Type} (k : α → Except Fault (List β)) :
    ∀ (l : List α) (acc : List β), l.foldlM (fun acc a => (k a).map (acc ++ ·)) acc =
      (l.mapM k).map fun all => acc ++ all.flatten
  | [], acc => by simp
  | a :: l, acc => by
      rw [List.foldlM_cons, List.mapM_cons]
      cases k a with
      | error e => rfl
      | ok found =>
        rw [map_ok, ok_bind, ok_bind, foldlM_append k l]
        cases l.mapM k with
        | error e => rfl
        | ok all => simp

/-- What is found in a list is what is found at its elements. -/
theorem mapM_flatten {α β γ : Type} {k : α → Except Fault (List β)} {f : β → γ} {F : α → List γ} :
    ∀ {l : List α}, (∀ a ∈ l, ∃ found, k a = .ok found ∧ found.map f = F a) →
      ∃ all, l.mapM k = .ok all ∧ all.flatten.map f = l.flatMap F
  | [], _ => ⟨[], rfl, rfl⟩
  | a :: l, h => by
      obtain ⟨found, hfound, heq⟩ := h a (.head l)
      obtain ⟨all, hall, hrest⟩ := mapM_flatten fun b hb => h b (.tail a hb)
      refine ⟨found :: all, mapM_cons_eq_ok.2 ⟨found, all, hfound, hall, rfl⟩, ?_⟩
      rw [List.flatten_cons, List.map_append, heq, hrest, List.flatMap_cons]

/-- Nothing is found in a list if nothing is found at its elements. -/
theorem mapM_findings {α β : Type} {k : α → Except Fault (List β)} {P : α → Prop} :
    ∀ {l : List α}, (∀ a ∈ l, ∃ found, k a = .ok found ∧ (found = [] ↔ P a)) →
      ∃ all, l.mapM k = .ok all ∧ (all.flatten = [] ↔ ∀ a ∈ l, P a)
  | [], _ => ⟨[], rfl, by simp⟩
  | a :: l, h => by
      obtain ⟨found, hfound, hiff⟩ := h a (.head l)
      obtain ⟨all, hall, hrest⟩ := mapM_findings fun b hb => h b (.tail a hb)
      refine ⟨found :: all, mapM_cons_eq_ok.2 ⟨found, all, hfound, hall, rfl⟩, ?_⟩
      rw [List.flatten_cons, List.append_eq_nil_iff, hiff, hrest, List.forall_mem_cons]

/-- The first check is a check of each nested operation. -/
theorem unavailableOperands_eq {nested : List OpId} (h : g.nestedOps root = .ok nested) :
    g.unavailableOperands root =
      (nested.mapM fun o => g.operands o >>= g.checkOperands o 0).map List.flatten := by
  obtain ⟨cs, hcs, hforest⟩ := nestedOps_eq_ok.1 h
  have hvisit : ∀ found o, g.availabilityVisitor found o =
      ((g.operands o >>= g.checkOperands o 0).map (found ++ ·)).map fun s => (s, .advance) := by
    intro found o
    rw [availabilityVisitor]
    cases g.operands o with
    | error e => rfl
    | ok vs =>
      simp only [ok_bind]
      cases g.checkOperands o 0 vs with
      | error e => rfl
      | ok found => rfl
  rw [unavailableOperands, walkInside_eq hcs, hforest.walkAll_eq hvisit, foldlM_append]
  cases nested.mapM fun o => g.operands o >>= g.checkOperands o 0 with
  | error e => rfl
  | ok all => rfl

/-- The operand slots of a live operation, in order. -/
def operandSlots (g : Graph) (o : OpId) : List Use :=
  match g.operands o with
  | .ok vs => (List.range vs.length).map (Use.mk o)
  | .error _ => []

theorem operandSlots_of_op {o : OpId} {d : Op} (hd : g.op o = .ok d) :
    g.operandSlots o = (List.range d.operands.length).map (Use.mk o) := by
  simp [operandSlots, operands, hd]

theorem mem_operandSlots {o : OpId} {u : Use} :
    u ∈ g.operandSlots o ↔ u.user = o ∧ ∃ v, g.held? u = some v := by
  cases hd : g.op o with
  | error e =>
    have hnone : u.user = o → g.held? u = none := by
      rintro rfl
      simp [held?, hd]
    simp +contextual [operandSlots, operands, hd, hnone]
  | ok d =>
    obtain ⟨p, i⟩ := u
    simp only [operandSlots_of_op hd, List.mem_map, List.mem_range, Use.mk.injEq]
    constructor
    · rintro ⟨j, hj, rfl, rfl⟩
      exact ⟨rfl, d.operands[j], by simp [held?_of_op (u := ⟨o, j⟩) hd]⟩
    · rintro ⟨rfl, v, hv⟩
      rw [held?_of_op hd] at hv
      exact ⟨i, (List.getElem?_eq_some_iff.1 hv).1, rfl, rfl⟩

open Classical in
/-- The first check finds, in the order of the walk, the slots whose values are not visible
where they are read. -/
theorem Linked.unavailableOperands_ok {nested : List OpId} (hg : g.Linked)
    (hnested : g.nestedOps root = .ok nested) (htopped : ∀ o ∈ nested, g.Topped o)
    (hexist : ∀ {u : Use} {v : ValueId}, u.user ∈ nested → g.held? u = some v →
      ∃ y, g.value v = .ok y) :
    ∃ found, g.unavailableOperands root = .ok found ∧ found.map Unavailable.slot =
      (nested.flatMap g.operandSlots).filter fun u =>
        ∃ v, g.held? u = some v ∧ ¬g.Visible v u.user := by
  have hcheck : ∀ o ∈ nested, ∃ found, g.operands o >>= g.checkOperands o 0 = .ok found ∧
      found.map Unavailable.slot = (g.operandSlots o).filter fun u =>
        ∃ v, g.held? u = some v ∧ ¬g.Visible v u.user := by
    intro o ho
    obtain ⟨d, hd⟩ := (htopped o ho).live
    have hheld : ∀ i, g.held? ⟨o, i⟩ = d.operands[i]? := fun i => held?_of_op hd
    have hvalues : ∀ v ∈ d.operands, ∃ y, g.value v = .ok y := by
      intro v hv
      obtain ⟨i, hi⟩ := List.mem_iff_getElem?.1 hv
      exact hexist ho ((hheld i).trans hi)
    obtain ⟨found, hfound, hslots⟩ := checkOperands_ok hg (htopped o ho) 0 hvalues
    refine ⟨found, by simp [operands, hd, hfound], ?_⟩
    have hrange : List.range d.operands.length = d.operands.zipIdx.map Prod.snd := by
      rw [List.zipIdx_map_snd, List.range_eq_range']
    rw [hslots, operandSlots_of_op hd, hrange, List.map_map, List.filter_map]
    congr 1
    apply List.filter_congr
    rintro ⟨v, i⟩ hvi
    have hi : d.operands[i]? = some v := List.mem_zipIdx_iff_getElem?.1 hvi
    simp [hheld, hi]
  obtain ⟨all, hall, hslots⟩ := mapM_flatten hcheck
  refine ⟨all.flatten, by rw [unavailableOperands_eq hnested, hall, map_ok], ?_⟩
  rw [hslots, List.filter_flatMap]

/-- The first check finds nothing if operands are visible where they are read. -/
theorem Framed.unavailable_ok (h : g.Framed root) :
    ∃ found, g.unavailableOperands root = .ok found ∧
      (found = [] ↔ ∀ {u : Use} {v : ValueId}, g.held? u = some v → g.Inside root u.user →
        g.Visible v u.user) := by
  obtain ⟨nested, hnested, -, -, hmem⟩ := h.linked.nestedOps_ok h.detached
  have htopped : ∀ o ∈ nested, g.Topped o := by
    intro o ho
    obtain ⟨n, hn⟩ := (hmem o).1 ho
    exact ⟨root, n + 1, hn, h.detached.no_owner⟩
  obtain ⟨found, hfound, hslots⟩ :=
    h.linked.unavailableOperands_ok hnested htopped fun _ hu => h.exist hu
  refine ⟨found, hfound, ?_⟩
  rw [← List.map_eq_nil_iff (f := Unavailable.slot), hslots, List.filter_eq_nil_iff]
  simp only [List.mem_flatMap, mem_operandSlots, hmem, decide_eq_true_iff]
  constructor
  · intro hall u v hu hin
    by_contra hnot
    exact hall u ⟨u.user, hin, rfl, v, hu⟩ ⟨v, hu, hnot⟩
  · rintro hall u ⟨o, ho, rfl, -⟩ ⟨v, hu, hnot⟩
    exact hnot (hall hu ho)

/-! ## The check of use lists -/

section Slots

variable {tree : List OpId} {datas : List (OpId × Op)}

theorem mem_slotsOf {o : OpId} {d : Op} {v : ValueId} {u : Use} :
    (v, u) ∈ slotsOf o d ↔ u.user = o ∧ d.operands[u.index]? = some v := by
  obtain ⟨p, i⟩ := u
  simp only [slotsOf, List.mem_mapIdx, Prod.mk.injEq, Use.mk.injEq]
  constructor
  · rintro ⟨j, hj, rfl, rfl, rfl⟩
    exact ⟨rfl, List.getElem?_eq_getElem hj⟩
  · rintro ⟨rfl, hi⟩
    obtain ⟨hlt, rfl⟩ := List.getElem?_eq_some_iff.1 hi
    exact ⟨i, hlt, rfl, rfl, rfl⟩

theorem mem_slotsHolding {slots : List (ValueId × Use)} {v : ValueId} {u : Use} :
    u ∈ slotsHolding slots v ↔ (v, u) ∈ slots := by
  simp only [slotsHolding, List.mem_filterMap, Prod.exists]
  constructor
  · rintro ⟨w, u', hmem, h⟩
    split at h
    · rename_i heq
      cases h
      exact heq ▸ hmem
    · cases h
  · intro hmem
    exact ⟨v, u, hmem, by simp⟩

theorem slotsOf_users (o : OpId) (d : Op) :
    (slotsOf o d).map Prod.snd = (List.range d.operands.length).map (Use.mk o) := by
  apply List.ext_getElem?
  intro i
  simp only [slotsOf, List.getElem?_map, List.getElem?_mapIdx]
  by_cases hi : i < d.operands.length
  · simp [hi]
  · simp [hi]

theorem slotsHolding_sublist (slots : List (ValueId × Use)) (v : ValueId) :
    (slotsHolding slots v).Sublist (slots.map Prod.snd) := by
  induction slots with
  | nil => exact .slnil
  | cons slot slots ih =>
    obtain ⟨w, u⟩ := slot
    simp only [slotsHolding, List.filterMap_cons, List.map_cons]
    split
    · rename_i heq
      split at heq
      · cases heq
      · exact ih.cons u
    · rename_i heq
      split at heq
      · cases heq
        exact ih.cons_cons u
      · cases heq

theorem mem_datas (hdatas : tree.mapM (fun o => do return (o, ← g.op o)) = .ok datas)
    {o : OpId} {d : Op} : (o, d) ∈ datas ↔ o ∈ tree ∧ g.op o = .ok d := by
  constructor
  · intro hod
    obtain ⟨o', ho', hod⟩ := (mem_of_mapM hdatas).1 _ hod
    obtain ⟨d', hd', hod⟩ := bind_eq_ok.1 hod
    cases hod
    exact ⟨ho', hd'⟩
  · rintro ⟨ho, hd⟩
    obtain ⟨od, hod, hok⟩ := (mem_of_mapM hdatas).2 o ho
    rw [hd] at hok
    cases hok
    exact hod

/-- The slots of a tree are those of its operations. -/
theorem mem_slots (hdatas : tree.mapM (fun o => do return (o, ← g.op o)) = .ok datas)
    {v : ValueId} {u : Use} : (v, u) ∈ datas.flatMap (fun (o, d) => slotsOf o d) ↔
      u.user ∈ tree ∧ g.held? u = some v := by
  rw [mem_flatMap_of_mapM hdatas]
  constructor
  · rintro ⟨o, ho, _, hod, hmem⟩
    obtain ⟨d, hd, hod⟩ := bind_eq_ok.1 hod
    cases hod
    obtain ⟨rfl, hi⟩ := mem_slotsOf.1 hmem
    exact ⟨ho, held?_eq_some.2 ⟨d, hd, hi⟩⟩
  · rintro ⟨ho, hheld⟩
    obtain ⟨d, hd, hi⟩ := held?_eq_some.1 hheld
    exact ⟨u.user, ho, (u.user, d), by simp [hd], mem_slotsOf.2 ⟨rfl, hi⟩⟩

theorem nodup_slotsHolding (hdatas : tree.mapM (fun o => do return (o, ← g.op o)) = .ok datas)
    (htree : tree.Nodup) (v : ValueId) :
    (slotsHolding (datas.flatMap fun (o, d) => slotsOf o d) v).Nodup := by
  have huser : ∀ {o o' : OpId} {d : Op} {u : Use},
      (do return (o, ← g.op o) : Except Fault _) = .ok (o', d) →
      u ∈ (slotsOf o' d).map Prod.snd → u.user = o := by
    intro o o' d u h hu
    obtain ⟨d', -, h⟩ := bind_eq_ok.1 h
    cases h
    obtain ⟨⟨w, u⟩, hmem, rfl⟩ := List.mem_map.1 hu
    exact (mem_slotsOf.1 hmem).1
  have hall : (datas.flatMap fun od => (slotsOf od.1 od.2).map Prod.snd).Nodup := by
    refine nodup_flatMap_of_mapM hdatas htree ?_ ?_
    · rintro o - ⟨o', d⟩ -
      rw [slotsOf_users]
      exact List.nodup_range.map fun i j hij => (Use.mk.inj hij).2
    · intro o _ o' _ od od' u h h' hu hu'
      exact (huser h hu).symm.trans (huser h' hu')
  rw [← List.map_flatMap] at hall
  exact hall.sublist (slotsHolding_sublist _ v)

/-- The slots of some operations that hold a value. -/
def slotsIn (g : Graph) (ops : List OpId) (v : ValueId) : List Use :=
  (ops.flatMap g.operandSlots).filter fun u => g.held? u = some v

theorem mem_slotsIn {v : ValueId} {u : Use} :
    u ∈ g.slotsIn tree v ↔ u.user ∈ tree ∧ g.held? u = some v := by
  simp only [slotsIn, List.mem_filter, List.mem_flatMap, mem_operandSlots, decide_eq_true_iff]
  constructor
  · rintro ⟨⟨o, ho, rfl, -⟩, hu⟩
    exact ⟨ho, hu⟩
  · rintro ⟨ho, hu⟩
    exact ⟨⟨u.user, ho, rfl, v, hu⟩, hu⟩

theorem nodup_slotsIn (htree : tree.Nodup) (v : ValueId) : (g.slotsIn tree v).Nodup := by
  refine .filter _ (List.nodup_flatMap.2 ⟨fun o _ => ?_, htree.imp fun hne u hu hu' => ?_⟩)
  · cases hd : g.op o with
    | error e => simp [operandSlots, operands, hd]
    | ok d =>
      rw [operandSlots_of_op hd]
      exact List.nodup_range.map fun i j hij => (Use.mk.inj hij).2
  · exact hne ((mem_operandSlots.1 hu).1.symm.trans (mem_operandSlots.1 hu').1)

end Slots

theorem filterMapM_eq_ok {α β : Type} {f : α → Except Fault (Option β)} {k : α → Option β} :
    ∀ {l : List α}, (∀ a ∈ l, f a = .ok (k a)) → l.filterMapM f = .ok (l.filterMap k)
  | [], _ => rfl
  | a :: l, h => by
      rw [List.filterMapM_cons, h a (.head l), ok_bind, List.filterMap_cons,
        filterMapM_eq_ok fun b hb => h b (.tail a hb)]
      cases k a with
      | none => rfl
      | some b => rfl

/-- The check of one value finds nothing just if its use list names the slots that hold the
value, each once. -/
theorem checkUses_ok {slots : List (ValueId × Use)} {v : ValueId}
    (hnodup : (slotsHolding slots v).Nodup)
    (hlive : ∀ u ∈ slotsHolding slots v, ∃ d, g.op u.user = .ok d)
    (husers : ∀ u ∈ g.uses v, ∃ d, g.slot u.user = .ok d) :
    ∃ errors, g.checkUses slots v = .ok errors ∧
      (errors = [] ↔ (g.uses v).Perm (slotsHolding slots v)) := by
  obtain ⟨missing, hmissing⟩ : ∃ missing, ((slotsHolding slots v).eraseDups.filter fun u =>
      !(g.uses v).contains u).mapM (fun u => do return UseError.missing v u (← g.kind u.user)) =
        .ok missing := by
    apply mapM_ok
    intro u hu
    obtain ⟨d, hd⟩ := hlive u (List.mem_eraseDups.1 (List.mem_filter.1 hu).1)
    exact ⟨.missing v u d.kind, by simp [kind, hd]⟩
  have hnone : missing = [] ↔ ∀ u ∈ slotsHolding slots v, u ∈ g.uses v := by
    rw [mapM_eq_nil_iff hmissing, List.filter_eq_nil_iff]
    simp [List.mem_eraseDups]
  obtain ⟨wrong, hwrong, hright⟩ : ∃ wrong, (g.uses v).filterMapM
      (g.checkUse v (slotsHolding slots v)) = .ok wrong ∧
        (wrong = [] ↔ ∀ u ∈ g.uses v, u ∈ slotsHolding slots v) := by
    let finding (u : Use) : Option UseError :=
      if u ∈ slotsHolding slots v then none
      else if g.isLive u.user = .ok true then some (.unfounded v u)
      else some (.erasedUser v u.user)
    refine ⟨(g.uses v).filterMap finding, filterMapM_eq_ok ?_, ?_⟩
    · intro u hu
      by_cases hin : u ∈ slotsHolding slots v
      · obtain ⟨d, hd⟩ := hlive u hin
        simp [finding, checkUse, isLive_of_op hd, hin]
      · obtain ⟨d, hd⟩ := husers u hu
        cases he : d.erased with
        | true => simp [finding, checkUse, isLive, hd, he, hin]
        | false => simp [finding, checkUse, isLive, hd, he, hin]
    · rw [List.filterMap_eq_nil_iff]
      grind
  refine ⟨missing ++ wrong ++ if (g.uses v).length = (slotsHolding slots v).length then [] else
    [.miscounted v (g.uses v).length (slotsHolding slots v).length], ?_, ?_⟩
  · rw [checkUses, hmissing, ok_bind, hwrong]
    rfl
  rw [List.append_eq_nil_iff, List.append_eq_nil_iff, hnone, hright]
  constructor
  · rintro ⟨⟨hsub, -⟩, hcount⟩
    have hlength : (g.uses v).length = (slotsHolding slots v).length := by
      by_contra hne
      rw [if_neg hne] at hcount
      cases hcount
    exact ((List.subperm_of_subset hnodup hsub).perm_of_length_le (Nat.le_of_eq hlength)).symm
  · intro hperm
    refine ⟨⟨fun u => hperm.mem_iff.2, fun u => hperm.mem_iff.1⟩, ?_⟩
    rw [if_pos hperm.length_eq]

/-- The operation reads or makes the value, or the value is an argument of a block in it. -/
def Concerns (g : Graph) (o : OpId) (d : Op) (v : ValueId) : Prop :=
  v ∈ d.operands ∨ v ∈ d.results ∨ ∃ r R b B, g.region r = .ok R ∧ R.owner = some o ∧
    g.block b = .ok B ∧ B.region = some r ∧ v ∈ B.args

/-- The values whose use lists are checked are those that concern an operation of the tree. -/
theorem valuesOf_ok (hg : g.Housed) {o : OpId} {d : Op} (hd : g.op o = .ok d) :
    ∃ vs, g.valuesOf d = .ok vs ∧ ∀ v, v ∈ vs ↔ g.Concerns o d v := by
  have hregions : ∀ r ∈ d.regions, ∃ R, g.region r = .ok R := by
    intro r hr
    obtain ⟨R, hR, -⟩ := hg.owned.2 ⟨d, slot_of_op hd, hr⟩
    exact ⟨R, hR⟩
  obtain ⟨Rs, hRs⟩ := mapM_ok hregions
  refine ⟨_, by rw [valuesOf, hRs]; rfl, ?_⟩
  intro v
  rw [List.mem_append, List.mem_append, or_assoc]
  refine or_congr_right (or_congr_right ?_)
  rw [List.mem_flatMap]
  constructor
  · rintro ⟨b, hb, hv⟩
    obtain ⟨r, hr, R, hR, hb⟩ := (mem_flatMap_of_mapM hRs).1 hb
    obtain ⟨R', hR', howner⟩ := hg.owned.2 ⟨d, slot_of_op hd, hr⟩
    rw [hR] at hR'
    cases hR'
    obtain ⟨B, hB, hr⟩ := hg.parted.2 ⟨R, hR, hb⟩
    refine ⟨r, R, b, B, hR, howner, hB, hr, ?_⟩
    simpa [blockArgs, block_eq_ok.1 hB] using hv
  · rintro ⟨r, R, b, B, hR, howner, hB, hr, hv⟩
    obtain ⟨d', hd', hrd⟩ := hg.owned.1 ⟨R, hR, howner⟩
    rw [slot_of_op hd] at hd'
    cases hd'
    obtain ⟨R', hR', hb⟩ := hg.parted.1 ⟨B, hB, hr⟩
    refine ⟨b, (mem_flatMap_of_mapM hRs).2 ⟨r, hrd, R', hR', hb⟩, ?_⟩
    simpa [blockArgs, block_eq_ok.1 hB] using hv

/-- What concerns the tree is made in it or read in it. -/
theorem Framed.concerns_iff (h : g.Framed root) {v : ValueId} :
    (∃ o d, (o = root ∨ g.Inside root o) ∧ g.op o = .ok d ∧ g.Concerns o d v) ↔
      g.Belongs root v ∨ ∃ u, g.Inside root u.user ∧ g.held? u = some v := by
  constructor
  · rintro ⟨o, d, ho, hd, hv | hv | ⟨r, R, b, B, hR, howner, hB, hr, hv⟩⟩
    · obtain ⟨i, hi⟩ := List.mem_iff_getElem?.1 hv
      have hheld : g.held? ⟨o, i⟩ = some v := held?_eq_some.2 ⟨d, hd, hi⟩
      rcases ho with rfl | ho
      · rw [h.root_reads] at hheld
        cases hheld
      · exact .inr ⟨⟨o, i⟩, ho, hheld⟩
    · rcases ho with rfl | ho
      · rw [h.root_makes hd] at hv
        cases hv
      · exact .inl (.result ho hd hv)
    · rcases ho with rfl | ⟨n, hn⟩
      · exact .inl (.argument .root hR howner hB hr hv)
      · exact .inl (.argument hn hR howner hB hr hv)
  · rintro (hv | ⟨u, hu, hheld⟩)
    · cases hv with
      | result ho hd hv => exact ⟨_, _, .inr ho, hd, .inr (.inl hv)⟩
      | argument hp hR howner hB hr hv =>
        obtain ⟨d, hd, hrd⟩ := h.linked.owned.1 ⟨_, hR, howner⟩
        obtain ⟨top, htop, -⟩ := h.top
        obtain ⟨d, hd⟩ := hp.live htop
        refine ⟨_, d, ?_, hd, .inr (.inr ⟨_, _, _, _, hR, howner, hB, hr, hv⟩)⟩
        cases hp with
        | root => exact .inl rfl
        | step hp hn => exact .inr ⟨_, .step hp hn⟩
    · obtain ⟨d, hd, hi⟩ := held?_eq_some.1 hheld
      exact ⟨u.user, d, .inr hu, hd, .inl (List.mem_of_getElem? hi)⟩

/-- The second check is a check of each value that an operation of the tree makes it look at,
against the slots of the tree. -/
theorem useErrors_eq {tree : List OpId} (htree : g.opTree root = .ok tree) (hnodup : tree.Nodup)
    (hlook : ∀ o ∈ tree, ∃ d vs, g.op o = .ok d ∧ g.valuesOf d = .ok vs) :
    ∃ slots, ∃ values : List ValueId,
      g.useErrors root = (values.mapM (g.checkUses slots)).map List.flatten ∧
      (∀ v, (slotsHolding slots v).Nodup ∧ ∀ u, u ∈ slotsHolding slots v ↔ u ∈ g.slotsIn tree v) ∧
      ∀ v, v ∈ values ↔
        ∃ o ∈ tree, ∃ d vs, g.op o = .ok d ∧ g.valuesOf d = .ok vs ∧ v ∈ vs := by
  have hpair : ∀ o ∈ tree, ∃ od, (do return (o, ← g.op o) : Except Fault _) = .ok od := by
    intro o ho
    obtain ⟨d, -, hd, -⟩ := hlook o ho
    exact ⟨(o, d), by simp [hd]⟩
  obtain ⟨datas, hdatas⟩ := mapM_ok hpair
  have hvalues : ∀ od ∈ datas, ∃ vs, (fun (_, d) => g.valuesOf d : OpId × Op → _) od = .ok vs := by
    rintro ⟨o, d⟩ hod
    obtain ⟨ho, hd⟩ := (mem_datas hdatas).1 hod
    obtain ⟨d', vs, hd', hvs⟩ := hlook o ho
    rw [hd] at hd'
    cases hd'
    exact ⟨vs, hvs⟩
  obtain ⟨values, hvalues⟩ := mapM_ok hvalues
  refine ⟨datas.flatMap fun (o, d) => slotsOf o d, values.flatten.eraseDups, ?_, fun v => ?_, ?_⟩
  · rw [useErrors, htree, ok_bind, hdatas, ok_bind]
    dsimp only
    rw [hvalues, ok_bind]
    cases values.flatten.eraseDups.mapM (g.checkUses _) with
    | error e => rfl
    | ok all => rfl
  · refine ⟨nodup_slotsHolding hdatas hnodup v, fun u => ?_⟩
    rw [mem_slotsHolding, mem_slots hdatas, mem_slotsIn]
  · intro v
    rw [List.mem_eraseDups, ← List.flatMap_id, mem_flatMap_of_mapM hvalues]
    constructor
    · rintro ⟨⟨o, d⟩, hod, vs, hvs, hv⟩
      obtain ⟨ho, hd⟩ := (mem_datas hdatas).1 hod
      exact ⟨o, ho, d, vs, hd, hvs, hv⟩
    · rintro ⟨o, ho, d, vs, hd, hvs, hv⟩
      exact ⟨(o, d), (mem_datas hdatas).2 ⟨ho, hd⟩, vs, hvs, hv⟩

/-- The second check finds nothing just if the use lists of the values it looks at name the
slots of the tree that hold them. -/
theorem useErrors_perm {tree : List OpId} (htree : g.opTree root = .ok tree)
    (hnodup : tree.Nodup) (hlook : ∀ o ∈ tree, ∃ d vs, g.op o = .ok d ∧ g.valuesOf d = .ok vs)
    (husers : ∀ v, ∀ u ∈ g.uses v, ∃ d, g.slot u.user = .ok d) :
    ∃ errors, g.useErrors root = .ok errors ∧ (errors = [] ↔
      ∀ o ∈ tree, ∀ d vs, g.op o = .ok d → g.valuesOf d = .ok vs → ∀ v ∈ vs,
        (g.uses v).Perm (g.slotsIn tree v)) := by
  obtain ⟨slots, values, heq, hslots, hvalues⟩ := useErrors_eq htree hnodup hlook
  have hchecks : ∀ v ∈ values, ∃ errors, g.checkUses slots v = .ok errors ∧
      (errors = [] ↔ (g.uses v).Perm (g.slotsIn tree v)) := by
    intro v _
    obtain ⟨hheld, hmem⟩ := hslots v
    have hperm := (List.perm_ext_iff_of_nodup hheld (nodup_slotsIn hnodup v)).2 hmem
    have hlive : ∀ u ∈ slotsHolding slots v, ∃ d, g.op u.user = .ok d := by
      intro u hu
      obtain ⟨d, hd, -⟩ := held?_eq_some.1 (mem_slotsIn.1 ((hmem u).1 hu)).2
      exact ⟨d, hd⟩
    obtain ⟨errors, herrors, hiff⟩ := checkUses_ok hheld hlive (husers v)
    exact ⟨errors, herrors, hiff.trans ⟨fun h => h.trans hperm, fun h => h.trans hperm.symm⟩⟩
  obtain ⟨errors, herrors, hiff⟩ := mapM_findings hchecks
  refine ⟨errors.flatten, by rw [heq, herrors, map_ok], hiff.trans ?_⟩
  constructor
  · intro hall o ho d vs hd hvs v hv
    exact hall v ((hvalues v).2 ⟨o, ho, d, vs, hd, hvs, hv⟩)
  · intro hall v hv
    obtain ⟨o, ho, d, vs, hd, hvs, hv⟩ := (hvalues v).1 hv
    exact hall o ho d vs hd hvs v hv

/-- With coherent use lists, the second check finds nothing if nobody outside the tree uses a
value it looks at. -/
theorem useErrors_ok {tree : List OpId} (hg : g.Coherent) (htree : g.opTree root = .ok tree)
    (hnodup : tree.Nodup) (hlook : ∀ o ∈ tree, ∃ d vs, g.op o = .ok d ∧ g.valuesOf d = .ok vs) :
    ∃ errors, g.useErrors root = .ok errors ∧ (errors = [] ↔
      ∀ o ∈ tree, ∀ d vs, g.op o = .ok d → g.valuesOf d = .ok vs → ∀ v ∈ vs, ∀ u,
        g.held? u = some v → u.user ∈ tree) := by
  have husers : ∀ v, ∀ u ∈ g.uses v, ∃ d, g.slot u.user = .ok d := by
    intro v u hu
    obtain ⟨d, hd, -⟩ := held?_eq_some.1 (hg.mem_uses.1 hu)
    exact ⟨d, slot_of_op hd⟩
  have hiff : ∀ v, (g.uses v).Perm (g.slotsIn tree v) ↔
      ∀ u, g.held? u = some v → u.user ∈ tree := by
    intro v
    rw [List.perm_ext_iff_of_nodup (hg.nodup_uses v) (nodup_slotsIn hnodup v)]
    simp only [hg.mem_uses, mem_slotsIn, iff_and_self]
  simpa only [hiff] using useErrors_perm htree hnodup hlook husers

/-- The second check finds nothing if nobody outside the function uses a value of it. -/
theorem Framed.useErrors_ok (h : g.Framed root) :
    ∃ errors, g.useErrors root = .ok errors ∧
      (errors = [] ↔ ∀ {u : Use} {v : ValueId}, g.held? u = some v →
        (g.Belongs root v ∨ ∃ w, g.Inside root w.user ∧ g.held? w = some v) →
        g.Inside root u.user) := by
  obtain ⟨nested, -, htree, hnodup, hmem⟩ := h.linked.nestedOps_ok h.detached
  have hin : ∀ {o}, o ∈ root :: nested ↔ o = root ∨ g.Inside root o := by
    intro o
    rw [List.mem_cons, hmem]
  have hlook : ∀ o ∈ root :: nested, ∃ d vs, g.op o = .ok d ∧ g.valuesOf d = .ok vs := by
    intro o ho
    have hlive : ∃ d, g.op o = .ok d := by
      rcases hin.1 ho with rfl | ho
      · obtain ⟨d, hd, -⟩ := h.top
        exact ⟨d, hd⟩
      · exact ho.live
    obtain ⟨d, hd⟩ := hlive
    obtain ⟨vs, hvs, -⟩ := valuesOf_ok h.linked.housed hd
    exact ⟨d, vs, hd, hvs⟩
  obtain ⟨errors, herrors, hiff⟩ := Graph.useErrors_ok h.coherent htree hnodup hlook
  refine ⟨errors, herrors, hiff.trans ?_⟩
  have hinside : ∀ {u : Use} {v : ValueId}, g.held? u = some v →
      (u.user ∈ root :: nested ↔ g.Inside root u.user) := by
    intro u v hu
    refine hin.trans (or_iff_right ?_)
    intro huser
    have hnone := h.root_reads u.index
    rw [← huser, hu] at hnone
    cases hnone
  simp only [← h.concerns_iff]
  constructor
  · rintro hall u v hu ⟨o, d, ho, hd, hv⟩
    obtain ⟨vs, hvs, hmem'⟩ := valuesOf_ok h.linked.housed hd
    exact (hinside hu).1 (hall o (hin.2 ho) d vs hd hvs v ((hmem' v).2 hv) u hu)
  · intro hall o ho d vs hd hvs v hv u hu
    obtain ⟨vs', hvs', hmem'⟩ := valuesOf_ok h.linked.housed hd
    rw [hvs] at hvs'
    cases hvs'
    exact (hinside hu).2 (hall hu ⟨o, d, hin.1 ho, hd, (hmem' v).1 hv⟩)

/-! ## Both checks -/

theorem Report.isOk_iff {r : Report} : r.isOk = true ↔ r.unavailable = [] ∧ r.useErrors = [] := by
  simp [Report.isOk]

/-- A function as a caller has it. -/
structure Function (g : Graph) (root : OpId) : Prop where
  built : g.Reachable false
  existing {o : OpId} {d : Op} {v : ValueId} : g.op o = .ok d → v ∈ d.operands →
    ∃ y, g.value v = .ok y
  top : ∃ d, g.op root = .ok d ∧ d.kind = .func ∧ d.block = none
  shaped : ∃ tree, g.opTree root = .ok tree ∧ ∀ o ∈ tree, ∃ d, g.op o = .ok d ∧ d.Shaped
  checked : ∃ report, g.validate root = .ok report ∧ report.isOk = true

/-- In a framed graph the checks end, and they find nothing just if the function is valid. -/
theorem Framed.validate_ok (h : g.Framed root) :
    ∃ report, g.validate root = .ok report ∧ (report.isOk = true ↔
      (∀ {u : Use} {v : ValueId}, g.held? u = some v → g.Inside root u.user →
        g.Visible v u.user) ∧
      ∀ {u : Use} {v : ValueId}, g.held? u = some v → g.Belongs root v → g.Inside root u.user) := by
  obtain ⟨found, hfound, hvisible⟩ := h.unavailable_ok
  obtain ⟨errors, herrors, hclosed⟩ := h.useErrors_ok
  refine ⟨⟨found, errors⟩, by simp [validate, hfound, herrors], ?_⟩
  rw [Report.isOk_iff, hvisible, hclosed]
  constructor
  · rintro ⟨hvis, hcl⟩
    exact ⟨hvis, fun hu hv => hcl hu (.inl hv)⟩
  · rintro ⟨hvis, hcl⟩
    refine ⟨hvis, ?_⟩
    rintro u v hu (hv | ⟨w, hw, hheld⟩)
    · exact hcl hu hv
    · exact hcl hu ((hvis hheld hw).belongs h.linked h.detached hw)

theorem Function.valid (h : g.Function root) : g.Valid root := by
  have hg := h.built.linked
  obtain ⟨d, hd, hk, hb⟩ := h.top
  obtain ⟨tree, htree, hshaped⟩ := h.shaped
  obtain ⟨nested, -, htree', -, hmem⟩ := hg.nestedOps_ok ⟨d, hd, hb⟩
  rw [htree] at htree'
  cases htree'
  have hroot : d.Shaped := by
    obtain ⟨d', hd', hs⟩ := hshaped root (.head nested)
    rw [hd] at hd'
    cases hd'
    exact hs
  have hframe : g.Framed root := by
    refine ⟨hg, h.built.coherent, ⟨d, hd, hb, hk, hroot⟩, ?_⟩
    intro u v hu
    obtain ⟨x, hx, hi⟩ := held?_eq_some.1 hu
    exact h.existing hx (List.mem_of_getElem? hi)
  obtain ⟨report, hreport, hiff⟩ := hframe.validate_ok
  obtain ⟨report', hreport', hok⟩ := h.checked
  rw [hreport] at hreport'
  cases hreport'
  obtain ⟨hvisible, hclosed⟩ := hiff.1 hok
  refine ⟨hframe, hvisible, hclosed, ?_⟩
  intro o x ho hx
  obtain ⟨x', hx', hs⟩ := hshaped o (.tail root ((hmem o).2 ho))
  rw [hx] at hx'
  cases hx'
  exact hs

theorem Valid.function (h : g.Valid root) (hbuilt : g.Reachable false) : g.Function root := by
  obtain ⟨d, hd, hb, hk, hroot⟩ := h.top
  obtain ⟨nested, -, htree, -, hmem⟩ := h.linked.nestedOps_ok h.detached
  refine ⟨hbuilt, ?_, ⟨d, hd, hk, hb⟩, ⟨root :: nested, htree, ?_⟩, ?_⟩
  · intro o x v hx hv
    obtain ⟨i, hi⟩ := List.mem_iff_getElem?.1 hv
    exact h.exist (held?_eq_some.2 ⟨x, hx, hi⟩ : g.held? ⟨o, i⟩ = some v)
  · intro o ho
    rcases List.mem_cons.1 ho with rfl | ho
    · exact ⟨d, hd, hroot⟩
    · obtain ⟨x, hx⟩ := ((hmem o).1 ho).live
      exact ⟨x, hx, h.shaped ((hmem o).1 ho) hx⟩
  · obtain ⟨report, hreport, hiff⟩ := h.validate_ok
    exact ⟨report, hreport, hiff.2 ⟨h.visible, h.closed⟩⟩

/-! ## A function -/

/-- Two Hadamard gates on the argument of a function, which returns the qubit. -/
def pairBody (args : List ValueId) : BuildM Unit := do
  let a ← BuildM.gate .hadamard (args.headD default)
  let b ← BuildM.gate .hadamard a
  let _ ← BuildM.ret [b]

/-- The function that `pairBody` is the body of. -/
def pairGraph : Graph where
  ops := #[
    { kind := .hadamard, operands := [⟨0⟩], results := [⟨1⟩], resultTypes := [.qubit],
      attributes := .empty, regions := [], block := some ⟨0⟩, location := ⟨⟨0⟩, 0, 0⟩,
      erased := false },
    { kind := .hadamard, operands := [⟨1⟩], results := [⟨2⟩], resultTypes := [.qubit],
      attributes := .empty, regions := [], block := some ⟨0⟩, location := ⟨⟨0⟩, 0, 0⟩,
      erased := false },
    { kind := .ret, operands := [⟨2⟩], results := [], resultTypes := [],
      attributes := .empty, regions := [], block := some ⟨0⟩, location := ⟨⟨0⟩, 0, 0⟩,
      erased := false },
    { kind := .func, operands := [], results := [], resultTypes := [],
      attributes := .insert .empty "sym_name" (.text "f"), regions := [⟨0⟩], block := none,
      location := ⟨⟨0⟩, 0, 0⟩, erased := false }]
  values := #[⟨.argument ⟨0⟩ 0, .qubit⟩, ⟨.result ⟨0⟩ 0, .qubit⟩, ⟨.result ⟨1⟩ 0, .qubit⟩]
  blocks := #[⟨[⟨0⟩], [.qubit], [⟨0⟩, ⟨1⟩, ⟨2⟩], some ⟨0⟩, ⟨⟨0⟩, 0, 0⟩⟩]
  regions := #[⟨[⟨0⟩], some ⟨3⟩⟩]
  useLists := ⟨#[[⟨⟨0⟩, 0⟩], [⟨⟨1⟩, 0⟩], [⟨⟨2⟩, 0⟩]]⟩
  paths := ⟨#["<unknown>"], ⟨[("<unknown>", ⟨0⟩)]⟩⟩

theorem newFunc_pair : Graph.empty.newFunc "f" [.qubit] pairBody = .ok (⟨3⟩, pairGraph) := by
  decide +kernel

theorem pairGraph_function : pairGraph.Function ⟨3⟩ where
  built := by
    refine .move .empty (.newFunc (fun args => ?_) newFunc_pair)
    exact .bind (.single _) fun a => .bind (.single _) fun b => .bind (.op _) fun _ => .pure ()
  existing {o d v} hd hv := by
    have hbound : ∀ d ∈ pairGraph.ops.toList, ∀ v ∈ d.operands,
        v.index < pairGraph.values.size := by
      decide
    have hd := slot_eq_ok.1 (slot_of_op hd)
    exact value_of_index_lt (hbound d (Array.mem_toList_iff.2 (Array.mem_of_getElem? hd)) v hv)
  top := ⟨_, rfl, rfl, rfl⟩
  shaped := by
    refine ⟨[⟨3⟩, ⟨0⟩, ⟨1⟩, ⟨2⟩], by decide +kernel, ?_⟩
    simp only [List.forall_mem_cons, List.not_mem_nil, false_imp_iff, implies_true, and_true]
    exact ⟨⟨_, rfl, Draft.Standard.func _ _ _⟩,
      ⟨_, rfl, @Draft.Standard.gate _ .hadamard ⟨0⟩ _ rfl⟩,
      ⟨_, rfl, @Draft.Standard.gate _ .hadamard ⟨1⟩ _ rfl⟩, ⟨_, rfl, Draft.Standard.ret _ _⟩⟩
  checked := by
    refine ⟨⟨[], []⟩, by decide +kernel, rfl⟩

end Peephole.Graph
