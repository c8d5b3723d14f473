import Peephole.Proofs.Making

/-!
# What editing does

The effect of the four edits of a built graph on each table: writing an operand slot,
inserting before an operation, moving the uses of a value and erasing an operation.
Insertion is in `Making`, with the other ways to place an operation.

`Graph.written?` is the value in an operand slot of an operation that may have been
erased.  An erased operation keeps what it read, and the use lists no longer know of it.
-/

namespace Peephole.Graph

variable {g g' : Graph}

/-- The value in an operand slot of an operation, erased or not. -/
def written? (g : Graph) (u : Use) : Option ValueId :=
  match g.slot u.user with
  | .ok d => d.operands[u.index]?
  | .error _ => none

theorem written?_of_slot {u : Use} {d : Op} (h : g.slot u.user = .ok d) :
    g.written? u = d.operands[u.index]? := by
  simp [written?, h]

theorem written?_congr {u : Use}
    (h : (g'.slot u.user).map Op.operands = (g.slot u.user).map Op.operands) :
    g'.written? u = g.written? u := by
  unfold written?
  cases hs : g.slot u.user with
  | ok d =>
    rw [hs] at h
    obtain ⟨d', hd', hoperands⟩ := map_eq_ok.1 h
    rw [hd']
    exact congrArg (·[u.index]?) hoperands
  | error f =>
    rw [hs] at h
    cases hs' : g'.slot u.user with
    | ok d' =>
      rw [hs'] at h
      cases h
    | error f' => rfl

theorem written?_of_held? {u : Use} {v : ValueId} (h : g.held? u = some v) :
    g.written? u = some v := by
  obtain ⟨d, hd, hv⟩ := held?_eq_some.1 h
  rw [written?_of_slot (slot_of_op hd), hv]

theorem held?_eq_written? {u : Use} {d : Op} (h : g.op u.user = .ok d) :
    g.held? u = g.written? u := by
  rw [held?_of_op h, written?_of_slot (slot_of_op h)]

/-! ## Writing a slot -/

theorem writeSlot_eq_ok {o : OpId} {i : Nat} {new : ValueId} :
    g.writeSlot o i new = .ok g' ↔ ∃ d old, g.slot o = .ok d ∧ d.operands[i]? = some old ∧
      g' = if old = new then g else
        ((g.modifyOp o fun data => { data with operands := data.operands.set i new }).modifyUses
          old fun uses => uses.filter (· ≠ ⟨o, i⟩)).modifyUses
          new fun uses => uses ++ [⟨o, i⟩] := by
  rw [writeSlot, bind_eq_ok]
  constructor
  · rintro ⟨d, hd, h⟩
    split at h
    · cases h
    · rename_i old hold
      refine ⟨d, old, hd, hold, ?_⟩
      split at h
      · rename_i heq
        cases h
        rw [if_pos heq]
      · rename_i hne
        cases h
        rw [if_neg hne]
  · rintro ⟨d, old, hd, hold, rfl⟩
    refine ⟨d, hd, ?_⟩
    rw [hold]
    simp only
    split
    · rfl
    · rfl

theorem slot_writeSlot {o : OpId} {i : Nat} {new : ValueId} (h : g.writeSlot o i new = .ok g')
    (p : OpId) : g'.slot p =
      if o = p then (g.slot p).map fun d => { d with operands := d.operands.set i new }
      else g.slot p := by
  obtain ⟨d, old, hd, hold, rfl⟩ := writeSlot_eq_ok.1 h
  split
  · rename_i heq
    subst heq
    split
    · rename_i hop
      subst hop
      have hset : d.operands.set i old = d.operands := by
        obtain ⟨hi, rfl⟩ := List.getElem?_eq_some_iff.1 hold
        exact List.set_getElem_self hi
      rw [hd, map_ok, hset]
    · rfl
  · simp

/-! ## Moving uses -/

theorem redirect_eq_ok {old new : ValueId} {u : Use} : redirect old new g u = .ok g' ↔
    g.written? u = some old ∧
      g' = (g.modifyOp u.user fun data =>
        { data with operands := data.operands.set u.index new }).modifyUses new
          fun uses => uses ++ [u] := by
  simp only [redirect, bind_eq_ok, entry_eq_ok]
  constructor
  · rintro ⟨d, hd, held, hheld, h⟩
    split at h
    · cases h
    · rename_i heq
      cases h
      rw [written?_of_slot hd, hheld]
      exact ⟨congrArg some (by simpa using heq), rfl⟩
  · rintro ⟨hw, rfl⟩
    unfold written? at hw
    split at hw
    · rename_i d hd
      exact ⟨d, hd, old, hw, by simp⟩
    · cases hw

theorem written?_set (o : OpId) (i : Nat) (new : ValueId) (u : Use) :
    (g.modifyOp o fun d => { d with operands := d.operands.set i new }).written? u =
      if u = ⟨o, i⟩ then (g.written? u).map fun _ => new else g.written? u := by
  obtain ⟨p, j⟩ := u
  simp only [written?, slot_modifyOp, Use.mk.injEq]
  cases g.slot p with
  | error f => simp
  | ok d =>
    by_cases hp : o = p
    · subst hp
      simp [List.getElem?_set', eq_comm]
      rfl
    · simp [hp, Ne.symm hp]

/-- An operation with some of its slots rewritten. -/
def rewired (d : Op) (o : OpId) (us : List Use) (new : ValueId) : Op :=
  { d with operands := d.operands.mapIdx fun i v => if ⟨o, i⟩ ∈ us then new else v }

theorem rewired_nil (d : Op) (o : OpId) (new : ValueId) : rewired d o [] new = d := by
  have hid : d.operands.mapIdx (fun _ v => v) = d.operands := by
    apply List.ext_getElem?
    simp
  simp [rewired, hid]

theorem rewired_cons (d : Op) (o : OpId) (u : Use) (us : List Use) (new : ValueId) :
    rewired d o (u :: us) new =
      rewired (if u.user = o then { d with operands := d.operands.set u.index new } else d)
        o us new := by
  obtain ⟨p, j⟩ := u
  have hops : d.operands.mapIdx (fun i v => if (⟨o, i⟩ : Use) ∈ ⟨p, j⟩ :: us then new else v) =
      (if p = o then d.operands.set j new else d.operands).mapIdx
        fun i v => if (⟨o, i⟩ : Use) ∈ us then new else v := by
    apply List.ext_getElem?
    intro i
    split
    · rename_i hp
      by_cases hij : j = i
      · subst hij
        cases hv : d.operands[j]? with
        | none => simp [List.getElem?_mapIdx, List.getElem?_set', hv]
        | some v => simp [List.getElem?_mapIdx, List.getElem?_set', hv, hp]
      · simp [List.getElem?_mapIdx, hij, Ne.symm hij]
    · rename_i hp
      simp [List.getElem?_mapIdx, Ne.symm hp]
  simp only [rewired, hops]
  split
  · rfl
  · rfl

/-- Moving different slots that all hold the old value always succeeds.  The slots that
were moved hold the new value then, and stand at the end of its use list. -/
theorem redirects_ok {old new : ValueId} :
    ∀ {us : List Use} (g : Graph), us.Nodup → (∀ u ∈ us, g.written? u = some old) →
      ∃ g', us.foldlM (redirect old new) g = .ok g' ∧
        (∀ p, g'.slot p = (g.slot p).map fun d => rewired d p us new) ∧
        (∀ v, g'.uses v = if new = v then g.uses v ++ us else g.uses v) ∧
        g' = { g with ops := g'.ops, useLists := g'.useLists }
  | [], g, _, _ => by
      refine ⟨g, rfl, ?_, by simp, rfl⟩
      intro p
      cases g.slot p with
      | ok d => simp [rewired_nil]
      | error f => rfl
  | u :: us, g, hnodup, hheld => by
      obtain ⟨hu, hnodup⟩ := List.nodup_cons.1 hnodup
      let g₁ := (g.modifyOp u.user fun data =>
        { data with operands := data.operands.set u.index new }).modifyUses new
          fun uses => uses ++ [u]
      have h₁ : redirect old new g u = .ok g₁ := redirect_eq_ok.2 ⟨hheld u (.head us), rfl⟩
      -- the slots still to be moved are other ones, so they hold what they held
      have hheld₁ : ∀ w ∈ us, g₁.written? w = some old := by
        intro w hw
        have hne : w ≠ u := by
          rintro rfl
          exact hu hw
        have hset := written?_set (g := g) u.user u.index new w
        rw [if_neg hne] at hset
        exact hset.trans (hheld w (.tail u hw))
      obtain ⟨g', h', hslot', huses', heq'⟩ := redirects_ok g₁ hnodup hheld₁
      refine ⟨g', ?_, ?_, ?_, ?_⟩
      · rw [List.foldlM_cons, h₁]
        exact h'
      · intro p
        rw [hslot', slot_modifyUses, slot_modifyOp]
        cases g.slot p with
        | error f => split <;> rfl
        | ok d =>
          rw [map_ok, map_ok, rewired_cons]
          split
          · rfl
          · rfl
      · intro v
        rw [huses', uses_modifyUses]
        split
        · simp
        · simp
      · rw [heq']
        rfl

/-! ## Erasing -/

theorem uses_removeUses (op : OpId) (v : ValueId) :
    ∀ (i : Nat) (vs : List ValueId) (g : Graph), (removeUses op i vs g).uses v =
      (g.uses v).filter fun u => ¬(u.user = op ∧ i ≤ u.index ∧ vs[u.index - i]? = some v)
  | i, [], g => by
      symm
      rw [removeUses, List.filter_eq_self]
      simp
  | i, w :: rest, g => by
      rw [removeUses, uses_removeUses op v (i + 1) rest, uses_modifyUses]
      -- the slots from `i` on are slot `i` and the later ones
      have hslots : ∀ u : Use, (u.user = op ∧ i ≤ u.index ∧ (w :: rest)[u.index - i]? = some v) ↔
          u = ⟨op, i⟩ ∧ w = v ∨
            u.user = op ∧ i + 1 ≤ u.index ∧ rest[u.index - (i + 1)]? = some v := by
        rintro ⟨p, j⟩
        rcases Nat.lt_trichotomy j i with hlt | rfl | hlt
        · simp [Nat.ne_of_lt hlt, Nat.not_le.2 hlt, Nat.not_le.2 (Nat.lt_succ_of_lt hlt)]
        · simp [Nat.not_succ_le_self j]
        · have hsub : j - i = (j - (i + 1)) + 1 := by omega
          simp [hsub, Nat.ne_of_gt hlt, Nat.le_of_lt hlt, Nat.succ_le_of_lt hlt]
      split
      · rename_i hw
        rw [List.filter_filter]
        apply List.filter_congr
        intro u _
        rw [← Bool.decide_and, decide_eq_decide, hslots]
        simp only [hw, and_true, not_or, ne_eq]
        exact and_comm
      · rename_i hw
        apply List.filter_congr
        intro u _
        simp only [hslots, hw, and_false, false_or]

theorem removeUses_eq (op : OpId) :
    ∀ (i : Nat) (vs : List ValueId) (g : Graph),
      removeUses op i vs g = { g with useLists := (removeUses op i vs g).useLists }
  | _, [], g => rfl
  | i, w :: rest, g => by
      rw [removeUses, removeUses_eq op (i + 1) rest]
      rfl

theorem slot_detach (o p : OpId) : (g.detach o).slot p =
    if o = p then (g.slot p).map fun d => { d with block := none } else g.slot p :=
  slot_modifyOp _ _ _ _

theorem slot_bury (o p : OpId) : (g.bury o).slot p =
    if o = p then (g.slot p).map fun d => { d with erased := true } else g.slot p := by
  unfold bury
  split
  · rename_i hnone
    split
    · rename_i heq
      subst heq
      rw [slot, hnone]
      rfl
    · rfl
  · rw [slot_modifyOp, removeUses_eq]
    rfl

theorem uses_bury (o : OpId) (v : ValueId) : (g.bury o).uses v =
    (g.uses v).filter fun u => ¬(u.user = o ∧ g.written? u = some v) := by
  unfold bury
  split
  · rename_i hnone
    symm
    rw [List.filter_eq_self]
    intro u _
    apply decide_eq_true
    rintro ⟨rfl, hw⟩
    rw [written?, slot, hnone] at hw
    cases hw
  · rename_i d hd
    rw [uses_modifyOp, uses_removeUses]
    apply List.filter_congr
    intro u _
    have hiff : u.user = o ∧ 0 ≤ u.index ∧ d.operands[u.index - 0]? = some v ↔
        u.user = o ∧ g.written? u = some v := by
      constructor
      · rintro ⟨rfl, -, h⟩
        exact ⟨rfl, by rw [written?_of_slot (slot_eq_ok.2 hd)]; exact h⟩
      · rintro ⟨rfl, h⟩
        rw [written?_of_slot (slot_eq_ok.2 hd)] at h
        exact ⟨rfl, Nat.zero_le _, h⟩
    simp only [hiff]

theorem bury_eq (o : OpId) :
    g.bury o = { g with ops := (g.bury o).ops, useLists := (g.bury o).useLists } := by
  unfold bury
  split
  · rfl
  · rw [removeUses_eq]
    rfl

theorem forIn_guard {l : List ValueId} {bad : ValueId → Prop} [DecidablePred bad]
    {f : ValueId → Fault} {r : PUnit.{1}} :
    (forIn l PUnit.unit fun v _ =>
      if bad v then do
        throw (f v)
        pure (ForInStep.yield PUnit.unit)
      else (pure (ForInStep.yield PUnit.unit) : Except Fault _)) = .ok r ↔ ∀ v ∈ l, ¬bad v := by
  cases r
  induction l with
  | nil => simp
  | cons v l ih =>
    rw [List.forIn_cons, List.forall_mem_cons, ← ih]
    by_cases hv : bad v
    · simp [hv]
    · simp [hv]

@[simp]
theorem size_blocks_unlist (o : OpId) (home : Option BlockId) :
    (g.unlist o home).blocks.size = g.blocks.size := by
  cases home with
  | none => rfl
  | some b => exact Array.size_modify

/-- When an erasure succeeds.  The operation has left its block before the rest begins. -/
theorem erase_eq_ok {o : OpId} : g.erase o = .ok g' ↔
    ∃ d, g.op o = .ok d ∧ (∀ v ∈ d.results, g.uses v = []) ∧
      eraseDetachedTo (g.blocks.size + 1) (g.unlist o d.block) o = .ok g' := by
  simp only [erase, bind_eq_ok, results, size_blocks_unlist]
  constructor
  · rintro ⟨_, ⟨d, hd, h⟩, _, hfree, d', hd', h'⟩
    rw [hd] at hd'
    cases hd'
    cases h
    refine ⟨d, hd, ?_, h'⟩
    intro v hv
    simpa [useCount] using forIn_guard.1 hfree v hv
  · rintro ⟨d, hd, hfree, h⟩
    refine ⟨d.results, ⟨d, hd, rfl⟩, ⟨⟩, ?_, d, hd, h⟩
    apply forIn_guard.2
    intro v hv
    simp [useCount, hfree v hv]

end Peephole.Graph
