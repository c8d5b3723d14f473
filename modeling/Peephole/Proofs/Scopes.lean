import Peephole.Graph.Scope
import Peephole.Proofs.Nesting

/-!
# Lexical scope

`Graph.Visible g v o` is what availability is meant to be: `v` is an argument of the block
of `o`, a result of an earlier operation there, or visible at the operation around.  The
search for a value stops at the first block that makes it, and this loses nothing: a
block cannot be both around an operation and the one it is in (`Linked.inScope_ok`).

The rest is what rules need to know when they move values.  What is visible at an
operation is visible at the later ones of its block (`Visible.later`), and what is
visible after an operation is visible wherever its results are (`Visible.through`).
-/

namespace Peephole

/-! ## Order in a list -/

section Order

variable {l₁ l₂ l : List OpId} {p q o : OpId}

/-- In a list without repetitions, what comes before an element is on its left. -/
theorem before_iff (h : (l₁ ++ q :: l₂).Nodup) : [p, q].Sublist (l₁ ++ q :: l₂) ↔ p ∈ l₁ := by
  constructor
  · intro hs
    induction l₁ with
    | nil =>
      have hq := (List.nodup_cons.1 h).1
      cases hs with
      | cons _ hs => exact absurd (hs.subset (.tail p (.head []))) hq
      | cons_cons _ hs => exact absurd (hs.subset (.head [])) hq
    | cons a l₁ ih =>
      cases hs with
      | cons _ hs => exact .tail a (ih (List.nodup_cons.1 h).2 hs)
      | cons_cons _ hs => exact .head l₁
  · intro hp
    exact (List.singleton_sublist.2 hp).append (List.singleton_sublist.2 (.head l₂))

theorem after_iff (h : (l₁ ++ q :: l₂).Nodup) : [q, o].Sublist (l₁ ++ q :: l₂) ↔ o ∈ l₂ := by
  constructor
  · intro hs
    induction l₁ with
    | nil =>
      have hq := (List.nodup_cons.1 h).1
      cases hs with
      | cons _ hs => exact absurd (hs.subset (.head [o])) hq
      | cons_cons _ hs => exact hs.subset (.head [])
    | cons a l₁ ih =>
      cases hs with
      | cons _ hs => exact ih (List.nodup_cons.1 h).2 hs
      | cons_cons _ hs =>
        refine absurd ?_ (List.nodup_cons.1 h).1
        exact List.mem_append_right l₁ (.head l₂)
  · intro ho
    have hs : [q, o].Sublist (q :: l₂) := (List.singleton_sublist.2 ho).cons_cons q
    exact hs.trans (List.sublist_append_right l₁ _)

theorem before_trans (h : l.Nodup) (hp : [p, q].Sublist l) (ho : [q, o].Sublist l) :
    [p, o].Sublist l := by
  obtain ⟨l₁, l₂, rfl⟩ := List.append_of_mem (ho.subset (.head [o]))
  rw [before_iff h] at hp
  rw [after_iff h] at ho
  exact (List.singleton_sublist.2 hp).append (List.singleton_sublist.2 (.tail q ho))

theorem not_before_self (h : l.Nodup) : ¬[o, o].Sublist l := by
  intro hs
  obtain ⟨l₁, l₂, rfl⟩ := List.append_of_mem (hs.subset (.head [o]))
  have ho := (before_iff h).1 hs
  exact (List.disjoint_of_nodup_append h) ho (.head l₂)

/-- The positions of two elements say which of them comes first. -/
theorem before_iff_idxOf? {i j : Nat} (h : l.Nodup) (hi : l.idxOf? p = some i)
    (hj : l.idxOf? o = some j) : [p, o].Sublist l ↔ i < j := by
  obtain ⟨hilt, hp, -⟩ := List.idxOf?_eq_some_iff.1 hi
  obtain ⟨hjlt, ho, -⟩ := List.idxOf?_eq_some_iff.1 hj
  have hl : l.take j ++ o :: l.drop (j + 1) = l := by
    rw [← ho, ← List.drop_eq_getElem_cons hjlt, List.take_append_drop]
  have hmem : p ∈ l.take j ↔ i < j := by
    rw [List.mem_take_iff_getElem]
    constructor
    · rintro ⟨k, hk, hkp⟩
      have hki : k = i := h.getElem_inj_iff.1 (hkp.trans hp.symm)
      omega
    · intro hlt
      exact ⟨i, by omega, hp⟩
  rw [← hmem, ← before_iff (hl.symm ▸ h), hl]

end Order

namespace Graph

variable {g g' : Graph}

/-! ## Order in a block -/

/-- The operation `p` comes before `o` in the block they are in. -/
def Precedes (g : Graph) (p o : OpId) : Prop := ∃ b B, g.block b = .ok B ∧ [p, o].Sublist B.ops

namespace Linked

variable {o p q : OpId}

/-- An operation is listed by one block only. -/
theorem block_unique (hg : g.Linked) {b c : BlockId} {B C : Block} (hB : g.block b = .ok B)
    (hC : g.block c = .ok C) (ho : o ∈ B.ops) (ho' : o ∈ C.ops) : b = c ∧ B = C := by
  obtain ⟨d, hd, hb⟩ := hg.placed.2 ⟨B, hB, ho⟩
  obtain ⟨d', hd', hc⟩ := hg.placed.2 ⟨C, hC, ho'⟩
  rw [hd] at hd'
  cases hd'
  rw [hb] at hc
  cases hc
  rw [hB] at hC
  cases hC
  exact ⟨rfl, rfl⟩

theorem precedes_trans (hg : g.Linked) (hpq : g.Precedes p q) (hqo : g.Precedes q o) :
    g.Precedes p o := by
  obtain ⟨b, B, hB, hpq⟩ := hpq
  obtain ⟨c, C, hC, hqo⟩ := hqo
  obtain ⟨rfl, rfl⟩ :=
    hg.block_unique hB hC (hpq.subset (.tail p (.head []))) (hqo.subset (.head _))
  exact ⟨b, B, hB, before_trans (hg.nodupOps hB) hpq hqo⟩

theorem not_precedes_self (hg : g.Linked) : ¬g.Precedes o o := by
  rintro ⟨b, B, hB, h⟩
  exact not_before_self (hg.nodupOps hB) h

theorem ne_of_precedes (hg : g.Linked) (h : g.Precedes p o) : p ≠ o := by
  rintro rfl
  exact hg.not_precedes_self h

theorem precedes_live (hg : g.Linked) (h : g.Precedes p o) :
    ∃ x y b, g.op p = .ok x ∧ g.op o = .ok y ∧ x.block = some b ∧ y.block = some b := by
  obtain ⟨b, B, hB, h⟩ := h
  obtain ⟨x, hx, hxb⟩ := hg.placed.2 ⟨B, hB, h.subset (.head _)⟩
  obtain ⟨y, hy, hyb⟩ := hg.placed.2 ⟨B, hB, h.subset (.tail p (.head _))⟩
  exact ⟨x, y, b, hx, hy, hxb, hyb⟩

/-- Operations of one block are in one region. -/
theorem regionOf?_of_precedes (hg : g.Linked) (h : g.Precedes p o) :
    g.regionOf? p = g.regionOf? o := by
  obtain ⟨x, y, b, hx, hy, hxb, hyb⟩ := hg.precedes_live h
  simp only [regionOf?, hx, hy, ok_bind, hxb, hyb]

theorem ownerOf?_of_precedes (hg : g.Linked) (h : g.Precedes p o) :
    g.ownerOf? p = g.ownerOf? o := by
  rw [ownerOf?, ownerOf?, hg.regionOf?_of_precedes h]

end Linked

/-! ## Visible values -/

/-- The value is visible at an operation. -/
inductive Visible (g : Graph) (v : ValueId) : OpId → Prop
  | argument {o : OpId} {b : BlockId} {B : Block} : g.block b = .ok B → o ∈ B.ops → v ∈ B.args →
      Visible g v o
  | earlier {o p : OpId} {x : Op} : g.Precedes p o → g.op p = .ok x → v ∈ x.results →
      Visible g v o
  | outer {o p : OpId} : g.ownerOf? o = .ok (some p) → Visible g v p → Visible g v o

namespace Linked

variable {v : ValueId} {o p : OpId}

theorem origin_result (hg : g.Linked) {x : Op} (hx : g.slot p = .ok x) (hv : v ∈ x.results) :
    ∃ y i, g.value v = .ok y ∧ y.origin = .result p i := by
  obtain ⟨i, hi⟩ := List.mem_iff_getElem?.1 hv
  obtain ⟨y, hy, horigin⟩ := hg.result.2 ⟨x, hx, hi⟩
  exact ⟨y, i, hy, horigin⟩

theorem origin_argument (hg : g.Linked) {b : BlockId} {B : Block} (hB : g.block b = .ok B)
    (hv : v ∈ B.args) : ∃ y i, g.value v = .ok y ∧ y.origin = .argument b i := by
  obtain ⟨i, hi⟩ := List.mem_iff_getElem?.1 hv
  obtain ⟨y, hy, horigin⟩ := hg.argument.2 ⟨B, hB, hi⟩
  exact ⟨y, i, hy, horigin⟩

theorem definer?_of_result (hg : g.Linked) {x : Op} (hx : g.slot p = .ok x)
    (hv : v ∈ x.results) : g.definer? v = .ok (some p) := by
  obtain ⟨y, i, hy, horigin⟩ := hg.origin_result hx hv
  simp [definer?, origin, hy, horigin, Origin.op?]

theorem definer?_eq_some (hg : g.Linked) (h : g.definer? v = .ok (some p)) :
    ∃ x, g.slot p = .ok x ∧ v ∈ x.results := by
  simp only [definer?, origin, bind_eq_ok, pure_eq_ok, Except.ok.injEq] at h
  obtain ⟨_, ⟨y, hy, rfl⟩, hp⟩ := h
  cases horigin : y.origin with
  | argument b i =>
    rw [horigin] at hp
    cases hp
  | result q i =>
    rw [horigin] at hp
    cases hp
    obtain ⟨x, hx, hi⟩ := hg.result.1 ⟨y, hy, horigin⟩
    exact ⟨x, hx, List.mem_of_getElem? hi⟩

/-- A block argument is no result. -/
theorem argument_not_result (hg : g.Linked) {b : BlockId} {B : Block} {x : Op}
    (hB : g.block b = .ok B) (hv : v ∈ B.args) (hx : g.slot p = .ok x) : v ∉ x.results := by
  intro hv'
  obtain ⟨y, i, hy, hi⟩ := hg.origin_argument hB hv
  obtain ⟨y', j, hy', hj⟩ := hg.origin_result hx hv'
  rw [hy] at hy'
  cases hy'
  rw [hi] at hj
  cases hj

/-- A value is a result of one operation at most. -/
theorem result_unique (hg : g.Linked) {x y : Op} (hx : g.slot p = .ok x) (hv : v ∈ x.results)
    (hy : g.slot o = .ok y) (hv' : v ∈ y.results) : p = o := by
  obtain ⟨z, i, hz, hi⟩ := hg.origin_result hx hv
  obtain ⟨z', j, hz', hj⟩ := hg.origin_result hy hv'
  rw [hz] at hz'
  cases hz'
  rw [hi] at hj
  cases hj
  rfl

end Linked

namespace Visible

variable {v w : ValueId} {o p : OpId}

/-- What is visible at an operation is visible at the later ones of its block. -/
theorem later (hg : g.Linked) (h : g.Visible v p) (hpo : g.Precedes p o) : g.Visible v o := by
  cases h with
  | argument hB hp hv =>
    obtain ⟨c, C, hC, hs⟩ := hpo
    obtain ⟨rfl, rfl⟩ := hg.block_unique hB hC hp (hs.subset (.head _))
    exact .argument hB (hs.subset (.tail p (.head _))) hv
  | earlier hqp hx hv => exact .earlier (hg.precedes_trans hqp hpo) hx hv
  | outer howner h => exact .outer ((hg.ownerOf?_of_precedes hpo).symm.trans howner) h

/-- What is visible after an operation is visible wherever its results are. -/
theorem through (hg : g.Linked) {x : Op} (hx : g.slot p = .ok x) (hv : v ∈ x.results)
    (hw : ∀ q, g.Precedes p q → g.Visible w q) (h : g.Visible v o) : g.Visible w o := by
  induction h with
  | argument hB _ hv' => exact absurd hv (hg.argument_not_result hB hv' hx)
  | earlier hpo hy hv' =>
    obtain rfl := hg.result_unique hx hv (slot_of_op hy) hv'
    exact hw _ hpo
  | outer howner _ ih => exact .outer howner ih

/-- A value that is visible is made at no deeper level. -/
theorem level_le {root : OpId} {m k : Nat} {x : Op} (hg : g.Linked)
    (hroot : g.ownerOf? root = .ok none) (hx : g.slot p = .ok x) (hv : v ∈ x.results)
    (hp : Within g root m p) (h : g.Visible v o) (ho : Within g root k o) : m ≤ k := by
  induction h generalizing k with
  | argument hB _ hv' => exact absurd hv (hg.argument_not_result hB hv' hx)
  | earlier hpo hy hv' =>
    obtain rfl := hg.result_unique hx hv (slot_of_op hy) hv'
    have howner := hg.ownerOf?_of_precedes hpo
    cases ho with
    | root =>
      rw [hroot] at howner
      cases hp with
      | root => exact Nat.le_refl 0
      | step howner' _ =>
        rw [howner] at howner'
        cases howner'
    | step ho hn =>
      have hno : ¬g.Inside root root := not_inside_of_no_owner hroot
      exact Nat.le_of_eq (hp.level_unique hno (.step (howner.trans ho) hn))
  | outer howner _ ih =>
    cases ho with
    | root =>
      rw [hroot] at howner
      cases howner
    | step ho hn =>
      rw [howner] at ho
      cases ho
      exact Nat.le_succ_of_le (ih hn)

/-- Nothing is visible at an operation in no block. -/
theorem not_detached (hg : g.Linked) (ho : g.Detached o) : ¬g.Visible v o := by
  obtain ⟨d, hd, hb⟩ := id ho
  intro h
  cases h with
  | argument hB hmem _ =>
    obtain ⟨d', hd', hb'⟩ := hg.placed.2 ⟨_, hB, hmem⟩
    rw [hd] at hd'
    cases hd'
    rw [hb] at hb'
    cases hb'
  | earlier hpo _ _ =>
    obtain ⟨_, d', b, -, hd', -, hb'⟩ := hg.precedes_live hpo
    rw [hd] at hd'
    cases hd'
    rw [hb] at hb'
    cases hb'
  | outer howner _ =>
    rw [ho.no_owner] at howner
    cases howner

/-- The definer of a value that is visible is live. -/
theorem definer (hg : g.Linked) {x : Op} (hx : g.slot p = .ok x) (hv : v ∈ x.results)
    (h : g.Visible v o) : g.op p = .ok x := by
  induction h with
  | argument hB _ hv' => exact absurd hv (hg.argument_not_result hB hv' hx)
  | earlier _ hy hv' =>
    obtain rfl := hg.result_unique hx hv (slot_of_op hy) hv'
    rw [slot_of_op hy] at hx
    cases hx
    exact hy
  | outer _ _ ih => exact ih

/-- A value that is visible and made at the same level is made before, in the same block. -/
theorem precedes_of_level {root : OpId} {n : Nat} {x : Op} (hg : g.Linked)
    (hroot : g.ownerOf? root = .ok none) (hx : g.slot p = .ok x) (hv : v ∈ x.results)
    (hp : Within g root n p) (ho : Within g root n o) (h : g.Visible v o) : g.Precedes p o := by
  cases h with
  | argument hB _ hv' => exact absurd hv (hg.argument_not_result hB hv' hx)
  | earlier hpo hy hv' =>
    obtain rfl := hg.result_unique hx hv (slot_of_op hy) hv'
    exact hpo
  | outer howner h =>
    cases ho with
    | root =>
      rw [hroot] at howner
      cases howner
    | step howner' hn =>
      -- one level up the value would be made below where it is seen
      rw [howner] at howner'
      cases howner'
      have := h.level_le hg hroot hx hv hp hn
      omega

/-- A value that is visible and made in the same region is made before, in the same block. -/
theorem precedes {root : OpId} (hg : g.Linked) (hroot : g.Detached root) {x : Op}
    (hx : g.slot p = .ok x) (hv : v ∈ x.results) (ho : g.Inside root o)
    (hregion : g.regionOf? p = g.regionOf? o) (h : g.Visible v o) : g.Precedes p o := by
  obtain ⟨n, ho⟩ := ho
  cases ho with
  | @step _ _ q howner hn =>
    have hp : g.ownerOf? p = .ok (some q) := by
      rw [ownerOf?, hregion]
      exact howner
    exact h.precedes_of_level hg hroot.no_owner hx hv (.step hp hn) (.step howner hn)

/-- The results of an operation are visible neither at it nor before it. -/
theorem not_before {root : OpId} (hg : g.Linked) (hroot : g.Detached root) {x : Op}
    (hx : g.slot p = .ok x) (hv : v ∈ x.results) (ho : g.Inside root o)
    (hop : o = p ∨ g.Precedes o p) : ¬g.Visible v o := by
  intro h
  rcases hop with rfl | hop
  · exact hg.not_precedes_self (h.precedes hg hroot hx hv ho rfl)
  · have hpo := h.precedes hg hroot hx hv ho (hg.regionOf?_of_precedes hop).symm
    exact hg.not_precedes_self (hg.precedes_trans hop hpo)

end Visible

/-! ## The search for a value -/

theorem position?_eq_ok {o : OpId} {d : Op} {b : BlockId} {B : Block} (hd : g.op o = .ok d)
    (hb : d.block = some b) (hB : g.block b = .ok B) : g.position? o = .ok (B.ops.idxOf? o) := by
  simp [position?, hd, hb, hB]

theorem levelOf_argument {v : ValueId} {y : Value} {c : BlockId} {i : Nat} (o : OpId) (b : BlockId)
    (hy : g.value v = .ok y) (horigin : y.origin = .argument c i) :
    g.levelOf v o b = .ok (if c = b then .here true else .above) := by
  simp [levelOf, origin, hy, horigin]

/-- A value that an operation of the block makes is found there. -/
theorem levelOf_here {v : ValueId} {y : Value} {p : OpId} {x : Op} {i : Nat} {o : OpId} {d : Op}
    {b : BlockId} {B : Block} (hy : g.value v = .ok y) (horigin : y.origin = .result p i)
    (hx : g.op p = .ok x) (hxb : x.block = some b) (hd : g.op o = .ok d) (hdb : d.block = some b)
    (hB : g.block b = .ok B) (hnodup : B.ops.Nodup) (hp : p ∈ B.ops) (ho : o ∈ B.ops) :
    ∃ answer : Bool, (answer = true ↔ [p, o].Sublist B.ops) ∧
      g.levelOf v o b = .ok (.here answer) := by
  obtain ⟨hs, he⟩ := op_eq_ok.1 hx
  obtain ⟨i', hi'⟩ := Option.isSome_iff_exists.1 (List.isSome_idxOf?.2 hp)
  obtain ⟨j', hj'⟩ := Option.isSome_iff_exists.1 (List.isSome_idxOf?.2 ho)
  refine ⟨decide (i' < j'), ?_, ?_⟩
  · rw [decide_eq_true_iff, ← before_iff_idxOf? hnodup hi' hj']
  · simp [levelOf, origin, hy, horigin, hs, he, hxb, position?_eq_ok hx hxb hB,
      position?_eq_ok hd hdb hB, hi', hj', positionLt]

/-- A value that an operation elsewhere makes is not found. -/
theorem levelOf_elsewhere {v : ValueId} {y : Value} {p : OpId} {x : Op} {i : Nat} (o : OpId)
    {b : BlockId} (hy : g.value v = .ok y) (horigin : y.origin = .result p i)
    (hx : g.slot p = .ok x) (hout : ¬(x.erased = false ∧ x.block = some b)) :
    g.levelOf v o b = .ok .above := by
  simp [levelOf, origin, hy, horigin, hx, hout]

theorem levelOf_result {v : ValueId} {y : Value} {p : OpId} {x : Op} {i : Nat} {o : OpId} {d : Op}
    {b : BlockId} {B : Block} (hg : g.Linked) (hy : g.value v = .ok y)
    (horigin : y.origin = .result p i) (hx : g.slot p = .ok x) (hd : g.op o = .ok d)
    (hdb : d.block = some b) (hB : g.block b = .ok B) :
    ∃ answer : Bool, (answer = true ↔ g.Precedes p o) ∧ g.levelOf v o b =
      .ok (if x.erased = false ∧ x.block = some b then .here answer else .above) := by
  by_cases hin : x.erased = false ∧ x.block = some b
  · obtain ⟨he, hxb⟩ := id hin
    have hop : g.op p = .ok x := op_eq_ok.2 ⟨hx, he⟩
    obtain ⟨B', hB', hp⟩ := hg.placed.1 ⟨x, hop, hxb⟩
    rw [hB] at hB'
    cases hB'
    obtain ⟨B', hB', ho⟩ := hg.placed.1 ⟨d, hd, hdb⟩
    rw [hB] at hB'
    cases hB'
    obtain ⟨answer, hanswer, hlevel⟩ :=
      levelOf_here hy horigin hop hxb hd hdb hB (hg.nodupOps hB) hp ho
    refine ⟨answer, hanswer.trans ?_, hlevel.trans (by rw [if_pos hin])⟩
    constructor
    · intro hs
      exact ⟨b, B, hB, hs⟩
    · rintro ⟨c, C, hC, hs⟩
      obtain ⟨rfl, rfl⟩ := hg.block_unique hB hC hp (hs.subset (.head _))
      exact hs
  · refine ⟨false, ?_, ?_⟩
    · refine ⟨fun h => absurd h Bool.false_ne_true, ?_⟩
      intro hpo
      obtain ⟨x', d', c, hx', hd', hxc, hdc⟩ := hg.precedes_live hpo
      obtain ⟨hs, he⟩ := op_eq_ok.1 hx'
      rw [hx] at hs
      cases hs
      rw [hd] at hd'
      cases hd'
      exact absurd ⟨he, hxc.trans (hdc.symm.trans hdb)⟩ hin
    · rw [levelOf_elsewhere o hy horigin hx hin, if_neg hin]

/-- One level of the search: the value is made here, and the answer is right, or it is as
visible as at the owner, if there is one. -/
theorem Linked.levelOf_ok {v : ValueId} {y : Value} {root o : OpId} {n : Nat} {d : Op}
    {b : BlockId} {B : Block} (hg : g.Linked) (hroot : g.ownerOf? root = .ok none)
    (hn : Within g root n o) (hy : g.value v = .ok y) (hd : g.op o = .ok d)
    (hdb : d.block = some b) (hB : g.block b = .ok B) :
    (∃ answer, g.levelOf v o b = .ok (.here answer) ∧ (answer = true ↔ g.Visible v o)) ∨
      g.levelOf v o b = .ok .above ∧
        (g.Visible v o ↔ ∃ p, g.ownerOf? o = .ok (some p) ∧ g.Visible v p) := by
  obtain ⟨B', hB', ho⟩ := hg.placed.1 ⟨d, hd, hdb⟩
  rw [hB] at hB'
  cases hB'
  cases horigin : y.origin with
  | argument c i =>
    obtain ⟨C, hC, hi⟩ := hg.argument.1 ⟨y, hy, horigin⟩
    have hv : v ∈ C.args := List.mem_of_getElem? hi
    have hlevel := levelOf_argument o b hy horigin
    by_cases hc : c = b
    · subst hc
      rw [hB] at hC
      cases hC
      rw [if_pos rfl] at hlevel
      exact .inl ⟨true, hlevel, fun _ => .argument hB ho hv, fun _ => rfl⟩
    · rw [if_neg hc] at hlevel
      refine .inr ⟨hlevel, ?_, fun ⟨p, howner, h⟩ => .outer howner h⟩
      intro h
      cases h with
      | argument hB' ho' hv' =>
        obtain ⟨rfl, rfl⟩ := hg.block_unique hB hB' ho ho'
        obtain ⟨y', j, hy', hj⟩ := hg.origin_argument hB hv'
        rw [hy] at hy'
        cases hy'
        rw [horigin] at hj
        cases hj
        exact absurd rfl hc
      | earlier _ hx hv' => exact absurd hv' (hg.argument_not_result hC hv (slot_of_op hx))
      | outer howner h => exact ⟨_, howner, h⟩
  | result q i =>
    obtain ⟨x, hx, hi⟩ := hg.result.1 ⟨y, hy, horigin⟩
    have hv : v ∈ x.results := List.mem_of_getElem? hi
    obtain ⟨answer, hanswer, hlevel⟩ := levelOf_result hg hy horigin hx hd hdb hB
    by_cases hin : x.erased = false ∧ x.block = some b
    · have hq : g.op q = .ok x := op_eq_ok.2 ⟨hx, hin.1⟩
      rw [if_pos hin] at hlevel
      refine .inl ⟨answer, hlevel, hanswer.trans ⟨fun h => .earlier h hq hv, ?_⟩⟩
      intro h
      cases h with
      | argument hB' _ hv' => exact absurd hv (hg.argument_not_result hB' hv' hx)
      | earlier hpo hx' hv' =>
        obtain rfl := hg.result_unique hx hv (slot_of_op hx') hv'
        exact hpo
      | @outer _ p howner h =>
        -- the owner would have to be as deep as what it owns
        have hsame : g.ownerOf? q = .ok (some p) := by
          rw [← howner]
          simp only [ownerOf?, regionOf?, hq, hd, ok_bind, hin.2, hdb]
        cases hn with
        | root =>
          rw [hroot] at howner
          cases howner
        | step howner' hp =>
          rw [howner] at howner'
          cases howner'
          have := h.level_le hg hroot hx hv (.step hsame hp) hp
          omega
    · rw [if_neg hin] at hlevel
      refine .inr ⟨hlevel, ?_, fun ⟨p, howner, h⟩ => .outer howner h⟩
      intro h
      cases h with
      | argument hB' _ hv' => exact absurd hv (hg.argument_not_result hB' hv' hx)
      | earlier hpo hx' hv' =>
        obtain rfl := hg.result_unique hx hv (slot_of_op hx') hv'
        obtain ⟨x', d', c, hx', hd', hxc, hdc⟩ := hg.precedes_live hpo
        obtain ⟨hs, he⟩ := op_eq_ok.1 hx'
        rw [hx] at hs
        cases hs
        rw [hd] at hd'
        cases hd'
        exact absurd ⟨he, hxc.trans (hdc.symm.trans hdb)⟩ hin
      | outer howner h => exact ⟨_, howner, h⟩

theorem Linked.inScopeTo_ok {v : ValueId} {y : Value} {root : OpId} (hg : g.Linked)
    (hroot : g.ownerOf? root = .ok none) (hy : g.value v = .ok y) {n : Nat} {o : OpId}
    (h : Within g root n o) :
    ∀ {k : Nat}, n < k → ∃ answer, g.inScopeTo v k o = .ok answer ∧
      (answer = true ↔ g.Visible v o) := by
  induction h with
  | root =>
    intro k hk
    obtain ⟨d, hd⟩ := op_of_ownerOf? hroot
    cases k with
    | zero => omega
    | succ k =>
      cases hb : d.block with
      | none =>
        refine ⟨false, by simp [inScopeTo, hd, hb], ?_⟩
        simpa using Visible.not_detached hg ⟨d, hd, hb⟩
      | some b =>
        obtain ⟨B, hB, -⟩ := hg.placed.1 ⟨d, hd, hb⟩
        obtain ⟨answer, hlevel, hiff⟩ | ⟨hlevel, hiff⟩ := hg.levelOf_ok hroot .root hy hd hb hB
        · exact ⟨answer, by simp [inScopeTo, hd, hb, hlevel], hiff⟩
        · refine ⟨false, by simp [inScopeTo, hd, hb, hlevel, hroot], ?_⟩
          simp [hiff, hroot]
  | @step n o p howner hp ih =>
    intro k hk
    obtain ⟨r, R, hr, -⟩ := ownerOf?_eq_some.1 howner
    obtain ⟨d, b, B, hd, hdb, hB, -⟩ := regionOf?_eq_some.1 hr
    cases k with
    | zero => omega
    | succ k =>
      obtain ⟨answer, hlevel, hiff⟩ | ⟨hlevel, hiff⟩ :=
        hg.levelOf_ok hroot (.step howner hp) hy hd hdb hB
      · exact ⟨answer, by simp [inScopeTo, hd, hdb, hlevel], hiff⟩
      · obtain ⟨answer, hanswer, hvisible⟩ := ih (Nat.lt_of_succ_lt_succ hk)
        refine ⟨answer, by simp [inScopeTo, hd, hdb, hlevel, howner, hanswer], ?_⟩
        rw [hvisible, hiff]
        simp [howner]

/-- The search for a value that exists ends where the chain of owners does, and finds the
value just where it is visible. -/
theorem Linked.inScope_ok {v : ValueId} {y : Value} {o : OpId} (hg : g.Linked)
    (hy : g.value v = .ok y) (h : g.Topped o) :
    ∃ answer, g.inScope v o = .ok answer ∧ (answer = true ↔ g.Visible v o) := by
  obtain ⟨top, n, hn, htop⟩ := h
  obtain ⟨d, hd⟩ := op_of_ownerOf? htop
  have hlevel := hn.level_lt hd (not_inside_of_no_owner htop)
  exact hg.inScopeTo_ok htop hy hn (Nat.lt_succ_of_lt hlevel)

end Graph

end Peephole
