import Peephole.Proofs.Construction
import Peephole.Proofs.Listings
import Peephole.Proofs.RowSweeps
import Peephole.Proofs.Series

/-!
# Folding a series

A sweep over a series of rotations about one axis fuses them into one.  It adds their angles on the
way, folds the sums, and takes away the constants that are no longer read.  What it leaves is one
constant with the sum of all angles, added from the left, and one rotation by it.

`Layout.Folding` is what holds in the middle of such a sweep.  An angle that has been added up, and
maybe folded in part, has an *amount* (`Graph.Amount`), which the steps keep.  In the block of the
function the constants of the start stand before those that are for later, and what is new stands
after these (`Folding.listed`).  `Folding.finished` is what is left when nothing applies.
-/

namespace Peephole

/-- The sum of some numbers, added from the left. -/
def total : List Binary64 → Binary64
  | [] => default
  | x :: xs => xs.foldl (· + ·) x

theorem total_concat {xs : List Binary64} (h : xs ≠ []) (y : Binary64) :
    total (xs ++ [y]) = total xs + y := by
  cases xs with
  | nil => exact absurd rfl h
  | cons x xs => simp [total]

namespace Graph

/-! ## Amounts -/

/-- The value is a constant, or comes from constants by sums, and this is what they add up to. -/
inductive Amount (g : Graph) : ValueId → Binary64 → Prop
  | const {o : OpId} {x : Binary64} {v : ValueId} : g.Computes o (.const x) v → Amount g v x
  | sum {o : OpId} {a b v : ValueId} {x y : Binary64} : g.Computes o (.sum a b) v →
      Amount g a x → Amount g b y → Amount g v (x + y)

namespace Amount

variable {g g' g₁ g₂ : Graph} {root o p p' n : OpId} {a b u v w : ValueId} {c d x : Binary64}
  {l : Location}

theorem eq_const (h : g.Amount v x) (hg : g.Linked) (hf : g.Computes o (.const c) v) : x = c := by
  cases h with
  | const hf' =>
    cases hf'.formula_unique hg hf
    rfl
  | sum hf' => cases hf'.formula_unique hg hf

theorem carry (h : g.Amount v x)
    (hkept : ∀ {o f w}, g.Computes o f w → f.kind.isPure = true → g'.Computes o f w) :
    g'.Amount v x := by
  induction h with
  | const hf => exact .const (hkept hf rfl)
  | sum hf _ _ ihl ihr => exact .sum (hkept hf rfl) ihl ihr

/-- A sum that is folded keeps its amount, under another name. -/
theorem folded (h : g.Amount u x) (hg : g.Linked) (hf : g.Computes o (.sum a b) v)
    (hp : g.Computes p (.const c) a) (hp' : g.Computes p' (.const d) b)
    (hi : Inserted g o (.const l (c + d)) n g₁) (hn : g₁.Computes n (.const (c + d)) w)
    (hr : Redirected g₁ v w g₂) (he : Erased g₂ o g') : g'.Amount (if u = v then w else u) x := by
  have hno : n ≠ o := hi.ne_of_computes hf
  have hn' : g'.Computes n (.const (c + d)) w := he.computes (hr.computes hn) hno
  induction h with
  | @const z x u hz =>
    have hzo : z ≠ o := by
      rintro rfl
      cases (hz.unique hf).1
    have huv : u ≠ v := by
      rintro rfl
      exact hzo (hz.op_unique hg hf)
    rw [if_neg huv]
    exact .const (he.computes (hr.computes (hi.computes hz)) hzo)
  | @sum z a' b' u x y hz hx hy ihl ihr =>
    by_cases hzo : z = o
    · subst hzo
      obtain ⟨hform, rfl⟩ := hz.unique hf
      cases hform
      rw [if_pos rfl, hx.eq_const hg hp, hy.eq_const hg hp']
      exact .const hn'
    · have huv : u ≠ v := by
        rintro rfl
        exact hzo (hz.op_unique hg hf)
      rw [if_neg huv]
      exact .sum (he.computes (hr.computes (hi.computes hz)) hzo) ihl ihr

/-- A constant that nobody reads is in no other amount. -/
theorem unused (h : g.Amount u x) (hf : g.Computes o (.const c) v)
    (hfree : ∀ r, g.held? r ≠ some v) (he : Erased g o g') (hu : u ≠ v) : g'.Amount u x := by
  induction h with
  | @const z x u hz =>
    refine .const (he.computes hz ?_)
    rintro rfl
    exact hu (hz.unique hf).2
  | @sum z a b u x y hz _ _ ihl ihr =>
    have hzo : z ≠ o := by
      rintro rfl
      cases (hz.unique hf).1
    refine .sum (he.computes hz hzo) (ihl ?_) (ihr ?_)
    · rintro rfl
      exact hfree _ (hz.held? 0)
    · rintro rfl
      exact hfree _ (hz.held? 1)

/-- When nothing applies, amounts are constants. -/
theorem folded_up (h : g.Amount v x) (hg : g.Valid root)
    (hsums : ∀ {o a b v c d p p'}, g.Inside root o → g.Computes o (.sum a b) v →
      g.Computes p (.const c) a → ¬g.Computes p' (.const d) b)
    (hin : ∀ {o f}, g.Computes o f v → g.Inside root o) : ∃ o, g.Computes o (.const x) v := by
  induction h with
  | const hf => exact ⟨_, hf⟩
  | @sum o a b v x y hf _ _ ihl ihr =>
    have ho := hin hf
    have hoperand : ∀ {w}, w ∈ [a, b] → ∀ {p f}, g.Computes p f w → g.Inside root p := by
      intro w hw p f hp
      have hvisible := hg.operand_visible ho hf hw
      exact hp.inside hg.linked (hvisible.belongs hg.linked hg.detached ho)
    obtain ⟨p, hp⟩ := ihl (hoperand (.head _))
    obtain ⟨p', hp'⟩ := ihr (hoperand (.tail _ (.head _)))
    exact absurd hp' (hsums ho hf hp)

end Amount

/-- An operation that does not read the old value is as it was. -/
theorem Redirected.op {g g' : Graph} {o : OpId} {d : Op} {old new : ValueId}
    (h : Redirected g old new g') (hd : g.op o = .ok d) (hold : old ∉ d.operands) :
    g'.op o = .ok d := by
  have hsame : (d.operands.map fun v => if v = old then new else v) = d.operands := by
    refine (List.map_congr_left fun v hv => if_neg ?_).trans (List.map_id _)
    exact fun heq => hold (heq ▸ hv)
  rw [h.rewired.op_map hd fun i => h.held ⟨o, i⟩, hsame]

/-- Every step makes the function lighter by one. -/
theorem RowStep.weight {β : Type*} {axes : Rules.AxisMatch} {root : OpId} {g g' : Graph}
    {front todo front' todo' : List (Link (List β))}
    (h : RowStep axes root g front todo g' front' todo') (hg : g.Rooted root)
    (hin : ∀ x ∈ front, g.Inside root x.op) : g'.weight root + 1 = g.weight root := by
  have hone : Kind.const.weight = 1 := rfl
  have htwo : Kind.add.weight = 2 := rfl
  cases h with
  | @fused F rest x y n l a b u v input sum g₁ g₂ _ hfy hfx _ hi _ hr he =>
    have hx := hin x (by simp)
    have hg₁ := hi.rooted hg
    have hinsert : g₁.weight root = g.weight root + 2 := hi.weight hg hx
    have hwire := hr.rewired.weight hg₁
    have herase : g₂.weight root = g'.weight root + 3 :=
      he.weight (hr.rewired.rooted hg₁) (hr.rewired.contains (hi.contains (hfx.contains hx)))
    omega
  | @folded _ _ o p p' n l a b v w c d g₁ g₂ _ ho hf _ _ hi _ hr he =>
    have hg₁ := hi.rooted hg
    have hinsert : g₁.weight root = g.weight root + 1 := hi.weight hg ho
    have hwire := hr.rewired.weight hg₁
    have herase : g₂.weight root = g'.weight root + 2 :=
      he.weight (hr.rewired.rooted hg₁) (hr.rewired.contains (hi.contains (hf.contains ho)))
    omega
  | unused ho hf _ he =>
    have herase : g.weight root = g'.weight root + 1 := he.weight hg (hf.contains ho)
    omega

end Graph

namespace Layout

open Peephole.Graph

variable {L : Layout} {g₀ g g' : Graph} {root o p n e : OpId} {axis : Axis} {k : Nat}
  {front todo : List (Link (List Binary64))} {f : Formula} {v w : ValueId} {d : Op}

/-! ## What stays -/

/-- The operation is not for the sweep: it makes the qubit, or is for later. -/
def Fixed (L : Layout) (o : OpId) : Prop :=
  o = L.source ∨ (∃ t ∈ L.keep, t.1 = o) ∨ o ∈ L.rest

namespace Holds

theorem inside_of_fixed (h : L.Holds g root) (ho : L.Fixed o) : g.Inside root o := by
  rcases ho with rfl | ⟨t, ht, rfl⟩ | ho
  · exact h.inside_iff.2 (.inl rfl)
  · exact h.inside_iff.2 (.inr (.inl ⟨t, List.mem_append_right _ ht, rfl⟩))
  · exact h.inside_iff.2 (.inr (.inr (.inr ho)))

/-- No rotation of the row is fixed. -/
theorem row_not_fixed (h : L.Holds g root) (ho : o ∈ L.row.map Link.op) : ¬L.Fixed o := by
  obtain ⟨x, hx, rfl⟩ := List.mem_map.1 ho
  obtain ⟨t, -, u, v, -, hf⟩ := h.angles x hx
  rintro (hsource | ⟨t', ht', heq⟩ | hrest)
  · exact h.not_computes_source (hsource ▸ hf)
  · cases ((heq ▸ hf).unique (h.numbers t' (List.mem_append_right _ ht'))).1
  · -- the operations of the function are listed once
    obtain ⟨l, hl, -, hnodup, -⟩ := h.valid.linked.nestedOps_ok h.valid.detached
    rw [h.nested] at hl
    cases hl
    obtain ⟨-, hnodup⟩ := List.nodup_cons.1 (List.nodup_cons.1 hnodup).2
    exact (List.nodup_append'.1 (List.nodup_append'.1 hnodup).2.1).2.2 ho hrest

/-- The constants have their values. -/
theorem const_exists (h : L.Holds g root) (hv : v ∈ (L.consts ++ L.keep).map (·.2.2)) :
    ¬∀ y, g.value v ≠ .ok y := by
  obtain ⟨t, ht, rfl⟩ := List.mem_map.1 hv
  obtain ⟨y, hy⟩ := (h.numbers t ht).value_ok h.valid.linked
  exact fun hnone => hnone y hy

/-- What is fixed does not read the constants that the qubit is rotated by. -/
theorem not_fixed_of_held (h : L.Holds g root) (hv : v ∈ L.consts.map (·.2.2)) {r : Use}
    (hr : g.held? r = some v) : ¬L.Fixed r.user := by
  obtain ⟨user, i⟩ := r
  rintro (hsource | ⟨t, ht, heq⟩ | hrest)
  · obtain ⟨d, hd, -, hoperands, -⟩ := h.source
    obtain rfl : user = L.source := hsource
    rw [held?_of_op hd, hoperands] at hr
    cases hr
  · obtain rfl : t.1 = user := heq
    rw [(h.numbers t (List.mem_append_right _ ht)).held?] at hr
    cases hr
  · exact (h.outside (h.reads hrest hr)).1 hv

/-- A constant weighs one, and a rotation three. -/
theorem weight_eq (h : L.Holds g root) : g.weight root = 4 * L.consts.length +
    ((L.source :: (L.keep.map (·.1) ++ L.rest)).map g.opWeight).sum := by
  have hone : ∀ t ∈ L.consts, g.opWeight t.1 = 1 := fun t ht =>
    opWeight_of_kind (h.numbers t (List.mem_append_left _ ht)).kind
  have hthree : ∀ x ∈ L.row, g.opWeight x.op = 3 := by
    intro x hx
    obtain ⟨t, -, u, v, -, hf⟩ := h.angles x hx
    exact opWeight_of_kind hf.kind
  have hlen := congrArg List.length h.parts
  rw [List.length_map, List.length_map] at hlen
  rw [weight_eq_sum h.nested, all]
  simp only [List.map_cons, List.map_append, List.map_map, List.sum_cons, List.sum_append,
    Function.comp_def, List.map_congr_left hone, List.map_congr_left hthree, List.map_const',
    List.sum_replicate_nat]
  omega

/-- What computes a constant or a sum and is fixed is a constant for later. -/
theorem fixed_pure (h : L.Holds g root) (ho : L.Fixed o) (hf : g.Computes o f v)
    (hpure : f.kind.isPure = true) : ∃ t ∈ L.keep, t.1 = o ∧ f = .const t.2.1 ∧ v = t.2.2 := by
  rcases ho with rfl | ⟨t, ht, rfl⟩ | ho
  · exact absurd hf h.not_computes_source
  · obtain ⟨hform, hv⟩ := hf.unique (h.numbers t (List.mem_append_right _ ht))
    exact ⟨t, ht, rfl, hform, hv⟩
  · obtain ⟨-, axis, a, u, rfl⟩ := h.rotations o ho hf
    cases hpure

end Holds

/-- What is fixed is as it was at the start, with what is nested in it, and so are all values of the
start. -/
structure Kept (L : Layout) (g₀ g : Graph) : Prop where
  op {o : OpId} {d : Op} : L.Fixed o → g₀.op o = .ok d → g.op o = .ok d
  below {o : OpId} {cs : List OpId} : o ∈ L.rest → g₀.children o = .ok cs → g.children o = .ok cs
  value {v : ValueId} {y : Value} : g₀.value v = .ok y → g.value v = .ok y

namespace Kept

theorem inserted {d : Draft} (h : L.Kept g₀ g) (h₀ : L.Holds g₀ root) (hi : Inserted g e d n g')
    (hfixed : ¬L.Fixed e) : L.Kept g₀ g' where
  op ho hx := hi.trimmed.op_ok (h.op ho hx)
  below {o cs} ho hcs := by
    have hout : e ∉ cs := fun hmem => hfixed (.inr (.inr (h₀.below ho hcs hmem)))
    have hcs' := hi.children (h.below ho hcs)
    rwa [flatMap_of_not_mem hout] at hcs'
  value hv := hi.evolves.value (h.value hv)

theorem rewired (h : L.Kept g₀ g) (hr : Rewired g g')
    (hop : ∀ {o d}, L.Fixed o → g₀.op o = .ok d → g.op o = .ok d → g'.op o = .ok d) :
    L.Kept g₀ g' where
  op ho hx := hop ho hx (h.op ho hx)
  below ho hcs := hr.children (h.below ho hcs)
  value hv := hr.evolves.value (h.value hv)

theorem erased (h : L.Kept g₀ g) (h₀ : L.Holds g₀ root) (he : Erased g e g')
    (hfixed : ¬L.Fixed e) : L.Kept g₀ g' where
  op {o d} ho hx := by
    have hne : o ≠ e := fun heq => hfixed (heq ▸ ho)
    exact (he.trimmed.op hne).trans (h.op ho hx)
  below {o cs} ho hcs := by
    have hne : o ≠ e := fun heq => hfixed (heq ▸ .inr (.inr ho))
    have hout : e ∉ cs := fun hmem => hfixed (.inr (.inr (h₀.below ho hcs hmem)))
    have hcs' := he.trimmed.children hne (h.below ho hcs)
    rwa [filter_ne_self hout] at hcs'
  value hv := he.evolves.value (h.value hv)

/-- A fixed operation computes what it did at the start. -/
theorem computes_iff (h : L.Kept g₀ g) (h₀ : L.Holds g₀ root) (ho : L.Fixed o) :
    g.Computes o f v ↔ g₀.Computes o f v := by
  obtain ⟨d, hd⟩ := (h₀.inside_of_fixed ho).live
  have hd' := h.op ho hd
  constructor
  · rintro ⟨x, hx, hrest⟩
    rw [hd'] at hx
    cases hx
    exact ⟨d, hd, hrest⟩
  · rintro ⟨x, hx, hrest⟩
    rw [hd] at hx
    cases hx
    exact ⟨d, hd', hrest⟩

/-- A slot of a fixed operation holds what it did at the start. -/
theorem held_eq (h : L.Kept g₀ g) (h₀ : L.Holds g₀ root) {r : Use} (ho : L.Fixed r.user) :
    g.held? r = g₀.held? r := by
  obtain ⟨d, hd⟩ := (h₀.inside_of_fixed ho).live
  rw [held?_of_op hd, held?_of_op (h.op ho hd)]

/-- What is fixed weighs what it did. -/
theorem opWeight_eq (h : L.Kept g₀ g) (h₀ : L.Holds g₀ root) (ho : L.Fixed o) :
    g.opWeight o = g₀.opWeight o := by
  obtain ⟨d, hd⟩ := (h₀.inside_of_fixed ho).live
  simp [opWeight, Graph.kind, hd, h.op ho hd]

/-- The rest is nested in the function as it was. -/
theorem nestedOps {leaves : List OpId} (h : L.Kept g₀ g) (h₀ : L.Holds g₀ root) (hg : g.Valid root)
    (hcs : g.children root = .ok (leaves ++ L.post))
    (hleaf : ∀ o ∈ leaves, g.children o = .ok []) : g.nestedOps root = .ok (leaves ++ L.rest) := by
  obtain ⟨j, hforest⟩ := h₀.forest
  have hforest := ((hforest.carry fun hp hps => h.below hp hps).mono (Nat.le_succ j)).leaves hleaf
  obtain ⟨l, hl, -⟩ := hg.linked.nestedOps_ok hg.detached
  obtain ⟨cs, hcs', hforest'⟩ := nestedOps_eq_ok.1 hl
  rw [hcs] at hcs'
  cases hcs'
  rw [hl, hforest.unique hforest']

/-- A sum is not fixed. -/
theorem sum_not_fixed (h : L.Kept g₀ g) (h₀ : L.Holds g₀ root) {a b : ValueId}
    (hf : g.Computes o (.sum a b) v) : ¬L.Fixed o := by
  intro hfixed
  obtain ⟨t, -, -, hform, -⟩ := h₀.fixed_pure hfixed ((h.computes_iff h₀ hfixed).1 hf) rfl
  cases hform

/-- A constant that nobody reads is not fixed. -/
theorem unused_not_fixed (h : L.Kept g₀ g) (h₀ : L.Holds g₀ root) {c : Binary64}
    (hf : g.Computes o (.const c) v) (hfree : ∀ r, g.held? r ≠ some v) : ¬L.Fixed o := by
  intro hfixed
  obtain ⟨t, ht, -, -, rfl⟩ := h₀.fixed_pure hfixed ((h.computes_iff h₀ hfixed).1 hf) rfl
  obtain ⟨r, hr, hheld⟩ := h₀.kept t ht
  exact hfree r ((h.held_eq h₀ (.inr (.inr hr))).trans hheld)

end Kept

/-! ## What is listed -/

/-- In the block of the function the constants of the start that are left stand before those for
later, and what is new stands after these. -/
structure Listed (L : Layout) (g₀ : Graph) (root : OpId) (old new row : List OpId) (g : Graph) :
    Prop where
  children : g.children root =
    .ok (L.source :: (old ++ L.keep.map (·.1) ++ new ++ (row ++ L.post)))
  whole {o : OpId} : g.Inside root o → o ∈ old ∨ o ∈ new ∨ o ∈ row ∨ L.Fixed o
  old_const : ∀ o ∈ old, ∃ x v, g.Computes o (.const x) v ∧ v ∈ L.consts.map (·.2.2)
  new_pure : ∀ o ∈ new, ∃ f v, g.Computes o f v ∧ f.kind.isPure = true ∧ ∀ y, g₀.value v ≠ .ok y

namespace Listed

variable {old new new' row row' : List OpId} {d : Draft} {g₁ g₂ : Graph}

theorem inside (h : L.Listed g₀ root old new row g) (hg : g.Linked)
    (ho : o ∈ L.source :: (old ++ L.keep.map (·.1) ++ new ++ (row ++ L.post))) :
    g.Inside root o :=
  ⟨0, .step ((hg.housed.mem_children_iff h.children).1 ho) .root⟩

/-- What is new and takes the place of another operation is listed where that was. -/
theorem replaced {before after : List OpId} (h : L.Listed g₀ root old new row g) (hg : g.Valid root)
    (hi : Inserted g e d n g₁) (hr : Rewired g₁ g₂) (he : Erased g₂ e g') (hroot : root ≠ e)
    (hn : g'.Computes n f w) (hpure : f.kind.isPure = true) (hfresh : ∀ y, g₀.value w ≠ .ok y)
    (hplace : L.source :: (old ++ L.keep.map (·.1) ++ new ++ (row ++ L.post)) =
      before ++ e :: after)
    (hplace' : before ++ n :: after =
      L.source :: (old ++ L.keep.map (·.1) ++ new' ++ (row' ++ L.post)))
    (hold : e ∉ old) (hnew : ∀ o, o ∈ new' ↔ o = n ∨ o ∈ new ∧ o ≠ e)
    (hrow : ∀ o ∈ row, o ≠ e → o ∈ row') : L.Listed g₀ root old new' row' g' where
  children := by
    rw [← hplace']
    exact hi.children_replaced hr he hg.linked hroot (hplace ▸ h.children)
  whole {o} ho := by
    rcases hi.inside_old hr he ho with rfl | ⟨ho, hne⟩
    · exact .inr (.inl ((hnew o).2 (.inl rfl)))
    · rcases h.whole ho with hmem | hmem | hmem | hmem
      · exact .inl hmem
      · exact .inr (.inl ((hnew o).2 (.inr ⟨hmem, hne⟩)))
      · exact .inr (.inr (.inl (hrow o hmem hne)))
      · exact .inr (.inr (.inr hmem))
  old_const o ho := by
    obtain ⟨x, v, hf, hv⟩ := h.old_const o ho
    obtain ⟨f', hf', hout⟩ := hi.computes_kept hr he (fun heq => hold (heq ▸ ho)) hf
    obtain rfl := Formula.const_of_outline hout
    exact ⟨x, v, hf', hv⟩
  new_pure o ho := by
    rcases (hnew o).1 ho with rfl | ⟨ho, hne⟩
    · exact ⟨f, w, hn, hpure, hfresh⟩
    · obtain ⟨f, v, hf, hk, hv⟩ := h.new_pure o ho
      obtain ⟨f', hf', hout⟩ := hi.computes_kept hr he hne hf
      exact ⟨f', v, hf', Formula.kind_of_outline hout ▸ hk, hv⟩

/-- What is erased and is not fixed is no longer listed. -/
theorem erased (h : L.Listed g₀ root old new row g) (h₀ : L.Holds g₀ root) (he : Erased g e g')
    (hroot : root ≠ e) (hfixed : ¬L.Fixed e) (hrow : e ∉ row) :
    L.Listed g₀ root (old.filter (· ≠ e)) (new.filter (· ≠ e)) row g' where
  children := by
    have hsource : L.source ≠ e := fun heq => hfixed (.inl heq.symm)
    have hkeep : e ∉ L.keep.map (·.1) := by
      intro hmem
      obtain ⟨t, ht, rfl⟩ := List.mem_map.1 hmem
      exact hfixed (.inr (.inl ⟨t, ht, rfl⟩))
    have hpost : e ∉ L.post := fun hmem => hfixed (.inr (.inr (h₀.post hmem)))
    have hchildren := he.trimmed.children hroot h.children
    rw [List.filter_cons_of_pos (by simpa using hsource)] at hchildren
    simp only [List.filter_append, filter_ne_self hkeep, filter_ne_self hrow,
      filter_ne_self hpost] at hchildren
    exact hchildren
  whole {o} ho := by
    obtain ⟨ho, hne⟩ := he.trimmed.inside_iff.1 ho
    simp only [List.mem_filter, decide_eq_true_eq]
    rcases h.whole ho with hmem | hmem | hmem | hmem
    · exact .inl ⟨hmem, hne⟩
    · exact .inr (.inl ⟨hmem, hne⟩)
    · exact .inr (.inr (.inl hmem))
    · exact .inr (.inr (.inr hmem))
  old_const o ho := by
    obtain ⟨ho, hne⟩ := List.mem_filter.1 ho
    obtain ⟨x, v, hf, hv⟩ := h.old_const o ho
    exact ⟨x, v, he.computes hf (by simpa using hne), hv⟩
  new_pure o ho := by
    obtain ⟨ho, hne⟩ := List.mem_filter.1 ho
    obtain ⟨f, v, hf, hrest⟩ := h.new_pure o ho
    exact ⟨f, v, he.computes hf (by simpa using hne), hrest⟩

end Listed

/-! ## What is added up -/

/-- The numbers are dealt out to the rotations of a row, all about one axis, and each one that is
still to come has one. -/
structure Dealt (L : Layout) (axis : Axis) (front todo : List (Link (List Binary64))) : Prop where
  member : ∀ x ∈ front ++ todo, x.op ∈ L.row.map Link.op
  axes : ∀ x ∈ front ++ todo, x.axis = axis
  filled : ∀ x ∈ front ++ todo, x.angle ≠ []
  single : ∀ x ∈ todo, ∃ y, x.angle = [y]
  parts : ((front ++ todo).map Link.angle).flatten = L.consts.map (·.2.1)

namespace Dealt

variable {F rest : List (Link (List Binary64))} {x y : Link (List Binary64)}

theorem advance (h : L.Dealt axis front (y :: todo)) : L.Dealt axis (front ++ [y]) todo := by
  have heq : front ++ [y] ++ todo = front ++ y :: todo := by simp
  exact ⟨by rw [heq]; exact h.member, by rw [heq]; exact h.axes, by rw [heq]; exact h.filled,
    fun x hx => h.single x (.tail y hx), by rw [heq]; exact h.parts⟩

theorem fused (h : L.Dealt axis (F ++ [x]) (y :: rest)) :
    L.Dealt axis (F ++ [⟨y.op, y.axis, x.angle ++ y.angle⟩]) rest := by
  have hall : ∀ {P : Link (List Binary64) → Prop}, (∀ z ∈ F ++ [x] ++ y :: rest, P z) →
      P ⟨y.op, y.axis, x.angle ++ y.angle⟩ →
      ∀ z ∈ F ++ [⟨y.op, y.axis, x.angle ++ y.angle⟩] ++ rest, P z := by
    intro P hP hnew z hz
    simp only [List.mem_append, List.mem_singleton] at hz
    rcases hz with (hz | rfl) | hz
    · exact hP z (by simp [hz])
    · exact hnew
    · exact hP z (by simp [hz])
  refine ⟨hall h.member (h.member y (by simp)), hall h.axes (h.axes y (by simp)), ?_,
    fun z hz => h.single z (.tail y hz), ?_⟩
  · exact hall h.filled fun heq => h.filled y (by simp) (List.append_eq_nil_iff.1 heq).2
  · rw [← h.parts]
    simp

/-- As long as axes must agree, all that has been looked at is in one rotation. -/
theorem front_single (h : L.Dealt axis (F ++ [x]) todo)
    (hapart : (F ++ [x]).IsChain (Unlike .same)) : F = [] := by
  rcases List.eq_nil_or_concat F with rfl | ⟨F, z, rfl⟩
  · rfl
  · rw [List.concat_eq_append, List.append_assoc, List.singleton_append,
      List.isChain_append_cons_cons] at hapart
    refine absurd ?_ hapart.2.1.2
    rw [h.axes z (by simp), h.axes x (by simp)]

end Dealt

/-- The angle of each rotation amounts to its numbers, and is new where it has been added up. -/
structure Tallied (g₀ : Graph) (root : OpId) (row : List (Link (List Binary64))) (g : Graph) :
    Prop where
  amounts : ∀ x ∈ row, ∀ {a}, g.held? ⟨x.op, 0⟩ = some a → g.Amount a (total x.angle)
  fresh : ∀ x ∈ row, 2 ≤ x.angle.length → ∀ {a}, g.held? ⟨x.op, 0⟩ = some a →
    ∀ y, g₀.value a ≠ .ok y
  sums {o : OpId} {a b v : ValueId} : g.Inside root o → g.Computes o (.sum a b) v →
    ∃ x, g.Amount v x

namespace Tallied

variable {rest row : List (Link (List Binary64))} {x y : Link (List Binary64)} {l : Location}
  {a b u input sum : ValueId} {g₁ g₂ : Graph}

/-- The sum of two angles amounts to their numbers, one after the other. -/
theorem fused {F : List (Link (List Binary64))} {axes : Rules.AxisMatch} {first out : ValueId}
    {extra : List OpId} (h : Tallied g₀ root (F ++ [x] ++ y :: rest) g) (hg : g.Valid root)
    (hrow : g.Rotating axes root first out extra (F ++ [x]) (y :: rest)) (hfilled : x.angle ≠ [])
    (hsingle : ∃ c, y.angle = [c]) (hfy : g.Computes y.op (.rotation y.axis b u) v)
    (hfx : g.Computes x.op (.rotation x.axis a input) u) (hi : Inserted g x.op (.add l a b) n g₁)
    (hn : g₁.Computes n (.sum a b) sum) (hr : Rerouted g₁ y.op sum input g₂)
    (he : Erased g₂ x.op g') (hfresh : ∀ y, g₀.value sum ≠ .ok y) :
    Tallied g₀ root (F ++ [⟨y.op, y.axis, x.angle ++ y.angle⟩] ++ rest) g' := by
  have hnx : n ≠ x.op := hi.ne_of_computes hfx
  have hny : n ≠ y.op := hi.ne_of_computes hfy
  obtain ⟨hxy, hapart⟩ := hrow.apart_of_next hg.linked
  have hkept : ∀ {w c}, g.Amount w c → g'.Amount w c := fun hw =>
    hw.carry (Rotating.pure_of_fusion hfy hfx hi hr he)
  have hn' : g'.Computes n (.sum a b) sum := he.computes (hr.computes_other hn hny) hnx
  have hfy' : g'.Computes y.op (.rotation y.axis sum input) v :=
    he.computes (hr.computes (hi.computes hfy)) hxy.symm
  obtain ⟨c, hyangle⟩ := hsingle
  have hsum : g'.Amount sum (total (x.angle ++ y.angle)) := by
    have hx := h.amounts x (by simp) (hfx.held? 0)
    have hy := h.amounts y (by simp) (hfy.held? 0)
    rw [hyangle] at hy ⊢
    rw [total_concat hfilled]
    exact .sum hn' (hkept hx) (hkept hy)
  -- the other rotations of the row have their angles still
  have hheld : ∀ z ∈ F ++ rest, ∀ i, g'.held? ⟨z.op, i⟩ = g.held? ⟨z.op, i⟩ := by
    intro z hz i
    obtain ⟨hzx, hzy⟩ := hapart z hz
    obtain ⟨_, _, _, hfz⟩ := hrow.row.computes (x := z) (by simp at hz ⊢; tauto)
    exact Rotating.held_of_fusion hi hr he (hi.ne_of_computes hfz).symm hzy hzx
  have hcases : ∀ {z}, z ∈ F ++ [⟨y.op, y.axis, x.angle ++ y.angle⟩] ++ rest →
      z = ⟨y.op, y.axis, x.angle ++ y.angle⟩ ∨ z ∈ F ++ rest ∧ z ∈ F ++ [x] ++ y :: rest := by
    intro z hz
    simp only [List.mem_append, List.mem_cons, List.not_mem_nil, or_false] at hz ⊢
    tauto
  refine ⟨fun z hz {a'} ha' => ?_, fun z hz hlen {a'} ha' => ?_, fun {z a' b' w} hz hs => ?_⟩
  · rcases hcases hz with rfl | ⟨hz, hz'⟩
    · rw [hfy'.held? 0] at ha'
      cases ha'
      exact hsum
    · rw [hheld z hz] at ha'
      exact hkept (h.amounts z hz' ha')
  · rcases hcases hz with rfl | ⟨hz, hz'⟩
    · rw [hfy'.held? 0] at ha'
      cases ha'
      exact hfresh
    · rw [hheld z hz] at ha'
      exact h.fresh z hz' hlen ha'
  · rcases hi.inside_old hr.rewired he hz with rfl | ⟨hz, hzx⟩
    · obtain ⟨-, rfl⟩ := hs.unique hn'
      exact ⟨_, hsum⟩
    · have hzn : z ≠ n := by
        rintro rfl
        obtain ⟨d, hd⟩ := hz.live
        exact hi.trimmed.gone d hd
      obtain ⟨f', hs', hout⟩ := hi.computes_old hr.rewired he hzn hs
      obtain ⟨c₁, c₂, rfl⟩ := hs'.sum_of_kind (Formula.kind_of_outline hout)
      obtain ⟨t, ht⟩ := h.sums hz hs'
      exact ⟨t, hkept ht⟩

/-- A sum that is folded is the same amount. -/
theorem folded {c d : Binary64} {p' : OpId} (h : Tallied g₀ root row g) (hg : g.Valid root)
    (hrow : ∀ x ∈ row, x.op ≠ o ∧ x.op ≠ n)
    (hf : g.Computes o (.sum a b) v) (hp : g.Computes p (.const c) a)
    (hp' : g.Computes p' (.const d) b) (hi : Inserted g o (.const l (c + d)) n g₁)
    (hn : g₁.Computes n (.const (c + d)) w) (hr : Redirected g₁ v w g₂) (he : Erased g₂ o g')
    (hfresh : ∀ y, g₀.value w ≠ .ok y) : Tallied g₀ root row g' := by
  have hheld : ∀ x ∈ row, ∀ {a'}, g'.held? ⟨x.op, 0⟩ = some a' →
      ∃ a, g.held? ⟨x.op, 0⟩ = some a ∧ a' = if a = v then w else a := by
    intro x hx a' ha'
    obtain ⟨hxo, hxn⟩ := hrow x hx
    rw [he.held, if_neg hxo, hr.held, hi.held, if_neg hxn, Option.map_eq_some_iff] at ha'
    obtain ⟨a, ha, heq⟩ := ha'
    exact ⟨a, ha, heq.symm⟩
  refine ⟨fun x hx {a'} ha' => ?_, fun x hx hlen {a'} ha' => ?_, fun {z a' b' u} hz hs => ?_⟩
  · obtain ⟨a, ha, rfl⟩ := hheld x hx ha'
    exact (h.amounts x hx ha).folded hg.linked hf hp hp' hi hn hr he
  · obtain ⟨a, ha, rfl⟩ := hheld x hx ha'
    split
    · exact hfresh
    · exact h.fresh x hx hlen ha
  · have hzo : z ≠ o := by
      obtain ⟨d, hd, -⟩ := hs
      exact he.trimmed.ne_of_op hd
    have hzn : z ≠ n := by
      rintro rfl
      cases (hs.unique (he.computes (hr.computes hn) hzo)).1
    obtain ⟨f', hs', hout⟩ := hi.computes_old hr.rewired he hzn hs
    obtain ⟨c₁, c₂, rfl⟩ := hs'.sum_of_kind (Formula.kind_of_outline hout)
    have hzin := (hi.inside_old hr.rewired he hz).resolve_left hzn
    obtain ⟨x, hx⟩ := h.sums hzin.1 hs'
    have huv : u ≠ v := by
      rintro rfl
      exact hzo (hs'.op_unique hg.linked hf)
    have hx' := hx.folded hg.linked hf hp hp' hi hn hr he
    rw [if_neg huv] at hx'
    exact ⟨x, hx'⟩

/-- A constant that nobody reads is in no amount. -/
theorem unused {c : Binary64} (h : Tallied g₀ root row g) (hg : g.Linked)
    (hf : g.Computes o (.const c) v) (hfree : ∀ r, g.held? r ≠ some v) (he : Erased g o g') :
    Tallied g₀ root row g' := by
  have hheld : ∀ {r a}, g'.held? r = some a → g.held? r = some a ∧ a ≠ v := by
    intro r a ha
    obtain ⟨-, ha⟩ := he.held_cases ha
    refine ⟨ha, ?_⟩
    rintro rfl
    exact hfree r ha
  refine ⟨fun x hx {a} ha => ?_, fun x hx hlen {a} ha => ?_, fun {z a b u} hz hs => ?_⟩
  · obtain ⟨ha, hne⟩ := hheld ha
    exact (h.amounts x hx ha).unused hf hfree he hne
  · exact h.fresh x hx hlen (hheld ha).1
  · obtain ⟨d, hd, hrest⟩ := hs
    have hs' : g.Computes z (.sum a b) u := ⟨d, he.trimmed.op_ok hd, hrest⟩
    obtain ⟨x, hx⟩ := h.sums (he.trimmed.inside_iff.1 hz).1 hs'
    refine ⟨x, hx.unused hf hfree he ?_⟩
    rintro rfl
    exact he.trimmed.ne_of_op hd (hs'.op_unique hg hf)

end Tallied

/-! ## The invariant -/

/-- What holds in the middle of a sweep over a series, from the graph at its start on. -/
structure Folding (L : Layout) (g₀ : Graph) (root : OpId) (axis : Axis) (k : Nat) (g : Graph)
    (front todo : List (Link (List Binary64))) : Prop where
  kept : L.Kept g₀ g
  listed : ∃ old new, L.Listed g₀ root old new ((front ++ todo).map Link.op) g
  dealt : L.Dealt axis front todo
  tallied : Tallied g₀ root (front ++ todo) g
  weight : k + g.weight root = g₀.weight root

namespace Folding

theorem advance {y : Link (List Binary64)} (h : L.Folding g₀ root axis k g front (y :: todo)) :
    L.Folding g₀ root axis k g (front ++ [y]) todo := by
  have heq : front ++ [y] ++ todo = front ++ y :: todo := by simp
  exact ⟨h.kept, by rw [heq]; exact h.listed, h.dealt.advance, by rw [heq]; exact h.tallied,
    h.weight⟩

/-- Sums are new, and so are their values. -/
theorem sum_new (h : L.Folding g₀ root axis k g front todo) (h₀ : L.Holds g₀ root)
    (hrow : g.Rotating .same root L.first L.out L.extra front todo) {old new : List OpId}
    (hlisted : L.Listed g₀ root old new ((front ++ todo).map Link.op) g) (ho : g.Inside root o)
    {a b : ValueId} (hf : g.Computes o (.sum a b) v) : o ∈ new ∧ ∀ y, g₀.value v ≠ .ok y := by
  rcases hlisted.whole ho with hmem | hmem | hmem | hmem
  · obtain ⟨x, w, hf', -⟩ := hlisted.old_const o hmem
    cases (hf.unique hf').1
  · obtain ⟨f, w, hf', -, hnew⟩ := hlisted.new_pure o hmem
    obtain ⟨-, rfl⟩ := hf.unique hf'
    exact ⟨hmem, hnew⟩
  · exact absurd hmem (hrow.not_mem_of_pure hf rfl)
  · exact absurd hmem (h.kept.sum_not_fixed h₀ hf)

/-- What is inserted has a value that was not there at the start. -/
theorem inserted_new {d : Draft} (h : L.Folding g₀ root axis k g front todo)
    (hi : Inserted g e d n g') (hn : g'.Computes n f w) (y : Value) : g₀.value w ≠ .ok y := by
  intro hy
  obtain ⟨x, hx, hmem, -⟩ := hn.op_ok
  exact hi.fresh hx hmem y (h.kept.value hy)

section Steps

variable {p' : OpId} {l : Location} {a b u input sum : ValueId} {c d : Binary64} {g₁ g₂ : Graph}
  {x y : Link (List Binary64)}

theorem fused (h : L.Folding g₀ root axis k g [x] (y :: todo)) (h₀ : L.Holds g₀ root)
    (hg : g.Valid root) (hrow : g.Rotating .same root L.first L.out L.extra [x] (y :: todo))
    (hfy : g.Computes y.op (.rotation y.axis b u) v)
    (hfx : g.Computes x.op (.rotation x.axis a input) u) (hi : Inserted g x.op (.add l a b) n g₁)
    (hn : g₁.Computes n (.sum a b) sum) (hr : Rerouted g₁ y.op sum input g₂)
    (he : Erased g₂ x.op g') (hweight : k + 1 + g'.weight root = g₀.weight root) :
    L.Folding g₀ root axis (k + 1) g' [⟨y.op, y.axis, x.angle ++ y.angle⟩] todo := by
  obtain ⟨old, new, hlisted⟩ := h.listed
  have hroot : root ≠ x.op := ((hrow.inside x (.head _)).ne_root hg.detached).symm
  have hxfixed := h₀.row_not_fixed (h.dealt.member x (.head _))
  have hyfixed := h₀.row_not_fixed (h.dealt.member y (by simp))
  have hnew := h.inserted_new hi hn
  have hn' : g'.Computes n (.sum a b) sum :=
    he.computes (hr.computes_other hn (hi.ne_of_computes hfy)) (hi.ne_of_computes hfx)
  have hold : x.op ∉ old := by
    intro hmem
    obtain ⟨c, w, hf, -⟩ := hlisted.old_const x.op hmem
    cases (hf.unique hfx).1
  have hnew' : x.op ∉ new := by
    intro hmem
    obtain ⟨f, w, hf, hpure, -⟩ := hlisted.new_pure x.op hmem
    rw [(hf.unique hfx).1] at hpure
    cases hpure
  -- the sum takes the place of the rotation that goes
  have hplace : L.source :: (old ++ L.keep.map (·.1) ++ new ++
      (([x] ++ y :: todo).map Link.op ++ L.post)) =
      (L.source :: (old ++ L.keep.map (·.1) ++ new)) ++
        x.op :: (y.op :: (todo.map Link.op ++ L.post)) := by simp
  have hplace' : (L.source :: (old ++ L.keep.map (·.1) ++ new)) ++
        n :: (y.op :: (todo.map Link.op ++ L.post)) =
      L.source :: (old ++ L.keep.map (·.1) ++ (new ++ [n]) ++
        ((y.op :: todo.map Link.op) ++ L.post)) := by simp
  refine ⟨?_, ⟨old, new ++ [n], ?_⟩, h.dealt.fused (F := []), ?_, hweight⟩
  · refine ((h.kept.inserted h₀ hi hxfixed).rewired hr.rewired ?_).erased h₀ he hxfixed
    exact fun ho _ hd => hr.op (fun heq => hyfixed (heq ▸ ho)) hd
  · refine hlisted.replaced hg hi hr.rewired he hroot hn' rfl hnew hplace hplace' hold ?_ ?_
    · intro z
      rw [List.mem_append, List.mem_singleton, or_comm]
      refine or_congr_right ⟨fun hz => ⟨hz, fun heq => hnew' (heq ▸ hz)⟩, And.left⟩
    · intro z hz hzx
      simpa [hzx] using hz
  · exact h.tallied.fused (F := []) hg hrow (h.dealt.filled x (.head _))
      (h.dealt.single y (.head _)) hfy hfx hi hn hr he hnew

theorem folded (h : L.Folding g₀ root axis k g front todo) (h₀ : L.Holds g₀ root)
    (hg : g.Valid root) (hrow : g.Rotating .same root L.first L.out L.extra front todo)
    (ho : g.Inside root o) (hf : g.Computes o (.sum a b) v) (hp : g.Computes p (.const c) a)
    (hp' : g.Computes p' (.const d) b) (hi : Inserted g o (.const l (c + d)) n g₁)
    (hn : g₁.Computes n (.const (c + d)) w) (hr : Redirected g₁ v w g₂) (he : Erased g₂ o g')
    (hweight : k + 1 + g'.weight root = g₀.weight root) :
    L.Folding g₀ root axis (k + 1) g' front todo := by
  obtain ⟨old, new, hlisted⟩ := h.listed
  obtain ⟨hmem, hvnew⟩ := h.sum_new h₀ hrow hlisted ho hf
  have hfixed := h.kept.sum_not_fixed h₀ hf
  have hnew := h.inserted_new hi hn
  have hn' : g'.Computes n (.const (c + d)) w := he.computes (hr.computes hn) (hi.ne_of_computes hf)
  have hold : o ∉ old := by
    intro hmem
    obtain ⟨x, u, hf', -⟩ := hlisted.old_const o hmem
    cases (hf.unique hf').1
  obtain ⟨s, t, rfl⟩ := List.append_of_mem hmem
  have hapart : o ∉ s ∧ o ∉ t := by
    have hnodup := hg.linked.housed.nodup_children hlisted.children
    have hnew := (List.nodup_append'.1 (List.nodup_append'.1 (List.nodup_cons.1 hnodup).2).1).2.1
    simpa [not_or] using (List.nodup_cons.1 (List.nodup_middle.1 hnew)).1
  -- the constant takes the place of the sum
  have hplace : L.source :: (old ++ L.keep.map (·.1) ++ (s ++ o :: t) ++
      ((front ++ todo).map Link.op ++ L.post)) = (L.source :: (old ++ L.keep.map (·.1) ++ s)) ++
        o :: (t ++ ((front ++ todo).map Link.op ++ L.post)) := by simp
  have hplace' : (L.source :: (old ++ L.keep.map (·.1) ++ s)) ++
        n :: (t ++ ((front ++ todo).map Link.op ++ L.post)) =
      L.source :: (old ++ L.keep.map (·.1) ++ (s ++ n :: t) ++
        ((front ++ todo).map Link.op ++ L.post)) := by simp
  refine ⟨?_, ⟨old, s ++ n :: t, ?_⟩, h.dealt, ?_, hweight⟩
  · refine ((h.kept.inserted h₀ hi hfixed).rewired hr.rewired ?_).erased h₀ he hfixed
    -- what is fixed reads values of the start
    intro z x hz hx hx₁
    refine hr.op hx₁ fun hmem => ?_
    obtain ⟨i, hi⟩ := List.mem_iff_getElem?.1 hmem
    have hheld : g₀.held? ⟨z, i⟩ = some v := by
      rw [held?_of_op hx]
      exact hi
    obtain ⟨y, hy⟩ := h₀.valid.exist hheld
    exact hvnew y hy
  · refine hlisted.replaced hg hi hr.rewired he (ho.ne_root hg.detached).symm hn' rfl hnew hplace
      hplace' hold ?_ fun z hz _ => hz
    intro z
    simp only [List.mem_append, List.mem_cons]
    constructor
    · rintro (hz | rfl | hz)
      · exact .inr ⟨.inl hz, fun heq => hapart.1 (heq ▸ hz)⟩
      · exact .inl rfl
      · exact .inr ⟨.inr (.inr hz), fun heq => hapart.2 (heq ▸ hz)⟩
    · rintro (rfl | ⟨hz | hz | hz, hzo⟩)
      · exact .inr (.inl rfl)
      · exact .inl hz
      · exact absurd hz hzo
      · exact .inr (.inr hz)
  · refine h.tallied.folded hg (fun x hx => ⟨?_, ?_⟩) hf hp hp' hi hn hr he hnew
    · rintro rfl
      exact hrow.not_mem_of_pure hf rfl (List.mem_map_of_mem hx)
    · obtain ⟨_, _, _, hfx⟩ := hrow.row.computes hx
      exact (hi.ne_of_computes hfx).symm

theorem unused (h : L.Folding g₀ root axis k g front todo) (h₀ : L.Holds g₀ root)
    (hg : g.Valid root) (hrow : g.Rotating .same root L.first L.out L.extra front todo)
    (ho : g.Inside root o) (hf : g.Computes o (.const c) v) (hfree : ∀ r, g.held? r ≠ some v)
    (he : Erased g o g') (hweight : k + 1 + g'.weight root = g₀.weight root) :
    L.Folding g₀ root axis (k + 1) g' front todo := by
  obtain ⟨old, new, hlisted⟩ := h.listed
  have hfixed := h.kept.unused_not_fixed h₀ hf hfree
  refine ⟨h.kept.erased h₀ he hfixed, ⟨_, _, hlisted.erased h₀ he ?_ hfixed ?_⟩, h.dealt,
    h.tallied.unused hg.linked hf hfree he, hweight⟩
  · exact (ho.ne_root hg.detached).symm
  · exact hrow.not_mem_of_pure hf rfl

end Steps

theorem step {front' todo' : List (Link (List Binary64))} (h₀ : L.Holds g₀ root)
    (hg : g.Valid root) (hrow : g.Rotating .same root L.first L.out L.extra front todo)
    (h : L.Folding g₀ root axis k g front todo)
    (hstep : RowStep .same root g front todo g' front' todo') :
    L.Folding g₀ root axis (k + 1) g' front' todo' := by
  have hweight : k + 1 + g'.weight root = g₀.weight root := by
    have hstart := h.weight
    have hless := hstep.weight hg.rooted fun x hx => hrow.inside x (by simp [hx])
    omega
  cases hstep with
  | fused hfy hfx _ hi hn hr he =>
    obtain rfl := h.dealt.front_single hrow.apart
    exact h.fused h₀ hg hrow hfy hfx hi hn hr he hweight
  | folded ho hf hp hp' hi hn hr he => exact h.folded h₀ hg hrow ho hf hp hp' hi hn hr he hweight
  | unused ho hf hfree he => exact h.unused h₀ hg hrow ho hf hfree he hweight

/-! ## The start and the end -/

end Folding

theorem Holds.folding (h : L.Holds g root) (haxes : ∀ x ∈ L.row, x.axis = axis) :
    L.Folding g root axis 0 g [] L.row := by
  refine ⟨⟨fun _ hd => hd, fun _ hcs => hcs, fun hv => hv⟩,
    ⟨L.consts.map (·.1), [], ⟨?_, ?_, ?_, nofun⟩⟩, ⟨?_, haxes, ?_, ?_, ?_⟩, ⟨?_, ?_, ?_⟩, ?_⟩
  · rw [h.children, top]
    simp
  · intro o ho
    rcases h.inside_iff.1 ho with rfl | ⟨t, ht, rfl⟩ | ⟨x, hx, rfl⟩ | hrest
    · exact .inr (.inr (.inr (.inl rfl)))
    · rcases List.mem_append.1 ht with ht | ht
      · exact .inl (List.mem_map_of_mem ht)
      · exact .inr (.inr (.inr (.inr (.inl ⟨t, ht, rfl⟩))))
    · exact .inr (.inr (.inl (List.mem_map_of_mem hx)))
    · exact .inr (.inr (.inr (.inr (.inr hrest))))
  · intro o ho
    obtain ⟨t, ht, rfl⟩ := List.mem_map.1 ho
    exact ⟨_, _, h.numbers t (List.mem_append_left _ ht), List.mem_map_of_mem ht⟩
  · exact fun x hx => List.mem_map_of_mem hx
  · intro x hx
    obtain ⟨t, -, u, v, hangle, -⟩ := h.angles x hx
    simp [hangle]
  · intro x hx
    obtain ⟨t, -, u, v, hangle, -⟩ := h.angles x hx
    exact ⟨_, hangle⟩
  · rw [List.nil_append, h.parts, ← List.flatMap_def]
    simp [List.map_eq_flatMap]
  · intro x hx a ha
    obtain ⟨t, ht, u, v, hangle, hf⟩ := h.angles x hx
    rw [hf.held? 0] at ha
    cases ha
    rw [hangle]
    exact .const (h.numbers t (List.mem_append_left _ ht))
  · intro x hx hlen
    obtain ⟨t, -, u, v, hangle, -⟩ := h.angles x hx
    simp [hangle] at hlen
  · intro o a b v ho hf
    rcases h.computes_cases ho hf with ⟨t, -, -, hform, -⟩ | ⟨x, -, -, a, u, hform⟩ |
      ⟨-, -, axis, a, u, hform⟩
    · cases hform
    · cases hform
    · cases hform
  · exact Nat.zero_add _

namespace Folding

/-- When all has been looked at there is one rotation, and it has all the numbers. -/
theorem front_eq (h : L.Folding g₀ root axis k g front []) (hne : L.consts ≠ [])
    (hrow : g.Rotating .same root L.first L.out L.extra front []) :
    ∃ x, front = [x] ∧ x.angle = L.consts.map (·.2.1) := by
  have hparts := h.dealt.parts
  rcases List.eq_nil_or_concat front with rfl | ⟨F, x, rfl⟩
  · exact absurd (List.map_eq_nil_iff.1 hparts.symm) hne
  · rw [List.concat_eq_append] at h hrow hparts ⊢
    obtain rfl := h.dealt.front_single hrow.apart
    exact ⟨x, rfl, by simpa using hparts⟩

section Finished

variable {x : Link (List Binary64)} {c : Config} {m : OpId} {a : ValueId}

/-- When nothing applies, no sum is left. -/
theorem no_sum (h : L.Folding g₀ root axis k g front todo) (hg : g.Valid root)
    (hidle : ∀ {o}, g.Inside root o → ¬g.Redex c .same o) (hfold : c.fold = true)
    (ho : g.Inside root o) {a b : ValueId} : ¬g.Computes o (.sum a b) v := by
  intro hf
  obtain ⟨x, hx⟩ := h.tallied.sums ho hf
  obtain ⟨p, hp⟩ := hx.folded_up hg (fun ho hf hp hp' => hidle ho (.sum hfold hf hp hp'))
    fun hp => hf.op_unique hg.linked hp ▸ ho
  cases hp.formula_unique hg.linked hf

/-- When nothing applies, the angle of the rotation is the constant with the sum of all numbers. -/
theorem angle_const (h : L.Folding g₀ root axis k g [x] []) (hg : g.Valid root)
    (hrow : g.Rotating .same root L.first L.out L.extra [x] [])
    (hidle : ∀ {o}, g.Inside root o → ¬g.Redex c .same o) (hfold : c.fold = true) :
    ∃ m a, g.Inside root m ∧ g.Computes m (.const (total x.angle)) a ∧
      g.Computes x.op (.rotation axis a L.first) L.out := by
  have hxin := hrow.inside x (.head _)
  have hchain := hrow.row
  rw [List.append_nil] at hchain
  cases hchain with
  | @cons _ _ a _ v _ hf hrest =>
  cases hrest
  rw [h.dealt.axes x (.head _)] at hf
  have hamount := h.tallied.amounts x (.head _) (hf.held? 0)
  have hvisible := hg.operand_visible hxin hf (.head _)
  have hin : ∀ {o f}, g.Computes o f a → g.Inside root o := fun ho =>
    ho.inside hg.linked (hvisible.belongs hg.linked hg.detached hxin)
  obtain ⟨m, hm⟩ := hamount.folded_up hg (fun ho hf hp hp' => hidle ho (.sum hfold hf hp hp')) hin
  exact ⟨m, a, hin hm, hm, hf⟩

/-- Then only constants are left of constants and sums. -/
theorem const_of_pure (h : L.Folding g₀ root axis k g front todo) (hg : g.Valid root)
    (hrow : g.Rotating .same root L.first L.out L.extra front todo)
    (hidle : ∀ {o}, g.Inside root o → ¬g.Redex c .same o) (hfold : c.fold = true)
    (ho : g.Inside root o) (hf : g.Computes o f v) (hpure : f.kind.isPure = true) :
    ∃ y, f = .const y := by
  cases f with
  | const y => exact ⟨y, rfl⟩
  | sum b b' => exact absurd hf (h.no_sum hg hidle hfold ho)
  | gate k u => exact absurd hf (hrow.plain ho)
  | rotation axis b u => cases hpure

/-- Then a constant is read by the rotation, or by what is fixed, as at the start. -/
theorem reader (h : L.Folding g₀ root axis k g [x] []) (h₀ : L.Holds g₀ root) (hg : g.Valid root)
    (hrow : g.Rotating .same root L.first L.out L.extra [x] [])
    (hidle : ∀ {o}, g.Inside root o → ¬g.Redex c .same o) (hfold : c.fold = true)
    (hdead : c.removeDead = true) (hx : g.Computes x.op (.rotation axis a L.first) L.out)
    (ho : g.Inside root o) {y : Binary64} (hf : g.Computes o (.const y) v) :
    v = a ∨ ∃ r, L.Fixed r.user ∧ g₀.held? r = some v := by
  obtain ⟨⟨user, i⟩, hr⟩ : ∃ r, g.held? r = some v := by
    by_contra hfree
    exact hidle ho (.unused hdead hf rfl fun r hr => hfree ⟨r, hr⟩)
  have hin := hg.closed hr (hf.belongs ho)
  obtain ⟨old, new, hlisted⟩ := h.listed
  rcases hlisted.whole hin with hmem | hmem | hmem | hmem
  · obtain ⟨z, w, hz, -⟩ := hlisted.old_const user hmem
    rw [hz.held?] at hr
    cases hr
  · obtain ⟨f, w, hz, hpure, -⟩ := hlisted.new_pure user hmem
    obtain ⟨z, rfl⟩ := h.const_of_pure hg hrow hidle hfold hin hz hpure
    rw [hz.held?] at hr
    cases hr
  · rcases hx.rotation_slots hr (List.mem_singleton.1 hmem) with ⟨-, rfl⟩ | ⟨-, rfl⟩
    · exact .inl rfl
    · exact absurd hf hrow.source
  · exact .inr ⟨⟨user, i⟩, hmem, (h.kept.held_eq h₀ hmem).symm.trans hr⟩

/-- Then one constant is left that is not for later. -/
theorem listed_eq (h : L.Folding g₀ root axis k g [x] []) (h₀ : L.Holds g₀ root) (hg : g.Valid root)
    (hrow : g.Rotating .same root L.first L.out L.extra [x] [])
    (hidle : ∀ {o}, g.Inside root o → ¬g.Redex c .same o) (hfold : c.fold = true)
    (hdead : c.removeDead = true) (hx : g.Computes x.op (.rotation axis a L.first) L.out)
    (hm : g.Inside root m) {y : Binary64} (hf : g.Computes m (.const y) a)
    (hfresh : ∀ y, g₀.value a ≠ .ok y) : L.Listed g₀ root [] [m] [x.op] g := by
  obtain ⟨old, new, hlisted⟩ := h.listed
  -- at the start the values of the first constants were there, and were not read by what is fixed
  have hold : ∀ o, o ∉ old := by
    intro o ho
    obtain ⟨z, v, hz, hv⟩ := hlisted.old_const o ho
    have hin : g.Inside root o := hlisted.inside hg.linked (by simp [ho])
    rcases h.reader h₀ hg hrow hidle hfold hdead hx hin hz with rfl | ⟨r, hr, hheld⟩
    · refine h₀.const_exists ?_ hfresh
      rw [List.map_append]
      exact List.mem_append_left _ hv
    · exact h₀.not_fixed_of_held hv hheld hr
  have hnew : ∀ o ∈ new, o = m := by
    intro o ho
    obtain ⟨f', v, hz, hpure, hv⟩ := hlisted.new_pure o ho
    have hin : g.Inside root o := hlisted.inside hg.linked (by simp [ho])
    obtain ⟨z, rfl⟩ := h.const_of_pure hg hrow hidle hfold hin hz hpure
    rcases h.reader h₀ hg hrow hidle hfold hdead hx hin hz with rfl | ⟨r, -, hheld⟩
    · exact hz.op_unique hg.linked hf
    · obtain ⟨z, hz⟩ := h₀.valid.exist hheld
      exact absurd hz (hv z)
  have hmem : m ∈ new := by
    rcases hlisted.whole hm with hmem | hmem | hmem | hmem
    · exact absurd hmem (hold m)
    · exact hmem
    · exact absurd hmem (hrow.not_mem_of_pure hf rfl)
    · obtain ⟨t, ht, -, -, rfl⟩ := h₀.fixed_pure hmem ((h.kept.computes_iff h₀ hmem).1 hf) rfl
      refine absurd hfresh (h₀.const_exists ?_)
      rw [List.map_append]
      exact List.mem_append_right _ (List.mem_map_of_mem ht)
  obtain rfl := List.eq_nil_iff_forall_not_mem.2 hold
  obtain rfl : new = [m] := by
    have hnodup := hg.linked.housed.nodup_children hlisted.children
    have hnodup := (List.nodup_append'.1 (List.nodup_append'.1 (List.nodup_cons.1 hnodup).2).1).2.1
    refine List.perm_singleton.1 ((List.perm_ext_iff_of_nodup hnodup (List.nodup_singleton m)).2 ?_)
    intro o
    rw [List.mem_singleton]
    exact ⟨hnew o, fun heq => heq ▸ hmem⟩
  exact hlisted

/-- When nothing applies, the function has the constants for later, one with the sum of all numbers,
one rotation by it, and the rest. -/
theorem finished (h : L.Folding g₀ root axis k g front []) (h₀ : L.Holds g₀ root)
    (hg : g.Valid root) (hrow : g.Rotating .same root L.first L.out L.extra front [])
    (hidle : ∀ {o}, g.Inside root o → ¬g.Redex c .same o) (hfold : c.fold = true)
    (hdead : c.removeDead = true) (hlen : 2 ≤ L.consts.length) :
    ∃ m r a, g.children root = .ok (L.source :: (L.keep.map (·.1) ++ m :: r :: L.post)) ∧
      g.nestedOps root = .ok (L.source :: (L.keep.map (·.1) ++ m :: r :: L.rest)) ∧
      g.Computes m (.const (total (L.consts.map (·.2.1)))) a ∧
      g.Computes r (.rotation axis a L.first) L.out ∧ k + 4 = 4 * L.consts.length := by
  have hne : L.consts ≠ [] := by
    rintro heq
    simp [heq] at hlen
  obtain ⟨x, rfl, hangle⟩ := h.front_eq hne hrow
  obtain ⟨m, a, hm, hf, hx⟩ := h.angle_const hg hrow hidle hfold
  have hfresh : ∀ y, g₀.value a ≠ .ok y :=
    h.tallied.fresh x (.head _) (by simpa [hangle] using hlen) (hx.held? 0)
  have hlisted := h.listed_eq h₀ hg hrow hidle hfold hdead hx hm hf hfresh
  have hchildren : g.children root =
      .ok (L.source :: (L.keep.map (·.1) ++ m :: x.op :: L.post)) := by
    simpa using hlisted.children
  have hleaf : ∀ {o f v}, g.Computes o f v → g.children o = .ok [] := by
    rintro o f v ⟨d, hd, -, -, hregions⟩
    exact children_none hd hregions
  have hnested : g.nestedOps root =
      .ok (L.source :: (L.keep.map (·.1) ++ m :: x.op :: L.rest)) := by
    have hcs : g.children root = .ok ((L.source :: (L.keep.map (·.1) ++ [m, x.op])) ++ L.post) := by
      simpa using hchildren
    have hall := h.kept.nestedOps h₀ hg hcs ?_
    · simpa using hall
    · intro o ho
      simp only [List.mem_cons, List.mem_append, List.not_mem_nil, or_false] at ho
      rcases ho with rfl | ho | rfl | rfl
      · obtain ⟨d, hd, -, -, -, hregions⟩ := h₀.source
        exact children_none (h.kept.op (.inl rfl) hd) hregions
      · obtain ⟨t, ht, rfl⟩ := List.mem_map.1 ho
        have hfixed : L.Fixed t.1 := .inr (.inl ⟨t, ht, rfl⟩)
        have hnumber := h₀.numbers t (List.mem_append_right _ ht)
        exact hleaf ((h.kept.computes_iff h₀ hfixed).2 hnumber)
      · exact hleaf hf
      · exact hleaf hx
  refine ⟨m, x.op, a, hchildren, hnested, hangle ▸ hf, hx, ?_⟩
  have hsame : ∀ o ∈ L.source :: (L.keep.map (·.1) ++ L.rest), g.opWeight o = g₀.opWeight o := by
    intro o ho
    simp only [List.mem_cons, List.mem_append] at ho
    rcases ho with rfl | ho | ho
    · exact h.kept.opWeight_eq h₀ (.inl rfl)
    · obtain ⟨t, ht, rfl⟩ := List.mem_map.1 ho
      exact h.kept.opWeight_eq h₀ (.inr (.inl ⟨t, ht, rfl⟩))
    · exact h.kept.opWeight_eq h₀ (.inr (.inr ho))
  have hweight : g.weight root =
      4 + ((L.source :: (L.keep.map (·.1) ++ L.rest)).map g₀.opWeight).sum := by
    have hone : g.opWeight m = 1 := opWeight_of_kind hf.kind
    have hthree : g.opWeight x.op = 3 := opWeight_of_kind hx.kind
    rw [weight_eq_sum hnested, ← List.map_congr_left hsame]
    simp only [List.map_cons, List.map_append, List.sum_cons, List.sum_append, hone, hthree]
    omega
  have hcount := h.weight
  rw [hweight, h₀.weight_eq] at hcount
  omega

end Finished

end Folding

end Layout

end Peephole
