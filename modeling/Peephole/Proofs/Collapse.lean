import Peephole.Proofs.Listings
import Peephole.Proofs.LooseEnds
import Peephole.Proofs.RowSweeps
import Peephole.Proofs.RowTexts
import Mathlib.Data.List.SplitBy

/-!
# Rotations that collapse

A function rotates its qubit by its other arguments, one after the other.  The pass leaves one
rotation for every maximal run of rotations about one axis, and one for all of them if it does not
look at axes.  Its angle is the sum of those of the run, added from the left, and its axis is that
of the last one.  `Pass.run_collapses` says so, and it says what the body is then, operation by
operation.

In the body a sum takes the place of the rotation that is fused, so that the sums of a run stand
right before its rotation.  This is the invariant `Graph.Laced`.
-/

namespace Peephole

open Peephole.Graph

/-- The function rotates its first argument by the others about the given axes. -/
def turnBody (axes : List Axis) : List ValueId → BuildM Unit
  | [] => return ()
  | q :: angles => do
      let q ← BuildM.turns (axes.zip angles) q
      let _ ← BuildM.ret [q]

/-- The types of its arguments. -/
def turnTypes (axes : List Axis) : List Ty := .qubit :: axes.map fun _ => .number

/-- The parts of a list of rotations that become one rotation each. -/
def Rules.AxisMatch.runs {β : Type*} :
    Rules.AxisMatch → List (Axis × β) → List (List (Axis × β))
  | .same, turns => turns.splitBy fun x y => x.1 = y.1
  | .any, turns => [turns]

namespace Graph

variable {g g' : Graph} {root o last : OpId} {first out q v : ValueId}

/-! ## Sums and rotations -/

/-- The operations add up the values from the left, each right after the one before it. -/
inductive Adds (g : Graph) : (vs : List ValueId) → (ops : List OpId) → (sum : ValueId) → Prop
  | one {a : ValueId} : Adds g [a] [] a
  | add {vs : List ValueId} {ops : List OpId} {n : OpId} {a b sum : ValueId} : Adds g vs ops a →
      g.Computes n (.sum a b) sum → Adds g (vs ++ [b]) (ops ++ [n]) sum

/-- The operations are those of a body with one rotation for each run, about the axis of the last
one, by the sum of the angles. -/
inductive Collapsed (g : Graph) : (first : ValueId) → (runs : List (List (Axis × ValueId))) →
    (ops : List OpId) → (out : ValueId) → Prop
  | nil {q : ValueId} : Collapsed g q [] [] q
  | cons {run : List (Axis × ValueId)} {runs : List (List (Axis × ValueId))}
      {adds ops : List OpId} {o : OpId} {axis : Axis} {a b q v out : ValueId} :
      run.getLast? = some (axis, b) → Adds g (run.map Prod.snd) adds a →
      g.Computes o (.rotation axis a q) v → Collapsed g v runs ops out →
      Collapsed g q (run :: runs) (adds ++ o :: ops) out

/-- The operations are the rotations of a row, each right after the sums for its angle. -/
inductive Laced (g : Graph) : (first : ValueId) → (row : List (Link (List (Axis × ValueId)))) →
    (ops : List OpId) → (out : ValueId) → Prop
  | nil {q : ValueId} : Laced g q [] [] q
  | cons {x : Link (List (Axis × ValueId))} {row : List (Link (List (Axis × ValueId)))}
      {adds ops : List OpId} {a b q v out : ValueId} : x.angle.getLast? = some (x.axis, b) →
      Adds g (x.angle.map Prod.snd) adds a → g.Computes x.op (.rotation x.axis a q) v →
      Laced g v row ops out → Laced g q (x :: row) (adds ++ x.op :: ops) out

variable {row l₁ l₂ : List (Link (List (Axis × ValueId)))} {ops : List OpId}

theorem Adds.ne_nil {vs : List ValueId} (h : g.Adds vs ops v) : vs ≠ [] := by
  cases h with
  | one => simp
  | add _ _ => simp

theorem Adds.of_one {b : ValueId} (h : g.Adds [b] ops v) : ops = [] ∧ v = b := by
  generalize hvs : [b] = vs at h
  cases h with
  | one =>
    cases hvs
    exact ⟨rfl, rfl⟩
  | @add vs ops n a b' sum h _ =>
    obtain rfl : vs = [] := by
      cases vs with
      | nil => rfl
      | cons w vs => simp at hvs
    exact absurd rfl h.ne_nil

theorem Adds.computes {vs : List ValueId} (h : g.Adds vs ops v) (ho : o ∈ ops) :
    ∃ f w, g.Computes o f w := by
  induction h with
  | one => cases ho
  | add _ hn ih =>
    rcases List.mem_append.1 ho with ho | ho
    · exact ih ho
    · exact ⟨_, _, List.mem_singleton.1 ho ▸ hn⟩

theorem Adds.carry {vs : List ValueId} (h : g.Adds vs ops v)
    (hkept : ∀ {o a b w}, g.Computes o (.sum a b) w → g'.Computes o (.sum a b) w) :
    g'.Adds vs ops v := by
  induction h with
  | one => exact .one
  | add _ hn ih => exact .add ih (hkept hn)

namespace Laced

theorem collapsed (h : g.Laced q row ops out) : g.Collapsed q (row.map Link.angle) ops out := by
  induction h with
  | nil => exact .nil
  | cons hlast hadds hx _ ih => exact .cons hlast hadds hx ih

theorem append_iff : g.Laced q (l₁ ++ l₂) ops out ↔
    ∃ u ops₁ ops₂, ops = ops₁ ++ ops₂ ∧ g.Laced q l₁ ops₁ u ∧ g.Laced u l₂ ops₂ out := by
  constructor
  · intro h
    induction l₁ generalizing q ops with
    | nil => exact ⟨q, [], ops, rfl, .nil, h⟩
    | cons x l₁ ih =>
      cases h with
      | cons hlast hadds hx h =>
        obtain ⟨u, ops₁, ops₂, rfl, h₁, h₂⟩ := ih h
        exact ⟨u, _, ops₂, by simp, .cons hlast hadds hx h₁, h₂⟩
  · rintro ⟨u, ops₁, ops₂, rfl, h₁, h₂⟩
    induction h₁ with
    | nil => exact h₂
    | cons hlast hadds hx _ ih =>
      rw [List.append_assoc, List.cons_append]
      exact .cons hlast hadds hx (ih h₂)

theorem carry (h : g.Laced q row ops out)
    (hsum : ∀ {o a b w}, g.Computes o (.sum a b) w → g'.Computes o (.sum a b) w)
    (hrow : ∀ x ∈ row, ∀ {f w}, g.Computes x.op f w → g'.Computes x.op f w) :
    g'.Laced q row ops out := by
  induction h with
  | nil => exact .nil
  | cons hlast hadds hx _ ih =>
    exact .cons hlast (hadds.carry hsum) (hrow _ (.head _) hx) (ih fun y hy => hrow y (.tail _ hy))

theorem angle_last {x : Link (List (Axis × ValueId))} (h : g.Laced q row ops out) (hx : x ∈ row) :
    ∃ b, x.angle.getLast? = some (x.axis, b) := by
  induction h with
  | nil => cases hx
  | cons hlast _ _ _ ih =>
    rcases List.mem_cons.1 hx with rfl | hx
    · exact ⟨_, hlast⟩
    · exact ih hx

/-- Every operation is a sum or a rotation. -/
theorem computes (h : g.Laced q row ops out) (ho : o ∈ ops) : ∃ f w, g.Computes o f w := by
  induction h with
  | nil => cases ho
  | cons _ hadds hx _ ih =>
    rcases List.mem_append.1 ho with ho | ho
    · exact hadds.computes ho
    · rcases List.mem_cons.1 ho with rfl | ho
      · exact ⟨_, _, hx⟩
      · exact ih ho

end Laced

/-! ## A sweep -/

/-- What a sweep along the rotations keeps: the body is laced, the rotations to come have angles
of their own, and every reduction takes one rotation away. -/
structure Collapsing (axes : Rules.AxisMatch) (root last : OpId) (d : Op) (first out : ValueId)
    (turns : List (Axis × ValueId)) (k : Nat) (g : Graph)
    (front todo : List (Link (List (Axis × ValueId)))) : Prop where
  laced : ∃ ops, g.children root = .ok (ops ++ [last]) ∧ g.Laced first (front ++ todo) ops out
  single : ∀ x ∈ todo, ∃ a, x.angle = [(x.axis, a)]
  parts : ((front ++ todo).map Link.angle).flatten = turns
  alike : axes = .same → ∀ x ∈ front ++ todo, ∀ t ∈ x.angle, t.1 = x.axis
  count : k + (front ++ todo).length = turns.length
  closing : g.op last = .ok d
  symbolic {o : OpId} {c : Binary64} {v : ValueId} : g.Inside root o → ¬g.Computes o (.const c) v

variable {axes : Rules.AxisMatch} {d : Op} {turns : List (Axis × ValueId)} {k : Nat}
  {front todo front' todo' : List (Link (List (Axis × ValueId)))}

namespace Collapsing

theorem advance {y : Link (List (Axis × ValueId))}
    (h : Collapsing axes root last d first out turns k g front (y :: todo)) :
    Collapsing axes root last d first out turns k g (front ++ [y]) todo := by
  have heq : front ++ [y] ++ todo = front ++ y :: todo := by simp
  exact ⟨by rw [heq]; exact h.laced, fun x hx => h.single x (.tail y hx),
    by rw [heq]; exact h.parts, by rw [heq]; exact h.alike, by rw [heq]; exact h.count, h.closing,
    h.symbolic⟩

/-- When two rotations are fused, the new sum takes the place of the one that goes and adds
the angle of the one that stays. -/
theorem laced_fused {F rest : List (Link (List (Axis × ValueId)))}
    {x y : Link (List (Axis × ValueId))} {n : OpId} {l : Location} {a b c u v input sum : ValueId}
    {ops : List OpId} {g₁ g₂ : Graph} (hg : g.Linked)
    (hrow : g.Rotating axes root first out [] (F ++ [x]) (y :: rest))
    (hlaced : g.Laced first (F ++ [x] ++ y :: rest) ops out) (hyangle : y.angle = [(y.axis, c)])
    (hfy : g.Computes y.op (.rotation y.axis b u) v)
    (hfx : g.Computes x.op (.rotation x.axis a input) u) (hi : Inserted g x.op (.add l a b) n g₁)
    (hn : g₁.Computes n (.sum a b) sum) (hr : Rerouted g₁ y.op sum input g₂)
    (he : Erased g₂ x.op g') :
    ∃ before after, ops = before ++ x.op :: after ∧
      g'.Laced first (F ++ [⟨y.op, y.axis, x.angle ++ y.angle⟩] ++ rest) (before ++ n :: after)
        out := by
  obtain ⟨hxy, hapart⟩ := hrow.apart_of_next hg
  have hn' : g'.Computes n (.sum a b) sum :=
    he.computes (hr.computes_other hn (hi.ne_of_computes hfy)) (hi.ne_of_computes hfx)
  have hfy' : g'.Computes y.op (.rotation y.axis sum input) v :=
    he.computes (hr.computes (hi.computes hfy)) hxy.symm
  have hsums : ∀ {z d d' w}, g.Computes z (.sum d d') w → g'.Computes z (.sum d d') w :=
    fun hz => Rotating.pure_of_fusion hfy hfx hi hr he hz rfl
  have hothers : ∀ z ∈ F ++ rest, ∀ {f w}, g.Computes z.op f w → g'.Computes z.op f w := by
    intro z hz f w hfz
    obtain ⟨hzx, hzy⟩ := hapart z hz
    exact Rotating.computes_of_fusion hi hr he hfz hzy hzx
  rw [List.append_assoc] at hlaced
  obtain ⟨w, opsF, ops₁, rfl, hF, hlaced⟩ := Laced.append_iff.1 hlaced
  cases hlaced with
  | @cons _ _ adds ops₁ a' _ _ v' _ hxlast hxadds hx hlaced =>
  cases hlaced with
  | @cons _ _ adds' ops₂ b' _ _ v'' _ hylast hyadds hy hrest =>
  obtain ⟨hform, rfl⟩ := hx.unique hfx
  cases hform
  obtain ⟨hform, rfl⟩ := hy.unique hfy
  cases hform
  rw [hyangle] at hyadds
  obtain ⟨rfl, hbc⟩ : adds' = [] ∧ b = c := hyadds.of_one
  refine ⟨opsF ++ adds, y.op :: ops₂, by simp, ?_⟩
  have hlist : opsF ++ adds ++ n :: y.op :: ops₂ = opsF ++ (adds ++ [n] ++ y.op :: ops₂) := by simp
  rw [List.append_assoc, List.singleton_append, hlist]
  refine Laced.append_iff.2 ⟨_, _, _, rfl, hF.carry hsums ?_, ?_⟩
  · exact fun z hz => hothers z (List.mem_append_left _ hz)
  refine .cons (x := ⟨y.op, y.axis, x.angle ++ y.angle⟩) (b := c) ?_ ?_ hfy' ?_
  · simp [hyangle]
  · have hadds := (hxadds.carry hsums).add hn'
    simpa [hyangle, ← hbc] using hadds
  · exact hrest.carry hsums fun z hz => hothers z (List.mem_append_right _ hz)

theorem step (hg : g.Valid root) (hrow : g.Rotating axes root first out [] front todo)
    (h : Collapsing axes root last d first out turns k g front todo) (hk : d.kind = .ret)
    (hstep : RowStep axes root g front todo g' front' todo') :
    Collapsing axes root last d first out turns (k + 1) g' front' todo' := by
  cases hstep with
  | folded ho hf hp =>
    have hvisible := hg.visible (hf.held? 0) ho
    exact absurd hp (h.symbolic (hp.inside hg.linked (hvisible.belongs hg.linked hg.detached ho)))
  | unused ho hf => exact absurd hf (h.symbolic ho)
  | @fused F _ x y n l a b u v input sum g₁ g₂ _ hfy hfx haxes hi hn hr he =>
    have hxin := hrow.inside x (by simp)
    have hn' : g'.Computes n (.sum a b) sum :=
      he.computes (hr.computes_other hn (hi.ne_of_computes hfy)) (hi.ne_of_computes hfx)
    obtain ⟨c, hyangle⟩ := h.single y (.head todo')
    refine ⟨?_, fun z hz => h.single z (.tail y hz), by rw [← h.parts]; simp, ?_, ?_, ?_, ?_⟩
    · obtain ⟨ops, hcs, hlaced⟩ := h.laced
      obtain ⟨before, after, rfl, hlaced'⟩ :=
        laced_fused hg.linked hrow hlaced hyangle hfy hfx hi hn hr he
      rw [List.append_assoc, List.cons_append] at hcs
      refine ⟨before ++ n :: after, ?_, hlaced'⟩
      rw [hi.children_replaced hr.rewired he hg.linked (hxin.ne_root hg.detached).symm hcs]
      simp
    · intro hsame z hz t ht
      have halike := h.alike hsame
      simp only [List.append_assoc, List.singleton_append, List.mem_append, List.mem_cons] at hz
      rcases hz with hz | rfl | hz
      · exact halike z (by simp [hz]) t ht
      · rcases List.mem_append.1 ht with ht | ht
        · rw [halike x (by simp) t ht]
          exact haxes hsame
        · exact halike y (by simp) t ht
      · exact halike z (by simp [hz]) t ht
    · have hcount := h.count
      simp only [List.length_append, List.length_cons, List.length_nil] at hcount ⊢
      omega
    · have hrotate : ∀ {z f w}, g.Computes z f w → last ≠ z := by
        rintro z f w hz rfl
        obtain ⟨d', hd', hf, -⟩ := hz
        rw [h.closing] at hd'
        cases hd'
        simp [Op.formula?, hk] at hf
      exact Rotating.op_of_fusion hi hr he h.closing (hrotate hfy) (hrotate hfx)
    · intro o c w ho hf
      have hon : o ≠ n := by
        rintro rfl
        cases (hf.unique hn').1
      obtain ⟨f', hf', hout⟩ := hi.computes_old hr.rewired he hon hf
      obtain rfl := Formula.const_of_outline hout
      have hev := hi.evolves.trans (hr.rewired.evolves.trans he.evolves)
      exact h.symbolic (hev.inside ho (hf'.makes hg.linked)) hf'

/-- When all rotations have been looked at, each is one run. -/
theorem runs (h : Collapsing axes root last d first out turns k g row [])
    (hchain : row.IsChain (Unlike axes)) (hturns : turns ≠ []) :
    axes.runs turns = row.map Link.angle := by
  obtain ⟨ops, -, hlaced⟩ := h.laced
  have hparts := h.parts
  rw [List.append_nil] at hlaced hparts
  cases axes with
  | any =>
    -- no two rotations are apart, so there is one
    cases hchain with
    | nil => exact absurd hparts.symm hturns
    | singleton x =>
      have hone : x.angle = turns := by simpa using hparts
      rw [Rules.AxisMatch.runs, ← hone]
      rfl
    | cons_cons hxy _ => cases hxy.1
  | same =>
    have halike := h.alike rfl
    rw [List.append_nil] at halike
    have hne : ∀ {x}, x ∈ row → x.angle ≠ [] := by
      intro x hx hnil
      obtain ⟨b, hb⟩ := hlaced.angle_last hx
      rw [hnil] at hb
      cases hb
    refine List.splitBy_eq_iff.2 ⟨hparts.symm, ?_, ?_, ?_⟩
    · intro hmem
      obtain ⟨x, hx, hnil⟩ := List.mem_map.1 hmem
      exact hne hx hnil
    · intro run hrun
      obtain ⟨x, hx, rfl⟩ := List.mem_map.1 hrun
      refine List.Pairwise.isChain (List.pairwise_of_forall_mem_list fun t ht t' ht' => ?_)
      simp [halike x hx t ht, halike x hx t' ht']
    · refine (List.isChain_map _).2 (hchain.imp_of_mem_imp fun x y hx hy hxy => ?_)
      refine ⟨hne hx, hne hy, decide_eq_false ?_⟩
      rw [halike x hx _ (List.getLast_mem _), halike y hy _ (List.head_mem _)]
      exact hxy.2

end Collapsing

/-! ## The start -/

/-- A function that rotates a qubit by its arguments and returns it. -/
structure Chain (g : Graph) (root last : OpId) (d : Op) (b : BlockId) (B : Block)
    (first out : ValueId) (row : List (Link (List (Axis × ValueId)))) : Prop where
  function : g.Function root
  block : g.block b = .ok B
  ops : B.ops = row.map Link.op ++ [last]
  children : g.children root = .ok (row.map Link.op ++ [last])
  nested : g.nestedOps root = .ok (row.map Link.op ++ [last])
  argument : first ∈ B.args
  chained : g.Row first row out
  angles : ∀ x ∈ row, ∃ a u v, x.angle = [(x.axis, a)] ∧ a ∈ B.args ∧
    g.Computes x.op (.rotation x.axis a u) v
  closing : g.op last = .ok d
  kind : d.kind = .ret
  operands : d.operands = [out]
  leaf : d.regions = []

namespace Chain

variable {b : BlockId} {B : Block} {f : Formula}

theorem inside_iff (h : Chain g root last d b B first out row) :
    g.Inside root o ↔ o ∈ row.map Link.op ∨ o = last := by
  rw [← h.function.valid.mem_nestedOps h.nested, List.mem_append, List.mem_singleton]

theorem not_computes_last (h : Chain g root last d b B first out row) : ¬g.Computes last f v := by
  rintro ⟨d', hd', hf, -⟩
  rw [h.closing] at hd'
  cases hd'
  simp [Op.formula?, h.kind] at hf

theorem not_computes_argument (h : Chain g root last d b B first out row) (hv : v ∈ B.args) :
    ¬g.Computes o f v := by
  intro hf
  obtain ⟨x, hx, hmem, -⟩ := hf.op_ok
  exact h.function.valid.linked.argument_not_result h.block hv (slot_of_op hx) hmem

/-- Everything in the function that computes something is a rotation of the row. -/
theorem mem_row (h : Chain g root last d b B first out row) (ho : g.Inside root o)
    (hf : g.Computes o f v) : ∃ x ∈ row, x.op = o ∧ ∃ a u, f = .rotation x.axis a u := by
  rcases h.inside_iff.1 ho with hmem | rfl
  · obtain ⟨x, hx, rfl⟩ := List.mem_map.1 hmem
    obtain ⟨a, u, w, -, -, hfx⟩ := h.angles x hx
    exact ⟨x, hx, rfl, a, u, (hf.unique hfx).1⟩
  · exact absurd hf h.not_computes_last

theorem nodup (h : Chain g root last d b B first out row) : (row.map Link.op).Nodup := by
  have hnodup := h.function.valid.linked.nodupOps h.block
  rw [h.ops] at hnodup
  exact (List.nodup_append'.1 hnodup).1

theorem rotating (h : Chain g root last d b B first out row) (axes : Rules.AxisMatch) :
    g.Rotating axes root first out [] [] row where
  row := h.chained
  exist := by
    have hg := h.function.valid.linked
    obtain ⟨y, i, hy, -⟩ := hg.origin_argument h.block h.argument
    exact ⟨y, hy⟩
  source := h.not_computes_argument h.argument
  inside x hx := h.inside_iff.2 (.inl (List.mem_map_of_mem hx))
  ordered := by
    rw [List.nil_append, List.pairwise_iff_forall_sublist]
    intro o p hs
    refine ⟨b, B, h.block, ?_⟩
    rw [h.ops]
    exact hs.trans (List.sublist_append_left _ _)
  apart := .nil
  ready x hx a ha := by
    obtain ⟨a', u, w, -, hmem, hfx⟩ := h.angles x hx
    rw [hfx.held? 0] at ha
    cases ha
    refine ⟨h.not_computes_argument hmem, fun y hy => .argument h.block ?_ hmem⟩
    rw [h.ops]
    exact List.mem_append_left _ (List.mem_map_of_mem hy)
  whole ho hf := by
    obtain ⟨x, hx, rfl, -⟩ := h.mem_row ho hf
    exact .inl (List.mem_map_of_mem hx)
  extras := nofun
  plain ho hf := by
    obtain ⟨x, hx, rfl, a, u, hform⟩ := h.mem_row ho hf
    cases hform
  read ho hf := by
    obtain ⟨x, hx, rfl, a, u, hform⟩ := h.mem_row ho hf
    cases hform

/-- Each rotation is read by the next one, and the last one is returned. -/
theorem exclusive (h : Chain g root last d b B first out row) : g.Exclusive root := by
  intro o f v r r' ho hf _ hr hr'
  have hg := h.function.valid
  obtain ⟨x, hx, rfl, a, u, rfl⟩ := h.mem_row ho hf
  have hreads : ∀ {r}, g.held? r = some v →
      (∃ y ∈ row, ∃ a w, r = ⟨y.op, 1⟩ ∧ g.Computes y.op (.rotation y.axis a v) w) ∨
        r = ⟨last, 0⟩ ∧ v = out := by
    intro r hr
    rcases h.inside_iff.1 (hg.closed hr (hf.belongs ho)) with hmem | hlast
    · obtain ⟨y, hy, hyr⟩ := List.mem_map.1 hmem
      obtain ⟨a', u', w, -, harg, hfy⟩ := h.angles y hy
      rcases hfy.rotation_slots hr hyr.symm with ⟨-, rfl⟩ | ⟨rfl, rfl⟩
      · exact absurd hf (h.not_computes_argument harg)
      · exact .inl ⟨y, hy, a', w, rfl, hfy⟩
    · obtain ⟨user, i⟩ := r
      obtain rfl : user = last := hlast
      rw [held?_of_op h.closing, h.operands] at hr
      match i, hr with
      | 0, hr => exact .inr ⟨rfl, (Option.some.inj hr).symm⟩
  have hsource : ∀ x ∈ row, ∀ f, ¬g.Computes x.op f first :=
    fun _ _ _ => h.not_computes_argument h.argument
  have hne : ∀ {y a w}, y ∈ row → g.Computes y.op (.rotation y.axis a v) w → v ≠ out :=
    fun hy hfy => h.chained.input_ne_out hg.linked h.nodup hsource hy hfy
  rcases hreads hr with ⟨y, hy, a, w, rfl, hfy⟩ | ⟨rfl, hout⟩
  · rcases hreads hr' with ⟨y', hy', a', w', rfl, hfy'⟩ | ⟨rfl, hout⟩
    · rw [h.chained.input_inj hg.linked h.nodup hsource hy hy' hfy hfy']
    · exact absurd hout (hne hy hfy)
  · rcases hreads hr' with ⟨y', hy', a', w', rfl, hfy'⟩ | ⟨rfl, -⟩
    · exact absurd hout (hne hy' hfy')
    · rfl

theorem collapsing (h : Chain g root last d b B first out row) (axes : Rules.AxisMatch) :
    Collapsing axes root last d first out (row.map Link.angle).flatten 0 g [] row where
  laced := by
    refine ⟨row.map Link.op, h.children, ?_⟩
    have hrow := h.chained
    have hangles := h.angles
    rw [List.nil_append]
    clear h
    induction hrow with
    | nil => exact .nil
    | @cons x row a q v out hx _ ih =>
      obtain ⟨a', u, w, hangle, -, hx'⟩ := hangles x (.head row)
      obtain ⟨hform, -⟩ := hx'.unique hx
      cases hform
      have hlast : x.angle.getLast? = some (x.axis, a) := by simp [hangle]
      have hadds : g.Adds (x.angle.map Prod.snd) [] a := by
        rw [hangle]
        exact .one
      exact .cons hlast hadds hx (ih fun y hy => hangles y (.tail x hy))
  single x hx := by
    obtain ⟨a, -, -, hangle, -⟩ := h.angles x hx
    exact ⟨a, hangle⟩
  parts := rfl
  alike _ x hx t ht := by
    obtain ⟨a, -, -, hangle, -⟩ := h.angles x hx
    rw [hangle, List.mem_singleton] at ht
    rw [ht]
  count := by
    have hone : ∀ x ∈ row, x.angle.length = 1 := by
      intro x hx
      obtain ⟨a, -, -, hangle, -⟩ := h.angles x hx
      simp [hangle]
    simp [List.length_flatten, List.map_map, Function.comp_def, List.map_congr_left hone]
  closing := h.closing
  symbolic ho hf := by
    obtain ⟨x, hx, rfl, a, u, hform⟩ := h.mem_row ho hf
    cases hform

/-- The first sweep fuses the rotations of each run, and after it there is nothing to do. -/
theorem run (h : Chain g root last d b B first out row) (a : Pass) (hrow : row ≠ [])
    (hturns : (row.map Link.angle).flatten = turns) (hsweeps : 2 ≤ a.config.maxSweeps)
    (hstop : a.config.Unraised)
    (hbudget : ∀ k, a.config.budget = some k →
      turns.length - (a.axisMatch.runs turns).length < k) :
    ∃ g₂ ops, a.run g root =
        .ok (.ok ⟨if (a.axisMatch.runs turns).length < turns.length then 2 else 1,
          turns.length - (a.axisMatch.runs turns).length⟩, g₂) ∧
      g₂.nestedOps root = .ok (ops ++ [last]) ∧
      g₂.Collapsed first (a.axisMatch.runs turns) ops out ∧ g₂.op last = .ok d := by
  obtain ⟨ops, p, hdrained⟩ := (Progress.Undisturbed.start h.function.valid hstop).drained
    (a.rules_regular root)
  have hkept : Progress.Kept a root first out []
      (Collapsing a.axisMatch root last d first out turns) :=
    ⟨Collapsing.advance, fun hg hrow hI hstep => hI.step hg hrow h.kind hstep⟩
  have hops : ops = [] ++ (row.map Link.op ++ [last]) := by
    have hnested : g.nestedOps root = .ok ops := hdrained.nested
    rw [h.nested] at hnested
    exact (Except.ok.inj hnested).symm
  obtain ⟨row', hrotating, hend, -⟩ := hdrained.along hkept h.function.valid h.exclusive
    (h.rotating a.axisMatch) hops (hturns ▸ h.collapsing a.axisMatch)
  have hne : turns ≠ [] := by
    obtain ⟨x, row, rfl⟩ := List.exists_cons_of_ne_nil hrow
    obtain ⟨a, -, -, hangle, -⟩ := h.angles x (.head row)
    rw [← hturns]
    simp [hangle]
  have hruns := hend.runs hrotating.apart hne
  have hcount : p.reductions + (a.axisMatch.runs turns).length = turns.length := by
    rw [hruns, List.length_map]
    simpa using hend.count
  have hreductions : p.reductions = turns.length - (a.axisMatch.runs turns).length := by omega
  have hrun := hdrained.run h.function h.exclusive hsweeps (hreductions ▸ hbudget)
  obtain ⟨ops', hchildren, hlaced⟩ := hend.laced
  rw [List.append_nil] at hlaced
  refine ⟨p.graph, ops', ?_, nestedOps_of_leaves hchildren ?_, hruns ▸ hlaced.collapsed,
    hend.closing⟩
  · rw [hrun, hreductions]
    by_cases hlt : (a.axisMatch.runs turns).length < turns.length
    · rw [if_pos hlt, if_neg (by omega)]
    · rw [if_neg hlt, if_pos (by omega)]
  · intro o ho
    rcases List.mem_append.1 ho with ho | ho
    · obtain ⟨f, w, d, hd, -, -, hregions⟩ := hlaced.computes ho
      exact children_none hd hregions
    · rw [List.mem_singleton.1 ho]
      exact children_none hend.closing h.leaf

end Chain

/-- The rotations and the return, as a text. -/
def turnText (axes : List Axis) : Body (turnTypes axes).length :=
  turnsText axes (axes.map fun _ => Ty.number).length 1 0 fun n q =>
    .step (.ret [number n q]) .done

theorem build_turnText {axes : List Axis} {known : List ValueId}
    (h : known.length = (turnTypes axes).length) :
    (turnText axes).build known = turnBody axes known := by
  cases known with
  | nil => cases h
  | cons q angles =>
    have hlen : (q :: angles).length = (axes.map fun _ => Ty.number).length + 1 := h
    have hret : ∀ {n q : Nat} {known : List ValueId}, [] <+: known → known.length = n + 1 →
        q < n + 1 → (Body.step (.ret [number n q]) .done : Body (n + 1)).build known =
          (do let _ ← BuildM.ret [known.getD q default]) := by
      intro n q known _ _ hq
      rw [← named_number hq]
      exact (bind_assoc _ _ _).trans rfl
    exact build_turnsText hret List.nil_prefix hlen (by simp; omega) (by omega)

/-- In a graph without presets, the function is a chain with the given rotations. -/
theorem newFunc_chain (hg : g.Reachable false)
    (hexist : ∀ {o d v}, g.op o = .ok d → v ∈ d.operands → ∃ y, g.value v = .ok y)
    (name : String) (axes : List Axis) :
    ∃ root last d b B q angles out row g', g.newFunc name (turnTypes axes) (turnBody axes) =
        .ok (root, g') ∧ g'.firstBlock root = .ok b ∧ B.args = q :: angles ∧
      angles.length = axes.length ∧ Chain g' root last d b B q out row ∧
      row.map Link.angle = (axes.zip angles).map ([·]) := by
  obtain ⟨root, r, b, B, ops, g', hnew, hraised⟩ :=
    newFunc_raised g name (turnTypes axes) (turnText axes)
  have hfunction := hraised.function (.move hg (.newFunc (turnText axes).build_program hnew)) hexist
  rw [newFunc_congr fun vs => build_turnText] at hnew
  have hlen : B.args.length = (axes.map fun _ => Ty.number).length + 1 := hraised.length
  obtain ⟨row, q', vs', top', ops', hlaid, htop, hops, -, hq', hrow, -, hangles, heach⟩ :=
    hraised.laid.turns id hlen (by simp; omega) (by omega)
  simp only [id_eq] at hangles heach
  generalize (axes.map fun _ => Ty.number).length + axes.length = n at hlaid hq'
  cases hlaid with
  | @step _ _ _ _ _ vs l last top ops hd hvs hdone =>
  cases hdone
  cases hargs : B.args with
  | nil => simp [hargs] at hlen
  | cons q angles =>
    rw [hargs, List.drop_succ_cons, List.drop_zero] at hangles
    have hfirst : B.args.getD 0 default = q := by rw [hargs]; rfl
    rw [hfirst] at hrow
    have hlast : g'.firstBlock root = .ok b := by
      obtain ⟨l, name, hroot⟩ := hraised.made
      simp [firstBlock, body, hroot, Draft.made, Draft.func, hraised.region, entry]
    have hchain : Chain g' root last (((Statement.draft (B.args ++ vs') l
        (.ret [number n q'])).made vs).inBlock b) b B q ((B.args ++ vs').getD q' default) row := by
      refine ⟨hfunction, hraised.block, htop, ?_, ?_, by rw [hargs]; exact .head _, hrow, ?_, hd,
        rfl, congrArg ([·]) (named_number hq'), rfl⟩
      · rw [hraised.children, htop]
      · rw [hraised.nestedOps, hops]
      · intro x hx
        obtain ⟨a, u, v, hangle, -, hf⟩ := heach x hx
        refine ⟨a, u, v, hangle, ?_, hf⟩
        have hmem : [(x.axis, a)] ∈ (axes.zip angles).map ([·]) := by
          rw [← hangles, ← hangle]
          exact List.mem_map_of_mem hx
        obtain ⟨t, ht, hone⟩ := List.mem_map.1 hmem
        cases hone
        rw [hargs]
        exact .tail q (List.of_mem_zip ht).2
    exact ⟨root, last, _, b, B, q, angles, _, row, g', hnew, hlast, hargs,
      by simpa [hargs] using hlen, hchain, hangles⟩

end Graph

/-- The pass collapses rotations by arguments to one for each run.  A second sweep follows if there
is anything to fuse. -/
theorem Pass.run_collapses {g : Graph} (hg : g.Reachable false)
    (hexist : ∀ {o d v}, g.op o = .ok d → v ∈ d.operands → ∃ y, g.value v = .ok y)
    (name : String) {axes : List Axis} (haxes : axes ≠ []) (m : Rules.AxisMatch) :
    ∃ root g₁ b B q angles, g.newFunc name (turnTypes axes) (turnBody axes) = .ok (root, g₁) ∧
      g₁.firstBlock root = .ok b ∧ g₁.block b = .ok B ∧ B.args = q :: angles ∧
      angles.length = axes.length ∧
      ∃ g₂ ops last d out,
        Pass.run { config := { budget := none }, axisMatch := m } g₁ root =
          .ok (.ok ⟨if (m.runs (axes.zip angles)).length < axes.length then 2 else 1,
            axes.length - (m.runs (axes.zip angles)).length⟩, g₂) ∧
        g₂.nestedOps root = .ok (ops ++ [last]) ∧
        g₂.Collapsed q (m.runs (axes.zip angles)) ops out ∧
        g₂.op last = .ok d ∧ d.kind = .ret ∧ d.operands = [out] := by
  obtain ⟨root, last, d, b, B, q, angles, out, row, g₁, hnew, hblock, hargs, hlen, h, hangles⟩ :=
    newFunc_chain hg hexist name axes
  have hturns : (row.map Link.angle).flatten = axes.zip angles := by
    rw [hangles, ← List.flatMap_def]
    simp
  have hrow : row ≠ [] := by
    rintro rfl
    cases axes with
    | nil => exact haxes rfl
    | cons axis axes =>
      cases angles with
      | nil => cases hlen
      | cons a angles => cases hangles
  obtain ⟨g₂, ops, hrun, hnested, hcollapsed, hlast⟩ :=
    h.run { config := { budget := none }, axisMatch := m } hrow hturns (by simp)
      (fun _ => rfl) nofun
  have hcount : (axes.zip angles).length = axes.length := by simp [hlen]
  rw [hcount] at hrun
  exact ⟨root, g₁, b, B, q, angles, hnew, hblock, h.block, hargs, hlen, g₂, ops, last, d, out, hrun,
    hnested, hcollapsed, hlast, h.kind, h.operands⟩

/-- Beside another function: of three rotations, the first two become one. -/
theorem Pass.run_collapses_beside : pairGraph.Reachable false ∧
    ∃ root g₁ q a b c, pairGraph.newFunc "f" [.qubit, .number, .number, .number]
        (turnBody [.x, .x, .z]) = .ok (root, g₁) ∧
      ∃ g₂ ops last out, Pass.run { config := { budget := none } } g₁ root =
          .ok (.ok ⟨2, 1⟩, g₂) ∧ g₂.nestedOps root = .ok (ops ++ [last]) ∧
        g₂.Collapsed q [[(.x, a), (.x, b)], [(.z, c)]] ops out := by
  refine ⟨pairGraph_function.built, ?_⟩
  obtain ⟨root, g₁, _, _, q, angles, hnew, -, -, -, hlen, g₂, ops, last, -, out, hrun, hnested,
    hcollapsed, -⟩ := Pass.run_collapses pairGraph_function.built pairGraph_function.existing "f"
      (show [Axis.x, .x, .z] ≠ [] by decide) .same
  match angles, hlen with
  | [a, b, c], _ =>
    exact ⟨root, g₁, q, a, b, c, hnew, g₂, ops, last, out, hrun, hnested, hcollapsed⟩

end Peephole
