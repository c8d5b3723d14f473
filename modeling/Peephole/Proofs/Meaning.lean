import Peephole.Proofs.Safety
import Mathlib.Algebra.Ring.Int.Units

/-!
# What values mean

Gates are interpreted in a monoid in which two Hadamard gates cancel, an X gate between
two of them is a Z gate, and rotations about one axis add up.  A value then *means* a
source and an action: the source is a number or a value that no gate makes, and the action
is the product of the gates on the way from there, the last one on the left.  A number is
a source on its own, with the action of no gate.

Where a sum or a rotation wants a number, a source that is a value has the number that the
environment gives it.

Every edit of a function keeps what the operations that are left read, and so does a run
of the pass: it only touches constants, sums and gates, and all others stay in their order
and read values that mean the same.
-/

namespace Peephole

open Peephole.Graph

/-- Gates in a monoid. -/
structure Interpretation (M : Type*) [Monoid M] where
  hadamard : M
  pauliX : M
  pauliZ : M
  rotation : Axis → Binary64 → M
  cancel : hadamard * hadamard = 1
  conjugate : hadamard * pauliX * hadamard = pauliZ
  fuse (axis : Axis) (a b : Binary64) : rotation axis b * rotation axis a = rotation axis (a + b)

/-- The gate of a kind. -/
def Interpretation.gate {M : Type*} [Monoid M] (I : Interpretation M) : Kind → M
  | .hadamard => I.hadamard
  | .pauliX => I.pauliX
  | .pauliZ => I.pauliZ
  | _ => 1

section Gates

variable {M : Type*} [Monoid M] (I : Interpretation M) (a : M)

theorem Interpretation.hadamard_hadamard : I.gate .hadamard * (I.gate .hadamard * a) = a := by
  rw [← mul_assoc, gate, I.cancel, one_mul]

theorem Interpretation.hadamard_pauliX_hadamard :
    I.gate .hadamard * (I.gate .pauliX * (I.gate .hadamard * a)) = I.gate .pauliZ * a := by
  rw [← mul_assoc, ← mul_assoc, gate, gate, I.conjugate]
  rfl

theorem Interpretation.rotation_rotation (axis : Axis) (x y : Binary64) :
    I.rotation axis y * (I.rotation axis x * a) = I.rotation axis (x + y) * a := by
  rw [← mul_assoc, I.fuse]

end Gates

/-- Where gates start from. -/
inductive Source where
  | value (v : ValueId)
  | number (x : Binary64)

/-- What a value means. -/
structure Meaning (M : Type*) where
  source : Source
  action : M

/-- The number of a source, in an environment for values. -/
def Source.toNumber (env : ValueId → Binary64) : Source → Binary64
  | value v => env v
  | number x => x

section

variable {M : Type*} [Monoid M] (I : Interpretation M) (env : ValueId → Binary64)

/-- A value has a meaning, by the formulas it is computed with. -/
inductive Graph.Means (g : Graph) : ValueId → Meaning M → Prop
  | const {v : ValueId} {x : Binary64} : g.formula? v = some (.const x) →
      Means g v ⟨.number x, 1⟩
  | sum {v a b : ValueId} {m n : Meaning M} : g.formula? v = some (.sum a b) → Means g a m →
      Means g b n → Means g v ⟨.number (m.source.toNumber env + n.source.toNumber env), 1⟩
  | gate {v q : ValueId} {k : Kind} {m : Meaning M} : g.formula? v = some (.gate k q) →
      Means g q m → Means g v ⟨m.source, I.gate k * m.action⟩
  | rotation {v a q : ValueId} {axis : Axis} {m n : Meaning M} :
      g.formula? v = some (.rotation axis a q) → Means g a n → Means g q m →
      Means g v ⟨m.source, I.rotation axis (n.source.toNumber env) * m.action⟩
  | other {v : ValueId} : g.formula? v = none → Means g v ⟨.value v, 1⟩

end

variable {M : Type*} [Monoid M] {I : Interpretation M} {env : ValueId → Binary64} {g g' : Graph}
  {v w : ValueId} {m n : Meaning M} {root o : OpId}

namespace Graph.Means

/-! ## Meanings are unique -/

theorem const_inv {x : Binary64} (h : Means I env g v m) (hf : g.formula? v = some (.const x)) :
    m = ⟨.number x, 1⟩ := by
  cases h with
  | const hf' =>
    rw [hf] at hf'
    cases hf'
    rfl
  | sum hf' | gate hf' | rotation hf' | other hf' =>
    rw [hf] at hf'
    cases hf'

theorem sum_inv {a b : ValueId} (h : Means I env g v m) (hf : g.formula? v = some (.sum a b)) :
    ∃ k n, Means I env g a k ∧ Means I env g b n ∧
      m = ⟨.number (k.source.toNumber env + n.source.toNumber env), 1⟩ := by
  cases h with
  | sum hf' ha hb =>
    rw [hf] at hf'
    cases hf'
    exact ⟨_, _, ha, hb, rfl⟩
  | const hf' | gate hf' | rotation hf' | other hf' =>
    rw [hf] at hf'
    cases hf'

theorem gate_inv {k : Kind} {q : ValueId} (h : Means I env g v m)
    (hf : g.formula? v = some (.gate k q)) :
    ∃ n, Means I env g q n ∧ m = ⟨n.source, I.gate k * n.action⟩ := by
  cases h with
  | gate hf' hq =>
    rw [hf] at hf'
    cases hf'
    exact ⟨_, hq, rfl⟩
  | const hf' | sum hf' | rotation hf' | other hf' =>
    rw [hf] at hf'
    cases hf'

theorem rotation_inv {axis : Axis} {a q : ValueId} (h : Means I env g v m)
    (hf : g.formula? v = some (.rotation axis a q)) :
    ∃ k n, Means I env g a k ∧ Means I env g q n ∧
      m = ⟨n.source, I.rotation axis (k.source.toNumber env) * n.action⟩ := by
  cases h with
  | rotation hf' ha hq =>
    rw [hf] at hf'
    cases hf'
    exact ⟨_, _, ha, hq, rfl⟩
  | const hf' | sum hf' | gate hf' | other hf' =>
    rw [hf] at hf'
    cases hf'

theorem other_inv (h : Means I env g v m) (hf : g.formula? v = none) : m = ⟨.value v, 1⟩ := by
  cases h with
  | other _ => rfl
  | const hf' | sum hf' | gate hf' | rotation hf' =>
    rw [hf] at hf'
    cases hf'

theorem unique (h : Means I env g v m) (h' : Means I env g v n) : m = n := by
  induction h generalizing n with
  | const hf => exact (h'.const_inv hf).symm
  | sum hf _ _ iha ihb =>
    obtain ⟨k, n, ha, hb, rfl⟩ := h'.sum_inv hf
    rw [iha ha, ihb hb]
  | gate hf _ ih =>
    obtain ⟨n, hq, rfl⟩ := h'.gate_inv hf
    rw [ih hq]
  | rotation hf _ _ iha ihq =>
    obtain ⟨k, n, ha, hq, rfl⟩ := h'.rotation_inv hf
    rw [iha ha, ihq hq]
  | other hf => exact (h'.other_inv hf).symm

/-- A value has a meaning if the values in its formula have one. -/
theorem of_operands (h : ∀ {f a}, g.formula? v = some f → a ∈ f.operands →
    ∃ m, Means I env g a m) : ∃ m, Means I env g v m := by
  cases hf : g.formula? v with
  | none => exact ⟨_, .other hf⟩
  | some f =>
    cases f with
    | const x => exact ⟨_, .const hf⟩
    | sum a b =>
      obtain ⟨m, ha⟩ := h hf (.head [b])
      obtain ⟨n, hb⟩ := h hf (.tail a (.head []))
      exact ⟨_, .sum hf ha hb⟩
    | gate k q =>
      obtain ⟨m, hq⟩ := h hf (.head [])
      exact ⟨_, .gate hf hq⟩
    | rotation axis a q =>
      obtain ⟨n, ha⟩ := h hf (.head [q])
      obtain ⟨m, hq⟩ := h hf (.tail a (.head []))
      exact ⟨_, .rotation hf ha hq⟩

end Graph.Means

/-! ## Values under the root have meanings -/

/-- The place of an operation in its block, and zero for one without a block. -/
def Graph.rank (g : Graph) (o : OpId) : Nat :=
  match g.position? o with
  | .ok (some i) => i
  | _ => 0

/-- Operations come before one another in a well-founded way. -/
theorem Graph.Linked.precedes_wellFounded (hg : g.Linked) : WellFounded g.Precedes := by
  refine Subrelation.wf (r := InvImage (· < ·) g.rank) ?_ (InvImage.wf g.rank Nat.lt_wfRel.wf)
  intro p o hpo
  obtain ⟨b, B, hB, hs⟩ := hpo
  have hpos : ∀ {o}, o ∈ B.ops → ∃ i, B.ops.idxOf? o = some i ∧ g.rank o = i := by
    intro o ho
    obtain ⟨i, hi⟩ := Option.isSome_iff_exists.1 (List.isSome_idxOf?.2 ho)
    obtain ⟨d, hd, hb⟩ := hg.placed.2 ⟨B, hB, ho⟩
    exact ⟨i, hi, by simp [rank, position?_eq_ok hd hb hB, hi]⟩
  obtain ⟨i, hi, hi'⟩ := hpos (hs.subset (.head _))
  obtain ⟨j, hj, hj'⟩ := hpos (hs.subset (.tail p (.head _)))
  show g.rank p < g.rank o
  rw [hi', hj']
  exact (before_iff_idxOf? (hg.nodupOps hB) hi hj).1 hs

/-- The values in the formula of a result are read by its operation. -/
theorem Graph.Linked.held_of_formula? (hg : g.Linked) {f : Formula} (hf : g.formula? v = some f)
    (hw : w ∈ f.operands) : ∃ p d i, g.op p = .ok d ∧ v ∈ d.results ∧ g.held? ⟨p, i⟩ = some w := by
  obtain ⟨p, d, hd, hv, hdf⟩ := hg.formula?_eq_some hf
  rw [← (Op.formula?_eq_some hdf).2.1] at hw
  obtain ⟨i, hi⟩ := List.mem_iff_getElem?.1 hw
  have hheld : g.held? ⟨p, i⟩ = some w := held?_eq_some.2 ⟨d, hd, hi⟩
  exact ⟨p, d, i, hd, hv, hheld⟩

/-- What is visible under the root has a meaning: it is computed from what is visible at an
earlier operation of the block, or around it. -/
theorem Graph.Valid.means (h : g.Valid root) (I : Interpretation M) (env : ValueId → Binary64)
    {k : Nat} (ho : Within g root k o) (hv : g.Visible v o) : ∃ m, Means I env g v m := by
  induction k generalizing o v with
  | zero =>
    cases ho
    exact absurd hv (Visible.not_detached h.linked h.detached)
  | succ k ihk =>
    induction o using h.linked.precedes_wellFounded.induction generalizing v with
    | _ o iho =>
      cases hv with
      | argument hB _ hv =>
        apply Means.of_operands
        intro f a hf _
        obtain ⟨p, d, hd, hmem, -⟩ := h.linked.formula?_eq_some hf
        exact absurd hmem (h.linked.argument_not_result hB hv (slot_of_op hd))
      | @earlier _ p x hpo hx hv =>
        have hp : Within g root (k + 1) p := by
          cases ho with
          | step howner hn => exact .step ((h.linked.ownerOf?_of_precedes hpo).trans howner) hn
        apply Means.of_operands
        intro f a hf ha
        obtain ⟨q, d, i, hd, hmem, hheld⟩ := h.linked.held_of_formula? hf ha
        obtain rfl := h.linked.result_unique (slot_of_op hx) hv (slot_of_op hd) hmem
        exact iho p hpo hp (h.visible hheld ⟨k, hp⟩)
      | outer howner hv =>
        cases ho with
        | step howner' hn =>
          rw [howner] at howner'
          cases howner'
          exact ihk hn hv

/-! ## Edits keep meanings -/

namespace Graph

/-- A meaning carries over to another graph with the formulas it rests on. -/
theorem Means.carry {P : ValueId → Prop} (hsame : ∀ {v}, P v → g'.formula? v = g.formula? v)
    (hstep : ∀ {v f a}, P v → g.formula? v = some f → a ∈ f.operands → P a)
    (h : Means I env g v m) (hv : P v) : Means I env g' v m := by
  induction h with
  | const hf => exact .const ((hsame hv).trans hf)
  | sum hf _ _ iha ihb =>
    exact .sum ((hsame hv).trans hf) (iha (hstep hv hf (.head _)))
      (ihb (hstep hv hf (.tail _ (.head _))))
  | gate hf _ ih => exact .gate ((hsame hv).trans hf) (ih (hstep hv hf (.head _)))
  | rotation hf _ _ iha ihq =>
    exact .rotation ((hsame hv).trans hf) (iha (hstep hv hf (.head _)))
      (ihq (hstep hv hf (.tail _ (.head _))))
  | other hf => exact .other ((hsame hv).trans hf)

theorem Inserted.formula? {a n : OpId} {d : Draft} (h : Inserted g a d n g') {y : Value}
    (hy : g.value v = .ok y) : g'.formula? v = g.formula? v := by
  have hy' : g'.value v = .ok y := h.value.2 (.inl hy)
  refine (h.trimmed.formula? (hy.trans hy'.symm) ?_).symm
  intro hn
  obtain ⟨x, hx, hv⟩ := h.linked.definer?_eq_some hn
  obtain ⟨b, hmade⟩ := h.made
  rw [slot_of_op hmade] at hx
  cases hx
  have := index_lt_of_value hy
  have := (index_of_mem_nextValues hv).1
  omega

theorem Inserted.means {a n : OpId} {d : Draft} (hi : Inserted g a d n g') (h : g.Framed root)
    (hm : Means I env g v m) (hv : ∃ y, g.value v = .ok y) : Means I env g' v m := by
  refine hm.carry (P := fun v => ∃ y, g.value v = .ok y) ?_ ?_ hv
  · rintro v ⟨y, hy⟩
    exact hi.formula? hy
  · intro v f w _ hf hw
    obtain ⟨p, d, i, -, -, hheld⟩ := h.linked.held_of_formula? hf hw
    exact h.exist hheld

theorem Erased.means {f : Formula} {x : ValueId} (he : Erased g o g') (h : g.Framed root)
    (hf : g.Computes o f x) (hfree : ∀ u, g.held? u ≠ some x) (hm : Means I env g v m)
    (hv : v ≠ x) : Means I env g' v m := by
  refine hm.carry (P := fun v => v ≠ x) ?_ ?_ hv
  · intro v hv
    exact he.trimmed.formula? (he.value v) fun hdef => hv (hf.eq_of_definer? h.linked hdef)
  · intro v f' w _ hf' hw heq
    obtain ⟨p, d, i, -, -, hheld⟩ := h.linked.held_of_formula? hf' hw
    exact hfree _ (heq ▸ hheld)

theorem Redirected.formula? {old new : ValueId} (h : Redirected g old new g') :
    g'.formula? v = (g.formula? v).map (Formula.rename fun w => if w = old then new else w) :=
  h.rewired.formula? fun _ i => h.held ⟨_, i⟩

/-- Moving uses to a value that means the same.  What a value means is also what the value
means that now stands for it. -/
theorem Redirected.means {old new : ValueId} (h : Redirected g old new g')
    (halike : g.Alike old new) (hm : Means I env g v m) :
    Means I env g' v m ∧ Means I env g' (if v = old then new else v) m := by
  have hboth : ∀ {v m}, Means I env g' v m → (v = old → Means I env g' new m) →
      Means I env g' v m ∧ Means I env g' (if v = old then new else v) m := by
    intro v m hm hnew
    refine ⟨hm, ?_⟩
    split
    · exact hnew ‹_›
    · exact hm
  induction hm with
  | const hf =>
    refine hboth (.const (by rw [h.formula?, hf]; rfl)) ?_
    rintro rfl
    cases halike with
    | sum hold | pair hold | conjugation hold =>
      rw [hf] at hold
      cases hold
  | sum hf ha hb iha ihb =>
    refine hboth (.sum (by rw [h.formula?, hf]; rfl) iha.2 ihb.2) ?_
    rintro rfl
    cases halike with
    | sum hold hx hy hconst =>
      rw [hf] at hold
      cases hold
      rw [ha.const_inv hx, hb.const_inv hy]
      exact .const (by rw [h.formula?, hconst]; rfl)
    | pair hold | conjugation hold =>
      rw [hf] at hold
      cases hold
  | @gate _ q k m hf hq ihq =>
    refine hboth (.gate (by rw [h.formula?, hf]; rfl) ihq.2) ?_
    rintro rfl
    cases halike with
    | sum hold =>
      rw [hf] at hold
      cases hold
    | pair hold hfirst =>
      rw [hf] at hold
      cases hold
      have hfirst' : g'.formula? q = some (.gate .hadamard new) := by
        rw [h.formula?, hfirst, Option.map_some, Formula.rename, ite_self]
      obtain ⟨n, hn, rfl⟩ := ihq.1.gate_inv hfirst'
      rw [I.hadamard_hadamard]
      exact hn
    | @conjugation _ p input hold hx hp hz hne =>
      rw [hf] at hold
      cases hold
      have hx' : g'.formula? q = some (.gate .pauliX p) := by
        rw [h.formula?, hx, Option.map_some, Formula.rename, if_neg hne]
      have hp' := h.formula? (v := p)
      rw [hp] at hp'
      have hz' := h.formula? (v := new)
      rw [hz] at hz'
      obtain ⟨n, hn, rfl⟩ := ihq.1.gate_inv hx'
      obtain ⟨n', hn', rfl⟩ := hn.gate_inv hp'
      rw [I.hadamard_pauliX_hadamard]
      exact .gate hz' hn'
  | rotation hf ha hq iha ihq =>
    refine hboth (.rotation (by rw [h.formula?, hf]; rfl) iha.2 ihq.2) ?_
    rintro rfl
    cases halike with
    | sum hold | pair hold | conjugation hold =>
      rw [hf] at hold
      cases hold
  | other hf =>
    refine hboth (.other (by rw [h.formula?, hf]; rfl)) ?_
    rintro rfl
    cases halike with
    | sum hold | pair hold | conjugation hold =>
      rw [hf] at hold
      cases hold

/-- Fusing two rotations about one axis. -/
theorem Rerouted.means {axis : Axis} {a b q x input sum : ValueId}
    (h : Rerouted g o sum input g') (hg : g.Linked) (hf : g.Computes o (.rotation axis b q) x)
    (hq : g.formula? q = some (.rotation axis a input)) (hsum : g.formula? sum = some (.sum a b))
    (hne : q ≠ x) (hm : Means I env g v m) : Means I env g' v m := by
  have hx := hf.formula? hg
  have hsame : ∀ {w}, w ≠ x → g'.formula? w = g.formula? w := by
    intro w hw
    rw [h.rewired.formula? (σ := id)]
    · simp [funext Formula.rename_id]
    · intro p hp i
      have hpo : p ≠ o := by
        rintro rfl
        exact hw (hf.eq_of_definer? hg hp)
      rw [h.held, if_neg (by simp [hpo]), if_neg (by simp [hpo]), Option.map_id, id]
  have hx' := (h.computes hf).formula? (hg.rewired h.rewired)
  have hsum' : sum ≠ x := by
    rintro rfl
    rw [hx] at hsum
    cases hsum
  induction hm with
  | const hf' =>
    refine .const ((hsame ?_).trans hf')
    rintro rfl
    rw [hx] at hf'
    cases hf'
  | sum hf' _ _ iha ihb =>
    refine .sum ((hsame ?_).trans hf') iha ihb
    rintro rfl
    rw [hx] at hf'
    cases hf'
  | gate hf' _ ihq =>
    refine .gate ((hsame ?_).trans hf') ihq
    rintro rfl
    rw [hx] at hf'
    cases hf'
  | @rotation w _ _ _ _ _ hf' _ _ iha ihq =>
    by_cases hw : w = x
    · subst hw
      rw [hx] at hf'
      cases hf'
      obtain ⟨k, n, hk, hn, rfl⟩ := ihq.rotation_inv ((hsame hne).trans hq)
      rw [I.rotation_rotation]
      exact .rotation hx' (.sum ((hsame hsum').trans hsum) hk iha) hn
    · exact .rotation ((hsame hw).trans hf') iha ihq
  | other hf' =>
    refine .other ((hsame ?_).trans hf')
    rintro rfl
    rw [hx] at hf'
    cases hf'

/-! ## What a run keeps -/

/-- The operation is live and none of those that reductions make and erase. -/
def isFixed (g : Graph) (o : OpId) : Bool :=
  match g.op o with
  | .ok d => !d.kind.isReducible
  | .error _ => false

theorem isFixed_of_op {d : Op} (hd : g.op o = .ok d) : g.isFixed o = !d.kind.isReducible := by
  simp [isFixed, hd]

/-- The second graph has the blocks of the first, with the same fixed operations in the same
order, and these read values that mean the same. -/
structure Keeps (I : Interpretation M) (env : ValueId → Binary64) (g g' : Graph) : Prop where
  region (r : RegionId) : g'.region r = g.region r
  block {b : BlockId} {B : Block} : g.block b = .ok B →
    ∃ ops, g'.block b = .ok { B with ops } ∧ ops.filter g'.isFixed = B.ops.filter g.isFixed
  op {o : OpId} {d : Op} : g.op o = .ok d → d.kind.isReducible = false →
    ∃ d', g'.op o = .ok d' ∧ d'.unread = d.unread
  reads {o : OpId} {d : Op} {i : Nat} {v : ValueId} : g.op o = .ok d →
    d.kind.isReducible = false → g.held? ⟨o, i⟩ = some v →
    ∃ v', g'.held? ⟨o, i⟩ = some v' ∧ ∀ m, Means I env g v m → Means I env g' v' m

namespace Keeps

theorem refl (g : Graph) : Keeps I env g g :=
  ⟨fun _ => rfl, fun hB => ⟨_, hB, rfl⟩, fun hd _ => ⟨_, hd, rfl⟩,
    fun _ _ hv => ⟨_, hv, fun _ hm => hm⟩⟩

theorem trans {g'' : Graph} (h : Keeps I env g g') (h' : Keeps I env g' g'') :
    Keeps I env g g'' := by
  refine ⟨fun r => (h'.region r).trans (h.region r), ?_, ?_, ?_⟩
  · intro b B hB
    obtain ⟨ops, hB', hops⟩ := h.block hB
    obtain ⟨ops', hB'', hops'⟩ := h'.block hB'
    exact ⟨ops', hB'', hops'.trans hops⟩
  · intro o d hd hk
    obtain ⟨d', hd', hu⟩ := h.op hd hk
    obtain ⟨d'', hd'', hu'⟩ := h'.op hd' (by rw [Op.kind_of_unread hu, hk])
    exact ⟨d'', hd'', hu'.trans hu⟩
  · intro o d i v hd hk hv
    obtain ⟨d', hd', hu⟩ := h.op hd hk
    obtain ⟨v', hv', hm⟩ := h.reads hd hk hv
    obtain ⟨v'', hv'', hm'⟩ := h'.reads hd' (by rw [Op.kind_of_unread hu, hk]) hv'
    exact ⟨v'', hv'', fun m hmeans => hm' m (hm m hmeans)⟩

end Keeps

/-- Taking out an operation that is not fixed leaves the fixed ones. -/
theorem Trimmed.fixed {e : OpId} (h : Trimmed g g' e) (he : g.isFixed e = false)
    (ops : List OpId) :
    (ops.filter fun q => decide (q ≠ e)).filter g'.isFixed = ops.filter g.isFixed := by
  rw [List.filter_filter]
  apply List.filter_congr
  intro q _
  by_cases hq : q = e
  · simp [hq, he]
  · simp [hq, isFixed, h.op hq]

theorem Rewired.fixed (h : Rewired g g') : g'.isFixed = g.isFixed := by
  funext o
  cases hd : g.op o with
  | ok d =>
    obtain ⟨d', hd', hu⟩ := h.op_ok hd
    rw [isFixed_of_op hd, isFixed_of_op hd', Op.kind_of_unread hu]
  | error f =>
    cases hd' : g'.op o with
    | error f' => simp [isFixed, hd, hd']
    | ok d' =>
      obtain ⟨d, hd'', -⟩ := h.symm.op_ok hd'
      rw [hd] at hd''
      cases hd''

theorem Computes.not_fixed {f : Formula} (h : g.Computes o f v) : g.isFixed o = false := by
  obtain ⟨d, hd, hf, -⟩ := h
  rw [isFixed_of_op hd, (Op.formula?_eq_some hf).2.2]
  rfl

/-- Edits of a function keep the fixed operations and what they read. -/
theorem Edit.keeps (h : g.Valid root) (he : Edit .same root g g') : Keeps I env g g' := by
  cases he with
  | @insert a n d _ ha hd hblock hk hvisible hi =>
    have hnew : g'.isFixed n = false := by
      obtain ⟨b, hmade⟩ := hi.made
      rw [isFixed_of_op hmade]
      show (!d.kind.isReducible) = false
      rw [hk]
      rfl
    refine ⟨fun r => (hi.trimmed.region r).symm, ?_, ?_, ?_⟩
    · intro b B hB
      rw [hi.trimmed.block] at hB
      obtain ⟨B', hB', rfl⟩ := map_eq_ok.1 hB
      exact ⟨B'.ops, hB', (hi.trimmed.fixed hnew B'.ops).symm⟩
    · intro o x hx _
      exact ⟨x, hi.trimmed.op_ok hx, rfl⟩
    · intro o x i v hx _ hv
      have hheld : g'.held? ⟨o, i⟩ = some v := by
        rw [held?_of_op (u := ⟨o, i⟩) hx] at hv
        rw [held?_of_op (u := ⟨o, i⟩) (hi.trimmed.op_ok hx), hv]
      exact ⟨v, hheld, fun m hm => hi.means h.toFramed hm (h.exist hv)⟩
  | @redirect old new _ halike _ _ hr =>
    refine ⟨hr.rewired.region, ?_, ?_, ?_⟩
    · intro b B hB
      exact ⟨B.ops, (hr.rewired.block b).trans hB, by rw [hr.rewired.fixed]⟩
    · intro o d hd _
      exact hr.rewired.op_ok hd
    · intro o d i v _ _ hv
      refine ⟨_, by rw [hr.held, hv, Option.map_some], fun m hm => (hr.means halike hm).2⟩
  | @fuse o axis axis' a b q x input sum _ ho hf hq hsum haxis hne _ _ hr =>
    obtain rfl := haxis rfl
    refine ⟨hr.rewired.region, ?_, ?_, ?_⟩
    · intro b B hB
      exact ⟨B.ops, (hr.rewired.block b).trans hB, by rw [hr.rewired.fixed]⟩
    · intro o d hd _
      exact hr.rewired.op_ok hd
    · intro p d i v hd hk hv
      have hpo : p ≠ o := by
        rintro rfl
        have hfixed := hf.not_fixed
        rw [isFixed_of_op hd, hk] at hfixed
        cases hfixed
      refine ⟨v, ?_, fun m hm => hr.means h.linked hf hq hsum hne hm⟩
      rw [hr.held, if_neg (by simp [hpo]), if_neg (by simp [hpo]), hv]
  | @erase e f x _ he hf hfree hr =>
    have hne : ∀ {p d}, g.op p = .ok d → d.kind.isReducible = false → p ≠ e := by
      rintro p d hd hk rfl
      have hfixed := hf.not_fixed
      rw [isFixed_of_op hd, hk] at hfixed
      cases hfixed
    refine ⟨hr.trimmed.region, ?_, ?_, ?_⟩
    · intro b B hB
      refine ⟨_, by rw [hr.trimmed.block, hB, map_ok], hr.trimmed.fixed hf.not_fixed B.ops⟩
    · intro p d hd hk
      exact ⟨d, (hr.trimmed.op (hne hd hk)).trans hd, rfl⟩
    · intro p d i v hd hk hv
      refine ⟨v, by rw [hr.held, if_neg (hne hd hk), hv], fun m hm => ?_⟩
      exact hr.means h.toFramed hf hfree hm fun heq => hfree _ (heq ▸ hv)

theorem Edit.keeps_all (h : g.Valid root)
    (he : Relation.ReflTransGen (Edit .same root) g g') : Keeps I env g g' := by
  have hboth : g'.Valid root ∧ Keeps I env g g' := by
    induction he with
    | refl => exact ⟨h, .refl g⟩
    | tail _ he ih => exact ⟨he.valid ih.1, ih.2.trans (he.keeps ih.1)⟩
  exact hboth.2

end Graph

/-- The pass keeps the meaning of a function.  In every block the operations that are no
constants, sums or gates stay in their order, and each of their operands means the same
before and after. -/
theorem Pass.run_preserves (I : Interpretation M) (env : ValueId → Binary64) (c : Config)
    (h : g.Function root) :
    ∃ result g', Pass.run ⟨c, .same⟩ g root = .ok (result, g') ∧
      (∀ e, result ≠ .error (.refused e)) ∧ (∀ r, g'.region r = g.region r) ∧
      (∀ b B, g.block b = .ok B → ∃ ops, g'.block b = .ok { B with ops } ∧
        ops.filter g'.isFixed = B.ops.filter g.isFixed) ∧
      ∃ nested, g.nestedOps root = .ok nested ∧ ∀ o ∈ nested, ∀ d, g.op o = .ok d →
        d.kind.isReducible = false → ∃ d', g'.op o = .ok d' ∧ d'.unread = d.unread ∧
          ∀ (i : Nat) v, d.operands[i]? = some v → ∃ v' m, d'.operands[i]? = some v' ∧
            (∀ n, g.Means I env v n ↔ n = m) ∧ ∀ n, g'.Means I env v' n ↔ n = m := by
  obtain ⟨result, q, hrun, hresult, -, hedits, -⟩ := Pass.run_ok ⟨c, .same⟩ h.valid
  have hkeeps : Keeps I env g q.graph := Edit.keeps_all h.valid hedits
  obtain ⟨nested, hnested, -, -, hmem⟩ := h.valid.linked.nestedOps_ok h.valid.detached
  refine ⟨result, q.graph, hrun c.verify, hresult, hkeeps.region, fun b B hB => hkeeps.block hB,
    nested, hnested, ?_⟩
  intro o ho d hd hk
  obtain ⟨d', hd', hu⟩ := hkeeps.op hd hk
  refine ⟨d', hd', hu, ?_⟩
  intro i v hv
  have hheld : g.held? ⟨o, i⟩ = some v := held?_eq_some.2 ⟨d, hd, hv⟩
  obtain ⟨v', hv', hmeans⟩ := hkeeps.reads hd hk hheld
  have hin := (hmem o).1 ho
  obtain ⟨k, hlevel⟩ := id hin
  obtain ⟨m, hm⟩ := h.valid.means I env hlevel (h.valid.visible hheld hin)
  refine ⟨v', m, (held?_of_op (u := ⟨o, i⟩) hd').symm.trans hv', ?_, ?_⟩
  · intro n
    exact ⟨fun hn => hn.unique hm, fun heq => heq ▸ hm⟩
  · intro n
    exact ⟨fun hn => hn.unique (hmeans m hm), fun heq => heq ▸ hmeans m hm⟩

/-- Hadamard and Pauli gates as signs, and rotations that do nothing. -/
def signs : Interpretation ℤˣ where
  hadamard := -1
  pauliX := -1
  pauliZ := -1
  rotation _ _ := 1
  cancel := by decide
  conjugate := by decide
  fuse _ _ _ := by decide

theorem Pass.run_preserves_pair : ∃ result g',
    Pass.run ⟨{}, .same⟩ pairGraph ⟨3⟩ = .ok (result, g') ∧ ∃ d' v' m,
      g'.op ⟨2⟩ = .ok d' ∧ d'.operands[0]? = some v' ∧
      pairGraph.Means signs (fun _ => default) ⟨2⟩ m ∧ g'.Means signs (fun _ => default) v' m := by
  obtain ⟨result, g', hrun, -, -, -, nested, hnested, hreads⟩ :=
    Pass.run_preserves signs (fun _ => default) {} pairGraph_function
  have hmem : ⟨2⟩ ∈ nested := by
    have hops : pairGraph.nestedOps ⟨3⟩ = .ok [⟨0⟩, ⟨1⟩, ⟨2⟩] := by decide +kernel
    rw [hops] at hnested
    cases hnested
    decide
  obtain ⟨d', hd', -, hoperands⟩ := hreads ⟨2⟩ hmem _ rfl rfl
  obtain ⟨v', m, hv', hbefore, hafter⟩ := hoperands 0 ⟨2⟩ rfl
  exact ⟨result, g', hrun, d', v', m, hd', hv', (hbefore m).2 rfl, (hafter m).2 rfl⟩

end Peephole
