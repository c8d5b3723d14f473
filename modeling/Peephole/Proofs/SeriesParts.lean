import Peephole.Proofs.SeriesTexts
import Peephole.Proofs.Folding

/-!
# The parts of a series

The text of a series, once it is in a graph, has the parts of a `Layout`: the qubit, the constants
and the rotations (`Layout.Opens`), and one of two ends (`Closing`, `Detour`).  `Opens.holds` puts
them together.  Every operation gives values of its own, which is why the values that the end reads
are all different.
-/

namespace Peephole

namespace Graph

variable {g : Graph} {q : ValueId}

/-- Results of different operations are different. -/
theorem Linked.nodup_made (hg : g.Linked) {l : List (OpId × ValueId)}
    (hmade : ∀ t ∈ l, ∃ d, g.op t.1 = .ok d ∧ t.2 ∈ d.results)
    (hnodup : (l.map Prod.fst).Nodup) : (l.map Prod.snd).Nodup := by
  refine (hnodup.of_map _).map_on fun t ht t' ht' heq => ?_
  obtain ⟨d, hd, hv⟩ := hmade t ht
  obtain ⟨d', hd', hv'⟩ := hmade t' ht'
  exact Prod.ext (hg.result_unique (slot_of_op hd) hv (slot_of_op hd') (heq ▸ hv')) heq

theorem Link.map_eq_of_pairs {α β : Type*} {row : List (Link α)} {row' : List (Link β)}
    (h : row'.map (fun x => (x.op, x.axis)) = row.map (fun x => (x.op, x.axis))) :
    row'.map Link.op = row.map Link.op ∧ row'.map Link.axis = row.map Link.axis := by
  have hops := congrArg (List.map Prod.fst) h
  have haxes := congrArg (List.map Prod.snd) h
  rw [List.map_map, List.map_map] at hops haxes
  exact ⟨hops, haxes⟩

theorem Row.eq_of_nil {α : Type*} {out : ValueId} (h : g.Row q ([] : List (Link α)) out) :
    out = q := by
  cases h
  rfl

/-- A row is one whatever is known of its angles. -/
theorem Row.relabel {α β : Type*} {row : List (Link α)} {out : ValueId} (h : g.Row q row out) :
    ∀ {row' : List (Link β)},
      row'.map (fun x => (x.op, x.axis)) = row.map (fun x => (x.op, x.axis)) →
      g.Row q row' out := by
  induction h with
  | nil =>
    intro row' heq
    cases List.map_eq_nil_iff.1 heq
    exact .nil
  | cons hx _ ih =>
    intro row' heq
    cases row' with
    | nil => cases heq
    | cons y row' =>
      rw [List.map_cons, List.map_cons, List.cons.injEq, Prod.mk.injEq] at heq
      obtain ⟨⟨hop, haxis⟩, hrest⟩ := heq
      rw [← hop, ← haxis] at hx
      exact .cons hx (ih hrest)

end Graph

open Peephole.Graph

/-! ## The two ends -/

/-- The operations that measure a qubit and return the bit. -/
structure Closing where
  /-- The measurement. -/
  measure : OpId
  /-- The return. -/
  ret : OpId
  /-- The bit. -/
  bit : ValueId

namespace Closing

/-- The operations in their order. -/
def ops (E : Closing) : List OpId := [E.measure, E.ret]

/-- The operations are there and measure this qubit. -/
structure Holds (E : Closing) (g : Graph) (b : BlockId) (q : ValueId) : Prop where
  measured : ∃ l, g.op E.measure = .ok (((Draft.measure l q).made [E.bit]).inBlock b)
  returned : ∃ l, g.op E.ret = .ok (((Draft.ret l [E.bit]).made []).inBlock b)

end Closing

/-- The operations that rotate a qubit under a branch on the measurement of a second one. -/
structure Detour where
  /-- The second qubit is made. -/
  alloc : OpId
  /-- Its measurement. -/
  measure : OpId
  /-- The branch. -/
  branch : OpId
  /-- The rotation in it. -/
  turn : OpId
  /-- The end of the branch. -/
  yield : OpId
  /-- The second qubit. -/
  flag : ValueId
  /-- What it measures to. -/
  bit : ValueId
  /-- The first qubit after the rotation. -/
  turned : ValueId
  /-- The first qubit after the branch. -/
  out : ValueId

namespace Detour

/-- The operations that are not in the branch. -/
def top (D : Detour) : List OpId := [D.alloc, D.measure, D.branch]

/-- The operations in their order. -/
def ops (D : Detour) : List OpId := [D.alloc, D.measure, D.branch, D.turn, D.yield]

/-- The operations are there and rotate this qubit by this angle. -/
structure Holds (D : Detour) (g : Graph) (b : BlockId) (axis : Axis) (a q : ValueId) : Prop where
  made : ∃ l, g.op D.alloc = .ok (((Draft.alloc l).made [D.flag]).inBlock b)
  measured : ∃ l, g.op D.measure = .ok (((Draft.measure l D.flag).made [D.bit]).inBlock b)
  branched : ∃ l r, g.op D.branch = .ok (((Draft.branch l D.bit [.qubit] r).made [D.out]).inBlock b)
  rotated : ∃ l c, g.op D.turn = .ok (((Draft.rotate l axis a q).made [D.turned]).inBlock c)
  yielded : ∃ l c, g.op D.yield = .ok (((Draft.yield l [D.turned]).made []).inBlock c)
  children : g.children D.branch = .ok [D.turn, D.yield]

end Detour

namespace Graph

section Ends

variable {g : Graph} {m n i k : Nat} {b : BlockId} {axis : Axis} {known : List ValueId}
  {top ops : List OpId}

/-- A statement with no result. -/
theorem Laid.last {s : Statement n} {rest : Body (n + s.types.length)}
    (h : Laid g m b (.step s rest) known top ops) (hs : s.types = []) :
    ∃ o l top' ops', top = o :: top' ∧ ops = o :: ops' ∧
      g.op o = .ok (((s.draft known l).made []).inBlock b) ∧
      Laid g m b rest (known ++ []) top' ops' := by
  cases h with
  | @step _ _ _ _ _ vs l o top' ops' hd hvs hrest =>
    obtain rfl : vs = [] := List.length_eq_zero_iff.1 (by rw [hvs.length, hs]; rfl)
    exact ⟨o, l, top', ops', rfl, rfl, hd, hrest⟩

theorem Laid.closing (h : Laid g m b (endText n k) known top ops) (hlen : known.length = n + 1)
    (hk : k < n + 1) : ∃ E : Closing, top = E.ops ∧ ops = E.ops ∧
      E.Holds g b (known.getD k default) := by
  obtain ⟨o, v, l, top₁, ops₁, rfl, rfl, -, hd, hrest⟩ := Laid.single h rfl
  obtain ⟨p, l', top₂, ops₂, rfl, rfl, hp, hdone⟩ := hrest.last rfl
  cases hdone
  have hret : g.op p = .ok (((Draft.ret l' [named (known ++ [v])
      (number (n + 1) (n + 1))]).made []).inBlock b) := hp
  rw [named_number (by omega), getD_append_length hlen] at hret
  rw [← named_number hk]
  exact ⟨⟨o, p, v⟩, rfl, rfl, ⟨l, hd⟩, ⟨l', hret⟩⟩

/-- Nothing stands before the rotation of a detour. -/
theorem Laid.detour (h : Laid g m b (branchText axis i n k) known top ops) (hg : g.Linked)
    (hlen : known.length = n + 1) (hi : i < n + 1) (hk : k < n + 1) :
    ∃ (D : Detour) (E : Closing), top = D.top ++ E.ops ∧ ops = D.ops ++ E.ops ∧
      D.Holds g b axis (known.getD i default) (known.getD k default) ∧ E.Holds g b D.out ∧
      ∀ p, ¬g.Precedes p D.turn := by
  have hold : ∀ {j : Nat} {vs : List ValueId}, j < n + 1 →
      (known ++ vs).getD j default = known.getD j default := by
    intro j vs hj
    rw [List.getD_append _ _ _ _ (by omega)]
  obtain ⟨alloc, flag, l₁, top₁, ops₁, rfl, rfl, -, hflag, h⟩ := Laid.single h rfl
  obtain ⟨measure, bit, l₂, top₂, ops₂, rfl, rfl, -, hbit, h⟩ := Laid.single h rfl
  have hlen₁ : (known ++ [flag]).length = n + 2 := by simp [hlen]
  have hlen₂ : (known ++ [flag] ++ [bit]).length = n + 3 := by simp [hlen]
  cases h with
  | @branch _ c C r _ _ _ _ _ _ vs l₃ branch top below ops hd hvs hR hC hr hargs hlt hin hrest =>
  obtain ⟨out, rfl⟩ := List.length_eq_one_iff.1 hvs.length
  have hlen₃ : (known ++ [flag] ++ [bit] ++ [out]).length = n + 3 + 1 := by simp [hlen]
  obtain ⟨E, rfl, rfl, hE⟩ := hrest.closing hlen₃ (by omega)
  rw [getD_append_length hlen₂] at hE
  generalize hinner : C.ops = inner at hin
  obtain ⟨turn, turned, l₄, top₄, ops₄, rfl, rfl, -, hturn, hin⟩ := Laid.single hin rfl
  obtain ⟨yield, l₅, top₅, ops₅, rfl, rfl, hyield, hdone⟩ := hin.last rfl
  cases hdone
  have hmeasure : g.op measure = .ok (((Draft.measure l₂ (named (known ++ [flag])
      (number (n + 1) (n + 1)))).made [bit]).inBlock b) := hbit
  have hbranch : g.op branch = .ok (((Draft.branch l₃ (named (known ++ [flag] ++ [bit])
      (number (n + 2) (n + 2))) [.qubit] r).made [out]).inBlock b) := hd
  have hrotate : g.op turn = .ok (((Draft.rotate l₄ axis
      (named (known ++ [flag] ++ [bit]) (number (n + 2) i))
      (named (known ++ [flag] ++ [bit]) (number (n + 2) k))).made [turned]).inBlock c) := hturn
  have hend : g.op yield = .ok (((Draft.yield l₅ [named (known ++ [flag] ++ [bit] ++ [turned])
      (number (n + 3) (n + 3))]).made []).inBlock c) := hyield
  rw [named_number (by omega), getD_append_length hlen] at hmeasure
  rw [named_number (by omega), getD_append_length hlen₁] at hbranch
  rw [named_number (by omega), named_number (by omega), List.append_assoc, hold hi, hold hk]
    at hrotate
  rw [named_number (by omega), getD_append_length hlen₂] at hend
  refine ⟨⟨alloc, measure, branch, turn, yield, flag, bit, turned, out⟩, E, rfl, rfl,
    ⟨⟨l₁, hflag⟩, ⟨l₂, hmeasure⟩, ⟨l₃, r, hbranch⟩, ⟨l₄, c, hrotate⟩, ⟨l₅, c, hend⟩, ?_⟩, hE, ?_⟩
  · rw [← hinner]
    exact children_one hd rfl hR rfl hC
  · rintro p ⟨c', C', hC', hs⟩
    have hmem : turn ∈ C.ops := by simp [hinner]
    obtain ⟨rfl, rfl⟩ := hg.block_unique hC' hC (hs.subset (.tail _ (.head _))) hmem
    have hnodup := hg.nodupOps hC
    rw [hinner] at hs hnodup
    have hlast : turn ∈ [yield] := (List.sublist_cons_iff.1 hs).elim
      (fun hs => hs.subset (.tail _ (.head _)))
      (fun ⟨r, hr, hs⟩ => hs.subset (by cases hr; exact .head _))
    exact (List.nodup_cons.1 hnodup).1 hlast

end Ends

end Graph

/-! ## What comes before -/

/-- The parts of a layout before the rest. -/
structure Layout.Opens (L : Layout) (g : Graph) (b : BlockId) : Prop where
  source : ∃ l, g.op L.source = .ok (((Draft.alloc l).made [L.first]).inBlock b)
  numbers : ∀ t ∈ L.consts ++ L.keep, g.Computes t.1 (.const t.2.1) t.2.2
  row : g.Row L.first L.row L.out
  angles : ∀ x ∈ L.row, ∃ t ∈ L.consts, ∃ u v, x.angle = [t.2.1] ∧
    g.Computes x.op (.rotation x.axis t.2.2 u) v
  parts : L.row.map Link.angle = L.consts.map fun t => [t.2.1]
  used : ∀ t ∈ L.consts, ∃ x ∈ L.row, g.held? ⟨x.op, 0⟩ = some t.2.2

namespace Layout

/-- The layout with the slots and the rotations of its rest, where this is given by a table. -/
def close (L : Layout) (table : List (OpId × Op)) : Layout :=
  { L with
    extra := (table.filter (·.2.kind = .rotate)).map Prod.fst
    reads := table.flatMap fun t => t.2.operands.zipIdx.map fun x => (⟨t.1, x.2⟩, x.1) }

section Close

variable {L : Layout} {table : List (OpId × Op)} {o : OpId} {i : Nat} {v : ValueId}

theorem mem_reads : (⟨o, i⟩, v) ∈ (L.close table).reads ↔
    ∃ d, (o, d) ∈ table ∧ d.operands[i]? = some v := by
  simp only [close, List.mem_flatMap, List.mem_map, Prod.exists, List.mem_zipIdx_iff_getElem?]
  grind

theorem values_reads :
    (L.close table).reads.map Prod.snd = table.flatMap fun t => t.2.operands := by
  simp [close, List.map_flatMap, Function.comp_def]

theorem mem_extra : o ∈ (L.close table).extra ↔ ∃ d, (o, d) ∈ table ∧ d.kind = .rotate := by
  simp [close]

end Close

/-- The parts of a layout have no operations in common. -/
theorem apart (L : Layout) (h : L.all.Nodup) :
    (L.consts.map (·.1)).Disjoint
        ((L.source :: L.row.map Link.op) ++ (L.keep.map (·.1) ++ L.rest)) ∧
      (L.source :: L.row.map Link.op).Disjoint (L.keep.map (·.1) ++ L.rest) ∧
      (L.keep.map (·.1) ++ L.rest).Nodup := by
  have hperm : L.all.Perm (L.consts.map (·.1) ++
      ((L.source :: L.row.map Link.op) ++ (L.keep.map (·.1) ++ L.rest))) := by
    rw [List.perm_iff_count]
    intro o
    simp only [all, List.map_append, List.count_append, List.count_cons]
    omega
  obtain ⟨-, hnodup, hconsts⟩ := List.nodup_append'.1 (hperm.nodup_iff.1 h)
  obtain ⟨-, hnodup, hrow⟩ := List.nodup_append'.1 hnodup
  exact ⟨hconsts, hrow, hnodup⟩

/-- The parts of the layout are those of a function with the block `b`. -/
structure Placed (L : Layout) (g : Graph) (root : OpId) (b : BlockId) : Prop where
  function : g.Function root
  block : ∃ B, g.block b = .ok B ∧ B.ops = L.top
  children : g.children root = .ok L.top
  nested : g.nestedOps root = .ok L.all
  forest : ∃ k, Forest g k L.post L.rest

theorem Placed.nodup {L : Layout} {g : Graph} {root : OpId} {b : BlockId}
    (h : L.Placed g root b) : L.all.Nodup := by
  obtain ⟨l, hl, -, hnodup, -⟩ := h.function.valid.linked.nestedOps_ok h.function.valid.detached
  rw [h.nested] at hl
  cases hl
  exact (List.nodup_cons.1 hnodup).2

namespace Opens

variable {L : Layout} {g : Graph} {b : BlockId} {root : OpId} {v : ValueId}

/-- The last qubit comes from a rotation, or from the source if there is none. -/
theorem out_made (h : L.Opens g b) :
    ∃ o d, o ∈ L.source :: L.row.map Link.op ∧ g.op o = .ok d ∧ L.out ∈ d.results := by
  have hrow := h.row
  cases hlist : L.row with
  | nil =>
    rw [hlist] at hrow
    obtain ⟨l, hd⟩ := h.source
    exact ⟨L.source, _, .head _, hd, hrow.eq_of_nil ▸ .head _⟩
  | cons x row =>
    rw [hlist] at hrow
    obtain ⟨y, hy, a, u, hf⟩ := hrow.out_computed
    obtain ⟨d, hd, hv, -⟩ := hf.op_ok
    exact ⟨y.op, d, .tail _ (List.mem_map_of_mem hy), hd, hv⟩

/-- What comes from the last rotation, from constants for later or from the rest comes neither from
the constants of the rotations nor from another rotation. -/
theorem outside (h : L.Opens g b) (hg : g.Linked) (hnodup : L.all.Nodup)
    (hv : v = L.out ∨ ∃ o ∈ L.keep.map (·.1) ++ L.rest, ∃ d, g.op o = .ok d ∧ v ∈ d.results) :
    v ∉ L.consts.map (·.2.2) ∧ ∀ x ∈ L.row, ∀ {f}, g.Computes x.op f v → v = L.out := by
  obtain ⟨hconsts, hrow, -⟩ := L.apart hnodup
  constructor
  · intro hmem
    obtain ⟨t, ht, rfl⟩ := List.mem_map.1 hmem
    have hf := h.numbers t (List.mem_append_left _ ht)
    have ht' : t.1 ∈ L.consts.map (·.1) := List.mem_map_of_mem ht
    rcases hv with hv | ⟨o, ho, d, hd, hv⟩
    · obtain ⟨o, d, ho, hd, hout⟩ := h.out_made
      obtain rfl := hf.op_of_result hg hd (hv ▸ hout)
      exact hconsts ht' (List.mem_append_left _ ho)
    · obtain rfl := hf.op_of_result hg hd hv
      exact hconsts ht' (List.mem_append_right _ ho)
  · intro x hx f hf
    rcases hv with hv | ⟨o, ho, d, hd, hv⟩
    · exact hv
    · obtain rfl := hf.op_of_result hg hd hv
      exact (hrow (.tail _ (List.mem_map_of_mem hx)) ho).elim

/-- A layout whose rest is the operations of a table.  The values that these read are the results of
different operations, and all gates among them are rotations that come first in their blocks. -/
theorem holds (h : L.Opens g b) (hp : L.Placed g root b) (table : List (OpId × Op))
    (hrest : L.rest = table.map Prod.fst) (htable : ∀ t ∈ table, g.op t.1 = .ok t.2)
    (makers : List (OpId × ValueId))
    (hvalues : (makers.map Prod.snd).Perm (table.flatMap fun t => t.2.operands))
    (hnodup : (makers.map Prod.fst).Nodup)
    (hmakers : ∀ t ∈ makers, (∃ d, g.op t.1 = .ok d ∧ t.2 ∈ d.results) ∧
      (t.2 = L.out ∨ t.1 ∈ L.keep.map (·.1) ++ L.rest))
    (hkept : ∀ t ∈ L.keep, ∃ x ∈ table, t.2.2 ∈ x.2.operands)
    (hgates : ∀ t ∈ table, t.2.kind.isReducible = true →
      t.2.kind = .rotate ∧ (∃ f v, g.Computes t.1 f v) ∧ ∀ p, ¬g.Precedes p t.1) :
    (L.close table).Holds g root := by
  have hg := hp.function.valid
  have hentry : ∀ o ∈ L.rest, ∃ d, (o, d) ∈ table ∧ g.op o = .ok d := by
    intro o ho
    rw [hrest] at ho
    obtain ⟨t, ht, rfl⟩ := List.mem_map.1 ho
    exact ⟨t.2, ht, htable t ht⟩
  refine ⟨hp.function, ⟨b, hp.block⟩, hp.children, hp.nested, ?_, h.numbers, h.row, h.angles,
    h.parts, h.used, ?_, hp.forest, ?_, ?_, ?_, ?_, ?_⟩
  · obtain ⟨l, hd⟩ := h.source
    exact ⟨_, hd, rfl, rfl, rfl, rfl⟩
  · intro t ht
    obtain ⟨x, hx, hv⟩ := hkept t ht
    obtain ⟨i, hi⟩ := List.mem_iff_getElem?.1 hv
    have hx' : x.1 ∈ L.rest := hrest ▸ List.mem_map_of_mem hx
    exact ⟨⟨x.1, i⟩, hx', by rw [held?_of_op (htable x hx), hi]⟩
  · rintro ⟨user, i⟩ v hu hr
    obtain ⟨d, hmem, hd⟩ := hentry user hu
    rw [held?_of_op hd] at hr
    exact mem_reads.2 ⟨d, hmem, hr⟩
  · rw [show ((L.close table).reads.map Prod.snd) = table.flatMap fun t => t.2.operands from
      values_reads, ← hvalues.nodup_iff]
    exact hg.linked.nodup_made (fun t ht => (hmakers t ht).1) hnodup
  · rintro ⟨user, i⟩ v hmem
    obtain ⟨d, hmem, hi⟩ := mem_reads.1 hmem
    have hv : v ∈ makers.map Prod.snd :=
      hvalues.mem_iff.2 (List.mem_flatMap.2 ⟨_, hmem, List.mem_of_getElem? hi⟩)
    obtain ⟨t, ht, rfl⟩ := List.mem_map.1 hv
    obtain ⟨hmade, hout | hkeep⟩ := hmakers t ht
    · exact h.outside hg.linked hp.nodup (.inl hout)
    · exact h.outside hg.linked hp.nodup (.inr ⟨t.1, hkeep, hmade⟩)
  · intro o ho f v hf
    obtain ⟨d, hmem, hd⟩ := hentry o ho
    obtain ⟨d', hd', hformula, -⟩ := id hf
    rw [hd] at hd'
    cases hd'
    obtain ⟨hkind, -, hred⟩ := Op.formula?_eq_some hformula
    obtain ⟨hk, -, -⟩ := hgates (o, d) hmem hred
    exact ⟨mem_extra.2 ⟨d, hmem, hk⟩, hf.rotation_of_kind (hkind ▸ hk)⟩
  · intro o ho
    obtain ⟨d, hmem, hk⟩ := mem_extra.1 ho
    obtain ⟨-, hf, hfirst⟩ := hgates (o, d) hmem (by rw [hk]; rfl)
    exact ⟨hf, fun _ => hfirst _⟩

/-- A layout whose rest measures the qubit and returns the bit. -/
theorem holds_closing (h : L.Opens g b) (hp : L.Placed g root b) (hkeep : L.keep = []) {E : Closing}
    (hrest : L.rest = E.ops) (hE : E.Holds g b L.out) : ∃ table, (L.close table).Holds g root := by
  obtain ⟨l, hmeasure⟩ := hE.measured
  obtain ⟨l', hret⟩ := hE.returned
  obtain ⟨o, d, ho, hd, hout⟩ := h.out_made
  have hapart : o ≠ E.measure := by
    rintro rfl
    exact (L.apart hp.nodup).2.1 ho (by simp [hrest, Closing.ops])
  refine ⟨_, h.holds hp [(E.measure, ((Draft.measure l L.out).made [E.bit]).inBlock b),
    (E.ret, ((Draft.ret l' [E.bit]).made []).inBlock b)] hrest ?_ [(o, L.out), (E.measure, E.bit)]
    (.refl _) ?_ ?_ (by simp [hkeep]) ?_⟩
  · simp [hmeasure, hret]
  · simp [hapart]
  · simp [hd, hout, hmeasure, hrest, Closing.ops, Draft.made, Op.inBlock]
  · intro t ht hk
    simp only [List.mem_cons, List.not_mem_nil, or_false] at ht
    rcases ht with rfl | rfl
    · cases hk
    · cases hk

/-- A layout whose rest has a branch with one more rotation before the end. -/
theorem holds_detour (h : L.Opens g b) (hp : L.Placed g root b) {t : OpId × Binary64 × ValueId}
    (hkeep : L.keep = [t]) {D : Detour} {E : Closing} {axis : Axis}
    (hrest : L.rest = D.ops ++ E.ops) (hD : D.Holds g b axis t.2.2 L.out) (hE : E.Holds g b D.out)
    (hfirst : ∀ p, ¬g.Precedes p D.turn) : ∃ table, (L.close table).Holds g root := by
  obtain ⟨l₁, halloc⟩ := hD.made
  obtain ⟨l₂, hmeasure⟩ := hD.measured
  obtain ⟨l₃, r, hbranch⟩ := hD.branched
  obtain ⟨l₄, c, hturn⟩ := hD.rotated
  obtain ⟨l₅, c', hyield⟩ := hD.yielded
  obtain ⟨l₆, hmeasure'⟩ := hE.measured
  obtain ⟨l₇, hret⟩ := hE.returned
  obtain ⟨o, d, ho, hd, hout⟩ := h.out_made
  obtain ⟨d', hd', hangle, -⟩ := (h.numbers t (by simp [hkeep])).op_ok
  obtain ⟨-, hrow, hnodup⟩ := L.apart hp.nodup
  have hturns : ∃ f v, g.Computes D.turn f v :=
    ⟨.rotation axis t.2.2 L.out, _, _, hturn, rfl, rfl, rfl⟩
  refine ⟨_, h.holds hp [(D.alloc, ((Draft.alloc l₁).made [D.flag]).inBlock b),
      (D.measure, ((Draft.measure l₂ D.flag).made [D.bit]).inBlock b),
      (D.branch, ((Draft.branch l₃ D.bit [.qubit] r).made [D.out]).inBlock b),
      (D.turn, ((Draft.rotate l₄ axis t.2.2 L.out).made [D.turned]).inBlock c),
      (D.yield, ((Draft.yield l₅ [D.turned]).made []).inBlock c'),
      (E.measure, ((Draft.measure l₆ D.out).made [E.bit]).inBlock b),
      (E.ret, ((Draft.ret l₇ [E.bit]).made []).inBlock b)] hrest ?_
    [(t.1, t.2.2), (o, L.out), (D.alloc, D.flag), (D.measure, D.bit), (D.turn, D.turned),
      (D.branch, D.out), (E.measure, E.bit)]
    (List.perm_append_comm_assoc [_, _] [_, _] [_, _, _]) ?_ ?_ ?_ ?_⟩
  · simp [halloc, hmeasure, hbranch, hturn, hyield, hmeasure', hret]
  · have hnodup' : ([o] ++ [t.1] ++ (D.ops ++ E.ops)).Nodup := by
      rw [hkeep, hrest] at hnodup hrow
      rw [List.append_assoc, List.singleton_append, List.nodup_cons]
      exact ⟨hrow ho, hnodup⟩
    simp only [Detour.ops, Closing.ops, List.cons_append, List.nil_append, List.nodup_cons,
      List.mem_cons, List.not_mem_nil, or_false, not_or, List.map_cons, List.map_nil] at hnodup' ⊢
    grind
  · simp [hd, hout, hd', hangle, halloc, hmeasure, hbranch, hturn, hmeasure', hkeep, hrest,
      Draft.made, Op.inBlock, Detour.ops, Closing.ops]
  · simp [hkeep, Draft.made, Op.inBlock, Draft.rotate]
  · intro x hx hk
    simp only [List.mem_cons, List.not_mem_nil, or_false] at hx
    rcases hx with rfl | rfl | rfl | rfl | rfl | rfl | rfl
    · cases hk
    · cases hk
    · cases hk
    · exact ⟨rfl, hturns, hfirst⟩
    · cases hk
    · cases hk
    · cases hk

end Opens

end Layout

/-- Rotations whose angles are some values, in order, each read the value at their place. -/
theorem Graph.computes_of_angles {g : Graph} {row : List (Link (List (Axis × ValueId)))}
    {axes : List Axis} {used : List (OpId × Binary64 × ValueId)}
    (hangles : row.map Link.angle = (axes.zip (used.map (·.2.2))).map fun t => [t])
    (heach : ∀ x ∈ row, ∃ a u v, x.angle = [(x.axis, a)] ∧
      g.Computes x.op (.rotation x.axis a u) v) :
    ∀ t ∈ row.zip used, ∃ u v, g.Computes t.1.op (.rotation t.1.axis t.2.2.2 u) v := by
  intro t ht
  obtain ⟨i, hi⟩ := List.mem_iff_getElem?.1 ht
  obtain ⟨hx, ht'⟩ := List.getElem?_zip_eq_some.1 hi
  obtain ⟨a, u, v, hangle, hf⟩ := heach t.1 (List.mem_of_getElem? hx)
  have hone : (row.map Link.angle)[i]? = some [(t.1.axis, a)] := by
    rw [List.getElem?_map, hx, Option.map_some, hangle]
  rw [hangles, List.getElem?_map, Option.map_eq_some_iff] at hone
  obtain ⟨t', hi', hone⟩ := hone
  cases hone
  obtain ⟨-, ha⟩ := List.getElem?_zip_eq_some.1 hi'
  rw [List.getElem?_map, ht'] at ha
  cases ha
  exact ⟨u, v, hf⟩

/-- The text of a series makes a layout, and the rest of this is laid out as the end of the text. -/
theorem Graph.Laid.series {g : Graph} {m : Nat} {b : BlockId} {top ops : List OpId}
    {c : RotationSeries} (h : Laid g m b c.text [] top ops) :
    ∃ (L : Layout) (known : List ValueId) (n k : Nat), top = L.top ∧ ops = L.all ∧ L.Opens g b ∧
      L.consts.map (·.2.1) = c.angles.take c.split ∧ L.keep.map (·.2.1) = c.angles.drop c.split ∧
      L.row.map Link.axis = c.axes ∧ Laid g m b (c.closing n k) known L.post L.rest ∧
      known.length = n + 1 ∧ k < n + 1 ∧ known.getD k default = L.out ∧
      ∀ t ∈ L.keep.head?, c.split + 1 < n + 1 ∧ known.getD (c.split + 1) default = t.2.2 := by
  obtain ⟨source, first, l, top₁, ops₁, rfl, rfl, -, hsource, h⟩ := Laid.single h rfl
  obtain ⟨made, top₂, ops₂, hturns, rfl, rfl, hnumbers, hmade⟩ := h.consts
  have hcount : made.length = c.angles.length := by rw [← hnumbers, List.length_map]
  have hsplit := c.split_le
  have haxes' : c.axes.length = c.split := by simp [RotationSeries.axes]
  replace hturns : Laid g m b (turnsText c.axes (0 + c.angles.length) 1 0 c.closing)
      (first :: made.map (·.2.2)) top₂ ops₂ := hturns
  have hlen : (first :: made.map fun t => t.2.2).length = 0 + c.angles.length + 1 := by
    simp [hcount]
  obtain ⟨row, k, vs, post, rest, hend, rfl, rfl, hvs, hk, hrow, haxes, hangles, heach⟩ :=
    hturns.turns id hlen (by omega) (by omega)
  simp only [id_eq] at hangles heach
  -- the first constants belong to the rotations, one to each
  have htake : (made.take c.split).length = c.split := by
    rw [List.length_take, hcount]
    exact Nat.min_eq_left hsplit
  have hrowlen : row.length = (made.take c.split).length := by
    rw [htake, ← haxes', ← haxes, List.length_map]
  have hzip : c.axes.zip (List.drop 1 (first :: made.map (·.2.2))) =
      c.axes.zip ((made.take c.split).map (·.2.2)) := by
    rw [List.drop_one, List.tail_cons]
    conv_lhs => rw [← List.take_append_drop c.split made, List.map_append]
    exact zip_append_right (by rw [List.length_map, htake, haxes'])
  have hpairs := computes_of_angles (hangles.trans (by rw [hzip])) fun x hx => by
    obtain ⟨a, u, v, hangle, -, hf⟩ := heach x hx
    exact ⟨a, u, v, hangle, hf⟩
  let links : List (Link (List Binary64)) :=
    (row.zip (made.take c.split)).map fun t => ⟨t.1.op, t.1.axis, [t.2.2.1]⟩
  have hlinks : links.map (fun x => (x.op, x.axis)) = row.map fun x => (x.op, x.axis) := by
    conv_rhs => rw [← List.map_fst_zip hrowlen.le]
    rw [List.map_map, List.map_map]
    rfl
  obtain ⟨hops, haxes''⟩ := Link.map_eq_of_pairs hlinks
  have hlen' : (first :: made.map (fun t => t.2.2) ++ vs).length =
      0 + c.angles.length + c.axes.length + 1 := by
    rw [List.length_append, hlen, hvs]
    omega
  refine ⟨⟨source, made.take c.split, made.drop c.split, links, post, rest, [], [], first, _⟩, _, _,
    k, ?_, ?_, ⟨⟨l, hsource⟩, ?_, hrow.relabel hlinks, ?_, ?_, ?_⟩, ?_, ?_, haxes''.trans haxes,
    hend, hlen', hk, rfl, ?_⟩
  · simp only [Layout.top, List.take_append_drop, hops]
  · simp only [Layout.all, List.take_append_drop, hops]
  · rw [List.take_append_drop]
    exact hmade
  · intro x hx
    obtain ⟨t, ht, rfl⟩ := List.mem_map.1 hx
    obtain ⟨u, v, hf⟩ := hpairs t ht
    exact ⟨t.2, (List.of_mem_zip ht).2, u, v, rfl, hf⟩
  · conv_rhs => rw [← List.map_snd_zip hrowlen.ge]
    rw [List.map_map, List.map_map]
    rfl
  · intro t ht
    obtain ⟨t', ht', rfl⟩ : ∃ t' ∈ row.zip (made.take c.split), t'.2 = t := by
      rw [← List.map_snd_zip hrowlen.ge] at ht
      exact List.mem_map.1 ht
    obtain ⟨u, v, hf⟩ := hpairs t' ht'
    exact ⟨_, List.mem_map_of_mem ht', hf.held? 0⟩
  · rw [List.map_take, hnumbers]
  · rw [List.map_drop, hnumbers]
  · intro t ht
    rw [Option.mem_def, List.head?_drop] at ht
    have hlt : c.split < made.length := (List.getElem?_eq_some_iff.1 ht).1
    refine ⟨by omega, ?_⟩
    rw [List.getD_append _ _ _ _ (by simp; omega), List.getD_eq_getElem?_getD,
      List.getElem?_cons_succ, List.getElem?_map, ht]
    rfl

end Peephole
