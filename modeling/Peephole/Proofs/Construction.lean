import Peephole.Proofs.Bodies
import Peephole.Proofs.Validity

/-!
# Built functions

Whatever the graph was before, provided that its use lists agree with its slots and that
nothing live reads a value yet to be made, a function built from a text is valid:
`newFunc_sound`.  `Graph.Built` says that its operations are those of the text, each under the
operation around its statement.

The graph may have been made with presets, so its links need not agree.  The argument
stays inside the new function: the links there are read off the text (`Laid`), the search
for a value climbs from a block to one made before it (`Reads.inScopeTo`), and an operation
from before cannot hold a value of the function.
-/

namespace Peephole

theorem Statement.standard_draft {n : Nat} (s : Statement n) (known : List ValueId) (l : Location) :
    (s.draft known l).Standard := by
  cases s with
  | alloc => exact .alloc l
  | const x => exact .const l x
  | add i j => exact .add l _ _
  | rotate axis i j => exact .rotate l axis _ _
  | gate kind i hk => exact .gate (Draft.gate_eq_ok.2 ⟨hk, rfl⟩)
  | measure i => exact .measure l _
  | ret is => exact .ret l _
  | yield is => exact .yield l _

namespace Graph

variable {g : Graph}

/-! ## The operations of a text -/

/-- The operations `ops` are those of a text, one for each statement and in the order of the
text, a branch before its body.  The `owner` is around all of them but those of inner bodies,
and there it is the branch. -/
inductive Built (g : Graph) : (owner : OpId) → {n : Nat} → Body n → (known : List ValueId) →
    (ops : List OpId) → Prop
  | done {owner : OpId} {n : Nat} {known : List ValueId} :
      Built g owner (.done : Body n) known []
  | step {owner o : OpId} {b : BlockId} {n : Nat} {s : Statement n}
      {rest : Body (n + s.types.length)} {known vs : List ValueId} {l : Location}
      {ops : List OpId} : g.op o = .ok (((s.draft known l).made vs).inBlock b) →
      vs.length = s.types.length → g.ownerOf? o = .ok (some owner) →
      Built g owner rest (known ++ vs) ops → Built g owner (.step s rest) known (o :: ops)
  | branch {owner o : OpId} {b : BlockId} {r : RegionId} {n : Nat} {i : Fin n} {types : List Ty}
      {inner : Body n} {rest : Body (n + types.length)} {known vs : List ValueId} {l : Location}
      {below ops : List OpId} :
      g.op o = .ok (((Draft.branch l (named known i) types r).made vs).inBlock b) →
      vs.length = types.length → g.ownerOf? o = .ok (some owner) → Built g o inner known below →
      Built g owner rest (known ++ vs) ops →
      Built g owner (.branch i types inner rest) known (o :: (below ++ ops))

section

variable {m n : Nat} {b : BlockId} {B : Block} {r : RegionId} {R : Region} {q : OpId} {p : Body n}
  {known : List ValueId} {top ops : List OpId}

theorem ownerOf?_of_block {o : OpId} {d : Op} (hd : g.op o = .ok d) (hdb : d.block = some b)
    (hB : g.block b = .ok B) (hr : B.region = some r) (hR : g.region r = .ok R)
    (hq : R.owner = some q) : g.ownerOf? o = .ok (some q) :=
  ownerOf?_eq_some.2 ⟨r, R, regionOf?_eq_some.2 ⟨d, b, B, hd, hdb, hB, hr⟩, hR, hq⟩

theorem Laid.built (h : Laid g m b p known top ops) :
    ∀ {B : Block} {r : RegionId} {R : Region} {q : OpId}, g.block b = .ok B →
      B.region = some r → g.region r = .ok R → R.owner = some q → Built g q p known ops := by
  induction h with
  | done =>
    intros
    exact .done
  | step hd hvs _ ih =>
    intro B r R q hB hr hR hq
    exact .step hd hvs.length (ownerOf?_of_block hd rfl hB hr hR hq) (ih hB hr hR hq)
  | branch hd hvs hR' hC hr' _ _ _ _ ihin ihrest =>
    intro B r R q hB hr hR hq
    exact .branch hd hvs.length (ownerOf?_of_block hd rfl hB hr hR hq) (ihin hC hr' hR' rfl)
      (ihrest hB hr hR hq)

/-! ## Walks -/

theorem children_none {o : OpId} {d : Op} (hd : g.op o = .ok d) (hregions : d.regions = []) :
    g.children o = .ok [] := by
  simp [children, innerBlocks, hd, hregions]

theorem children_one {o : OpId} {d : Op} {c : BlockId} {C : Block} (hd : g.op o = .ok d)
    (hregions : d.regions = [r]) (hR : g.region r = .ok R) (hblocks : R.blocks = [c])
    (hC : g.block c = .ok C) : g.children o = .ok C.ops := by
  simp [children, innerBlocks, hd, hregions, hR, hblocks, hC]

theorem Forest.mono {k j : Nat} {os l : List OpId} (h : Forest g k os l) (hkj : k ≤ j) :
    Forest g j os l := by
  induction h generalizing j with
  | nil => exact .nil
  | cons hcs _ _ ihin ihrest =>
    cases j with
    | zero => cases hkj
    | succ j => exact .cons hcs (ihin (Nat.le_of_succ_le_succ hkj)) (ihrest hkj)

/-- A text is no deeper than it is long. -/
theorem Laid.forest (h : Laid g m b p known top ops) : Forest g ops.length top ops := by
  induction h with
  | done => exact .nil
  | @step _ _ s _ _ _ _ o top ops hd _ _ ih =>
    have h : Forest g (ops.length + 1) (o :: top) (o :: ([] ++ ops)) :=
      .cons (children_none hd (s.regions_draft _ _)) .nil (ih.mono (Nat.le_succ _))
    exact h
  | branch hd _ hR hC _ _ _ _ _ ihin ihrest =>
    refine .cons (children_one hd rfl hR rfl hC) (ihin.mono ?_) (ihrest.mono ?_)
    · simp
    · simp
      omega

/-! ## Scopes -/

/-- The operation is in a block, right after the operations `before`. -/
def Stands (g : Graph) (o : OpId) (b : BlockId) (before : List OpId) : Prop :=
  ∃ d B after, g.op o = .ok d ∧ d.block = some b ∧ g.block b = .ok B ∧
    B.ops = before ++ o :: after ∧ B.ops.Nodup

/-- The value can be read in a block after the operations `before`, and it is made `k` levels
further out.  A block around another one was made before it. -/
inductive Reads (g : Graph) (v : ValueId) : (b : BlockId) → (before : List OpId) → (k : Nat) → Prop
  | argument {y : Value} {b : BlockId} {i : Nat} {before : List OpId} : g.value v = .ok y →
      y.origin = .argument b i → Reads g v b before 0
  | result {y : Value} {o : OpId} {x : Op} {b : BlockId} {i : Nat} {before : List OpId} :
      g.value v = .ok y → y.origin = .result o i → g.op o = .ok x → x.block = some b →
      o ∈ before → Reads g v b before 0
  | outer {b c : BlockId} {B : Block} {r : RegionId} {R : Region} {o : OpId}
      {before outside : List OpId} {k : Nat} : g.block b = .ok B → B.region = some r →
      g.region r = .ok R → R.owner = some o → g.Stands o c outside → c.index < b.index →
      Reads g v c outside k → Reads g v b before (k + 1)

namespace Reads

variable {v : ValueId} {before : List OpId} {k : Nat}

theorem mono {before' : List OpId} (h : Reads g v b before k) (hsub : before ⊆ before') :
    Reads g v b before' k := by
  cases h with
  | argument hy horigin => exact .argument hy horigin
  | result hy horigin hx hxb ho => exact .result hy horigin hx hxb (hsub ho)
  | outer hB hr hR ho hstands hlt h => exact .outer hB hr hR ho hstands hlt h

/-- The value is made in one block only, and this was made no later. -/
theorem home (h : Reads g v b before k) :
    ∃ a : BlockId, a.index ≤ b.index ∧ ∀ c ≠ a, ∀ o, g.levelOf v o c = .ok .above := by
  induction h with
  | @argument y b i before hy horigin =>
    refine ⟨b, Nat.le_refl _, ?_⟩
    intro c hc o
    rw [levelOf_argument o c hy horigin, if_neg hc.symm]
  | @result y p x b i before hy horigin hx hxb hp =>
    refine ⟨b, Nat.le_refl _, ?_⟩
    intro c hc o
    refine levelOf_elsewhere o hy horigin (slot_of_op hx) ?_
    rintro ⟨-, hxc⟩
    rw [hxb] at hxc
    exact hc (Option.some.inj hxc).symm
  | outer _ _ _ _ _ hlt _ ih =>
    obtain ⟨a, ha, hlevel⟩ := ih
    exact ⟨a, Nat.le_trans ha (Nat.le_of_lt hlt), hlevel⟩

theorem inScopeTo (h : Reads g v b before k) :
    ∀ {o : OpId} {j : Nat}, g.Stands o b before → k < j → g.inScopeTo v j o = .ok true := by
  induction h with
  | argument hy horigin =>
    rintro o (_ | j) ⟨d, B, after, hd, hdb, -⟩ hj
    · cases hj
    simp [Graph.inScopeTo, hd, hdb, levelOf_argument o _ hy horigin]
  | @result y p x b i before hy horigin hx hxb hp =>
    rintro o (_ | j) ⟨d, B, after, hd, hdb, hB, hops, hnodup⟩ hj
    · cases hj
    have hmem : p ∈ B.ops := hops ▸ List.mem_append_left _ hp
    have ho : o ∈ B.ops := hops ▸ List.mem_append_right _ (.head _)
    obtain ⟨answer, hanswer, hlevel⟩ :=
      levelOf_here hy horigin hx hxb hd hdb hB hnodup hmem ho
    have htrue : answer = true := by
      rw [hanswer, hops, before_iff (hops ▸ hnodup)]
      exact hp
    simp [Graph.inScopeTo, hd, hdb, hlevel, htrue]
  | @outer b c B r R q before outside k hB hr hR hq hstands hlt h ih =>
    rintro o (_ | j) ⟨d, B', after, hd, hdb, -⟩ hj
    · cases hj
    -- the block that makes the value is older than this one, so the search goes on
    obtain ⟨a, ha, hlevel⟩ := h.home
    have hba : b ≠ a := by
      rintro rfl
      omega
    simp [Graph.inScopeTo, hd, hdb, hlevel b hba, ownerOf?_of_block hd hdb hB hr hR hq,
      ih hstands (Nat.lt_of_succ_lt_succ hj)]

end Reads

/-- What is left of a block are the operations `top`, and the values `known` can be read there.
They are made at most `k` levels further out. -/
structure Scope (g : Graph) (b : BlockId) (before top : List OpId) (known : List ValueId)
    (k : Nat) : Prop where
  left : ∃ B, g.block b = .ok B ∧ B.ops = before ++ top ∧ B.ops.Nodup
  reads : ∀ v ∈ known, ∃ j ≤ k, Reads g v b before j

namespace Scope

variable {before : List OpId} {k : Nat} {o : OpId} {d : Op}

theorem stands (h : Scope g b before (o :: top) known k) (hd : g.op o = .ok d)
    (hdb : d.block = some b) : g.Stands o b before := by
  obtain ⟨B, hB, hops, hnodup⟩ := h.left
  exact ⟨d, B, top, hd, hdb, hB, hops, hnodup⟩

theorem inScope (h : Scope g b before (o :: top) known k) (hd : g.op o = .ok d)
    (hdb : d.block = some b) (hk : k < g.depth) : ∀ v ∈ known, g.inScope v o = .ok true := by
  intro v hv
  obtain ⟨j, hj, hreads⟩ := h.reads v hv
  exact hreads.inScopeTo (h.stands hd hdb) (Nat.lt_of_le_of_lt hj hk)

/-- After an operation its results can be read too. -/
theorem next {types : List Ty} {vs : List ValueId} (h : Scope g b before (o :: top) known k)
    (hd : g.op o = .ok d) (hdb : d.block = some b) (hvs : Yields g m o types vs) :
    Scope g b (before ++ [o]) top (known ++ vs) k where
  left := by
    obtain ⟨B, hB, hops, hnodup⟩ := h.left
    exact ⟨B, hB, by simpa using hops, hnodup⟩
  reads v hv := by
    rcases List.mem_append.1 hv with hv | hv
    · obtain ⟨j, hj, hreads⟩ := h.reads v hv
      exact ⟨j, hj, hreads.mono (List.subset_append_left before [o])⟩
    · obtain ⟨y, i, hy, horigin⟩ := hvs.origin v hv
      exact ⟨0, Nat.zero_le k, .result hy horigin hd hdb (List.mem_append_right before (.head []))⟩

/-- In the block of a branch one can read what the branch can read. -/
theorem inner {c : BlockId} {C : Block} (h : Scope g b before (o :: top) known k)
    (hd : g.op o = .ok d) (hdb : d.block = some b) (hC : g.block c = .ok C)
    (hr : C.region = some r) (hR : g.region r = .ok R) (ho : R.owner = some o)
    (hlt : b.index < c.index) (hnodup : C.ops.Nodup) : Scope g c [] C.ops known (k + 1) where
  left := ⟨C, hC, rfl, hnodup⟩
  reads v hv := by
    obtain ⟨j, hj, hreads⟩ := h.reads v hv
    exact ⟨j + 1, Nat.succ_le_succ hj, .outer hC hr hR ho (h.stands hd hdb) hlt hreads⟩

end Scope

theorem Laid.sublist (h : Laid g m b p known top ops) : top.Sublist ops := by
  induction h with
  | done => exact .slnil
  | @step _ _ _ _ _ _ _ o _ _ _ _ _ ih => exact ih.cons_cons o
  | @branch _ _ _ _ _ _ _ _ _ _ _ _ o _ below _ _ _ _ _ _ _ _ _ _ _ ih =>
    exact (ih.trans (List.sublist_append_right below _)).cons_cons o

/-- Every operation of a text reads what the search for values finds. -/
theorem Laid.inScope (h : Laid g m b p known top ops) :
    ∀ {before : List OpId} {k : Nat}, known.length = n → ops.Nodup →
      Scope g b before top known k → k + ops.length < g.depth →
      ∀ o ∈ ops, ∃ d, g.op o = .ok d ∧ ∀ v ∈ d.operands, g.inScope v o = .ok true := by
  induction h with
  | done =>
    intros
    contradiction
  | @step b n s rest known vs l o top ops hd hvs _ ih =>
    intro before k hlen hnodup hscope hk
    rw [List.length_cons] at hk
    refine List.forall_mem_cons.2 ⟨⟨_, hd, ?_⟩, ?_⟩
    · intro v hv
      exact hscope.inScope hd rfl (by omega) v (s.operands_draft l hlen v hv)
    · refine ih ?_ (List.nodup_cons.1 hnodup).2 (hscope.next hd rfl hvs) (by omega)
      rw [List.length_append, hlen, hvs.length]
  | @branch b c C r n i types inner rest known vs l o top below ops hd hvs hR hC hr hargs hlt hin
      hrest ihin ihrest =>
    intro before k hlen hnodup hscope hk
    obtain ⟨hbelow, hops, -⟩ := List.nodup_append.1 (List.nodup_cons.1 hnodup).2
    rw [List.length_cons, List.length_append] at hk
    refine List.forall_mem_cons.2 ⟨⟨_, hd, ?_⟩, List.forall_mem_append.2 ⟨?_, ?_⟩⟩
    · intro v hv
      rw [List.mem_singleton.1 hv]
      exact hscope.inScope hd rfl (by omega) _ (named_mem hlen i)
    · exact ihin hlen hbelow (hscope.inner hd rfl hC hr hR rfl hlt (hbelow.sublist hin.sublist))
        (by omega)
    · refine ihrest ?_ hops (hscope.next hd rfl hvs) (by omega)
      rw [List.length_append, hlen, hvs.length]

/-- Every operation of a text has the shape of its kind and reads values that exist. -/
theorem Laid.ops_ok (h : Laid g m b p known top ops) : known.length = n →
    (∀ v ∈ known, ∃ y, g.value v = .ok y) →
    ∀ o ∈ ops, ∃ d, g.op o = .ok d ∧ d.Shaped ∧ ∀ v ∈ d.operands, ∃ y, g.value v = .ok y := by
  induction h with
  | done =>
    intros
    contradiction
  | @step b n s rest known vs l o top ops hd hvs _ ih =>
    intro hlen hknown
    refine List.forall_mem_cons.2 ⟨⟨_, hd, ?_, ?_⟩, ?_⟩
    · exact Op.Shaped.made (s.standard_draft known l) (s.block_draft known l) vs
    · intro v hv
      exact hknown v (s.operands_draft l hlen v hv)
    · refine ih ?_ (List.forall_mem_append.2 ⟨hknown, hvs.exist⟩)
      rw [List.length_append, hlen, hvs.length]
  | @branch b c C r n i types inner rest known vs l o top below ops hd hvs hR hC hr hargs hlt _ _
      ihin ihrest =>
    intro hlen hknown
    refine List.forall_mem_cons.2 ⟨⟨_, hd, ?_, ?_⟩,
      List.forall_mem_append.2 ⟨ihin hlen hknown, ?_⟩⟩
    · exact Op.Shaped.made (.branch l _ types r) rfl vs
    · intro v hv
      rw [List.mem_singleton.1 hv]
      exact hknown _ (named_mem hlen i)
    · refine ihrest ?_ (List.forall_mem_append.2 ⟨hknown, hvs.exist⟩)
      rw [List.length_append, hlen, hvs.length]

/-! ## The checks -/

/-- The first check finds nothing if the search finds every operand. -/
theorem unavailable_nil {root : OpId} (hnested : g.nestedOps root = .ok ops)
    (h : ∀ o ∈ ops, ∃ d, g.op o = .ok d ∧ ∀ v ∈ d.operands, g.inScope v o = .ok true) :
    g.unavailableOperands root = .ok [] := by
  have hoperands : ∀ {o : OpId} (vs : List ValueId) (i : Nat),
      (∀ v ∈ vs, g.inScope v o = .ok true) → g.checkOperands o i vs = .ok [] := by
    intro o vs
    induction vs with
    | nil =>
      intros
      rfl
    | cons v vs ih =>
      intro i hvs
      rw [List.forall_mem_cons] at hvs
      simp [checkOperands, checkOperand, hvs.1, ih (i + 1) hvs.2]
  have hcheck : ∀ o ∈ ops, ∃ found, g.operands o >>= g.checkOperands o 0 = .ok found ∧
      (found = [] ↔ True) := by
    intro o ho
    obtain ⟨d, hd, hvs⟩ := h o ho
    exact ⟨[], by simp [operands, hd, hoperands d.operands 0 hvs], by simp⟩
  obtain ⟨all, hall, hnil⟩ := mapM_findings hcheck
  rw [unavailableOperands_eq hnested, hall, map_ok, hnil.2 fun _ _ => trivial]

theorem valuesOf_none {d : Op} (hregions : d.regions = []) :
    g.valuesOf d = .ok (d.operands ++ d.results) := by
  simp [valuesOf, hregions]

theorem valuesOf_one {d : Op} {c : BlockId} {C : Block} (hregions : d.regions = [r])
    (hR : g.region r = .ok R) (hblocks : R.blocks = [c]) (hC : g.block c = .ok C) :
    g.valuesOf d = .ok (d.operands ++ d.results ++ C.args) := by
  simp [valuesOf, hregions, hR, hblocks, blockArgs, block_eq_ok.1 hC]

/-- The second check looks at no value from before the text and what it knows. -/
theorem Laid.valuesOf (h : Laid g m b p known top ops) : known.length = n →
    (∀ v ∈ known, m ≤ v.index) →
    ∀ o ∈ ops, ∃ d vs, g.op o = .ok d ∧ g.valuesOf d = .ok vs ∧ ∀ v ∈ vs, m ≤ v.index := by
  induction h with
  | done =>
    intros
    contradiction
  | @step b n s rest known vs l o top ops hd hvs _ ih =>
    intro hlen hknown
    refine List.forall_mem_cons.2 ⟨⟨_, _, hd, valuesOf_none (s.regions_draft _ _), ?_⟩, ?_⟩
    · refine List.forall_mem_append.2 ⟨?_, hvs.new⟩
      intro v hv
      exact hknown v (s.operands_draft l hlen v hv)
    · refine ih ?_ (List.forall_mem_append.2 ⟨hknown, hvs.new⟩)
      rw [List.length_append, hlen, hvs.length]
  | @branch b c C r n i types inner rest known vs l o top below ops hd hvs hR hC hr hargs hlt _ _
      ihin ihrest =>
    intro hlen hknown
    refine List.forall_mem_cons.2 ⟨⟨_, _, hd, valuesOf_one rfl hR rfl hC, ?_⟩,
      List.forall_mem_append.2 ⟨ihin hlen hknown, ?_⟩⟩
    · rw [hargs, List.append_nil]
      refine List.forall_mem_append.2 ⟨?_, hvs.new⟩
      intro v hv
      rw [List.mem_singleton.1 hv]
      exact hknown _ (named_mem hlen i)
    · refine ihrest ?_ (List.forall_mem_append.2 ⟨hknown, hvs.new⟩)
      rw [List.length_append, hlen, hvs.length]

end

/-! ## Functions -/

/-- A function has been built from a text: `b` is its block, in the region `r`. -/
structure Raised (g : Graph) {args : List Ty} (p : Body args.length) (root : OpId) (r : RegionId)
    (b : BlockId) (B : Block) (ops : List OpId) (g' : Graph) : Prop where
  grows : Grows g g'
  made : ∃ l name, g'.op root = .ok ((Draft.func l name r).made [])
  region : g'.region r = .ok ⟨[b], some root⟩
  block : g'.block b = .ok B
  inside : B.region = some r
  types : B.argTypes = args
  length : B.args.length = args.length
  new : ∀ v ∈ B.args, g.values.size ≤ v.index
  origin : ∀ v ∈ B.args, ∃ y i, g'.value v = .ok y ∧ y.origin = .argument b i
  laid : Laid g' g.values.size b p B.args B.ops ops
  size : g'.ops.size = g.ops.size + ops.length + 1
  range (o : OpId) : o ∈ root :: ops ↔ g.ops.size ≤ o.index ∧ o.index < g'.ops.size
  nodup : (root :: ops).Nodup

theorem newFunc_raised (g : Graph) (name : String) (args : List Ty) (p : Body args.length) :
    ∃ root r b B ops g', g.newFunc name args p.build = .ok (root, g') ∧
      Raised g p root r b B ops g' := by
  -- the path of an unknown location may be new, and nothing else is
  obtain ⟨l, g₀, hnowhere, hgrows₀, hops, hvalues⟩ : ∃ l g₀, g.nowhere = (l, g₀) ∧ Grows g g₀ ∧
      g₀.ops.size = g.ops.size ∧ g₀.values.size = g.values.size :=
    ⟨g.nowhere.1, g.nowhere.2, rfl, ⟨id, id, fun hB _ => hB, fun hR _ => hR⟩, rfl, rfl⟩
  have hB := block_newBlock g₀ args l [] none ⟨g₀.blocks.size⟩
  rw [if_pos rfl] at hB
  have hargs : (g₀.newBlock args l).2.blockArgs ⟨g₀.blocks.size⟩ = g₀.nextValues args.length := by
    simp only [blockArgs, block_eq_ok.1 hB]
  have hgrows₁ := Grows.newBlock g₀ args l
  have hm : g.values.size ≤ (g₀.newBlock args l).2.values.size := hvalues ▸ hgrows₁.values_le
  obtain ⟨g₁, top, ops, hbuild, h⟩ := p.build_ok l (g₀.nextValues args.length) hm hB rfl
  obtain ⟨g', hclose, hgrows', hop, hsize, hB', hR⟩ := closeFunc_ok l name h.home rfl
  have hsize₁ : g₁.ops.size = g.ops.size + ops.length := hops ▸ h.size
  have hrange : ∀ o, o ∈ ops ↔ g.ops.size ≤ o.index ∧ o.index < g₁.ops.size := hops ▸ h.range
  refine ⟨⟨g₁.ops.size⟩, ⟨g₁.regions.size⟩, ⟨g₀.blocks.size⟩,
    ⟨g₀.nextValues args.length, args, top, some ⟨g₁.regions.size⟩, l⟩, ops, g', ?_, ?_⟩
  · rw [newFunc, hnowhere]
    show (p.build ((g₀.newBlock args l).2.blockArgs ⟨g₀.blocks.size⟩)
      ⟨(g₀.newBlock args l).2, ⟨g₀.blocks.size⟩, l⟩ >>= _) = _
    rw [hargs, hbuild]
    exact hclose
  refine ⟨hgrows₀.trans (hgrows₁.trans (h.grows.trans hgrows')), ⟨l, name, hop⟩, hR, hB', rfl, rfl,
    length_nextValues _, ?_, ?_, h.laid.grows hgrows', ?_, ?_, ?_⟩
  · intro v hv
    exact hvalues ▸ (index_of_mem_nextValues hv).1
  · intro v hv
    obtain ⟨i, hi⟩ := List.mem_iff_getElem?.1 hv
    obtain ⟨hlt, hindex⟩ := getElem?_nextValues.1 hi
    have hy := (value_newBlock g₀ args l [] none).2
      (.inr ⟨i, _, List.getElem?_eq_getElem hlt, hindex, rfl⟩)
    exact ⟨_, i, (h.grows.trans hgrows').value hy, rfl⟩
  · rw [hsize, hsize₁]
  · intro o
    rw [List.mem_cons, hrange, hsize, ← OpId.index_inj]
    dsimp only
    omega
  · refine List.nodup_cons.2 ⟨?_, h.nodup⟩
    rw [hrange]
    dsimp only
    omega

namespace Raised

variable {g' : Graph} {args : List Ty} {p : Body args.length} {root : OpId} {r : RegionId}
  {b : BlockId} {B : Block} {ops : List OpId}

theorem children (h : Raised g p root r b B ops g') : g'.children root = .ok B.ops := by
  obtain ⟨l, name, hd⟩ := h.made
  exact children_one hd rfl h.region rfl h.block

theorem forest (h : Raised g p root r b B ops g') : Forest g' g'.ops.size B.ops ops := by
  have hsize := h.size
  exact h.laid.forest.mono (by omega)

theorem nestedOps (h : Raised g p root r b B ops g') : g'.nestedOps root = .ok ops :=
  nestedOps_eq_ok.2 ⟨B.ops, h.children, h.forest.mono (Nat.le_succ _)⟩

theorem opTree (h : Raised g p root r b B ops g') : g'.opTree root = .ok (root :: ops) := by
  rw [opTree_eq_ok, ← List.append_nil ops]
  exact .cons h.children h.forest .nil

theorem built (h : Raised g p root r b B ops g') : g'.Built root p B.args ops :=
  h.laid.built h.block h.inside h.region rfl

theorem unavailable (h : Raised g p root r b B ops g') :
    g'.unavailableOperands root = .ok [] := by
  obtain ⟨-, hnodup⟩ := List.nodup_cons.1 h.nodup
  have hscope : Scope g' b [] B.ops B.args 0 := by
    refine ⟨⟨B, h.block, rfl, hnodup.sublist h.laid.sublist⟩, ?_⟩
    intro v hv
    obtain ⟨y, i, hy, horigin⟩ := h.origin v hv
    exact ⟨0, Nat.le_refl 0, .argument hy horigin⟩
  have hsize := h.size
  exact unavailable_nil h.nestedOps (h.laid.inScope h.length hnodup hscope (by rw [depth]; omega))

/-- Only the function reads its values: what was live before reads values from before. -/
theorem users (h : Raised g p root r b B ops g')
    (hexist : ∀ {o d v}, g.op o = .ok d → v ∈ d.operands → ∃ y, g.value v = .ok y) {u : Use}
    {v : ValueId} (hv : g.values.size ≤ v.index) (hu : g'.held? u = some v) :
    u.user ∈ root :: ops := by
  -- a user outside would be from before, and as it was then
  obtain ⟨d, hd, hi⟩ := held?_eq_some.1 hu
  rw [h.range]
  refine ⟨Nat.le_of_not_lt ?_, index_lt_of_slot (slot_of_op hd)⟩
  intro hlt
  have hold : g.slot u.user = .ok d := by
    have hs := slot_eq_ok.2 (Array.getElem?_eq_getElem hlt)
    rw [hs, ← slot_of_op hd]
    exact (h.grows.slot hs).symm
  obtain ⟨y, hy⟩ := hexist (op_eq_ok.2 ⟨hold, (op_eq_ok.1 hd).2⟩) (List.mem_of_getElem? hi)
  exact Nat.not_lt_of_le hv (index_lt_of_value hy)

theorem useErrors (h : Raised g p root r b B ops g') (hg' : g'.Coherent)
    (hexist : ∀ {o d v}, g.op o = .ok d → v ∈ d.operands → ∃ y, g.value v = .ok y) :
    g'.useErrors root = .ok [] := by
  have hlook : ∀ o ∈ root :: ops, ∃ d vs, g'.op o = .ok d ∧ g'.valuesOf d = .ok vs ∧
      ∀ v ∈ vs, g.values.size ≤ v.index := by
    obtain ⟨l, name, hd⟩ := h.made
    exact List.forall_mem_cons.2 ⟨⟨_, _, hd, valuesOf_one rfl h.region rfl h.block, h.new⟩,
      h.laid.valuesOf h.length h.new⟩
  obtain ⟨errors, herrors, hiff⟩ := useErrors_ok hg' h.opTree h.nodup fun o ho => by
    obtain ⟨d, vs, hd, hvs, -⟩ := hlook o ho
    exact ⟨d, vs, hd, hvs⟩
  rw [herrors, hiff.2]
  intro o ho d vs hd hvs v hv u hu
  obtain ⟨d', vs', hd', hvs', hnew⟩ := hlook o ho
  rw [hd] at hd'
  cases hd'
  rw [hvs] at hvs'
  cases hvs'
  exact h.users hexist (hnew v hv) hu

/-- The operations of the function have the shapes of their kinds and read values that exist. -/
theorem ops_ok (h : Raised g p root r b B ops g') :
    ∀ o ∈ root :: ops, ∃ d, g'.op o = .ok d ∧ d.Shaped ∧
      ∀ v ∈ d.operands, ∃ y, g'.value v = .ok y := by
  obtain ⟨l, name, hd⟩ := h.made
  refine List.forall_mem_cons.2 ⟨⟨_, hd, .made (.func l name r) rfl [], nofun⟩, ?_⟩
  refine h.laid.ops_ok h.length fun v hv => ?_
  obtain ⟨y, i, hy, -⟩ := h.origin v hv
  exact ⟨y, hy⟩

/-- In a graph built without presets whose live operations read values that exist, the new
function is one that the pass can be run on. -/
theorem function (h : Raised g p root r b B ops g') (hg' : g'.Reachable false)
    (hexist : ∀ {o d v}, g.op o = .ok d → v ∈ d.operands → ∃ y, g.value v = .ok y) :
    g'.Function root := by
  obtain ⟨l, name, hd⟩ := h.made
  refine ⟨hg', ?_, ⟨_, hd, rfl, rfl⟩, ⟨root :: ops, h.opTree, ?_⟩, ⟨⟨[], []⟩, ?_, rfl⟩⟩
  · intro o d v hd hv
    by_cases ho : o ∈ root :: ops
    · obtain ⟨d', hd', -, hvs⟩ := h.ops_ok o ho
      rw [hd] at hd'
      cases hd'
      exact hvs v hv
    · -- the operation is from before, and so is what it reads
      have hlt : o.index < g.ops.size := by
        rw [h.range] at ho
        have := index_lt_of_slot (slot_of_op hd)
        omega
      have hs := slot_eq_ok.2 (Array.getElem?_eq_getElem hlt)
      have hold := h.grows.slot hs
      rw [slot_of_op hd] at hold
      cases hold
      obtain ⟨y, hy⟩ := hexist (op_eq_ok.2 ⟨hs, (op_eq_ok.1 hd).2⟩) hv
      exact ⟨y, h.grows.value hy⟩
  · intro o ho
    obtain ⟨d, hd, hshaped, -⟩ := h.ops_ok o ho
    exact ⟨d, hd, hshaped⟩
  · simp [validate, h.unavailable, h.useErrors hg'.coherent hexist]

end Raised

/-- A function made from a text in the empty graph. -/
theorem function_of_text {name : String} {args : List Ty} {root : OpId} (text : Body args.length)
    (h : Graph.empty.newFunc name args text.build = .ok (root, g)) : g.Function root := by
  obtain ⟨root', r, b, B, ops, g', hnew, hraised⟩ := newFunc_raised .empty name args text
  rw [h] at hnew
  cases hnew
  refine hraised.function (.move .empty (.newFunc text.build_program h)) ?_
  intro o d v hd
  cases hd

/-- Every text can be run in every graph with coherent use lists whose live operations read values
that exist.  The function is then in no block, both checks find nothing, and the operations
nested in it are those of the text, each once, in its order and under the right owners. -/
theorem newFunc_sound (hg : g.Coherent)
    (hexist : ∀ {o d v}, g.op o = .ok d → v ∈ d.operands → ∃ y, g.value v = .ok y)
    (name : String) (args : List Ty) (p : Body args.length) :
    ∃ root g', g.newFunc name args p.build = .ok (root, g') ∧
      (∃ d, g'.op root = .ok d ∧ d.kind = .func ∧ d.block = none) ∧
      (∃ report, g'.validate root = .ok report ∧ report.isOk = true) ∧
      ∃ b B ops, g'.firstBlock root = .ok b ∧ g'.block b = .ok B ∧ B.argTypes = args ∧
        B.args.length = args.length ∧ g'.nestedOps root = .ok ops ∧ ops.Nodup ∧
        g'.Built root p B.args ops := by
  obtain ⟨root, r, b, B, ops, g', hnew, h⟩ := newFunc_raised g name args p
  obtain ⟨l, name, hd⟩ := h.made
  have hg' : g'.Coherent :=
    (Move.newFunc p.build_program hnew).keeps (coherent_invariant true).toStable hg
  refine ⟨root, g', hnew, ⟨_, hd, rfl, rfl⟩, ⟨⟨[], []⟩, ?_, rfl⟩, b, B, ops, ?_, h.block, h.types,
    h.length, h.nestedOps, (List.nodup_cons.1 h.nodup).2, h.built⟩
  · simp [validate, h.unavailable, h.useErrors hg' hexist]
  · simp [firstBlock, body, hd, Draft.made, Draft.func, h.region, entry]

/-- A qubit is measured, and a gate is put on it if the bit is set. -/
def guardedText : Body [Ty.qubit].length :=
  .step (.measure ⟨0, by decide⟩) <|
  .branch ⟨1, by decide⟩ [.qubit]
    (.step (.gate .hadamard ⟨0, by decide⟩ hadamard_isGate) <|
      .step (.yield [⟨2, by decide⟩]) .done) <|
  .step (.ret [⟨2, by decide⟩]) .done

/-- Beside another function: the branch is made after its body and listed before it. -/
theorem newFunc_sound_guarded : ∃ g', pairGraph.newFunc "g" [.qubit] guardedText.build =
      .ok (⟨9⟩, g') ∧ (∃ report, g'.validate ⟨9⟩ = .ok report ∧ report.isOk = true) ∧
    g'.nestedOps ⟨9⟩ = .ok [⟨4⟩, ⟨7⟩, ⟨5⟩, ⟨6⟩, ⟨8⟩] ∧
    ∃ b B, g'.firstBlock ⟨9⟩ = .ok b ∧ g'.block b = .ok B ∧
      g'.Built ⟨9⟩ guardedText B.args [⟨4⟩, ⟨7⟩, ⟨5⟩, ⟨6⟩, ⟨8⟩] := by
  have hlisted : (pairGraph.newFunc "g" [.qubit] guardedText.build >>= fun x =>
      (x.2.nestedOps x.1).map fun ops => (x.1, ops)) =
        .ok (⟨9⟩, [⟨4⟩, ⟨7⟩, ⟨5⟩, ⟨6⟩, ⟨8⟩]) := by decide +kernel
  obtain ⟨root, g', hnew, -, hvalid, b, B, ops, hb, hB, -, -, hops, -, hbuilt⟩ :=
    newFunc_sound pairGraph_function.built.coherent pairGraph_function.existing "g" [.qubit]
      guardedText
  rw [hnew, ok_bind, hops, map_ok, Except.ok.injEq, Prod.mk.injEq] at hlisted
  obtain ⟨rfl, rfl⟩ := hlisted
  exact ⟨g', hnew, hvalid, hops, b, B, hb, hB, hbuilt⟩

/-! ## Two branches -/

/-- Two branches on one measurement.  Only what the second one gives is read. -/
def choiceText : Body [Ty.qubit].length :=
  .step (.measure ⟨0, by decide⟩) <|
  .branch ⟨1, by decide⟩ [.qubit]
    (.step (.gate .hadamard ⟨0, by decide⟩ hadamard_isGate) <|
      .step (.yield [⟨2, by decide⟩]) .done) <|
  .branch ⟨1, by decide⟩ [.qubit]
    (.step (.gate .hadamard ⟨0, by decide⟩ hadamard_isGate) <|
      .step (.yield [⟨3, by decide⟩]) .done) <|
  .step (.ret [⟨3, by decide⟩]) .done

/-- The function that `choiceText` is the text of. -/
def choiceGraph : Graph where
  ops := #[
    { kind := .measure, operands := [⟨0⟩], results := [⟨1⟩], resultTypes := [.bit],
      attributes := .empty, regions := [], block := some ⟨0⟩, location := ⟨⟨0⟩, 0, 0⟩,
      erased := false },
    { kind := .hadamard, operands := [⟨0⟩], results := [⟨2⟩], resultTypes := [.qubit],
      attributes := .empty, regions := [], block := some ⟨1⟩, location := ⟨⟨0⟩, 0, 0⟩,
      erased := false },
    { kind := .yield, operands := [⟨2⟩], results := [], resultTypes := [],
      attributes := .empty, regions := [], block := some ⟨1⟩, location := ⟨⟨0⟩, 0, 0⟩,
      erased := false },
    { kind := .branch, operands := [⟨1⟩], results := [⟨3⟩], resultTypes := [.qubit],
      attributes := .empty, regions := [⟨0⟩], block := some ⟨0⟩, location := ⟨⟨0⟩, 0, 0⟩,
      erased := false },
    { kind := .hadamard, operands := [⟨0⟩], results := [⟨4⟩], resultTypes := [.qubit],
      attributes := .empty, regions := [], block := some ⟨2⟩, location := ⟨⟨0⟩, 0, 0⟩,
      erased := false },
    { kind := .yield, operands := [⟨4⟩], results := [], resultTypes := [],
      attributes := .empty, regions := [], block := some ⟨2⟩, location := ⟨⟨0⟩, 0, 0⟩,
      erased := false },
    { kind := .branch, operands := [⟨1⟩], results := [⟨5⟩], resultTypes := [.qubit],
      attributes := .empty, regions := [⟨1⟩], block := some ⟨0⟩, location := ⟨⟨0⟩, 0, 0⟩,
      erased := false },
    { kind := .ret, operands := [⟨5⟩], results := [], resultTypes := [],
      attributes := .empty, regions := [], block := some ⟨0⟩, location := ⟨⟨0⟩, 0, 0⟩,
      erased := false },
    { kind := .func, operands := [], results := [], resultTypes := [],
      attributes := .insert .empty "sym_name" (.text "f"), regions := [⟨2⟩], block := none,
      location := ⟨⟨0⟩, 0, 0⟩, erased := false }]
  values := #[⟨.argument ⟨0⟩ 0, .qubit⟩, ⟨.result ⟨0⟩ 0, .bit⟩, ⟨.result ⟨1⟩ 0, .qubit⟩,
    ⟨.result ⟨3⟩ 0, .qubit⟩, ⟨.result ⟨4⟩ 0, .qubit⟩, ⟨.result ⟨6⟩ 0, .qubit⟩]
  blocks := #[
    ⟨[⟨0⟩], [.qubit], [⟨0⟩, ⟨3⟩, ⟨6⟩, ⟨7⟩], some ⟨2⟩, ⟨⟨0⟩, 0, 0⟩⟩,
    ⟨[], [], [⟨1⟩, ⟨2⟩], some ⟨0⟩, ⟨⟨0⟩, 0, 0⟩⟩,
    ⟨[], [], [⟨4⟩, ⟨5⟩], some ⟨1⟩, ⟨⟨0⟩, 0, 0⟩⟩]
  regions := #[⟨[⟨1⟩], some ⟨3⟩⟩, ⟨[⟨2⟩], some ⟨6⟩⟩, ⟨[⟨0⟩], some ⟨8⟩⟩]
  useLists := ⟨#[[⟨⟨0⟩, 0⟩, ⟨⟨1⟩, 0⟩, ⟨⟨4⟩, 0⟩], [⟨⟨3⟩, 0⟩, ⟨⟨6⟩, 0⟩], [⟨⟨2⟩, 0⟩], [],
    [⟨⟨5⟩, 0⟩], [⟨⟨7⟩, 0⟩]]⟩
  paths := ⟨#["<unknown>"], ⟨[("<unknown>", ⟨0⟩)]⟩⟩

theorem newFunc_choice :
    Graph.empty.newFunc "f" [.qubit] choiceText.build = .ok (⟨8⟩, choiceGraph) := by
  decide +kernel

theorem choiceGraph_function : choiceGraph.Function ⟨8⟩ :=
  function_of_text choiceText newFunc_choice

end Graph

end Peephole
