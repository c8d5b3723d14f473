import Peephole.Proofs.Drains
import Peephole.Proofs.Rows

/-!
# A sweep along a row

The rotations of a row wait in their order, and what a reduction queues in the middle of a sweep
is none of those that are still to come, but for the next one.  So the turns of a sweep go along
the row (`Progress.Along`), and each reduction is a `Graph.RowStep`.

`Progress.Drained.along` is what the results about rows need: an invariant of these steps holds
when the sweep is over, and then all rotations have been looked at.
-/

namespace Peephole

variable {α β : Type*} {axes : Rules.AxisMatch} {root o p n : OpId} {first out : ValueId}
  {extra : List OpId}

/-! ## Who is told -/

namespace Session

variable {front todo rest : List (Graph.Link α)} {x y : Graph.Link α} {s s₁ s₂ t : Session}
  {l : Location} {a b v : ValueId}

/-- When the next rotation has been fused, of those after it only the first one is told. -/
theorem tells_fused {axis axis' : Axis} {u input sum : ValueId}
    (h : s.graph.Rotating axes root first out extra (front ++ [x]) (y :: rest))
    (hg : s.graph.Valid root) (hx : s.graph.Exclusive root) (hxp : x.op = p) (hyo : y.op = o)
    (hf : s.graph.Computes o (.rotation axis b u) v)
    (hp : s.graph.Computes p (.rotation axis' a input) u) (hi : s.Inserts p (.add l a b) n s₁)
    (hr : s₁.Reroutes o sum input s₂) (he : s₂.Erases p t) :
    s.Tells (fun z => z ∉ (rest.map Graph.Link.op).tail) t := by
  subst hxp hyo
  have hlist : front ++ [x] ++ y :: rest = front ++ x :: y :: rest := by simp
  have hordered := h.ordered
  rw [hlist, List.map_append, List.map_cons, List.map_cons] at hordered
  obtain ⟨hpall, hordered⟩ := List.pairwise_cons.1 (List.pairwise_append.1 hordered).2.1
  obtain ⟨hoall, hordered⟩ := List.pairwise_cons.1 hordered
  have hxy : x.op ≠ y.op := hg.linked.ne_of_precedes (hpall _ (.head _))
  have hxrest : ∀ z ∈ rest, s.graph.Precedes x.op z.op := fun z hz =>
    hpall z.op (.tail _ (List.mem_map_of_mem hz))
  have hyrest : ∀ z ∈ rest, z.op ≠ y.op := fun z hz heq =>
    hg.linked.ne_of_precedes (hoall z.op (List.mem_map_of_mem hz)) heq.symm
  have hrotates : ∀ z ∈ rest, ∃ a u v, s.graph.Computes z.op (.rotation z.axis a u) v :=
    fun z hz => h.row.computes (by simp [hz])
  have hnew : ∀ z ∈ rest, z.op ≠ n := by
    intro z hz
    obtain ⟨_, _, _, hfz⟩ := hrotates z hz
    exact (hi.graph.ne_of_computes hfz).symm
  have hmem : ∀ {z}, z ∈ (rest.map Graph.Link.op).tail → ∃ y ∈ rest, y.op = z := fun hz =>
    List.mem_map.1 (List.mem_of_mem_tail hz)
  have hxin := h.inside x (by simp)
  have hyin := h.inside y (by simp)
  have hnx : n ≠ x.op := hi.graph.ne_of_computes hp
  have htells₁ : s.Tells (fun z => z ∉ (rest.map Graph.Link.op).tail) s₁ := hi.tells fun hz => by
    obtain ⟨z, hz, heq⟩ := hmem hz
    exact hnew z hz heq
  have htells₂ : s₁.Tells (fun z => z ∉ (rest.map Graph.Link.op).tail) s₂ := by
    refine hr.tells (fun hz => ?_) ?_
    · obtain ⟨z, hz, heq⟩ := hmem hz
      exact hyrest z hz heq
    · -- the one reader of what it makes is the next rotation
      intro d w r hd hw hheld hz
      obtain ⟨z, hz', heq⟩ := hmem hz
      have hrn : r.user ≠ n := heq ▸ hnew z hz'
      have hry : ∀ i, r ≠ ⟨y.op, i⟩ := by
        rintro i rfl
        exact hyrest z hz' heq
      rw [hr.graph.held, if_neg (hry 1), if_neg (hry 0), hi.graph.held, if_neg hrn] at hheld
      obtain rfl : w = v := (hr.graph.computes (hi.graph.computes hf)).eq_of_result hd hw
      cases rest with
      | nil => cases hz'
      | cons y' rest =>
        obtain ⟨a₁, b₁, u₁, v₁, w₁, hfy, hfy'⟩ := h.row.next
        obtain ⟨-, rfl⟩ := hf.unique hfy
        obtain rfl := hx hyin hf rfl hheld (hfy'.held? 1)
        exact hg.linked.ne_of_precedes ((List.pairwise_cons.1 hordered).1 _ hz) rfl
  have htells₃ : s₂.Tells (fun z => z ∉ (rest.map Graph.Link.op).tail) t := by
    refine he.tells (hi.graph.linked.rewired hr.graph.rewired) (fun hz => ?_) ?_
    · obtain ⟨z, hz, heq⟩ := hmem hz
      exact hg.linked.ne_of_precedes (hxrest z hz) heq.symm
    · -- what the erased rotation reads is made before it
      intro i w z d hheld hd hw hz
      obtain ⟨z, hz', rfl⟩ := hmem hz
      obtain ⟨a', u', v', hfz⟩ := hrotates z hz'
      have hfz₂ := hr.graph.computes_other (hi.graph.computes hfz) (hyrest z hz')
      obtain rfl : w = v' := hfz₂.eq_of_result hd hw
      have hfx₂ := hr.graph.computes_other (hi.graph.computes hp) hxy
      rw [hfx₂.held?, ← hp.held?] at hheld
      have hvisible := hg.visible hheld hxin
      exact hfz.ne_of_visible hg hxin (.inr (hxrest z hz')) hvisible rfl
  exact htells₁.trans (htells₂.trans htells₃)

/-- When a sum is folded, no rotation that is still to come is told. -/
theorem tells_folded {p' : OpId} {w : ValueId} {c d : Binary64}
    (h : s.graph.Rotating axes root first out extra front todo) (hg : s.graph.Valid root)
    (hf : s.graph.Computes o (.sum a b) v) (hp : s.graph.Computes p (.const c) a)
    (hp' : s.graph.Computes p' (.const d) b) (hi : s.Inserts o (.const l (c + d)) n s₁)
    (hr : s₁.Redirects v w s₂) (he : s₂.Erases o t) :
    s.Tells (fun z => z ∉ todo.map Graph.Link.op) t := by
  have hpure : ∀ {z f v}, s.graph.Computes z f v → f.kind.isPure = true →
      z ∉ todo.map Graph.Link.op := fun hz hk hmem =>
    h.not_mem_of_pure hz hk (by rw [List.map_append]; exact List.mem_append_right _ hmem)
  have hf₁ := hi.graph.computes hf
  have htells₁ : s.Tells (fun z => z ∉ todo.map Graph.Link.op) s₁ := hi.tells fun hmem => by
    obtain ⟨z, hz, rfl⟩ := List.mem_map.1 hmem
    obtain ⟨_, _, _, hfz⟩ := h.row.computes (x := z) (by simp [hz])
    exact hi.graph.ne_of_computes hfz rfl
  have htells₂ : s₁.Tells (fun z => z ∉ todo.map Graph.Link.op) s₂ := by
    refine hr.tells hi.graph.linked (hi.graph.coherent hg.coherent) ?_ ?_
    · -- none of them reads the sum
      intro r hheld hmem
      obtain ⟨z, hz, heq⟩ := List.mem_map.1 hmem
      obtain ⟨a', u', v', hfz⟩ := h.row.computes (x := z) (by simp [hz])
      rcases (hi.graph.computes hfz).rotation_slots hheld heq.symm with ⟨-, rfl⟩ | ⟨-, rfl⟩
      · exact (h.ready z hz v (hfz.held? 0)).1 hf
      · exact h.input_not_sum hg.linked (by simp [hz]) hfz hf
    · intro z x hx hv
      obtain rfl := hf₁.op_of_result hi.graph.linked hx hv
      exact hpure hf rfl
  have hlinked₂ := hi.graph.linked.rewired hr.graph.rewired
  have htells₃ : s₂.Tells (fun z => z ∉ todo.map Graph.Link.op) t := by
    refine he.tells hlinked₂ (hpure hf rfl) ?_
    -- the sum reads constants
    intro i w' z x hheld hx hw'
    have hav : a ≠ v := fun heq => by cases (heq ▸ hp).formula_unique hg.linked hf
    have hbv : b ≠ v := fun heq => by cases (heq ▸ hp').formula_unique hg.linked hf
    have hsum := hr.graph.computes hf₁
    simp only [Formula.rename, if_neg hav, if_neg hbv] at hsum
    rcases hsum.sum_slots hheld rfl with rfl | rfl
    · obtain rfl := (hr.graph.computes (hi.graph.computes hp)).op_of_result hlinked₂ hx hw'
      exact hpure hp rfl
    · obtain rfl := (hr.graph.computes (hi.graph.computes hp')).op_of_result hlinked₂ hx hw'
      exact hpure hp' rfl
  exact htells₁.trans (htells₂.trans htells₃)

/-- When a constant goes, nobody but itself is told. -/
theorem tells_unused {c : Binary64} (h : s.graph.Rotating axes root first out extra front todo)
    (hg : s.graph.Linked) (hf : s.graph.Computes o (.const c) v) (he : s.Erases o t) :
    s.Tells (fun z => z ∉ todo.map Graph.Link.op) t := by
  refine he.tells hg (fun hmem => ?_) ?_
  · exact h.not_mem_of_pure hf rfl (by rw [List.map_append]; exact List.mem_append_right _ hmem)
  · intro i w x d hheld
    rw [hf.held?] at hheld
    cases hheld

end Session

/-! ## Steps -/

open Peephole.Graph

/-- A reduction in a function with a row, and how far the sweep has come after it.  What is known
of an angle is a list, and a fused rotation has the two lists one after the other. -/
inductive Graph.RowStep (axes : Rules.AxisMatch) (root : OpId) (g : Graph) :
    (front todo : List (Link (List β))) → Graph → (front' todo' : List (Link (List β))) → Prop
  /-- A rotation takes over the one before it. -/
  | fused {F rest : List (Link (List β))} {x y : Link (List β)} {n : OpId} {l : Location}
      {a b u v input sum : ValueId} {g₁ g₂ g' : Graph} :
      g.Computes y.op (.rotation y.axis b u) v → g.Computes x.op (.rotation x.axis a input) u →
      (axes = .same → x.axis = y.axis) → Inserted g x.op (.add l a b) n g₁ →
      g₁.Computes n (.sum a b) sum → Rerouted g₁ y.op sum input g₂ → Erased g₂ x.op g' →
      RowStep axes root g (F ++ [x]) (y :: rest) g'
        (F ++ [⟨y.op, y.axis, x.angle ++ y.angle⟩]) rest
  /-- A constant takes the place of a sum of constants. -/
  | folded {front todo : List (Link (List β))} {o p p' n : OpId} {l : Location} {a b v w : ValueId}
      {c d : Binary64} {g₁ g₂ g' : Graph} : g.Inside root o → g.Computes o (.sum a b) v →
      g.Computes p (.const c) a → g.Computes p' (.const d) b →
      Inserted g o (.const l (c + d)) n g₁ → g₁.Computes n (.const (c + d)) w →
      Redirected g₁ v w g₂ → Erased g₂ o g' →
      RowStep axes root g front todo g' front todo
  /-- A constant that nobody reads goes. -/
  | unused {front todo : List (Link (List β))} {o : OpId} {v : ValueId} {c : Binary64}
      {g' : Graph} :
      g.Inside root o → g.Computes o (.const c) v → (∀ r, g.held? r ≠ some v) → Erased g o g' →
      RowStep axes root g front todo g' front todo

/-- A notice that reaches none of the rotations to come, but for the next one, keeps their
order. -/
theorem Worklist.InTurn.told {front todo : List (Link α)} {s t : Session} {P : OpId → Prop}
    {w w' : Worklist} (h : w.InTurn (todo.map Link.op)) (htells : s.Tells P t)
    (hs : s.observer = .worklist w) (ht : t.observer = .worklist w')
    (hP : ∀ o, P o → o ∉ (todo.map Link.op).tail)
    (hrow : t.graph.Rotating axes root first out extra front todo)
    (hmarks : (w'.settle o).Marks t.graph.Gone) : (w'.settle o).InTurn (todo.map Link.op) := by
  obtain ⟨w'', hw'', hreacts⟩ := htells w hs
  rw [ht] at hw''
  cases hw''
  refine (h.reacts hreacts hP fun z hz herased => ?_).settle
  obtain ⟨x, hx, rfl⟩ := List.mem_map.1 hz
  obtain ⟨y, hy⟩ := (hrow.inside x (by simp [hx])).live
  exact (hmarks _ (Worklist.status_settle_erased herased)).not_live hy

/-- A reduction is a step, if the rotations to come are taken in their order. -/
theorem Session.Reduction.along {front todo : List (Link (List β))} {s t : Session}
    {w w' : Worklist} (h : s.Reduction axes o t) (hg : s.graph.Valid root)
    (hx : s.graph.Exclusive root) (ho : s.graph.Inside root o)
    (hrow : s.graph.Rotating axes root first out extra front todo)
    (hs : s.observer = .worklist w) (ht : t.observer = .worklist w')
    (hturn : (∃ y rest, todo = y :: rest ∧ y.op = o ∧ w.InTurn (rest.map Link.op)) ∨
      o ∉ todo.map Link.op ∧ w.InTurn (todo.map Link.op))
    (hmarks : (w'.settle o).Marks t.graph.Gone) :
    ∃ front' todo', t.graph.Rotating axes root first out extra front' todo' ∧
      (w'.settle o).InTurn (todo'.map Link.op) ∧
      RowStep axes root s.graph front todo t.graph front' todo' := by
  have hrest : o ∉ todo.map Link.op → w.InTurn (todo.map Link.op) := by
    intro hmem
    rcases hturn with ⟨y, rest, rfl, rfl, -⟩ | ⟨-, hturn⟩
    · exact absurd (.head _) hmem
    · exact hturn
  have hmem_todo : ∀ {z}, z ∉ (front ++ todo).map Link.op → z ∉ todo.map Link.op := by
    intro z hz hmem
    exact hz (by rw [List.map_append]; exact List.mem_append_right _ hmem)
  cases h with
  | unused hf hpure hfree he =>
    obtain ⟨⟨c, rfl⟩, hrow'⟩ := hrow.unused hg ho hf hpure hfree he.graph
    have hmem := hmem_todo (hrow.not_mem_of_pure hf rfl)
    refine ⟨front, todo, hrow', ?_, .unused ho hf hfree he.graph⟩
    exact (hrest hmem).told (tells_unused hrow hg.linked hf he) hs ht
      (fun z hz hmem => hz (List.mem_of_mem_tail hmem)) hrow' hmarks
  | sum hf hp hp' hi hn hr he =>
    have hrow' := hrow.folded hg hf hp hp' hi.graph hn hr.graph he.graph
    have hmem := hmem_todo (hrow.not_mem_of_pure hf rfl)
    refine ⟨front, todo, hrow', ?_, .folded ho hf hp hp' hi.graph hn hr.graph he.graph⟩
    exact (hrest hmem).told (tells_folded hrow hg hf hp hp' hi hr he) hs ht
      (fun z hz hmem => hz (List.mem_of_mem_tail hmem)) hrow' hmarks
  | pair hf => exact absurd hf (hrow.plain ho)
  | conjugation hf => exact absurd hf (hrow.plain ho)
  | fusion hf hfeeds hpo _ haxes hi hn hr he =>
    have hnext : o ∉ (todo.map Link.op).tail := by
      rcases hturn with ⟨y, rest, rfl, rfl, -⟩ | ⟨hmem, -⟩
      · have hnodup := hrow.nodup hg.linked
        rw [List.map_append] at hnodup
        exact (List.nodup_cons.1 (List.nodup_append'.1 hnodup).2.1).1
      · exact fun hmem' => hmem (List.mem_of_mem_tail hmem')
    obtain ⟨F, x, y, rest, rfl, rfl, rfl, rfl, rfl, hrow'⟩ := hrow.fused hg ho hnext hf hfeeds hpo
      haxes hi.graph hn hr.graph he.graph
    have hrow' := hrow' (x.angle ++ y.angle)
    refine ⟨_, rest, hrow', ?_, ?_⟩
    · rcases hturn with ⟨y', rest', hcons, -, hturn⟩ | ⟨hmem, -⟩
      · obtain ⟨rfl, rfl⟩ := List.cons.inj hcons
        exact hturn.told (tells_fused hrow hg hx rfl rfl hf hfeeds.computes hi hr he) hs ht
          (fun z hz => hz) hrow' hmarks
      · exact absurd (.head _) hmem
    · obtain ⟨a', u', v', hfx⟩ := hrow.row.computes (x := x) (by simp)
      obtain ⟨hform, -⟩ := hfx.unique hfeeds.computes
      cases hform
      exact .fused hf hfeeds.computes haxes hi.graph hn hr.graph he.graph

namespace Progress

variable {a : Pass} {c : Config} {limit : Limit} {p q : Progress}
  {row front todo : List (Link (List β))}

/-- A sweep has come so far along a row. -/
structure Along (axes : Rules.AxisMatch) (root : OpId) (first out : ValueId) (extra : List OpId)
    (front todo : List (Link (List β))) (p : Progress) : Prop where
  rotating : p.graph.Rotating axes root first out extra front todo
  inTurn : p.worklist.InTurn (todo.map Link.op)

/-- A turn looks at an operation in vain, which may be the next rotation, or makes a step. -/
theorem Advance.along (h : p.Advance a.axisMatch c a.rules root q) (hp : p.Sound root)
    (hx : p.graph.Exclusive root) (hmarks : q.worklist.Marks q.graph.Gone)
    (hrow : p.Along a.axisMatch root first out extra front todo) :
    ∃ front' todo', q.Along a.axisMatch root first out extra front' todo' ∧
      (q.graph = p.graph ∧ q.reductions = p.reductions ∧
          (front' = front ∧ todo' = todo ∨ ∃ y, front' = front ++ [y] ∧ todo = y :: todo') ∨
        q.reductions = p.reductions + 1 ∧
          RowStep a.axisMatch root p.graph front todo q.graph front' todo') := by
  have hsound := h.sound hp
  cases h with
  | @passes o w d hpop ho hidle hgraph _ =>
    have hq : (p.passed d o (w.mark o .inProgress)).graph = p.graph := by rw [graph_passed, hgraph]
    rcases hrow.inTurn.pop hpop with ⟨rest, htodo, hturn⟩ | ⟨hmem, hturn⟩
    · obtain ⟨y, rest, rfl, rfl, rfl⟩ := List.map_eq_cons_iff.1 htodo
      refine ⟨front ++ [y], rest, ⟨?_, ?_⟩, .inl ⟨hq, rfl, .inr ⟨y, rfl, rfl⟩⟩⟩
      · rw [hq]
        exact hrow.rotating.advance hx ((a.idle_iff hp.valid ho).1 hidle)
      · rw [worklist_passed]
        exact (hturn.mark (List.nodup_cons.1 hrow.inTurn.nodup).1).settle
    · refine ⟨front, todo, ⟨by rw [hq]; exact hrow.rotating, ?_⟩, .inl ⟨hq, rfl, .inl ⟨rfl, rfl⟩⟩⟩
      rw [worklist_passed]
      exact (hturn.mark hmem).settle
  | @reduces o w w' d name s t hpop ho _ _ _ hs hleads hred hgraph hobserver hw' =>
    have hworklist : (p.reduced d o (w.mark o .inProgress)).worklist = w'.settle o := by
      rw [worklist_reduced, hw', Observer.worklistD]
    rw [graph_reduced, hworklist, hgraph] at hmarks
    subst hs
    have hturn : (∃ y rest, todo = y :: rest ∧ y.op = o ∧
        (w.mark o .inProgress).InTurn (rest.map Link.op)) ∨
        o ∉ todo.map Link.op ∧ (w.mark o .inProgress).InTurn (todo.map Link.op) := by
      rcases hrow.inTurn.pop hpop with ⟨rest, htodo, hturn⟩ | ⟨hmem, hturn⟩
      · obtain ⟨y, rest, rfl, rfl, rfl⟩ := List.map_eq_cons_iff.1 htodo
        exact .inl ⟨y, rest, rfl, rfl, hturn.mark (List.nodup_cons.1 hrow.inTurn.nodup).1⟩
      · exact .inr ⟨hmem, hturn.mark hmem⟩
    obtain ⟨front', todo', hrotating, hturn, hstep⟩ :=
      hred.along hp.valid hx ho hrow.rotating rfl hobserver hturn hmarks
    exact ⟨front', todo', ⟨by rw [graph_reduced, hgraph]; exact hrotating, hworklist ▸ hturn⟩,
      .inr ⟨rfl, by rw [graph_reduced, hgraph]; exact hstep⟩⟩

/-- What holds of the graph and the two parts of the row stays true when a rotation is looked at in
vain, and at every step. -/
structure Kept (a : Pass) (root : OpId) (first out : ValueId) (extra : List OpId)
    (I : Nat → Graph → (front todo : List (Link (List β))) → Prop) : Prop where
  advance {k : Nat} {g : Graph} {front todo : List (Link (List β))} {y : Link (List β)} :
    I k g front (y :: todo) → I k g (front ++ [y]) todo
  step {k : Nat} {g g' : Graph} {front todo front' todo' : List (Link (List β))} :
    g.Valid root → g.Rotating a.axisMatch root first out extra front todo →
    I k g front todo → RowStep a.axisMatch root g front todo g' front' todo' →
    I (k + 1) g' front' todo'

variable {I : Nat → Graph → (front todo : List (Link (List β))) → Prop}

theorem Turns.along (hkept : Kept a root first out extra I) (h : p.Turns c a.rules root limit q)
    (hp : p.Sound root) (ha : p.Attentive c a.rules root)
    (hmarks : p.worklist.Marks p.graph.Gone)
    (hrow : p.Along a.axisMatch root first out extra front todo)
    (hI : I p.reductions p.graph front todo) :
    ∃ front' todo', q.Along a.axisMatch root first out extra front' todo' ∧
      I q.reductions q.graph front' todo' := by
  have hrules := a.rules_regular root
  induction h with
  | refl => exact ⟨front, todo, hrow, hI⟩
  | tail hturns ht ih =>
    obtain ⟨front₁, todo₁, hrow₁, hI₁⟩ := ih
    obtain ⟨hmarks₁, ha₁⟩ := Turns.attentive hturns hp hmarks ha
    have hp₁ := hp.turns hrules hturns
    have hmarks₂ := marks_of_turn hrules.clean.programs hmarks₁ ht
    obtain ⟨front₂, todo₂, hrow₂, hcases⟩ :=
      (hp₁.again hrules ht).along hp₁ ha₁.exclusive hmarks₂ hrow₁
    refine ⟨front₂, todo₂, hrow₂, ?_⟩
    rcases hcases with ⟨hgraph, hcount, ⟨rfl, rfl⟩ | ⟨y, rfl, rfl⟩⟩ | ⟨hcount, hstep⟩
    · rw [hgraph, hcount]
      exact hI₁
    · rw [hgraph, hcount]
      exact hkept.advance hI₁
    · rw [hcount]
      exact hkept.step hp₁.valid hrow₁.rotating hI₁ hstep

/-- After the first sweep all rotations have been looked at, nothing is left to do, and what steps
keep still holds. -/
theorem Drained.along {g : Graph} {ops before after : List OpId}
    (hkept : Kept a root first out extra I)
    (h : (start g).Drained a.config a.rules root ops q) (hg : g.Valid root)
    (hx : g.Exclusive root) (hrow : g.Rotating a.axisMatch root first out extra [] row)
    (hops : ops = before ++ (row.map Link.op ++ after)) (hI : I 0 g [] row) :
    ∃ row', q.graph.Rotating a.axisMatch root first out extra row' [] ∧
      I q.reductions q.graph row' [] ∧ q.graph.Settled a.config a.rules root := by
  have hrules := a.rules_regular root
  have hstart : Visited a.config a.rules root g (start g) := .start
  have hmarks := hstart.marks hrules.clean.programs
  have hsound : (start g).Sound root := hstart.sound hrules.reduces hrules.clean.programs hg
  have hnodup : ops.Nodup := by
    obtain ⟨ops', hops', -, hnodup, -⟩ := hg.linked.nestedOps_ok hg.detached
    have hnested : g.nestedOps root = .ok ops := h.nested
    rw [hnested] at hops'
    cases hops'
    exact (List.nodup_cons.1 hnodup).2
  obtain ⟨limit, hturns⟩ := h.turns
  obtain ⟨front, todo, hend, hI'⟩ := hturns.along hkept (hsound.seed h.nested)
    (attentive_seed hsound hx hmarks h.nested) (hmarks.queueAll _)
    ⟨hrow, .seed (fun o => by simp [start]) hnodup hops⟩ hI
  obtain rfl : todo = [] := List.map_eq_nil_iff.1 (hend.inTurn.eq_nil h.empty)
  exact ⟨front, hend.rotating, hI', h.settled hsound hx hmarks⟩

end Progress

end Peephole
