import Peephole.Proofs.SeriesParts

/-!
# What the pass leaves of a series

The pass folds a series of rotations about one axis into one rotation.  Its angle is a constant with
the sum of all angles, added from the left, and this takes four reductions for each angle but one.
If the last rotation is under a branch it stays there, with its constant, and the others are folded.
If the axes change from one rotation to the next, nothing happens.  `RotationSeries.optimize_folds`
says so, and it gives the text that the function has then.
-/

namespace Peephole

open Peephole.Graph

/-! ## Operations from formulas -/

namespace Graph.Computes

variable {g : Graph} {root o p : OpId} {v : ValueId}

/-- An operation of the usual shape is what a standard draft makes in a block. -/
theorem entry {f : Formula} (h : g.Computes o f v) (hg : g.Valid root) (ho : g.Inside root o) :
    ∃ (e : Draft) (b : BlockId), e.Standard ∧ g.op o = .ok ((e.made [v]).inBlock b) ∧
      (e.made [v]).formula? = some f := by
  obtain ⟨d, hd, hf, hresults, -⟩ := h
  have hshaped := hg.shaped ho hd
  obtain ⟨n, hn⟩ := ho
  cases hn with
  | step howner _ =>
    obtain ⟨r, R, hr, -⟩ := ownerOf?_eq_some.1 howner
    obtain ⟨d', b, B, hd', hb, -⟩ := regionOf?_eq_some.1 hr
    rw [hd] at hd'
    cases hd'
    have herased := (op_eq_ok.1 hd).2
    refine ⟨d.draft, b, hshaped, ?_, hf⟩
    rw [hd]
    obtain ⟨kind, vs, results, resultTypes, attributes, regions, block, location, erased⟩ := d
    cases hresults
    cases hb
    cases herased
    rfl

theorem const_entry {x : Binary64} (h : g.Computes o (.const x) v) (hg : g.Valid root)
    (ho : g.Inside root o) : ∃ l b, g.op o = .ok (((Draft.const l x).made [v]).inBlock b) := by
  obtain ⟨e, b, hs, hd, hf⟩ := h.entry hg ho
  have hkind := hs.of_kind
  rw [show e.kind = .const from (Op.formula?_eq_some hf).1] at hkind
  obtain ⟨y, he⟩ := hkind
  generalize e.location = l at he
  subst he
  cases hf
  exact ⟨l, b, hd⟩

theorem rotation_entry {axis : Axis} {a q : ValueId} (h : g.Computes o (.rotation axis a q) v)
    (hg : g.Valid root) (ho : g.Inside root o) :
    ∃ l b, g.op o = .ok (((Draft.rotate l axis a q).made [v]).inBlock b) := by
  obtain ⟨e, b, hs, hd, hf⟩ := h.entry hg ho
  have hkind := hs.of_kind
  rw [show e.kind = .rotate from (Op.formula?_eq_some hf).1] at hkind
  obtain ⟨axis', a', q', he⟩ := hkind
  generalize e.location = l at he
  subst he
  cases hf
  exact ⟨l, b, hd⟩

end Graph.Computes

/-! ## Texts of the two ends -/

section Ends

variable {g : Graph} {b : BlockId} {owner : OpId} {q : ValueId} {known : List ValueId} {n k : Nat}
  {E : Closing}

theorem Closing.Holds.carry {g' : Graph} (h : E.Holds g b q)
    (hop : ∀ o ∈ E.ops, ∀ {d}, g.op o = .ok d → g'.op o = .ok d) : E.Holds g' b q where
  measured := h.measured.imp fun _ hd => hop _ (.head _) hd
  returned := h.returned.imp fun _ hd => hop _ (.tail _ (.head _)) hd

theorem Detour.Holds.carry {g' : Graph} {D : Detour} {axis : Axis} {a : ValueId}
    (h : D.Holds g b axis a q) (hop : ∀ o ∈ D.ops, ∀ {d}, g.op o = .ok d → g'.op o = .ok d)
    (hchildren : ∀ {cs}, g.children D.branch = .ok cs → g'.children D.branch = .ok cs) :
    D.Holds g' b axis a q where
  made := h.made.imp fun _ hd => hop _ (by simp [ops]) hd
  measured := h.measured.imp fun _ hd => hop _ (by simp [ops]) hd
  branched := h.branched.imp fun _ => Exists.imp fun _ hd => hop _ (by simp [ops]) hd
  rotated := h.rotated.imp fun _ => Exists.imp fun _ hd => hop _ (by simp [ops]) hd
  yielded := h.yielded.imp fun _ => Exists.imp fun _ hd => hop _ (by simp [ops]) hd
  children := hchildren h.children

theorem Closing.Holds.built (h : E.Holds g b q)
    (howner : ∀ o ∈ E.ops, g.ownerOf? o = .ok (some owner)) (hlen : known.length = n + 1)
    (hk : k < n + 1) (hq : known.getD k default = q) : g.Built owner (endText n k) known E.ops := by
  obtain ⟨l, hmeasure⟩ := h.measured
  obtain ⟨l', hret⟩ := h.returned
  rw [← hq, ← named_number hk] at hmeasure
  rw [← getD_append_length (v := E.bit) hlen, ← named_number (n := n + 1) (by omega)] at hret
  exact .step (l := l) hmeasure rfl (howner _ (.head _))
    (.step (l := l') hret rfl (howner _ (.tail _ (.head _))) .done)

theorem Detour.Holds.built {D : Detour} {axis : Axis} {a : ValueId} {i : Nat}
    (h : D.Holds g b axis a q) (hE : E.Holds g b D.out) (hg : g.Linked)
    (howner : ∀ o ∈ D.top ++ E.ops, g.ownerOf? o = .ok (some owner)) (hlen : known.length = n + 1)
    (hi : i < n + 1) (ha : known.getD i default = a) (hk : k < n + 1)
    (hq : known.getD k default = q) :
    g.Built owner (branchText axis i n k) known (D.ops ++ E.ops) := by
  have hold : ∀ {j : Nat}, j < n + 1 →
      (known ++ ([D.flag] ++ [D.bit])).getD j default = known.getD j default := by
    intro j hj
    rw [List.getD_append _ _ _ _ (by omega)]
  obtain ⟨l₁, halloc⟩ := h.made
  obtain ⟨l₂, hmeasure⟩ := h.measured
  obtain ⟨l₃, r, hbranch⟩ := h.branched
  obtain ⟨l₄, c, hturn⟩ := h.rotated
  obtain ⟨l₅, c', hyield⟩ := h.yielded
  have hlen₁ : (known ++ [D.flag]).length = n + 2 := by simp [hlen]
  have hlen₂ : (known ++ [D.flag] ++ [D.bit]).length = n + 3 := by simp [hlen]
  have hlen₃ : (known ++ [D.flag] ++ [D.bit] ++ [D.out]).length = n + 3 + 1 := by simp [hlen]
  have hinner : ∀ o ∈ [D.turn, D.yield], g.ownerOf? o = .ok (some D.branch) :=
    fun o ho => (hg.housed.mem_children_iff h.children).1 ho
  rw [← getD_append_length (v := D.flag) hlen, ← named_number (n := n + 1) (by omega)] at hmeasure
  rw [← getD_append_length (v := D.bit) hlen₁, ← named_number (n := n + 2) (by omega)] at hbranch
  rw [← ha, ← hold hi, ← hq, ← hold hk, ← List.append_assoc, ← named_number (n := n + 2) (by omega),
    ← named_number (n := n + 2) (by omega)] at hturn
  rw [← getD_append_length (v := D.turned) hlen₂, ← named_number (n := n + 3) (by omega)] at hyield
  have hend := hE.built (n := n + 3) (k := n + 3)
    (fun o ho => howner o (List.mem_append_right _ ho)) hlen₃ (by omega) (getD_append_length hlen₂)
  have hturned : g.Built D.branch (turnedText axis i (n + 2) k) (known ++ [D.flag] ++ [D.bit])
      [D.turn, D.yield] :=
    .step (l := l₄) hturn rfl (hinner _ (.head _))
      (.step (l := l₅) hyield rfl (hinner _ (.tail _ (.head _))) .done)
  exact .step (l := l₁) halloc rfl (howner _ (.head _))
    (.step (l := l₂) hmeasure rfl (howner _ (.tail _ (.head _)))
      (.branch (l := l₃) hbranch rfl (howner _ (.tail _ (.tail _ (.head _)))) hturned hend))

end Ends

/-! ## Running the pass -/

/-- What makes the qubit of a rotation in a row is the rotation before it. -/
theorem Graph.Row.before {α : Type*} {g : Graph} {row : List (Link α)} {x : Link α} {axis : Axis}
    {p : OpId} {f : Formula} {b first out u v : ValueId} (h : g.Row first row out) (hg : g.Linked)
    (hfirst : ∀ {o f}, ¬g.Computes o f first) (hx : x ∈ row)
    (hf : g.Computes x.op (.rotation axis b u) v) (hp : g.Computes p f u) :
    ∃ l₁ y l₂, row = l₁ ++ y :: x :: l₂ ∧ y.op = p := by
  obtain ⟨l, l₂, rfl⟩ := List.append_of_mem hx
  rcases List.eq_nil_or_concat' l with rfl | ⟨l₁, y, rfl⟩
  · cases h with
    | cons hx' _ =>
      cases (hf.unique hx').1
      exact absurd hp hfirst
  · rw [List.append_assoc, List.singleton_append] at h
    obtain ⟨_, _, _, w, _, hy, hx'⟩ := h.next
    cases (hf.unique hx').1
    exact ⟨l₁, y, l₂, by simp, hy.op_unique hg hp⟩

namespace Layout.Holds

variable {L : Layout} {g : Graph} {root : OpId} {axis : Axis}

/-- The pass folds the rotations into one, in four reductions for each constant but one. -/
theorem run (h : L.Holds g root) (haxes : ∀ x ∈ L.row, x.axis = axis) (hlen : 2 ≤ L.consts.length)
    (a : Pass) (hsame : a.axisMatch = .same) (hfold : a.config.fold = true)
    (hdead : a.config.removeDead = true) (hsweeps : 2 ≤ a.config.maxSweeps)
    (hstop : a.config.Unraised)
    (hbudget : ∀ k, a.config.budget = some k → 4 * L.consts.length - 4 < k) :
    ∃ g' m r v, a.run g root = .ok (.ok ⟨2, 4 * L.consts.length - 4⟩, g') ∧ g'.Valid root ∧
      L.Kept g g' ∧
      g'.children root = .ok (L.source :: (L.keep.map (·.1) ++ m :: r :: L.post)) ∧
      g'.nestedOps root = .ok (L.source :: (L.keep.map (·.1) ++ m :: r :: L.rest)) ∧
      g'.Computes m (.const (total (L.consts.map (·.2.1)))) v ∧
      g'.Computes r (.rotation axis v L.first) L.out := by
  obtain ⟨ops, p, hdrained⟩ := (Progress.Undisturbed.start h.valid hstop).drained
    (a.rules_regular root)
  have hkept : Progress.Kept a root L.first L.out L.extra (L.Folding g root axis) := by
    refine ⟨Folding.advance, fun hg hrow hI hstep => ?_⟩
    rw [hsame] at hrow hstep
    exact Folding.step h hg hrow hI hstep
  have hops : ops = (L.source :: (L.consts ++ L.keep).map (·.1)) ++
      (L.row.map Link.op ++ L.rest) := by
    have hnested : g.nestedOps root = .ok ops := hdrained.nested
    rw [h.nested] at hnested
    exact (Except.ok.inj hnested).symm
  obtain ⟨row, hrotating, hfolding, hsettled⟩ := hdrained.along hkept h.valid h.exclusive
    (h.rotating a.axisMatch) hops (h.folding haxes)
  have hg' : p.graph.Valid root := hdrained.valid
  rw [hsame] at hrotating
  have hidle : ∀ {o}, p.graph.Inside root o → ¬p.graph.Redex a.config .same o := by
    intro o ho
    rw [← hsame]
    exact (a.idle_iff hg' ho).1 (hg'.settled_iff.1 hsettled ho)
  obtain ⟨m, r, v, hchildren, hnested, hm, hr, hcount⟩ :=
    hfolding.finished h hg' hrotating hidle hfold hdead hlen
  have hreductions : p.reductions = 4 * L.consts.length - 4 := by omega
  have hrun := hdrained.run h.function h.exclusive hsweeps (hreductions ▸ hbudget)
  rw [hreductions, if_neg (by omega)] at hrun
  exact ⟨p.graph, m, r, v, hrun, hg', hfolding.kept, hchildren, hnested, hm, hr⟩

/-- Where no two rotations next to each other have one axis, nothing can be reduced. -/
theorem not_redex (h : L.Holds g root) (happart : (L.row.map Link.axis).IsChain (· ≠ ·))
    {c : Config} {o : OpId} (ho : g.Inside root o) : ¬g.Redex c .same o := by
  have hg := h.valid
  intro hredex
  cases hredex with
  | unused _ hf hpure hfree =>
    rcases h.computes_cases ho hf with
      ⟨t, ht, -, -, rfl⟩ | ⟨x, -, -, a, u, rfl⟩ | ⟨-, -, _, a, u, rfl⟩
    · rcases List.mem_append.1 ht with ht | ht
      · obtain ⟨x, -, hx⟩ := h.used t ht
        exact hfree _ hx
      · obtain ⟨r, -, hr⟩ := h.kept t ht
        exact hfree _ hr
    · cases hpure
    · cases hpure
  | sum _ hf _ _ =>
    rcases h.computes_cases ho hf with ⟨_, _, _, hform, -⟩ | ⟨_, _, _, _, _, hform⟩ |
      ⟨-, -, _, _, _, hform⟩
    all_goals cases hform
  | pair hf _ _ => exact (h.rotating .same).plain ho hf
  | conjugation hf _ _ _ _ => exact (h.rotating .same).plain ho hf
  | fusion hf hp hpo _ haxes =>
    rcases h.computes_cases ho hf with
      ⟨_, _, _, hform, -⟩ | ⟨x, hx, rfl, a, u, hform⟩ | ⟨-, hextra, -⟩
    · cases hform
    · cases hform
      obtain ⟨l₁, y, l₂, hrow, rfl⟩ := h.row.before hg.linked h.not_computes_first hx hf hp.computes
      rw [hrow, List.map_append, List.map_cons, List.map_cons, List.isChain_append_cons_cons]
        at happart
      obtain ⟨a', u', w, hfy⟩ := h.row.computes (show y ∈ L.row by simp [hrow])
      cases (hfy.unique hp.computes).1
      exact happart.2.1 (haxes rfl)
    · exact (h.extras o hextra).2 hp.computes hpo

/-- Where no two rotations next to each other have one axis, the pass finds nothing to do. -/
theorem run_apart (h : L.Holds g root) (a : Pass) (hsame : a.axisMatch = .same)
    (happart : (L.row.map Link.axis).IsChain (· ≠ ·)) (hsweeps : a.config.maxSweeps ≠ 0)
    (hstop : a.config.Unraised) : a.run g root = .ok (.ok ⟨1, 0⟩, g) := by
  have hg := h.valid
  have hsettled : g.Settled a.config a.rules root := by
    refine hg.settled_iff.2 fun ho => (a.idle_iff hg ho).2 ?_
    rw [hsame]
    exact h.not_redex happart ho
  obtain ⟨q, hrun, hgraph⟩ := hsettled.simplify_ok hsweeps hstop
  have hpass := Pass.run_of_converged hrun (hgraph ▸ hg)
  rwa [hgraph] at hpass

end Layout.Holds

/-! ## Series -/

/-- In the second graph the function has the operations of a text, in its order, and all but two of
them are as they were in the first one. -/
def Graph.Becomes (g : Graph) (root : OpId) (text : Body 0) (g' : Graph) : Prop :=
  ∃ before ops m r, g.nestedOps root = .ok before ∧ g'.nestedOps root = .ok ops ∧
    g'.Built root text [] ops ∧ ∀ o ∈ ops, o ≠ m → o ≠ r → o ∈ before ∧ g'.op o = g.op o

theorem Layout.Holds.becomes {L : Layout} {g g' : Graph} {root m r : OpId} {text : Body 0}
    (h : L.Holds g root) (hkept : L.Kept g g')
    (hnested : g'.nestedOps root = .ok (L.source :: (L.keep.map (·.1) ++ m :: r :: L.rest)))
    (hbuilt : g'.Built root text [] (L.source :: (L.keep.map (·.1) ++ m :: r :: L.rest))) :
    g.Becomes root text g' := by
  refine ⟨_, _, m, r, h.nested, hnested, hbuilt, fun o ho hm hr => ?_⟩
  have hfixed : L.Fixed o := by
    simp only [List.mem_cons, List.mem_append, hm, hr, false_or, List.mem_map] at ho
    exact ho
  have hin := h.inside_of_fixed hfixed
  obtain ⟨d, hd⟩ := hin.live
  exact ⟨(h.valid.mem_nestedOps h.nested).2 hin, by rw [hd, hkept.op hfixed hd]⟩

/-- A qubit is rotated by a constant and measured. -/
def foldedText (axis : Axis) (x : Binary64) : Body 0 :=
  .step .alloc (.step (.const x) (.step (.rotate axis (number 1 1) (number 1 0)) (endText 2 2)))

/-- The same with one more rotation under a branch, by a constant that is made before the first. -/
def detouredText (axis : Axis) (x y : Binary64) : Body 0 :=
  .step .alloc (.step (.const y) (.step (.const x)
    (.step (.rotate axis (number 2 2) (number 2 0)) (branchText axis 1 3 3))))

section Texts

variable {g : Graph} {root source p m r : OpId} {b : BlockId} {l : Location} {axis : Axis}
  {x y : Binary64} {first out v w : ValueId} {D : Detour} {E : Closing}

theorem Graph.Valid.built_folded (hg : g.Valid root)
    (hchildren : g.children root = .ok (source :: m :: r :: E.ops))
    (hsource : g.op source = .ok (((Draft.alloc l).made [first]).inBlock b))
    (hm : g.Computes m (.const x) v) (hr : g.Computes r (.rotation axis v first) out)
    (hE : E.Holds g b out) :
    g.Built root (foldedText axis x) [] (source :: m :: r :: E.ops) := by
  have howner := fun o => (hg.linked.housed.mem_children_iff (o := o) hchildren).1
  have hin := fun o ho => (⟨0, .step (howner o ho) .root⟩ : g.Inside root o)
  obtain ⟨_, _, hm⟩ := hm.const_entry hg (hin m (by simp))
  obtain ⟨_, _, hr⟩ := hr.rotation_entry hg (hin r (by simp))
  refine .step (l := l) hsource rfl (howner _ (by simp)) ?_
  refine .step hm rfl (howner _ (by simp)) ?_
  refine .step hr rfl (howner _ (by simp)) ?_
  exact hE.built (fun o ho => howner o (by simp [ho])) rfl (by simp) rfl

theorem Graph.Valid.built_detoured (hg : g.Valid root)
    (hchildren : g.children root = .ok (source :: p :: m :: r :: (D.top ++ E.ops)))
    (hsource : g.op source = .ok (((Draft.alloc l).made [first]).inBlock b))
    (hp : g.Computes p (.const y) w) (hm : g.Computes m (.const x) v)
    (hr : g.Computes r (.rotation axis v first) out) (hD : D.Holds g b axis w out)
    (hE : E.Holds g b D.out) :
    g.Built root (detouredText axis x y) [] (source :: p :: m :: r :: (D.ops ++ E.ops)) := by
  have howner := fun o => (hg.linked.housed.mem_children_iff (o := o) hchildren).1
  have hin := fun o ho => (⟨0, .step (howner o ho) .root⟩ : g.Inside root o)
  obtain ⟨_, _, hp⟩ := hp.const_entry hg (hin p (by simp))
  obtain ⟨_, _, hm⟩ := hm.const_entry hg (hin m (by simp))
  obtain ⟨_, _, hr⟩ := hr.rotation_entry hg (hin r (by simp))
  refine .step (l := l) hsource rfl (howner _ (by simp)) ?_
  refine .step hp rfl (howner _ (by simp)) ?_
  refine .step hm rfl (howner _ (by simp)) ?_
  refine .step hr rfl (howner _ (by simp)) ?_
  exact hD.built hE hg.linked (fun o ho => howner o (by simp [ho])) rfl (by simp) rfl (by simp) rfl

end Texts

namespace RotationSeries

variable (c : RotationSeries)

theorem split_succ (h : c.split < c.angles.length) : c.split + 1 = c.angles.length := by
  unfold split at h ⊢
  split
  · rw [if_pos ‹_›] at h
    omega
  · rw [if_neg ‹_›] at h
    omega

/-- The circuit of a series has the parts of a layout, with one of the two ends. -/
theorem build_parts : ∃ (C : Circuit) (L : Layout) (b : BlockId), c.build = .ok C ∧
    L.Holds C.graph C.func ∧
    (∃ l, C.graph.op L.source = .ok (((Draft.alloc l).made [L.first]).inBlock b)) ∧
    L.consts.map (·.2.1) = c.angles.take c.split ∧ L.keep.map (·.2.1) = c.angles.drop c.split ∧
    L.row.map Link.axis = c.axes ∧
    (c.split = c.angles.length ∧ (∃ E : Closing, L.post = E.ops ∧ L.rest = E.ops ∧
        E.Holds C.graph b L.out) ∨
      c.split + 1 = c.angles.length ∧ ∃ t D E, L.keep = [t] ∧ L.post = D.top ++ E.ops ∧
        L.rest = D.ops ++ E.ops ∧ Detour.Holds D C.graph b (c.axisOf c.split) t.2.2 L.out ∧
        Closing.Holds E C.graph b D.out) := by
  obtain ⟨root, r, b, B, ops, g, hnew, hraised⟩ := newFunc_raised .empty "main" [] c.text
  have hfunction : g.Function root := by
    refine hraised.function (.move .empty (.newFunc c.text.build_program hnew)) ?_
    intro o d v hd
    cases hd
  have hlaid := hraised.laid
  rw [List.length_eq_zero_iff.1 hraised.length] at hlaid
  obtain ⟨L, known, n, k, htop, hall, hopens, hconsts, hkeep, haxes, hend, hlen, hk, hout,
    hangle⟩ := hlaid.series
  have hplaced : L.Placed g root b :=
    ⟨hfunction, ⟨B, hraised.block, htop⟩, htop ▸ hraised.children, hall ▸ hraised.nestedOps,
      ⟨_, hend.forest⟩⟩
  have hbuild : c.build = .ok ⟨g, root⟩ := by
    have hsteps : ∀ vs : List ValueId, vs.length = ([] : List Ty).length →
        c.text.build vs = c.body := by
      intro vs hvs
      rw [List.length_eq_zero_iff.1 hvs, c.build_text]
    rw [newFunc_congr hsteps] at hnew
    rw [build, Circuit.build, hnew]
    rfl
  have hsplit := c.split_le
  by_cases hlt : c.split < c.angles.length
  · have hlast := c.split_succ hlt
    obtain ⟨t, ht⟩ : ∃ t, L.keep = [t] := by
      refine List.length_eq_one_iff.1 ?_
      rw [← List.length_map, hkeep, List.length_drop]
      omega
    obtain ⟨hi, hangle⟩ := hangle t (by rw [ht]; rfl)
    rw [closing, if_pos hlt] at hend
    obtain ⟨D, E, hpost, hrest, hD, hE, hfirst⟩ :=
      hend.detour hfunction.valid.linked hlen hi hk
    rw [hangle, hout] at hD
    obtain ⟨table, hholds⟩ := hopens.holds_detour hplaced ht hrest hD hE hfirst
    exact ⟨⟨g, root⟩, L.close table, b, hbuild, hholds, hopens.source, hconsts, hkeep, haxes,
      .inr ⟨hlast, t, D, E, ht, hpost, hrest, hD, hE⟩⟩
  · have hall : c.split = c.angles.length := by omega
    rw [closing, if_neg hlt] at hend
    obtain ⟨E, hpost, hrest, hE⟩ := hend.closing hlen hk
    rw [hout] at hE
    have hnone : L.keep = [] := by
      rw [← List.map_eq_nil_iff, hkeep, hall, List.drop_length]
    obtain ⟨table, hholds⟩ := hopens.holds_closing hplaced hnone hrest hE
    exact ⟨⟨g, root⟩, L.close table, b, hbuild, hholds, hopens.source, hconsts, hkeep, haxes,
      .inl ⟨hall, E, hpost, hrest, hE⟩⟩

variable {c}

theorem axes_of_not_cycle (h : c.cycleAxes = false) {axis : Axis} (ha : axis ∈ c.axes) :
    axis = c.axis := by
  obtain ⟨i, -, rfl⟩ := List.mem_map.1 ha
  simp [axisOf, h]

theorem axes_apart (h : c.cycleAxes = true) : c.axes.IsChain (· ≠ ·) := by
  have hnext : ∀ axis : Axis, axis ≠ axis.next := by
    rintro (_ | _ | _) <;> nofun
  rw [axes, List.isChain_map]
  refine (List.isChain_range' 0 c.split 1).imp fun i j hij => ?_
  rw [hij, axisOf, axisOf, if_pos h, if_pos h]
  exact hnext _

end RotationSeries

/-- The pass folds a series of rotations about one axis into one rotation, but for one under a
branch, and does nothing to a series whose axes change. -/
theorem RotationSeries.optimize_folds (c : RotationSeries) (a : Pass) (hsame : a.axisMatch = .same)
    (hfold : a.config.fold = true) (hdead : a.config.removeDead = true)
    (hsweeps : 2 ≤ a.config.maxSweeps) (hstop : a.config.Unraised) :
    ∃ C, c.build = .ok C ∧
      (c.cycleAxes = false → c.lastBranched = false → 2 ≤ c.angles.length →
        (∀ k, a.config.budget = some k → 4 * c.angles.length - 4 < k) →
        ∃ g, C.optimize a = .ok (.ok ⟨2, 4 * c.angles.length - 4⟩, { C with graph := g }) ∧
          C.graph.Becomes C.func (foldedText c.axis (total c.angles)) g) ∧
      (∀ angles last, c.angles = angles ++ [last] → c.cycleAxes = false → c.lastBranched = true →
        2 ≤ angles.length → (∀ k, a.config.budget = some k → 4 * angles.length - 4 < k) →
        ∃ g, C.optimize a = .ok (.ok ⟨2, 4 * angles.length - 4⟩, { C with graph := g }) ∧
          C.graph.Becomes C.func (detouredText c.axis (total angles) last) g) ∧
      (c.cycleAxes = true → C.optimize a = .ok (.ok ⟨1, 0⟩, C)) := by
  obtain ⟨C, L, b, hbuild, h, ⟨l, hsource⟩, hconsts, hkeep, haxes, hend⟩ := c.build_parts
  have haxis : c.cycleAxes = false → ∀ x ∈ L.row, x.axis = c.axis := by
    intro hcycle x hx
    exact axes_of_not_cycle hcycle (haxes ▸ List.mem_map_of_mem hx)
  have hoptimize : ∀ {r g}, a.run C.graph C.func = .ok (r, g) →
      C.optimize a = .ok (r, { C with graph := g }) := by
    intro r g hrun
    rw [Circuit.optimize, hrun]
    rfl
  refine ⟨C, hbuild, ?_, ?_, ?_⟩
  · intro hcycle hlast hlen hbudget
    have hsplit : c.split = c.angles.length := by simp [RotationSeries.split, hlast]
    rw [hsplit, List.take_length] at hconsts
    rw [hsplit, List.drop_length, List.map_eq_nil_iff] at hkeep
    rcases hend with ⟨-, E, hpost, hrest, hE⟩ | ⟨hlt, -⟩
    swap
    · omega
    have hcount : L.consts.length = c.angles.length := by rw [← hconsts, List.length_map]
    rw [← hcount] at hlen hbudget ⊢
    obtain ⟨g, m, r, v, hrun, hg, hkept, hchildren, hnested, hm, hr⟩ :=
      h.run (haxis hcycle) hlen a hsame hfold hdead hsweeps hstop hbudget
    refine ⟨g, hoptimize hrun, h.becomes hkept hnested ?_⟩
    have hE' := hE.carry fun o ho => hkept.op (.inr (.inr (hrest ▸ ho)))
    rw [hkeep, hpost] at hchildren
    rw [hconsts] at hm
    rw [hkeep, hrest]
    exact hg.built_folded hchildren (hkept.op (.inl rfl) hsource) hm hr hE'
  · intro angles last hangles hcycle hlast hlen hbudget
    have hsplit : c.split = angles.length := by simp [RotationSeries.split, hlast, hangles]
    rw [hsplit, hangles, List.take_left] at hconsts
    rw [hsplit, hangles, List.drop_left] at hkeep
    rcases hend with ⟨hlt, -⟩ | ⟨-, t, D, E, ht, hpost, hrest, hD, hE⟩
    · simp [hsplit, hangles] at hlt
    have hcount : L.consts.length = angles.length := by rw [← hconsts, List.length_map]
    rw [← hcount] at hlen hbudget ⊢
    obtain ⟨g, m, r, v, hrun, hg, hkept, hchildren, hnested, hm, hr⟩ :=
      h.run (haxis hcycle) hlen a hsame hfold hdead hsweeps hstop hbudget
    refine ⟨g, hoptimize hrun, h.becomes hkept hnested ?_⟩
    have hfixed : ∀ o ∈ D.ops ++ E.ops, L.Fixed o := fun o ho => .inr (.inr (hrest ▸ ho))
    have hE' := hE.carry fun o ho => hkept.op (hfixed o (List.mem_append_right _ ho))
    have hD' := hD.carry (fun o ho => hkept.op (hfixed o (List.mem_append_left _ ho)))
      (hkept.below (by simp [hrest, Detour.ops]))
    have hnumber := h.numbers t (by simp [ht])
    have hp := (hkept.computes_iff h (.inr (.inl ⟨t, by simp [ht], rfl⟩))).2 hnumber
    rw [ht, List.map_singleton, List.singleton_inj] at hkeep
    rw [show c.axisOf c.split = c.axis by simp [RotationSeries.axisOf, hcycle]] at hD'
    rw [ht, hpost] at hchildren
    rw [hconsts] at hm
    rw [hkeep] at hp
    rw [ht, hrest]
    exact hg.built_detoured hchildren (hkept.op (.inl rfl) hsource) hp hm hr hD' hE'
  · intro hcycle
    exact hoptimize (h.run_apart a hsame (haxes ▸ axes_apart hcycle) (by omega) hstop)

/-- Three rotations by a quarter, by a half and by one: two of them are folded if the last one
is under a branch, and all three if it is not. -/
theorem RotationSeries.optimize_folds_three : ∃ C C' C'' g g',
    RotationSeries.build ⟨.z, [⟨0x3fd0000000000000⟩, ⟨0x3fe0000000000000⟩, ⟨0x3ff0000000000000⟩],
      false, true⟩ = .ok C ∧ C.optimize {} = .ok (.ok ⟨2, 4⟩, { C with graph := g }) ∧
    C.graph.Becomes C.func (detouredText .z (⟨0x3fd0000000000000⟩ + ⟨0x3fe0000000000000⟩)
      ⟨0x3ff0000000000000⟩) g ∧
    RotationSeries.build ⟨.z, [⟨0x3fd0000000000000⟩, ⟨0x3fe0000000000000⟩, ⟨0x3ff0000000000000⟩],
      false, false⟩ = .ok C' ∧ C'.optimize {} = .ok (.ok ⟨2, 8⟩, { C' with graph := g' }) ∧
    C'.graph.Becomes C'.func (foldedText .z
      (⟨0x3fd0000000000000⟩ + ⟨0x3fe0000000000000⟩ + ⟨0x3ff0000000000000⟩)) g' ∧
    RotationSeries.build ⟨.z, [⟨0x3fd0000000000000⟩, ⟨0x3fe0000000000000⟩, ⟨0x3ff0000000000000⟩],
      true, true⟩ = .ok C'' ∧ C''.optimize {} = .ok (.ok ⟨1, 0⟩, C'') := by
  have hdown : Config.Unraised {} := fun _ => rfl
  obtain ⟨C, hC, -, hbranched, -⟩ := RotationSeries.optimize_folds ⟨.z, [⟨0x3fd0000000000000⟩,
    ⟨0x3fe0000000000000⟩, ⟨0x3ff0000000000000⟩], false, true⟩ {} rfl rfl rfl (by decide)
    hdown
  obtain ⟨C', hC', hplain, -⟩ := RotationSeries.optimize_folds ⟨.z, [⟨0x3fd0000000000000⟩,
    ⟨0x3fe0000000000000⟩, ⟨0x3ff0000000000000⟩], false, false⟩ {} rfl rfl rfl (by decide)
    hdown
  obtain ⟨C'', hC'', -, -, hmixed⟩ := RotationSeries.optimize_folds ⟨.z, [⟨0x3fd0000000000000⟩,
    ⟨0x3fe0000000000000⟩, ⟨0x3ff0000000000000⟩], true, true⟩ {} rfl rfl rfl (by decide)
    hdown
  obtain ⟨g, hrun, hbecomes⟩ := hbranched [⟨0x3fd0000000000000⟩, ⟨0x3fe0000000000000⟩]
    ⟨0x3ff0000000000000⟩ rfl rfl rfl (by decide) (by simp)
  obtain ⟨g', hrun', hbecomes'⟩ := hplain rfl rfl (by decide) (by simp)
  exact ⟨C, C', C'', g, g', hC, hrun, hbecomes, hC', hrun', hbecomes', hC'', hmixed rfl⟩

end Peephole
