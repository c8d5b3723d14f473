import Peephole.Proofs.Preservation

/-!
# Listings under edits

What is in a block is listed in order, and edits change the lists in a simple way.  An erasure
takes an operation out of its list, and an insertion puts one right before its anchor.  Reductions
often insert an operation before another one and then erase that, so the new operation takes its
place in the list (`Inserted.children_replaced`).
-/

namespace Peephole

namespace Graph

variable {g g' : Graph} {o p a e n : OpId} {cs : List OpId} {d : Draft}

theorem flatMap_of_not_mem {l : List OpId} (h : a ∉ l) :
    (l.flatMap fun p => if p = a then [n, a] else [p]) = l := by
  induction l with
  | nil => rfl
  | cons p l ih =>
    have hp : p ≠ a := fun heq => h (heq ▸ .head l)
    rw [List.flatMap_cons, if_neg hp, ih fun hmem => h (.tail p hmem)]
    rfl

/-- If `n` is before `a`, and after what was before `a` without it, then it is right before `a`. -/
theorem flatMap_of_before {l l' : List OpId} (hnodup : l'.Nodup)
    (hkeep : l'.filter (· ≠ n) = l) (hna : [n, a].Sublist l')
    (hafter : ∀ p, [p, a].Sublist l → [p, n].Sublist l') :
    l' = l.flatMap fun p => if p = a then [n, a] else [p] := by
  obtain ⟨M₁, M₂, rfl⟩ := List.append_of_mem (hna.subset (.head _))
  have haM₂ : a ∈ M₂ := (after_iff hnodup).1 hna
  obtain ⟨hn, hnodup'⟩ := List.nodup_cons.1 (List.nodup_middle.1 hnodup)
  obtain rfl : M₁ ++ M₂ = l := by
    rw [← hkeep, ← filter_ne_self hn]
    simp
  obtain ⟨s, L₂, rfl⟩ := List.append_of_mem haM₂
  -- nothing is between the two
  obtain rfl : s = [] := by
    refine List.eq_nil_iff_forall_not_mem.2 fun p hp => ?_
    have hbefore : [p, a].Sublist (M₁ ++ (s ++ a :: L₂)) := by
      refine .trans ?_ (List.sublist_append_right M₁ _)
      exact (List.singleton_sublist.2 hp).append (List.singleton_sublist.2 (.head _))
    have hpM₁ : p ∈ M₁ := (before_iff hnodup).1 (hafter p hbefore)
    exact (List.disjoint_of_nodup_append hnodup') hpM₁ (List.mem_append_left _ hp)
  have haM₁ : a ∉ M₁ := fun ha => (List.disjoint_of_nodup_append hnodup') ha haM₂
  have haL₂ : a ∉ L₂ :=
    (List.nodup_cons.1 (List.nodup_middle.1 hnodup')).1 ∘ List.mem_append_right _
  rw [List.nil_append, List.flatMap_append, List.flatMap_cons, if_pos rfl, flatMap_of_not_mem haM₁,
    flatMap_of_not_mem haL₂]
  simp

/-- When the blocks of an operation are listed anew, so are its children. -/
theorem children_relisted {φ : OpId → List OpId} {x x' : Op} (hx : g.op o = .ok x)
    (hx' : g'.op o = .ok x') (hregions : x'.regions = x.regions)
    (hregion : ∀ r, g'.region r = g.region r)
    (hblock : ∀ {b B}, g.block b = .ok B → ∃ B', g'.block b = .ok B' ∧ B'.ops = B.ops.flatMap φ)
    (h : g.children o = .ok cs) : g'.children o = .ok (cs.flatMap φ) := by
  obtain ⟨bs, Bs, hbs, hBs, rfl⟩ := children_eq_ok.1 h
  have hbs' : g'.innerBlocks o = .ok bs := by
    obtain ⟨y, Rs, hy, hRs, rfl⟩ := innerBlocks_eq_ok.1 hbs
    rw [hx] at hy
    cases hy
    refine innerBlocks_eq_ok.2 ⟨x', Rs, hx', ?_, rfl⟩
    rw [hregions, ← hRs]
    exact congrArg (List.mapM · x.regions) (funext hregion)
  obtain ⟨Bs', hBs', hops⟩ : ∃ Bs', bs.mapM g'.block = .ok Bs' ∧
      Bs'.flatMap Block.ops = (Bs.flatMap Block.ops).flatMap φ := by
    clear hbs hbs' h
    revert Bs
    induction bs with
    | nil =>
      intro Bs hBs
      cases hBs
      exact ⟨[], rfl, rfl⟩
    | cons b bs ih =>
      intro Bs hBs
      rw [List.mapM_cons, bind_eq_ok] at hBs
      obtain ⟨B, hB, hrest⟩ := hBs
      obtain ⟨Bs', hBs', heq⟩ := bind_eq_ok.1 hrest
      cases heq
      obtain ⟨B', hB', hBops⟩ := hblock hB
      obtain ⟨Cs, hCs, hops⟩ := ih Bs' hBs'
      refine ⟨B' :: Cs, by simp [hB', hCs], ?_⟩
      rw [List.flatMap_cons, List.flatMap_cons, List.flatMap_append, hBops, hops]
  rw [children_eq_ok]
  exact ⟨bs, Bs', hbs', hBs', hops.symm⟩

theorem Rewired.children (h : Rewired g g') (hcs : g.children o = .ok cs) :
    g'.children o = .ok cs := by
  obtain ⟨bs, -, hbs, -⟩ := children_eq_ok.1 hcs
  obtain ⟨x, -, hx, -⟩ := innerBlocks_eq_ok.1 hbs
  obtain ⟨x', hx', hunread⟩ := h.op_ok hx
  have hregions : x'.unread.regions = x.unread.regions := congrArg Op.regions hunread
  have hself : ∀ l : List OpId, l = l.flatMap fun p => [p] := by simp
  rw [hself cs]
  exact children_relisted hx hx' hregions h.region
    (fun {b B} hB => ⟨B, (h.block b).trans hB, hself B.ops⟩) hcs

/-- An operation that is erased is taken out of its list. -/
theorem Trimmed.children (h : Trimmed g g' e) (ho : o ≠ e) (hcs : g.children o = .ok cs) :
    g'.children o = .ok (cs.filter (· ≠ e)) := by
  obtain ⟨bs, -, hbs, -⟩ := children_eq_ok.1 hcs
  obtain ⟨x, -, hx, -⟩ := innerBlocks_eq_ok.1 hbs
  have hfilter : ∀ l : List OpId,
      l.filter (· ≠ e) = l.flatMap fun p => if p = e then [] else [p] := by
    intro l
    induction l with
    | nil => rfl
    | cons p l ih =>
      rw [List.filter_cons, List.flatMap_cons, ← ih]
      by_cases hp : p = e <;> simp [hp]
  rw [hfilter]
  exact children_relisted hx ((h.op ho).trans hx) rfl h.region
    (fun {b B} hB => ⟨_, h.block_ok hB, hfilter B.ops⟩) hcs

theorem Inserted.block (h : Inserted g a d n g') {b : BlockId} {B : Block}
    (hB : g.block b = .ok B) : ∃ B', g'.block b = .ok B' ∧
      B'.ops = B.ops.flatMap fun p => if p = a then [n, a] else [p] := by
  have hBold := hB
  rw [h.trimmed.block] at hB
  obtain ⟨B', hB', rfl⟩ := map_eq_ok.1 hB
  refine ⟨B', hB', ?_⟩
  obtain ⟨c, C, hC, hna⟩ := h.before
  by_cases hmem : n ∈ B'.ops
  · -- the anchor is in this block too
    obtain ⟨rfl, rfl⟩ := h.linked.block_unique hC hB' (hna.subset (.head _)) hmem
    refine flatMap_of_before (h.linked.nodupOps hC) rfl hna fun p hp => ?_
    obtain ⟨b, B, hB, hpn⟩ := h.after ⟨c, _, hBold, hp⟩
    obtain ⟨rfl, rfl⟩ := h.linked.block_unique hB hC (hpn.subset (.tail p (.head _))) hmem
    exact hpn
  · have ha : a ∉ B'.ops := by
      intro ha
      obtain ⟨rfl, rfl⟩ := h.linked.block_unique hC hB' (hna.subset (.tail n (.head _))) ha
      exact hmem (hna.subset (.head _))
    dsimp only
    rw [filter_ne_self hmem, flatMap_of_not_mem ha]

/-- A new operation is listed right before its anchor. -/
theorem Inserted.children (h : Inserted g a d n g') (hcs : g.children o = .ok cs) :
    g'.children o = .ok (cs.flatMap fun p => if p = a then [n, a] else [p]) := by
  obtain ⟨bs, -, hbs, -⟩ := children_eq_ok.1 hcs
  obtain ⟨x, -, hx, -⟩ := innerBlocks_eq_ok.1 hbs
  have hne : o ≠ n := h.trimmed.ne_of_op hx
  exact children_relisted hx ((h.trimmed.op hne).symm.trans hx) rfl
    (fun r => (h.trimmed.region r).symm) h.block hcs

/-- Operations without children may stand before trees. -/
theorem Forest.leaves {k : Nat} {os l : List OpId} (h : Forest g (k + 1) os l)
    (hleaf : ∀ p ∈ cs, g.children p = .ok []) : Forest g (k + 1) (cs ++ os) (cs ++ l) := by
  induction cs with
  | nil => exact h
  | cons p cs ih =>
    have h' : Forest g (k + 1) (p :: (cs ++ os)) (p :: ([] ++ (cs ++ l))) :=
      .cons (hleaf p (.head cs)) .nil (ih fun q hq => hleaf q (.tail p hq))
    exact h'

/-- Where no child has children, nothing else is nested. -/
theorem nestedOps_of_leaves (hcs : g.children o = .ok cs)
    (hleaf : ∀ p ∈ cs, g.children p = .ok []) : g.nestedOps o = .ok cs := by
  have hforest : Forest g g.depth (cs ++ []) (cs ++ []) := Forest.nil.leaves hleaf
  rw [List.append_nil] at hforest
  exact nestedOps_eq_ok.2 ⟨cs, hcs, hforest⟩

/-- Trees stay as they are where children do. -/
theorem Forest.carry {k : Nat} {os l : List OpId} (h : Forest g k os l)
    (hkept : ∀ {p ps}, p ∈ l → g.children p = .ok ps → g'.children p = .ok ps) :
    Forest g' k os l := by
  induction h with
  | nil => exact .nil
  | cons hcs _ _ ihin ihrest =>
    exact .cons (hkept (.head _) hcs)
      (ihin fun hp => hkept (.tail _ (List.mem_append_left _ hp)))
      (ihrest fun hp => hkept (.tail _ (List.mem_append_right _ hp)))

section Replaced

variable {g₁ g₂ : Graph} {before after : List OpId}

/-- What is inserted before an operation that is then erased takes its place. -/
theorem Inserted.children_replaced (hi : Inserted g e d n g₁) (hr : Rewired g₁ g₂)
    (he : Erased g₂ e g') (hg : g.Linked) (hne : o ≠ e)
    (hcs : g.children o = .ok (before ++ e :: after)) :
    g'.children o = .ok (before ++ n :: after) := by
  obtain ⟨hout, -⟩ := List.nodup_cons.1 (List.nodup_middle.1 (hg.housed.nodup_children hcs))
  rw [List.mem_append, not_or] at hout
  have hen : n ≠ e := hi.linked.ne_of_precedes hi.before
  have hchildren := he.trimmed.children hne (hr.children (hi.children hcs))
  have hpair : [n, e].filter (· ≠ e) = [n] := by simp [hen]
  rw [List.flatMap_append, List.flatMap_cons, if_pos rfl, flatMap_of_not_mem hout.1,
    flatMap_of_not_mem hout.2, List.filter_append, List.filter_append, filter_ne_self hout.1,
    filter_ne_self hout.2, hpair] at hchildren
  exact hchildren

end Replaced

end Graph

end Peephole
