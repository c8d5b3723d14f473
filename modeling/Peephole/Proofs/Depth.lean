import Peephole.Proofs.Links
import Mathlib.Data.Finset.Card

/-!
# How deep an erasure goes

An erasure is given a depth.  Every block on the way down is emptied before the step to the
next level, so there are no more levels than blocks that have operations in them, and the
depth that an erasure is given is enough.  All it needs is that what is listed exists
(`Complete.erase_ok`), as it does in a linked graph.
-/

namespace Peephole.Graph

variable {g g' : Graph} {o p : OpId} {b : BlockId} {B : Block} {d : Op} {os : List OpId}
  {bs : List BlockId}

/-- Regions, blocks and operations that are listed exist. -/
structure Complete (g : Graph) : Prop where
  region {o : OpId} {d : Op} {r : RegionId} : g.slot o = .ok d → r ∈ d.regions →
    ∃ R, g.region r = .ok R
  block {r : RegionId} {R : Region} {b : BlockId} : g.region r = .ok R → b ∈ R.blocks →
    ∃ B, g.block b = .ok B
  op {b : BlockId} {p : OpId} : g.Lists b p → ∃ d, g.slot p = .ok d

open Classical in
/-- The blocks that have operations in them. -/
noncomputable def filled (g : Graph) : Finset Nat :=
  (Finset.range g.blocks.size).filter fun i => ∃ p, g.Lists ⟨i⟩ p

theorem mem_filled : b.index ∈ g.filled ↔ ∃ p, g.Lists b p := by
  simp only [filled, Finset.mem_filter, Finset.mem_range, and_iff_right_iff_imp]
  rintro ⟨p, B, hB, -⟩
  exact (Array.getElem?_eq_some_iff.1 (entry_eq_ok.1 hB)).1

open Classical in
theorem card_filled_le : g.filled.card ≤ g.blocks.size := by
  rw [filled]
  exact (Finset.card_filter_le _ _).trans_eq (Finset.card_range _)

theorem filled_mono (h : ∀ b p, g'.Lists b p → g.Lists b p) : g'.filled ⊆ g.filled := by
  intro i hi
  obtain ⟨p, hp⟩ := mem_filled.1 (show (BlockId.mk i).index ∈ g'.filled from hi)
  exact mem_filled.2 ⟨p, h _ p hp⟩

theorem Cleared.card_filled_le (h : g.Cleared os bs g') {n : Nat} (hn : g.filled.card ≤ n) :
    g'.filled.card ≤ n :=
  (Finset.card_le_card (filled_mono fun _ _ hp => (h.lists_iff.1 hp).2)).trans hn

namespace Complete

theorem exists_slot_cleared (h : g.Cleared os bs g') (hd : ∃ d, g.slot p = .ok d) :
    ∃ d, g'.slot p = .ok d := by
  obtain ⟨d, hd⟩ := hd
  rw [h.slot, hd]
  split
  · exact ⟨_, rfl⟩
  · exact ⟨_, rfl⟩

theorem cleared (h : g.Complete) (hc : g.Cleared os bs g') : g'.Complete where
  region {o d r} hd hr := by
    rw [hc.region]
    have hslot : ∃ d, g.slot o = .ok d ∧ r ∈ d.regions := by
      rw [hc.slot] at hd
      split at hd
      · obtain ⟨d', hd', rfl⟩ := map_eq_ok.1 hd
        exact ⟨d', hd', hr⟩
      · exact ⟨d, hd, hr⟩
    obtain ⟨d', hd', hr'⟩ := hslot
    exact h.region hd' hr'
  block {r R b} hR hb := by
    rw [hc.region] at hR
    obtain ⟨B, hB⟩ := h.block hR hb
    rw [hc.block, hB]
    split
    · exact ⟨_, rfl⟩
    · exact ⟨_, rfl⟩
  op hp := exists_slot_cleared hc (h.op (hc.lists_iff.1 hp).2)

theorem detach (h : g.Complete) (o : OpId) : (g.detach o).Complete where
  region {p d r} hd hr := by
    rw [slot_detach] at hd
    split at hd
    · obtain ⟨d', hd', rfl⟩ := map_eq_ok.1 hd
      exact h.region hd' hr
    · exact h.region hd hr
  block := h.block
  op {b p} hp := by
    obtain ⟨d, hd⟩ := h.op hp
    rw [slot_detach, hd]
    split
    · exact ⟨_, rfl⟩
    · exact ⟨_, rfl⟩

theorem unlist (h : g.Complete) (o : OpId) : ∀ home, (g.unlist o home).Complete
  | none => h
  | some b => by
      have hd := h.detach o
      refine ⟨hd.region, fun {r R c} hR hc => ?_, fun hp => hd.op (lists_unlist.1 hp).1⟩
      obtain ⟨C, hC⟩ := h.block hR hc
      rw [block_unlist, hC]
      split
      · exact ⟨_, rfl⟩
      · exact ⟨_, rfl⟩

/-- A loop succeeds whose every step does in a graph of which parts have been cleared. -/
theorem foldlM_ok {α : Type} {step : Graph → α → Except Fault Graph} {l : List α}
    (hstep : ∀ a ∈ l, ∀ os bs g', g.Cleared os bs g' →
      ∃ os' bs' g'', step g' a = .ok g'' ∧ g'.Cleared os' bs' g'') :
    ∀ {os bs g'}, g.Cleared os bs g' → ∃ os' bs' g'', l.foldlM step g' = .ok g'' ∧
      g.Cleared os' bs' g'' := by
  induction l with
  | nil => exact fun {os bs g'} h => ⟨os, bs, g', rfl, h⟩
  | cons a l ih =>
    intro os bs g' h
    obtain ⟨os₁, bs₁, g₁, h₁, hcleared⟩ := hstep a (.head l) os bs g' h
    obtain ⟨os₂, bs₂, g₂, h₂, hrest⟩ :=
      ih (fun b hb => hstep b (.tail a hb)) (h.trans hcleared)
    exact ⟨os₂, bs₂, g₂, by rw [List.foldlM_cons, h₁]; exact h₂, hrest⟩

/-- Operations can be erased as long as fewer blocks than given have operations in them. -/
def ErasesBelow (n : Nat) (erase : Graph → OpId → Except Fault Graph) : Prop :=
  ∀ {g : Graph} {p : OpId} {d : Op}, g.Complete → g.slot p = .ok d → g.filled.card < n →
    ∃ g', erase g p = .ok g'

section Loops

variable {erase : Graph → OpId → Except Fault Graph} {n : Nat}

/-- What a block lists is erased.  The block had operations in it, if there is anything to do,
and is empty when they are erased. -/
theorem eraseBlockBy_ok (hunder : ClearsUnder erase) (herase : ErasesBelow n erase)
    (hg : g.Complete) (hB : g.block b = .ok B) (hcard : g.filled.card ≤ n) :
    ∃ os bs g', eraseBlockBy erase g b = .ok g' ∧ g.Cleared os bs g' := by
  have hempty := Cleared.emptyBlock g b
  have hstep : ∀ p ∈ B.ops.reverse, ∀ os bs g',
      (g.modifyBlock b fun B => { B with ops := [] }).Cleared os bs g' →
        ∃ os' bs' g'', erase (g'.detach p) p = .ok g'' ∧ g'.Cleared os' bs' g'' := by
    intro p hp os bs g' hc
    have hlists : g.Lists b p := ⟨B, hB, List.mem_reverse.1 hp⟩
    have hg' := (hg.cleared hempty).cleared hc
    obtain ⟨d, hd⟩ := exists_slot_cleared hc (exists_slot_cleared hempty (hg.op hlists))
    have hd' : (g'.detach p).slot p = .ok { d with block := none } := by
      rw [slot_detach, if_pos rfl, hd, map_ok]
    have hfewer : (g'.detach p).filled ⊂ g.filled := by
      refine Finset.ssubset_iff_subset_ne.2 ⟨filled_mono fun c q hq => ?_, fun heq => ?_⟩
      · exact (hempty.lists_iff.1 (hc.lists_iff.1 hq).2).2
      · have hb : b.index ∈ (g'.detach p).filled := heq ▸ mem_filled.2 ⟨p, hlists⟩
        obtain ⟨q, hq⟩ := mem_filled.1 hb
        exact (hempty.lists_iff.1 (hc.lists_iff.1 hq).2).1 (List.mem_singleton_self b)
    obtain ⟨g'', hg''⟩ := herase (hg'.detach p) hd'
      (Nat.lt_of_lt_of_le (Finset.card_lt_card hfewer) hcard)
    obtain ⟨os', bs', hclears⟩ := hunder g' p g'' hg''
    exact ⟨os', bs', g'', hg'', hclears.toCleared⟩
  obtain ⟨os, bs, g', h, -⟩ := foldlM_ok hstep (.refl _)
  have hrun : eraseBlockBy erase g b = .ok g' := by
    rw [eraseBlockBy, hB]
    exact h
  obtain ⟨os, bs, hclears⟩ := clears_of_eraseBlockBy hunder hrun
  exact ⟨os, bs, g', hrun, hclears.toCleared⟩

theorem eraseRegionBy_ok (hunder : ClearsUnder erase) (herase : ErasesBelow n erase)
    (hg : g.Complete) {r : RegionId} {R : Region} (hR : g.region r = .ok R)
    (hcard : g.filled.card ≤ n) :
    ∃ os bs g', eraseRegionBy erase g r = .ok g' ∧ g.Cleared os bs g' := by
  have hblock : ∀ b ∈ R.blocks, ∀ os bs g', g.Cleared os bs g' →
      ∃ os' bs' g'', eraseBlockBy erase g' b = .ok g'' ∧ g'.Cleared os' bs' g'' := by
    intro b hb os bs g' hc
    obtain ⟨B, hB⟩ := (hg.cleared hc).block ((hc.region r).trans hR) hb
    exact eraseBlockBy_ok hunder herase (hg.cleared hc) hB (hc.card_filled_le hcard)
  obtain ⟨os, bs, g', h, hcleared⟩ := foldlM_ok hblock (.refl g)
  exact ⟨os, bs, g', by rw [eraseRegionBy, hR]; exact h, hcleared⟩

end Loops

/-- An operation is erased as long as there are more levels than blocks with operations in
them.  The step to the next level goes through such a block, which is empty from then on. -/
theorem erasesBelow_eraseDetachedTo : ∀ depth : Nat, ErasesBelow depth (eraseDetachedTo depth)
  | 0, g, o, d, _, _, hdepth => absurd hdepth (Nat.not_lt_zero _)
  | depth + 1, g, o, d, hg, hd, hdepth => by
      have hunder := clearsUnder_eraseDetachedTo depth
      have hregion : ∀ r ∈ d.regions, ∀ os bs g', g.Cleared os bs g' →
          ∃ os' bs' g'', eraseRegionBy (eraseDetachedTo depth) g' r = .ok g'' ∧
            g'.Cleared os' bs' g'' := by
        intro r hr os bs g' hc
        obtain ⟨R, hR⟩ := hg.region hd hr
        exact eraseRegionBy_ok hunder (erasesBelow_eraseDetachedTo depth) (hg.cleared hc)
          ((hc.region r).trans hR) (hc.card_filled_le (Nat.le_of_lt_succ hdepth))
      obtain ⟨os, bs, g', h, -⟩ := foldlM_ok hregion (.refl g)
      exact ⟨g'.bury o, by rw [eraseDetachedTo, hd, ok_bind, h]; rfl⟩

/-- The depth that an erasure is given is enough. -/
theorem eraseUnlisted_ok (hg : g.Complete) (hd : g.op o = .ok d) :
    ∃ g', eraseDetachedTo (g.blocks.size + 1) (g.unlist o d.block) o = .ok g' := by
  obtain ⟨x, hx, -⟩ : ∃ x, (g.unlist o d.block).slot o = .ok x ∧ True :=
    (exists_slot_unlist fun _ => Iff.rfl).2 ⟨d, slot_of_op hd, trivial⟩
  have hfewer : (g.unlist o d.block).filled.card ≤ g.filled.card :=
    Finset.card_le_card (filled_mono fun b p hp => (lists_unlist.1 hp).1)
  exact erasesBelow_eraseDetachedTo _ (hg.unlist o d.block) hx
    (Nat.lt_succ_of_le (hfewer.trans card_filled_le))

/-- An operation whose results nobody reads can be erased. -/
theorem erase_ok (hg : g.Complete) (hd : g.op o = .ok d)
    (hfree : ∀ v ∈ d.results, g.uses v = []) : ∃ g', g.erase o = .ok g' := by
  obtain ⟨g', hg'⟩ := hg.eraseUnlisted_ok hd
  exact ⟨g', erase_eq_ok.2 ⟨d, hd, hfree, hg'⟩⟩

end Complete

theorem Linked.complete (hg : g.Linked) : g.Complete where
  region hd hr := by
    obtain ⟨R, hR, -⟩ := hg.owned.2 ⟨_, hd, hr⟩
    exact ⟨R, hR⟩
  block hR hb := by
    obtain ⟨B, hB, -⟩ := hg.parted.2 ⟨_, hR, hb⟩
    exact ⟨B, hB⟩
  op hp := by
    obtain ⟨d, hd, -⟩ := hg.placed.2 hp
    exact ⟨d, slot_of_op hd⟩

end Peephole.Graph
