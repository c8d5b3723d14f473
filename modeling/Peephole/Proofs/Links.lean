import Peephole.Proofs.Clearing
import Peephole.Proofs.History
import Mathlib.Data.List.Perm.Basic

/-!
# Links upwards and lists downwards

An operation names the block it is in and the block lists it.  A block and its region, a
region and its owner, a value and where it is made are linked both ways in the same
manner.  `Graph.Linked` says that the two directions agree, and `linked_invariant` that
they do in every graph one can come to without presets.

Erased operations are in no block.  They keep their regions and results, so for these
the entry of an operation counts, live or not.
-/

namespace Peephole

/-- An operation without what it reads, but for how many values that are. -/
def Op.unread (d : Op) : Op := { d with operands := d.operands.map fun _ => default }

namespace Graph

variable {g g' g'' : Graph}

/-! ## Changes of operands -/

/-- The graphs differ at most in what operations read, and in the use lists. -/
structure Rewired (g g' : Graph) : Prop where
  slot (o : OpId) : (g'.slot o).map Op.unread = (g.slot o).map Op.unread
  block (b : BlockId) : g'.block b = g.block b
  region (r : RegionId) : g'.region r = g.region r
  value (v : ValueId) : g'.value v = g.value v

namespace Rewired

theorem refl (g : Graph) : Rewired g g := ⟨fun _ => rfl, fun _ => rfl, fun _ => rfl, fun _ => rfl⟩

theorem symm (h : Rewired g g') : Rewired g' g :=
  ⟨fun o => (h.slot o).symm, fun b => (h.block b).symm, fun r => (h.region r).symm,
    fun v => (h.value v).symm⟩

theorem trans (h : Rewired g g') (h' : Rewired g' g'') : Rewired g g'' :=
  ⟨fun o => (h'.slot o).trans (h.slot o), fun b => (h'.block b).trans (h.block b),
    fun r => (h'.region r).trans (h.region r), fun v => (h'.value v).trans (h.value v)⟩

theorem slot_ok (h : Rewired g g') {o : OpId} {d : Op} (hd : g.slot o = .ok d) :
    ∃ d', g'.slot o = .ok d' ∧ d'.unread = d.unread := by
  have ho := h.slot o
  rw [hd, map_ok] at ho
  exact map_eq_ok.1 ho

theorem op_ok (h : Rewired g g') {o : OpId} {d : Op} (hd : g.op o = .ok d) :
    ∃ d', g'.op o = .ok d' ∧ d'.unread = d.unread := by
  obtain ⟨hs, he⟩ := op_eq_ok.1 hd
  obtain ⟨d', hs', hu⟩ := h.slot_ok hs
  exact ⟨d', op_eq_ok.2 ⟨hs', (congrArg Op.erased hu).trans he⟩, hu⟩

/-- What is known of an operation, but for what it reads, is the same. -/
theorem exists_op (h : Rewired g g') {o : OpId} (P : Op → Prop) :
    (∃ d, g'.op o = .ok d ∧ P d.unread) ↔ ∃ d, g.op o = .ok d ∧ P d.unread := by
  constructor
  · rintro ⟨d, hd, hp⟩
    obtain ⟨d', hd', hu⟩ := h.symm.op_ok hd
    exact ⟨d', hd', hu ▸ hp⟩
  · rintro ⟨d, hd, hp⟩
    obtain ⟨d', hd', hu⟩ := h.op_ok hd
    exact ⟨d', hd', hu ▸ hp⟩

theorem exists_slot (h : Rewired g g') {o : OpId} (P : Op → Prop) :
    (∃ d, g'.slot o = .ok d ∧ P d.unread) ↔ ∃ d, g.slot o = .ok d ∧ P d.unread := by
  constructor
  · rintro ⟨d, hd, hp⟩
    obtain ⟨d', hd', hu⟩ := h.symm.slot_ok hd
    exact ⟨d', hd', hu ▸ hp⟩
  · rintro ⟨d, hd, hp⟩
    obtain ⟨d', hd', hu⟩ := h.slot_ok hd
    exact ⟨d', hd', hu ▸ hp⟩

/-- Writing an operand slot rewires a graph, and so does writing a use list. -/
theorem modifyOp (o : OpId) (i : Nat) (v : ValueId) :
    Rewired g (g.modifyOp o fun d => { d with operands := d.operands.set i v }) where
  slot p := by
    have hset : ∀ d : Op, Op.unread { d with operands := d.operands.set i v } = d.unread := by
      intro d
      have hmap : (d.operands.set i v).map (fun _ => (default : ValueId)) =
          d.operands.map fun _ => default := by simp
      simp only [Op.unread, hmap]
    rw [slot_modifyOp]
    split
    · cases g.slot p with
      | ok d => simp [hset]
      | error e => rfl
    · rfl
  block _ := rfl
  region _ := rfl
  value _ := rfl

theorem modifyUses (v : ValueId) (f : List Use → List Use) : Rewired g (g.modifyUses v f) :=
  ⟨fun _ => rfl, fun _ => rfl, fun _ => rfl, fun _ => rfl⟩

theorem writeSlot {o : OpId} {i : Nat} {v : ValueId} (h : g.writeSlot o i v = .ok g') :
    Rewired g g' := by
  obtain ⟨d, old, -, -, rfl⟩ := writeSlot_eq_ok.1 h
  split
  · exact refl g
  · exact ((modifyOp o i v).trans (modifyUses ..)).trans (modifyUses ..)

theorem redirectUses {old new : ValueId} (h : g.redirectUses old new = .ok g') : Rewired g g' := by
  rw [Graph.redirectUses] at h
  split at h
  · cases h
    exact refl g
  · refine foldlM_induction (P := Rewired g) ?_ (modifyUses old fun _ => []) h
    intro u _ g₁ g₂ h₁ h₂
    obtain ⟨-, rfl⟩ := redirect_eq_ok.1 h₂
    exact h₁.trans ((modifyOp u.user u.index new).trans (modifyUses ..))

end Rewired

/-! ## Linked graphs -/

/-- Every link upwards has its counterpart in a list downwards, and no list names
anything twice. -/
structure Linked (g : Graph) : Prop where
  placed {o : OpId} {b : BlockId} :
    (∃ d, g.op o = .ok d ∧ d.block = some b) ↔ ∃ B, g.block b = .ok B ∧ o ∈ B.ops
  parted {b : BlockId} {r : RegionId} :
    (∃ B, g.block b = .ok B ∧ B.region = some r) ↔ ∃ R, g.region r = .ok R ∧ b ∈ R.blocks
  owned {r : RegionId} {o : OpId} :
    (∃ R, g.region r = .ok R ∧ R.owner = some o) ↔ ∃ d, g.slot o = .ok d ∧ r ∈ d.regions
  result {v : ValueId} {o : OpId} {i : Nat} :
    (∃ x, g.value v = .ok x ∧ x.origin = .result o i) ↔
      ∃ d, g.slot o = .ok d ∧ d.results[i]? = some v
  argument {v : ValueId} {b : BlockId} {i : Nat} :
    (∃ x, g.value v = .ok x ∧ x.origin = .argument b i) ↔
      ∃ B, g.block b = .ok B ∧ B.args[i]? = some v
  nodupOps {b : BlockId} {B : Block} : g.block b = .ok B → B.ops.Nodup
  nodupBlocks {r : RegionId} {R : Region} : g.region r = .ok R → R.blocks.Nodup
  formed {o : OpId} {d : Op} : g.slot o = .ok d →
    d.regions.Nodup ∧ d.results.length = d.resultTypes.length

/-- The links that say what stands where and who owns it are sound.  Nothing is said about
values. -/
structure Housed (g : Graph) : Prop where
  placed {o : OpId} {b : BlockId} :
    (∃ d, g.op o = .ok d ∧ d.block = some b) ↔ ∃ B, g.block b = .ok B ∧ o ∈ B.ops
  parted {b : BlockId} {r : RegionId} :
    (∃ B, g.block b = .ok B ∧ B.region = some r) ↔ ∃ R, g.region r = .ok R ∧ b ∈ R.blocks
  owned {r : RegionId} {o : OpId} :
    (∃ R, g.region r = .ok R ∧ R.owner = some o) ↔ ∃ d, g.slot o = .ok d ∧ r ∈ d.regions
  nodupOps {b : BlockId} {B : Block} : g.block b = .ok B → B.ops.Nodup
  nodupBlocks {r : RegionId} {R : Region} : g.region r = .ok R → R.blocks.Nodup
  nodupRegions {o : OpId} {d : Op} : g.slot o = .ok d → d.regions.Nodup

namespace Linked

theorem housed (hg : g.Linked) : g.Housed where
  placed := hg.placed
  parted := hg.parted
  owned := hg.owned
  nodupOps := hg.nodupOps
  nodupBlocks := hg.nodupBlocks
  nodupRegions hd := (hg.formed hd).1

theorem rewired (hg : g.Linked) (h : Rewired g g') : g'.Linked where
  placed {o b} := by
    rw [h.block]
    exact (h.exists_op fun d => d.block = some b).trans hg.placed
  parted {b r} := by
    rw [h.block, h.region]
    exact hg.parted
  owned {r o} := by
    rw [h.region]
    exact hg.owned.trans (h.exists_slot fun d => r ∈ d.regions).symm
  result {v o i} := by
    rw [h.value]
    exact hg.result.trans (h.exists_slot fun d => d.results[i]? = some v).symm
  argument {v b i} := by
    rw [h.value, h.block]
    exact hg.argument
  nodupOps {b B} hB := hg.nodupOps ((h.block b).symm.trans hB)
  nodupBlocks {r R} hR := hg.nodupBlocks ((h.region r).symm.trans hR)
  formed {o d} hd := by
    obtain ⟨d', hd', hu⟩ := h.symm.slot_ok hd
    have hformed : d'.unread.regions.Nodup ∧
        d'.unread.results.length = d'.unread.resultTypes.length := by
      have := hg.formed hd'
      exact this
    rw [hu] at hformed
    exact hformed

/-- A region that a new operation claims had no owner, so no other operation lists it. -/
theorem newOp_owned {d : Draft} {o p : OpId} {r : RegionId} (hg : g.Linked)
    (h : g.newOp d = .ok (o, g')) :
    (∃ R, g'.region r = .ok R ∧ R.owner = some p) ↔ ∃ x, g'.slot p = .ok x ∧ r ∈ x.regions := by
  rw [region_newOp h, slot_newOp h]
  by_cases hr : r ∈ d.regions
  · obtain ⟨R, hR, hnone⟩ := (newOp_regions h).2 r hr
    have hold : ¬∃ x, g.slot p = .ok x ∧ r ∈ x.regions := by
      rw [← hg.owned]
      rintro ⟨R', hR', howner⟩
      rw [hR] at hR'
      cases hR'
      rw [hnone] at howner
      cases howner
    rw [if_pos hr, hR]
    split
    · rename_i heq
      simp [Draft.made, hr, heq]
    · rename_i hne
      simp [hold, Ne.symm hne]
  · rw [if_neg hr, hg.owned]
    split
    · rename_i heq
      have hnone : ∀ x, g.slot p ≠ .ok x := heq ▸ not_slot_of_newOp h
      simp [Draft.made, hr, hnone]
    · rfl

theorem newOp {d : Draft} {o : OpId} (hg : g.Linked) (h : g.newOp d = .ok (o, g')) :
    g'.Linked where
  placed {p b} := by
    rw [op_newOp h, block_newOp h, ← hg.placed]
    split
    · rename_i heq
      have hnone : ∀ x, g.op p ≠ .ok x := fun x hx => not_slot_of_newOp h x (heq ▸ slot_of_op hx)
      simp [Draft.made, hnone]
    · rfl
  parted {b r} := by
    rw [block_newOp h, region_newOp h]
    refine hg.parted.trans (Iff.symm ?_)
    split
    · exact exists_map_iff fun _ => Iff.rfl
    · rfl
  owned := hg.newOp_owned h
  result {v p i} := by
    simp only [value_newOp h, slot_newOp h, exists_origin_iff, hg.result]
    split
    · rename_i heq
      simp [Draft.made, not_slot_of_newOp h, heq]
    · rename_i hne
      simp [Ne.symm hne]
  argument {v b i} := by
    simp only [value_newOp h, block_newOp h, exists_origin_iff, hg.argument]
    simp
  nodupOps {b B} hB := hg.nodupOps ((block_newOp h b).symm.trans hB)
  nodupBlocks {r R} hR := by
    rw [region_newOp h] at hR
    split at hR
    · obtain ⟨R', hR', rfl⟩ := map_eq_ok.1 hR
      have hnodup : R'.blocks.Nodup := hg.nodupBlocks hR'
      exact hnodup
    · exact hg.nodupBlocks hR
  formed {p x} hx := by
    rw [slot_newOp h] at hx
    split at hx
    · cases hx
      exact ⟨(newOp_regions h).1, length_nextValues _⟩
    · exact hg.formed hx

section Put

variable {o : OpId} {d : Op} {b : BlockId} {B : Block} {k : List OpId → List OpId}

theorem exists_slot_put {p : OpId} {P : Op → Prop} (hP : ∀ x : Op, P (x.inBlock b) ↔ P x) :
    (∃ x, (g.put o b k).slot p = .ok x ∧ P x) ↔ ∃ x, g.slot p = .ok x ∧ P x := by
  rw [slot_put]
  split
  · exact exists_map_iff hP
  · rfl

theorem exists_block_put {c : BlockId} {P : Block → Prop}
    (hP : ∀ C : Block, P { C with ops := k C.ops } ↔ P C) :
    (∃ C, (g.put o b k).block c = .ok C ∧ P C) ↔ ∃ C, g.block c = .ok C ∧ P C := by
  rw [block_put]
  split
  · exact exists_map_iff hP
  · rfl

/-- Putting an operation that is in no block into one. -/
theorem put (hg : g.Linked) (hd : g.op o = .ok d) (hdb : d.block = none) (hB : g.block b = .ok B)
    (hk : (k B.ops).Perm (o :: B.ops)) : (g.put o b k).Linked := by
  have hout : ∀ {c : BlockId} {C : Block}, g.block c = .ok C → o ∉ C.ops := by
    intro c C hC ho
    obtain ⟨x, hx, hc⟩ := hg.placed.2 ⟨C, hC, ho⟩
    rw [hd] at hx
    cases hx
    rw [hdb] at hc
    cases hc
  refine ⟨?placed, ?parted, ?owned, ?result, ?argument, ?nodupOps, ?nodupBlocks, ?formed⟩
  case placed =>
    intro p c
    have hlisted : (∃ C, (g.put o b k).block c = .ok C ∧ p ∈ C.ops) ↔
        (o = p ∧ b = c) ∨ ∃ C, g.block c = .ok C ∧ p ∈ C.ops := by
      rw [block_put]
      by_cases hc : b = c
      · rw [if_pos hc, ← hc, hB]
        simp [hk.mem_iff, eq_comm]
      · simp [hc]
    rw [hlisted, op_put]
    by_cases hp : o = p
    · subst hp
      have hnone : ¬∃ C, g.block c = .ok C ∧ o ∈ C.ops := fun ⟨C, hC, ho⟩ => hout hC ho
      rw [if_pos rfl, hd]
      simp [hnone, Op.inBlock]
    · simp [hp, hg.placed]
  case parted =>
    intro c r
    rw [exists_block_put fun _ => Iff.rfl]
    exact hg.parted
  case owned =>
    intro r p
    rw [exists_slot_put fun _ => Iff.rfl]
    exact hg.owned
  case result =>
    intro v p i
    rw [exists_slot_put fun _ => Iff.rfl]
    exact hg.result
  case argument =>
    intro v c i
    rw [exists_block_put fun _ => Iff.rfl]
    exact hg.argument
  case nodupOps =>
    intro c C hC
    rw [block_put] at hC
    split at hC
    · rename_i heq
      obtain ⟨C', hC', rfl⟩ := map_eq_ok.1 hC
      rw [← heq, hB] at hC'
      cases hC'
      exact hk.nodup_iff.2 (List.nodup_cons.2 ⟨hout hB, hg.nodupOps hB⟩)
    · exact hg.nodupOps hC
  case nodupBlocks =>
    intro r R hR
    exact hg.nodupBlocks hR
  case formed =>
    intro p x hx
    rw [slot_put] at hx
    split at hx
    · obtain ⟨x', hx', rfl⟩ := map_eq_ok.1 hx
      have hformed := hg.formed hx'
      exact hformed
    · exact hg.formed hx

end Put

theorem placeBefore {anchor o : OpId} (hg : g.Linked) (h : g.placeBefore anchor o = .ok g') :
    g'.Linked := by
  obtain ⟨d, a, b, B, i, hd, hdb, -, -, hB, hi, rfl⟩ := placeBefore_eq_ok.1 h
  have hlt : i < B.ops.length := (List.idxOf?_eq_some_iff.1 hi).1
  exact hg.put hd hdb hB (List.perm_insertIdx o B.ops (Nat.le_of_lt hlt))

theorem placeLast {b : BlockId} {o : OpId} (hg : g.Linked) (h : g.placeLast b o = .ok g') :
    g'.Linked := by
  obtain ⟨d, B, hd, hdb, hB, rfl⟩ := placeLast_eq_ok.1 h
  exact hg.put hd hdb hB (List.perm_append_singleton o B.ops)

theorem newBlock (hg : g.Linked) (args : List Ty) (l : Location) :
    (g.newBlock args l).2.Linked := by
  have hfresh : ∀ {b : BlockId} {B : Block}, b.index = g.blocks.size → g.block b ≠ .ok B :=
    fun hb hB => Nat.ne_of_lt (index_lt_of_block hB) hb
  refine ⟨?placed, ?parted, hg.owned, ?result, ?argument, ?nodupOps, hg.nodupBlocks, hg.formed⟩
  case placed =>
    intro o b
    rw [block_newBlock]
    refine hg.placed.trans ?_
    split
    · rename_i hb
      simp [hfresh hb]
    · rfl
  case parted =>
    intro b r
    rw [block_newBlock, region_newBlock, ← hg.parted]
    split
    · rename_i hb
      simp [hfresh hb]
    · rfl
  case result =>
    intro v o i
    simp only [value_newBlock, slot_newBlock, exists_origin_iff, hg.result]
    simp
  case argument =>
    intro v b i
    simp only [value_newBlock, block_newBlock, exists_origin_iff, hg.argument]
    split
    · rename_i hb
      simp [hfresh hb, ← hb]
    · rename_i hb
      have hne : ∀ j, Origin.argument ⟨g.blocks.size⟩ j ≠ .argument b i := by
        intro j heq
        cases heq
        exact hb rfl
      simp [hne]
  case nodupOps =>
    intro b B hB
    rw [block_newBlock] at hB
    split at hB
    · cases hB
      exact List.nodup_nil
    · exact hg.nodupOps hB

theorem newRegion {bs : List BlockId} {r : RegionId} (hg : g.Linked)
    (h : g.newRegion bs = .ok (r, g')) : g'.Linked := by
  have hfresh := not_region_of_newRegion h
  have hblock : ∀ {c : BlockId} {P : Block → Prop},
      (∀ C : Block, P { C with region := some r } ↔ P C) →
      ((∃ C, g'.block c = .ok C ∧ P C) ↔ ∃ C, g.block c = .ok C ∧ P C) := by
    intro c P hP
    rw [block_newRegion h]
    split
    · exact exists_map_iff hP
    · rfl
  refine ⟨?placed, ?parted, ?owned, ?result, ?argument, ?nodupOps, ?nodupBlocks, ?formed⟩
  case placed =>
    intro o b
    rw [hblock fun _ => Iff.rfl, op, slot_newRegion h]
    exact hg.placed
  case parted =>
    -- a block that the new region takes was in no region
    intro b q
    rw [block_newRegion h, region_newRegion h]
    have hparted := hg.parted (b := b) (r := q)
    by_cases hb : b ∈ bs
    · obtain ⟨B, hB, hnone⟩ := (newRegion_blocks h).2 b hb
      rw [if_pos hb, hB]
      split
      · rename_i hq
        simp [hb, hq]
      · rename_i hq
        rw [← hparted, hB]
        simp [hnone, Ne.symm hq]
    · rw [if_neg hb, hparted]
      split
      · rename_i hq
        rw [hq]
        simp [hb, hfresh]
      · rfl
  case owned =>
    intro q o
    rw [region_newRegion h, slot_newRegion h, ← hg.owned]
    split
    · rename_i hq
      rw [hq]
      simp [hfresh]
    · rfl
  case result =>
    intro v o i
    rw [value_newRegion h, slot_newRegion h]
    exact hg.result
  case argument =>
    intro v b i
    rw [value_newRegion h, hblock fun _ => Iff.rfl]
    exact hg.argument
  case nodupOps =>
    intro b B hB
    rw [block_newRegion h] at hB
    split at hB
    · obtain ⟨B', hB', rfl⟩ := map_eq_ok.1 hB
      have hops : B'.ops.Nodup := hg.nodupOps hB'
      exact hops
    · exact hg.nodupOps hB
  case nodupBlocks =>
    intro q R hR
    rw [region_newRegion h] at hR
    split at hR
    · cases hR
      exact (newRegion_blocks h).1
    · exact hg.nodupBlocks hR
  case formed =>
    intro o d hd
    rw [slot_newRegion h] at hd
    exact hg.formed hd

section Erase

variable {o : OpId} {d : Op} {os : List OpId} {bs : List BlockId}

/-- An operation that is left is in the block it was in.  What is nested in the erased one
is listed by one of the blocks inside, and by no other. -/
theorem dismantled_placed (hg : g.Linked) (hd : g.op o = .ok d)
    (h : g.Dismantled o d.block os bs g') {p : OpId} {c : BlockId} :
    (∃ x, g'.op p = .ok x ∧ x.block = some c) ↔ ∃ C, g'.block c = .ok C ∧ p ∈ C.ops := by
  have hplaced : g.Lists c p ↔ ∃ x, g.op p = .ok x ∧ x.block = some c := hg.placed.symm
  show _ ↔ g'.Lists c p
  rw [h.lists_iff, hplaced]
  simp only [h.op_iff]
  constructor
  · rintro ⟨x, ⟨hno, hx⟩, hc⟩
    refine ⟨?_, fun _ heq => hno (heq ▸ h.self_mem), x, hx, hc⟩
    intro hin
    exact hno (h.listed.2 (.inr ⟨c, hin, hplaced.2 ⟨x, hx, hc⟩⟩))
  · rintro ⟨hout, hne, x, hx, hc⟩
    refine ⟨x, ⟨?_, hx⟩, hc⟩
    intro hp
    rcases h.listed.1 hp with rfl | ⟨c', hc', hlists⟩
    · rw [hd] at hx
      cases hx
      exact hne hc rfl
    · obtain ⟨x', hx', hxc'⟩ := hg.placed.2 hlists
      rw [hx] at hx'
      cases hx'
      rw [hc] at hxc'
      cases hxc'
      exact hout hc'

theorem erase (hg : g.Linked) (h : g.erase o = .ok g') : g'.Linked := by
  obtain ⟨d, os, bs, hd, -, he⟩ := dismantled_of_erase h
  refine ⟨hg.dismantled_placed hd he, ?parted, ?owned, ?result, ?argument, ?nodupOps,
    ?nodupBlocks, ?formed⟩
  case parted =>
    intro c r
    rw [he.exists_block fun _ _ => Iff.rfl, he.region]
    exact hg.parted
  case owned =>
    intro r p
    rw [he.exists_slot fun _ => Iff.rfl, he.region]
    exact hg.owned
  case result =>
    intro v p i
    rw [he.exists_slot fun _ => Iff.rfl, he.value]
    exact hg.result
  case argument =>
    intro v c i
    rw [he.exists_block fun _ _ => Iff.rfl, he.value]
    exact hg.argument
  case nodupOps =>
    intro c C hC
    rw [he.block] at hC
    split at hC
    · obtain ⟨C', -, rfl⟩ := map_eq_ok.1 hC
      exact List.nodup_nil
    · split at hC
      · obtain ⟨C', hC', rfl⟩ := map_eq_ok.1 hC
        have hops : C'.ops.Nodup := hg.nodupOps hC'
        exact hops.filter _
      · exact hg.nodupOps hC
  case nodupBlocks =>
    intro r R hR
    rw [he.region] at hR
    exact hg.nodupBlocks hR
  case formed =>
    intro p x hx
    rw [he.slot] at hx
    split at hx
    · obtain ⟨x', hx', rfl⟩ := map_eq_ok.1 hx
      have hformed := hg.formed hx'
      exact hformed
    · exact hg.formed hx

end Erase

end Linked

/-- Without presets, the links of every graph one can come to agree. -/
theorem linked_invariant : Invariant false Linked where
  newOp := Linked.newOp
  placeBefore := Linked.placeBefore
  writeSlot hg _ h := hg.rewired (.writeSlot h)
  redirectUses hg h := hg.rewired (.redirectUses h)
  erase := Linked.erase
  empty := by
    have hop : ∀ o d, empty.slot o ≠ .ok d := fun o d h => by cases h
    have hblock : ∀ b B, empty.block b ≠ .ok B := fun b B h => by cases h
    have hregion : ∀ r R, empty.region r ≠ .ok R := fun r R h => by cases h
    have hvalue : ∀ v x, empty.value v ≠ .ok x := fun v x h => by cases h
    constructor <;> simp [op_eq_ok, hop, hblock, hregion, hvalue]
  paths _ hg := ⟨hg.placed, hg.parted, hg.owned, hg.result, hg.argument, hg.nodupOps,
    hg.nodupBlocks, hg.formed⟩
  newBlock args l ops region hg hpre := by
    rcases hpre with hpre | ⟨rfl, rfl⟩
    · cases hpre
    · exact hg.newBlock args l
  newRegion hg hpre h := by
    rcases hpre with hpre | rfl
    · cases hpre
    · exact hg.newRegion h
  placeLast := Linked.placeLast

theorem Reachable.linked (h : g.Reachable false) : g.Linked := h.holds linked_invariant

end Graph

end Peephole
