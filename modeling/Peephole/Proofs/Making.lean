import Peephole.Proofs.Entries

/-!
# What making parts does

For each way to make an operation, a block or a region there is a lemma for every table
it writes, and nothing else in the graph is different afterwards.  The lemmas assume
that the call succeeded, and what had to hold for that is part of what they say.

The use lists are described by counting: how often a slot stands in the list of a value
after the call.
-/

namespace Peephole

/-- The operation that a draft becomes, given the names of its results. -/
def Draft.made (d : Draft) (results : List ValueId) : Op :=
  { kind := d.kind, operands := d.operands, results, resultTypes := d.resultTypes,
    attributes := d.attributes, regions := d.regions, block := none, location := d.location,
    erased := false }

/-- The operation, put in a block. -/
def Op.inBlock (d : Op) (b : BlockId) : Op := { d with block := some b }

namespace Graph

variable {g g' : Graph}

/-! ## New values -/

/-- The names that the next `n` values will have. -/
def nextValues (g : Graph) (n : Nat) : List ValueId :=
  (List.range n).map fun i => ⟨g.values.size + i⟩

@[simp]
theorem length_nextValues (n : Nat) : (g.nextValues n).length = n := by simp [nextValues]

theorem getElem?_nextValues {n i : Nat} {v : ValueId} :
    (g.nextValues n)[i]? = some v ↔ i < n ∧ v.index = g.values.size + i := by
  simp only [nextValues, List.getElem?_map, Option.map_eq_some_iff]
  constructor
  · rintro ⟨j, hj, rfl⟩
    obtain ⟨hi, rfl⟩ := List.getElem?_eq_some_iff.1 hj
    simpa using hi
  · rintro ⟨hi, hv⟩
    refine ⟨i, by simp [hi], ?_⟩
    rw [← hv]

theorem index_of_mem_nextValues {n : Nat} {v : ValueId} (h : v ∈ g.nextValues n) :
    g.values.size ≤ v.index ∧ v.index < g.values.size + n := by
  obtain ⟨i, hi⟩ := List.mem_iff_getElem?.1 h
  obtain ⟨hlt, hv⟩ := getElem?_nextValues.1 hi
  omega

theorem makeValues_fst (origin : Nat → Origin) (types : List Ty) :
    (g.makeValues origin types).1 = g.nextValues types.length := rfl

/-- A value of the graph after new values were made is an old one or one of those. -/
theorem value_makeValues {origin : Nat → Origin} {types : List Ty} {v : ValueId} {x : Value} :
    (g.makeValues origin types).2.value v = .ok x ↔
      g.value v = .ok x ∨ ∃ i t, types[i]? = some t ∧ v.index = g.values.size + i ∧
        x = ⟨origin i, t⟩ := by
  simp only [value_eq_ok, makeValues, Array.getElem?_append, List.getElem?_toArray,
    List.getElem?_mapIdx]
  split
  · rename_i hlt
    constructor
    · exact .inl
    · rintro (h | ⟨i, t, -, hv, -⟩)
      · exact h
      · omega
  · rename_i hge
    constructor
    · intro h
      obtain ⟨t, ht, rfl⟩ := Option.map_eq_some_iff.1 h
      exact .inr ⟨_, t, ht, by omega, rfl⟩
    · rintro (h | ⟨i, t, ht, hv, rfl⟩)
      · exact absurd (Array.getElem?_eq_some_iff.1 h).1 hge
      · rw [hv, Nat.add_sub_cancel_left, ht]
        rfl

/-- Where values come from, after new ones were made. -/
theorem exists_origin_iff {make : Nat → Origin} {types : List Ty} {v : ValueId} {origin : Origin} :
    (∃ x, (g.value v = .ok x ∨ ∃ i t, types[i]? = some t ∧ v.index = g.values.size + i ∧
        x = ⟨make i, t⟩) ∧ x.origin = origin) ↔
      (∃ x, g.value v = .ok x ∧ x.origin = origin) ∨
        ∃ i, (g.nextValues types.length)[i]? = some v ∧ make i = origin := by
  constructor
  · rintro ⟨x, hx | ⟨i, t, ht, hv, rfl⟩, horigin⟩
    · exact .inl ⟨x, hx, horigin⟩
    · have hlt := (List.getElem?_eq_some_iff.1 ht).1
      exact .inr ⟨i, getElem?_nextValues.2 ⟨hlt, hv⟩, horigin⟩
  · rintro (⟨x, hx, horigin⟩ | ⟨i, hi, horigin⟩)
    · exact ⟨x, .inl hx, horigin⟩
    · obtain ⟨hlt, hv⟩ := getElem?_nextValues.1 hi
      exact ⟨⟨make i, types[i]⟩, .inr ⟨i, _, List.getElem?_eq_getElem hlt, hv, rfl⟩, horigin⟩

/-! ## Uses of a new operation -/

/-- The uses of a new operation's operands come on top of those there were. -/
theorem count_uses_addUses (op : OpId) (u : Use) (v : ValueId) :
    ∀ (i : Nat) (vs : List ValueId) (g : Graph), ((addUses op i vs g).uses v).count u =
      (g.uses v).count u +
        if u.user = op ∧ i ≤ u.index ∧ vs[u.index - i]? = some v then 1 else 0
  | i, [], g => by simp [addUses]
  | i, w :: rest, g => by
      obtain ⟨p, j⟩ := u
      have hfirst : (if w = v then g.uses v ++ [⟨op, i⟩] else g.uses v).count ⟨p, j⟩ =
          (g.uses v).count ⟨p, j⟩ + if p = op ∧ j = i ∧ w = v then 1 else 0 := by
        by_cases hw : w = v
        · simp [hw, List.count_singleton, @eq_comm _ op p, @eq_comm _ i j]
        · simp [hw]
      rw [addUses, count_uses_addUses op _ v (i + 1) rest, uses_modifyUses, hfirst]
      rcases Nat.lt_trichotomy j i with hlt | rfl | hlt
      · simp [Nat.ne_of_lt hlt, Nat.not_le.2 hlt, Nat.not_le.2 (Nat.lt_succ_of_lt hlt)]
      · simp [Nat.not_succ_le_self j]
      · have hsub : j - i = (j - (i + 1)) + 1 := by omega
        simp [hsub, Nat.ne_of_gt hlt, Nat.le_of_lt hlt, Nat.succ_le_of_lt hlt]

/-- Entering uses writes nothing but use lists. -/
theorem addUses_eq (op : OpId) :
    ∀ (i : Nat) (vs : List ValueId) (g : Graph),
      addUses op i vs g = { g with useLists := (addUses op i vs g).useLists }
  | _, [], g => rfl
  | i, w :: rest, g => by
      rw [addUses, addUses_eq op (i + 1) rest]
      rfl

/-! ## Claims of ownership -/

theorem claimRegion_eq_ok {op : OpId} {r : RegionId} :
    claimRegion op g r = .ok g' ↔ ∃ R, g.region r = .ok R ∧ R.owner = none ∧
      g' = g.modifyRegion r fun data => { data with owner := some op } := by
  rw [claimRegion, bind_eq_ok]
  constructor
  · rintro ⟨R, hR, h⟩
    split at h
    · cases h
    · rename_i howner
      cases h
      exact ⟨R, hR, howner, rfl⟩
  · rintro ⟨R, hR, howner, rfl⟩
    refine ⟨R, hR, ?_⟩
    rw [howner]
    rfl

/-- A new operation claims regions that are different and that nobody owned. -/
theorem claimRegions_eq_ok {op : OpId} :
    ∀ {rs : List RegionId} {g g' : Graph}, rs.foldlM (claimRegion op) g = .ok g' →
      rs.Nodup ∧ (∀ r ∈ rs, ∃ R, g.region r = .ok R ∧ R.owner = none) ∧
      (∀ q, g'.region q =
        if q ∈ rs then (g.region q).map fun R => { R with owner := some op } else g.region q) ∧
      g' = { g with regions := g'.regions }
  | [], g, g', h => by
      rw [List.foldlM_nil, pure_eq_ok, Except.ok.injEq] at h
      subst h
      simp
  | r :: rs, g, g', h => by
      rw [List.foldlM_cons, bind_eq_ok] at h
      obtain ⟨g₁, h₁, h⟩ := h
      obtain ⟨R, hR, howner, rfl⟩ := claimRegion_eq_ok.1 h₁
      obtain ⟨hnodup, hfree, hregion, heq⟩ := claimRegions_eq_ok h
      have hr : r ∉ rs := by
        intro hr
        obtain ⟨R', hR', hnone⟩ := hfree r hr
        rw [region_modifyRegion, if_pos rfl, hR] at hR'
        cases hR'
        cases hnone
      refine ⟨List.nodup_cons.2 ⟨hr, hnodup⟩, ?_, ?_, ?_⟩
      · intro q hq
        rcases List.mem_cons.1 hq with rfl | hq
        · exact ⟨R, hR, howner⟩
        · obtain ⟨R', hR', hnone⟩ := hfree q hq
          rw [region_modifyRegion, if_neg (by rintro rfl; exact hr hq)] at hR'
          exact ⟨R', hR', hnone⟩
      · intro q
        rw [hregion, region_modifyRegion]
        by_cases hq : r = q
        · subst hq
          simp [hr]
        · simp [hq, Ne.symm hq]
      · rw [heq]
        rfl

theorem claimBlock_eq_ok {r : RegionId} {b : BlockId} :
    claimBlock r g b = .ok g' ↔ ∃ B, g.block b = .ok B ∧ B.region = none ∧
      g' = g.modifyBlock b fun data => { data with region := some r } := by
  rw [claimBlock, bind_eq_ok]
  constructor
  · rintro ⟨B, hB, h⟩
    split at h
    · cases h
    · rename_i hregion
      cases h
      exact ⟨B, hB, hregion, rfl⟩
  · rintro ⟨B, hB, hregion, rfl⟩
    refine ⟨B, hB, ?_⟩
    rw [hregion]
    rfl

/-- A new region claims blocks that are different and that were in no region. -/
theorem claimBlocks_eq_ok {r : RegionId} :
    ∀ {bs : List BlockId} {g g' : Graph}, bs.foldlM (claimBlock r) g = .ok g' →
      bs.Nodup ∧ (∀ b ∈ bs, ∃ B, g.block b = .ok B ∧ B.region = none) ∧
      (∀ c, g'.block c =
        if c ∈ bs then (g.block c).map fun B => { B with region := some r } else g.block c) ∧
      g' = { g with blocks := g'.blocks }
  | [], g, g', h => by
      rw [List.foldlM_nil, pure_eq_ok, Except.ok.injEq] at h
      subst h
      simp
  | b :: bs, g, g', h => by
      rw [List.foldlM_cons, bind_eq_ok] at h
      obtain ⟨g₁, h₁, h⟩ := h
      obtain ⟨B, hB, hregion, rfl⟩ := claimBlock_eq_ok.1 h₁
      obtain ⟨hnodup, hfree, hblock, heq⟩ := claimBlocks_eq_ok h
      have hb : b ∉ bs := by
        intro hb
        obtain ⟨B', hB', hnone⟩ := hfree b hb
        rw [block_modifyBlock, if_pos rfl, hB] at hB'
        cases hB'
        cases hnone
      refine ⟨List.nodup_cons.2 ⟨hb, hnodup⟩, ?_, ?_, ?_⟩
      · intro c hc
        rcases List.mem_cons.1 hc with rfl | hc
        · exact ⟨B, hB, hregion⟩
        · obtain ⟨B', hB', hnone⟩ := hfree c hc
          rw [block_modifyBlock, if_neg (by rintro rfl; exact hb hc)] at hB'
          exact ⟨B', hB', hnone⟩
      · intro c
        rw [hblock, block_modifyBlock]
        by_cases hc : b = c
        · subst hc
          simp [hb]
        · simp [hc, Ne.symm hc]
      · rw [heq]
        rfl

/-! ## New operations -/

/-- How an operation is made: its regions are claimed, its uses entered, its results
made, and its entry added at the end. -/
theorem newOp_eq_ok {d : Draft} {o : OpId} (h : g.newOp d = .ok (o, g')) :
    d.block = none ∧ o = ⟨g.ops.size⟩ ∧ ∃ g₁, d.regions.foldlM (claimRegion o) g = .ok g₁ ∧
      g' = { (addUses o 0 d.operands g₁).makeValues (.result o) d.resultTypes |>.2 with
        ops := g.ops.push (d.made (g.nextValues d.resultTypes.length)) } := by
  rw [newOp] at h
  split at h
  · cases h
  · rename_i hb
    simp only [bind_eq_ok, pure_eq_ok] at h
    obtain ⟨g₁, h₁, h⟩ := h
    rw [Except.ok.injEq, Prod.mk.injEq] at h
    obtain ⟨rfl, rfl⟩ := h
    refine ⟨by simpa using hb, rfl, g₁, h₁, ?_⟩
    have heq := (claimRegions_eq_ok h₁).2.2.2
    rw [addUses_eq, makeValues_fst, heq]
    rfl

section NewOp

variable {d : Draft} {o : OpId} (h : g.newOp d = .ok (o, g'))
include h

theorem slot_newOp (p : OpId) : g'.slot p =
    if p = o then .ok (d.made (g.nextValues d.resultTypes.length)) else g.slot p := by
  obtain ⟨-, rfl, g₁, -, rfl⟩ := newOp_eq_ok h
  simp only [slot, Array.getElem?_push, ← OpId.index_inj]
  split
  · rfl
  · rfl

theorem value_newOp {v : ValueId} {x : Value} : g'.value v = .ok x ↔
    g.value v = .ok x ∨ ∃ i t, d.resultTypes[i]? = some t ∧ v.index = g.values.size + i ∧
      x = ⟨.result o i, t⟩ := by
  obtain ⟨-, -, g₁, h₁, rfl⟩ := newOp_eq_ok h
  have heq := (claimRegions_eq_ok h₁).2.2.2
  show ((addUses o 0 d.operands g₁).makeValues _ _).2.value v = .ok x ↔ _
  rw [value_makeValues, addUses_eq, heq]
  rfl

theorem block_newOp (b : BlockId) : g'.block b = g.block b := by
  obtain ⟨-, -, g₁, h₁, rfl⟩ := newOp_eq_ok h
  show (addUses o 0 d.operands g₁).block b = g.block b
  rw [addUses_eq, (claimRegions_eq_ok h₁).2.2.2]
  rfl

theorem region_newOp (r : RegionId) : g'.region r =
    if r ∈ d.regions then (g.region r).map fun R => { R with owner := some o }
    else g.region r := by
  obtain ⟨-, -, g₁, h₁, rfl⟩ := newOp_eq_ok h
  show (addUses o 0 d.operands g₁).region r = _
  rw [addUses_eq, ← (claimRegions_eq_ok h₁).2.2.1 r]
  rfl

theorem count_uses_newOp (v : ValueId) (u : Use) : (g'.uses v).count u =
    (g.uses v).count u + if u.user = o ∧ d.operands[u.index]? = some v then 1 else 0 := by
  obtain ⟨-, -, g₁, h₁, rfl⟩ := newOp_eq_ok h
  show ((addUses o 0 d.operands g₁).uses v).count u = _
  rw [count_uses_addUses, (claimRegions_eq_ok h₁).2.2.2]
  simp only [Nat.zero_le, true_and, Nat.sub_zero]
  rfl

theorem op_newOp (p : OpId) : g'.op p =
    if p = o then .ok (d.made (g.nextValues d.resultTypes.length)) else g.op p := by
  rw [op, slot_newOp h]
  split
  · rfl
  · rfl

theorem newOp_regions :
    d.regions.Nodup ∧ ∀ r ∈ d.regions, ∃ R, g.region r = .ok R ∧ R.owner = none := by
  obtain ⟨-, -, g₁, h₁, -⟩ := newOp_eq_ok h
  exact ⟨(claimRegions_eq_ok h₁).1, (claimRegions_eq_ok h₁).2.1⟩

theorem newOp_fresh : o.index = g.ops.size := by
  obtain ⟨-, rfl, -⟩ := newOp_eq_ok h
  rfl

theorem not_slot_of_newOp (x : Op) : g.slot o ≠ .ok x := by
  intro hs
  have := index_lt_of_slot hs
  rw [newOp_fresh h] at this
  exact Nat.lt_irrefl _ this

end NewOp

/-! ## New blocks and regions -/

section NewBlock

variable (g) (args : List Ty) (l : Location) (ops : List OpId) (region : Option RegionId)

theorem slot_newBlock (o : OpId) : (g.newBlock args l ops region).2.slot o = g.slot o := rfl

theorem region_newBlock (r : RegionId) :
    (g.newBlock args l ops region).2.region r = g.region r := rfl

theorem block_newBlock (b : BlockId) : (g.newBlock args l ops region).2.block b =
    if b.index = g.blocks.size then
      .ok { args := g.nextValues args.length, argTypes := args, ops, region, location := l }
    else g.block b := by
  simp only [block, newBlock, makeValues, Array.getElem?_push]
  split
  · rfl
  · rfl

theorem value_newBlock {v : ValueId} {x : Value} :
    (g.newBlock args l ops region).2.value v = .ok x ↔
      g.value v = .ok x ∨ ∃ i t, args[i]? = some t ∧ v.index = g.values.size + i ∧
        x = ⟨.argument ⟨g.blocks.size⟩ i, t⟩ :=
  value_makeValues

end NewBlock

/-- How a region is made: its blocks are claimed and its entry added at the end. -/
theorem newRegion_eq_ok {bs : List BlockId} {owner : Option OpId} {r : RegionId}
    (h : g.newRegion bs owner = .ok (r, g')) :
    r = ⟨g.regions.size⟩ ∧ ∃ g₁, bs.foldlM (claimBlock r) g = .ok g₁ ∧
      g' = { g₁ with regions := g.regions.push ⟨bs, owner⟩ } := by
  rw [newRegion] at h
  simp only [bind_eq_ok, pure_eq_ok] at h
  obtain ⟨g₁, h₁, h⟩ := h
  rw [Except.ok.injEq, Prod.mk.injEq] at h
  obtain ⟨rfl, rfl⟩ := h
  refine ⟨rfl, g₁, h₁, ?_⟩
  rw [(claimBlocks_eq_ok h₁).2.2.2]

section NewRegion

variable {bs : List BlockId} {owner : Option OpId} {r : RegionId}
  (h : g.newRegion bs owner = .ok (r, g'))
include h

theorem slot_newRegion (o : OpId) : g'.slot o = g.slot o := by
  obtain ⟨-, g₁, h₁, rfl⟩ := newRegion_eq_ok h
  rw [(claimBlocks_eq_ok h₁).2.2.2]
  rfl

theorem value_newRegion (v : ValueId) : g'.value v = g.value v := by
  obtain ⟨-, g₁, h₁, rfl⟩ := newRegion_eq_ok h
  rw [(claimBlocks_eq_ok h₁).2.2.2]
  rfl

theorem uses_newRegion (v : ValueId) : g'.uses v = g.uses v := by
  obtain ⟨-, g₁, h₁, rfl⟩ := newRegion_eq_ok h
  rw [(claimBlocks_eq_ok h₁).2.2.2]
  rfl

theorem block_newRegion (b : BlockId) : g'.block b =
    if b ∈ bs then (g.block b).map fun B => { B with region := some r } else g.block b := by
  obtain ⟨-, g₁, h₁, rfl⟩ := newRegion_eq_ok h
  exact (claimBlocks_eq_ok h₁).2.2.1 b

theorem region_newRegion (q : RegionId) :
    g'.region q = if q = r then .ok ⟨bs, owner⟩ else g.region q := by
  obtain ⟨rfl, g₁, h₁, rfl⟩ := newRegion_eq_ok h
  simp only [region, Array.getElem?_push, ← RegionId.index_inj]
  split
  · rfl
  · rfl

theorem not_region_of_newRegion (R : Region) : g.region r ≠ .ok R := by
  obtain ⟨rfl, -⟩ := newRegion_eq_ok h
  intro hR
  exact Nat.lt_irrefl _ (index_lt_of_region hR)

theorem newRegion_blocks :
    bs.Nodup ∧ ∀ b ∈ bs, ∃ B, g.block b = .ok B ∧ B.region = none := by
  obtain ⟨-, g₁, h₁, -⟩ := newRegion_eq_ok h
  exact ⟨(claimBlocks_eq_ok h₁).1, (claimBlocks_eq_ok h₁).2.1⟩

end NewRegion

/-! ## Placing operations -/

/-- The graph with an operation put in a block, where `k` says how its list changes. -/
def put (g : Graph) (o : OpId) (b : BlockId) (k : List OpId → List OpId) : Graph :=
  (g.modifyBlock b fun data => { data with ops := k data.ops }).modifyOp o fun data =>
    { data with block := some b }

section Put

variable (g) (o : OpId) (b : BlockId) (k : List OpId → List OpId)

theorem slot_put (p : OpId) : (g.put o b k).slot p =
    if o = p then (g.slot p).map fun d => d.inBlock b else g.slot p := by
  simp [put, Op.inBlock]

theorem op_put (p : OpId) : (g.put o b k).op p =
    if o = p then (g.op p).map fun d => d.inBlock b else g.op p := by
  simp only [op, slot_put]
  split
  · cases g.slot p with
    | error e => rfl
    | ok d =>
      cases he : d.erased with
      | true => simp [Op.inBlock, he]
      | false => simp [Op.inBlock, he]
  · rfl

theorem block_put (c : BlockId) : (g.put o b k).block c =
    if b = c then (g.block c).map fun B => { B with ops := k B.ops } else g.block c := by
  simp [put]

theorem region_put (r : RegionId) : (g.put o b k).region r = g.region r := rfl

theorem value_put (v : ValueId) : (g.put o b k).value v = g.value v := rfl

theorem uses_put (v : ValueId) : (g.put o b k).uses v = g.uses v := rfl

end Put

/-- An operation in no block is put at the end of one. -/
theorem placeLast_eq_ok {b : BlockId} {o : OpId} : g.placeLast b o = .ok g' ↔
    ∃ d B, g.op o = .ok d ∧ d.block = none ∧ g.block b = .ok B ∧
      g' = g.put o b fun ops => ops ++ [o] := by
  rw [placeLast, bind_eq_ok]
  constructor
  · rintro ⟨d, hd, h⟩
    cases hb : d.block with
    | some old =>
      rw [hb] at h
      cases h
    | none =>
      rw [hb] at h
      obtain ⟨B, hB, h⟩ := bind_eq_ok.1 h
      cases h
      exact ⟨d, B, hd, hb, hB, rfl⟩
  · rintro ⟨d, B, hd, hb, hB, rfl⟩
    refine ⟨d, hd, ?_⟩
    rw [hb]
    exact bind_eq_ok.2 ⟨B, hB, rfl⟩

/-- An operation in no block is put right before another one. -/
theorem placeBefore_eq_ok {anchor o : OpId} : g.placeBefore anchor o = .ok g' ↔
    ∃ d a b B i, g.op o = .ok d ∧ d.block = none ∧ g.op anchor = .ok a ∧ a.block = some b ∧
      g.block b = .ok B ∧ B.ops.idxOf? anchor = some i ∧
      g' = g.put o b fun ops => ops.insertIdx i o := by
  rw [placeBefore, bind_eq_ok]
  constructor
  · rintro ⟨d, hd, h⟩
    cases hb : d.block with
    | some old =>
      rw [hb] at h
      cases h
    | none =>
      rw [hb] at h
      obtain ⟨a, ha, h⟩ := bind_eq_ok.1 h
      split at h
      · cases h
      · rename_i b hab
        obtain ⟨B, hB, h⟩ := bind_eq_ok.1 h
        split at h
        · cases h
        · rename_i i hi
          cases h
          exact ⟨d, a, b, B, i, hd, hb, ha, hab, hB, hi, rfl⟩
  · rintro ⟨d, a, b, B, i, hd, hb, ha, hab, hB, hi, rfl⟩
    refine ⟨d, hd, ?_⟩
    rw [hb]
    simp [ha, hab, hB, hi, put]

end Graph

end Peephole
