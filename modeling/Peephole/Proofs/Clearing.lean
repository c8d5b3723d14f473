import Peephole.Proofs.Editing
import Peephole.Proofs.Walks

/-!
# What an erasure clears

An erasure goes down from an operation.  It takes the operations out of a block, the last one
first, and erases each of them with what is nested in it before it goes on to the next.  So
what it meets on its way is a graph in which parts have been cleared already.

`Graph.Cleared` says what has been done to a graph of which a part has been cleared, and
`Graph.Under` says what is to be cleared with some operations and some blocks.  Two such parts
are put together by `Clears.append`, and this is all that the loops of an erasure need: what an
erasure takes is what is below the operation in the graph it started with
(`dismantled_of_erase`).  None of this needs the graph to be linked.

A walk lists the same operations (`below_iff_of_nestedOps`), though it goes through them in
another order and in a graph that does not change.
-/

namespace Peephole.Graph

variable {g g' g₁ g₂ : Graph} {o p q : OpId} {b : BlockId} {B : Block} {d : Op}
  {os os' : List OpId} {bs bs' : List BlockId} {roots roots' : OpId → Prop}
  {tops tops' : BlockId → Prop}

theorem block_detach (g : Graph) (o : OpId) (d : Op) (hd : (g.detach o).slot o = .ok d) :
    d.block = none := by
  rw [slot_detach, if_pos rfl] at hd
  obtain ⟨x, -, rfl⟩ := map_eq_ok.1 hd
  rfl

/-! ## What is under operations and blocks -/

/-- The block is in a region of the operation, which may have been erased. -/
def HasBlock (g : Graph) (o : OpId) (b : BlockId) : Prop :=
  ∃ d r R, g.slot o = .ok d ∧ r ∈ d.regions ∧ g.region r = .ok R ∧ b ∈ R.blocks

theorem hasBlock_congr (hslot : ∀ r, (∃ d, g'.slot q = .ok d ∧ r ∈ d.regions) ↔
    ∃ d, g.slot q = .ok d ∧ r ∈ d.regions) (hregion : ∀ r, g'.region r = g.region r) :
    g'.HasBlock q b ↔ g.HasBlock q b := by
  constructor
  · rintro ⟨d, r, R, hd, hr, hR, hb⟩
    obtain ⟨d', hd', hr'⟩ := (hslot r).1 ⟨d, hd, hr⟩
    exact ⟨d', r, R, hd', hr', (hregion r).symm.trans hR, hb⟩
  · rintro ⟨d, r, R, hd, hr, hR, hb⟩
    obtain ⟨d', hd', hr'⟩ := (hslot r).2 ⟨d, hd, hr⟩
    exact ⟨d', r, R, hd', hr', (hregion r).trans hR, hb⟩

theorem hasBlock_detach : (g.detach o).HasBlock q b ↔ g.HasBlock q b := by
  refine hasBlock_congr (fun r => ?_) fun _ => rfl
  rw [slot_detach]
  split
  · exact exists_map_iff fun _ => Iff.rfl
  · rfl

/-- The block lists the operation. -/
def Lists (g : Graph) (b : BlockId) (p : OpId) : Prop := ∃ B, g.block b = .ok B ∧ p ∈ B.ops

/-- The operation is one of the roots, is listed by one of the blocks at the top, or is nested
in one of these. -/
inductive Under (g : Graph) (roots : OpId → Prop) (tops : BlockId → Prop) : OpId → Prop
  | root {p : OpId} : roots p → Under g roots tops p
  | top {b : BlockId} {p : OpId} : tops b → g.Lists b p → Under g roots tops p
  | nested {q p : OpId} {b : BlockId} : Under g roots tops q → g.HasBlock q b → g.Lists b p →
      Under g roots tops p

/-- What is under some roots and tops is under others that take in both, also in a graph that
has more in its blocks. -/
theorem Under.mono (h : g.Under roots tops p) (hroots : ∀ p, roots p → roots' p)
    (htops : ∀ b, tops b → tops' b) (hblocks : ∀ q b, g.HasBlock q b → g'.HasBlock q b)
    (hlists : ∀ b p, g.Lists b p → g'.Lists b p) : g'.Under roots' tops' p := by
  induction h with
  | root hp => exact .root (hroots _ hp)
  | top hb hp => exact .top (htops _ hb) (hlists _ _ hp)
  | nested _ hb hp ih => exact .nested ih (hblocks _ _ hb) (hlists _ _ hp)

/-- If some operations are those under roots and tops, then beside the roots they are just what
is listed by the blocks that are at the top or that they have. -/
theorem mem_iff_listed (hmem : ∀ p, p ∈ os ↔ g.Under roots tops p)
    (hinner : ∀ b, b ∈ bs ↔ tops b ∨ ∃ q ∈ os, g.HasBlock q b) :
    p ∈ os ↔ roots p ∨ ∃ b ∈ bs, g.Lists b p := by
  constructor
  · intro hp
    cases (hmem p).1 hp with
    | root hp => exact .inl hp
    | top hb hp => exact .inr ⟨_, (hinner _).2 (.inl hb), hp⟩
    | nested hq hb hp => exact .inr ⟨_, (hinner _).2 (.inr ⟨_, (hmem _).2 hq, hb⟩), hp⟩
  · rintro (hp | ⟨b, hb, hp⟩)
    · exact (hmem p).2 (.root hp)
    · rcases (hinner b).1 hb with hb | ⟨q, hq, hb⟩
      · exact (hmem p).2 (.top hb hp)
      · exact (hmem p).2 (.nested ((hmem q).1 hq) hb hp)

/-! ## Cleared parts -/

/-- A change that may be made twice without harm. -/
theorem map_twice {α β : Type} [DecidableEq α] {a : α} {l l' : List α} {x : Except Fault β}
    {f : β → β} (hf : ∀ c, f (f c) = f c) :
    (if a ∈ l' then (if a ∈ l then x.map f else x).map f else if a ∈ l then x.map f else x) =
      if a ∈ l ++ l' then x.map f else x := by
  cases x with
  | error e => simp
  | ok c =>
    by_cases hl : a ∈ l
    · by_cases hl' : a ∈ l'
      · simp [hl, hl', hf]
      · simp [hl, hl']
    · simp [hl]

/-- `g'` is `g` with some operations erased and in no block, and some blocks empty. -/
structure Cleared (g : Graph) (os : List OpId) (bs : List BlockId) (g' : Graph) : Prop where
  slot (p : OpId) : g'.slot p =
    if p ∈ os then (g.slot p).map fun d => { d with block := none, erased := true } else g.slot p
  block (b : BlockId) : g'.block b =
    if b ∈ bs then (g.block b).map fun B => { B with ops := [] } else g.block b
  uses (v : ValueId) : g'.uses v =
    (g.uses v).filter fun u => ¬(u.user ∈ os ∧ g.written? u = some v)
  rest : g' = { g with ops := g'.ops, blocks := g'.blocks, useLists := g'.useLists }

namespace Cleared

theorem refl (g : Graph) : g.Cleared [] [] g := by
  refine ⟨fun p => by simp, fun b => by simp, fun v => ?_, rfl⟩
  symm
  rw [List.filter_eq_self]
  simp

theorem region (h : g.Cleared os bs g') (r : RegionId) : g'.region r = g.region r := by
  rw [h.rest]
  rfl

theorem written? (h : g.Cleared os bs g') (u : Use) : g'.written? u = g.written? u := by
  refine written?_congr ?_
  rw [h.slot]
  split
  · cases g.slot u.user with
    | ok d => rfl
    | error f => rfl
  · rfl

theorem hasBlock_iff (h : g.Cleared os bs g') : g'.HasBlock q b ↔ g.HasBlock q b := by
  refine hasBlock_congr (fun r => ?_) h.region
  rw [h.slot]
  split
  · exact exists_map_iff fun _ => Iff.rfl
  · rfl

theorem lists_iff (h : g.Cleared os bs g') : g'.Lists b p ↔ b ∉ bs ∧ g.Lists b p := by
  simp only [Lists, h.block]
  split
  · rename_i hb
    refine ⟨?_, fun hout => absurd hb hout.1⟩
    rintro ⟨B, hB, hp⟩
    obtain ⟨B', -, rfl⟩ := map_eq_ok.1 hB
    cases hp
  · rename_i hb
    exact (and_iff_right hb).symm

theorem trans (h : g.Cleared os bs g₁) (h' : g₁.Cleared os' bs' g₂) :
    g.Cleared (os ++ os') (bs ++ bs') g₂ := by
  refine ⟨fun p => ?_, fun b => ?_, fun v => ?_, ?_⟩
  · rw [h'.slot, h.slot]
    exact map_twice fun _ => rfl
  · rw [h'.block, h.block]
    exact map_twice fun _ => rfl
  · rw [h'.uses, h.uses, List.filter_filter]
    apply List.filter_congr
    intro u _
    rw [h.written?]
    grind
  · rw [h'.rest, h.rest]

/-- A block is emptied. -/
theorem emptyBlock (g : Graph) (b : BlockId) :
    g.Cleared [] [b] (g.modifyBlock b fun B => { B with ops := [] }) where
  slot p := by
    rw [if_neg List.not_mem_nil]
    rfl
  block c := by
    rw [block_modifyBlock]
    simp only [List.mem_singleton, eq_comm]
  uses v := by
    symm
    rw [List.filter_eq_self.2 (by simp)]
    rfl
  rest := rfl

/-- An operation that is in no block is marked after a part of the graph has been cleared. -/
theorem bury (h : g.Cleared os bs g') (hd : g.slot o = .ok d) (hblock : d.block = none) :
    g.Cleared (o :: os) bs (g'.bury o) where
  slot p := by
    rw [slot_bury, h.slot]
    by_cases hp : o = p
    · subst hp
      rw [hd]
      by_cases ho : o ∈ os
      · simp [ho]
      · simp [ho, ← hblock]
    · simp [hp, Ne.symm hp]
  block b := by
    rw [bury_eq]
    exact h.block b
  uses v := by
    rw [uses_bury, h.uses, List.filter_filter]
    apply List.filter_congr
    intro u _
    rw [h.written?]
    grind
  rest := by rw [bury_eq, h.rest]

/-- Whether an operation that is cleared was in a block does not matter. -/
theorem of_detach (h : (g.detach o).Cleared os bs g') (ho : o ∈ os) : g.Cleared os bs g' where
  slot p := by
    rw [h.slot, slot_detach]
    by_cases hp : o = p
    · subst hp
      rw [if_pos ho, if_pos rfl, if_pos ho]
      cases g.slot o with
      | ok d => rfl
      | error f => rfl
    · rw [if_neg hp]
  block := h.block
  uses v := by
    rw [h.uses]
    apply List.filter_congr
    intro u _
    have hwritten : (g.detach o).written? u = g.written? u := by
      refine written?_congr ?_
      rw [slot_detach]
      split
      · cases g.slot u.user with
        | ok d => rfl
        | error f => rfl
      · rfl
    rw [hwritten]
  rest := h.rest

end Cleared

/-- `g'` is `g` after all that is under some operations and blocks was cleared. -/
structure Clears (g : Graph) (roots : OpId → Prop) (tops : BlockId → Prop) (os : List OpId)
    (bs : List BlockId) (g' : Graph) : Prop extends g.Cleared os bs g' where
  mem (p : OpId) : p ∈ os ↔ g.Under roots tops p
  inner (b : BlockId) : b ∈ bs ↔ tops b ∨ ∃ q ∈ os, g.HasBlock q b

namespace Clears

theorem refl (g : Graph) : g.Clears (fun _ => False) (fun _ => False) [] [] g := by
  refine ⟨.refl g, fun p => ⟨nofun, fun h => ?_⟩, fun b => by simp⟩
  induction h with
  | root hp => exact hp.elim
  | top hb => exact hb.elim
  | nested _ _ _ ih => cases ih

theorem congr (h : g.Clears roots tops os bs g') (hroots : ∀ p, roots p ↔ roots' p)
    (htops : ∀ b, tops b ↔ tops' b) : g.Clears roots' tops' os bs g' := by
  obtain rfl : roots = roots' := funext fun p => propext (hroots p)
  obtain rfl : tops = tops' := funext fun b => propext (htops b)
  exact h

/-- One part is cleared after the other.  What the second part no longer finds in a block was
taken with the first. -/
theorem append (h : g.Clears roots tops os bs g₁) (h' : g₁.Clears roots' tops' os' bs' g₂) :
    g.Clears (fun p => roots p ∨ roots' p) (fun b => tops b ∨ tops' b) (os ++ os') (bs ++ bs')
      g₂ := by
  have hlists : ∀ {b p}, g.Lists b p → p ∈ os ∨ g₁.Lists b p := by
    intro b p hp
    by_cases hb : b ∈ bs
    · exact .inl ((mem_iff_listed h.mem h.inner).2 (.inr ⟨b, hb, hp⟩))
    · exact .inr (h.lists_iff.2 ⟨hb, hp⟩)
  refine ⟨h.toCleared.trans h'.toCleared, fun p => ?_, fun b => ?_⟩
  · rw [List.mem_append]
    constructor
    · rintro (hp | hp)
      · exact ((h.mem p).1 hp).mono (fun _ => .inl) (fun _ => .inl) (fun _ _ => id) fun _ _ => id
      · exact ((h'.mem p).1 hp).mono (fun _ => .inr) (fun _ => .inr)
          (fun _ _ => h.hasBlock_iff.1) fun _ _ hp => (h.lists_iff.1 hp).2
    · intro hp
      induction hp with
      | root hp =>
        rcases hp with hp | hp
        · exact .inl ((h.mem _).2 (.root hp))
        · exact .inr ((h'.mem _).2 (.root hp))
      | top hb hp =>
        rcases hb with hb | hb
        · exact .inl ((h.mem _).2 (.top hb hp))
        · exact (hlists hp).imp_right fun hp => (h'.mem _).2 (.top hb hp)
      | nested _ hb hp ih =>
        rcases ih with hq | hq
        · exact .inl ((h.mem _).2 (.nested ((h.mem _).1 hq) hb hp))
        · exact (hlists hp).imp_right fun hp =>
            (h'.mem _).2 (.nested ((h'.mem _).1 hq) (h.hasBlock_iff.2 hb) hp)
  · simp only [List.mem_append, h.inner, h'.inner, h.hasBlock_iff]
    grind

/-- A loop that clears one part after the other. -/
theorem foldlM {α : Type} {step : Graph → α → Except Fault Graph} {R : α → OpId → Prop}
    {T : Graph → α → BlockId → Prop}
    (hT : ∀ g os bs g' a b, g.Cleared os bs g' → (T g' a b ↔ T g a b))
    (hstep : ∀ g a g', step g a = .ok g' → ∃ os bs, g.Clears (R a) (T g a) os bs g') :
    ∀ {l : List α} {g g' : Graph}, l.foldlM step g = .ok g' → ∃ os bs,
      g.Clears (fun p => ∃ a ∈ l, R a p) (fun b => ∃ a ∈ l, T g a b) os bs g'
  | [], g, g', h => by
      cases h
      exact ⟨[], [], (refl g).congr (by simp) (by simp)⟩
  | a :: l, g, g', h => by
      rw [List.foldlM_cons, bind_eq_ok] at h
      obtain ⟨g₁, h₁, h⟩ := h
      obtain ⟨os, bs, hfirst⟩ := hstep g a g₁ h₁
      obtain ⟨os', bs', hrest⟩ := foldlM hT hstep h
      have htops := fun a b => hT g os bs g₁ a b hfirst.toCleared
      exact ⟨_, _, (hfirst.append hrest).congr (by simp) (by simp [htops])⟩

/-- What a block lists is cleared after the block was emptied. -/
theorem ofBlock (hB : g.block b = .ok B)
    (h : (g.modifyBlock b fun B => { B with ops := [] }).Clears (fun p => p ∈ B.ops)
      (fun _ => False) os bs g') :
    g.Clears (fun _ => False) (fun c => c = b) os (b :: bs) g' := by
  have hempty := Cleared.emptyBlock g b
  have hlists : ∀ {c p}, g.Lists c p → p ∈ B.ops ∨
      (g.modifyBlock b fun B => { B with ops := [] }).Lists c p := by
    rintro c p hp
    by_cases hc : c = b
    · subst hc
      obtain ⟨C, hC, hp⟩ := hp
      rw [hB] at hC
      cases hC
      exact .inl hp
    · exact .inr (hempty.lists_iff.2 ⟨by simpa using hc, hp⟩)
  refine ⟨hempty.trans h.toCleared, fun p => ?_, fun c => ?_⟩
  · rw [h.mem]
    constructor
    · intro hp
      induction hp with
      | root hp => exact .top rfl ⟨B, hB, hp⟩
      | top hb => exact hb.elim
      | nested _ hc hp ih => exact .nested ih (hempty.hasBlock_iff.1 hc) (hempty.lists_iff.1 hp).2
    · intro hp
      induction hp with
      | root hp => exact hp.elim
      | top hc hp =>
        subst hc
        obtain ⟨C, hC, hp⟩ := hp
        rw [hB] at hC
        cases hC
        exact .root hp
      | nested _ hc hp ih =>
        rcases hlists hp with hp | hp
        · exact .root hp
        · exact .nested ih (hempty.hasBlock_iff.2 hc) hp
  · simp only [List.mem_cons, h.inner, hempty.hasBlock_iff, false_or]

/-- An operation in no block is erased after what is in its blocks. -/
theorem ofRoot (hd : g.slot o = .ok d) (hblock : d.block = none)
    (h : g.Clears (fun _ => False) (g.HasBlock o) os bs g') :
    g.Clears (fun p => p = o) (fun _ => False) (o :: os) bs (g'.bury o) := by
  refine ⟨h.toCleared.bury hd hblock, fun p => ?_, fun b => ?_⟩
  · rw [List.mem_cons, h.mem]
    constructor
    · rintro (rfl | hp)
      · exact .root rfl
      · induction hp with
        | root hp => exact hp.elim
        | top hb hp => exact .nested (.root rfl) hb hp
        | nested _ hb hp ih => exact .nested ih hb hp
    · intro hp
      induction hp with
      | root hp => exact .inl hp
      | top hb => exact hb.elim
      | nested _ hb hp ih =>
        rcases ih with rfl | hq
        · exact .inr (.top hb hp)
        · exact .inr (.nested hq hb hp)
  · simp [h.inner]

theorem of_detach (h : (g.detach o).Clears (fun p => p = o) (fun _ => False) os bs g') :
    g.Clears (fun p => p = o) (fun _ => False) os bs g' := by
  have hblock : ∀ {q b}, (g.detach o).HasBlock q b ↔ g.HasBlock q b := hasBlock_detach
  refine ⟨h.toCleared.of_detach ((h.mem o).2 (.root rfl)), fun p => ?_, fun b => ?_⟩
  · rw [h.mem]
    exact ⟨fun hp => hp.mono (fun _ => id) (fun _ => id) (fun _ _ => hblock.1) fun _ _ => id,
      fun hp => hp.mono (fun _ => id) (fun _ => id) (fun _ _ => hblock.2) fun _ _ => id⟩
  · simp only [h.inner, hblock]

end Clears

/-! ## The recursion -/

/-- Operations that have been taken out of their block are erased with just what is under
them. -/
def ClearsUnder (erase : Graph → OpId → Except Fault Graph) : Prop :=
  ∀ (g : Graph) (p : OpId) (g' : Graph), erase (g.detach p) p = .ok g' →
    ∃ os bs, g.Clears (fun q => q = p) (fun _ => False) os bs g'

section Recursion

variable {erase : Graph → OpId → Except Fault Graph}

theorem ClearsUnder.of_detached (h : ∀ {g g' : Graph} {o : OpId}, erase g o = .ok g' →
      (∀ d, g.slot o = .ok d → d.block = none) →
        ∃ os bs, g.Clears (fun p => p = o) (fun _ => False) os bs g') : ClearsUnder erase := by
  intro g p g' hp
  obtain ⟨os, bs, hclears⟩ := h hp (block_detach g p)
  exact ⟨os, bs, hclears.of_detach⟩

theorem clears_of_eraseBlockBy (herase : ClearsUnder erase) (h : eraseBlockBy erase g b = .ok g') :
    ∃ os bs, g.Clears (fun _ => False) (fun c => c = b) os bs g' := by
  obtain ⟨B, hB, h⟩ := bind_eq_ok.1 h
  obtain ⟨os, bs, hops⟩ := Clears.foldlM (R := fun p q => q = p) (T := fun _ _ _ => False)
    (fun _ _ _ _ _ _ _ => Iff.rfl) herase h
  exact ⟨os, b :: bs, .ofBlock hB (hops.congr (by simp) (by simp))⟩

theorem clears_of_eraseRegionBy (herase : ClearsUnder erase) {r : RegionId}
    (h : eraseRegionBy erase g r = .ok g') : ∃ os bs,
      g.Clears (fun _ => False) (fun b => ∃ R, g.region r = .ok R ∧ b ∈ R.blocks) os bs g' := by
  obtain ⟨R, hR, h⟩ := bind_eq_ok.1 h
  obtain ⟨os, bs, hblocks⟩ := Clears.foldlM (R := fun _ _ => False) (T := fun _ b c => c = b)
    (fun _ _ _ _ _ _ _ => Iff.rfl) (fun _ _ _ => clears_of_eraseBlockBy herase) h
  exact ⟨os, bs, hblocks.congr (by simp) (by simp [hR])⟩

end Recursion

/-- An operation in no block is erased with just what is under it. -/
theorem clears_of_eraseDetachedTo : ∀ {depth : Nat} {g g' : Graph} {o : OpId},
    eraseDetachedTo depth g o = .ok g' → (∀ d, g.slot o = .ok d → d.block = none) →
      ∃ os bs, g.Clears (fun p => p = o) (fun _ => False) os bs g'
  | 0, g, g', o, h, _ => by
      cases h
  | depth + 1, g, g', o, h, hblock => by
      obtain ⟨d, hd, h⟩ := bind_eq_ok.1 h
      obtain ⟨g₁, h₁, h⟩ := bind_eq_ok.1 h
      cases h
      have herase : ClearsUnder (eraseDetachedTo depth) := .of_detached clears_of_eraseDetachedTo
      have htops : ∀ (g : Graph) os bs g' r b, g.Cleared os bs g' →
          ((∃ R, g'.region r = .ok R ∧ b ∈ R.blocks) ↔ ∃ R, g.region r = .ok R ∧ b ∈ R.blocks) := by
        intro g os bs g' r b hcleared
        rw [hcleared.region]
      obtain ⟨os, bs, hregions⟩ := Clears.foldlM (R := fun _ _ => False)
        (T := fun g r b => ∃ R, g.region r = .ok R ∧ b ∈ R.blocks) htops
        (fun _ _ _ => clears_of_eraseRegionBy herase) h₁
      refine ⟨o :: os, bs, .ofRoot hd (hblock d hd) (hregions.congr (by simp) fun b => ?_)⟩
      simp [HasBlock, hd]

theorem clearsUnder_eraseDetachedTo (depth : Nat) : ClearsUnder (eraseDetachedTo depth) :=
  .of_detached clears_of_eraseDetachedTo

/-! ## Whole erasures -/

section Unlist

variable {home : Option BlockId}

theorem block_unlist (o : OpId) (home : Option BlockId) (c : BlockId) : (g.unlist o home).block c =
    if home = some c then (g.block c).map fun B => { B with ops := B.ops.filter (· ≠ o) }
    else g.block c := by
  cases home with
  | none => simp [unlist]
  | some b =>
    rw [unlist, block_modifyBlock]
    simp [detach]

theorem exists_slot_unlist {P : Op → Prop} (hP : ∀ d : Op, P { d with block := none } ↔ P d) :
    (∃ d, (g.unlist o home).slot p = .ok d ∧ P d) ↔ ∃ d, g.slot p = .ok d ∧ P d := by
  cases home with
  | none => rfl
  | some b =>
    show (∃ d, (g.detach o).slot p = .ok d ∧ P d) ↔ _
    rw [slot_detach]
    split
    · exact exists_map_iff hP
    · rfl

theorem map_slot_unlist {α : Type} {f : Op → α} (hf : ∀ d : Op, f { d with block := none } = f d) :
    ((g.unlist o home).slot p).map f = (g.slot p).map f := by
  cases home with
  | none => rfl
  | some b =>
    show ((g.detach o).slot p).map f = _
    rw [slot_detach]
    split
    · cases g.slot p with
      | ok d => exact congrArg Except.ok (hf d)
      | error e => rfl
    · rfl

theorem slot_unlist_of_ne (hp : p ≠ o) : (g.unlist o home).slot p = g.slot p := by
  cases home with
  | none => rfl
  | some b => exact (slot_detach o p).trans (if_neg (Ne.symm hp))

theorem hasBlock_unlist : (g.unlist o home).HasBlock q b ↔ g.HasBlock q b := by
  refine hasBlock_congr (fun r => exists_slot_unlist fun _ => Iff.rfl) fun r => ?_
  cases home with
  | none => rfl
  | some b => rfl

theorem lists_unlist :
    (g.unlist o home).Lists b p ↔ g.Lists b p ∧ (home = some b → p ≠ o) := by
  simp only [Lists, block_unlist]
  split
  · rename_i hb
    constructor
    · rintro ⟨B, hB, hp⟩
      obtain ⟨B', hB', rfl⟩ := map_eq_ok.1 hB
      obtain ⟨hp, hne⟩ := List.mem_filter.1 hp
      exact ⟨⟨B', hB', hp⟩, fun _ => of_decide_eq_true hne⟩
    · rintro ⟨⟨B, hB, hp⟩, hne⟩
      exact ⟨_, map_eq_ok.2 ⟨B, hB, rfl⟩, List.mem_filter.2 ⟨hp, decide_eq_true (hne hb)⟩⟩
  · rename_i hb
    exact ⟨fun h => ⟨h, fun heq => absurd heq hb⟩, fun h => h.1⟩

end Unlist

/-- The operation is the first one or nested in it. -/
abbrev Below (g : Graph) (o : OpId) : OpId → Prop := g.Under (fun p => p = o) fun _ => False

/-- `g'` is `g` after the operation `o`, which was in `home`, was erased with what is below it.
The operations `os` have gone and the blocks `bs` are empty. -/
structure Dismantled (g : Graph) (o : OpId) (home : Option BlockId) (os : List OpId)
    (bs : List BlockId) (g' : Graph) : Prop where
  slot (p : OpId) : g'.slot p =
    if p ∈ os then (g.slot p).map fun d => { d with block := none, erased := true } else g.slot p
  block (b : BlockId) : g'.block b =
    if b ∈ bs then (g.block b).map fun B => { B with ops := [] }
    else if home = some b then (g.block b).map fun B => { B with ops := B.ops.filter (· ≠ o) }
    else g.block b
  uses (v : ValueId) : g'.uses v =
    (g.uses v).filter fun u => ¬(u.user ∈ os ∧ g.written? u = some v)
  rest : g' = { g with ops := g'.ops, blocks := g'.blocks, useLists := g'.useLists }
  mem (p : OpId) : p ∈ os ↔ g.Below o p
  inner (b : BlockId) : b ∈ bs ↔ ∃ q ∈ os, g.HasBlock q b

/-- What is cleared after the operation left its block. -/
theorem Clears.dismantled {home : Option BlockId}
    (h : (g.unlist o home).Clears (fun p => p = o) (fun _ => False) os bs g') :
    g.Dismantled o home os bs g' := by
  have ho : o ∈ os := (h.mem o).2 (.root rfl)
  refine ⟨fun p => ?_, fun b => ?_, fun v => ?_, ?_, fun p => ?_, fun b => ?_⟩
  · rw [h.slot]
    split
    · exact map_slot_unlist fun _ => rfl
    · rename_i hp
      exact slot_unlist_of_ne fun heq => hp (heq ▸ ho)
  · rw [h.block, block_unlist]
    by_cases hb : home = some b
    · cases g.block b with
      | ok B => simp [hb]
      | error f => simp [hb]
    · simp [hb]
  · have huses : (g.unlist o home).uses v = g.uses v := by
      cases home with
      | none => rfl
      | some b => rfl
    rw [h.uses, huses]
    apply List.filter_congr
    intro u _
    rw [written?_congr (map_slot_unlist fun _ => rfl)]
  · rw [h.rest]
    cases home with
    | none => rfl
    | some b => rfl
  · rw [h.mem]
    constructor
    · exact fun hp => hp.mono (fun _ => id) (fun _ => id) (fun _ _ => hasBlock_unlist.1)
        fun _ _ hp => (lists_unlist.1 hp).1
    · intro hp
      induction hp with
      | root hp => exact .root hp
      | top hb => exact hb.elim
      | @nested q p b _ hb hp ih =>
        -- the only listing that is missing is that of the operation itself
        by_cases hpo : p = o
        · exact .root hpo
        · exact .nested ih (hasBlock_unlist.2 hb) (lists_unlist.2 ⟨hp, fun _ => hpo⟩)
  · rw [h.inner]
    simp only [hasBlock_unlist, false_or]

/-- What an erasure that succeeds has done. -/
theorem dismantled_of_erase (h : g.erase o = .ok g') :
    ∃ d os bs, g.op o = .ok d ∧ (∀ v ∈ d.results, g.uses v = []) ∧
      g.Dismantled o d.block os bs g' := by
  obtain ⟨d, hd, hfree, h⟩ := erase_eq_ok.1 h
  have hdetached : ∀ x, (g.unlist o d.block).slot o = .ok x → x.block = none := by
    intro x hx
    cases hb : d.block with
    | none =>
      rw [hb] at hx
      rw [show (g.unlist o none).slot o = .ok d from slot_of_op hd] at hx
      cases hx
      exact hb
    | some b =>
      rw [hb] at hx
      exact block_detach g o x hx
  obtain ⟨os, bs, hclears⟩ := clears_of_eraseDetachedTo h hdetached
  exact ⟨d, os, bs, hd, hfree, hclears.dismantled⟩

namespace Dismantled

variable {home : Option BlockId} {x : Op}

theorem self_mem (h : g.Dismantled o home os bs g') : o ∈ os := (h.mem o).2 (.root rfl)

theorem region (h : g.Dismantled o home os bs g') (r : RegionId) : g'.region r = g.region r := by
  rw [h.rest]
  rfl

theorem value (h : g.Dismantled o home os bs g') (v : ValueId) : g'.value v = g.value v := by
  rw [h.rest]
  rfl

/-- Beside the operation itself, just what the emptied blocks listed has gone. -/
theorem listed (h : g.Dismantled o home os bs g') :
    p ∈ os ↔ p = o ∨ ∃ b ∈ bs, g.Lists b p :=
  mem_iff_listed h.mem fun b => by simp [h.inner]

/-- An operation without regions goes alone. -/
theorem of_leaf (h : g.Dismantled o home os bs g') (hd : g.slot o = .ok d)
    (hregions : d.regions = []) : (∀ p, p ∈ os ↔ p = o) ∧ ∀ b, b ∉ bs := by
  have hleaf : ∀ b, ¬g.HasBlock o b := by
    rintro b ⟨d', r, R, hd', hr, -⟩
    rw [hd] at hd'
    cases hd'
    rw [hregions] at hr
    cases hr
  have hmem : ∀ p, p ∈ os ↔ p = o := by
    intro p
    refine (h.mem p).trans ⟨fun hp => ?_, fun hp => .root hp⟩
    induction hp with
    | root hp => exact hp
    | top hb => exact hb.elim
    | nested _ hb _ ih => exact absurd (ih ▸ hb) (hleaf _)
  refine ⟨hmem, fun b hb => ?_⟩
  obtain ⟨q, hq, hb⟩ := (h.inner b).1 hb
  exact hleaf b ((hmem q).1 hq ▸ hb)

/-- The operations still live are those there were, without the erased ones. -/
theorem op_iff (h : g.Dismantled o home os bs g') : g'.op p = .ok x ↔ p ∉ os ∧ g.op p = .ok x := by
  simp only [op_eq_ok, h.slot]
  split
  · rename_i hp
    constructor
    · rintro ⟨hx, he⟩
      obtain ⟨y, -, rfl⟩ := map_eq_ok.1 hx
      cases he
    · rintro ⟨hno, -⟩
      exact absurd hp hno
  · rename_i hp
    simp [hp]

theorem lists_iff (h : g.Dismantled o home os bs g') :
    g'.Lists b p ↔ b ∉ bs ∧ (home = some b → p ≠ o) ∧ g.Lists b p := by
  simp only [Lists, h.block]
  cases g.block b with
  | error e => simp
  | ok C =>
    by_cases hb : b ∈ bs
    · simp [hb]
    · by_cases hhome : home = some b
      · simp [hb, hhome, and_comm]
      · simp [hb, hhome]

theorem exists_slot (h : g.Dismantled o home os bs g') {P : Op → Prop}
    (hP : ∀ x : Op, P { x with block := none, erased := true } ↔ P x) :
    (∃ x, g'.slot p = .ok x ∧ P x) ↔ ∃ x, g.slot p = .ok x ∧ P x := by
  rw [h.slot]
  split
  · exact exists_map_iff hP
  · rfl

theorem exists_block (h : g.Dismantled o home os bs g') {P : Block → Prop}
    (hP : ∀ (C : Block) (ops : List OpId), P { C with ops } ↔ P C) :
    (∃ C, g'.block b = .ok C ∧ P C) ↔ ∃ C, g.block b = .ok C ∧ P C := by
  rw [h.block]
  split
  · exact exists_map_iff fun C => hP C _
  · split
    · exact exists_map_iff fun C => hP C _
    · rfl

theorem count_uses (h : g.Dismantled o home os bs g') (v : ValueId) (u : Use) :
    (g'.uses v).count u =
      if u.user ∈ os ∧ g.written? u = some v then 0 else (g.uses v).count u := by
  rw [h.uses]
  split
  · rename_i hgone
    apply List.count_eq_zero_of_not_mem
    intro hu
    exact of_decide_eq_true (List.mem_filter.1 hu).2 hgone
  · rename_i hleft
    exact List.count_filter (decide_eq_true hleft)

end Dismantled

/-! ## Walks find the same -/

/-- A child is listed by a block of its parent. -/
theorem mem_children_iff_lists {cs : List OpId} (hcs : g.children q = .ok cs) :
    p ∈ cs ↔ ∃ b, g.HasBlock q b ∧ g.Lists b p := by
  obtain ⟨bs, -, hbs, -⟩ := children_eq_ok.1 hcs
  obtain ⟨d, -, hd, -⟩ := innerBlocks_eq_ok.1 hbs
  rw [mem_children hcs hbs]
  constructor
  · rintro ⟨b, hb, B, hB, hp⟩
    obtain ⟨d, r, R, hd, hr, hR, hb⟩ := (mem_innerBlocks hbs).1 hb
    exact ⟨b, ⟨d, r, R, slot_of_op hd, hr, hR, hb⟩, B, hB, hp⟩
  · rintro ⟨b, ⟨d', r, R, hd', hr, hR, hb⟩, B, hB, hp⟩
    rw [slot_of_op hd] at hd'
    cases hd'
    exact ⟨b, (mem_innerBlocks hbs).2 ⟨d, r, R, hd, hr, hR, hb⟩, B, hB, hp⟩

/-- What is below a child is below its parent. -/
theorem Below.of_child (h : g.Below p q) (hb : g.HasBlock o b) (hp : g.Lists b p) :
    g.Below o q := by
  induction h with
  | root heq => exact heq ▸ .nested (.root rfl) hb hp
  | top hb => exact hb.elim
  | nested _ hb hp ih => exact .nested ih hb hp

/-- Everything in a tree is below its root. -/
theorem Forest.below_root {n : Nat} {l : List OpId} (h : Forest g n os l) :
    ∀ {p : OpId}, p ∈ l → ∃ o ∈ os, g.Below o p := by
  induction h with
  | nil =>
    intro p hp
    cases hp
  | @cons n o os cs inner rest hcs _ _ ihin ihrest =>
    intro p hp
    rcases List.mem_cons.1 hp with rfl | hp
    · exact ⟨p, .head _, .root rfl⟩
    · rcases List.mem_append.1 hp with hp | hp
      · obtain ⟨c, hc, hp⟩ := ihin hp
        obtain ⟨b, hb, hc⟩ := (mem_children_iff_lists hcs).1 hc
        exact ⟨o, .head _, Below.of_child hp hb hc⟩
      · obtain ⟨c, hc, hp⟩ := ihrest hp
        exact ⟨c, .tail _ hc, hp⟩

/-- What a walk lists, with the operation it starts from, is what is below the operation. -/
theorem below_iff_of_nestedOps {nested : List OpId} (h : g.nestedOps o = .ok nested) :
    g.Below o p ↔ p = o ∨ p ∈ nested := by
  obtain ⟨cs, hcs, hforest⟩ := nestedOps_eq_ok.1 h
  constructor
  · intro hp
    induction hp with
    | root hp => exact .inl hp
    | top hb => exact hb.elim
    | nested _ hb hp ih =>
      refine .inr ?_
      rcases ih with rfl | hq
      · exact hforest.roots ((mem_children_iff_lists hcs).2 ⟨_, hb, hp⟩)
      · obtain ⟨qs, hqs, hsub⟩ := hforest.closed hq
        exact hsub _ ((mem_children_iff_lists hqs).2 ⟨_, hb, hp⟩)
  · rintro (rfl | hp)
    · exact .root rfl
    · obtain ⟨c, hc, hp⟩ := hforest.below_root hp
      obtain ⟨b, hb, hc⟩ := (mem_children_iff_lists hcs).1 hc
      exact Below.of_child hp hb hc

/-- An erasure takes what a walk lists. -/
theorem Dismantled.mem_iff {home : Option BlockId} {nested : List OpId}
    (h : g.Dismantled o home os bs g') (hnested : g.nestedOps o = .ok nested) :
    p ∈ os ↔ p = o ∨ p ∈ nested := (h.mem p).trans (below_iff_of_nestedOps hnested)

end Peephole.Graph
