import Peephole.Proofs.Linearity

/-!
# What the tables say, and what never changes

The links of a graph point upwards, from an operation to its block, from a block to its
region and from a region to its owner, and the lists downwards.  `Matched` says of such a pair
that everything is in the list of what it points to, once, and in no other list.  In a graph
that is built without presets the three pairs match, values and the lists that make them are
inverse to each other, and values have the types that were asked for (`Graph.tables_agree`).

Calls only add to a graph, but for the operands of an operation, its place and whether it was
erased.  `Graph.Extends` says so of two graphs, and every call leads from a graph to one that
extends it (`extends_stable`).
-/

namespace Peephole

open Relation

/-! ## Matching links and lists -/

/-- Everything is in the list of what it points to, once, and in no other list. -/
def Matched {α β : Type} [DecidableEq α] [DecidableEq β] (parent? : α → Option β)
    (children : β → List α) : Prop :=
  ∀ a b, (children b).count a = if parent? a = some b then 1 else 0

namespace Matched

variable {α β : Type} [DecidableEq α] [DecidableEq β] {parent? : α → Option β}
  {children : β → List α} {a : α} {b b' : β}

theorem of_mem (hmem : ∀ a b, a ∈ children b ↔ parent? a = some b)
    (hnodup : ∀ b, (children b).Nodup) : Matched parent? children := by
  intro a b
  rw [(hnodup b).count]
  exact if_congr (hmem a b) rfl rfl

theorem mem_iff (h : Matched parent? children) : a ∈ children b ↔ parent? a = some b := by
  rw [← List.count_pos_iff, h a b]
  split
  · simp [*]
  · simp [*]

/-- Nothing is in two lists. -/
theorem unique (h : Matched parent? children) (hb : a ∈ children b) (hb' : a ∈ children b') :
    b = b' :=
  Option.some.inj ((h.mem_iff.1 hb).symm.trans (h.mem_iff.1 hb'))

end Matched

/-- A list that is read entry by entry. -/
theorem mapM_of_getElem? {α β : Type} {f : α → Except Fault β} : ∀ {l : List α} {bs : List β},
    l.length = bs.length →
    (∀ {i : Nat} {a}, l[i]? = some a → ∃ b, f a = .ok b ∧ bs[i]? = some b) → l.mapM f = .ok bs
  | [], [], _, _ => rfl
  | a :: l, b :: bs, hlength, h => by
      have hrest : l.mapM f = .ok bs := by
        refine mapM_of_getElem? (Nat.succ.inj hlength) fun {i c} hi => ?_
        exact h (i := i + 1) hi
      obtain ⟨c, hc, hbc⟩ := h (i := 0) rfl
      cases hbc
      exact mapM_cons_eq_ok.2 ⟨b, bs, hc, hrest, rfl⟩

namespace Graph

variable {g g' g'' : Graph} {o : OpId} {b : BlockId} {r : RegionId}

/-- The block of a live operation. -/
def placeOf? (g : Graph) (o : OpId) : Option BlockId := (g.op o).toOption.bind Op.block

/-- The operations in a block. -/
def opsOf (g : Graph) (b : BlockId) : List OpId := ((g.block b).toOption.map Block.ops).getD []

/-- The region of a block. -/
def partOf? (g : Graph) (b : BlockId) : Option RegionId := (g.block b).toOption.bind Block.region

/-- The blocks in a region. -/
def blocksOf (g : Graph) (r : RegionId) : List BlockId :=
  ((g.region r).toOption.map Region.blocks).getD []

/-- The owner of a region. -/
def heldBy? (g : Graph) (r : RegionId) : Option OpId := (g.region r).toOption.bind Region.owner

/-- The regions of an operation, erased or not. -/
def regionsOf (g : Graph) (o : OpId) : List RegionId :=
  ((g.slot o).toOption.map Op.regions).getD []

/-- The type of a value. -/
def typeOf (g : Graph) (v : ValueId) : Except Fault Ty := (g.value v).map Value.type

section Views

variable {α β : Type} {x : Except Fault α}

theorem toOption_bind_eq_some {f : α → Option β} {c : β} :
    x.toOption.bind f = some c ↔ ∃ a, x = .ok a ∧ f a = some c := by
  cases x with
  | ok a => simp [Except.toOption]
  | error e => simp [Except.toOption]

theorem mem_toOption_getD {f : α → List β} {c : β} :
    c ∈ (x.toOption.map f).getD [] ↔ ∃ a, x = .ok a ∧ c ∈ f a := by
  cases x with
  | ok a => simp [Except.toOption]
  | error e => simp [Except.toOption]

theorem nodup_toOption_getD {f : α → List β} (h : ∀ a, x = .ok a → (f a).Nodup) :
    ((x.toOption.map f).getD []).Nodup := by
  cases x with
  | ok a => exact h a rfl
  | error e => exact List.nodup_nil

end Views

namespace Linked

theorem matched_ops (h : g.Linked) : Matched g.placeOf? g.opsOf := by
  refine .of_mem (fun o b => ?_) fun b => nodup_toOption_getD fun B hB => h.nodupOps hB
  rw [opsOf, placeOf?, mem_toOption_getD, toOption_bind_eq_some]
  exact h.placed.symm

theorem matched_blocks (h : g.Linked) : Matched g.partOf? g.blocksOf := by
  refine .of_mem (fun b r => ?_) fun r => nodup_toOption_getD fun R hR => h.nodupBlocks hR
  rw [blocksOf, partOf?, mem_toOption_getD, toOption_bind_eq_some]
  exact h.parted.symm

theorem matched_regions (h : g.Linked) : Matched g.heldBy? g.regionsOf := by
  refine .of_mem (fun r o => ?_) fun o => nodup_toOption_getD fun d hd => (h.formed hd).1
  rw [regionsOf, heldBy?, mem_toOption_getD, toOption_bind_eq_some]
  exact h.owned.symm

/-- The results of an operation have the types that it was made with. -/
theorem mapM_results (h : g.Linked) (ht : g.Typed) {d : Op} (hd : g.slot o = .ok d) :
    d.results.mapM g.typeOf = .ok d.resultTypes := by
  refine mapM_of_getElem? (h.formed hd).2 fun {i v} hi => ?_
  obtain ⟨x, hx, horigin⟩ := h.result.2 ⟨d, hd, hi⟩
  obtain ⟨d', hd', htype⟩ := ht hx horigin
  rw [hd] at hd'
  cases hd'
  exact ⟨x.type, by rw [typeOf, hx, map_ok], htype⟩

end Linked

/-! ## The types of block arguments -/

/-- The arguments of a block have the types that it was made with. -/
def Declared (g : Graph) : Prop :=
  ∀ {b : BlockId} {B : Block}, g.block b = .ok B → B.args.mapM g.typeOf = .ok B.argTypes

theorem mapM_typeOf_mono {vs : List ValueId} {types : List Ty}
    (hvalue : ∀ {v x}, g.value v = .ok x → g'.value v = .ok x)
    (h : vs.mapM g.typeOf = .ok types) : vs.mapM g'.typeOf = .ok types := by
  induction vs generalizing types with
  | nil => exact h
  | cons v vs ih =>
    obtain ⟨t, ts, ht, hts, rfl⟩ := mapM_cons_eq_ok.1 h
    obtain ⟨x, hx, rfl⟩ := map_eq_ok.1 ht
    exact mapM_cons_eq_ok.2 ⟨x.type, ts, by rw [typeOf, hvalue hx, map_ok], ih hts, rfl⟩

namespace Declared

/-- A change that makes no blocks keeps the types of arguments. -/
theorem of_blocks (h : g.Declared) (hvalue : ∀ {v x}, g.value v = .ok x → g'.value v = .ok x)
    (hblock : ∀ {b B'}, g'.block b = .ok B' →
      ∃ B, g.block b = .ok B ∧ B'.args = B.args ∧ B'.argTypes = B.argTypes) : g'.Declared := by
  intro b B' hB'
  obtain ⟨B, hB, hargs, htypes⟩ := hblock hB'
  rw [hargs, htypes]
  exact mapM_typeOf_mono hvalue (h hB)

theorem newBlock (h : g.Declared) (args : List Ty) (l : Location) (ops : List OpId)
    (region : Option RegionId) : (g.newBlock args l ops region).2.Declared := by
  have hvalue : ∀ {v x}, g.value v = .ok x → (g.newBlock args l ops region).2.value v = .ok x :=
    fun hx => (value_newBlock _ args l ops region).2 (.inl hx)
  intro b B hB
  rw [block_newBlock] at hB
  split at hB
  · cases hB
    refine mapM_of_getElem? (length_nextValues _) fun {i v} hi => ?_
    obtain ⟨hlt, hv⟩ := getElem?_nextValues.1 hi
    refine ⟨args.get ⟨i, hlt⟩, ?_, List.getElem?_eq_getElem hlt⟩
    have hx : (g.newBlock args l ops region).2.value v =
        .ok ⟨.argument ⟨g.blocks.size⟩ i, args.get ⟨i, hlt⟩⟩ :=
      (value_newBlock _ args l ops region).2
        (.inr ⟨i, _, List.getElem?_eq_getElem hlt, hv, rfl⟩)
    rw [typeOf, hx, map_ok]
  · exact mapM_typeOf_mono hvalue (h hB)

theorem put (h : g.Declared) (o : OpId) (b : BlockId) (k : List OpId → List OpId) :
    (g.put o b k).Declared := by
  refine @of_blocks g (g.put o b k) h (fun hx => hx) fun {c C} hC => ?_
  rw [block_put] at hC
  split at hC
  · obtain ⟨B, hB, rfl⟩ := map_eq_ok.1 hC
    exact ⟨B, hB, rfl, rfl⟩
  · exact ⟨C, hC, rfl, rfl⟩

theorem rewired (h : g.Declared) (hr : Rewired g g') : g'.Declared :=
  h.of_blocks (fun hx => (hr.value _).trans hx) fun hB => ⟨_, (hr.block _).symm.trans hB, rfl, rfl⟩

end Declared

theorem declared_invariant (presets : Bool) : Invariant presets Declared where
  newOp h hn := h.of_blocks (fun hx => (value_newOp hn).2 (.inl hx)) fun hB =>
    ⟨_, (block_newOp hn _).symm.trans hB, rfl, rfl⟩
  placeBefore h hp := by
    obtain ⟨d, a, b, B, i, -, -, -, -, -, -, rfl⟩ := placeBefore_eq_ok.1 hp
    exact h.put _ _ _
  writeSlot h _ hw := h.rewired (.writeSlot hw)
  redirectUses h hr := h.rewired (.redirectUses hr)
  erase h he := by
    obtain ⟨d, os, bs, -, -, he⟩ := dismantled_of_erase he
    refine h.of_blocks (fun hx => (he.value _).trans hx) fun {b B} hB => ?_
    obtain ⟨C, hC, heq⟩ := (he.exists_block
      (P := fun C => B.args = C.args ∧ B.argTypes = C.argTypes) fun _ _ => Iff.rfl).1
        ⟨B, hB, rfl, rfl⟩
    exact ⟨C, hC, heq⟩
  empty := by
    intro b B hB
    cases hB
  paths _ h := h
  newBlock args l ops region h _ := h.newBlock args l ops region
  newRegion h _ hr := by
    refine h.of_blocks (fun hx => (value_newRegion hr _).trans hx) fun {b B} hB => ?_
    rw [block_newRegion hr] at hB
    split at hB
    · obtain ⟨C, hC, rfl⟩ := map_eq_ok.1 hB
      exact ⟨C, hC, rfl, rfl⟩
    · exact ⟨B, hB, rfl, rfl⟩
  placeLast h hp := by
    obtain ⟨d, B, -, -, -, rfl⟩ := placeLast_eq_ok.1 hp
    exact h.put _ _ _

/-! ## What never changes -/

end Graph

/-- What lasts of an operation: all but what it reads, where it is and whether it was erased. -/
def Op.lasting (d : Op) : Op := { d with operands := [], block := none, erased := false }

namespace Graph

variable {g₀ g g' : Graph} {o : OpId}

/-- What is in the first graph is in the second one, and what was erased there is erased. -/
structure Extends (g g' : Graph) : Prop where
  slot {o : OpId} {d : Op} : g.slot o = .ok d →
    ∃ d', g'.slot o = .ok d' ∧ d'.lasting = d.lasting ∧ (d.erased = true → d'.erased = true)
  value {v : ValueId} {x : Value} : g.value v = .ok x → g'.value v = .ok x

namespace Extends

theorem refl (g : Graph) : Extends g g := ⟨fun hd => ⟨_, hd, rfl, id⟩, id⟩

theorem trans {g'' : Graph} (h : Extends g g') (h' : Extends g' g'') : Extends g g'' where
  slot hd := by
    obtain ⟨d', hd', hlasting, herased⟩ := h.slot hd
    obtain ⟨d'', hd'', hlasting', herased'⟩ := h'.slot hd'
    exact ⟨d'', hd'', hlasting'.trans hlasting, herased' ∘ herased⟩
  value hx := h'.value (h.value hx)

/-- A change that writes operations at most in what may change. -/
theorem of_slots (hslot : ∀ {o d}, g.slot o = .ok d →
      ∃ d', g'.slot o = .ok d' ∧ d'.lasting = d.lasting ∧ (d.erased = true → d'.erased = true))
    (hvalue : ∀ v, g'.value v = g.value v) : Extends g g' :=
  ⟨hslot, fun hx => (hvalue _).trans hx⟩

theorem newOp {d : Draft} {n : OpId} (h : g.newOp d = .ok (n, g')) : Extends g g' where
  slot {o x} hx := by
    refine ⟨x, ?_, rfl, id⟩
    rw [slot_newOp h, if_neg, hx]
    rintro rfl
    exact not_slot_of_newOp h x hx
  value hx := (value_newOp h).2 (.inl hx)

theorem newBlock (g : Graph) (args : List Ty) (l : Location) (ops : List OpId)
    (region : Option RegionId) : Extends g (g.newBlock args l ops region).2 :=
  ⟨fun hd => ⟨_, hd, rfl, id⟩, fun hx => (value_newBlock _ args l ops region).2 (.inl hx)⟩

theorem newRegion {blocks : List BlockId} {owner : Option OpId} {r : RegionId}
    (h : g.newRegion blocks owner = .ok (r, g')) : Extends g g' :=
  .of_slots (fun hd => ⟨_, (slot_newRegion h _).trans hd, rfl, id⟩) (value_newRegion h)

theorem put (g : Graph) (o : OpId) (b : BlockId) (k : List OpId → List OpId) :
    Extends g (g.put o b k) := by
  refine .of_slots (fun {p d} hd => ?_) (value_put g o b k)
  rw [slot_put, hd]
  split
  · exact ⟨d.inBlock b, rfl, rfl, id⟩
  · exact ⟨d, rfl, rfl, id⟩

theorem rewired (h : Rewired g g') : Extends g g' := by
  refine .of_slots (fun {o d} hd => ?_) h.value
  obtain ⟨d', hd', hunread⟩ := h.slot_ok hd
  have hlasting : d'.unread.lasting = d.unread.lasting := by rw [hunread]
  have herased : d'.unread.erased = d.unread.erased := by rw [hunread]
  exact ⟨d', hd', hlasting, fun he => herased.trans he⟩

theorem erase (h : g.erase o = .ok g') : Extends g g' := by
  obtain ⟨d, os, bs, -, -, he⟩ := dismantled_of_erase h
  refine .of_slots (fun {p x} hx => ?_) he.value
  rw [he.slot, hx]
  split
  · exact ⟨_, rfl, rfl, fun _ => rfl⟩
  · exact ⟨x, rfl, rfl, id⟩

end Extends

/-- Whatever is called, the graph goes on extending those before it. -/
theorem extends_stable (presets : Bool) : Stable presets (Extends g₀) where
  newOp h hn := h.trans (.newOp hn)
  placeBefore h hp := by
    obtain ⟨d, a, b, B, i, -, -, -, -, -, -, rfl⟩ := placeBefore_eq_ok.1 hp
    exact h.trans (.put _ _ _ _)
  writeSlot h _ hw := h.trans (.rewired (.writeSlot hw))
  redirectUses h hr := h.trans (.rewired (.redirectUses hr))
  erase h he := h.trans (.erase he)
  paths _ h := ⟨h.slot, h.value⟩
  newBlock args l ops region h _ := h.trans (.newBlock _ args l ops region)
  newRegion h _ hr := h.trans (.newRegion hr)
  placeLast h hp := by
    obtain ⟨d, B, -, -, -, rfl⟩ := placeLast_eq_ok.1 hp
    exact h.trans (.put _ _ _ _)

theorem extends_of_moves {presets : Bool} (h : ReflTransGen (Move presets) g g') :
    Extends g g' := by
  induction h with
  | refl => exact .refl g
  | tail _ hmove ih => exact hmove.keeps (extends_stable presets) ih

/-- In a graph that is built without presets, links upwards and lists downwards match, values
and the lists that make them are inverse to each other, and values have the types that were
asked for.  What is called after that changes no value and of an operation at most what it
reads and where it is, or erases it for good. -/
theorem tables_agree (hg : g.Reachable false) :
    Matched g.placeOf? g.opsOf ∧ Matched g.partOf? g.blocksOf ∧ Matched g.heldBy? g.regionsOf ∧
    (∀ {b r r'}, b ∈ g.blocksOf r → b ∈ g.blocksOf r' → r = r') ∧
    (∀ {r o o'}, r ∈ g.regionsOf o → r ∈ g.regionsOf o' → o = o') ∧
    (∀ {v o i}, (∃ x, g.value v = .ok x ∧ x.origin = .result o i) ↔
      ∃ d, g.slot o = .ok d ∧ d.results[i]? = some v) ∧
    (∀ {v b i}, (∃ x, g.value v = .ok x ∧ x.origin = .argument b i) ↔
      ∃ B, g.block b = .ok B ∧ B.args[i]? = some v) ∧
    (∀ {o d}, g.slot o = .ok d → d.results.mapM g.typeOf = .ok d.resultTypes) ∧
    (∀ {b B}, g.block b = .ok B → B.args.mapM g.typeOf = .ok B.argTypes) ∧
    ∀ {g'}, ReflTransGen (Move false) g g' →
      (∀ {o d}, g.slot o = .ok d → ∃ d', g'.slot o = .ok d' ∧
        (d.erased = true → d'.erased = true) ∧ d'.kind = d.kind ∧ d'.attributes = d.attributes ∧
        d'.location = d.location ∧ d'.resultTypes = d.resultTypes ∧ d'.regions = d.regions) ∧
      ∀ {v x}, g.value v = .ok x → g'.value v = .ok x := by
  have hlinked := hg.linked
  have htyped : g.Typed := hg.holds (typed_invariant false)
  refine ⟨hlinked.matched_ops, hlinked.matched_blocks, hlinked.matched_regions,
    hlinked.matched_blocks.unique, hlinked.matched_regions.unique, hlinked.result,
    hlinked.argument, hlinked.mapM_results htyped, hg.holds (declared_invariant false), ?_⟩
  intro g' hmoves
  have hextends := extends_of_moves hmoves
  refine ⟨fun hd => ?_, hextends.value⟩
  obtain ⟨d', hd', hlasting, herased⟩ := hextends.slot hd
  injection hlasting with hkind _ _ htypes hattributes hregions _ hlocation
  exact ⟨d', hd', herased, hkind, hattributes, hlocation, htypes, hregions⟩

/-- A gate is in its block once, and an erased return is still a return. -/
theorem tables_agree_pair : pairGraph.Reachable false ∧ (pairGraph.opsOf ⟨0⟩).count ⟨1⟩ = 1 ∧
    ∃ t, (EditM.erase ⟨2⟩).runOn ⟨pairGraph, .silent, false, false⟩ = .ok (.ok (), t) ∧
      t.graph.isLive ⟨2⟩ = .ok false ∧ ∃ d, t.graph.slot ⟨2⟩ = .ok d ∧ d.kind = .ret := by
  have hbuilt := pairGraph_function.built
  have htables := tables_agree hbuilt
  obtain ⟨hops, -, -, -, -, -, -, -, -, hlater⟩ := htables
  have hplace : pairGraph.placeOf? ⟨1⟩ = some ⟨0⟩ := rfl
  obtain ⟨t, ht, hdead⟩ : ∃ t, (EditM.erase ⟨2⟩).runOn ⟨pairGraph, .silent, false, false⟩ =
      .ok (.ok (), t) ∧ t.graph.isLive ⟨2⟩ = .ok false := ⟨_, rfl, rfl⟩
  have hmoves : ReflTransGen (Move false) pairGraph t.graph :=
    .single (.edit (EditM.Program.erase ⟨2⟩) ht)
  obtain ⟨d, hd, -, hkind, -⟩ := (hlater hmoves).1 (o := ⟨2⟩) rfl
  exact ⟨hbuilt, (hops ⟨1⟩ ⟨0⟩).trans (if_pos hplace), t, ht, hdead, d, hd, hkind⟩

end Graph

end Peephole
