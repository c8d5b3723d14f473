import Peephole.Proofs.Erasure
import Peephole.Proofs.Listings

/-!
# Replacing an operation

A replacement moves the uses of one result after the other, by the use lists, and then
erases the operation.  It comes to one substitution in the operands of everything that is
live (`Graph.Substituted`).  A use that was moved stands at the end of its new list, so the
list of a value is its own uses, then those of the results it stands in for, in their order.

That no value in the place of a result is a result itself makes the moves independent of
each other (`Substituted.cons`).
-/

namespace Peephole

/-! ## Substitution -/

/-- A value, or what is put in its place. -/
def substitute (pairs : List (ValueId × ValueId)) (v : ValueId) : ValueId :=
  (pairs.lookup v).getD v

@[simp]
theorem substitute_nil (v : ValueId) : substitute [] v = v := rfl

theorem substitute_cons (a b v : ValueId) (pairs : List (ValueId × ValueId)) :
    substitute ((a, b) :: pairs) v = if v = a then b else substitute pairs v := by
  simp only [substitute, List.lookup_cons]
  by_cases hv : v = a
  · simp [hv]
  · simp [hv, beq_eq_false_iff_ne.2 hv]

theorem substitute_of_not_mem {pairs : List (ValueId × ValueId)} {v : ValueId}
    (h : v ∉ pairs.map Prod.fst) : substitute pairs v = v := by
  induction pairs with
  | nil => rfl
  | cons t pairs ih =>
    obtain ⟨hne, hv⟩ := not_or.1 (mt List.mem_cons.2 h)
    rw [substitute_cons, if_neg hne, ih hv]

/-- An operation with other values in the place of what it reads.  An erased one reads
nothing any more. -/
def Op.substituted (pairs : List (ValueId × ValueId)) (d : Op) : Op :=
  if d.erased then d else { d with operands := d.operands.map (substitute pairs) }

theorem Op.results_substituted (pairs : List (ValueId × ValueId)) (d : Op) :
    (d.substituted pairs).results = d.results := by
  rw [substituted]
  split
  · rfl
  · rfl

theorem Op.block_substituted (pairs : List (ValueId × ValueId)) (d : Op) :
    (d.substituted pairs).block = d.block := by
  rw [substituted]
  split
  · rfl
  · rfl

namespace Graph

variable {g g' g₁ : Graph} {o p : OpId} {d : Op} {v old new : ValueId} {b : BlockId}
  {pairs : List (ValueId × ValueId)}

/-- `g'` is `g` with other values in the place of those that live operations read. -/
structure Substituted (g : Graph) (pairs : List (ValueId × ValueId)) (g' : Graph) : Prop where
  slot (p : OpId) : g'.slot p = (g.slot p).map (Op.substituted pairs)
  /-- Uses are moved to the end of the list of the value that is read now. -/
  uses (v : ValueId) : g'.uses v = if v ∈ pairs.map Prod.fst then [] else
    g.uses v ++ (pairs.filter fun t => t.2 = v).flatMap fun t => g.uses t.1
  rest : g' = { g with ops := g'.ops, useLists := g'.useLists }

namespace Substituted

theorem nil (g : Graph) : g.Substituted [] g where
  slot p := by
    cases g.slot p with
    | error f => rfl
    | ok d =>
      have hsame : d.operands.map (substitute []) = d.operands := List.map_id _
      rw [map_ok, Op.substituted, hsame]
      split
      · rfl
      · rfl
  uses v := by simp
  rest := rfl

/-- One substitution after another is both at once, if what is put in first is not
replaced again and what was replaced is not put back. -/
theorem cons (h₁ : g.Substituted [(old, new)] g₁) (h : g₁.Substituted pairs g')
    (hold : old ∉ pairs.map Prod.fst) (hnew : new ∉ pairs.map Prod.fst)
    (hback : ∀ t ∈ pairs, t.2 ≠ old) : g.Substituted ((old, new) :: pairs) g' where
  slot p := by
    rw [h.slot, h₁.slot]
    cases g.slot p with
    | error f => rfl
    | ok d =>
      cases he : d.erased with
      | true => simp [Op.substituted, he]
      | false =>
        have hcomp : ∀ v, substitute pairs (substitute [(old, new)] v) =
            substitute ((old, new) :: pairs) v := by
          intro v
          rw [substitute_cons, substitute_cons]
          split
          · exact substitute_of_not_mem hnew
          · rfl
        simp [Op.substituted, he, hcomp]
  uses v := by
    have hfirst : ∀ t ∈ pairs, g₁.uses t.1 = g.uses t.1 := by
      intro t ht
      have hmem : t.1 ∈ pairs.map Prod.fst := List.mem_map_of_mem ht
      have hne : t.1 ≠ old := fun heq => hold (heq ▸ hmem)
      have hne' : new ≠ t.1 := fun heq => hnew (heq ▸ hmem)
      simp [h₁.uses, hne, hne']
    have hmoved : ((pairs.filter fun t => t.2 = v).flatMap fun t => g₁.uses t.1) =
        (pairs.filter fun t => t.2 = v).flatMap fun t => g.uses t.1 :=
      List.flatMap_congr fun t ht => hfirst t (List.mem_of_mem_filter ht)
    rw [h.uses, hmoved, List.map_cons]
    by_cases hv : v = old
    · subst hv
      have hnone : (pairs.filter fun t => t.2 = v) = [] := by
        rw [List.filter_eq_nil_iff]
        intro t ht
        simpa using hback t ht
      simp [hold, hnone, h₁.uses]
    · by_cases hmem : v ∈ pairs.map Prod.fst
      · rw [if_pos hmem, if_pos (.tail _ hmem)]
      · have hout : v ∉ old :: pairs.map Prod.fst := by simp [hv, hmem]
        rw [if_neg hmem, if_neg hout, h₁.uses, if_neg (by simpa using hv), List.append_assoc,
          ← List.flatMap_append, ← List.filter_append]
        rfl
  rest := by
    rw [h.rest, h₁.rest]

theorem op (h : g.Substituted pairs g') (hd : g.op o = .ok d) :
    g'.op o = .ok (d.substituted pairs) := by
  obtain ⟨hs, he⟩ := op_eq_ok.1 hd
  refine op_eq_ok.2 ⟨by rw [h.slot, hs, map_ok], ?_⟩
  simp [Op.substituted, he]

theorem rewired (h : g.Substituted pairs g') : Rewired g g' where
  slot p := by
    rw [h.slot]
    cases g.slot p with
    | error f => rfl
    | ok d =>
      rw [map_ok, map_ok, map_ok, Op.substituted]
      split
      · rfl
      · simp only [Op.unread, List.map_map]
        rfl
  block b := by
    rw [h.rest]
    rfl
  region r := by
    rw [h.rest]
    rfl
  value v := by
    rw [h.rest]
    rfl

end Substituted

/-- Moving the uses of a value is a substitution. -/
theorem Coherent.redirectUses_substituted (hg : g.Coherent) (hne : old ≠ new) :
    ∃ g', g.redirectUses old new = .ok g' ∧ g.Substituted [(old, new)] g' := by
  have hwritten : ∀ u ∈ g.uses old, (g.modifyUses old fun _ => []).written? u = some old :=
    fun u hu => written?_of_held? (hg.mem_uses.1 hu)
  obtain ⟨g', h, hslot, huses, hrest⟩ :=
    @redirects_ok old new _ (g.modifyUses old fun _ => []) (hg.nodup_uses old) hwritten
  refine ⟨g', by rw [redirectUses, if_neg hne]; exact h, ?_, ?_, ?_⟩
  · intro p
    rw [hslot]
    show (g.slot p).map _ = _
    cases hp : g.slot p with
    | error f => rfl
    | ok d =>
      -- the use list of the old value has just the slots of live operations that hold it
      have hmem : ∀ i, (⟨p, i⟩ : Use) ∈ g.uses old ↔
          d.erased = false ∧ d.operands[i]? = some old := by
        intro i
        rw [hg.mem_uses, held?_eq_some]
        simp only [op_eq_ok, hp, Except.ok.injEq]
        constructor
        · rintro ⟨x, ⟨rfl, he⟩, hi⟩
          exact ⟨he, hi⟩
        · rintro ⟨he, hi⟩
          exact ⟨d, ⟨rfl, he⟩, hi⟩
      have hoperands : (d.operands.mapIdx fun i v => if ⟨p, i⟩ ∈ g.uses old then new else v) =
          if d.erased then d.operands else d.operands.map (substitute [(old, new)]) := by
        apply List.ext_getElem?
        intro i
        rw [List.getElem?_mapIdx]
        simp only [hmem]
        cases d.erased with
        | true => simp
        | false =>
          rw [if_neg Bool.false_ne_true, List.getElem?_map]
          cases d.operands[i]? with
          | none => rfl
          | some v => simp [substitute_cons]
      rw [map_ok, map_ok, Op.substituted, Graph.rewired, hoperands]
      split
      · rfl
      · rfl
  · intro v
    rw [huses, uses_modifyUses]
    by_cases hv : v = old
    · simp [hv, Ne.symm hne]
    · by_cases hv' : new = v
      · simp [hv, hv', Ne.symm hv]
      · simp [hv, hv', Ne.symm hv]
  · rw [hrest]
    rfl

theorem uses_eq_nil_of_readers (h : g.readers old = []) : g.uses old = [] := by
  cases huses : g.uses old with
  | nil => rfl
  | cons u us =>
    rw [readers, huses, List.map_cons, List.eraseDups_cons] at h
    cases h

/-- Nothing is to be done for a value that nobody reads. -/
theorem Coherent.substituted_of_unread (hg : g.Coherent) (hnone : g.uses old = []) :
    g.Substituted [(old, new)] g where
  slot p := by
    cases hp : g.slot p with
    | error f => rfl
    | ok d =>
      rw [map_ok, Op.substituted]
      split
      · rfl
      · rename_i he
        have hop : g.op p = .ok d := op_eq_ok.2 ⟨hp, by simpa using he⟩
        have hsame : ∀ v ∈ d.operands, substitute [(old, new)] v = id v := by
          intro v hv
          rw [substitute_cons, if_neg]
          · rfl
          · rintro rfl
            obtain ⟨i, hi⟩ := List.mem_iff_getElem?.1 hv
            have hread := hg.mem_uses.2 (held?_eq_some.2 ⟨d, hop, hi⟩ : g.held? ⟨p, i⟩ = some v)
            rw [hnone] at hread
            cases hread
        rw [List.map_congr_left hsame, List.map_id]
  uses v := by
    by_cases hv : v = old
    · simp [hv, hnone]
    · by_cases hv' : new = v
      · simp [hv, hv', hnone]
      · simp [hv, hv']
  rest := rfl

theorem Rewired.encloses (h : Rewired g g') (hb : g.Encloses o b) : g'.Encloses o b := by
  obtain ⟨n, p, r, R, B, hn, hR, howner, hB, hBr⟩ := hb
  exact ⟨n, p, r, R, B, h.within hn, (h.region r).trans hR, howner, (h.block b).trans hB, hBr⟩

theorem Rewired.forest (h : Rewired g g') {n : Nat} {os l : List OpId} (hf : Forest g n os l) :
    Forest g' n os l := by
  induction hf with
  | nil => exact .nil
  | cons hcs _ _ ihinner ihrest => exact .cons (h.children hcs) ihinner ihrest

/-- What is nested in an operation does not depend on what operations read. -/
theorem Rewired.nestedOps_eq (h : Rewired g g') {l l' : List OpId} (hl : g.nestedOps o = .ok l)
    (hl' : g'.nestedOps o = .ok l') : l = l' := by
  obtain ⟨cs, hcs, hforest⟩ := nestedOps_eq_ok.1 hl
  obtain ⟨cs', hcs', hforest'⟩ := nestedOps_eq_ok.1 hl'
  rw [h.children hcs] at hcs'
  cases hcs'
  exact (h.forest hforest).unique hforest'

/-! ## Replacement -/

/-- `g'` is `g` with `values` in the place of the results of an operation, and without the
operation and what is nested in it. -/
structure Replaced (g : Graph) (o : OpId) (d : Op) (values : List ValueId) (nested : List OpId)
    (g' : Graph) : Prop where
  /-- What is left reads the values. -/
  slot {p : OpId} : p ≠ o → p ∉ nested →
    g'.slot p = (g.slot p).map (Op.substituted (d.results.zip values))
  /-- The operation and what is nested in it are marked as erased. -/
  erased {p : OpId} : p = o ∨ p ∈ nested → g'.slot p = (g.slot p).map fun x =>
    { x.substituted (d.results.zip values) with block := none, erased := true }
  /-- Nobody reads the results. -/
  unread {v : ValueId} : v ∈ d.results → g'.uses v = []
  /-- The uses of another value are its own, then those of the results it stands in for. -/
  uses {v : ValueId} : v ∉ d.results → g'.uses v =
    (g.uses v ++
      ((d.results.zip values).filter fun t => t.2 = v).flatMap fun t => g.uses t.1).filter
      fun u => ¬(u.user = o ∨ u.user ∈ nested)
  /-- The block that listed the operation no longer does. -/
  home {b : BlockId} {B : Block} : d.block = some b → g.block b = .ok B →
    g'.block b = .ok { B with ops := B.ops.filter (· ≠ o) }
  /-- The blocks inside are left empty. -/
  inner {b : BlockId} {B : Block} : g.Encloses o b → g.block b = .ok B →
    g'.block b = .ok { B with ops := [] }
  /-- No other block changes. -/
  block {b : BlockId} : d.block ≠ some b → ¬g.Encloses o b → g'.block b = g.block b
  /-- Nothing else changes. -/
  rest : g' = { g with ops := g'.ops, blocks := g'.blocks, useLists := g'.useLists }

/-- A substitution followed by a removal is a replacement. -/
theorem Substituted.replaced {values : List ValueId} {nested : List OpId}
    (h : g.Substituted (d.results.zip values) g₁) (hlength : values.length = d.results.length)
    (hremoved : g₁.Removed o (d.substituted (d.results.zip values)) nested g') :
    g.Replaced o d values nested g' := by
  have hfst : (d.results.zip values).map Prod.fst = d.results :=
    List.map_fst_zip (Nat.le_of_eq hlength.symm)
  have hr := h.rewired
  refine ⟨?_, ?_, ?_, ?_, ?_, ?_, ?_, ?_⟩
  · intro p hp hp'
    rw [hremoved.slot, if_neg (by simp [hp, hp']), h.slot]
  · intro p hp
    rw [hremoved.slot, if_pos hp, h.slot]
    cases g.slot p with
    | ok x => rfl
    | error f => rfl
  · intro v hv
    rw [hremoved.uses, h.uses, if_pos (hfst.symm ▸ hv), List.filter_nil]
  · intro v hv
    rw [hremoved.uses, h.uses, if_neg (hfst.symm ▸ hv)]
  · intro b B hb hB
    exact hremoved.home ((Op.block_substituted _ d).trans hb) ((hr.block b).trans hB)
  · intro b B hb hB
    exact hremoved.inner (hr.encloses hb) ((hr.block b).trans hB)
  · intro b hb hout
    rw [hremoved.block (Op.block_substituted _ d ▸ hb) fun henc => hout (hr.symm.encloses henc)]
    exact hr.block b
  · rw [hremoved.rest, h.rest]

end Graph

namespace EditM

open Peephole.Graph

variable {s : Session} {o : OpId} {d : Op} {events : List Event}

/-- Moving the uses of a value for a recorder is a substitution. -/
theorem runOn_redirectUses_recorded {old new : ValueId} (hg : s.graph.Coherent)
    (hobserver : s.observer = .recorder events) (hne : old ≠ new) :
    ∃ t events', (redirectUses old new).runOn s = .ok (.ok (), t) ∧ t.graph.Coherent ∧
      t.observer = .recorder events' ∧ s.graph.Substituted [(old, new)] t.graph := by
  by_cases hidle : s.graph.readers old = []
  · exact ⟨s, events, runOn_redirectUses.2 ⟨rfl, .inl ⟨.inr hidle, rfl⟩⟩, hg, hobserver,
      hg.substituted_of_unread (uses_eq_nil_of_readers hidle)⟩
  · obtain ⟨g, hredirect, hsub⟩ := hg.redirectUses_substituted hne
    have hnotify : ∃ event, s.observer.notify g (.replaced old (s.graph.readers old)) =
        .ok (.recorder (event :: events)) := by
      rw [hobserver]
      exact ⟨_, rfl⟩
    obtain ⟨event, hnotify⟩ := hnotify
    refine ⟨_, event :: events,
      runOn_redirectUses.2 ⟨rfl, .inr ⟨?_, g, _, hredirect, hnotify, rfl⟩⟩,
      (coherent_invariant true).redirectUses hg hredirect, rfl, hsub⟩
    simp [hne, hidle]

/-- Moving the uses of some values one after the other substitutes them all at once. -/
theorem runOn_redirects_recorded :
    ∀ (pairs : List (ValueId × ValueId)) {s : Session} {events : List Event},
      s.graph.Coherent → s.observer = .recorder events → (pairs.map Prod.fst).Nodup →
      (∀ t ∈ pairs, t.2 ∉ pairs.map Prod.fst) →
      ∃ t events', (forM pairs fun (old, new) => redirectUses old new).runOn s = .ok (.ok ⟨⟩, t) ∧
        t.graph.Coherent ∧ t.observer = .recorder events' ∧ s.graph.Substituted pairs t.graph
  | [], s, events, hg, hobserver, _, _ => ⟨s, events, rfl, hg, hobserver, .nil _⟩
  | (old, new) :: pairs, s, events, hg, hobserver, hnodup, hfresh => by
      rw [List.map_cons, List.nodup_cons] at hnodup
      obtain ⟨hne, hnew⟩ := not_or.1 (mt List.mem_cons.2 (hfresh (old, new) (.head _)))
      have hrest : ∀ t ∈ pairs, t.2 ≠ old ∧ t.2 ∉ pairs.map Prod.fst :=
        fun t ht => not_or.1 (mt List.mem_cons.2 (hfresh t (.tail _ ht)))
      obtain ⟨s₁, events₁, hrun₁, hg₁, hobserver₁, hsub₁⟩ :=
        runOn_redirectUses_recorded hg hobserver (Ne.symm hne)
      obtain ⟨t, events', hrun, ht, hobserver', hsub⟩ :=
        runOn_redirects_recorded pairs hg₁ hobserver₁ hnodup.2 fun t ht => (hrest t ht).2
      refine ⟨t, events', ?_, ht, hobserver',
        hsub₁.cons hsub hnodup.1 hnew fun t ht => (hrest t ht).1⟩
      rw [List.forM_cons, runOn_bind_of_ok hrun₁]
      exact hrun

/-- A replacement by values that are none of the results succeeds.  What is left reads the
values where it read the results, nobody reads the results, and the operation and what is
nested in it are gone. -/
theorem replace_exact (hg : s.graph.Reachable false) (hobserver : s.observer = .recorder events)
    (hd : s.graph.op o = .ok d) (ho : s.graph.Anchored o) (values : List ValueId)
    (hlength : values.length = d.results.length) (hvalues : ∀ v ∈ values, v ∉ d.results) :
    ∃ nested t, s.graph.nestedOps o = .ok nested ∧
      (replace o values).runOn s = .ok (.ok (), t) ∧
      s.graph.Replaced o d values nested t.graph := by
  have hfst : (d.results.zip values).map Prod.fst = d.results :=
    List.map_fst_zip (Nat.le_of_eq hlength.symm)
  obtain ⟨s₁, events₁, hrun₁, hg₁, hobserver₁, hsub⟩ :=
    runOn_redirects_recorded (d.results.zip values) hg.coherent hobserver
      (hfst.symm ▸ hg.linked.nodup_results (slot_of_op hd))
      (fun t ht => hfst.symm ▸ hvalues t.2 (List.of_mem_zip ht).2)
  have hr := hsub.rewired
  have hanchored := hr.reshaped.anchored hg.linked ho (slot_of_op hd)
  have hfree : s₁.graph.resultUses (d.substituted (d.results.zip values)) = [] := by
    rw [resultUses, Op.results_substituted, List.flatMap_eq_nil_iff]
    intro v hv
    rw [hsub.uses, if_pos (hfst.symm ▸ hv)]
  obtain ⟨nested, told, g, hnested, -, -, -, -, hremoved, herase⟩ :=
    runOn_erase_recorded (hg.linked.rewired hr) hg₁ hobserver₁ (hsub.op hd) hanchored.not_inside
      hfree
  obtain ⟨nested', hnested', -⟩ := hg.linked.housed.walk_ok hd ho.not_inside
  obtain rfl := hr.nestedOps_eq hnested' hnested
  refine ⟨nested', { s₁ with
    graph := g, observer := .recorder (told.reverse ++ events₁), mutated := true }, hnested', ?_,
    hsub.replaced hlength hremoved⟩
  have hresults : s.graph.results o = .ok d.results := by
    rw [results, hd]
    rfl
  rw [replace_eq, runOn_ask_bind, hresults, ok_bind, if_neg (by simp [hlength])]
  exact (runOn_bind_of_ok hrun₁).trans herase

/-- Of two branches the second one is replaced by the qubit that its gate acts on.  The return
reads that then, and the gate and the yield in the branch are gone. -/
theorem replace_exact_choice :
    ∃ d t, choiceGraph.op ⟨6⟩ = .ok d ∧
      (replace ⟨6⟩ [⟨0⟩]).runOn ⟨choiceGraph, .recorder [], false, false⟩ = .ok (.ok (), t) ∧
      choiceGraph.Replaced ⟨6⟩ d [⟨0⟩] [⟨4⟩, ⟨5⟩] t.graph ∧
      t.graph.uses ⟨0⟩ = [⟨⟨0⟩, 0⟩, ⟨⟨1⟩, 0⟩, ⟨⟨7⟩, 0⟩] := by
  have hroot : choiceGraph.ownerOf? ⟨8⟩ = .ok none := rfl
  have hbranch : Within choiceGraph ⟨8⟩ 1 ⟨6⟩ := .step rfl .root
  obtain ⟨nested, t, hnested, hrun, hreplaced⟩ := replace_exact choiceGraph_function.built
    (s := ⟨choiceGraph, .recorder [], false, false⟩) rfl (o := ⟨6⟩) rfl
    ((Anchored.of_no_owner hroot).within hbranch) [⟨0⟩] rfl (by decide)
  have hops : choiceGraph.nestedOps ⟨6⟩ = .ok [⟨4⟩, ⟨5⟩] := by decide +kernel
  obtain rfl : _ = nested := Except.ok.inj (hops.symm.trans hnested)
  exact ⟨_, t, rfl, hrun, hreplaced, hreplaced.uses (by decide)⟩

end EditM

end Peephole
