import Peephole.Proofs.Coherence
import Peephole.Proofs.Programs

/-!
# Updates are transactions

An update writes slots at once and remembers what each of them held at first, so that
it can be taken back.  Taking it back writes the slots again.  The operands are then what
they were, while a use that was moved away and back stands at another place of its list:
`Graph.Reordered` allows for that and for nothing else.

`Update.Tracks` says what is true while an update is under way.  Every write keeps it,
and both ways to end an update start from it.
-/

namespace Peephole

/-! ## Graphs that differ in the order of uses -/

namespace Graph

variable {g g' : Graph}

/-- Graphs that differ in the order of the uses of a value at most. -/
structure Reordered (g g' : Graph) : Prop where
  /-- The tables are the same. -/
  tables : g' = { g with useLists := g'.useLists }
  /-- Every value has the same uses. -/
  uses (v : ValueId) : (g'.uses v).Perm (g.uses v)

namespace Reordered

theorem refl (g : Graph) : g.Reordered g := ⟨rfl, fun _ => .refl _⟩

theorem trans {g'' : Graph} (h : g.Reordered g') (h' : g'.Reordered g'') : g.Reordered g'' where
  tables := by
    rw [h'.tables, h.tables]
  uses v := (h'.uses v).trans (h.uses v)

theorem slot (h : g.Reordered g') (o : OpId) : g'.slot o = g.slot o := by
  rw [h.tables]
  rfl

theorem coherent (h : g.Reordered g') (hg : g.Coherent) : g'.Coherent := by
  intro v u
  rw [(h.uses v).count_eq, held?_congr (h.slot u.user)]
  exact hg v u

end Reordered

theorem ops_eq_of_slot (h : ∀ o, g'.slot o = g.slot o) : g'.ops = g.ops := by
  apply Array.ext_getElem?
  intro i
  have hi := h ⟨i⟩
  cases hx : g.ops[i]? with
  | some d => exact slot_eq_ok.1 (hi.trans (slot_eq_ok.2 hx))
  | none =>
    cases hy : g'.ops[i]? with
    | none => rfl
    | some d =>
      rw [slot_eq_ok.1 (hi.symm.trans (slot_eq_ok.2 hy))] at hx
      cases hx

/-- In coherent graphs with the same entries, the use lists have the same uses. -/
theorem Coherent.reordered (hg : g.Coherent) (hg' : g'.Coherent) (hslot : ∀ o, g'.slot o = g.slot o)
    (hrest : g' = { g with ops := g'.ops, useLists := g'.useLists }) : g.Reordered g' where
  tables := by
    rw [ops_eq_of_slot hslot] at hrest
    exact hrest
  uses v := by
    rw [List.perm_iff_count]
    intro u
    rw [hg, hg', held?_congr (hslot u.user)]

/-! ## One operation with other operands -/

/-- `g'` is `g` with other operands in one operation. -/
structure Overwritten (g : Graph) (o : OpId) (vs : List ValueId) (g' : Graph) : Prop where
  /-- The other operations are what they were. -/
  slot (p : OpId) :
    g'.slot p = if o = p then (g.slot p).map fun d => { d with operands := vs } else g.slot p
  /-- So are the other tables. -/
  rest : g' = { g with ops := g'.ops, useLists := g'.useLists }
  /-- The use lists follow the operands. -/
  coherent : g'.Coherent

namespace Overwritten

variable {o : OpId} {d : Op} {vs : List ValueId}

theorem start (hg : g.Coherent) (hd : g.op o = .ok d) : g.Overwritten o d.operands g where
  slot p := by
    split
    · rename_i hp
      rw [← hp, slot_of_op hd]
      rfl
    · rfl
  rest := rfl
  coherent := hg

theorem op (h : g.Overwritten o vs g') (hd : g.op o = .ok d) :
    g'.op o = .ok { d with operands := vs } := by
  obtain ⟨hs, he⟩ := op_eq_ok.1 hd
  refine op_eq_ok.2 ⟨?_, he⟩
  rw [h.slot, if_pos rfl, hs]
  rfl

theorem operand (h : g.Overwritten o vs g') (hd : g.op o = .ok d) (i : Nat) :
    g'.operand o i = entry vs[i]? := by
  rw [Graph.operand, operands, h.op hd]
  rfl

/-- Writing a slot that is there always succeeds. -/
theorem writeSlot (h : g.Overwritten o vs g') (hd : g.op o = .ok d) {i : Nat} (v : ValueId)
    (hi : i < vs.length) :
    ∃ g'', g'.writeSlot o i v = .ok g'' ∧ g.Overwritten o (vs.set i v) g'' := by
  have hop := h.op hd
  have hold : vs[i]? = some (vs.get ⟨i, hi⟩) := List.getElem?_eq_getElem hi
  obtain ⟨g'', hw⟩ : ∃ g'', g'.writeSlot o i v = .ok g'' :=
    ⟨_, writeSlot_eq_ok.2 ⟨_, _, slot_of_op hop, hold, rfl⟩⟩
  refine ⟨g'', hw, ?_, ?_, h.coherent.writeSlot (isLive_of_op hop) hw⟩
  · intro p
    rw [slot_writeSlot hw, h.slot]
    split
    · cases g.slot p with
      | ok x => rfl
      | error f => rfl
    · rfl
  · obtain ⟨x, old, -, -, hg''⟩ := writeSlot_eq_ok.1 hw
    split at hg''
    · rw [hg'']
      exact h.rest
    · rw [hg'', h.rest]
      rfl

/-- With its first operands back, the graph is what it was. -/
theorem reordered (h : g.Overwritten o d.operands g') (hg : g.Coherent) (hd : g.op o = .ok d) :
    g.Reordered g' := by
  refine hg.reordered h.coherent ?_ h.rest
  intro p
  rw [h.slot]
  split
  · rename_i hp
    rw [← hp, slot_of_op hd]
    rfl
  · rfl

end Overwritten

end Graph

/-! ## While an update is under way -/

namespace Update

open Peephole.Graph

variable {g g' : Graph} {o : OpId} {d : Op} {saved : List (Nat × ValueId)} {vs : List ValueId}

/-- The operands after some writes: every slot has the value that was written to it last. -/
def lastWritten (slots : List (Nat × ValueId)) (operands : List ValueId) : List ValueId :=
  operands.mapIdx fun i old => (slots.reverse.find? fun t => t.1 = i).elim old Prod.snd

theorem lastWritten_nil (operands : List ValueId) : lastWritten [] operands = operands := by
  apply List.ext_getElem?
  simp [lastWritten]

theorem lastWritten_cons (i : Nat) (v : ValueId) (slots : List (Nat × ValueId))
    (operands : List ValueId) :
    lastWritten ((i, v) :: slots) operands = lastWritten slots (operands.set i v) := by
  apply List.ext_getElem?
  intro j
  simp only [lastWritten, List.getElem?_mapIdx, List.reverse_cons, List.find?_append]
  by_cases hij : i = j
  · subst hij
    rw [List.getElem?_set_self']
    cases slots.reverse.find? fun t => t.1 = i with
    | none => cases operands[i]? <;> simp
    | some t => cases operands[i]? <;> simp
  · rw [List.getElem?_set_ne hij]
    simp [hij]

theorem anyM_eq_ok {α : Type} {p : α → Except Fault Bool} {q : α → Bool} :
    ∀ {l : List α}, (∀ a ∈ l, p a = .ok (q a)) → l.anyM p = .ok (l.any q)
  | [], _ => rfl
  | a :: l, h => by
      rw [List.anyM, h a (.head l), ok_bind, List.any_cons]
      cases q a with
      | true => rfl
      | false => exact anyM_eq_ok fun b hb => h b (.tail a hb)

/-- An update under way.  The operation was `d` in the graph `g`.  It reads `vs` in the
graph `g'` now, and `saved` is remembered of what it read at first. -/
structure Tracks (g : Graph) (o : OpId) (d : Op) (saved : List (Nat × ValueId))
    (vs : List ValueId) (g' : Graph) : Prop where
  op : g.op o = .ok d
  graph : g.Overwritten o vs g'
  length : vs.length = d.operands.length
  /-- What is remembered of a slot is what it held at first. -/
  remembered : ∀ entry ∈ saved, d.operands[entry.1]? = some entry.2
  /-- Slots of which nothing is remembered have not been written. -/
  others : ∀ i, (∀ entry ∈ saved, entry.1 ≠ i) → vs[i]? = d.operands[i]?

namespace Tracks

theorem start (hg : g.Coherent) (hd : g.op o = .ok d) : Tracks g o d [] d.operands g where
  op := hd
  graph := .start hg hd
  length := rfl
  remembered _ h := nomatch h
  others _ _ := rfl

/-- A write to a slot that is there succeeds, and the update goes on. -/
theorem write (h : Tracks g o d saved vs g') {i : Nat} (v : ValueId)
    (hi : i < d.operands.length) : ∃ saved' g'',
      Update.write ⟨o, saved, true⟩ g' i v = .ok (⟨o, saved', true⟩, g'') ∧
      Tracks g o d saved' (vs.set i v) g'' := by
  have hi' : i < vs.length := h.length ▸ hi
  have hnow : vs[i]? = some (vs.get ⟨i, hi'⟩) := List.getElem?_eq_getElem hi'
  have hold : g'.operand o i = .ok (vs.get ⟨i, hi'⟩) := by
    rw [h.graph.operand h.op, hnow]
    rfl
  obtain ⟨g'', hw, hg''⟩ := h.graph.writeSlot h.op v hi'
  have hset : (vs.set i v).length = d.operands.length := by rw [List.length_set, h.length]
  by_cases hany : saved.any fun entry => entry.1 = i
  · refine ⟨saved, g'', ?_, h.op, hg'', hset, h.remembered, ?_⟩
    · simp only [Update.write, hold, ok_bind, hw, hany, if_true]
      rfl
    · intro j hj
      obtain ⟨e, he, hei⟩ := List.any_eq_true.1 hany
      have hij : i ≠ j := of_decide_eq_true hei ▸ hj e he
      rw [List.getElem?_set_ne hij]
      exact h.others j hj
  · -- the slot is written for the first time, so it holds what it held at first
    have hfresh : ∀ entry ∈ saved, entry.1 ≠ i :=
      fun e he hei => hany (List.any_eq_true.2 ⟨e, he, decide_eq_true hei⟩)
    refine ⟨(i, vs.get ⟨i, hi'⟩) :: saved, g'', ?_, h.op, hg'', hset, ?_, ?_⟩
    · simp only [Update.write, hold, ok_bind, hw, hany]
      rfl
    · rintro e (_ | ⟨_, he⟩)
      · rw [← h.others i hfresh]
        exact hnow
      · exact h.remembered e he
    · intro j hj
      rw [List.getElem?_set_ne (hj _ (.head _))]
      exact h.others j fun e he => hj e (.tail _ he)

/-- A write to a slot that is not there is a fault. -/
theorem write_missing (h : Tracks g o d saved vs g') {i : Nat} (v : ValueId)
    (hi : d.operands.length ≤ i) : ∃ f, Update.write ⟨o, saved, true⟩ g' i v = .error f := by
  have hnone : g'.operand o i = entry none := by
    rw [h.graph.operand h.op, List.getElem?_eq_none (h.length ▸ hi)]
  refine ⟨.outOfBounds, ?_⟩
  simp only [Update.write, hnone]
  rfl

/-- Writes go on up to the first slot that is not there. -/
theorem writeAll :
    ∀ (slots : List (Nat × ValueId)) {saved : List (Nat × ValueId)} {vs : List ValueId}
      {g' : Graph}, Tracks g o d saved vs g' → ∃ saved' vs' g'' fault,
        Update.writeAll ⟨o, saved, true⟩ g' slots = (⟨o, saved', true⟩, g'', fault) ∧
        Tracks g o d saved' vs' g'' ∧
        (fault = none ∧ (∀ t ∈ slots, t.1 < d.operands.length) ∧ vs' = lastWritten slots vs ∨
          fault ≠ none ∧ ∃ t ∈ slots, d.operands.length ≤ t.1)
  | [], saved, vs, g', h => by
      refine ⟨saved, vs, g', none, rfl, h, .inl ⟨rfl, ?_, (lastWritten_nil vs).symm⟩⟩
      rintro t ⟨⟩
  | (i, v) :: slots, saved, vs, g', h => by
      rw [Update.writeAll]
      by_cases hi : i < d.operands.length
      · obtain ⟨saved₁, g₁, hw, h₁⟩ := h.write v hi
        obtain ⟨saved', vs', g'', fault, hall, h', hend⟩ := h₁.writeAll slots
        refine ⟨saved', vs', g'', fault, by rw [hw]; exact hall, h', ?_⟩
        rcases hend with ⟨hf, hin, hvs⟩ | ⟨hf, t, ht, hout⟩
        · refine .inl ⟨hf, ?_, hvs.trans (lastWritten_cons i v slots vs).symm⟩
          rintro t (_ | ⟨_, ht⟩)
          · exact hi
          · exact hin t ht
        · exact .inr ⟨hf, t, .tail _ ht, hout⟩
      · obtain ⟨f, hf⟩ := h.write_missing v (Nat.le_of_not_lt hi)
        refine ⟨saved, vs, g', some f, by rw [hf], h, .inr ⟨by simp, (i, v), .head _, ?_⟩⟩
        exact Nat.le_of_not_lt hi

/-! ## The two ways to end it -/

/-- The operands are the first ones if every slot holds what is remembered of it. -/
theorem eq_iff (h : Tracks g o d saved vs g') :
    vs = d.operands ↔ ∀ entry ∈ saved, vs[entry.1]? = some entry.2 := by
  constructor
  · rintro rfl
    exact h.remembered
  · intro hall
    apply List.ext_getElem?
    intro i
    by_cases hi : ∃ entry ∈ saved, entry.1 = i
    · obtain ⟨e, he, rfl⟩ := hi
      rw [hall e he, h.remembered e he]
    · exact h.others i fun e he hei => hi ⟨e, he, hei⟩

theorem isChange (h : Tracks g o d saved vs g') :
    Update.isChange ⟨o, saved, true⟩ g' = .ok (decide (vs ≠ d.operands)) := by
  have hslot : ∀ e ∈ saved.reverse, (do return (← g'.operand o e.1) ≠ e.2) =
      (.ok (decide (vs[e.1]? ≠ some e.2)) : Except Fault Bool) := by
    intro e he
    have hin := h.remembered e (List.mem_reverse.1 he)
    have hlt : e.1 < vs.length := h.length ▸ (List.getElem?_eq_some_iff.1 hin).1
    rw [h.graph.operand h.op, List.getElem?_eq_getElem hlt]
    simp [entry]
  rw [Update.isChange, anyM_eq_ok hslot, Except.ok.injEq, Bool.eq_iff_iff, List.any_eq_true,
    decide_eq_true_iff, ne_eq, h.eq_iff]
  simp

/-- Writing back what is remembered gives the operation its first operands. -/
theorem restore :
    ∀ {saved : List (Nat × ValueId)} {vs : List ValueId} {g' : Graph},
      Tracks g o d saved vs g' →
      ∃ g'', Update.restore ⟨o, saved, true⟩ g' = .ok g'' ∧ g.Overwritten o d.operands g''
  | [], vs, g', h => by
      have hvs : vs = d.operands := by
        apply List.ext_getElem?
        intro i
        apply h.others
        rintro e ⟨⟩
      exact ⟨g', rfl, hvs ▸ h.graph⟩
  | (i, old) :: saved, vs, g', h => by
      have hold : d.operands[i]? = some old := h.remembered _ (.head _)
      have hi : i < vs.length := h.length ▸ (List.getElem?_eq_some_iff.1 hold).1
      obtain ⟨g₁, hw, hg₁⟩ := h.graph.writeSlot h.op old hi
      have h₁ : Tracks g o d saved (vs.set i old) g₁ := by
        refine ⟨h.op, hg₁, ?_, fun e he => h.remembered e (.tail _ he), ?_⟩
        · rw [List.length_set, h.length]
        · intro j hj
          by_cases hij : i = j
          · rw [← hij, List.getElem?_set_self hi, hold]
          · rw [List.getElem?_set_ne hij]
            apply h.others
            rintro e (_ | ⟨_, he⟩)
            · exact hij
            · exact hj e he
      obtain ⟨g'', hr, hg''⟩ := h₁.restore
      refine ⟨g'', ?_, hg''⟩
      simp only [Update.restore, List.foldlM_cons, hw, ok_bind]
      exact hr

end Tracks

end Update

/-! ## Updates of a session -/

namespace EditM

open Peephole.Graph

variable {s : Session} {o : OpId} {d : Op} {saved : List (Nat × ValueId)} {vs : List ValueId}
  {g : Graph}

theorem start_ok (hd : g.op o = .ok d) : Update.start g o = .ok ⟨o, [], true⟩ := by
  rw [Update.start, isLive_of_op hd]
  rfl

/-- Every observer can be told of an update of a live operation. -/
theorem notify_updated (hd : g.op o = .ok d) (observer : Observer) :
    ∃ observer', observer.notify g (.updated o) = .ok observer' := by
  have hoperands : g.operands o = .ok d.operands := by
    rw [operands, hd]
    rfl
  obtain ⟨users, husers⟩ : ∃ users, g.users o = .ok users :=
    ⟨_, by rw [users, results, hd]; rfl⟩
  cases observer with
  | silent => exact ⟨_, rfl⟩
  | recorder events =>
    refine ⟨.recorder (.updated o d.operands users :: events), ?_⟩
    rw [Observer.notify, Event.ofNotice, hoperands, ok_bind, husers]
    rfl
  | worklist w =>
    refine ⟨.worklist ((w.queue o).queueAll users), ?_⟩
    rw [Observer.notify, Worklist.react, husers]
    rfl

/-- Taking an update back leaves everything but the order of uses as it was. -/
theorem runOn_restore_tracked (hs : s.graph.Coherent) (h : Update.Tracks s.graph o d saved vs g) :
    ∃ g', (restore ⟨o, saved, true⟩ g).runOn s =
        .ok (.ok ⟨o, saved, false⟩, { s with graph := g' }) ∧ s.graph.Reordered g' := by
  obtain ⟨g', hr, hg'⟩ := h.restore
  exact ⟨g', runOn_restore.2 ⟨g', hr, rfl, rfl⟩, hg'.reordered hs h.op⟩

/-- Committing an update tells the observer once if the operands changed. -/
theorem runOn_commit_tracked (h : Update.Tracks s.graph o d saved vs g) :
    ∃ observer, s.observer.notify g (.updated o) = .ok observer ∧
      (commit ⟨o, saved, true⟩ g).runOn s = .ok (.ok ⟨o, saved, false⟩,
        if vs = d.operands then { s with graph := g }
        else { s with graph := g, observer, mutated := true }) := by
  obtain ⟨observer, hn⟩ := notify_updated (h.graph.op h.op) s.observer
  refine ⟨observer, hn, runOn_commit.2 ⟨rfl, ?_⟩⟩
  by_cases hvs : vs = d.operands
  · refine .inr ⟨?_, if_pos hvs⟩
    rw [h.isChange, decide_eq_false fun hne => hne hvs]
  · refine .inl ⟨?_, observer, hn, if_neg hvs⟩
    rw [h.isChange, decide_eq_true hvs]

/-- An update that is kept and whose slots are all there. -/
theorem runOn_attemptUpdate_kept (hs : s.graph.Coherent) (hd : s.graph.op o = .ok d)
    {slots : List (Nat × ValueId)} {ending : Ending} (hkeeps : ending.keeps = true)
    (hslots : ∀ t ∈ slots, t.1 < d.operands.length) :
    ∃ g observer, s.graph.Overwritten o (Update.lastWritten slots d.operands) g ∧
      s.observer.notify g (.updated o) = .ok observer ∧
      (attemptUpdate o slots ending).runOn s =
        .ok (.ok (.ok (Update.lastWritten slots d.operands)),
          if Update.lastWritten slots d.operands = d.operands then { s with graph := g }
          else { s with graph := g, observer, mutated := true }) := by
  obtain ⟨saved, vs, g, fault, hw, h, hend⟩ := (Update.Tracks.start hs hd).writeAll slots
  rcases hend with ⟨rfl, -, rfl⟩ | ⟨-, t, ht, hout⟩
  · obtain ⟨observer, hn, hc⟩ := runOn_commit_tracked h
    have hoperands : g.operands o = .ok (Update.lastWritten slots d.operands) := by
      rw [operands, h.graph.op hd]
      rfl
    refine ⟨g, observer, h.graph, hn, ?_⟩
    simp only [attemptUpdate, runOn_graph_bind, start_ok hd, hw]
    exact (runOn_finish_kept rfl hkeeps).2 ⟨hc, congrArg Except.ok hoperands.symm⟩
  · exact absurd (hslots t ht) (Nat.not_lt.2 hout)

/-- An update that is taken back, or that writes to a slot that is not there. -/
theorem runOn_attemptUpdate_undone (hs : s.graph.Coherent) (hd : s.graph.op o = .ok d)
    {slots : List (Nat × ValueId)} {ending : Ending}
    (hundone : ending.keeps = false ∨ ∃ t ∈ slots, d.operands.length ≤ t.1) :
    ∃ answer g, s.graph.Reordered g ∧
      (attemptUpdate o slots ending).runOn s = .ok (.ok answer, { s with graph := g }) := by
  obtain ⟨saved, vs, g, fault, hw, h, hend⟩ := (Update.Tracks.start hs hd).writeAll slots
  obtain ⟨g', hr, hg'⟩ := runOn_restore_tracked hs h
  simp only [attemptUpdate, runOn_graph_bind, start_ok hd, hw]
  cases fault with
  | some f =>
    exact ⟨.error f, g', hg', runOn_bind_of_ok ((runOn_release_givingUp rfl).2 ⟨hr, rfl⟩)⟩
  | none =>
    rcases hend with ⟨-, hin, -⟩ | ⟨hf, -⟩
    · obtain hkeeps | ⟨t, ht, hout⟩ := hundone
      · obtain ⟨answer, hfinish⟩ :=
          runOn_finish_undone (u := ⟨o, saved, true⟩) (g := g) rfl hkeeps
        exact ⟨answer, g', hg', hfinish.2 ⟨hr, rfl⟩⟩
      · exact absurd (hin t ht) (Nat.not_lt.2 hout)
    · exact absurd rfl hf

/-- An update that is cancelled, that its owner gives up or that a fault ends leaves the
session with a graph that differs in the order of uses at most.  One that is committed, or let
go without a word, leaves in every slot the value that was written to it last, and tells the
observer, once, if the operands are then other ones than at first. -/
theorem attemptUpdate_transaction (hs : s.graph.Coherent) (hd : s.graph.op o = .ok d)
    (slots : List (Nat × ValueId)) (ending : Ending) :
    ((ending = .cancel ∨ ending = .abandon ∨ ∃ t ∈ slots, d.operands.length ≤ t.1) →
      ∃ answer g, s.graph.Reordered g ∧
        (attemptUpdate o slots ending).runOn s = .ok (.ok answer, { s with graph := g })) ∧
    ((ending = .commit ∨ ending = .drop) → (∀ t ∈ slots, t.1 < d.operands.length) →
      ∃ g observer, s.graph.Overwritten o (Update.lastWritten slots d.operands) g ∧
        s.observer.notify g (.updated o) = .ok observer ∧
        (attemptUpdate o slots ending).runOn s =
          .ok (.ok (.ok (Update.lastWritten slots d.operands)),
            if Update.lastWritten slots d.operands = d.operands then { s with graph := g }
            else { s with graph := g, observer, mutated := true })) := by
  constructor
  · rintro (rfl | rfl | hout)
    · exact runOn_attemptUpdate_undone hs hd (.inl rfl)
    · exact runOn_attemptUpdate_undone hs hd (.inl rfl)
    · exact runOn_attemptUpdate_undone hs hd (.inr hout)
  · rintro (rfl | rfl) hslots
    · exact runOn_attemptUpdate_kept hs hd rfl hslots
    · exact runOn_attemptUpdate_kept hs hd rfl hslots

/-- Two operands change places, and change back if the update is cancelled.  They do not if it
is dropped. -/
theorem attemptUpdate_transaction_swap :
    ∃ g, Graph.empty.newOp (.add default ⟨5⟩ ⟨6⟩) = .ok (⟨0⟩, g) ∧
      (∃ answer g', g.Reordered g' ∧
        (attemptUpdate ⟨0⟩ [(0, ⟨6⟩), (1, ⟨5⟩)] .cancel).runOn ⟨g, .silent, false, false⟩ =
          .ok (.ok answer, ⟨g', .silent, false, false⟩)) ∧
      (∃ g', g.Overwritten ⟨0⟩ [⟨6⟩, ⟨5⟩] g' ∧
        (attemptUpdate ⟨0⟩ [(0, ⟨6⟩), (1, ⟨5⟩)] .commit).runOn ⟨g, .silent, false, false⟩ =
          .ok (.ok (.ok [⟨6⟩, ⟨5⟩]), ⟨g', .silent, true, false⟩)) ∧
      ∃ g', g.Overwritten ⟨0⟩ [⟨6⟩, ⟨5⟩] g' ∧
        (attemptUpdate ⟨0⟩ [(0, ⟨6⟩), (1, ⟨5⟩)] .drop).runOn ⟨g, .silent, false, false⟩ =
          .ok (.ok (.ok [⟨6⟩, ⟨5⟩]), ⟨g', .silent, true, false⟩) := by
  obtain ⟨g, h⟩ : ∃ g, Graph.empty.newOp (.add default ⟨5⟩ ⟨6⟩) = .ok (⟨0⟩, g) := ⟨_, rfl⟩
  have hreach : g.Reachable false := .move .empty (.newOp h)
  have hd : g.op ⟨0⟩ = .ok (Draft.made (.add default ⟨5⟩ ⟨6⟩) (empty.nextValues 1)) :=
    op_eq_ok.2 ⟨by rw [slot_newOp h, if_pos rfl]; rfl, rfl⟩
  have hrun := attemptUpdate_transaction (s := ⟨g, .silent, false, false⟩)
    hreach.coherent hd [(0, ⟨6⟩), (1, ⟨5⟩)]
  obtain ⟨g₁, observer, hover₁, hn, hcommit⟩ := (hrun .commit).2 (.inl rfl) (by decide)
  cases hn
  obtain ⟨g₂, observer, hover₂, hn, hdrop⟩ := (hrun .drop).2 (.inr rfl) (by decide)
  cases hn
  exact ⟨g, h, (hrun .cancel).1 (.inl rfl), ⟨g₁, hover₁, hcommit⟩, g₂, hover₂, hdrop⟩

end EditM

end Peephole
