import Peephole.Proofs.Edits
import Peephole.Session.Fold
import Mathlib.Logic.Relation

/-!
# Programs of edits

A rule is given a graph and may change it only through the edits of a session.
`EditM.Program` says that an edit is put together in this way: from questions to the
graph, the edits of a session and requests to stop, in any order that its answers may
decide.  `allowed` restricts what may be inserted.

`Session.Step` lists the steps that all of these come down to.  `Program.steps` says
that a program of edits only takes such steps, so what every step keeps is kept by every
program.
-/

namespace Peephole

/-- Edits put together from questions and the edits of a session.  `allowed` says what
may be inserted. -/
inductive EditM.Program (allowed : Draft → Prop) : {α : Type} → EditM α → Prop
  | pure {α : Type} (a : α) : Program allowed (pure a)
  | bind {α β : Type} {m : EditM α} {f : α → EditM β} :
      Program allowed m → (∀ a, Program allowed (f a)) → Program allowed (m >>= f)
  | ask {α : Type} (question : Graph → Except Fault α) : Program allowed (EditM.ask question)
  | lift {α : Type} (x : Except Fault α) : Program allowed (liftM x : EditM α)
  | throw {α : Type} (e : EditError) : Program allowed (throw e : EditM α)
  | recover {α : Type} {m : EditM α} {handler : EditError → EditM α} :
      Program allowed m → (∀ e, Program allowed (handler e)) →
        Program allowed (tryCatchThe EditError m handler)
  | insert {anchor : OpId} {d : Draft} : allowed d → Program allowed (EditM.insert anchor d)
  | attemptUpdate (o : OpId) (slots : List (Nat × ValueId)) (ending : Ending) :
      Program allowed (EditM.attemptUpdate o slots ending)
  | redirectUses (old new : ValueId) : Program allowed (EditM.redirectUses old new)
  | erase (o : OpId) : Program allowed (EditM.erase o)
  | replace (o : OpId) (values : List ValueId) : Program allowed (EditM.replace o values)
  | requestStop : Program allowed EditM.requestStop

/-- One step of a program of edits. -/
inductive Session.Step (allowed : Draft → Prop) (s : Session) : Session → Prop
  /-- An operation is made right before another one. -/
  | insert {anchor o : OpId} {d : Draft} {g₁ g₂ : Graph} {observer : Observer} :
      allowed d → s.graph.newOp d = .ok (o, g₁) → g₁.placeBefore anchor o = .ok g₂ →
      s.observer.notify g₂ (.inserted o) = .ok observer →
      Step allowed s { s with graph := g₂, observer, mutated := true }
  /-- A slot is written while an update is under way. -/
  | write {o : OpId} {i : Nat} {v : ValueId} {g : Graph} :
      s.graph.isLive o = .ok true → s.graph.writeSlot o i v = .ok g →
      Step allowed s { s with graph := g }
  /-- The observer is told of an update. -/
  | updated {o : OpId} {observer : Observer} :
      s.observer.notify s.graph (.updated o) = .ok observer →
      Step allowed s { s with observer, mutated := true }
  /-- The uses of a value are moved to another value. -/
  | redirect {old new : ValueId} {g : Graph} {observer : Observer} :
      s.graph.redirectUses old new = .ok g →
      s.observer.notify g (.replaced old (s.graph.readers old)) = .ok observer →
      Step allowed s { s with graph := g, observer, mutated := true }
  /-- An operation is announced and erased, with what is nested in it. -/
  | erase {o : OpId} {nested : List OpId} {g : Graph} {observer : Observer} :
      s.graph.nestedOps o = .ok nested →
      (nested ++ [o]).foldlM (fun observer o => observer.notify s.graph (.erasing o)) s.observer =
        .ok observer →
      s.graph.erase o = .ok g → Step allowed s { s with graph := g, observer, mutated := true }
  /-- A request to stop. -/
  | stop : Step allowed s { s with stopRequested := true }

/-- Any number of steps. -/
abbrev Session.Steps (allowed : Draft → Prop) : Session → Session → Prop :=
  Relation.ReflTransGen (Session.Step allowed)

namespace EditM

variable {allowed : Draft → Prop} {α β : Type} {s t : Session}

open Relation

/-! ## The steps of each edit -/

theorem steps_redirectUses {old new : ValueId} {answer : Except EditError Unit}
    (h : (redirectUses old new).runOn s = .ok (answer, t)) : s.Steps allowed t := by
  obtain ⟨-, ⟨-, rfl⟩ | ⟨-, g, observer, hg, hn, rfl⟩⟩ := runOn_redirectUses.1 h
  · exact .refl
  · exact .single (.redirect hg hn)

theorem steps_erase {o : OpId} {answer : Except EditError Unit}
    (h : (erase o).runOn s = .ok (answer, t)) : s.Steps allowed t := by
  obtain ⟨d, n, -, -, ⟨-, -, rfl⟩ | ⟨-, nested, observer, g, hnested, hobs, hg, -, rfl⟩⟩ :=
    runOn_erase.1 h
  · exact .refl
  · exact .single (.erase hnested hobs hg)

/-- Replacing one value after the other, then erasing. -/
theorem replace_eq (o : OpId) (values : List ValueId) : replace o values = (do
    let results ← ask fun g => g.results o
    if results.length ≠ values.length then
      throwThe Fault (.replacementCount o results.length values.length)
    forM (results.zip values) fun (old, new) => redirectUses old new
    erase o) := by
  have hloop : ∀ l : List (ValueId × ValueId),
      (forIn l PUnit.unit fun x _ => do
        redirectUses x.1 x.2
        pure (ForInStep.yield PUnit.unit)) = (forM l fun x => redirectUses x.1 x.2) := by
    intro l
    induction l with
    | nil => rfl
    | cons x l ih =>
      rw [List.forIn_cons, List.forM_cons, bind_assoc]
      apply bind_congr
      intro _
      rw [pure_bind]
      exact ih
  simp only [replace, hloop]

theorem steps_forM {γ : Type} {f : γ → EditM PUnit} (hf : ∀ (c : γ) {s t : Session} {answer},
    (f c).runOn s = .ok (answer, t) → s.Steps allowed t) :
    ∀ {l : List γ} {s t : Session} {answer}, (forM l f).runOn s = .ok (answer, t) →
      s.Steps allowed t
  | [], s, t, answer, h => by
      cases h
      exact .refl
  | c :: l, s, t, answer, h => by
      rw [List.forM_cons] at h
      rcases runOn_bind_eq_ok.1 h with ⟨e, hc, -⟩ | ⟨_, s', hc, h⟩
      · exact hf c hc
      · exact (hf c hc).trans (steps_forM hf h)

theorem steps_replace {o : OpId} {values : List ValueId} {answer : Except EditError Unit}
    (h : (replace o values).runOn s = .ok (answer, t)) : s.Steps allowed t := by
  rw [replace_eq, runOn_ask_bind, bind_eq_ok] at h
  obtain ⟨results, -, h⟩ := h
  split at h
  · cases h
  · rcases runOn_bind_eq_ok.1 h with ⟨e, hl, -⟩ | ⟨_, s', hl, h⟩
    · exact steps_forM (fun _ _ _ _ hr => steps_redirectUses hr) hl
    · exact (steps_forM (fun _ _ _ _ hr => steps_redirectUses hr) hl).trans (steps_erase h)

theorem isLive_writeSlot {g g' : Graph} {o : OpId} {i : Nat} {v : ValueId}
    (h : g.writeSlot o i v = .ok g') (p : OpId) : g'.isLive p = g.isLive p := by
  rw [Graph.isLive, Graph.isLive, Graph.slot_writeSlot h]
  split
  · cases g.slot p with
    | ok d => rfl
    | error f => rfl
  · rfl

theorem write_eq_ok {u u' : Update} {g g' : Graph} {i : Nat} {v : ValueId}
    (h : u.write g i v = .ok (u', g')) :
    u'.op = u.op ∧ u'.isOpen = u.isOpen ∧ g.isLive u.op = .ok true ∧
      g.writeSlot u.op i v = .ok g' := by
  simp only [Update.write, Graph.operand, Graph.operands, bind_eq_ok] at h
  obtain ⟨_, ⟨_, ⟨d, hd, -⟩, -⟩, g₁, hw, h⟩ := h
  cases h
  exact ⟨rfl, rfl, Graph.isLive_of_op hd, hw⟩

/-- Writing slots of a live operation is a number of steps, also if a fault ends it. -/
theorem steps_writeAll :
    ∀ {slots : List (Nat × ValueId)} {u u' : Update} {s : Session} {g' : Graph} {f : Option Fault},
      u.writeAll s.graph slots = (u', g', f) → s.graph.isLive u.op = .ok true →
      u'.op = u.op ∧ u'.isOpen = u.isOpen ∧ g'.isLive u.op = .ok true ∧
        s.Steps allowed { s with graph := g' }
  | [], u, u', s, g', f, h, hlive => by
      cases h
      exact ⟨rfl, rfl, hlive, .refl⟩
  | (i, v) :: slots, u, u', s, g', f, h, hlive => by
      rw [Update.writeAll] at h
      split at h
      · rename_i u₁ g₁ hw
        obtain ⟨hop, hopen, hl, hwrite⟩ := write_eq_ok hw
        have hlive₁ : g₁.isLive u.op = .ok true := (isLive_writeSlot hwrite _).trans hl
        obtain ⟨hop', hopen', hlive', hsteps⟩ :=
          steps_writeAll (s := { s with graph := g₁ }) h (hop ▸ hlive₁)
        refine ⟨hop'.trans hop, hopen'.trans hopen, hop ▸ hlive', ?_⟩
        exact ReflTransGen.head (.write hl hwrite) hsteps
      · cases h
        exact ⟨rfl, rfl, hlive, .refl⟩

theorem steps_restore {o : OpId} :
    ∀ {saved : List (Nat × ValueId)} {s : Session} {g' : Graph},
      saved.foldlM (fun g (i, old) => g.writeSlot o i old) s.graph = .ok g' →
      s.graph.isLive o = .ok true → s.Steps allowed { s with graph := g' }
  | [], s, g', h, _ => by
      cases h
      exact .refl
  | (i, v) :: saved, s, g', h, hlive => by
      rw [List.foldlM_cons, bind_eq_ok] at h
      obtain ⟨g₁, hw, h⟩ := h
      have hlive₁ : g₁.isLive o = .ok true := (isLive_writeSlot hw o).trans hlive
      exact ReflTransGen.head (.write hlive hw)
        (steps_restore (s := { s with graph := g₁ }) h hlive₁)

theorem start_eq_ok {g : Graph} {o : OpId} {u : Update} (h : Update.start g o = .ok u) :
    g.isLive o = .ok true ∧ u = ⟨o, [], true⟩ := by
  rw [Update.start, bind_eq_ok] at h
  obtain ⟨live, hlive, h⟩ := h
  cases live with
  | true =>
    cases h
    exact ⟨hlive, rfl⟩
  | false => cases h

theorem steps_commit {u : Update} {g : Graph} {answer : Except EditError Update}
    (h : (commit u g).runOn s = .ok (answer, t)) (hs : s.Steps allowed { s with graph := g }) :
    s.Steps allowed t := by
  obtain ⟨-, ⟨-, observer, hn, rfl⟩ | ⟨-, rfl⟩⟩ := runOn_commit.1 h
  · exact hs.trans (.single (.updated hn))
  · exact hs

theorem steps_restored {u : Update} {g : Graph} {answer : Except EditError Update}
    (h : (restore u g).runOn s = .ok (answer, t)) (hlive : g.isLive u.op = .ok true)
    (hs : s.Steps allowed { s with graph := g }) : s.Steps allowed t := by
  obtain ⟨g', hg, -, rfl⟩ := runOn_restore.1 h
  exact hs.trans (steps_restore (s := { s with graph := g }) hg hlive)

/-- Whatever the ending, the slots are written first and then kept or given back. -/
theorem steps_attemptUpdate {o : OpId} {slots : List (Nat × ValueId)} {ending : Ending}
    {answer : Except EditError (Except Fault (List ValueId))}
    (h : (attemptUpdate o slots ending).runOn s = .ok (answer, t)) : s.Steps allowed t := by
  rw [attemptUpdate, runOn_graph_bind] at h
  split at h
  · cases h
    exact .refl
  · rename_i u hu
    obtain ⟨hlive, rfl⟩ := start_eq_ok hu
    obtain ⟨hop, hopen, hlive', hs⟩ :=
      @steps_writeAll allowed slots ⟨o, [], true⟩ _ s _ _ rfl hlive
    rw [← hop] at hlive'
    split at h
    · rename_i hw
      rw [hw] at hs hlive' hopen
      rcases runOn_bind_eq_ok.1 h with ⟨e, he, -⟩ | ⟨_, s', he, h⟩
      · cases ((runOn_release_givingUp hopen).1 he).2
      · cases h
        exact steps_restored ((runOn_release_givingUp hopen).1 he).1 hlive' hs
    · rename_i hw
      rw [hw] at hs hlive' hopen
      cases hkeeps : ending.keeps with
      | true => exact steps_commit ((runOn_finish_kept hopen hkeeps).1 h).1 hs
      | false =>
        obtain ⟨a, hfinish⟩ := runOn_finish_undone hopen hkeeps
        exact steps_restored (hfinish.1 h).1 hlive' hs

/-! ## Programs -/

theorem runOn_catch (m : EditM α) (handler : EditError → EditM α) (s : Session) :
    (tryCatchThe EditError m handler).runOn s = m.runOn s >>= fun
      | (.ok a, t) => .ok (.ok a, t)
      | (.error e, t) => (handler e).runOn t := by
  show (m.runOn s >>= fun x => _) = _
  apply bind_congr
  rintro ⟨a | a, t⟩
  · rfl
  · rfl

/-- A program of edits takes steps of a session and does nothing else. -/
theorem Program.steps {m : EditM α} (hm : Program allowed m) :
    ∀ {s t : Session} {answer : Except EditError α}, m.runOn s = .ok (answer, t) →
      s.Steps allowed t := by
  induction hm with
  | pure a =>
    intro s t answer h
    cases h
    exact .refl
  | bind _ _ ihm ihf =>
    intro s t answer h
    rcases runOn_bind_eq_ok.1 h with ⟨e, hm, -⟩ | ⟨a, s', hm, h⟩
    · exact ihm hm
    · exact (ihm hm).trans (ihf a h)
  | ask question =>
    intro s t answer h
    rw [runOn_ask] at h
    obtain ⟨a, -, ha⟩ := map_eq_ok.1 h
    cases ha
    exact .refl
  | lift x =>
    intro s t answer h
    rw [runOn_lift] at h
    obtain ⟨a, -, ha⟩ := map_eq_ok.1 h
    cases ha
    exact .refl
  | throw e =>
    intro s t answer h
    cases h
    exact .refl
  | recover _ _ ihm ihh =>
    intro s t answer h
    rw [runOn_catch, bind_eq_ok] at h
    obtain ⟨⟨e | a, s'⟩, hm, h⟩ := h
    · exact (ihm hm).trans (ihh e h)
    · cases h
      exact ihm hm
  | insert hd =>
    intro s t answer h
    obtain ⟨o, g₁, g₂, observer, hnew, hplace, hn, -, rfl⟩ := runOn_insert.1 h
    exact .single (.insert hd hnew hplace hn)
  | attemptUpdate o slots ending => exact steps_attemptUpdate
  | redirectUses old new => exact steps_redirectUses
  | erase o => exact steps_erase
  | replace o values => exact steps_replace
  | requestStop =>
    intro s t answer h
    cases h
    exact .single .stop

/-! ## Edits that are put together from others -/

theorem Program.update (o : OpId) (slots : List (Nat × ValueId)) :
    Program allowed (update o slots) :=
  .bind (.attemptUpdate o slots .commit) fun answer => .bind (.lift answer) fun _ => .pure _

theorem Program.fold (hallowed : ∀ l x, allowed (.const l x)) (o : OpId) :
    Program allowed (fold o) := by
  refine .bind (.ask _) fun answer => ?_
  cases answer with
  | none => exact .pure false
  | some sum =>
    refine .bind (.ask _) fun d => .bind (.insert (hallowed _ _)) fun constant => ?_
    exact .bind (.ask _) fun value => .bind (.replace o [value]) fun _ => .pure true

end EditM

/-! ## Worklists as observers -/

theorem Observer.notify_worklist {w : Worklist} {g : Graph} {n : Notice} {observer : Observer}
    (h : (Observer.worklist w).notify g n = .ok observer) :
    ∃ w', observer = .worklist w' ∧ w.react g n = .ok w' := by
  rw [notify, bind_eq_ok] at h
  obtain ⟨w', hw', h⟩ := h
  cases h
  exact ⟨w', rfl, hw'⟩

/-- An observer that is a worklist stays one. -/
theorem Session.Steps.worklist {allowed : Draft → Prop} {s t : Session} (h : s.Steps allowed t)
    (hs : ∃ w, s.observer = .worklist w) : ∃ w, t.observer = .worklist w := by
  induction h with
  | refl => exact hs
  | @tail s' t _ hstep ih =>
    obtain ⟨w, hw⟩ := ih
    cases hstep with
    | insert _ _ _ hn =>
      rw [hw] at hn
      obtain ⟨w', rfl, -⟩ := Observer.notify_worklist hn
      exact ⟨w', rfl⟩
    | updated hn =>
      rw [hw] at hn
      obtain ⟨w', rfl, -⟩ := Observer.notify_worklist hn
      exact ⟨w', rfl⟩
    | redirect _ hn =>
      rw [hw] at hn
      obtain ⟨w', rfl, -⟩ := Observer.notify_worklist hn
      exact ⟨w', rfl⟩
    | erase _ hn _ =>
      refine foldlM_induction (P := fun observer => ∃ w, observer = .worklist w) ?_ ⟨w, hw⟩ hn
      rintro o - _ observer ⟨w₁, rfl⟩ h₁
      obtain ⟨w', rfl, -⟩ := Observer.notify_worklist h₁
      exact ⟨w', rfl⟩
    | write _ _ => exact ⟨w, hw⟩
    | stop => exact ⟨w, hw⟩

end Peephole
