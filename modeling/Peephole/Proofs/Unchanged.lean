import Peephole.Proofs.Liveness
import Peephole.Proofs.Priority
import Peephole.Proofs.Updates

/-!
# No change without a notice

A session remembers whether there was a change.  A sweep that made none, a rule that says
it did not apply and the replay that looks for a missed reduction all rest on that memory.

Most edits either tell the observer or leave the session as it is (`EditM.Idle`).  An
update is the exception: it may write slots and write them back, and so leave a graph whose
uses stand in another order.
-/

namespace Peephole

open Peephole.Graph

namespace EditM

variable {α β : Type} {allowed : Draft → Prop} {s t : Session}

/-- If the edits do not tell the observer anything, they leave the session as it is. -/
def Idle (m : EditM α) : Prop :=
  ∀ ⦃s t : Session⦄ ⦃answer : Except EditError α⦄, m.runOn s = .ok (answer, t) →
    t.mutated = false → t = s

namespace Idle

theorem bind {m : EditM α} {f : α → EditM β} (hm : m.Idle) (hf : ∀ a, (f a).Idle) :
    (m >>= f).Idle := by
  intro s t answer h ht
  rcases runOn_bind_eq_ok.1 h with ⟨e, hm', -⟩ | ⟨a, s', hm', hf'⟩
  · exact hm hm' ht
  · obtain rfl := hf a hf' ht
    exact hm hm' ht

theorem ask (question : Graph → Except Fault α) : (ask question).Idle := by
  intro s t answer h _
  rw [runOn_ask] at h
  obtain ⟨a, -, ha⟩ := map_eq_ok.1 h
  cases ha
  rfl

theorem redirectUses (old new : ValueId) : (redirectUses old new).Idle := by
  intro s t answer h ht
  obtain ⟨-, ⟨-, rfl⟩ | ⟨-, g, observer, -, -, rfl⟩⟩ := runOn_redirectUses.1 h
  · rfl
  · cases ht

theorem forM {γ : Type} {f : γ → EditM PUnit} (hf : ∀ c, (f c).Idle) :
    ∀ l : List γ, (forM l f).Idle
  | [] => by
      intro s t answer h _
      cases h
      rfl
  | c :: l => by
      rw [List.forM_cons]
      exact (hf c).bind fun _ => forM hf l

theorem erase (o : OpId) : (erase o).Idle := by
  intro s t answer h ht
  obtain ⟨d, n, -, -, ⟨-, -, rfl⟩ | ⟨-, nested, observer, g, -, -, -, -, rfl⟩⟩ := runOn_erase.1 h
  · rfl
  · cases ht

theorem replace (o : OpId) (values : List ValueId) : (replace o values).Idle := by
  rw [replace_eq]
  refine bind (ask _) fun results => ?_
  dsimp only
  split
  · intro s t answer h
    cases h
  · exact bind (forM (fun _ => redirectUses _ _) _) fun _ => erase o

theorem reordered {m : EditM α} (hm : m.Idle) {answer : Except EditError α}
    (h : m.runOn s = .ok (answer, t)) (ht : t.mutated = false) : s.graph.Reordered t.graph := by
  obtain rfl := hm h ht
  exact .refl _

end Idle

/-- An update leaves the operands it found and tells nobody, or it leaves other ones and tells
the observer of it. -/
theorem attemptUpdate_cases {o : OpId} {slots : List (Nat × ValueId)} {ending : Ending}
    {answer : Except EditError (Except Fault (List ValueId))} (hs : s.graph.Coherent)
    (h : (attemptUpdate o slots ending).runOn s = .ok (answer, t)) :
    s.graph.Reordered t.graph ∧ t = { s with graph := t.graph } ∨
      ∃ vs g observer, s.graph.Overwritten o vs g ∧
        s.observer.notify g (.updated o) = .ok observer ∧
        t = { s with graph := g, observer, mutated := true } := by
  cases hstart : Update.start s.graph o with
  | error f =>
    rw [attemptUpdate, runOn_graph_bind, hstart] at h
    cases h
    exact .inl ⟨.refl _, rfl⟩
  | ok u =>
    obtain ⟨d, hd⟩ := isLive_eq_true.1 (start_eq_ok hstart).1
    by_cases hkept : ending.keeps = true ∧ ∀ t ∈ slots, t.1 < d.operands.length
    · obtain ⟨hkeeps, hslots⟩ := hkept
      obtain ⟨g, observer, hg, hn, hrun⟩ := runOn_attemptUpdate_kept hs hd hkeeps hslots
      rw [h] at hrun
      split at hrun
      · rename_i hsame
        cases hrun
        exact .inl ⟨(hsame ▸ hg).reordered hs hd, rfl⟩
      · cases hrun
        exact .inr ⟨_, g, observer, hg, hn, rfl⟩
    · have hundone : ending.keeps = false ∨ ∃ t ∈ slots, d.operands.length ≤ t.1 := by
        by_cases hkeeps : ending.keeps = true
        · simpa [hkeeps] using hkept
        · exact .inl (Bool.eq_false_iff.2 hkeeps)
      obtain ⟨answer', g, hg, hrun⟩ := runOn_attemptUpdate_undone hs hd hundone
      rw [h] at hrun
      cases hrun
      exact .inl ⟨hg, rfl⟩

/-- An update that tells nobody leaves the operands it found. -/
theorem reordered_of_attemptUpdate {o : OpId} {slots : List (Nat × ValueId)} {ending : Ending}
    {answer : Except EditError (Except Fault (List ValueId))} (hs : s.graph.Coherent)
    (h : (attemptUpdate o slots ending).runOn s = .ok (answer, t)) (ht : t.mutated = false) :
    s.graph.Reordered t.graph := by
  rcases attemptUpdate_cases hs h with ⟨hg, -⟩ | ⟨vs, g, observer, -, -, rfl⟩
  · exact hg
  · cases ht

/-- A program of edits that tells nobody leaves the graph as it was, but for the order of
uses. -/
theorem Program.reordered {m : EditM α} (hm : Program allowed m) :
    ∀ {s t : Session} {answer : Except EditError α}, m.runOn s = .ok (answer, t) →
      s.graph.Coherent → t.mutated = false → s.graph.Reordered t.graph := by
  induction hm with
  | pure a =>
    intro s t answer h _ _
    cases h
    exact .refl _
  | ask question =>
    intro s t answer h _ ht
    exact (Idle.ask question).reordered h ht
  | lift x =>
    intro s t answer h _ _
    rw [runOn_lift] at h
    obtain ⟨a, -, ha⟩ := map_eq_ok.1 h
    cases ha
    exact .refl _
  | throw e =>
    intro s t answer h _ _
    cases h
    exact .refl _
  | @bind _ _ m f hm hf ihm ihf =>
    intro s t answer h hs ht
    rcases runOn_bind_eq_ok.1 h with ⟨e, hm', -⟩ | ⟨a, s', hm', hf'⟩
    · exact ihm hm' hs ht
    · -- the first part told nobody either
      have hs' : s'.mutated = false := (((hf a).steps hf').rewired ht).1
      exact (ihm hm' hs hs').trans (ihf a hf' ((hm.steps hm').coherent hs) ht)
  | @recover _ m handler hm hh ihm ihh =>
    intro s t answer h hs ht
    rw [runOn_catch, bind_eq_ok] at h
    obtain ⟨⟨e | a, s'⟩, hm', h⟩ := h
    · have hs' : s'.mutated = false := (((hh e).steps h).rewired ht).1
      exact (ihm hm' hs hs').trans (ihh e h ((hm.steps hm').coherent hs) ht)
    · cases h
      exact ihm hm' hs ht
  | insert _ =>
    intro s t answer h _ ht
    obtain ⟨o, g₁, g₂, observer, -, -, -, -, rfl⟩ := runOn_insert.1 h
    cases ht
  | attemptUpdate o slots ending =>
    intro s t answer h hs ht
    exact reordered_of_attemptUpdate hs h ht
  | redirectUses old new =>
    intro s t answer h _ ht
    exact (Idle.redirectUses old new).reordered h ht
  | erase o =>
    intro s t answer h _ ht
    exact (Idle.erase o).reordered h ht
  | replace o values =>
    intro s t answer h _ ht
    exact (Idle.replace o values).reordered h ht
  | requestStop =>
    intro s t answer h _ _
    cases h
    exact .refl _

end EditM

/-! ## Dispatch -/

variable {c : Config} {rules : RuleSet} {o : OpId} {g : Graph} {observer : Observer}

/-- What is tried on an operation in vain leaves the graph as it was. -/
theorem Tried.reordered {s : Session} (hrules : rules.Programs) (hg : g.Coherent)
    (h : Tried rules g observer o s) : g.Reordered s.graph := by
  induction h with
  | first => exact .refl g
  | afterFold _ hrun ih =>
    cases EditM.fold_false hrun
    exact ih
  | afterRule hs hr hrun hmutated ih =>
    have hrule := (hrules _ hr o).reordered hrun (hs.coherent hrules hg) hmutated
    exact ih.trans hrule

/-- A dispatch that comes to nothing leaves the graph as it was. -/
theorem reordered_of_dispatch {d : Dispatched} (hrules : rules.Programs) (hg : g.Coherent)
    (h : dispatch c rules g observer o = .ok d) (hidle : d.verdict = .idle) :
    g.Reordered d.graph := by
  obtain ⟨s, hs, hgraph⟩ := (dispatch_traced hrules h).idle hidle
  rw [hgraph]
  exact hs.reordered hrules hg

/-- A rule that says that it did not apply, and is not found out, told nobody. -/
theorem mutated_of_noMatch {r : Rule} {rest : List Rule} {stop : Bool} {calls : List Call}
    {d : Dispatched} {t : Session}
    (hrun : (r.apply o).runOn { graph := g, observer, stopRequested := stop } =
      .ok (.ok .noMatch, t))
    (h : tryRules observer o g stop calls (r :: rest) = .ok d)
    (hd : d.verdict ≠ .failed (.silentChange r.name o)) : t.mutated = false := by
  rw [tryRules, hrun, ok_bind] at h
  cases ht : t.mutated with
  | false => rfl
  | true =>
    simp only [ht] at h
    cases h
    exact absurd rfl hd

/-- Edits that end with no change remembered have told the observer nothing and left the
graph as it was, but for the order of uses.  So a dispatch that comes to nothing, and a rule
that says that it did not apply and is not found out, leave it as it was. -/
theorem unmutated_unchanged (hg : g.Coherent) (observer : Observer) :
    (∀ {α : Type} {allowed : Draft → Prop} {m : EditM α} {stop : Bool} {t : Session}
        {answer : Except EditError α}, m.Program allowed →
      m.runOn { graph := g, observer, stopRequested := stop } = .ok (answer, t) →
      t.mutated = false → t.observer = observer ∧ g.Reordered t.graph) ∧
    (∀ {c : Config} {rules : RuleSet} {o : OpId} {d : Dispatched}, rules.Programs →
      dispatch c rules g observer o = .ok d → d.verdict = .idle →
      d.observer = observer ∧ g.Reordered d.graph) ∧
    ∀ {r : Rule} {rest : List Rule} {o : OpId} {stop : Bool} {calls : List Call} {d : Dispatched}
        {t : Session}, (r.apply o).Program (fun _ => True) →
      (r.apply o).runOn { graph := g, observer, stopRequested := stop } = .ok (.ok .noMatch, t) →
      tryRules observer o g stop calls (r :: rest) = .ok d →
      d.verdict ≠ .failed (.silentChange r.name o) →
      t.observer = observer ∧ g.Reordered t.graph := by
  have hprogram : ∀ {α : Type} {allowed : Draft → Prop} {m : EditM α} {stop : Bool} {t : Session}
      {answer : Except EditError α}, m.Program allowed →
      m.runOn { graph := g, observer, stopRequested := stop } = .ok (answer, t) →
      t.mutated = false → t.observer = observer ∧ g.Reordered t.graph := by
    intro α allowed m stop t answer hm hrun ht
    exact ⟨((hm.steps hrun).rewired ht).2.2, hm.reordered hrun hg ht⟩
  refine ⟨hprogram, fun hrules h hidle =>
    ⟨observer_of_dispatch h hidle, reordered_of_dispatch hrules hg h hidle⟩, ?_⟩
  intro r rest o stop calls d t hr hrun h hd
  exact hprogram hr hrun (mutated_of_noMatch hrun h hd)

/-- A rule that writes a slot, thinks better of it and does not apply. -/
def Rule.hesitant : Rule where
  name := "hesitant"
  root := .add
  apply o := do
    let _ ← EditM.attemptUpdate o [(0, ⟨6⟩)] .cancel
    return .noMatch
  discreet o := (EditM.Discreet.attemptUpdate o _ _).bind fun _ => .pure _

theorem Rule.hesitant_program (o : OpId) : (Rule.hesitant.apply o).Program fun _ => True :=
  .bind (.attemptUpdate _ _ _) fun _ => .pure _

/-- The use that was moved away and back has become the last one. -/
theorem unmutated_unchanged_hesitant :
    ∃ g t d, Graph.empty.newOp (.add default ⟨5⟩ ⟨5⟩) = .ok (⟨0⟩, g) ∧
      (Rule.hesitant.apply ⟨0⟩).runOn { graph := g, observer := .recorder [] } =
        .ok (.ok .noMatch, t) ∧
      g.uses ⟨5⟩ = [⟨⟨0⟩, 0⟩, ⟨⟨0⟩, 1⟩] ∧ t.graph.uses ⟨5⟩ = [⟨⟨0⟩, 1⟩, ⟨⟨0⟩, 0⟩] ∧
      (t.observer = .recorder [] ∧ g.Reordered t.graph) ∧
      dispatch { removeDead := false, fold := false } (RuleList.freeze ⟨[.hesitant]⟩) g
        (.recorder []) ⟨0⟩ = .ok d ∧
      d.observer = .recorder [] ∧ g.Reordered d.graph := by
  obtain ⟨g, t, d, hnew, hkind, huses, hrun, hg, ht, hmutated, htry, hd⟩ : ∃ g t d,
      Graph.empty.newOp (.add default ⟨5⟩ ⟨5⟩) = .ok (⟨0⟩, g) ∧
      g.kind ⟨0⟩ = .ok .add ∧ g.totalUses ⟨0⟩ = .ok 0 ∧
      (Rule.hesitant.apply ⟨0⟩).runOn { graph := g, observer := .recorder [] } =
        .ok (.ok .noMatch, t) ∧
      g.uses ⟨5⟩ = [⟨⟨0⟩, 0⟩, ⟨⟨0⟩, 1⟩] ∧ t.graph.uses ⟨5⟩ = [⟨⟨0⟩, 1⟩, ⟨⟨0⟩, 0⟩] ∧
      t.mutated = false ∧
      tryRules (.recorder []) ⟨0⟩ g false [] [.hesitant] = .ok d ∧ d.verdict = .idle :=
    ⟨_, _, _, rfl, rfl, rfl, rfl, rfl, rfl, rfl, rfl, rfl⟩
  have hreach : g.Reachable false := .move .empty (.newOp hnew)
  have hfor : (RuleList.freeze ⟨[.hesitant]⟩).rulesFor .add = [.hesitant] := by
    simp [RuleList.rulesFor_freeze, Rule.hesitant]
  have hdispatch : dispatch { removeDead := false, fold := false }
      (RuleList.freeze ⟨[.hesitant]⟩) g (.recorder []) ⟨0⟩ = .ok d := by
    simp only [dispatch, hkind, huses, ok_bind, hfor]
    exact htry
  have hrules : (RuleList.freeze ⟨[.hesitant]⟩).Programs := by
    rintro r (_ | ⟨_, ⟨⟩⟩)
    exact Rule.hesitant_program
  obtain ⟨hprogram, hidle, -⟩ := unmutated_unchanged hreach.coherent (.recorder [])
  exact ⟨g, t, d, hnew, hrun, hg, ht, hprogram (Rule.hesitant_program _) hrun hmutated, hdispatch,
    hidle hrules hdispatch hd⟩

end Peephole
