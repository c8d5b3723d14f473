import Peephole.Proofs.Liveness

/-!
# Logs of sweeps

A sweep dispatches one operation after the other, and edits are made while an operation is
looked at.  A log lists all this in order: the operations that are dispatched, and each edit
with the sessions before and after it.

Edits that are put together from others come down to the primitive ones.  `Session.Trail` is
a sequence of those.  The rules that are tried on an operation share one trail, since each of
them begins with the session that the one before has left (`dispatch_trail`).  So every
sequence of turns has a log (`Progress.Turns.exists_log`).
-/

namespace Peephole

/-! ## Edits one after the other -/

namespace EditM

/-- The edits that all others are put together from. -/
inductive Primitive where
  /-- An operation is made right before another one. -/
  | insert (anchor : OpId) (d : Draft)
  /-- Slots of an operation are written as one update. -/
  | update (o : OpId) (slots : List (Nat × ValueId)) (ending : Ending)
  /-- The uses of a value are moved to another value. -/
  | redirect (old new : ValueId)
  /-- An operation is erased. -/
  | erase (o : OpId)
  /-- A request to stop. -/
  | stop

namespace Primitive

/-- The edit leads from one session to the other. -/
def Runs (s t : Session) : Primitive → Prop
  | insert anchor d => ∃ answer, (EditM.insert anchor d).runOn s = .ok (answer, t)
  | update o slots ending => ∃ answer, (attemptUpdate o slots ending).runOn s = .ok (answer, t)
  | redirect old new => ∃ answer, (redirectUses old new).runOn s = .ok (answer, t)
  | erase o => ∃ answer, (EditM.erase o).runOn s = .ok (answer, t)
  | stop => ∃ answer, requestStop.runOn s = .ok (answer, t)

/-- What is inserted, if anything, may be. -/
def Allowed (allowed : Draft → Prop) : Primitive → Prop
  | insert _ d => allowed d
  | _ => True

theorem steps {allowed : Draft → Prop} {s t : Session} : ∀ {edit : Primitive},
    edit.Allowed allowed → edit.Runs s t → s.Steps allowed t
  | insert _ _, hd, ⟨_, h⟩ => (Program.insert hd).steps h
  | update _ _ _, _, ⟨_, h⟩ => steps_attemptUpdate h
  | redirect _ _, _, ⟨_, h⟩ => steps_redirectUses h
  | erase _, _, ⟨_, h⟩ => steps_erase h
  | stop, _, ⟨_, h⟩ => Program.requestStop.steps h

end Primitive

end EditM

namespace Session

variable {allowed : Draft → Prop} {s t u : Session}

/-- An edit that was made, and the sessions before and after it. -/
structure Moment where
  edit : EditM.Primitive
  before : Session
  after : Session
  runs : edit.Runs before after

/-- Edits that lead from one session to another, one after the other. -/
inductive Trail (allowed : Draft → Prop) : Session → List Moment → Session → Prop
  | nil {s : Session} : Trail allowed s [] s
  | cons {m : Moment} {ms : List Moment} {t : Session} : m.edit.Allowed allowed →
      Trail allowed m.after ms t → Trail allowed m.before (m :: ms) t

namespace Trail

variable {ms ms' : List Moment} {m : Moment}

theorem of_runs (edit : EditM.Primitive) (hallowed : edit.Allowed allowed) (h : edit.Runs s t) :
    s.Trail allowed [⟨edit, s, t, h⟩] t :=
  .cons (m := ⟨edit, s, t, h⟩) hallowed .nil

theorem trans (h : s.Trail allowed ms t) (h' : t.Trail allowed ms' u) :
    s.Trail allowed (ms ++ ms') u := by
  induction h with
  | nil => exact h'
  | cons hallowed _ ih => exact .cons hallowed (ih h')

theorem steps (h : s.Trail allowed ms t) : s.Steps allowed t := by
  induction h with
  | nil => exact .refl
  | @cons m _ _ hallowed _ ih => exact (EditM.Primitive.steps hallowed m.runs).trans ih

/-- There are edits up to each one of the trail, and from there to its end. -/
theorem around (h : s.Trail allowed ms t) (hm : m ∈ ms) :
    m.edit.Allowed allowed ∧ s.Steps allowed m.before ∧ m.after.Steps allowed t := by
  induction h with
  | nil => cases hm
  | @cons m' _ _ hallowed hrest ih =>
    rcases List.mem_cons.1 hm with rfl | hm
    · exact ⟨hallowed, .refl, hrest.steps⟩
    · obtain ⟨hm, hbefore, hafter⟩ := ih hm
      exact ⟨hm, (EditM.Primitive.steps hallowed m'.runs).trans hbefore, hafter⟩

end Trail

theorem Moment.steps {m : Moment} (h : m.edit.Allowed allowed) :
    m.before.Steps allowed m.after :=
  EditM.Primitive.steps h m.runs

end Session

namespace EditM

variable {allowed : Draft → Prop} {α : Type} {s t : Session}

theorem trail_forM {γ : Type} {f : γ → EditM PUnit} (hf : ∀ (c : γ) {s t : Session} {answer},
    (f c).runOn s = .ok (answer, t) → ∃ ms, s.Trail allowed ms t) :
    ∀ {l : List γ} {s t : Session} {answer}, (forM l f).runOn s = .ok (answer, t) →
      ∃ ms, s.Trail allowed ms t
  | [], s, t, answer, h => by
      cases h
      exact ⟨[], .nil⟩
  | c :: l, s, t, answer, h => by
      rw [List.forM_cons] at h
      rcases runOn_bind_eq_ok.1 h with ⟨e, hc, -⟩ | ⟨_, s', hc, h⟩
      · exact hf c hc
      · obtain ⟨ms, hms⟩ := hf c hc
        obtain ⟨ms', hms'⟩ := trail_forM hf h
        exact ⟨ms ++ ms', hms.trans hms'⟩

theorem trail_redirectUses {old new : ValueId} {answer : Except EditError Unit}
    (h : (redirectUses old new).runOn s = .ok (answer, t)) : ∃ ms, s.Trail allowed ms t :=
  ⟨_, .of_runs (.redirect old new) trivial ⟨answer, h⟩⟩

theorem trail_erase {o : OpId} {answer : Except EditError Unit}
    (h : (erase o).runOn s = .ok (answer, t)) : ∃ ms, s.Trail allowed ms t :=
  ⟨_, .of_runs (.erase o) trivial ⟨answer, h⟩⟩

theorem trail_replace {o : OpId} {values : List ValueId} {answer : Except EditError Unit}
    (h : (replace o values).runOn s = .ok (answer, t)) : ∃ ms, s.Trail allowed ms t := by
  rw [replace_eq, runOn_ask_bind, bind_eq_ok] at h
  obtain ⟨results, -, h⟩ := h
  split at h
  · cases h
  · rcases runOn_bind_eq_ok.1 h with ⟨e, hl, -⟩ | ⟨_, s', hl, h⟩
    · exact trail_forM (fun _ _ _ _ hr => trail_redirectUses hr) hl
    · obtain ⟨ms, hms⟩ := trail_forM (fun _ _ _ _ hr => trail_redirectUses hr) hl
      obtain ⟨ms', hms'⟩ := trail_erase h
      exact ⟨ms ++ ms', hms.trans hms'⟩

/-- A program of edits makes primitive edits, one after the other. -/
theorem Program.trail {m : EditM α} (hm : Program allowed m) :
    ∀ {s t : Session} {answer : Except EditError α}, m.runOn s = .ok (answer, t) →
      ∃ ms, s.Trail allowed ms t := by
  induction hm with
  | pure a =>
    intro s t answer h
    cases h
    exact ⟨[], .nil⟩
  | bind _ _ ihm ihf =>
    intro s t answer h
    rcases runOn_bind_eq_ok.1 h with ⟨e, hm, -⟩ | ⟨a, s', hm, h⟩
    · exact ihm hm
    · obtain ⟨ms, hms⟩ := ihm hm
      obtain ⟨ms', hms'⟩ := ihf a h
      exact ⟨ms ++ ms', hms.trans hms'⟩
  | ask question =>
    intro s t answer h
    rw [runOn_ask] at h
    obtain ⟨a, -, ha⟩ := map_eq_ok.1 h
    cases ha
    exact ⟨[], .nil⟩
  | lift x =>
    intro s t answer h
    rw [runOn_lift] at h
    obtain ⟨a, -, ha⟩ := map_eq_ok.1 h
    cases ha
    exact ⟨[], .nil⟩
  | throw e =>
    intro s t answer h
    cases h
    exact ⟨[], .nil⟩
  | recover _ _ ihm ihh =>
    intro s t answer h
    rw [runOn_catch, bind_eq_ok] at h
    obtain ⟨⟨e | a, s'⟩, hm, h⟩ := h
    · obtain ⟨ms, hms⟩ := ihm hm
      obtain ⟨ms', hms'⟩ := ihh e h
      exact ⟨ms ++ ms', hms.trans hms'⟩
    · cases h
      exact ihm hm
  | @insert anchor d hd =>
    intro s t answer h
    exact ⟨_, .of_runs (.insert anchor d) hd ⟨answer, h⟩⟩
  | attemptUpdate o slots ending =>
    intro s t answer h
    exact ⟨_, .of_runs (.update o slots ending) trivial ⟨answer, h⟩⟩
  | redirectUses old new => exact trail_redirectUses
  | erase o => exact trail_erase
  | replace o values => exact trail_replace
  | requestStop =>
    intro s t answer h
    exact ⟨_, .of_runs .stop trivial ⟨answer, h⟩⟩

/-- Where more may be inserted, programs stay programs. -/
theorem Program.mono {allowed' : Draft → Prop} {m : EditM α} (hm : Program allowed m)
    (h : ∀ d, allowed d → allowed' d) : Program allowed' m := by
  induction hm with
  | pure a => exact .pure a
  | bind _ _ ihm ihf => exact .bind ihm ihf
  | ask question => exact .ask question
  | lift x => exact .lift x
  | throw e => exact .throw e
  | recover _ _ ihm ihh => exact .recover ihm ihh
  | insert hd => exact .insert (h _ hd)
  | attemptUpdate o slots ending => exact .attemptUpdate o slots ending
  | redirectUses old new => exact .redirectUses old new
  | erase o => exact .erase o
  | replace o values => exact .replace o values
  | requestStop => exact .requestStop

end EditM

/-! ## Dispatch -/

section Dispatch

variable {allowed : Draft → Prop} {c : Config} {rules : RuleSet} {g : Graph} {observer : Observer}
  {o : OpId} {d : Dispatched}

/-- The graph and the observer are those of the session. -/
def Dispatched.LeftBy (d : Dispatched) (t : Session) : Prop :=
  d.graph = t.graph ∧ d.observer = t.observer

theorem tryRules_trail {rs : List Rule} (hrs : ∀ r ∈ rs, (r.apply o).Program allowed) {stop : Bool}
    {calls : List Call} (h : tryRules observer o g stop calls rs = .ok d) : ∃ ms t,
      Session.Trail allowed { graph := g, observer, stopRequested := stop } ms t ∧
        d.LeftBy t := by
  induction rs generalizing g observer stop calls with
  | nil =>
    cases h
    exact ⟨[], _, .nil, rfl, rfl⟩
  | cons r rs ih =>
    rw [tryRules, bind_eq_ok] at h
    obtain ⟨⟨answer, t⟩, hrun, h⟩ := h
    obtain ⟨ms, hms⟩ := (hrs r (.head rs)).trail hrun
    dsimp only at h
    split at h
    · cases h
      exact ⟨ms, t, hms, rfl, rfl⟩
    · cases h
      exact ⟨ms, t, hms, rfl, rfl⟩
    · cases h
      exact ⟨ms, t, hms, rfl, rfl⟩
    · -- the next rule is tried in the session that this one has left
      rename_i hmutated
      obtain ⟨ms', t', hms', hleft⟩ := ih (fun r' hr' => hrs r' (.tail r hr')) h
      refine ⟨ms ++ ms', t', hms.trans ?_, hleft⟩
      obtain ⟨g', observer', mutated, stop'⟩ := t
      cases hmutated
      exact hms'

/-- The edits of a dispatch, one after the other. -/
theorem dispatch_trail (hconst : ∀ l x, allowed (.const l x))
    (hrules : ∀ r ∈ rules.rules, ∀ o, (r.apply o).Program allowed)
    (h : dispatch c rules g observer o = .ok d) : ∃ ms t,
      Session.Trail allowed { graph := g, observer } ms t ∧ d.LeftBy t := by
  have hfor : ∀ k, ∀ r ∈ rules.rulesFor k, (r.apply o).Program allowed :=
    fun k r hr => hrules r (RuleSet.mem_rulesFor.1 hr).1 o
  obtain ⟨x, n, -, -, ⟨-, answer, t, hrun, rfl⟩ | ⟨-, ⟨-, answer, t, hrun, h⟩ | ⟨-, h⟩⟩⟩ :=
    dispatch_cases h
  · obtain ⟨ms, hms⟩ := EditM.trail_erase hrun
    exact ⟨ms, t, hms, rfl, rfl⟩
  · obtain ⟨ms, hms⟩ := (EditM.Program.fold hconst o).trail hrun
    split at h
    · subst h
      exact ⟨ms, t, hms, rfl, rfl⟩
    · subst h
      exact ⟨ms, t, hms, rfl, rfl⟩
    · exact tryRules_trail (hfor x.kind) h
  · exact tryRules_trail (hfor x.kind) h

end Dispatch

/-! ## Sweeps -/

/-- What happens in a sweep. -/
inductive SweepEvent where
  /-- An operation is taken off the worklist and dispatched. -/
  | dispatched (o : OpId)
  /-- An edit is made while an operation is looked at. -/
  | edited (m : Session.Moment)

namespace Progress

variable {allowed : Draft → Prop} {c : Config} {rules : RuleSet} {root : OpId} {limit : Limit}
  {p q : Progress}

/-- A log of the turns from one state to another. -/
inductive Logged (allowed : Draft → Prop) (c : Config) (rules : RuleSet) (root : OpId)
    (limit : Limit) (p : Progress) : List SweepEvent → Progress → Prop
  | start : Logged allowed c rules root limit p [] p
  | turn {log : List SweepEvent} {q r : Progress} {o : OpId} {w w' : Worklist}
      {ms : List Session.Moment} {t : Session} : Logged allowed c rules root limit p log q →
      turn c rules root limit q = .ok (.again r) → q.worklist.pop = some (o, w) →
      Session.Trail allowed
        { graph := q.graph, observer := .worklist (w.mark o .inProgress) } ms t →
      r.graph = t.graph → t.observer = .worklist w' → r.worklist = w'.settle o →
      Logged allowed c rules root limit p (log ++ .dispatched o :: ms.map .edited) r

/-- Turns can be logged. -/
theorem Turns.exists_log (hconst : ∀ l x, allowed (.const l x))
    (hrules : ∀ r ∈ rules.rules, ∀ o, (r.apply o).Program allowed)
    (h : p.Turns c rules root limit q) : ∃ log, p.Logged allowed c rules root limit log q := by
  induction h with
  | refl => exact ⟨[], .start⟩
  | @tail q r _ hturn ih =>
    obtain ⟨log, hlog⟩ := ih
    obtain ⟨o, w, d, hpop, hd, hverdict⟩ := turn_again hturn
    obtain ⟨ms, t, hms, hgraph, hobserver⟩ := dispatch_trail hconst hrules hd
    rcases hverdict with ⟨hv, rfl⟩ | ⟨name, -, rfl⟩
    · have hsame := hobserver.symm.trans (observer_of_dispatch hd hv)
      exact ⟨_, .turn hlog hturn hpop hms hgraph hsame rfl⟩
    · obtain ⟨w', hw'⟩ := hms.steps.worklist ⟨_, rfl⟩
      refine ⟨_, .turn hlog hturn hpop hms hgraph hw' ?_⟩
      rw [worklist_reduced, hobserver, hw']
      rfl

end Progress

end Peephole
