import Peephole.Greedy.Config

/-!
# Dispatch

To look at an operation is to *dispatch* it.  A pure operation that nobody reads is
erased, an addition of constants is folded, and otherwise the rules for its kind are
tried, all of this as far as the settings allow it.  At most one reduction is made.

A rule has to tell the truth: one that changes the graph and says that it did not
apply is an edit error.  One that says that it applied and has changed nothing counts
as not applied.
-/

namespace Peephole

/-- What dispatching an operation came to. -/
inductive Verdict where
  /-- Nothing was done. -/
  | idle
  /-- The named reduction was made. -/
  | applied (name : String)
  /-- A reduction failed. -/
  | failed (e : EditError)
deriving DecidableEq

/-- What dispatching an operation leaves. -/
structure Dispatched where
  /-- The graph after it. -/
  graph : Graph
  /-- The observer after it. -/
  observer : Observer
  /-- Whether a rule asked the work to stop. -/
  stopRequested : Bool
  /-- The rules called, in order. -/
  calls : List Call
  /-- What it came to. -/
  verdict : Verdict

/-- What edits leave that came to the given verdict. -/
def Session.dispatched (s : Session) (calls : List Call) (v : Verdict) : Dispatched :=
  ⟨s.graph, s.observer, s.stopRequested, calls, v⟩

/-- Tries rules on an operation until one applies. -/
def tryRules (observer : Observer) (o : OpId) (g : Graph) (stop : Bool) (calls : List Call) :
    List Rule → Except Fault Dispatched
  | [] => return ⟨g, observer, stop, calls, .idle⟩
  | r :: rest => do
      let (answer, s) ← (r.apply o).runOn { graph := g, observer, stopRequested := stop }
      let calls := calls ++ [⟨r.name, o, answer⟩]
      match answer, s.mutated with
      | .error e, _ => return s.dispatched calls (.failed e)
      | .ok .applied, true => return s.dispatched calls (.applied r.name)
      | .ok .noMatch, true => return s.dispatched calls (.failed (.silentChange r.name o))
      | .ok _, false => tryRules s.observer o s.graph s.stopRequested calls rest

/-- Dispatches an operation. -/
def dispatch (c : Config) (rules : RuleSet) (g : Graph) (observer : Observer) (o : OpId) :
    Except Fault Dispatched := do
  let kind ← g.kind o
  if c.removeDead && kind.isPure && (← g.totalUses o) = 0 then
    match ← (EditM.erase o).runOn { graph := g, observer } with
    | (.ok (), s) => return s.dispatched [] (.applied "dead-op-removal")
    | (.error e, s) => return s.dispatched [] (.failed e)
  else if c.fold then
    match ← (EditM.fold o).runOn { graph := g, observer } with
    | (.ok true, s) => return s.dispatched [] (.applied "constant-folding")
    | (.error e, s) => return s.dispatched [] (.failed e)
    | (.ok false, s) => tryRules s.observer o s.graph s.stopRequested [] (rules.rulesFor kind)
  else tryRules observer o g false [] (rules.rulesFor kind)

/-! ## What is looked at in vain -/

/-- A fold that does nothing leaves the session as it is. -/
theorem EditM.fold_false {o : OpId} {s t : Session}
    (h : (EditM.fold o).runOn s = .ok (.ok false, t)) : t = s := by
  rw [fold, runOn_ask_bind, bind_eq_ok] at h
  obtain ⟨sum, -, h⟩ := h
  cases sum with
  | none =>
    cases h
    rfl
  | some sum =>
    -- every way to the end of a fold that finds a sum says that it did something
    rw [runOn_ask_bind, bind_eq_ok] at h
    obtain ⟨d, -, h⟩ := h
    rcases runOn_bind_eq_ok.1 h with ⟨e, -, he⟩ | ⟨new, s₁, -, h⟩
    · cases he
    rw [runOn_ask_bind, bind_eq_ok] at h
    obtain ⟨value, -, h⟩ := h
    rcases runOn_bind_eq_ok.1 h with ⟨e, -, he⟩ | ⟨_, s₂, -, h⟩
    · cases he
    · cases h

/-- Rules that are tried in vain tell the observer nothing. -/
theorem observer_of_tryRules {o : OpId} {d : Dispatched} :
    ∀ {rules : List Rule} {observer : Observer} {g : Graph} {stop : Bool} {calls : List Call},
      tryRules observer o g stop calls rules = .ok d → d.verdict = .idle → d.observer = observer
  | [], observer, g, stop, calls, h, _ => by
      cases h
      rfl
  | r :: rest, observer, g, stop, calls, h, hidle => by
      rw [tryRules, bind_eq_ok] at h
      obtain ⟨⟨answer, s⟩, hrun, h⟩ := h
      dsimp only at h
      split at h
      · cases h
        cases hidle
      · cases h
        cases hidle
      · cases h
        cases hidle
      · rename_i hmutated
        exact (observer_of_tryRules h hidle).trans (r.discreet o hrun hmutated).2

/-- A dispatch that comes to nothing tells the observer nothing. -/
theorem observer_of_dispatch {c : Config} {rules : RuleSet} {g : Graph} {observer : Observer}
    {o : OpId} {d : Dispatched} (h : dispatch c rules g observer o = .ok d)
    (hidle : d.verdict = .idle) : d.observer = observer := by
  rw [dispatch, bind_eq_ok] at h
  obtain ⟨kind, -, h⟩ := h
  rw [bind_eq_ok] at h
  obtain ⟨uses, -, h⟩ := h
  split at h
  · obtain ⟨⟨answer | answer, s⟩, -, h⟩ := bind_eq_ok.1 h
    · cases h
      cases hidle
    · cases h
      cases hidle
  · split at h
    · obtain ⟨⟨answer, s⟩, hrun, h⟩ := bind_eq_ok.1 h
      split at h
      · cases h
        cases hidle
      · cases h
        cases hidle
      · rename_i heq
        cases heq
        have hs := EditM.fold_false hrun
        rw [hs] at h
        exact observer_of_tryRules h hidle
    · exact observer_of_tryRules h hidle

end Peephole
