import Peephole.Session.Update

/-!
# Taking computations apart

Most of the library is written in two monads: questions and changes that may be a
fault, and edits of a session.  This module says how a computation of either kind runs
when it is put together from smaller ones.  The proofs elsewhere peel computations
apart with these lemmas and do not look at the monads themselves.
-/

namespace Peephole

variable {α β : Type}

/-! ## Computations that may be a fault -/

/-- A sequence succeeds if its first part does and the rest does after it. -/
theorem bind_eq_ok {x : Except Fault α} {f : α → Except Fault β} {b : β} :
    x >>= f = .ok b ↔ ∃ a, x = .ok a ∧ f a = .ok b := by
  cases x with
  | ok a => simp [bind, Except.bind]
  | error e => simp [bind, Except.bind]

@[simp]
theorem ok_bind (a : α) (f : α → Except Fault β) : (.ok a : Except Fault α) >>= f = f a := rfl

@[simp]
theorem error_bind (e : Fault) (f : α → Except Fault β) :
    (.error e : Except Fault α) >>= f = .error e := rfl

@[simp]
theorem pure_eq_ok (a : α) : (pure a : Except Fault α) = .ok a := rfl

@[simp]
theorem throw_eq_error (e : Fault) : (throw e : Except Fault α) = .error e := rfl

@[simp]
theorem map_ok (f : α → β) (a : α) : (.ok a : Except Fault α).map f = .ok (f a) := rfl

@[simp]
theorem map_error (f : α → β) (e : Fault) : (.error e : Except Fault α).map f = .error e := rfl

theorem map_eq_ok {x : Except Fault α} {f : α → β} {b : β} :
    x.map f = .ok b ↔ ∃ a, x = .ok a ∧ f a = b := by
  cases x with
  | ok a => simp [Except.map]
  | error e => simp [Except.map]

/-- A change that keeps a property keeps that there is a result with it. -/
theorem exists_map_iff {x : Except Fault α} {f : α → α} {P : α → Prop} (hP : ∀ a, P (f a) ↔ P a) :
    (∃ a, x.map f = .ok a ∧ P a) ↔ ∃ a, x = .ok a ∧ P a := by
  cases x with
  | ok a => simp [hP]
  | error e => simp

theorem entry_eq_ok {x : Option α} {a : α} : entry x = .ok a ↔ x = some a := by
  cases x with
  | none => simp [entry]
  | some b => simp [entry]

/-- A sequence of changes keeps what each of them keeps. -/
theorem foldlM_induction {σ : Type} {P : σ → Prop} {f : σ → α → Except Fault σ} {l : List α} :
    ∀ {s s' : σ}, (∀ a ∈ l, ∀ t t', P t → f t a = .ok t' → P t') → P s →
      l.foldlM f s = .ok s' → P s' := by
  induction l with
  | nil =>
    intro s s' _ hs h
    rw [List.foldlM_nil, pure_eq_ok, Except.ok.injEq] at h
    exact h ▸ hs
  | cons a as ih =>
    intro s s' hf hs h
    rw [List.foldlM_cons, bind_eq_ok] at h
    obtain ⟨t, ht, h⟩ := h
    exact ih (fun b hb => hf b (.tail a hb)) (hf a (.head as) s t hs ht) h

/-! ## Edits -/

namespace EditM

theorem runOn_bind (m : EditM α) (f : α → EditM β) (s : Session) :
    (m >>= f).runOn s = m.runOn s >>= fun
      | (.ok a, t) => (f a).runOn t
      | (.error e, t) => .ok (.error e, t) := by
  show (ExceptT.run (m >>= f)).run s = _
  rw [ExceptT.run_bind, StateT.run_bind]
  apply bind_congr
  rintro ⟨a | a, t⟩
  · rfl
  · rfl

@[simp]
theorem runOn_pure (a : α) (s : Session) : (pure a : EditM α).runOn s = .ok (.ok a, s) := rfl

@[simp]
theorem runOn_get (s : Session) : (get : EditM Session).runOn s = .ok (.ok s, s) := rfl

@[simp]
theorem runOn_set (s t : Session) : (set t : EditM PUnit).runOn s = .ok (.ok ⟨⟩, t) := rfl

@[simp]
theorem runOn_graph (s : Session) : graph.runOn s = .ok (.ok s.graph, s) := rfl

theorem runOn_lift (x : Except Fault α) (s : Session) :
    (liftM x : EditM α).runOn s = x.map fun a => (.ok a, s) := by
  cases x with
  | ok a => rfl
  | error f => rfl

theorem runOn_ask (question : Graph → Except Fault α) (s : Session) :
    (ask question).runOn s = (question s.graph).map fun a => (.ok a, s) := by
  rw [ask, runOn_bind, runOn_get]
  exact runOn_lift (question s.graph) s

/-- After a first part that succeeds, edits go on from where it ended. -/
theorem runOn_bind_of_ok {m : EditM α} {f : α → EditM β} {s t : Session} {a : α}
    (h : m.runOn s = .ok (.ok a, t)) : (m >>= f).runOn s = (f a).runOn t := by
  rw [runOn_bind, h]
  rfl

/-! A sequence of edits that starts with a question is the question, then the rest. -/

@[simp]
theorem runOn_get_bind (f : Session → EditM β) (s : Session) :
    ((get : EditM Session) >>= f).runOn s = (f s).runOn s := runOn_bind_of_ok (runOn_get s)

@[simp]
theorem runOn_graph_bind (f : Graph → EditM β) (s : Session) :
    (graph >>= f).runOn s = (f s.graph).runOn s := runOn_bind_of_ok (runOn_graph s)

@[simp]
theorem runOn_lift_bind (x : Except Fault α) (f : α → EditM β) (s : Session) :
    ((liftM x : EditM α) >>= f).runOn s = x >>= fun a => (f a).runOn s := by
  rw [runOn_bind, runOn_lift]
  cases x with
  | ok a => rfl
  | error e => rfl

@[simp]
theorem runOn_ask_bind (question : Graph → Except Fault α) (f : α → EditM β) (s : Session) :
    (ask question >>= f).runOn s = question s.graph >>= fun a => (f a).runOn s := by
  rw [runOn_bind, runOn_ask]
  cases question s.graph with
  | ok a => rfl
  | error e => rfl

/-- How a sequence of edits comes to its end: the first part fails, or it succeeds and
the rest goes on after it. -/
theorem runOn_bind_eq_ok {m : EditM α} {f : α → EditM β} {s t : Session}
    {answer : Except EditError β} : (m >>= f).runOn s = .ok (answer, t) ↔
      (∃ e, m.runOn s = .ok (.error e, t) ∧ answer = .error e) ∨
        ∃ a s', m.runOn s = .ok (.ok a, s') ∧ (f a).runOn s' = .ok (answer, t) := by
  rw [runOn_bind, bind_eq_ok]
  constructor
  · rintro ⟨⟨e | a, s'⟩, hm, h⟩
    · cases h
      exact .inl ⟨e, hm, rfl⟩
    · exact .inr ⟨a, s', hm, h⟩
  · rintro (⟨e, hm, rfl⟩ | ⟨a, s', hm, h⟩)
    · exact ⟨(.error e, t), hm, rfl⟩
    · exact ⟨(.ok a, s'), hm, h⟩

/-- A fold of questions, as an edit. -/
theorem runOn_foldlM_lift {σ : Type} (f : σ → α → Except Fault σ) (s : Session) :
    ∀ (l : List α) (b : σ), (l.foldlM (fun b a => (liftM (f b a) : EditM σ)) b).runOn s =
      (l.foldlM f b).map fun c => (.ok c, s)
  | [], b => rfl
  | a :: l, b => by
      rw [List.foldlM_cons, List.foldlM_cons, runOn_lift_bind]
      cases f b a with
      | ok c => exact runOn_foldlM_lift f s l c
      | error e => rfl

/-! ## Telling the observer -/

variable {s t : Session}

theorem runOn_changed {g : Graph} {n : Notice} {answer : Except EditError Unit} :
    (changed g n).runOn s = .ok (answer, t) ↔ ∃ observer, s.observer.notify g n = .ok observer ∧
      answer = .ok () ∧ t = { s with graph := g, observer, mutated := true } := by
  simp only [changed, runOn_get_bind, runOn_lift_bind, bind_eq_ok, runOn_set, Except.ok.injEq,
    Prod.mk.injEq]
  constructor
  · rintro ⟨observer, hn, rfl, rfl⟩
    exact ⟨observer, hn, rfl, rfl⟩
  · rintro ⟨observer, hn, rfl, rfl⟩
    exact ⟨observer, hn, rfl, rfl⟩

theorem runOn_announceErasing {os : List OpId} {answer : Except EditError Unit} :
    (announceErasing os).runOn s = .ok (answer, t) ↔ ∃ observer,
      os.foldlM (fun observer o => observer.notify s.graph (.erasing o)) s.observer = .ok observer ∧
      answer = .ok () ∧ t = { s with observer } := by
  rw [announceErasing, runOn_get_bind, runOn_bind_eq_ok, runOn_foldlM_lift]
  constructor
  · rintro (⟨e, h, -⟩ | ⟨observer, s', h, h'⟩)
    · obtain ⟨_, -, he⟩ := map_eq_ok.1 h
      cases he
    · obtain ⟨_, hn, he⟩ := map_eq_ok.1 h
      cases he
      cases h'
      exact ⟨observer, hn, rfl, rfl⟩
  · rintro ⟨observer, hn, rfl, rfl⟩
    exact .inr ⟨observer, s, map_eq_ok.2 ⟨observer, hn, rfl⟩, rfl⟩

end EditM

end Peephole
