import Peephole.Proofs.Programs

/-!
# Edits that tell nobody

A program of edits that ends with nothing told to the observer has not looked at the
observer at all.  It runs the same way in every session on that graph (`Program.quiet`).
This is what makes an operation that was looked at in vain stay settled: looking at it
again, with another worklist or with none, does nothing either.

Edits that end with an erasure tell the observer whenever they succeed, so a fold or a rule
of the pass that tells nobody has done nothing.
-/

namespace Peephole.EditM

variable {α β : Type} {s t : Session}

/-- If the edits neither tell the observer anything nor ask to stop, they do the same in
every session on the graph. -/
def Quiet (m : EditM α) : Prop :=
  ∀ ⦃s t : Session⦄ ⦃answer : Except EditError α⦄, m.runOn s = .ok (answer, t) →
    t.mutated = false → t.stopRequested = false → s.mutated = false ∧ s.stopRequested = false ∧
      ∀ observer mutated stop, m.runOn ⟨s.graph, observer, mutated, stop⟩ =
        .ok (answer, ⟨t.graph, observer, mutated, stop⟩)

namespace Quiet

/-- Edits that only look at the graph are quiet. -/
theorem of_question {m : EditM α} (question : Graph → Except Fault (Except EditError α))
    (hm : ∀ s, m.runOn s = (question s.graph).map fun a => (a, s)) : m.Quiet := by
  intro s t answer h hmutated hstop
  rw [hm] at h
  obtain ⟨a, ha, heq⟩ := map_eq_ok.1 h
  cases heq
  refine ⟨hmutated, hstop, ?_⟩
  intro observer mutated stop
  rw [hm, ha, map_ok]

theorem pure (a : α) : (pure a : EditM α).Quiet := of_question (fun _ => .ok (.ok a)) fun _ => rfl

theorem throw (e : EditError) : (throw e : EditM α).Quiet :=
  of_question (fun _ => .ok (.error e)) fun _ => rfl

theorem lift (x : Except Fault α) : (liftM x : EditM α).Quiet := by
  refine of_question (fun _ => x.map .ok) fun s => ?_
  rw [runOn_lift]
  cases x with
  | ok a => rfl
  | error f => rfl

theorem ask (question : Graph → Except Fault α) : (ask question).Quiet := by
  refine of_question (fun g => (question g).map .ok) fun s => ?_
  rw [runOn_ask]
  cases question s.graph with
  | ok a => rfl
  | error f => rfl

theorem bind {m : EditM α} {f : α → EditM β} (hm : m.Quiet) (hf : ∀ a, (f a).Quiet) :
    (m >>= f).Quiet := by
  intro s t answer h hmutated hstop
  rcases runOn_bind_eq_ok.1 h with ⟨e, hm', rfl⟩ | ⟨a, s', hm', hf'⟩
  · obtain ⟨hs, hs', hrun⟩ := hm hm' hmutated hstop
    refine ⟨hs, hs', ?_⟩
    intro observer mutated stop
    exact runOn_bind_eq_ok.2 (.inl ⟨e, hrun observer mutated stop, rfl⟩)
  · obtain ⟨hmid, hmid', hrest⟩ := hf a hf' hmutated hstop
    obtain ⟨hs, hs', hrun⟩ := hm hm' hmid hmid'
    refine ⟨hs, hs', ?_⟩
    intro observer mutated stop
    rw [runOn_bind_of_ok (hrun observer mutated stop)]
    exact hrest observer mutated stop

theorem forM {γ : Type} {f : γ → EditM PUnit} (hf : ∀ c, (f c).Quiet) :
    ∀ l : List γ, (forM l f).Quiet
  | [] => pure _
  | c :: l => by
      rw [List.forM_cons]
      exact (hf c).bind fun _ => forM hf l

theorem redirectUses (old new : ValueId) : (redirectUses old new).Quiet := by
  intro s t answer h hmutated hstop
  obtain ⟨rfl, ⟨hidle, rfl⟩ | ⟨-, g, observer, -, -, rfl⟩⟩ := runOn_redirectUses.1 h
  · refine ⟨hmutated, hstop, ?_⟩
    intro observer mutated stop
    exact runOn_redirectUses.2 ⟨rfl, .inl ⟨hidle, rfl⟩⟩
  · cases hmutated

theorem erase (o : OpId) : (erase o).Quiet := by
  intro s t answer h hmutated hstop
  obtain ⟨d, n, hd, hn, ⟨hpos, rfl, rfl⟩ | ⟨-, nested, observer, g, -, -, -, -, rfl⟩⟩ :=
    runOn_erase.1 h
  · refine ⟨hmutated, hstop, ?_⟩
    intro observer mutated stop
    exact runOn_erase.2 ⟨d, n, hd, hn, .inl ⟨hpos, rfl, rfl⟩⟩
  · cases hmutated

theorem replace (o : OpId) (values : List ValueId) : (replace o values).Quiet := by
  rw [replace_eq]
  refine bind (ask _) fun results => ?_
  dsimp only
  split
  · intro s t answer h
    cases h
  · exact bind (forM (fun _ => redirectUses _ _) _) fun _ => erase o

theorem restore (u : Update) (g : Graph) : (restore u g).Quiet := by
  intro s t answer h hmutated hstop
  obtain ⟨g', hg', rfl, rfl⟩ := runOn_restore.1 h
  refine ⟨hmutated, hstop, ?_⟩
  intro observer mutated stop
  exact runOn_restore.2 ⟨g', hg', rfl, rfl⟩

/-- A commit tells the observer if it changes something. -/
theorem commit (u : Update) (g : Graph) : (commit u g).Quiet := by
  intro s t answer h hmutated hstop
  obtain ⟨rfl, ⟨-, observer, -, rfl⟩ | ⟨hchange, rfl⟩⟩ := runOn_commit.1 h
  · cases hmutated
  · refine ⟨hmutated, hstop, ?_⟩
    intro observer mutated stop
    exact runOn_commit.2 ⟨rfl, .inr ⟨hchange, rfl⟩⟩

theorem release (u : Update) (g : Graph) (givingUp : Bool) : (release u g givingUp).Quiet := by
  rw [EditM.release]
  split
  · cases givingUp with
    | true => exact bind (restore u g) fun _ => pure ()
    | false => exact bind (commit u g) fun _ => pure ()
  · exact pure ()

theorem finish (u : Update) (g : Graph) (ending : Ending) : (finish u g ending).Quiet := by
  cases ending with
  | commit => exact bind (commit u g) fun u => bind (release u g false) fun _ => pure _
  | cancel => exact bind (restore u g) fun u => bind (release u g false) fun _ => pure _
  | drop => exact bind (release u g false) fun _ => pure _
  | abandon => exact bind (release u g true) fun _ => pure _

theorem attemptUpdate (o : OpId) (slots : List (Nat × ValueId)) (ending : Ending) :
    (attemptUpdate o slots ending).Quiet := by
  have hgraph : graph.Quiet := of_question (fun g => .ok (.ok g)) fun _ => rfl
  refine bind hgraph fun g => ?_
  split
  · exact pure _
  · split
    · exact bind (release _ _ true) fun _ => pure _
    · exact finish _ _ ending

theorem recover {m : EditM α} {handler : EditError → EditM α} (hm : m.Quiet)
    (hhandler : ∀ e, (handler e).Quiet) : (tryCatchThe EditError m handler).Quiet := by
  intro s t answer h hmutated hstop
  rw [runOn_catch, bind_eq_ok] at h
  obtain ⟨⟨a | e, s'⟩, hm', h⟩ := h
  · obtain ⟨hmid, hmid', hrest⟩ := hhandler a h hmutated hstop
    obtain ⟨hs, hs', hrun⟩ := hm hm' hmid hmid'
    refine ⟨hs, hs', ?_⟩
    intro observer mutated stop
    rw [runOn_catch, hrun observer mutated stop]
    exact hrest observer mutated stop
  · cases h
    obtain ⟨hs, hs', hrun⟩ := hm hm' hmutated hstop
    refine ⟨hs, hs', ?_⟩
    intro observer mutated stop
    rw [runOn_catch, hrun observer mutated stop]
    rfl

end Quiet

/-- Programs of edits are quiet. -/
theorem Program.quiet {allowed : Draft → Prop} {m : EditM α} (hm : Program allowed m) :
    m.Quiet := by
  induction hm with
  | pure a => exact .pure a
  | bind _ _ ihm ihf => exact .bind ihm ihf
  | ask question => exact .ask question
  | lift x => exact .lift x
  | throw e => exact .throw e
  | recover _ _ ihm ihh => exact .recover ihm ihh
  | insert _ =>
    intro s t answer h hmutated
    obtain ⟨o, g₁, g₂, observer, -, -, -, -, rfl⟩ := runOn_insert.1 h
    cases hmutated
  | attemptUpdate o slots ending => exact .attemptUpdate o slots ending
  | redirectUses old new => exact .redirectUses old new
  | erase o => exact .erase o
  | replace o values => exact .replace o values
  | requestStop =>
    intro s t answer h _ hstop
    cases h
    cases hstop

/-! ## Edits that tell somebody -/

/-- If the edits succeed, the observer has been told of a change. -/
def Tells (m : EditM α) : Prop :=
  ∀ ⦃s t : Session⦄ ⦃a : α⦄, m.runOn s = .ok (.ok a, t) → t.mutated = true

namespace Tells

theorem bind {m : EditM α} {f : α → EditM β} (hf : ∀ a, (f a).Tells) : (m >>= f).Tells := by
  intro s t b h
  rcases runOn_bind_eq_ok.1 h with ⟨e, -, he⟩ | ⟨a, s', -, h⟩
  · cases he
  · exact hf a h

theorem erase (o : OpId) (a : α) : (EditM.erase o >>= fun _ => Pure.pure a).Tells := by
  intro s t b h
  rcases runOn_bind_eq_ok.1 h with ⟨e, -, he⟩ | ⟨_, s', h, h'⟩
  · cases he
  · cases h'
    obtain ⟨d, n, -, -, ⟨-, he, -⟩ | ⟨-, nested, observer, g, -, -, -, -, rfl⟩⟩ := runOn_erase.1 h
    · cases he
    · rfl

end Tells

theorem runOn_fold_none {o : OpId} (h : s.graph.foldedSum? o = .ok none) :
    (fold o).runOn s = .ok (.ok false, s) := by
  rw [fold, runOn_ask_bind, h]
  rfl

/-- A fold that did nothing found nothing to fold. -/
theorem runOn_fold_false {o : OpId} (h : (fold o).runOn s = .ok (.ok false, t)) :
    s.graph.foldedSum? o = .ok none := by
  rw [fold, runOn_ask_bind, bind_eq_ok] at h
  obtain ⟨sum, hsum, h⟩ := h
  cases sum with
  | none => exact hsum
  | some sum =>
    obtain ⟨d, -, h⟩ := bind_eq_ok.1 ((runOn_ask_bind _ _ _).symm.trans h)
    rcases runOn_bind_eq_ok.1 h with ⟨e, -, he⟩ | ⟨constant, s', -, h⟩
    · cases he
    obtain ⟨value, -, h⟩ := bind_eq_ok.1 ((runOn_ask_bind _ _ _).symm.trans h)
    rcases runOn_bind_eq_ok.1 h with ⟨e, -, he⟩ | ⟨_, s'', -, h⟩
    · cases he
    · cases h

end Peephole.EditM
