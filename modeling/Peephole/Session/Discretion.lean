import Peephole.Session.Computation
import Peephole.Session.Fold

/-!
# Discreet edits

A session remembers whether there was a change, and its observer is told of every change.
Edits are *discreet* if the two go together: when they end with no change remembered, the
observer is the one they were given.  The edits of a session are discreet, and so is
everything that is put together from them.
-/

namespace Peephole.EditM

variable {α β : Type}

/-- If no change is remembered after the edits, none was before, and the observer was told
nothing. -/
def Discreet (m : EditM α) : Prop :=
  ∀ ⦃s t : Session⦄ ⦃answer : Except EditError α⦄, m.runOn s = .ok (answer, t) →
    t.mutated = false → s.mutated = false ∧ t.observer = s.observer

namespace Discreet

/-- Edits that leave the session as it is are discreet. -/
theorem of_question {m : EditM α} (question : Graph → Except Fault (Except EditError α))
    (hm : ∀ s, m.runOn s = (question s.graph).map fun a => (a, s)) : m.Discreet := by
  intro s t answer h ht
  rw [hm] at h
  obtain ⟨a, -, heq⟩ := map_eq_ok.1 h
  cases heq
  exact ⟨ht, rfl⟩

theorem pure (a : α) : (pure a : EditM α).Discreet :=
  of_question (fun _ => .ok (.ok a)) fun _ => rfl

theorem throw (e : EditError) : (throw e : EditM α).Discreet :=
  of_question (fun _ => .ok (.error e)) fun _ => rfl

theorem fault (x : Fault) : (throwThe Fault x : EditM α).Discreet :=
  of_question (fun _ => .error x) fun _ => rfl

theorem graph : graph.Discreet := of_question (fun g => .ok (.ok g)) fun _ => rfl

theorem lift (x : Except Fault α) : (liftM x : EditM α).Discreet := by
  refine of_question (fun _ => x.map .ok) fun s => ?_
  rw [runOn_lift]
  cases x with
  | ok a => rfl
  | error f => rfl

theorem ask (question : Graph → Except Fault α) : (ask question).Discreet := by
  refine of_question (fun g => (question g).map .ok) fun s => ?_
  rw [runOn_ask]
  cases question s.graph with
  | ok a => rfl
  | error f => rfl

theorem bind {m : EditM α} {f : α → EditM β} (hm : m.Discreet) (hf : ∀ a, (f a).Discreet) :
    (m >>= f).Discreet := by
  intro s t answer h ht
  rcases runOn_bind_eq_ok.1 h with ⟨e, hm', -⟩ | ⟨a, s', hm', hf'⟩
  · exact hm hm' ht
  · obtain ⟨hs', hobserver⟩ := hf a hf' ht
    obtain ⟨hs, hobserver'⟩ := hm hm' hs'
    exact ⟨hs, hobserver.trans hobserver'⟩

/-- Nothing comes after a fault. -/
theorem fault_bind (x : Fault) (f : α → EditM β) : (throwThe Fault x >>= f).Discreet := by
  intro s t answer h
  cases h

theorem forIn {γ σ : Type} {f : γ → σ → EditM (ForInStep σ)} (hf : ∀ c b, (f c b).Discreet) :
    ∀ (l : List γ) (b : σ), (forIn l b f).Discreet
  | [], b => pure b
  | c :: l, b => by
      rw [List.forIn_cons]
      refine (hf c b).bind fun step => ?_
      cases step with
      | done b' => exact pure b'
      | yield b' => exact forIn hf l b'

/-! ## The edits of a session -/

theorem changed (g : Graph) (n : Notice) : (changed g n).Discreet := by
  intro s t answer h ht
  obtain ⟨observer, -, -, rfl⟩ := runOn_changed.1 h
  cases ht

theorem requestStop : requestStop.Discreet := by
  intro s t answer h ht
  cases h
  exact ⟨ht, rfl⟩

theorem insert (anchor : OpId) (d : Draft) : (insert anchor d).Discreet :=
  (ask _).bind fun _ => (lift _).bind fun g => (changed g _).bind fun _ => pure _

theorem redirectUses (old new : ValueId) : (redirectUses old new).Discreet := by
  refine graph.bind fun g => ?_
  dsimp only
  split
  · exact pure ()
  · exact (lift _).bind fun g => changed g _

/-- What is announced is erased, and this is remembered. -/
theorem announced (g : Graph) (o : OpId) : (do
    announceErasing ((← g.nestedOps o) ++ [o])
    let erased ← g.erase o
    modify fun s => { s with graph := erased, mutated := true } : EditM PUnit).Discreet := by
  refine (lift _).bind fun nested => ?_
  intro s t answer h ht
  rcases runOn_bind_eq_ok.1 h with ⟨e, ha, -⟩ | ⟨_, s', -, h⟩
  · obtain ⟨_, -, he, -⟩ := runOn_announceErasing.1 ha
    cases he
  · obtain ⟨erased, -, h⟩ := bind_eq_ok.1 ((runOn_lift_bind _ _ _).symm.trans h)
    cases h
    cases ht

theorem erase (o : OpId) : (erase o).Discreet := by
  refine graph.bind fun g => (lift _).bind fun live => ?_
  cases live with
  | false => exact fault_bind _ _
  | true =>
    refine (lift _).bind fun uses => ?_
    dsimp only
    split
    · exact (lift _).bind fun k => (throw _).bind fun _ => announced g o
    · exact announced g o

theorem replace (o : OpId) (values : List ValueId) : (replace o values).Discreet := by
  refine (ask _).bind fun results => ?_
  dsimp only
  split
  · exact fault_bind _ _
  · refine bind (forIn (fun x b => ?_) _ _) fun _ => erase o
    exact (redirectUses _ _).bind fun _ => pure _

theorem fold (o : OpId) : (fold o).Discreet := by
  refine (ask _).bind fun sum => ?_
  cases sum with
  | none => exact pure false
  | some sum =>
    exact (ask _).bind fun d => (insert o _).bind fun new => (ask _).bind fun value =>
      (replace o _).bind fun _ => pure true

/-! ## Updates -/

theorem putGraph (g : Graph) :
    (modify fun s => { s with graph := g } : EditM PUnit).Discreet := by
  intro s t answer h ht
  cases h
  exact ⟨ht, rfl⟩

theorem restore (u : Update) (g : Graph) : (restore u g).Discreet :=
  (lift _).bind fun g => (putGraph g).bind fun _ => pure _

theorem commit (u : Update) (g : Graph) : (commit u g).Discreet := by
  refine (lift _).bind fun change => ?_
  cases change with
  | true => exact (changed g _).bind fun _ => pure _
  | false => exact (putGraph g).bind fun _ => pure _

theorem release (u : Update) (g : Graph) (givingUp : Bool) : (release u g givingUp).Discreet := by
  rw [EditM.release]
  split
  · cases givingUp with
    | true => exact (restore u g).bind fun _ => pure ()
    | false => exact (commit u g).bind fun _ => pure ()
  · exact pure ()

theorem finish (u : Update) (g : Graph) (ending : Ending) : (finish u g ending).Discreet := by
  cases ending with
  | commit => exact (commit u g).bind fun u => (release u g false).bind fun _ => pure _
  | cancel => exact (restore u g).bind fun u => (release u g false).bind fun _ => pure _
  | drop => exact (release u g false).bind fun _ => pure _
  | abandon => exact (release u g true).bind fun _ => pure _

theorem attemptUpdate (o : OpId) (slots : List (Nat × ValueId)) (ending : Ending) :
    (attemptUpdate o slots ending).Discreet := by
  refine graph.bind fun g => ?_
  split
  · exact pure _
  · split
    · exact (release _ _ true).bind fun _ => pure _
    · exact finish _ _ ending

theorem update (o : OpId) (slots : List (Nat × ValueId)) : (update o slots).Discreet :=
  (attemptUpdate o slots .commit).bind fun x => (lift x).bind fun _ => pure ()

theorem writeSlot (o : OpId) (i : Nat) (v : ValueId) : (writeSlot o i v).Discreet :=
  update o [(i, v)]

end Discreet

end Peephole.EditM
