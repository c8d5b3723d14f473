import Peephole.Proofs.Coherence
import Peephole.Proofs.Construction
import Peephole.Proofs.Marks
import Peephole.Proofs.Termination

/-!
# Only live operations are looked at

A worklist is *faithful* to a graph if what it queues is live, and what was erased since the
run began is marked as erased.  It hears of an erasure before it happens, and then queues the
definers of what the operation read, which may be about to be erased themselves.  What saves
it is that everything in the erasure is announced, so a definer that goes with the operation
is marked in its turn, or was marked before and is not queued.

Every step of a session keeps the worklist faithful (`Session.Step.faithful`), so every point
of a run does, also in the middle of a rule.  What is taken off the worklist is therefore live
(`Graph.simplify_dispatches_live`), and the error for an erased operation can only come from a
rule that makes it up.
-/

namespace Peephole

open Peephole.Graph Relation

/-! ## Faithful worklists -/

/-- What the worklist queues is live in the second graph, and what was erased between the
two graphs is marked as erased. -/
structure Worklist.Faithful (w : Worklist) (g₀ g : Graph) : Prop where
  queued {o : OpId} : w.status o = .queued → ∃ d, g.op o = .ok d
  erased {o : OpId} : g.Gone o → ¬g₀.Gone o → w.status o = .erased

/-- Operations that a notice lets a worklist queue without another look at them. -/
def Notice.named : Notice → List OpId
  | inserted o => [o]
  | updated o => [o]
  | erasing _ => []
  | replaced _ users => users

namespace Worklist

variable {w w' : Worklist} {g₀ g g' : Graph} {o p : OpId} {v : ValueId}

namespace Faithful

theorem queue (h : w.Faithful g₀ g) (ho : ∃ d, g.op o = .ok d) : (w.queue o).Faithful g₀ g where
  queued := Queues.queue (P := fun o => ∃ d, g.op o = .ok d) (fun _ => h.queued) ho _
  erased hp hnew := status_queue_erased (h.erased hp hnew)

theorem queueAll {os : List OpId} (h : w.Faithful g₀ g) (hos : ∀ o ∈ os, ∃ d, g.op o = .ok d) :
    (w.queueAll os).Faithful g₀ g := by
  induction os generalizing w with
  | nil => exact h
  | cons o os ih => exact ih (h.queue (hos o (.head os))) fun p hp => hos p (.tail o hp)

/-- Whether the definer is live is asked before it is queued. -/
theorem queueDefiner (h : w.Faithful g₀ g) (hw' : w.queueDefiner g v = .ok w') :
    w'.Faithful g₀ g := by
  obtain ⟨definer, -, hw'⟩ := bind_eq_ok.1 hw'
  cases definer with
  | none =>
    cases hw'
    exact h
  | some o =>
    obtain ⟨live, hlive, hw'⟩ := bind_eq_ok.1 hw'
    cases live with
    | true =>
      cases hw'
      exact h.queue (isLive_eq_true.1 hlive)
    | false =>
      cases hw'
      exact h

theorem mark {s : Status} (h : w.Faithful g₀ g) (hs : s ≠ .queued)
    (ho : g.Gone o → s = .erased) : (w.mark o s).Faithful g₀ g where
  queued := Queues.mark (P := fun o => ∃ d, g.op o = .ok d) (fun _ => h.queued) hs _
  erased {p} hp hnew := by
    rw [status_mark]
    split
    · rename_i heq
      exact ho (heq ▸ hp)
    · exact h.erased hp hnew

theorem settle (h : w.Faithful g₀ g) (o : OpId) : (w.settle o).Faithful g₀ g where
  queued := Queues.settle (P := fun o => ∃ d, g.op o = .ok d) (fun _ => h.queued) _
  erased hp hnew := status_settle_erased (h.erased hp hnew)

/-- Only the statuses count, not the stack. -/
theorem of_table (h : w.Faithful g₀ g) (htable : w'.table = w.table) : w'.Faithful g₀ g := by
  have hstatus : ∀ o, w'.status o = w.status o := fun o => by rw [status, status, htable]
  exact ⟨fun ho => h.queued ((hstatus _).symm.trans ho),
    fun ho hnew => (hstatus _).trans (h.erased ho hnew)⟩

theorem rewired (h : w.Faithful g₀ g) (hr : Rewired g g') : w.Faithful g₀ g' where
  queued ho := by
    obtain ⟨d, hd⟩ := h.queued ho
    obtain ⟨d', hd', -⟩ := hr.op_ok hd
    exact ⟨d', hd'⟩
  erased ho hnew := h.erased (hr.symm.gone ho) hnew

/-- A notice keeps the worklist faithful if the operations that it names are live. -/
theorem react {n : Notice} (h : w.Faithful g₀ g) (hg : g.Coherent)
    (hn : ∀ o ∈ n.named, ∃ d, g.op o = .ok d) (hw' : w.react g n = .ok w') :
    w'.Faithful g₀ g := by
  cases n with
  | inserted o =>
    cases hw'
    exact h.queue (hn o (.head _))
  | updated o =>
    obtain ⟨users, husers, hw'⟩ := bind_eq_ok.1 hw'
    cases hw'
    refine (h.queue (hn o (.head _))).queueAll fun p hp => ?_
    obtain ⟨results, -, husers⟩ := bind_eq_ok.1 husers
    cases husers
    rw [List.mem_eraseDups, List.mem_flatMap] at hp
    obtain ⟨v, -, hp⟩ := hp
    obtain ⟨u, hu, rfl⟩ := List.mem_map.1 hp
    obtain ⟨d, hd, -⟩ := held?_eq_some.1 (hg.mem_uses.1 hu)
    exact ⟨d, hd⟩
  | erasing o =>
    obtain ⟨operands, -, hw'⟩ := bind_eq_ok.1 hw'
    have hmark : (w.mark o .erased).Faithful g₀ g := h.mark (by decide) fun _ => rfl
    exact foldlM_induction (P := fun w => w.Faithful g₀ g)
      (fun _ _ _ _ hw hstep => hw.queueDefiner hstep) hmark hw'
  | replaced old users => exact (h.queueAll hn).queueDefiner hw'

end Faithful

/-! What is marked as erased stays so, whatever the worklist is told. -/

theorem status_queueAll_erased (os : List OpId) (h : w.status p = .erased) :
    (w.queueAll os).status p = .erased := by
  induction os generalizing w with
  | nil => exact h
  | cons o os ih => exact ih (status_queue_erased h)

theorem status_queueDefiner_erased (h : w.status p = .erased)
    (hw' : w.queueDefiner g v = .ok w') : w'.status p = .erased := by
  rcases queueDefiner_cases hw' with rfl | ⟨o, rfl⟩
  · exact h
  · exact status_queue_erased h

theorem status_foldlM_erased {vs : List ValueId} (h : w.status p = .erased)
    (hw' : vs.foldlM (Worklist.queueDefiner g) w = .ok w') : w'.status p = .erased :=
  foldlM_induction (P := fun w => w.status p = .erased)
    (fun _ _ _ _ hw hstep => status_queueDefiner_erased hw hstep) h hw'

theorem status_react_erased {n : Notice} (h : w.status p = .erased)
    (hw' : w.react g n = .ok w') : w'.status p = .erased := by
  cases n with
  | inserted o =>
    cases hw'
    exact status_queue_erased h
  | updated o =>
    obtain ⟨users, -, hw'⟩ := bind_eq_ok.1 hw'
    cases hw'
    exact status_queueAll_erased users (status_queue_erased h)
  | erasing o =>
    obtain ⟨operands, -, hw'⟩ := bind_eq_ok.1 hw'
    refine status_foldlM_erased ?_ hw'
    rw [status_mark]
    split
    · rfl
    · exact h
  | replaced old users => exact status_queueDefiner_erased (status_queueAll_erased users h) hw'

/-- An erasure that is announced is marked. -/
theorem status_of_erasing (hw' : w.react g (.erasing o) = .ok w') : w'.status o = .erased := by
  obtain ⟨operands, -, hw'⟩ := bind_eq_ok.1 hw'
  exact status_foldlM_erased (by rw [status_mark, if_pos rfl]) hw'

end Worklist

/-! ## Steps -/

namespace Observer

variable {g₀ g : Graph} {observer observer' : Observer}

/-- The observer is a worklist that is faithful to the graph. -/
def Faithful (observer : Observer) (g₀ g : Graph) : Prop :=
  ∃ w : Worklist, observer = .worklist w ∧ w.Faithful g₀ g

theorem Faithful.notify {n : Notice} (h : observer.Faithful g₀ g) (hg : g.Coherent)
    (hn : ∀ o ∈ n.named, ∃ d, g.op o = .ok d) (hobserver : observer.notify g n = .ok observer') :
    observer'.Faithful g₀ g := by
  obtain ⟨w, rfl, hw⟩ := h
  obtain ⟨w', rfl, hw'⟩ := notify_worklist hobserver
  exact ⟨w', rfl, hw.react hg hn hw'⟩

/-- After the announcements every operation that was announced is marked. -/
theorem Faithful.announced {os : List OpId} (h : observer.Faithful g₀ g) (hg : g.Coherent)
    (hobserver : os.foldlM (fun observer o => observer.notify g (.erasing o)) observer =
      .ok observer') :
    ∃ w : Worklist, observer' = .worklist w ∧ w.Faithful g₀ g ∧
      ∀ o ∈ os, w.status o = .erased := by
  induction os generalizing observer with
  | nil =>
    cases hobserver
    obtain ⟨w, hw, hfaithful⟩ := h
    exact ⟨w, hw, hfaithful, nofun⟩
  | cons o os ih =>
    rw [List.foldlM_cons, bind_eq_ok] at hobserver
    obtain ⟨observer₁, hone, hrest⟩ := hobserver
    obtain ⟨w', hw', hfaithful, hmarked⟩ := ih (h.notify hg (by simp [Notice.named]) hone) hrest
    refine ⟨w', hw', hfaithful, fun p hp => ?_⟩
    rcases List.mem_cons.1 hp with rfl | hp
    · -- marked by its own announcement, and those after it leave the mark
      obtain ⟨w, rfl, -⟩ := h
      obtain ⟨w₁, rfl, hw₁⟩ := notify_worklist hone
      have hkept : ∃ w : Worklist, observer' = .worklist w ∧ w.status p = .erased := by
        refine foldlM_induction (P := fun observer => ∃ w : Worklist,
          observer = .worklist w ∧ w.status p = .erased) ?_
          ⟨w₁, rfl, Worklist.status_of_erasing hw₁⟩ hrest
        rintro q - _ _ ⟨w₂, rfl, hw₂⟩ hstep
        obtain ⟨w₃, rfl, hw₃⟩ := notify_worklist hstep
        exact ⟨w₃, rfl, Worklist.status_react_erased hw₂ hw₃⟩
      obtain ⟨w₂, hw₂, hstatus⟩ := hkept
      rw [hw'] at hw₂
      cases hw₂
      exact hstatus
    · exact hmarked p hp

end Observer

namespace Session

variable {allowed : Draft → Prop} {s t : Session} {g₀ : Graph}

/-- Every step of a session keeps its worklist faithful to its graph. -/
theorem Step.faithful (h : s.Step allowed t) (hg : s.graph.Coherent)
    (hs : s.observer.Faithful g₀ s.graph) : t.observer.Faithful g₀ t.graph := by
  obtain ⟨w, hw, hfaithful⟩ := hs
  cases h with
  | @insert anchor o d g₁ g₂ observer _ hnew hplace hn =>
    have hg₂ : g₂.Coherent := (hg.newOp hnew).placeBefore hplace
    have hlive : ∀ {p x}, g₁.op p = .ok x → ∃ y, g₂.op p = .ok y := by
      intro p x hx
      obtain ⟨y, a, b, B, i, -, -, -, -, -, -, rfl⟩ := placeBefore_eq_ok.1 hplace
      rw [op_put]
      split
      · exact ⟨x.inBlock b, by rw [hx]; rfl⟩
      · exact ⟨x, hx⟩
    refine Observer.Faithful.notify ⟨w, hw, ⟨fun {p} ho => ?_, fun {p} ho hold => ?_⟩⟩ hg₂ ?_ hn
    · obtain ⟨x, hx⟩ := hfaithful.queued ho
      have hx₁ : g₁.op p = .ok x := by
        rw [op_newOp hnew, if_neg, hx]
        rintro rfl
        exact not_slot_of_newOp hnew x (slot_of_op hx)
      exact hlive hx₁
    · -- an insertion erases nothing
      refine hfaithful.erased ?_ hold
      obtain ⟨x, hx, he⟩ := ho
      obtain ⟨y, a, b, B, i, -, -, -, -, -, -, rfl⟩ := placeBefore_eq_ok.1 hplace
      have hx₁ : ∃ x, g₁.slot p = .ok x ∧ x.erased = true :=
        (Linked.exists_slot_put (P := fun x => x.erased = true) fun _ => Iff.rfl).1 ⟨x, hx, he⟩
      obtain ⟨z, hz, hze⟩ := hx₁
      rw [slot_newOp hnew] at hz
      split at hz
      · cases hz
        cases hze
      · exact ⟨z, hz, hze⟩
    · intro p hp
      obtain rfl := List.mem_singleton.1 hp
      exact hlive (by rw [op_newOp hnew, if_pos rfl])
  | write _ hwrite => exact ⟨w, hw, hfaithful.rewired (.writeSlot hwrite)⟩
  | @updated o observer hn =>
    refine Observer.Faithful.notify ⟨w, hw, hfaithful⟩ hg ?_ hn
    intro p hp
    obtain rfl := List.mem_singleton.1 hp
    -- the notice looks at the users of the operation, which only a live one has
    rw [hw] at hn
    obtain ⟨w', -, hw'⟩ := Observer.notify_worklist hn
    obtain ⟨users, husers, -⟩ := bind_eq_ok.1 hw'
    obtain ⟨results, hresults, -⟩ := bind_eq_ok.1 husers
    obtain ⟨d, hd, -⟩ := bind_eq_ok.1 hresults
    exact ⟨d, hd⟩
  | @redirect old new g observer hredirect hn =>
    have hr : Rewired s.graph g := .redirectUses hredirect
    refine Observer.Faithful.notify ⟨w, hw, hfaithful.rewired hr⟩
      ((coherent_invariant true).redirectUses hg hredirect) ?_ hn
    intro p hp
    rw [Notice.named, readers, List.mem_eraseDups] at hp
    obtain ⟨u, hu, rfl⟩ := List.mem_map.1 hp
    obtain ⟨d, hd, -⟩ := held?_eq_some.1 (hg.mem_uses.1 hu)
    obtain ⟨d', hd', -⟩ := hr.op_ok hd
    exact ⟨d', hd'⟩
  | @erase e nested g observer hnested hn herase =>
    obtain ⟨w', hw', hfaithful', hmarked⟩ :=
      Observer.Faithful.announced ⟨w, hw, hfaithful⟩ hg hn
    obtain ⟨d, os, bs, -, -, he⟩ := dismantled_of_erase herase
    -- what the erasure takes is what the walk has listed, so it is marked and not queued
    have hannounced : ∀ o ∈ os, o ∈ nested ++ [e] := by
      intro o ho
      simpa [or_comm] using (he.mem_iff hnested).1 ho
    refine ⟨w', hw', ⟨fun {o} ho => ?_, fun {o} ho hold => ?_⟩⟩
    · obtain ⟨x, hx⟩ := hfaithful'.queued ho
      refine ⟨x, he.op_iff.2 ⟨fun hin => ?_, hx⟩⟩
      have hstatus := hmarked o (hannounced o hin)
      rw [ho] at hstatus
      cases hstatus
    · by_cases hin : o ∈ os
      · exact hmarked o (hannounced o hin)
      · obtain ⟨x, hx, hgone⟩ := ho
        rw [he.slot, if_neg hin] at hx
        exact hfaithful'.erased ⟨x, hx, hgone⟩ hold
  | stop => exact ⟨w, hw, hfaithful⟩

theorem Steps.coherent (h : s.Steps allowed t) (hg : s.graph.Coherent) : t.graph.Coherent :=
  (coherent_invariant true).toKept.steps h hg

theorem Steps.faithful (h : s.Steps allowed t) (hg : s.graph.Coherent)
    (hs : s.observer.Faithful g₀ s.graph) : t.observer.Faithful g₀ t.graph := by
  induction h with
  | refl => exact hs
  | tail hsteps hstep ih => exact hstep.faithful (Steps.coherent hsteps hg) ih

/-- Steps that are no change in the end have at most written slots and told nobody. -/
theorem Steps.rewired (h : s.Steps allowed t) (ht : t.mutated = false) :
    s.mutated = false ∧ Rewired s.graph t.graph ∧ t.observer = s.observer := by
  induction h with
  | refl => exact ⟨ht, .refl _, rfl⟩
  | tail _ hstep ih =>
    cases hstep with
    | write _ hwrite =>
      obtain ⟨hs, hr, hobserver⟩ := ih ht
      exact ⟨hs, hr.trans (.writeSlot hwrite), hobserver⟩
    | stop =>
      obtain ⟨hs, hr, hobserver⟩ := ih ht
      exact ⟨hs, hr, hobserver⟩
    | insert | updated | redirect | erase => cases ht

end Session

/-! ## What can go wrong in a fold -/

namespace EditM

variable {α β : Type} {P : EditError → Prop}

/-- The edit errors that the edits end in have the property. -/
def Fails (m : EditM α) (P : EditError → Prop) : Prop :=
  ∀ ⦃s t : Session⦄ ⦃e : EditError⦄, m.runOn s = .ok (.error e, t) → P e

namespace Fails

theorem bind {m : EditM α} {f : α → EditM β} (hm : m.Fails P) (hf : ∀ a, (f a).Fails P) :
    (m >>= f).Fails P := by
  intro s t e h
  rcases runOn_bind_eq_ok.1 h with ⟨e', hm', he⟩ | ⟨a, s', -, h⟩
  · cases he
    exact hm hm'
  · exact hf a h

theorem pure (a : α) : (pure a : EditM α).Fails P := fun _ _ _ h => by cases h

theorem ask (question : Graph → Except Fault α) : (ask question).Fails P := by
  intro s t e h
  rw [runOn_ask] at h
  obtain ⟨a, -, ha⟩ := map_eq_ok.1 h
  cases ha

theorem forM {γ : Type} {f : γ → EditM PUnit} (hf : ∀ c, (f c).Fails P) :
    ∀ l : List γ, (forM l f).Fails P
  | [] => pure _
  | c :: l => by
      rw [List.forM_cons]
      exact (hf c).bind fun _ => forM hf l

theorem insert (anchor : OpId) (d : Draft) : (insert anchor d).Fails P := by
  intro s t e h
  obtain ⟨o, g₁, g₂, observer, -, -, -, he, -⟩ := runOn_insert.1 h
  cases he

theorem redirectUses (old new : ValueId) : (redirectUses old new).Fails P := by
  intro s t e h
  cases (runOn_redirectUses.1 h).1

/-- An erasure fails only if the results are still read. -/
theorem erase (hP : ∀ o k n, P (.stillRead o k n)) (o : OpId) : (erase o).Fails P := by
  intro s t e h
  obtain ⟨d, n, -, -, ⟨-, he, -⟩ | ⟨-, nested, observer, g, -, -, -, he, -⟩⟩ := runOn_erase.1 h
  · cases he
    exact hP _ _ _
  · cases he

theorem replace (hP : ∀ o k n, P (.stillRead o k n)) (o : OpId) (values : List ValueId) :
    (replace o values).Fails P := by
  rw [replace_eq]
  refine bind (ask _) fun results => ?_
  dsimp only
  split
  · intro s t e h
    cases h
  · exact bind (forM (fun _ => redirectUses _ _) _) fun _ => erase hP o

theorem fold (hP : ∀ o k n, P (.stillRead o k n)) (o : OpId) : (fold o).Fails P := by
  refine bind (ask _) fun sum => ?_
  cases sum with
  | none => exact pure _
  | some sum =>
    refine bind (ask _) fun d => bind (insert _ _) fun constant => bind (ask _) fun value => ?_
    exact bind (replace hP o [value]) fun _ => pure _

end Fails

end EditM

/-! ## Dispatch -/

variable {c : Config} {rules : RuleSet} {root o : OpId} {limit : Limit} {g₀ g : Graph}
  {observer : Observer} {p q : Progress} {e : SweepEnd}

/-- The sessions in which something is tried on an operation.  The first is for its erasure,
its fold or a rule, and each one after it for the next rule, after a fold or a rule that did
not apply.  They are handed the observer that the one before has left. -/
inductive Tried (rules : RuleSet) (g : Graph) (observer : Observer) (o : OpId) : Session → Prop
  | first : Tried rules g observer o { graph := g, observer }
  | afterFold {s t : Session} : Tried rules g observer o s →
      (EditM.fold o).runOn s = .ok (.ok false, t) → Tried rules g observer o
        { graph := t.graph, observer := t.observer, stopRequested := t.stopRequested }
  | afterRule {s t : Session} {r : Rule} {answer : Except EditError Match} :
      Tried rules g observer o s → r ∈ rules.rules → (r.apply o).runOn s = .ok (answer, t) →
      t.mutated = false → Tried rules g observer o
        { graph := t.graph, observer := t.observer, stopRequested := t.stopRequested }

namespace Tried

variable {s : Session}

/-- What is tried in vain tells the observer nothing. -/
theorem observer_eq (h : Tried rules g observer o s) : s.observer = observer := by
  induction h with
  | first => rfl
  | afterFold _ hrun ih =>
    cases EditM.fold_false hrun
    exact ih
  | @afterRule s t r answer _ _ hrun hmutated ih => exact (r.discreet o hrun hmutated).2.trans ih

/-- What is tried in vain changes at most what operations read. -/
theorem rewired (hrules : rules.Programs) (h : Tried rules g observer o s) :
    Rewired g s.graph := by
  induction h with
  | first => exact .refl g
  | afterFold _ hrun ih =>
    cases EditM.fold_false hrun
    exact ih
  | afterRule _ hr hrun hmutated ih =>
    have hsteps := (hrules _ hr o).steps hrun
    exact ih.trans (hsteps.rewired hmutated).2.1

theorem coherent (hrules : rules.Programs) (hg : g.Coherent) (h : Tried rules g observer o s) :
    s.graph.Coherent := by
  induction h with
  | first => exact hg
  | afterFold _ hrun ih =>
    cases EditM.fold_false hrun
    exact ih
  | afterRule _ hr hrun _ ih => exact ((hrules _ hr o).steps hrun).coherent ih

end Tried

/-- What a dispatch leaves, by its verdict.  Something was tried in vain, or something that
was tried has led to the graph and the observer, or has failed.  The error for an erased
operation is the answer of a rule. -/
structure Dispatched.Traced (rules : RuleSet) (g : Graph) (observer : Observer) (o : OpId)
    (d : Dispatched) : Prop where
  idle : d.verdict = .idle → ∃ s : Session, Tried rules g observer o s ∧ d.graph = s.graph
  applied {name : String} : d.verdict = .applied name →
    ∃ s t : Session, Tried rules g observer o s ∧ s.Steps (fun _ => True) t ∧
      d.graph = t.graph ∧ d.observer = t.observer
  stale {p : OpId} : d.verdict = .failed (.staleOp p) →
    ∃ call ∈ d.calls, call.answer = .error (.staleOp p)

namespace Dispatched.Traced

variable {d : Dispatched}

theorem of_idle {s : Session} (hv : d.verdict = .idle) (hs : Tried rules g observer o s)
    (hgraph : d.graph = s.graph) : d.Traced rules g observer o where
  idle _ := ⟨s, hs, hgraph⟩
  applied hv' := by
    rw [hv] at hv'
    cases hv'
  stale hv' := by
    rw [hv] at hv'
    cases hv'

theorem of_applied {s t : Session} {name : String} (hv : d.verdict = .applied name)
    (hs : Tried rules g observer o s) (hsteps : s.Steps (fun _ => True) t)
    (hgraph : d.graph = t.graph) (hobserver : d.observer = t.observer) :
    d.Traced rules g observer o where
  idle hv' := by
    rw [hv] at hv'
    cases hv'
  applied _ := ⟨s, t, hs, hsteps, hgraph, hobserver⟩
  stale hv' := by
    rw [hv] at hv'
    cases hv'

theorem of_failed {e : EditError} (hv : d.verdict = .failed e)
    (h : ∀ p, e = .staleOp p → ∃ call ∈ d.calls, call.answer = .error (.staleOp p)) :
    d.Traced rules g observer o where
  idle hv' := by
    rw [hv] at hv'
    cases hv'
  applied hv' := by
    rw [hv] at hv'
    cases hv'
  stale {p} hv' := by
    rw [hv] at hv'
    exact h p (Verdict.failed.inj hv')

end Dispatched.Traced

theorem tryRules_traced (hrules : rules.Programs) {rs : List Rule}
    (hrs : ∀ r ∈ rs, r ∈ rules.rules) {g' : Graph} {stop : Bool} {calls : List Call}
    {d : Dispatched}
    {observer' : Observer}
    (hs : Tried rules g observer o { graph := g', observer := observer', stopRequested := stop })
    (h : tryRules observer' o g' stop calls rs = .ok d) : d.Traced rules g observer o := by
  induction rs generalizing g' observer' stop calls with
  | nil =>
    cases h
    exact .of_idle rfl hs rfl
  | cons r rs ih =>
    have hr : r ∈ rules.rules := hrs r (.head rs)
    rw [tryRules, bind_eq_ok] at h
    obtain ⟨⟨answer, t⟩, hrun, h⟩ := h
    dsimp only at h
    split at h
    · cases h
      refine .of_failed rfl ?_
      rintro p rfl
      exact ⟨_, List.mem_append_right _ (.head _), rfl⟩
    · cases h
      exact .of_applied rfl hs ((hrules r hr o).steps hrun) rfl rfl
    · cases h
      refine .of_failed rfl ?_
      intro p hp
      cases hp
    · rename_i hmutated
      exact ih (fun r' hr' => hrs r' (.tail r hr')) (.afterRule hs hr hrun hmutated) h

theorem dispatch_traced (hrules : rules.Programs) {d : Dispatched}
    (h : dispatch c rules g observer o = .ok d) : d.Traced rules g observer o := by
  have hfor : ∀ k, ∀ r ∈ rules.rulesFor k, r ∈ rules.rules :=
    fun k r hr => (RuleSet.mem_rulesFor.1 hr).1
  -- what is done without a rule fails only where results are still read
  have hread : ∀ {α : Type} {m : EditM α} {s t : Session} {p : OpId},
      m.Fails (fun e => e ≠ .staleOp p) → m.runOn s ≠ .ok (.error (.staleOp p), t) :=
    fun hm hrun => hm hrun rfl
  obtain ⟨x, n, -, -, ⟨-, answer, s, hrun, rfl⟩ | ⟨-, ⟨-, answer, s, hrun, h⟩ | ⟨-, h⟩⟩⟩ :=
    dispatch_cases h
  · have hsteps : Session.Steps (fun _ => True) _ s := (EditM.Program.erase o).steps hrun
    cases answer with
    | ok _ => exact .of_applied rfl .first hsteps rfl rfl
    | error e =>
      refine .of_failed rfl ?_
      rintro p rfl
      exact absurd hrun (hread (.erase (by simp) o))
  · split at h
    · subst h
      have hsteps : Session.Steps (fun _ => True) _ s :=
        (EditM.Program.fold (fun _ _ => trivial) o).steps hrun
      exact .of_applied rfl .first hsteps rfl rfl
    · subst h
      refine .of_failed rfl ?_
      rintro p rfl
      exact absurd hrun (hread (.fold (by simp) o))
    · cases EditM.fold_false hrun
      exact tryRules_traced hrules (hfor x.kind) (.afterFold .first hrun) h
  · exact tryRules_traced hrules (hfor x.kind) .first h

/-! ## Turns and sweeps -/

/-- The worklist is faithful to the graph, and the use lists are those of its slots. -/
structure Progress.Faithful (g₀ : Graph) (p : Progress) : Prop where
  coherent : p.graph.Coherent
  worklist : p.worklist.Faithful g₀ p.graph

namespace Progress.Faithful

theorem start (hg : g.Coherent) : (Progress.start g).Faithful g where
  coherent := hg
  worklist := by
    refine ⟨fun {o} ho => ?_, fun ho hold => absurd ho hold⟩
    rw [Progress.start, Worklist.status_empty] at ho
    cases ho

theorem seed (h : p.Faithful g₀) {ops : List OpId} (hops : p.graph.nestedOps root = .ok ops) :
    Progress.Faithful g₀ (p.seeded ops) where
  coherent := h.coherent
  worklist := h.worklist.queueAll fun _ ho => live_of_nestedOps hops (List.mem_reverse.1 ho)

/-- What is taken off the worklist is live, and the worklist stays faithful while the
operation is looked at. -/
theorem pop (h : p.Faithful g₀) {w : Worklist} (hpop : p.worklist.pop = some (o, w)) :
    (∃ d, p.graph.op o = .ok d) ∧ (w.mark o .inProgress).Faithful g₀ p.graph := by
  obtain ⟨hstatus, htable⟩ := Worklist.pop_eq_some hpop
  obtain ⟨d, hd⟩ := h.worklist.queued hstatus
  refine ⟨⟨d, hd⟩, (h.worklist.of_table htable).mark (by decide) fun hgone => ?_⟩
  exact absurd hd hgone.not_live

/-- At every point of a dispatch the worklist is faithful. -/
theorem tried (hrules : rules.Programs) (h : p.Faithful g₀) {w : Worklist}
    (hpop : p.worklist.pop = some (o, w)) {s t : Session}
    (hs : Tried rules p.graph (.worklist (w.mark o .inProgress)) o s)
    (ht : s.Steps (fun _ => True) t) :
    t.graph.Coherent ∧ t.observer.Faithful g₀ t.graph := by
  have hcoherent := hs.coherent hrules h.coherent
  have hfaithful : s.observer.Faithful g₀ s.graph :=
    ⟨_, hs.observer_eq, (h.pop hpop).2.rewired (hs.rewired hrules)⟩
  exact ⟨ht.coherent hcoherent, ht.faithful hcoherent hfaithful⟩

theorem turn (hrules : rules.Programs) (h : p.Faithful g₀)
    (ht : turn c rules root limit p = .ok (.again q)) : q.Faithful g₀ := by
  obtain ⟨o, w, d, hpop, hd, hverdict⟩ := turn_again ht
  have htraced := dispatch_traced hrules hd
  rcases hverdict with ⟨hv, rfl⟩ | ⟨name, hv, rfl⟩
  · obtain ⟨s, hs, hgraph⟩ := htraced.idle hv
    obtain ⟨hcoherent, w', hw', hfaithful⟩ := h.tried hrules hpop hs .refl
    rw [hs.observer_eq] at hw'
    cases hw'
    rw [← hgraph] at hcoherent hfaithful
    exact ⟨hcoherent, hfaithful.settle o⟩
  · obtain ⟨s, t, hs, hsteps, hgraph, hobserver⟩ := htraced.applied hv
    obtain ⟨hcoherent, w', hw', hfaithful⟩ := h.tried hrules hpop hs hsteps
    rw [← hgraph] at hcoherent hfaithful
    refine ⟨hcoherent, ?_⟩
    rw [worklist_reduced, hobserver, hw']
    exact hfaithful.settle o

theorem turns (hrules : rules.Programs) (h : p.Faithful g₀)
    (hturns : p.Turns c rules root limit q) : q.Faithful g₀ := by
  induction hturns with
  | refl => exact h
  | tail _ ht ih => exact ih.turn hrules ht

end Progress.Faithful

/-- A turn that ends the sweep without a failure leaves the statuses alone. -/
theorem turn_done_table (h : turn c rules root limit p = .ok (.done e q))
    (he : ∀ x, e ≠ .failed x) : q.worklist.table = p.worklist.table := by
  rcases turn_cases h with ht | ⟨-, h⟩ | ⟨-, ht⟩ | ⟨o, w, -, h⟩
  · cases ht
    rfl
  · rcases limitTurn_cases h with ⟨n, -, ht⟩ | ⟨-, ht⟩ | ⟨ops, e, q, -, hprobe, ht⟩
    · cases ht
      rfl
    · cases ht
      rfl
    · cases ht
      rw [(probe_graph hprobe).2.1, Progress.worklist_next]
  · cases ht
    rfl
  · obtain ⟨x, hx⟩ := dispatchTurn_done h
    exact absurd hx (he x)

namespace Progress.Faithful

theorem sweep (hrules : rules.Programs) (h : p.Faithful g₀)
    (hsweep : sweep c rules root p = .ok (.finished, q)) : q.Faithful g₀ := by
  obtain ⟨ops, hops, hdrain⟩ := bind_eq_ok.1 hsweep
  obtain ⟨p', hturns, hdone⟩ := drain_eq_ok.1 hdrain
  have hp' := (h.seed hops).turns hrules hturns
  obtain ⟨hgraph, -⟩ := turn_done hdone nofun
  have htable := turn_done_table hdone nofun
  refine ⟨?_, ?_⟩
  · rw [hgraph]
    exact hp'.coherent
  · rw [hgraph]
    exact hp'.worklist.of_table htable

theorem sweeps (hrules : rules.Programs) {n : Nat} (h : p.Faithful g₀)
    (hsweeps : Progress.Sweeps c rules root n p q) : q.Faithful g₀ := by
  induction hsweeps with
  | none => exact h
  | next hsweep _ _ ih => exact ih (h.sweep hrules hsweep)

end Progress.Faithful

/-! ## The copy -/

/-- The copies and the operations that are dispatched on a copy, one after the other, until
there is a reduction. -/
inductive Probed (c : Config) (rules : RuleSet) : Graph → List OpId → Graph → OpId → Prop
  | here {copy : Graph} {o : OpId} {ops : List OpId} : Probed c rules copy (o :: ops) copy o
  | later {copy copy' : Graph} {o o' : OpId} {ops : List OpId} {d : Dispatched} :
      dispatch c rules copy .silent o = .ok d → d.verdict = .idle →
      Probed c rules d.graph ops copy' o' → Probed c rules copy (o :: ops) copy' o'

theorem Probed.live (hrules : rules.Programs) {copy copy' : Graph} {ops : List OpId}
    (h : Probed c rules copy ops copy' o) (hops : ∀ o ∈ ops, ∃ d, copy.op o = .ok d) :
    ∃ d, copy'.op o = .ok d := by
  induction h with
  | here => exact hops _ (.head _)
  | later hd hv _ ih =>
    refine ih fun p hp => ?_
    obtain ⟨s, hs, hgraph⟩ := (dispatch_traced hrules hd).idle hv
    obtain ⟨x, hx⟩ := hops p (.tail _ hp)
    obtain ⟨x', hx', -⟩ := (hs.rewired hrules).op_ok hx
    exact ⟨x', by rw [hgraph, hx']⟩

theorem call_of_probe (hrules : rules.Programs) {copy : Graph} {ops : List OpId}
    (h : probe c rules p copy ops = .ok (.failed (.staleOp o), q)) :
    ∃ call ∈ q.calls, call.answer = .error (.staleOp o) := by
  induction ops generalizing p copy with
  | nil => cases h
  | cons o' ops ih =>
    rw [probe, bind_eq_ok] at h
    obtain ⟨d, hd, h⟩ := h
    dsimp only at h
    split at h
    · exact ih h
    · cases h
    · rename_i hv
      cases h
      obtain ⟨call, hcall, hanswer⟩ := (dispatch_traced hrules hd).stale hv
      exact ⟨call, Array.mem_append_right _ (List.mem_toArray.2 hcall), hanswer⟩

/-! ## Runs -/

/-- The error for an erased operation that ends a sweep is the answer of a rule. -/
theorem Progress.Faithful.call_of_turn (hrules : rules.Programs) (h : p.Faithful g₀)
    (ht : Peephole.turn c rules root limit p = .ok (.done (.failed (.staleOp o)) q)) :
    ∃ call ∈ q.calls, call.answer = .error (.staleOp o) := by
  rcases turn_cases ht with ht | ⟨-, ht⟩ | ⟨-, ht⟩ | ⟨p', w, hpop, ht⟩
  · cases ht
  · rcases limitTurn_cases ht with ⟨n, -, ht⟩ | ⟨-, ht⟩ | ⟨ops, e, q, -, hprobe, ht⟩
    · cases ht
    · cases ht
    · cases ht
      exact call_of_probe hrules hprobe
  · cases ht
  · rcases dispatchTurn_cases ht with ⟨hdead, -⟩ | ⟨-, d, hd, ht⟩
    · obtain ⟨⟨x, hx⟩, -⟩ := h.pop hpop
      rw [isLive_of_op hx] at hdead
      cases hdead
    · split at ht
      · cases ht
      · rename_i hv
        cases ht
        obtain ⟨call, hcall, hanswer⟩ := (dispatch_traced hrules hd).stale hv
        exact ⟨call, Array.mem_append_right _ (List.mem_toArray.2 hcall), hanswer⟩
      · obtain ⟨report, -, ht⟩ := ht
        split at ht
        · cases ht
        · cases ht

theorem Progress.Faithful.call_of_sweepUpTo (hrules : rules.Programs) {r : RunResult} :
    ∀ {left made : Nat} {p : Progress}, p.Faithful g₀ →
      sweepUpTo c rules root left made p = .ok r → r.outcome = .error (.staleOp o) →
      ∃ call ∈ r.progress.calls, call.answer = .error (.staleOp o)
  | 0, made, p, _, h, ho => by
      cases h
      cases ho
  | left + 1, made, p, hp, h, ho => by
      obtain ⟨⟨e, q⟩, hsweep, -⟩ := bind_eq_ok.1 h
      rw [sweepUpTo_succ left made hsweep] at h
      cases e with
      | finished =>
        dsimp only at h
        split at h
        · cases h
          cases ho
        · exact call_of_sweepUpTo hrules (hp.sweep hrules hsweep) h ho
      | failed x =>
        cases h
        cases ho
        obtain ⟨ops, hops, hdrain⟩ := bind_eq_ok.1 hsweep
        obtain ⟨p', hturns, hdone⟩ := drain_eq_ok.1 hdrain
        exact ((hp.seed hops).turns hrules hturns).call_of_turn hrules hdone
      | limited | settled | stopped =>
        cases h
        cases ho

/-- Along a run, the worklist is faithful at every point, also in the middle of a rule.  So
every operation that is taken off it is live, and so is every operation that is dispatched on
a copy.  If a run ends with the error for an erased operation, a rule has answered with it. -/
theorem Graph.simplify_dispatches_live {presets : Bool} (hg : g.Reachable presets)
    (hrules : rules.Programs) :
    (∀ {n : Nat} {p q : Progress} {ops : List OpId},
      Progress.Sweeps c rules root n (.start g) p → p.graph.nestedOps root = .ok ops →
      Progress.Turns c rules root (p.limit c ops.length) (p.seeded ops) q →
      q.worklist.Faithful g q.graph ∧
      (∀ {o w}, q.worklist.pop = some (o, w) → q.graph.isLive o = .ok true ∧
        ∀ {s t}, Tried rules q.graph (.worklist (w.mark o .inProgress)) o s →
          s.Steps (fun _ => True) t → t.observer.Faithful g t.graph) ∧
      ∀ {nested copy o}, q.graph.nestedOps root = .ok nested →
        Probed c rules q.graph nested copy o → copy.isLive o = .ok true) ∧
    ∀ {r o}, g.simplify root rules c = .ok r → r.outcome = .error (.staleOp o) →
      ∃ call ∈ r.progress.calls, call.answer = .error (.staleOp o) := by
  have hstart : (Progress.start g).Faithful g := .start hg.coherent
  refine ⟨fun hsweeps hops hturns => ?_, fun hrun ho => hstart.call_of_sweepUpTo hrules hrun ho⟩
  have hq := ((hstart.sweeps hrules hsweeps).seed hops).turns hrules hturns
  refine ⟨hq.worklist, fun hpop => ⟨isLive_eq_true.2 (hq.pop hpop).1, fun hs ht => ?_⟩, ?_⟩
  · exact (hq.tried hrules hpop hs ht).2
  · intro nested copy o hnested hprobed
    exact isLive_eq_true.2 (hprobed.live hrules fun p hp => live_of_nestedOps hnested hp)

/-- Erases branches. -/
def Rules.dropBranch : Rule where
  name := "drop-branch"
  root := .branch
  apply o := do
    EditM.erase o
    return .applied
  discreet o := (EditM.Discreet.erase o).bind fun _ => .pure _

/-- The first of two branches is erased with the gate and the yield in it.  Their entries are
on the stack then, and what is taken is the measurement, which the branch has read. -/
theorem Graph.simplify_dispatches_live_choice : choiceGraph.Reachable false ∧
    (RuleList.freeze ⟨[Rules.dropBranch]⟩).Programs ∧
    ∃ q w, Progress.Turns {} (RuleList.freeze ⟨[Rules.dropBranch]⟩) ⟨8⟩ (.budget 10000)
        { Progress.start choiceGraph with
          worklist := Worklist.empty.queueAll [⟨7⟩, ⟨5⟩, ⟨4⟩, ⟨6⟩, ⟨2⟩, ⟨1⟩, ⟨3⟩, ⟨0⟩] } q ∧
      q.reductions = 1 ∧
      (⟨1⟩ ∈ q.worklist.stack ∧ q.worklist.status ⟨1⟩ = .erased) ∧
      (⟨2⟩ ∈ q.worklist.stack ∧ q.worklist.status ⟨2⟩ = .erased) ∧
      q.worklist.pop = some (⟨0⟩, w) ∧ q.graph.isLive ⟨0⟩ = .ok true := by
  have hbuilt := choiceGraph_function.built
  have hprograms : (RuleList.freeze ⟨[Rules.dropBranch]⟩).Programs := by
    intro r hr o
    obtain rfl := List.mem_singleton.1 hr
    exact .bind (.erase o) fun _ => .pure _
  have hops : choiceGraph.nestedOps ⟨8⟩ =
      .ok [⟨0⟩, ⟨3⟩, ⟨1⟩, ⟨2⟩, ⟨6⟩, ⟨4⟩, ⟨5⟩, ⟨7⟩] := by decide +kernel
  -- the measurement is looked at in vain, and the first branch is where the rule applies
  have hends : (turn {} (RuleList.freeze ⟨[Rules.dropBranch]⟩) ⟨8⟩ (.budget 10000)
      ((Progress.start choiceGraph).seeded
        [⟨0⟩, ⟨3⟩, ⟨1⟩, ⟨2⟩, ⟨6⟩, ⟨4⟩, ⟨5⟩, ⟨7⟩])).toOption.bind (fun t =>
        t.next?.bind fun p =>
          (turn {} (RuleList.freeze ⟨[Rules.dropBranch]⟩) ⟨8⟩ (.budget 10000) p).toOption.bind
            fun t => t.next?.map fun q => (q.reductions,
              (q.worklist.stack.contains ⟨1⟩, q.worklist.status ⟨1⟩),
              (q.worklist.stack.contains ⟨2⟩, q.worklist.status ⟨2⟩),
              q.worklist.pop.map Prod.fst)) =
      some (1, (true, .erased), (true, .erased), some ⟨0⟩) := by
    rw [RuleList.freeze_eq]
    decide +kernel
  obtain ⟨t, hfirst, ht⟩ := Option.bind_eq_some_iff.1 hends
  obtain ⟨p, hp, ht⟩ := Option.bind_eq_some_iff.1 ht
  obtain ⟨t', hsecond, ht'⟩ := Option.bind_eq_some_iff.1 ht
  obtain ⟨q, hq, heq⟩ := Option.map_eq_some_iff.1 ht'
  simp only [Prod.mk.injEq, List.contains_iff_mem] at heq
  obtain ⟨hreductions, hgate, hyield, hpop⟩ := heq
  obtain ⟨⟨o, w⟩, hpop, rfl⟩ := Option.map_eq_some_iff.1 hpop
  have hturns : Progress.Turns {} (RuleList.freeze ⟨[Rules.dropBranch]⟩) ⟨8⟩ (.budget 10000)
      { Progress.start choiceGraph with
        worklist := Worklist.empty.queueAll [⟨7⟩, ⟨5⟩, ⟨4⟩, ⟨6⟩, ⟨2⟩, ⟨1⟩, ⟨3⟩, ⟨0⟩] } q :=
    .head (again_of_next? hfirst hp) (.single (again_of_next? hsecond hq))
  have hlive := ((simplify_dispatches_live hbuilt hprograms).1 .none hops hturns).2.1 hpop
  exact ⟨hbuilt, hprograms, q, w, hturns, hreductions, hgate, hyield, hpop, hlive.1⟩

end Peephole
