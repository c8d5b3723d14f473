import Peephole.Proofs.Links
import Peephole.Proofs.Runs

/-!
# What worklists know

An operation *waits* if it is queued and has an entry on the stack.  Queueing makes every
operation wait that is not marked as erased, and a stack without queued operations has
nothing that waits.

An erased operation keeps its entry in the graph and is never live again.  Along a run,
what the worklist marks as erased is erased (`Progress.Visited.marks`), so the operations
under a root can all be queued.
-/

namespace Peephole

namespace Worklist

variable {w w' : Worklist} {o p : OpId} {P : OpId → Prop}

/-! ## Waiting -/

/-- The operation is queued and on the stack. -/
def Waits (w : Worklist) (o : OpId) : Prop := w.status o = .queued ∧ o ∈ w.stack

theorem waits_queue (h : w.status o ≠ .erased) : (w.queue o).Waits o := by
  refine ⟨by rw [status_queue, if_pos ⟨rfl, h⟩], ?_⟩
  rw [queue, if_neg h]
  exact .head _

theorem Waits.queue (h : w.Waits p) (o : OpId) : (w.queue o).Waits p := by
  refine ⟨?_, ?_⟩
  · rw [status_queue]
    split
    · rfl
    · exact h.1
  · rw [Worklist.queue]
    split
    · exact h.2
    · exact .tail _ h.2

theorem Waits.queueAll (h : w.Waits p) (os : List OpId) : (w.queueAll os).Waits p := by
  induction os generalizing w with
  | nil => exact h
  | cons o os ih => exact ih (h.queue o)

/-- Operations wait after they are queued, unless they are marked as erased. -/
theorem waits_queueAll {os : List OpId} (ho : o ∈ os) (h : w.status o ≠ .erased) :
    (w.queueAll os).Waits o := by
  induction os generalizing w with
  | nil => cases ho
  | cons p os ih =>
    rcases List.mem_cons.1 ho with rfl | ho
    · exact (waits_queue h).queueAll os
    · refine ih ho ?_
      rw [status_queue]
      split
      · decide
      · exact h

theorem Waits.mark (h : w.Waits p) (hne : o ≠ p) (s : Status) : (w.mark o s).Waits p :=
  ⟨by rw [status_mark, if_neg hne]; exact h.1, h.2⟩

/-- What is queued meanwhile is not settled. -/
theorem Waits.settle (h : w.Waits p) (o : OpId) : (w.settle o).Waits p := by
  rw [Worklist.settle]
  split
  · rename_i ho
    refine h.mark ?_ _
    rintro rfl
    rw [h.1] at ho
    cases ho
  · exact h

theorem status_settle_erased (h : w.status p = .erased) : (w.settle o).status p = .erased := by
  rw [Worklist.settle]
  split
  · rename_i ho
    rw [status_mark, if_neg, h]
    rintro rfl
    rw [h] at ho
    cases ho
  · exact h

theorem Waits.anyQueued (h : w.Waits o) : w.anyQueued = true :=
  List.any_eq_true.2 ⟨o, h.2, decide_eq_true h.1⟩

/-- Only the operation that is taken stops waiting. -/
theorem mem_of_nextQueued {rest : List OpId} (hp : w.status p = .queued) :
    ∀ {stack : List OpId}, p ∈ stack → w.nextQueued stack = some (o, rest) → p = o ∨ p ∈ rest
  | q :: stack, hmem, h => by
      rw [nextQueued] at h
      split at h
      · cases h
        exact List.mem_cons.1 hmem
      · rename_i hq
        rcases List.mem_cons.1 hmem with rfl | hmem
        · exact absurd hp hq
        · exact mem_of_nextQueued hp hmem h

theorem nextQueued_ne_none (hp : w.status p = .queued) :
    ∀ {stack : List OpId}, p ∈ stack → w.nextQueued stack ≠ none
  | q :: stack, hmem => by
      rw [nextQueued]
      split
      · simp
      · rename_i hq
        rcases List.mem_cons.1 hmem with rfl | hmem
        · exact absurd hp hq
        · exact nextQueued_ne_none hp hmem

theorem Waits.pop (h : w.Waits p) (hpop : w.pop = some (o, w')) : p = o ∨ w'.Waits p := by
  simp only [Worklist.pop, Option.map_eq_some_iff, Prod.exists, Prod.mk.injEq] at hpop
  obtain ⟨q, rest, hn, rfl, rfl⟩ := hpop
  exact (mem_of_nextQueued h.1 h.2 hn).imp_right fun hmem => ⟨h.1, hmem⟩

theorem waits_of_pop (h : w.pop = some (o, w')) : w.Waits o := by
  simp only [Worklist.pop, Option.map_eq_some_iff, Prod.exists, Prod.mk.injEq] at h
  obtain ⟨p, rest, hnext, rfl, -⟩ := h
  exact queued_of_nextQueued hnext

theorem Waits.pop_ne_none (h : w.Waits p) : w.pop ≠ none := by
  rw [Worklist.pop, ne_eq, Option.map_eq_none_iff]
  exact nextQueued_ne_none h.1 h.2

/-! ## Marks -/

/-- Every operation marked as erased has the property. -/
def Marks (w : Worklist) (P : OpId → Prop) : Prop := ∀ o, w.status o = .erased → P o

theorem Marks.mono {Q : OpId → Prop} (h : w.Marks P) (hPQ : ∀ o, P o → Q o) : w.Marks Q :=
  fun o ho => hPQ o (h o ho)

theorem Marks.mark {s : Status} (h : w.Marks P) (hs : s = .erased → P o) :
    (w.mark o s).Marks P := by
  intro p hp
  rw [status_mark] at hp
  split at hp
  · rename_i heq
    exact heq ▸ hs hp
  · exact h p hp

theorem Marks.queue (h : w.Marks P) (o : OpId) : (w.queue o).Marks P := by
  intro p hp
  rw [status_queue] at hp
  split at hp
  · cases hp
  · exact h p hp

theorem Marks.queueAll (h : w.Marks P) (os : List OpId) : (w.queueAll os).Marks P := by
  induction os generalizing w with
  | nil => exact h
  | cons o os ih => exact ih (h.queue o)

theorem Marks.settle (h : w.Marks P) (o : OpId) : (w.settle o).Marks P := by
  rw [Worklist.settle]
  split
  · exact h.mark nofun
  · exact h

theorem Marks.pop (h : w.Marks P) (hpop : w.pop = some (o, w')) : w'.Marks P := by
  simp only [Worklist.pop, Option.map_eq_some_iff, Prod.exists, Prod.mk.injEq] at hpop
  obtain ⟨q, rest, -, -, rfl⟩ := hpop
  exact h

theorem queueDefiner_cases {g : Graph} {v : ValueId} (h : w.queueDefiner g v = .ok w') :
    w' = w ∨ ∃ o, w' = w.queue o := by
  obtain ⟨definer, -, h⟩ := bind_eq_ok.1 h
  cases definer with
  | none =>
    cases h
    exact .inl rfl
  | some o =>
    obtain ⟨live, -, h⟩ := bind_eq_ok.1 h
    cases live with
    | true =>
      cases h
      exact .inr ⟨o, rfl⟩
    | false =>
      cases h
      exact .inl rfl

theorem Marks.queueDefiner {g : Graph} {v : ValueId} (h : w.Marks P)
    (hw' : w.queueDefiner g v = .ok w') : w'.Marks P := by
  rcases queueDefiner_cases hw' with rfl | ⟨o, rfl⟩
  · exact h
  · exact h.queue o

/-- The only notice that marks something is that of an erasure. -/
theorem Marks.react {g : Graph} {n : Notice} (h : w.Marks P) (hn : ∀ o, n = .erasing o → P o)
    (hw' : w.react g n = .ok w') : w'.Marks P := by
  cases n with
  | inserted o =>
    cases hw'
    exact h.queue o
  | updated o =>
    obtain ⟨users, -, hw'⟩ := bind_eq_ok.1 hw'
    cases hw'
    exact (h.queue o).queueAll users
  | erasing o =>
    obtain ⟨operands, -, hw'⟩ := bind_eq_ok.1 hw'
    have hmark : (w.mark o .erased).Marks P := h.mark fun _ => hn o rfl
    exact foldlM_induction (P := fun w => w.Marks P) (fun _ _ _ _ ht hstep => ht.queueDefiner hstep)
      hmark hw'
  | replaced old users => exact (h.queueAll users).queueDefiner hw'

end Worklist

/-! ## Erased operations -/

namespace Graph

variable {g g' : Graph} {o : OpId}

/-- The operation was erased. -/
def Gone (g : Graph) (o : OpId) : Prop := ∃ x, g.slot o = .ok x ∧ x.erased = true

theorem Gone.not_live {d : Op} (h : g.Gone o) : g.op o ≠ .ok d := by
  intro hd
  obtain ⟨x, hx, he⟩ := h
  obtain ⟨hslot, hlive⟩ := op_eq_ok.1 hd
  rw [hx] at hslot
  cases hslot
  rw [he] at hlive
  cases hlive

theorem Rewired.gone (hr : Rewired g g') (h : g.Gone o) : g'.Gone o := by
  obtain ⟨x, hx, he⟩ := h
  obtain ⟨x', hx', hu⟩ := hr.slot_ok hx
  exact ⟨x', hx', (congrArg Op.erased hu).trans he⟩

theorem Gone.newOp {d : Draft} {n : OpId} (h : g.Gone o) (hn : g.newOp d = .ok (n, g')) :
    g'.Gone o := by
  obtain ⟨x, hx, he⟩ := h
  refine ⟨x, ?_, he⟩
  rw [slot_newOp hn, if_neg]
  · exact hx
  · rintro rfl
    exact not_slot_of_newOp hn x hx

theorem Gone.placeBefore {anchor n : OpId} (h : g.Gone o)
    (hn : g.placeBefore anchor n = .ok g') : g'.Gone o := by
  obtain ⟨x, hx, he⟩ := h
  obtain ⟨d, a, b, B, i, -, -, -, -, -, -, rfl⟩ := placeBefore_eq_ok.1 hn
  by_cases heq : n = o
  · exact ⟨x.inBlock b, by rw [slot_put, if_pos heq, hx]; rfl, he⟩
  · exact ⟨x, by rw [slot_put, if_neg heq, hx], he⟩

theorem Gone.erase {e : OpId} (h : g.Gone o) (he : g.erase e = .ok g') : g'.Gone o := by
  obtain ⟨x, hx, hgone⟩ := h
  obtain ⟨d, os, bs, -, -, hos⟩ := dismantled_of_erase he
  rw [Gone, hos.slot]
  split
  · exact ⟨_, by rw [hx]; rfl, rfl⟩
  · exact ⟨x, hx, hgone⟩

/-- Every operation in a tree is live. -/
theorem Forest.live {n : Nat} {os l : List OpId} (h : Forest g n os l) (ho : o ∈ l) :
    ∃ d, g.op o = .ok d := by
  obtain ⟨ps, hps, -⟩ := h.closed ho
  obtain ⟨bs, _, hbs, -⟩ := children_eq_ok.1 hps
  obtain ⟨d, _, hd, -⟩ := innerBlocks_eq_ok.1 hbs
  exact ⟨d, hd⟩

theorem live_of_nestedOps {root : OpId} {ops : List OpId} (h : g.nestedOps root = .ok ops)
    (ho : o ∈ ops) : ∃ d, g.op o = .ok d := by
  obtain ⟨cs, -, hforest⟩ := nestedOps_eq_ok.1 h
  exact hforest.live ho

/-- An erasure takes the operation and what is nested in it. -/
theorem gone_of_erase {e : OpId} {nested : List OpId} (hnested : g.nestedOps e = .ok nested)
    (he : g.erase e = .ok g') (ho : o ∈ nested ++ [e]) : g'.Gone o := by
  obtain ⟨d, os, bs, hd, -, hos⟩ := dismantled_of_erase he
  have hlive : (∃ x, g.op o = .ok x) ∧ (o = e ∨ o ∈ nested) := by
    rcases List.mem_append.1 ho with ho | ho
    · exact ⟨live_of_nestedOps hnested ho, .inr ho⟩
    · obtain rfl := List.mem_singleton.1 ho
      exact ⟨⟨d, hd⟩, .inl rfl⟩
  obtain ⟨⟨x, hx⟩, hmem⟩ := hlive
  refine ⟨{ x with block := none, erased := true }, ?_, rfl⟩
  rw [hos.slot, if_pos ((hos.mem_iff hnested).2 hmem), slot_of_op hx]
  rfl

end Graph

/-! ## Marks along a run -/

namespace Session

variable {allowed : Draft → Prop} {s t : Session} {o : OpId}

theorem Step.gone (h : s.Step allowed t) (ho : s.graph.Gone o) : t.graph.Gone o := by
  cases h with
  | insert _ hnew hplace _ => exact (ho.newOp hnew).placeBefore hplace
  | write _ hwrite => exact (Graph.Rewired.writeSlot hwrite).gone ho
  | updated _ => exact ho
  | redirect hredirect _ => exact (Graph.Rewired.redirectUses hredirect).gone ho
  | erase _ _ herase => exact ho.erase herase
  | stop => exact ho

theorem Steps.gone (h : s.Steps allowed t) (ho : s.graph.Gone o) : t.graph.Gone o := by
  induction h with
  | refl => exact ho
  | tail _ hstep ih => exact hstep.gone ih

end Session

namespace Observer

variable {g : Graph} {n : Notice} {P : OpId → Prop} {observer observer' : Observer}

/-- The observer is no worklist, or a worklist where every operation marked as erased has
the property. -/
def Marks (observer : Observer) (P : OpId → Prop) : Prop :=
  match observer with
  | silent => True
  | recorder _ => True
  | worklist w => w.Marks P

theorem Marks.mono {Q : OpId → Prop} (h : observer.Marks P) (hPQ : ∀ o, P o → Q o) :
    observer.Marks Q := by
  cases observer with
  | silent => trivial
  | recorder _ => trivial
  | worklist w => exact Worklist.Marks.mono h hPQ

theorem Marks.notify (h : observer.Marks P) (hn : ∀ o, n = .erasing o → P o)
    (hnotify : observer.notify g n = .ok observer') : observer'.Marks P := by
  cases observer with
  | silent =>
    cases hnotify
    trivial
  | recorder events =>
    obtain ⟨event, -, hnotify⟩ := bind_eq_ok.1 hnotify
    cases hnotify
    trivial
  | worklist w =>
    obtain ⟨w', rfl, hw'⟩ := notify_worklist hnotify
    exact Worklist.Marks.react h hn hw'

end Observer

namespace Session

variable {allowed : Draft → Prop} {s t : Session}

/-- A step marks what it erases. -/
theorem Step.marks (h : s.Step allowed t) (hs : s.observer.Marks s.graph.Gone) :
    t.observer.Marks t.graph.Gone := by
  have hkept : s.observer.Marks t.graph.Gone := hs.mono fun _ ho => h.gone ho
  cases h with
  | insert _ _ _ hn => exact hkept.notify (fun _ hp => by cases hp) hn
  | write _ _ => exact hkept
  | updated hn => exact hkept.notify (fun _ hp => by cases hp) hn
  | redirect _ hn => exact hkept.notify (fun _ hp => by cases hp) hn
  | @erase e nested g observer hnested hobserver herase =>
    refine foldlM_induction (P := fun observer => observer.Marks g.Gone) ?_ hkept hobserver
    intro o ho _ _ hmarks hn
    refine hmarks.notify (fun p hp => ?_) hn
    cases hp
    exact Graph.gone_of_erase hnested herase ho
  | stop => exact hkept

theorem Steps.marks (h : s.Steps allowed t) (hs : s.observer.Marks s.graph.Gone) :
    t.observer.Marks t.graph.Gone := by
  induction h with
  | refl => exact hs
  | tail _ hstep ih => exact hstep.marks ih

end Session

namespace Progress

variable {c : Config} {rules : RuleSet} {root o : OpId} {limit : Limit} {g : Graph} {p : Progress}

theorem marks_of_dispatchTurn {w : Worklist} {t : Turn} (hrules : rules.Programs)
    (hw : w.Marks p.graph.Gone) (h : dispatchTurn c rules root p.next o w = .ok t) :
    t.progress.worklist.Marks t.progress.graph.Gone := by
  rcases dispatchTurn_cases h with ⟨-, rfl⟩ | ⟨-, d, hd, h⟩
  · exact hw
  have hmark : (Observer.worklist (w.mark o .inProgress)).Marks p.graph.Gone :=
    Worklist.Marks.mark hw nofun
  have hkept : d.observer.Marks d.graph.Gone :=
    dispatch_keeps (Q := fun g observer => observer.Marks g.Gone) (fun _ _ => trivial)
      (fun hm hrun hs => (hm.steps hrun).marks hs) hrules hmark hd
  obtain ⟨w', hw'⟩ := dispatch_worklist hrules hd
  split at h
  · rename_i hv
    rw [observer_of_dispatch hd hv] at hkept
    rw [h, Turn.progress_again, Progress.graph_passed, Progress.worklist_passed]
    exact Worklist.Marks.settle hkept o
  · rw [hw'] at h hkept
    rw [h]
    exact hkept
  · have hq : (p.reduced d o (w.mark o .inProgress)).worklist.Marks d.graph.Gone := by
      rw [hw'] at hkept
      rw [Progress.worklist_reduced, hw']
      exact Worklist.Marks.settle hkept o
    obtain ⟨report, -, rfl⟩ := h
    split
    · exact hq
    · exact hq

theorem marks_of_turn {t : Turn} (hrules : rules.Programs) (hp : p.worklist.Marks p.graph.Gone)
    (h : turn c rules root limit p = .ok t) :
    t.progress.worklist.Marks t.progress.graph.Gone := by
  rcases turn_cases h with rfl | ⟨-, h⟩ | ⟨-, rfl⟩ | ⟨o, w, hpop, h⟩
  · exact hp
  · rcases limitTurn_cases h with ⟨n, -, rfl⟩ | ⟨-, rfl⟩ | ⟨ops, e, q, -, hprobe, rfl⟩
    · exact hp
    · exact hp
    · obtain ⟨hgraph, hworklist, -⟩ := probe_graph hprobe
      show q.worklist.Marks q.graph.Gone
      rw [hgraph, hworklist]
      exact hp
  · exact hp
  · exact marks_of_dispatchTurn hrules (hp.pop hpop) h

/-- Along a run, what is marked as erased is erased. -/
theorem Visited.marks (hrules : rules.Programs) (h : Visited c rules root g p) :
    p.worklist.Marks p.graph.Gone := by
  induction h with
  | start =>
    intro o ho
    rw [Progress.start, Worklist.status_empty] at ho
    cases ho
  | seed _ _ ih => exact ih.queueAll _
  | again _ ht ih => exact marks_of_turn hrules ih ht
  | done _ ht ih => exact marks_of_turn hrules ih ht

/-- What is under the root waits after it is queued. -/
theorem waits_seed {ops : List OpId} (hp : p.worklist.Marks p.graph.Gone)
    (hops : p.graph.nestedOps root = .ok ops) (ho : o ∈ ops) :
    (p.worklist.queueAll ops.reverse).Waits o := by
  refine Worklist.waits_queueAll (List.mem_reverse.2 ho) fun hmark => ?_
  obtain ⟨d, hd⟩ := Graph.live_of_nestedOps hops ho
  exact (hp o hmark).not_live hd

end Progress

end Peephole
