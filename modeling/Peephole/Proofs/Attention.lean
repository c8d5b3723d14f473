import Peephole.Proofs.Logs
import Peephole.Proofs.Unchanged
import Peephole.Proofs.Wakeups

/-!
# No operation is overlooked

Statuses and the stack of a worklist are kept apart.  An operation may be on the stack several
times, it may be queued again while it is being looked at, and a sweep that reaches its cap
empties the stack and leaves the statuses.  Nevertheless, in a sweep every operation under the
root that is queued is on the stack (`Worklist.Stacked`).  The seeding sees to what was there
before, and what is made later was not queued then.

An edit *disturbs* an operation if it changes a slot of it, erases a reader of it or redirects
a use of it.  Whatever is disturbed, is covered by the worklist (`Moment.Disturbs.covers`).  So
at every point of a sweep an operation under the root waits, or nothing has disturbed it since
it was dispatched last (`Progress.Watchful`).
-/

namespace Peephole

open Peephole.Graph

/-! ## Stacks -/

namespace Worklist

variable {w w' : Worklist} {o : OpId} {P : OpId → Prop} {g : Graph}

/-- Queued operations with the property are on the stack. -/
def Stacked (w : Worklist) (P : OpId → Prop) : Prop :=
  ∀ o, P o → w.status o = .queued → o ∈ w.stack

namespace Stacked

theorem mono {Q : OpId → Prop} (h : w.Stacked P) (hQ : ∀ o, Q o → P o) : w.Stacked Q :=
  fun o ho => h o (hQ o ho)

theorem queue (h : w.Stacked P) (o : OpId) : (w.queue o).Stacked P := by
  intro p hp hstatus
  by_cases hself : o = p ∧ w.status o ≠ .erased
  · obtain ⟨rfl, herased⟩ := hself
    exact (waits_queue herased).2
  · rw [status_queue, if_neg hself] at hstatus
    have hwaits : w.Waits p := ⟨hstatus, h p hp hstatus⟩
    exact (hwaits.queue o).2

theorem queueAll (h : w.Stacked P) (os : List OpId) : (w.queueAll os).Stacked P := by
  induction os generalizing w with
  | nil => exact h
  | cons o os ih => exact ih (h.queue o)

theorem queueDefiner {v : ValueId} (h : w.Stacked P) (hw' : w.queueDefiner g v = .ok w') :
    w'.Stacked P := by
  rcases queueDefiner_cases hw' with rfl | ⟨o, rfl⟩
  · exact h
  · exact h.queue o

theorem mark {s : Status} (h : w.Stacked P) (hs : s ≠ .queued) (o : OpId) :
    (w.mark o s).Stacked P := by
  intro p hp hstatus
  rw [status_mark] at hstatus
  split at hstatus
  · exact absurd hstatus hs
  · exact h p hp hstatus

theorem settle (h : w.Stacked P) (o : OpId) : (w.settle o).Stacked P := by
  rw [Worklist.settle]
  split
  · exact h.mark (by decide) o
  · exact h

theorem react {n : Notice} (h : w.Stacked P) (hw' : w.react g n = .ok w') : w'.Stacked P := by
  cases n with
  | inserted o =>
    cases hw'
    exact h.queue o
  | updated o =>
    obtain ⟨users, -, hw'⟩ := bind_eq_ok.1 hw'
    cases hw'
    exact (h.queue o).queueAll users
  | erasing o =>
    obtain ⟨operands, -, hw'⟩ := bind_eq_ok.1 hw'
    have hmark : (w.mark o .erased).Stacked P := h.mark (by decide) o
    exact foldlM_induction (P := fun w => w.Stacked P)
      (fun _ _ _ _ hw hstep => hw.queueDefiner hstep) hmark hw'
  | replaced old users => exact (h.queueAll users).queueDefiner hw'

/-- The operation that is taken is no longer queued. -/
theorem pop (h : w.Stacked P) (hpop : w.pop = some (o, w')) :
    (w'.mark o .inProgress).Stacked P := by
  obtain ⟨-, htable⟩ := pop_eq_some hpop
  intro p hp hstatus
  rw [status_mark] at hstatus
  split at hstatus
  · cases hstatus
  · rename_i hne
    rw [status, htable] at hstatus
    have hwaits : w.Waits p := ⟨hstatus, h p hp hstatus⟩
    exact ((hwaits.pop hpop).resolve_left (Ne.symm hne)).2

end Stacked

theorem pop_eq_none_of_anyQueued (h : w.anyQueued = false) : w.pop = none := by
  cases hpop : w.pop with
  | none => rfl
  | some taken =>
    rw [(waits_of_pop hpop).anyQueued] at h
    cases h

end Worklist

/-! ## What a session tells its observer -/

namespace Session

variable {allowed : Draft → Prop} {s t : Session} {o : OpId}

/-- What an observer keeps whatever it is told, it keeps along every sequence of steps. -/
theorem Steps.observer {Q : Observer → Prop} (hnotify : ∀ {observer observer' : Observer}
      {g : Graph} {n : Notice}, Q observer → observer.notify g n = .ok observer' → Q observer')
    (h : s.Steps allowed t) (hs : Q s.observer) : Q t.observer := by
  induction h with
  | refl => exact hs
  | tail _ hstep ih =>
    cases hstep with
    | insert _ _ _ hn => exact hnotify ih hn
    | updated hn => exact hnotify ih hn
    | redirect _ hn => exact hnotify ih hn
    | erase _ hn _ => exact foldlM_induction (P := Q) (fun _ _ _ _ hQ hn => hnotify hQ hn) ih hn
    | write | stop => exact ih

theorem Steps.covers (h : s.Steps allowed t) (hs : s.observer.Covers o) : t.observer.Covers o :=
  Steps.observer (Q := fun observer => observer.Covers o) (fun hQ hn => hQ.notify hn) h hs

theorem Steps.stacked {P : OpId → Prop} {w : Worklist} (h : s.Steps allowed t)
    (hs : s.observer = .worklist w) (hw : w.Stacked P) :
    ∃ w', t.observer = .worklist w' ∧ w'.Stacked P := by
  refine Steps.observer (Q := fun observer => ∃ w : Worklist, observer = .worklist w ∧ w.Stacked P)
    ?_ h ⟨w, hs, hw⟩
  rintro _ _ g n ⟨w, rfl, hw⟩ hn
  obtain ⟨w', rfl, hw'⟩ := Observer.notify_worklist hn
  exact ⟨w', rfl, hw.react hw'⟩

theorem Steps.marks_worklist {w w' : Worklist} (h : s.Steps allowed t)
    (ht : t.observer = .worklist w') (hs : s.observer = .worklist w)
    (hw : w.Marks s.graph.Gone) : w'.Marks t.graph.Gone := by
  have hend := h.marks (by rw [hs]; exact hw)
  rw [ht] at hend
  exact hend

/-- What is made is covered. -/
theorem Step.born (h : s.Step allowed t) {x : Op} (hx : t.graph.slot o = .ok x) :
    (∃ y, s.graph.slot o = .ok y) ∨ t.observer.Covers o := by
  cases h with
  | @insert a n d g₁ g₂ observer _ hnew hplace hn =>
    by_cases heq : o = n
    · subst heq
      refine .inr (Observer.covers_notify hn fun hw' => ?_)
      cases hw'
      exact Worklist.covers_queue _ o
    · obtain ⟨_, _, b, _, i, -, -, -, -, -, -, rfl⟩ := placeBefore_eq_ok.1 hplace
      rw [slot_put, if_neg (Ne.symm heq), slot_newOp hnew, if_neg heq] at hx
      exact .inl ⟨x, hx⟩
  | write _ hw =>
    obtain ⟨y, hy, -⟩ := (Rewired.writeSlot hw).symm.slot_ok hx
    exact .inl ⟨y, hy⟩
  | redirect hr _ =>
    obtain ⟨y, hy, -⟩ := (Rewired.redirectUses hr).symm.slot_ok hx
    exact .inl ⟨y, hy⟩
  | erase _ _ he =>
    obtain ⟨d, os, bs, -, -, he⟩ := dismantled_of_erase he
    obtain ⟨y, hy, -⟩ := (he.exists_slot (P := fun _ => True) fun _ => Iff.rfl).1
      ⟨x, hx, trivial⟩
    exact .inl ⟨y, hy⟩
  | updated | stop => exact .inl ⟨x, hx⟩

theorem Steps.born (h : s.Steps allowed t) {x : Op} (hx : t.graph.slot o = .ok x) :
    (∃ y, s.graph.slot o = .ok y) ∨ t.observer.Covers o := by
  induction h generalizing x with
  | refl => exact .inl ⟨x, hx⟩
  | tail _ hstep ih =>
    rcases hstep.born hx with ⟨y, hy⟩ | hcovers
    · exact (ih hy).imp_right fun hcovers => Steps.covers (.single hstep) hcovers
    · exact .inr hcovers

end Session

/-! ## Edits that are noticed -/

namespace Observer

variable {g : Graph} {observer observer' : Observer} {os : List OpId} {o : OpId}

/-- If one of the announcements covers an operation, all of them together do. -/
theorem covers_announced {e : OpId} (h : ∀ {w w' : Worklist}, w.react g (.erasing e) = .ok w' →
      w'.Covers o) (he : e ∈ os) (hobserver :
      os.foldlM (fun observer o => observer.notify g (.erasing o)) observer = .ok observer') :
    observer'.Covers o := by
  induction os generalizing observer with
  | nil => cases he
  | cons e' os ih =>
    rw [List.foldlM_cons, bind_eq_ok] at hobserver
    obtain ⟨observer₁, hone, hrest⟩ := hobserver
    rcases List.mem_cons.1 he with rfl | he
    · exact foldlM_induction (P := fun observer => observer.Covers o)
        (fun _ _ _ _ hcovers hn => hcovers.notify hn) (covers_notify hone h) hrest
    · exact ih he hrest

end Observer

namespace EditM

variable {s t : Session} {o : OpId} {u : Use}

/-! An operation whose slot is changed by an edit is covered. -/

theorem covers_of_insert {anchor : OpId} {d : Draft} {answer : Except EditError OpId}
    (h : (insert anchor d).runOn s = .ok (answer, t)) (hu : t.graph.held? u ≠ s.graph.held? u) :
    t.observer.Covers u.user := by
  obtain ⟨n, g₁, g₂, observer, hnew, hplace, hn, -, rfl⟩ := runOn_insert.1 h
  obtain ⟨_, _, b, _, i, -, -, -, -, -, -, rfl⟩ := placeBefore_eq_ok.1 hplace
  by_cases heq : u.user = n
  · subst heq
    refine Observer.covers_notify hn fun hw' => ?_
    cases hw'
    exact Worklist.covers_queue _ _
  · refine absurd ?_ hu
    rw [held?_put, held?_newOp hnew, if_neg heq]

theorem covers_of_attemptUpdate {slots : List (Nat × ValueId)} {ending : Ending}
    {answer : Except EditError (Except Fault (List ValueId))} (hs : s.graph.Coherent)
    (h : (attemptUpdate o slots ending).runOn s = .ok (answer, t))
    (hu : t.graph.held? u ≠ s.graph.held? u) : t.observer.Covers u.user := by
  rcases attemptUpdate_cases hs h with ⟨hg, -⟩ | ⟨vs, g, observer, hg, hn, rfl⟩
  · exact absurd (held?_congr (hg.slot u.user)) hu
  · by_cases heq : o = u.user
    · subst heq
      refine Observer.covers_notify hn fun hw' => ?_
      obtain ⟨users, -, hw'⟩ := bind_eq_ok.1 hw'
      cases hw'
      exact (Worklist.covers_queue _ _).queueAll users
    · refine absurd (held?_congr ?_) hu
      rw [hg.slot, if_neg heq]

/-- Whoever loses a value in a redirection is covered, and so is who makes the value. -/
theorem covers_of_redirectUses {old new : ValueId} {answer : Except EditError Unit}
    (hs : s.graph.Coherent) (hl : s.graph.Linked)
    (h : (redirectUses old new).runOn s = .ok (answer, t))
    (hu : t.graph.held? u ≠ s.graph.held? u) : t.observer.Covers u.user ∧
      ∀ {o d}, s.graph.op o = .ok d → old ∈ d.results → t.observer.Covers o := by
  obtain ⟨-, ⟨-, rfl⟩ | ⟨-, g, observer, hg, hn, rfl⟩⟩ := runOn_redirectUses.1 h
  · exact absurd rfl hu
  · obtain ⟨g', hg', -, hheld⟩ := hs.redirectUses_ok old new
    rw [hg] at hg'
    cases hg'
    have hold : s.graph.held? u = some old := by
      rw [hheld] at hu
      cases hv : s.graph.held? u with
      | none => simp [hv] at hu
      | some v =>
        by_cases heq : v = old
        · rw [heq]
        · simp [hv, heq] at hu
    have hmem : u.user ∈ s.graph.readers old := hs.mem_readers.2 ⟨u.index, hold⟩
    refine ⟨Observer.covers_notify hn fun hw' => (Worklist.covers_queueAll hmem).queueDefiner hw',
      fun {o d} hd hresult => ?_⟩
    have hr := Rewired.redirectUses hg
    obtain ⟨d', hd', hunread⟩ := hr.op_ok hd
    have hresults := congrArg Op.results hunread
    have hdefiner := (hl.rewired hr).definer?_of_result (slot_of_op hd') (hresults ▸ hresult)
    exact Observer.covers_notify hn fun hw' => Worklist.covers_queueDefiner hdefiner hd' hw'

/-- What is erased is covered, and so is who makes a value that it read. -/
theorem covers_of_erase {e : OpId} {answer : Except EditError Unit} (hl : s.graph.Linked)
    (h : (erase e).runOn s = .ok (answer, t)) (hu : t.graph.held? u ≠ s.graph.held? u) :
    t.observer.Covers u.user ∧ ∀ {o d v}, s.graph.held? u = some v → s.graph.op o = .ok d →
      v ∈ d.results → t.observer.Covers o := by
  obtain ⟨d, n, -, -, ⟨-, -, rfl⟩ | ⟨-, nested, observer, g, hnested, hn, hg, -, rfl⟩⟩ :=
    runOn_erase.1 h
  · exact absurd rfl hu
  · obtain ⟨x, os, bs, -, -, he⟩ := dismantled_of_erase hg
    have hmem : u.user ∈ nested ++ [e] := by
      by_cases hin : u.user ∈ os
      · simpa [or_comm] using (he.mem_iff hnested).1 hin
      · refine absurd (held?_congr ?_) hu
        rw [he.slot, if_neg hin]
    refine ⟨Observer.covers_announced (fun hw' => Worklist.covers_erased hw') hmem hn, ?_⟩
    intro o d v hv hd hresult
    obtain ⟨y, hy, hi⟩ := held?_eq_some.1 hv
    have hdefiner := hl.definer?_of_result (slot_of_op hd) hresult
    exact Observer.covers_announced (fun hw' =>
      Worklist.covers_operand hy (List.mem_of_getElem? hi) hdefiner hd hw') hmem hn

end EditM

namespace Session.Moment

variable {m : Moment} {o p : OpId} {d : Op}

/-- The edit changes a slot of the operation, or erases an operation that reads a result of it,
or redirects a use of such a result.  An update that is taken back is no change. -/
inductive Disturbs (m : Moment) (o : OpId) : Prop
  | slot {i : Nat} : m.after.graph.held? ⟨o, i⟩ ≠ m.before.graph.held? ⟨o, i⟩ → Disturbs m o
  | erased {d : Op} {v : ValueId} {u : Use} : m.before.graph.op o = .ok d → v ∈ d.results →
      m.before.graph.held? u = some v → m.after.graph.Gone u.user → Disturbs m o
  | redirected {d : Op} {v new : ValueId} {u : Use} : m.edit = .redirect v new →
      m.before.graph.op o = .ok d → v ∈ d.results → m.before.graph.held? u = some v →
      m.after.graph.held? u ≠ some v → Disturbs m o

/-- Only erasures erase. -/
theorem live (hs : m.before.graph.Coherent) (hm : ∀ e, m.edit ≠ .erase e)
    (hd : m.before.graph.op p = .ok d) : ∃ d', m.after.graph.op p = .ok d' := by
  obtain ⟨edit, s, t, hruns⟩ := m
  dsimp only at hs hm hd ⊢
  obtain ⟨hslot, herased⟩ := op_eq_ok.1 hd
  cases edit with
  | insert anchor x =>
    obtain ⟨answer, h⟩ := hruns
    obtain ⟨n, g₁, g₂, observer, hnew, hplace, hn, -, rfl⟩ := EditM.runOn_insert.1 h
    obtain ⟨_, _, b, _, i, -, -, -, -, -, -, rfl⟩ := placeBefore_eq_ok.1 hplace
    have hne : p ≠ n := by
      rintro rfl
      exact not_slot_of_newOp hnew d hslot
    exact ⟨d, by rw [op_put, if_neg hne.symm, op_newOp hnew, if_neg hne, hd]⟩
  | update o slots ending =>
    obtain ⟨answer, h⟩ := hruns
    rcases EditM.attemptUpdate_cases hs h with ⟨hg, -⟩ | ⟨vs, g, observer, hg, -, rfl⟩
    · exact ⟨d, op_eq_ok.2 ⟨(hg.slot p).trans hslot, herased⟩⟩
    · by_cases heq : o = p
      · subst heq
        exact ⟨_, hg.op hd⟩
      · exact ⟨d, op_eq_ok.2 ⟨by rw [hg.slot, if_neg heq, hslot], herased⟩⟩
  | redirect old new =>
    obtain ⟨answer, h⟩ := hruns
    obtain ⟨-, ⟨-, rfl⟩ | ⟨-, g, observer, hg, -, rfl⟩⟩ := EditM.runOn_redirectUses.1 h
    · exact ⟨d, hd⟩
    · obtain ⟨d', hd', -⟩ := (Rewired.redirectUses hg).op_ok hd
      exact ⟨d', hd'⟩
  | erase e => exact absurd rfl (hm e)
  | stop =>
    obtain ⟨answer, h⟩ := hruns
    cases h
    exact ⟨d, hd⟩

/-- Whatever is disturbed is covered. -/
theorem Disturbs.covers (h : m.Disturbs o) (hs : m.before.graph.Coherent)
    (hl : m.before.graph.Linked) : m.after.observer.Covers o := by
  cases h with
  | slot hi =>
    obtain ⟨edit, s, t, hruns⟩ := m
    cases edit with
    | insert anchor x =>
      obtain ⟨answer, h⟩ := hruns
      exact EditM.covers_of_insert h hi
    | update o slots ending =>
      obtain ⟨answer, h⟩ := hruns
      exact EditM.covers_of_attemptUpdate hs h hi
    | redirect old new =>
      obtain ⟨answer, h⟩ := hruns
      exact (EditM.covers_of_redirectUses hs hl h hi).1
    | erase e =>
      obtain ⟨answer, h⟩ := hruns
      exact (EditM.covers_of_erase hl h hi).1
    | stop =>
      obtain ⟨answer, h⟩ := hruns
      cases h
      exact absurd rfl hi
  | @erased d v u hd hresult hu hgone =>
    obtain ⟨x, hx, -⟩ := held?_eq_some.1 hu
    have hlost : m.after.graph.held? u ≠ m.before.graph.held? u := by
      rw [hu]
      intro hheld
      obtain ⟨y, hy, -⟩ := held?_eq_some.1 hheld
      exact hgone.not_live hy
    by_cases hm : ∃ e, m.edit = .erase e
    · obtain ⟨e, he⟩ := hm
      obtain ⟨edit, s, t, hruns⟩ := m
      cases he
      obtain ⟨answer, h⟩ := hruns
      exact (EditM.covers_of_erase hl h hlost).2 hu hd hresult
    · obtain ⟨y, hy⟩ := live hs (fun e he => hm ⟨e, he⟩) hx
      exact absurd hy hgone.not_live
  | @redirected d v new u hedit hd hresult hu hlost =>
    obtain ⟨edit, s, t, hruns⟩ := m
    cases hedit
    obtain ⟨answer, h⟩ := hruns
    have hlost' : t.graph.held? u ≠ s.graph.held? u := fun heq => hlost (heq.trans hu)
    exact (EditM.covers_of_redirectUses hs hl h hlost').2 hd hresult

end Session.Moment

/-- After a trail, what was disturbed on the way waits if it is live, and so does what was
covered or not live before. -/
theorem Session.Trail.waits {allowed : Draft → Prop} {s t : Session} {ms : List Moment}
    {w : Worklist} {o : OpId} {d : Op} (h : s.Trail allowed ms t) (hs : s.graph.Coherent)
    (hl : s.graph.Linked) (ht : t.observer = .worklist w) (hmarks : w.Marks t.graph.Gone)
    (hd : t.graph.op o = .ok d)
    (ho : (∃ m ∈ ms, m.Disturbs o) ∨ s.observer.Covers o ∨ ∀ x, s.graph.op o ≠ .ok x) :
    w.Waits o := by
  have hcovers : t.observer.Covers o := by
    rcases ho with ⟨m, hm, hdisturbs⟩ | hcovers | hnew
    · obtain ⟨-, hbefore, hafter⟩ := h.around hm
      have hcovers := hdisturbs.covers (hbefore.coherent hs) (hbefore.edited.linked hl)
      exact hafter.covers hcovers
    · exact h.steps.covers hcovers
    · rcases h.steps.born (slot_of_op hd) with ⟨x, hx⟩ | hcovers
      · -- what was erased before is never live again
        have hgone : s.graph.Gone o := by
          refine ⟨x, hx, Bool.of_not_eq_false fun hlive => ?_⟩
          exact hnew x (op_eq_ok.2 ⟨hx, hlive⟩)
        exact absurd hd (h.steps.gone hgone).not_live
      · exact hcovers
  rw [ht] at hcovers
  rcases hcovers with herased | hwaits
  · exact absurd hd (hmarks o herased).not_live
  · exact hwaits

/-! ## Attention -/

/-- The operation was dispatched, and since it was for the last time nothing has disturbed it.
What its last dispatch itself did counts too. -/
def Attended (o : OpId) (log : List SweepEvent) : Prop :=
  ∃ before after : List SweepEvent, log = before ++ .dispatched o :: after ∧
    .dispatched o ∉ after ∧ ∀ m : Session.Moment, .edited m ∈ after → ¬m.Disturbs o

section Attended

variable {o p : OpId} {log : List SweepEvent} {ms : List Session.Moment}

/-- The edits of a log that goes on with a dispatch. -/
theorem mem_log_dispatched {m : Session.Moment} :
    SweepEvent.edited m ∈ log ++ .dispatched o :: ms.map .edited ↔ .edited m ∈ log ∨ m ∈ ms := by
  simp

theorem attended_dispatched (hms : ∀ m ∈ ms, ¬m.Disturbs o) :
    Attended o (log ++ .dispatched o :: ms.map .edited) := by
  refine ⟨log, ms.map .edited, rfl, by simp, fun m hm => hms m ?_⟩
  simpa using hm

theorem Attended.append (h : Attended o log) (hne : p ≠ o) (hms : ∀ m ∈ ms, ¬m.Disturbs o) :
    Attended o (log ++ .dispatched p :: ms.map .edited) := by
  obtain ⟨before, after, rfl, hlast, hafter⟩ := h
  refine ⟨before, after ++ .dispatched p :: ms.map .edited, by simp, ?_, fun m hm => ?_⟩
  · simp [hlast, hne.symm]
  · exact (mem_log_dispatched.1 hm).elim (hafter m) (hms m)

end Attended

/-- The operation is nested under the root, or has not been made. -/
def Graph.Candidate (g : Graph) (root o : OpId) : Prop :=
  g.Inside root o ∨ ∀ d, g.slot o ≠ .ok d

/-- What comes to be nested under the root was so from the start, or is new. -/
theorem Graph.Reshaped.candidate {g₀ g : Graph} {root o : OpId} (h : g₀.Reshaped g)
    (hg : g₀.Linked) (ho : g.Inside root o) : g₀.Candidate root o := by
  by_cases hslot : ∃ d, g₀.slot o = .ok d
  · obtain ⟨d, hd⟩ := hslot
    obtain ⟨n, hn⟩ := ho
    exact .inl ⟨n, h.within hg hn hd⟩
  · exact .inr fun d hd => hslot ⟨d, hd⟩

/-- The observer is a worklist, and what is queued under the root is on its stack. -/
def Session.Stacked (root : OpId) (s : Session) : Prop :=
  ∃ w : Worklist, s.observer = .worklist w ∧ w.Stacked (s.graph.Inside root)

namespace Progress

variable {c : Config} {rules : RuleSet} {root o : OpId} {limit : Limit} {g g₀ : Graph}
  {p q r : Progress} {log : List SweepEvent}

/-- A sweep was begun on the graph `g₀`, and the log says what happened since.  What the root
may have under it by now is on the stack if it is queued, and has been attended to unless it
waits. -/
structure Watchful (g₀ : Graph) (root : OpId) (log : List SweepEvent) (p : Progress) : Prop where
  coherent : p.graph.Coherent
  linked : p.graph.Linked
  reshaped : g₀.Reshaped p.graph
  marks : p.worklist.Marks p.graph.Gone
  stacked : p.worklist.Stacked (g₀.Candidate root)
  attended {o : OpId} {d : Op} : g₀.Candidate root o → p.graph.op o = .ok d →
    p.worklist.Waits o ∨ Attended o log
  moments (m : Session.Moment) : .edited m ∈ log → m.before.Stacked root ∧ m.after.Stacked root

namespace Watchful

/-- The seeding makes everything under the root wait.  What is queued besides is live, so it is
not an operation that is made later. -/
theorem seed {ops : List OpId} (hfaithful : p.Faithful g) (hlinked : p.graph.Linked)
    (hmarks : p.worklist.Marks p.graph.Gone) (hops : p.graph.nestedOps root = .ok ops) :
    Watchful p.graph root [] (p.seeded ops) := by
  have hwaits : ∀ {o d}, p.graph.Candidate root o → p.graph.op o = .ok d →
      (p.worklist.queueAll ops.reverse).Waits o := by
    intro o d ho hd
    rcases ho with hin | hnew
    · obtain ⟨cs, hcs, hforest⟩ := nestedOps_eq_ok.1 hops
      exact waits_seed hmarks hops (hforest.mem_of_inside hlinked.housed hcs hin)
    · exact absurd (slot_of_op hd) (hnew d)
  refine ⟨hfaithful.coherent, hlinked, .refl _, hmarks.queueAll _, ?_, ?_, ?_⟩
  · intro o ho hstatus
    obtain ⟨d, hd⟩ := (hfaithful.seed hops).worklist.queued hstatus
    exact (hwaits ho hd).2
  · exact fun ho hd => .inl (hwaits ho hd)
  · intro m hm
    cases hm

/-- A dispatch keeps a sweep watchful.  What was disturbed waits, and so does what was made. -/
theorem turn (h : q.Watchful g₀ root log) (hg₀ : g₀.Linked) {w w' : Worklist}
    {ms : List Session.Moment} {t : Session} (hpop : q.worklist.pop = some (o, w))
    (hms : Session.Trail Draft.Flat
      { graph := q.graph, observer := .worklist (w.mark o .inProgress) } ms t)
    (hgraph : r.graph = t.graph) (ht : t.observer = .worklist w')
    (hr : r.worklist = w'.settle o) :
    r.Watchful g₀ root (log ++ .dispatched o :: ms.map .edited) := by
  have hsteps := hms.steps
  have hmarks : w'.Marks t.graph.Gone :=
    hsteps.marks_worklist ht rfl ((h.marks.pop hpop).mark nofun)
  have hstacked := h.stacked.pop hpop
  constructor
  case coherent =>
    rw [hgraph]
    exact hsteps.coherent h.coherent
  case linked =>
    rw [hgraph]
    exact hsteps.edited.linked h.linked
  case reshaped =>
    rw [hgraph]
    exact h.reshaped.trans (hsteps.edited.reshaped h.linked)
  case marks =>
    rw [hgraph, hr]
    exact hmarks.settle o
  case stacked =>
    obtain ⟨w'', hw'', hend⟩ := hsteps.stacked rfl hstacked
    rw [ht] at hw''
    cases hw''
    rw [hr]
    exact hend.settle o
  case attended =>
    intro p d hp hd
    rw [hgraph] at hd
    have hwaits := hms.waits h.coherent h.linked ht hmarks hd
    rw [hr]
    by_cases hdisturbed : ∃ m ∈ ms, m.Disturbs p
    · exact .inl ((hwaits (.inl hdisturbed)).settle o)
    have hquiet : ∀ m ∈ ms, ¬m.Disturbs p := fun m hm hd => hdisturbed ⟨m, hm, hd⟩
    by_cases heq : o = p
    · subst heq
      exact .inr (attended_dispatched hquiet)
    by_cases hlive : ∃ x, q.graph.op p = .ok x
    · obtain ⟨x, hx⟩ := hlive
      rcases h.attended hp hx with hwaited | hattended
      · have hw := (hwaited.pop hpop).resolve_left (Ne.symm heq)
        exact .inl ((hwaits (.inr (.inl (.inr (hw.mark heq _))))).settle o)
      · exact .inr (hattended.append heq hquiet)
    · have hnew : ∀ x, q.graph.op p ≠ .ok x := fun x hx => hlive ⟨x, hx⟩
      exact .inl ((hwaits (.inr (.inr hnew))).settle o)
  case moments =>
    intro m hm
    have hat : ∀ {s : Session}, Session.Steps Draft.Flat
        { graph := q.graph, observer := .worklist (w.mark o .inProgress) } s → s.Stacked root := by
      intro s hs
      obtain ⟨w'', hw'', hend⟩ := hs.stacked rfl hstacked
      have hreshaped := h.reshaped.trans (hs.edited.reshaped h.linked)
      exact ⟨w'', hw'', hend.mono fun p hp => hreshaped.candidate hg₀ hp⟩
    rcases mem_log_dispatched.1 hm with hm | hm
    · exact h.moments m hm
    · obtain ⟨hallowed, hbefore, -⟩ := hms.around hm
      exact ⟨hat hbefore, hat (hbefore.trans (Session.Moment.steps hallowed))⟩

theorem logged (h : p.Watchful g₀ root []) (hg₀ : g₀.Linked)
    (hlog : p.Logged Draft.Flat c rules root limit log q) : q.Watchful g₀ root log := by
  induction hlog with
  | start => exact h
  | turn _ _ hpop hms hgraph ht hr ih => exact ih.turn hg₀ hpop hms hgraph ht hr

/-- When nothing is left, everything under the root has been attended to. -/
theorem attended_of_pop (h : p.Watchful g₀ root log) (hg₀ : g₀.Linked)
    (hpop : p.worklist.pop = none) (ho : p.graph.Inside root o) : Attended o log := by
  obtain ⟨d, hd⟩ := ho.live
  rcases h.attended (h.reshaped.candidate hg₀ ho) hd with hwaits | hattended
  · exact absurd hpop hwaits.pop_ne_none
  · exact hattended

end Watchful

theorem Sweeps.visited {n : Nat} (h : Sweeps c rules root n p q)
    (hp : Visited c rules root g p) : Visited c rules root g q := by
  induction h with
  | none => exact hp
  | next hsweep _ _ ih => exact ih (hp.sweep hsweep)

end Progress

section Sweeps

variable {c : Config} {rules : RuleSet} {root : OpId} {limit : Limit} {g : Graph}
  {p q r : Progress}

/-- Trying operations on a copy does not finish a sweep. -/
theorem probe_ne_finished {copy : Graph} {ops : List OpId} :
    probe c rules p copy ops ≠ .ok (.finished, q) := by
  induction ops generalizing p copy with
  | nil => nofun
  | cons o ops ih =>
    intro h
    rw [probe, bind_eq_ok] at h
    obtain ⟨d, -, h⟩ := h
    dsimp only at h
    split at h
    · exact ih h
    · cases h
    · cases h

/-- A sweep is finished when nothing is left on the worklist or its cap is reached. -/
theorem turn_finished_cases (h : turn c rules root limit q = .ok (.done .finished r)) :
    r.graph = q.graph ∧ r.reductions = q.reductions ∧
      (q.worklist.pop = none ∨ ∃ k, limit = .cap k ∧ k ≤ q.reductions) := by
  obtain ⟨hgraph, hreductions⟩ := turn_done h (by simp)
  refine ⟨hgraph, hreductions, ?_⟩
  rcases turn_cases h with ht | ⟨hlimit, h⟩ | ⟨hpop, -⟩ | ⟨o, w, -, h⟩
  · cases ht
  · rcases limitTurn_cases h with ⟨k, rfl, -⟩ | ⟨hany, -⟩ | ⟨ops, e, q, -, hprobe, ht⟩
    · exact .inr ⟨k, rfl, hlimit⟩
    · exact .inl (Worklist.pop_eq_none_of_anyQueued hany)
    · cases ht
      exact absurd hprobe probe_ne_finished
  · exact .inl hpop
  · obtain ⟨x, hx⟩ := dispatchTurn_done h
    cases hx

/-- Let a run come to a sweep.  What happens in the sweep can be logged.  In every state it comes
to, and before and after every edit of a log, every operation under the root that is queued is
on the stack.  When nothing is left on the worklist, every operation under the root has been
dispatched and nothing has disturbed it since.  A sweep is finished then, or when it has reached
its cap. -/
theorem Progress.sweep_attends {n : Nat} (hg : g.Reachable false)
    (hrules : ∀ r ∈ rules.rules, ∀ o, (r.apply o).Program Draft.Flat)
    (hsweeps : Progress.Sweeps c rules root n (.start g) p) :
    (∀ {ops : List OpId} {q : Progress}, p.graph.nestedOps root = .ok ops →
      (p.seeded ops).Turns c rules root (p.limit c ops.length) q →
      (∃ log, (p.seeded ops).Logged Draft.Flat c rules root (p.limit c ops.length) log q) ∧
      (∀ {log : List SweepEvent},
        (p.seeded ops).Logged Draft.Flat c rules root (p.limit c ops.length) log q →
        q.worklist.Stacked (q.graph.Inside root) ∧
        (∀ m : Session.Moment, .edited m ∈ log → m.before.Stacked root ∧ m.after.Stacked root) ∧
        (q.worklist.pop = none → ∀ {o : OpId}, q.graph.Inside root o → Attended o log)) ∧
      ∀ {r : Progress}, turn c rules root (p.limit c ops.length) q = .ok (.done .finished r) →
        r.graph = q.graph ∧
          (q.worklist.pop = none ∨ ∃ k, p.limit c ops.length = .cap k ∧ k ≤ q.reductions)) ∧
    ∀ {r : Progress}, sweep c rules root p = .ok (.finished, r) →
      ∃ ops q log, p.graph.nestedOps root = .ok ops ∧
        (p.seeded ops).Logged Draft.Flat c rules root (p.limit c ops.length) log q ∧
        turn c rules root (p.limit c ops.length) q = .ok (.done .finished r) ∧
        r.graph = q.graph ∧ r.reductions = q.reductions ∧
        (q.worklist.pop = none ∧ (∀ {o : OpId}, r.graph.Inside root o → Attended o log) ∨
          ∃ k, p.limit c ops.length = .cap k ∧ k ≤ r.reductions) := by
  have hprograms : rules.Programs := fun r hr o => (hrules r hr o).mono fun _ _ => trivial
  have hvisited := hsweeps.visited .start
  have hlinked : p.graph.Linked := (hvisited.reachable hprograms hg).linked
  have hfaithful : p.Faithful g := (Progress.Faithful.start hg.coherent).sweeps hprograms hsweeps
  have hwatchful : ∀ {ops q log}, p.graph.nestedOps root = .ok ops →
      (p.seeded ops).Logged Draft.Flat c rules root (p.limit c ops.length) log q →
      q.Watchful p.graph root log := fun hops hlog =>
    (Progress.Watchful.seed hfaithful hlinked (hvisited.marks hprograms) hops).logged hlinked hlog
  refine ⟨fun {ops q} hops hturns => ⟨hturns.exists_log (fun _ _ => rfl) hrules, ?_, ?_⟩, ?_⟩
  · intro log hlog
    have hq := hwatchful hops hlog
    exact ⟨hq.stacked.mono fun o ho => hq.reshaped.candidate hlinked ho, hq.moments,
      fun hpop o ho => hq.attended_of_pop hlinked hpop ho⟩
  · intro r hdone
    obtain ⟨hgraph, -, hpop⟩ := turn_finished_cases hdone
    exact ⟨hgraph, hpop⟩
  · intro r hsweep
    obtain ⟨ops, hops, hdrain⟩ := bind_eq_ok.1 hsweep
    obtain ⟨q, hturns, hdone⟩ := drain_eq_ok.1 hdrain
    obtain ⟨log, hlog⟩ := hturns.exists_log (fun _ _ => rfl) hrules
    obtain ⟨hgraph, hreductions, hpop⟩ := turn_finished_cases hdone
    refine ⟨ops, q, log, hops, hlog, hdone, hgraph, hreductions, ?_⟩
    rw [hgraph, hreductions]
    refine hpop.imp_left fun hpop => ⟨hpop, fun ho => ?_⟩
    exact (hwatchful hops hlog).attended_of_pop hlinked hpop ho

/-- Both gates of a pair are exchanged.  The second one of the new gates is made when the sweep
has begun, and it has been looked at when the sweep is finished. -/
theorem Progress.sweep_attends_pair : ∃ r q log,
    sweep {} (RuleList.freeze ⟨[Rules.exchange .hadamard .pauliX]⟩) ⟨3⟩ (.start pairGraph) =
      .ok (.finished, r) ∧
    r.reductions = 2 ∧ r.graph.Inside ⟨3⟩ ⟨5⟩ ∧ q.worklist.pop = none ∧
    Progress.Logged Draft.Flat {} (RuleList.freeze ⟨[Rules.exchange .hadamard .pauliX]⟩) ⟨3⟩
      (.budget 10000) ((Progress.start pairGraph).seeded [⟨0⟩, ⟨1⟩, ⟨2⟩]) log q ∧
    Attended ⟨5⟩ log := by
  have hops : pairGraph.nestedOps ⟨3⟩ = .ok [⟨0⟩, ⟨1⟩, ⟨2⟩] := by decide +kernel
  have hrules : ∀ r ∈ (RuleList.freeze ⟨[Rules.exchange .hadamard .pauliX]⟩).rules, ∀ o,
      (r.apply o).Program Draft.Flat := by
    rintro r (_ | ⟨_, ⟨⟩⟩)
    exact Rules.exchange_program fun _ _ => rfl
  have hends : (sweepWithin {} (RuleList.freeze ⟨[Rules.exchange .hadamard .pauliX]⟩) ⟨3⟩ 9
      (.start pairGraph)).map (Prod.map id fun q => (q.reductions, q.graph.ownerOf? ⟨5⟩)) =
      some (.finished, 2, .ok (some ⟨3⟩)) := by
    rw [RuleList.freeze_eq]
    decide +kernel
  obtain ⟨⟨e, r⟩, hwithin, heq⟩ := Option.map_eq_some_iff.1 hends
  obtain ⟨rfl, hr⟩ := Prod.mk.inj heq
  obtain ⟨hreductions, howner⟩ := Prod.mk.inj hr
  have hsweep := sweep_of_sweepWithin hwithin
  have hinside : r.graph.Inside ⟨3⟩ ⟨5⟩ := ⟨0, .step howner .root⟩
  obtain ⟨-, hfinished⟩ := Progress.sweep_attends pairGraph_function.built hrules .none
  obtain ⟨ops, q, log, hops', hlog, -, -, -, hends⟩ := hfinished hsweep
  obtain rfl : _ = ops := Except.ok.inj (hops.symm.trans hops')
  -- there is a budget, so the sweep has no cap
  obtain ⟨hpop, hattended⟩ := hends.resolve_right (by rintro ⟨k, hcap, -⟩; cases hcap)
  exact ⟨r, q, log, hsweep, hreductions, hinside, hpop, hlog, hattended hinside⟩

end Sweeps

end Peephole
