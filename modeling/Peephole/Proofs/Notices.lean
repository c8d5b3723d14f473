import Peephole.Proofs.Wakeups

/-!
# How far a notice reaches

A worklist takes a notice by queueing some operations and, for an erasure, by marking one.
`Worklist.Reacts P w w'` says that all of these have a property.  For each edit of a session
there is a lemma with what has to have the property: what is inserted, who reads a value that
is replaced and who makes it, who reads what an updated operation makes, and who makes what an
erased operation reads.

This is the other side of `Session.Wakes`: there nothing is missed, and here nothing is added.
-/

namespace Peephole

open Peephole.Graph

namespace Worklist

variable {P : OpId → Prop} {w w' w'' : Worklist} {o : OpId} {g : Graph} {v : ValueId}

/-- Operations with the property have been queued or marked as erased, and nothing else. -/
inductive Reacts (P : OpId → Prop) (w : Worklist) : Worklist → Prop
  | none : Reacts P w w
  | queue {w' : Worklist} {o : OpId} : Reacts P w w' → P o → Reacts P w (w'.queue o)
  | erase {w' : Worklist} {o : OpId} : Reacts P w w' → P o → Reacts P w (w'.mark o .erased)

namespace Reacts

theorem trans (h : w.Reacts P w') (h' : w'.Reacts P w'') : w.Reacts P w'' := by
  induction h' with
  | none => exact h
  | queue _ ho ih => exact ih.queue ho
  | erase _ ho ih => exact ih.erase ho

/-- Whoever is queued was so before, or has the property. -/
theorem queued (h : w.Reacts P w') (ho : w'.status o = .queued) : w.status o = .queued ∨ P o := by
  induction h with
  | none => exact .inl ho
  | queue _ hp ih =>
    rw [status_queue] at ho
    split at ho
    · rename_i heq
      exact .inr (heq.1 ▸ hp)
    · exact ih ho
  | erase _ _ ih =>
    rw [status_mark] at ho
    split at ho
    · cases ho
    · exact ih ho

theorem queueAll {os : List OpId} (h : w.Reacts P w') (hos : ∀ o ∈ os, P o) :
    w.Reacts P (w'.queueAll os) := by
  induction os generalizing w' with
  | nil => exact h
  | cons o os ih => exact ih (h.queue (hos o (.head os))) fun p hp => hos p (.tail o hp)

theorem queueDefiner (h : w.Reacts P w') (hg : g.Linked)
    (hP : ∀ {x d}, g.op x = .ok d → v ∈ d.results → P x)
    (hw : Worklist.queueDefiner g w' v = .ok w'') : w.Reacts P w'' := by
  obtain ⟨definer, hdefiner, hw⟩ := bind_eq_ok.1 hw
  cases definer with
  | none =>
    cases hw
    exact h
  | some x =>
    obtain ⟨live, hlive, hw⟩ := bind_eq_ok.1 hw
    cases live with
    | false =>
      cases hw
      exact h
    | true =>
      cases hw
      obtain ⟨d, hd⟩ := isLive_eq_true.1 hlive
      obtain ⟨d', hd', hv⟩ := hg.definer?_eq_some hdefiner
      rw [slot_of_op hd] at hd'
      cases hd'
      exact h.queue (hP hd hv)

end Reacts

end Worklist

namespace Session

variable {P : OpId → Prop} {s t : Session} {w : Worklist} {o : OpId}

/-- The worklist of the second session comes from that of the first by queueing and marking
operations with the property. -/
def Tells (P : OpId → Prop) (s t : Session) : Prop :=
  ∀ w : Worklist, s.observer = .worklist w → ∃ w', t.observer = .worklist w' ∧ w.Reacts P w'

theorem Tells.trans {u : Session} (h : s.Tells P t) (h' : t.Tells P u) : s.Tells P u := by
  intro w hw
  obtain ⟨w', hw', hreacts⟩ := h w hw
  obtain ⟨w'', hw'', hreacts'⟩ := h' w' hw'
  exact ⟨w'', hw'', hreacts.trans hreacts'⟩

theorem tells_of_notify {g : Graph} {n : Notice} (hn : s.observer.notify g n = .ok t.observer)
    (h : ∀ {w w' : Worklist}, w.react g n = .ok w' → w.Reacts P w') : s.Tells P t := by
  intro w hw
  rw [hw] at hn
  obtain ⟨w', hw', hreact⟩ := Observer.notify_worklist hn
  exact ⟨w', hw', h hreact⟩

theorem Inserts.tells {a n : OpId} {d : Draft} (h : s.Inserts a d n t) (hn : P n) :
    s.Tells P t := by
  refine tells_of_notify h.told fun hw' => ?_
  cases hw'
  exact .queue .none hn

theorem Redirects.tells {old new : ValueId} (h : s.Redirects old new t) (hg : s.graph.Linked)
    (hc : s.graph.Coherent) (hreaders : ∀ {u}, s.graph.held? u = some old → P u.user)
    (hdefiner : ∀ {x d}, s.graph.op x = .ok d → old ∈ d.results → P x) : s.Tells P t := by
  rcases h.told with ⟨-, heq⟩ | htold
  · intro w hw
    exact ⟨w, heq.trans hw, .none⟩
  · refine tells_of_notify htold fun {w w'} hw' => ?_
    have hall : w.Reacts P (w.queueAll (s.graph.readers old)) := by
      refine Worklist.Reacts.none.queueAll fun p hp => ?_
      obtain ⟨i, hi⟩ := hc.mem_readers.1 hp
      exact hreaders hi
    refine hall.queueDefiner (hg.rewired h.graph.rewired) ?_ hw'
    intro x d hd hmem
    obtain ⟨d', hd', hresults⟩ := h.graph.rewired.symm.results hd
    exact hdefiner hd' (hresults ▸ hmem)

theorem Reroutes.tells {angle qubit : ValueId} (h : s.Reroutes o angle qubit t) (ho : P o)
    (hreaders : ∀ {d v u}, t.graph.op o = .ok d → v ∈ d.results → t.graph.held? u = some v →
      P u.user) : s.Tells P t := by
  refine tells_of_notify h.told fun {w w'} hw' => ?_
  obtain ⟨users, husers, hw'⟩ := bind_eq_ok.1 hw'
  cases hw'
  refine (Worklist.Reacts.none.queue ho).queueAll fun p hp => ?_
  obtain ⟨results, hresults, husers⟩ := bind_eq_ok.1 husers
  obtain ⟨d, hd, hresults⟩ := bind_eq_ok.1 hresults
  cases hresults
  cases husers
  rw [List.mem_eraseDups, List.mem_flatMap] at hp
  obtain ⟨v, hv, hp⟩ := hp
  obtain ⟨u, hu, rfl⟩ := List.mem_map.1 hp
  exact hreaders hd hv (h.graph.coherent.mem_uses.1 hu)

theorem Erases.tells (h : s.Erases o t) (hg : s.graph.Linked) (ho : P o)
    (hdefiner : ∀ {i v x d}, s.graph.held? ⟨o, i⟩ = some v → s.graph.op x = .ok d →
      v ∈ d.results → P x) : s.Tells P t := by
  refine tells_of_notify h.told fun {w w'} hw' => ?_
  obtain ⟨operands, hoperands, hw'⟩ := bind_eq_ok.1 hw'
  obtain ⟨d, hd, hoperands⟩ := bind_eq_ok.1 hoperands
  cases hoperands
  refine foldlM_induction (P := fun w' => w.Reacts P w') ?_ (.erase .none ho) hw'
  intro v hv w₁ w₂ hw₁ hw₂
  obtain ⟨i, hi⟩ := List.mem_iff_getElem?.1 hv
  have hheld : s.graph.held? ⟨o, i⟩ = some v := held?_eq_some.2 ⟨d, hd, hi⟩
  exact hw₁.queueDefiner hg (fun hx hmem => hdefiner hheld hx hmem) hw₂

end Session

end Peephole
