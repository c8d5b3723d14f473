import Peephole.Proofs.Preservation
import Peephole.Session.Observer

/-!
# What is queued

While a function is being reduced, its worklist only queues operations under the root.
An observer *tracks* the root if it is silent or such a worklist.  Every notice that an
edit of a valid function gives is taken without a fault, and the observer tracks the root
in the graph after the edit.
-/

namespace Peephole

namespace Worklist

variable {w w' : Worklist} {o p : OpId} {P : OpId → Prop}

/-- Every queued operation has the property. -/
def Queues (w : Worklist) (P : OpId → Prop) : Prop := ∀ o, w.status o = .queued → P o

theorem Queues.mono {Q : OpId → Prop} (h : w.Queues P) (hPQ : ∀ o, P o → Q o) : w.Queues Q :=
  fun o ho => hPQ o (h o ho)

theorem Queues.queue (h : w.Queues P) (ho : P o) : (w.queue o).Queues P := by
  intro p hp
  rw [status_queue] at hp
  split at hp
  · rename_i heq
    exact heq.1 ▸ ho
  · exact h p hp

theorem Queues.queueAll {os : List OpId} (h : w.Queues P) (hos : ∀ o ∈ os, P o) :
    (w.queueAll os).Queues P := by
  induction os generalizing w with
  | nil => exact h
  | cons o os ih => exact ih (h.queue (hos o (.head os))) fun p hp => hos p (.tail o hp)

theorem Queues.mark {s : Status} (h : w.Queues P) (hs : s ≠ .queued) : (w.mark o s).Queues P := by
  intro p hp
  rw [status_mark] at hp
  split at hp
  · exact absurd hp hs
  · exact h p hp

theorem Queues.settle (h : w.Queues P) : (w.settle o).Queues P := by
  rw [Worklist.settle]
  split
  · exact h.mark (by decide)
  · exact h

theorem status_queue_erased (h : w.status p = .erased) : (w.queue o).status p = .erased := by
  rw [status_queue, if_neg]
  · exact h
  · rintro ⟨rfl, hne⟩
    exact hne h

theorem pop_eq_some (h : w.pop = some (o, w')) :
    w.status o = .queued ∧ w'.table = w.table := by
  simp only [pop, Option.map_eq_some_iff, Prod.exists, Prod.mk.injEq] at h
  obtain ⟨p, rest, hn, rfl, rfl⟩ := h
  exact ⟨(queued_of_nextQueued hn).1, rfl⟩

theorem Queues.pop (h : w.Queues P) (hpop : w.pop = some (o, w')) : P o ∧ w'.Queues P := by
  obtain ⟨hstatus, htable⟩ := pop_eq_some hpop
  refine ⟨h o hstatus, ?_⟩
  intro p hp
  apply h p
  rw [status, htable] at hp
  exact hp

end Worklist

namespace Graph

variable {g g' : Graph} {root : OpId} {w : Worklist}

/-- The definer of a value is queued if it is live, and nothing else changes. -/
theorem queueDefiner_ok {P : OpId → Prop} {v : ValueId} {y : Value} (hg : g.Linked)
    (hy : g.value v = .ok y) (hw : w.Queues P)
    (hdef : ∀ {o d}, g.op o = .ok d → v ∈ d.results → P o) :
    ∃ w', Worklist.queueDefiner g w v = .ok w' ∧ w'.Queues P ∧
      ∀ e, w.status e = .erased → w'.status e = .erased := by
  cases horigin : y.origin with
  | argument b i =>
    refine ⟨w, ?_, hw, fun _ he => he⟩
    simp [Worklist.queueDefiner, definer?, origin, hy, horigin, Origin.op?]
  | result o i =>
    obtain ⟨x, hx, hi⟩ := hg.result.1 ⟨y, hy, horigin⟩
    have hdefiner : g.definer? v = .ok (some o) := by
      simp [definer?, origin, hy, horigin, Origin.op?]
    cases he : x.erased with
    | true =>
      refine ⟨w, ?_, hw, fun _ he => he⟩
      have hdead : g.isLive o = .ok false := isLive_eq_ok.2 ⟨x, hx, by simp [he]⟩
      simp [Worklist.queueDefiner, hdefiner, hdead]
    | false =>
      have hlive : g.op o = .ok x := op_eq_ok.2 ⟨hx, he⟩
      refine ⟨w.queue o, ?_, hw.queue (hdef hlive (List.mem_of_getElem? hi)), ?_⟩
      · simp [Worklist.queueDefiner, hdefiner, isLive_of_op hlive]
      · intro e he
        exact Worklist.status_queue_erased he

/-- A live definer of a value made under the root is under the root. -/
theorem Belongs.definer {v : ValueId} (hg : g.Linked) (h : g.Belongs root v) {o : OpId} {d : Op}
    (hd : g.op o = .ok d) (hv : v ∈ d.results) : g.Inside root o := by
  cases h with
  | result ho hx hv' =>
    obtain rfl := hg.result_unique (slot_of_op hx) hv' (slot_of_op hd) hv
    exact ho
  | argument _ _ _ hB _ hv' => exact absurd hv (hg.argument_not_result hB hv' (slot_of_op hd))

end Graph

namespace Observer

open Peephole.Graph

variable {g g' : Graph} {root : OpId} {observer : Observer}

/-- The observer is silent, or a worklist that queues operations under the root. -/
def Tracks (observer : Observer) (g : Graph) (root : OpId) : Prop :=
  match observer with
  | silent => True
  | recorder _ => False
  | worklist w => w.Queues (g.Inside root)

theorem Tracks.mono (h : observer.Tracks g root) (hg : ∀ {o}, g.Inside root o → g'.Inside root o) :
    observer.Tracks g' root := by
  cases observer with
  | silent => trivial
  | recorder events => exact h
  | worklist w => exact Worklist.Queues.mono h fun o ho => hg ho

/-- A notice that a worklist takes is taken.  It is given of the graph `h`, which is the
graph after the edit or, for an erasure, before it. -/
theorem Tracks.notify {h : Graph} {n : Notice} (htracks : observer.Tracks g root)
    (hreact : ∀ w : Worklist, w.Queues (g.Inside root) →
      ∃ w', w.react h n = .ok w' ∧ w'.Queues (g'.Inside root)) :
    ∃ observer', observer.notify h n = .ok observer' ∧ observer'.Tracks g' root := by
  cases observer with
  | silent => exact ⟨silent, rfl, trivial⟩
  | recorder events => cases htracks
  | worklist w =>
    obtain ⟨w', hw', hq⟩ := hreact w htracks
    exact ⟨worklist w', by simp [Observer.notify, hw'], hq⟩

/-! ## Notices of edits -/

theorem Tracks.inserted {a n : OpId} {d : Draft} (h : observer.Tracks g root)
    (hi : Inserted g a d n g') (ha : g.Inside root a) :
    ∃ observer', observer.notify g' (.inserted n) = .ok observer' ∧ observer'.Tracks g' root := by
  apply h.notify
  intro w hw
  have hw' : w.Queues (g'.Inside root) := hw.mono fun o ho => (hi.trimmed.inside_iff.1 ho).1
  exact ⟨w.queue n, rfl, hw'.queue (hi.inside ha)⟩

theorem Tracks.replaced {old : ValueId} {y : Value} (h : observer.Tracks g root)
    (hr : Rewired g g') (hlinked : g'.Linked) (hy : g.value old = .ok y)
    (hold : g.Belongs root old) (hreaders : ∀ o ∈ g.readers old, g.Inside root o) :
    ∃ observer', observer.notify g' (.replaced old (g.readers old)) = .ok observer' ∧
      observer'.Tracks g' root := by
  apply h.notify
  intro w hw
  have hw' : w.Queues (g'.Inside root) := hw.mono fun o ho => hr.inside ho
  have hall : (w.queueAll (g.readers old)).Queues (g'.Inside root) :=
    hw'.queueAll fun o ho => hr.inside (hreaders o ho)
  obtain ⟨w', hw', hq, -⟩ := queueDefiner_ok hlinked ((hr.value old).trans hy) hall
    fun hd hv => (hr.belongs hold).definer hlinked hd hv
  exact ⟨w', hw', hq⟩

theorem Tracks.updated {o : OpId} (h : observer.Tracks g root) (hg : g.Valid root)
    (ho : g.Inside root o) :
    ∃ observer', observer.notify g (.updated o) = .ok observer' ∧ observer'.Tracks g root := by
  apply h.notify
  intro w hw
  obtain ⟨d, hd⟩ := ho.live
  have husers : ∃ us, g.users o = .ok us ∧ ∀ p ∈ us, g.Inside root p := by
    refine ⟨_, by simp only [users, results, hd, ok_bind, pure_eq_ok]; rfl, ?_⟩
    intro p hp
    rw [List.mem_eraseDups, List.mem_flatMap] at hp
    obtain ⟨v, hv, hp⟩ := hp
    obtain ⟨u, hu, rfl⟩ := List.mem_map.1 hp
    exact hg.closed (hg.coherent.mem_uses.1 hu) (.result ho hd hv)
  obtain ⟨us, hus, hin⟩ := husers
  exact ⟨(w.queue o).queueAll us, by simp [Worklist.react, hus], (hw.queue ho).queueAll hin⟩

theorem Tracks.erased {e : OpId} (h : observer.Tracks g root) (hg : g.Valid root)
    (he : g.Inside root e) (hg' : Erased g e g') :
    ∃ observer', observer.notify g (.erasing e) = .ok observer' ∧ observer'.Tracks g' root := by
  apply h.notify
  intro w hw
  obtain ⟨d, hd⟩ := he.live
  have hqueue : ∀ (vs : List ValueId) (w : Worklist), (∀ v ∈ vs, g.Visible v e) →
      w.Queues (g.Inside root) → w.status e = .erased →
      ∃ w', vs.foldlM (Worklist.queueDefiner g) w = .ok w' ∧ w'.Queues (g.Inside root) ∧
        w'.status e = .erased := by
    intro vs
    induction vs with
    | nil =>
      intro w _ hw hstatus
      exact ⟨w, rfl, hw, hstatus⟩
    | cons v vs ih =>
      intro w hvs hw hstatus
      have hv := hvs v (.head vs)
      obtain ⟨y, hy⟩ := hv.exists hg.linked
      obtain ⟨w₁, h₁, hw₁, hkept⟩ := queueDefiner_ok hg.linked hy hw
        fun hd hmem => (hv.belongs hg.linked hg.detached he).definer hg.linked hd hmem
      obtain ⟨w', h', hw', hstatus'⟩ :=
        ih w₁ (fun u hu => hvs u (.tail v hu)) hw₁ (hkept e hstatus)
      exact ⟨w', by rw [List.foldlM_cons, h₁]; exact h', hw', hstatus'⟩
  have hoperands : ∀ v ∈ d.operands, g.Visible v e := by
    intro v hv
    obtain ⟨i, hi⟩ := List.mem_iff_getElem?.1 hv
    have hheld : g.held? ⟨e, i⟩ = some v := held?_eq_some.2 ⟨d, hd, hi⟩
    exact hg.visible hheld he
  obtain ⟨w', h', hw', hstatus⟩ := hqueue d.operands (w.mark e .erased) hoperands
    (hw.mark (by decide)) (by rw [Worklist.status_mark, if_pos rfl])
  refine ⟨w', by simpa [Worklist.react, operands, hd] using h', ?_⟩
  intro o ho
  refine hg'.trimmed.inside_iff.2 ⟨hw' o ho, ?_⟩
  rintro rfl
  rw [hstatus] at ho
  cases ho

end Observer

end Peephole
