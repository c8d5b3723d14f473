import Peephole.Proofs.Isolation
import Peephole.Proofs.Liveness
import Peephole.Proofs.Notices

/-!
# Runs on a part of a function

A run may be started at any operation, also at a branch in a function.  It queues the
operations nested in the branch, but its notices do not ask where an operation is.  The body of
a branch may read values from outside, and when the last reader of such a value goes, the
operation that made it is queued and goes too.  So a run stays in the function around its root,
and not always in its root (`Pass.simplify_strays`).

It stays in its root if nothing nested there reads a result of an operation outside
(`Graph.SelfContained`).  Each edit keeps this, and so does each reduction at an operation
nested in the root, and along the run only such operations are queued.
-/

namespace Peephole

open Peephole.Graph Relation

namespace Graph

variable {g g' g'' : Graph} {r o : OpId} {v : ValueId}

/-! ## Parts that read nothing from outside -/

/-- The value exists, and no live operation outside the root makes it. -/
structure Local (g : Graph) (r : OpId) (v : ValueId) : Prop where
  exist : ∃ y, g.value v = .ok y
  definer {x : OpId} {d : Op} : g.op x = .ok d → v ∈ d.results → g.Inside r x

/-- What is nested in the root reads no result from outside, and nobody outside reads a result
from there. -/
structure SelfContained (g : Graph) (r : OpId) : Prop where
  reads {u : Use} {v : ValueId} : g.held? u = some v → g.Inside r u.user → g.Local r v
  readers {u : Use} {v : ValueId} {x : OpId} {d : Op} : g.held? u = some v → g.op x = .ok d →
    v ∈ d.results → g.Inside r x → g.Inside r u.user

/-- What is live and not nested in the root stays so, with the same entry. -/
def OpsOutside (r : OpId) (g g' : Graph) : Prop :=
  ∀ x d, g.op x = .ok d → ¬g.Inside r x → g'.op x = .ok d ∧ ¬g'.Inside r x

theorem OpsOutside.refl (r : OpId) (g : Graph) : OpsOutside r g g := fun _ _ hx hout => ⟨hx, hout⟩

theorem OpsOutside.trans (h : OpsOutside r g g') (h' : OpsOutside r g' g'') :
    OpsOutside r g g'' := by
  intro x d hx hout
  obtain ⟨hx', hout'⟩ := h x d hx hout
  exact h' x d hx' hout'

theorem Local.inside {f : Formula} (h : g.Local r v) (hf : g.Computes o f v) : g.Inside r o := by
  obtain ⟨d, hd, hv, -⟩ := hf.op_ok
  exact h.definer hd hv

theorem Local.rewired (h : g.Local r v) (hr : Rewired g g') : g'.Local r v := by
  obtain ⟨y, hy⟩ := h.exist
  refine ⟨⟨y, (hr.value v).trans hy⟩, fun {x d} hx hmem => ?_⟩
  obtain ⟨d', hd', hresults⟩ := hr.symm.results hx
  exact hr.inside (h.definer hd' (hresults ▸ hmem))

/-- The operation is the one that makes the value, so it is local to where the operation is. -/
theorem Computes.local {f : Formula} (hf : g.Computes o f v) (hg : g.Linked)
    (ho : g.Inside r o) : g.Local r v := by
  refine ⟨hf.value_ok hg, ?_⟩
  intro x d hx hv
  obtain ⟨d', hd', hv', -⟩ := hf.op_ok
  rw [hg.result_unique (slot_of_op hx) hv (slot_of_op hd') hv']
  exact ho

/-- In a valid function, a part is self-contained as soon as it reads no result from outside. -/
theorem Valid.selfContained {top : OpId} {n : Nat} (h : g.Valid top) (hr : Within g top n r)
    (hreads : ∀ {u v}, g.held? u = some v → g.Inside r u.user → g.Local r v) :
    g.SelfContained r where
  reads := hreads
  readers {u v x d} hu hd hv hx := by
    have hin : g.Inside top x := by
      obtain ⟨m, hm⟩ := hx
      exact ⟨n + m, hr.trans hm⟩
    have huser := h.closed hu (.result hin hd hv)
    exact (h.visible hu huser).inside_of_result h.linked (slot_of_op hd) hv hx

end Graph

/-! ## Edits -/

namespace Session

variable {r o : OpId} {s t u : Session}

/-- The part under the root is self-contained, and what is queued and live is nested there. -/
structure Confined (r : OpId) (s : Session) : Prop where
  linked : s.graph.Linked
  coherent : s.graph.Coherent
  exist {u : Use} {v : ValueId} : s.graph.held? u = some v → ∃ y, s.graph.value v = .ok y
  part : s.graph.SelfContained r
  queues : ∃ w, s.observer = .worklist w ∧ ∀ {o d}, w.status o = .queued →
    s.graph.op o = .ok d → s.graph.Inside r o

/-- The second session is confined too, and nothing outside the root has changed. -/
structure Stays (r : OpId) (s t : Session) : Prop where
  confined : t.Confined r
  outside : OpsOutside r s.graph t.graph

theorem Stays.trans (h : s.Stays r t) (h' : t.Stays r u) : s.Stays r u :=
  ⟨h'.confined, h.outside.trans h'.outside⟩

/-- What is queued after an edit was queued before, or is told of. -/
theorem Confined.queues_of_tells {P : OpId → Prop} (h : s.Confined r) (htells : s.Tells P t)
    (hP : ∀ {o d}, P o → t.graph.op o = .ok d → t.graph.Inside r o)
    (hold : ∀ {o d}, t.graph.op o = .ok d →
      P o ∨ ∃ d', s.graph.op o = .ok d' ∧ (s.graph.Inside r o → t.graph.Inside r o)) :
    ∃ w, t.observer = .worklist w ∧ ∀ {o d}, w.status o = .queued → t.graph.op o = .ok d →
      t.graph.Inside r o := by
  obtain ⟨w, hw, hqueues⟩ := h.queues
  obtain ⟨w', hw', hreacts⟩ := htells w hw
  refine ⟨w', hw', fun {o d} ho hd => ?_⟩
  rcases hold hd with hp | ⟨d', hd', hin⟩
  · exact hP hp hd
  · rcases hreacts.queued ho with ho | hp
    · exact hin (hqueues ho hd')
    · exact hP hp hd

theorem Inserts.stays {a n : OpId} {e : Draft} (hi : s.Inserts a e n t) (h : s.Confined r)
    (ha : s.graph.Inside r a) (hoperands : ∀ v ∈ e.operands, s.graph.Local r v) : s.Stays r t := by
  have htrim := hi.graph.trimmed
  have hn : t.graph.Inside r n := hi.graph.inside ha
  have hold : ∀ {o}, s.graph.Inside r o → t.graph.Inside r o := fun ho => (htrim.inside_iff.1 ho).1
  have hvalue : ∀ {v}, (∃ y, s.graph.value v = .ok y) → ∃ y, t.graph.value v = .ok y := by
    rintro v ⟨y, hy⟩
    exact ⟨y, hi.graph.value.2 (.inl hy)⟩
  have hlocal : ∀ {v}, s.graph.Local r v → t.graph.Local r v := by
    intro v hv
    refine ⟨hvalue hv.exist, fun {x d} hx hmem => ?_⟩
    rcases eq_or_ne x n with rfl | hne
    · exact hn
    · exact hold (hv.definer ((htrim.op hne).trans hx) hmem)
  refine ⟨⟨hi.graph.linked, hi.graph.coherent h.coherent, ?_, ⟨?_, ?_⟩, ?_⟩, ?_⟩
  · intro u v hu
    rcases hi.graph.held_cases hu with ⟨-, hv⟩ | ⟨-, hu⟩
    · exact hvalue (hoperands v hv).exist
    · exact hvalue (h.exist hu)
  · intro u v hu huser
    rcases hi.graph.held_cases hu with ⟨-, hv⟩ | ⟨hne, hu⟩
    · exact hlocal (hoperands v hv)
    · exact hlocal (h.part.reads hu (htrim.inside_iff.2 ⟨huser, hne⟩))
  · intro u v x d hu hx hv hin
    rcases hi.graph.held_cases hu with ⟨huser, -⟩ | ⟨hne, hu⟩
    · exact huser ▸ hn
    · rcases eq_or_ne x n with rfl | hxn
      · -- nobody reads what has only just been made
        obtain ⟨y, hy⟩ := h.exist hu
        exact absurd hy (hi.graph.fresh hx hv y)
      · exact hold (h.part.readers hu ((htrim.op hxn).trans hx) hv (htrim.inside_iff.2 ⟨hin, hxn⟩))
  · refine h.queues_of_tells (hi.tells (P := (· = n)) rfl) (fun heq _ => heq ▸ hn)
      fun {o d} hd => ?_
    rcases eq_or_ne o n with rfl | hne
    · exact .inl rfl
    · exact .inr ⟨d, (htrim.op hne).trans hd, hold⟩
  · intro x d hx hout
    have hne : x ≠ n := htrim.ne_of_op hx
    refine ⟨htrim.op_ok hx, fun hin => hout (htrim.inside_iff.2 ⟨hin, hne⟩)⟩

theorem Redirects.stays {old new : ValueId} {e : Op} (hr : s.Redirects old new t)
    (h : s.Confined r) (he : s.graph.op o = .ok e) (hold : old ∈ e.results)
    (ho : s.graph.Inside r o) (hnew : s.graph.Local r new) : s.Stays r t := by
  have hrew := hr.graph.rewired
  have hreaders : ∀ {u}, s.graph.held? u = some old → s.graph.Inside r u.user := fun hu =>
    h.part.readers hu he hold ho
  have hlocal : ∀ {v}, s.graph.Local r v → t.graph.Local r v := fun hv => hv.rewired hrew
  refine ⟨⟨h.linked.rewired hrew, hr.graph.coherent, ?_, ⟨?_, ?_⟩, ?_⟩, ?_⟩
  · intro u v hu
    rw [hrew.value]
    rcases hr.graph.held_cases hu with ⟨hu, -⟩ | ⟨-, rfl⟩
    · exact h.exist hu
    · exact hnew.exist
  · intro u v hu huser
    rcases hr.graph.held_cases hu with ⟨hu, -⟩ | ⟨-, rfl⟩
    · exact hlocal (h.part.reads hu (hrew.symm.inside huser))
    · exact hlocal hnew
  · intro u v x d hu hx hv hin
    rcases hr.graph.held_cases hu with ⟨hu, -⟩ | ⟨hu, -⟩
    · obtain ⟨d', hd', hresults⟩ := hrew.symm.results hx
      exact hrew.inside (h.part.readers hu hd' (hresults ▸ hv) (hrew.symm.inside hin))
    · exact hrew.inside (hreaders hu)
  · have htells := hr.tells (P := s.graph.Inside r) h.linked h.coherent hreaders
      fun {x d} hx hv => by
        rw [h.linked.result_unique (slot_of_op hx) hv (slot_of_op he) hold]
        exact ho
    refine h.queues_of_tells htells (fun hin _ => hrew.inside hin) fun {o d} hd => ?_
    obtain ⟨d', hd', -⟩ := hrew.symm.op_ok hd
    exact .inr ⟨d', hd', hrew.inside⟩
  · intro x d hx hout
    refine ⟨?_, fun hin => hout (hrew.symm.inside hin)⟩
    have hsame : ∀ i, t.graph.held? ⟨x, i⟩ = (s.graph.held? ⟨x, i⟩).map id := by
      intro i
      rw [hr.graph.held]
      cases hheld : s.graph.held? ⟨x, i⟩ with
      | none => rfl
      | some v =>
        have hne : v ≠ old := by
          rintro rfl
          exact hout (hreaders hheld)
        simp [hne]
    have hx' := hrew.op_map (σ := id) hx hsame
    rwa [List.map_id] at hx'

theorem Reroutes.stays {angle qubit : ValueId} (hr : s.Reroutes o angle qubit t)
    (h : s.Confined r) (ho : s.graph.Inside r o) (hangle : s.graph.Local r angle)
    (hqubit : s.graph.Local r qubit) : s.Stays r t := by
  have hrew := hr.graph.rewired
  have hlocal : ∀ {v}, s.graph.Local r v → t.graph.Local r v := fun hv => hv.rewired hrew
  have hpart : t.graph.SelfContained r := by
    refine ⟨?_, ?_⟩
    · intro u v hu huser
      rcases hr.graph.held_cases hu with ⟨-, rfl⟩ | ⟨-, rfl⟩ | ⟨-, -, hu⟩
      · exact hlocal hqubit
      · exact hlocal hangle
      · exact hlocal (h.part.reads hu (hrew.symm.inside huser))
    · intro u v x d hu hx hv hin
      rcases hr.graph.held_cases hu with ⟨rfl, -⟩ | ⟨rfl, -⟩ | ⟨-, -, hu⟩
      · exact hrew.inside ho
      · exact hrew.inside ho
      · obtain ⟨d', hd', hresults⟩ := hrew.symm.results hx
        exact hrew.inside (h.part.readers hu hd' (hresults ▸ hv) (hrew.symm.inside hin))
  refine ⟨⟨h.linked.rewired hrew, hr.graph.coherent, ?_, hpart, ?_⟩, ?_⟩
  · intro u v hu
    rw [hrew.value]
    rcases hr.graph.held_cases hu with ⟨-, rfl⟩ | ⟨-, rfl⟩ | ⟨-, -, hu⟩
    · exact hqubit.exist
    · exact hangle.exist
    · exact h.exist hu
  · have htells := hr.tells (P := t.graph.Inside r) (hrew.inside ho)
      fun hd hv hu => hpart.readers hu hd hv (hrew.inside ho)
    refine h.queues_of_tells htells (fun hin _ => hin) fun {o d} hd => ?_
    obtain ⟨d', hd', -⟩ := hrew.symm.op_ok hd
    exact .inr ⟨d', hd', hrew.inside⟩
  · intro x d hx hout
    have hne : x ≠ o := by
      rintro rfl
      exact hout ho
    exact ⟨hr.graph.op hne hx, fun hin => hout (hrew.symm.inside hin)⟩

theorem Erases.stays (he : s.Erases o t) (h : s.Confined r) (ho : s.graph.Inside r o) :
    s.Stays r t := by
  have htrim := he.graph.trimmed
  have hlocal : ∀ {v}, s.graph.Local r v → t.graph.Local r v := by
    intro v hv
    refine ⟨by rw [he.graph.value]; exact hv.exist, fun {x d} hx hmem => ?_⟩
    exact htrim.inside_iff.2 ⟨hv.definer (htrim.op_ok hx) hmem, htrim.ne_of_op hx⟩
  refine ⟨⟨he.graph.linked, he.graph.coherent h.coherent, ?_, ⟨?_, ?_⟩, ?_⟩, ?_⟩
  · intro u v hu
    rw [he.graph.value]
    exact h.exist (he.graph.held_cases hu).2
  · intro u v hu huser
    exact hlocal (h.part.reads (he.graph.held_cases hu).2 (htrim.inside_iff.1 huser).1)
  · intro u v x d hu hx hv hin
    obtain ⟨hne, hu⟩ := he.graph.held_cases hu
    exact htrim.inside_iff.2
      ⟨h.part.readers hu (htrim.op_ok hx) hv (htrim.inside_iff.1 hin).1, hne⟩
  · have htells := he.tells (P := s.graph.Inside r) h.linked ho
      fun hheld hd hv => (h.part.reads hheld ho).definer hd hv
    refine h.queues_of_tells htells
      (fun hin hd => htrim.inside_iff.2 ⟨hin, htrim.ne_of_op hd⟩) fun {o d} hd => ?_
    exact .inr ⟨d, htrim.op_ok hd, fun hin => htrim.inside_iff.2 ⟨hin, htrim.ne_of_op hd⟩⟩
  · intro x d hx hout
    have hne : x ≠ o := by
      rintro rfl
      exact hout ho
    exact ⟨(htrim.op hne).trans hx, fun hin => hout (htrim.inside_iff.1 hin).1⟩

/-- The uses of what an operation makes are moved to a local value, and the operation goes. -/
theorem Redirects.stays_erases {f : Formula} {v w : ValueId} (hr : s.Redirects v w t)
    (he : t.Erases o u) (h : s.Confined r) (hf : s.graph.Computes o f v)
    (ho : s.graph.Inside r o) (hw : s.graph.Local r w) : s.Stays r u := by
  obtain ⟨d, hd, hv, -⟩ := hf.op_ok
  have h' := hr.stays h hd hv ho hw
  exact h'.trans (he.stays h'.confined (hr.graph.rewired.inside ho))

theorem Redirects.inside_erases {p : OpId} {v w : ValueId} (hr : s.Redirects v w t)
    (he : t.Erases o u) (hp : s.graph.Inside r p) (hne : p ≠ o) : u.graph.Inside r p :=
  he.graph.trimmed.inside_iff.2 ⟨hr.graph.rewired.inside hp, hne⟩

/-- A reduction at an operation nested in the root stays there. -/
theorem Reduction.stays {axes : Rules.AxisMatch} (hred : s.Reduction axes o t) (h : s.Confined r)
    (ho : s.graph.Inside r o) : s.Stays r t := by
  -- what an operation in the root reads is local, and so its definer is in the root too
  have hreads : ∀ {p f v w} (i : Nat), s.graph.Computes p f v → s.graph.Inside r p →
      f.operands[i]? = some w → s.graph.Local r w := by
    intro p f v w i hf hp hw
    exact h.part.reads ((hf.held? i).trans hw) hp
  cases hred with
  | unused _ _ _ he => exact he.stays h ho
  | sum hf _ _ hi hn hr he =>
    have h₁ := hi.stays h ho fun v hv => nomatch hv
    have hn' := hn.local h₁.confined.linked (hi.graph.inside ho)
    exact h₁.trans (hr.stays_erases he h₁.confined (hi.graph.computes hf)
      (hi.graph.trimmed.inside_iff.1 ho).1 hn')
  | pair hf hp hpo hr he he' =>
    have hpin := (hreads 0 hf ho rfl).inside hp.computes
    have h₂ := hr.stays_erases he h hf ho (hreads 0 hp.computes hpin rfl)
    exact h₂.trans (he'.stays h₂.confined
      (hr.inside_erases he hpin (h.linked.ne_of_precedes hpo)))
  | conjugation hf hx hxo hp hpx _ hd hi hn hr he he' he'' =>
    have hxin := (hreads 0 hf ho rfl).inside hx.computes
    have hpin := (hreads 0 hx.computes hxin rfl).inside hp.computes
    have hold : ∀ {y}, s.graph.Inside r y → _ := fun hy => (hi.graph.trimmed.inside_iff.1 hy).1
    have h₁ := hi.stays h ho fun v hv => by
      rw [hd, List.mem_singleton] at hv
      exact hv ▸ hreads 0 hp.computes hpin rfl
    have hn' := hn.local h₁.confined.linked (hi.graph.inside ho)
    have h₃ := h₁.trans (hr.stays_erases he h₁.confined (hi.graph.computes hf) (hold ho) hn')
    have hpo := h.linked.precedes_trans hpx hxo
    have h₄ := h₃.trans (he'.stays h₃.confined
      (hr.inside_erases he (hold hxin) (h.linked.ne_of_precedes hxo)))
    refine h₄.trans (he''.stays h₄.confined (he'.graph.trimmed.inside_iff.2 ⟨?_, ?_⟩))
    · exact hr.inside_erases he (hold hpin) (h.linked.ne_of_precedes hpo)
    · exact h.linked.ne_of_precedes hpx
  | fusion hf hp _ _ _ hi hn hr he =>
    have hpin := (hreads 1 hf ho rfl).inside hp.computes
    have h₁ := hi.stays h hpin fun v hv => by
      rcases List.mem_cons.1 hv with rfl | hv
      · exact hreads 0 hp.computes hpin rfl
      · rw [List.mem_singleton.1 hv]
        exact hreads 0 hf ho rfl
    have hold : ∀ {y}, s.graph.Inside r y → _ := fun hy => (hi.graph.trimmed.inside_iff.1 hy).1
    have hinput := h₁.confined.part.reads ((hi.graph.computes hp.computes).held? 1) (hold hpin)
    have h₂ := h₁.trans (hr.stays h₁.confined (hold ho)
      (hn.local h₁.confined.linked (hi.graph.inside hpin)) hinput)
    exact h₂.trans (he.stays h₂.confined (hr.graph.rewired.inside (hold hpin)))

end Session

/-! ## Turns -/

section Turns

variable {axes : Rules.AxisMatch} {c : Config} {rules : RuleSet} {limit : Limit} {g g' : Graph}
  {top r : OpId} {n : Nat} {p q : Progress}

/-- An operation that owns a region is in the function. -/
def Graph.OwnsWithin (top r : OpId) (g : Graph) : Prop :=
  ∀ ρ R, g.region ρ = .ok R → R.owner = some r → ∃ n, Within g top n r

/-- Edits leave the regions alone, and what owns one is not erased. -/
theorem Graph.Edit.ownsWithin (he : Edit axes top g g') (h : g.OwnsWithin top r) :
    g'.OwnsWithin top r := by
  intro ρ R hR hr
  cases he with
  | insert _ _ _ _ _ hi =>
    rw [← hi.trimmed.region] at hR
    obtain ⟨n, hn⟩ := h ρ R hR hr
    exact ⟨n, hi.trimmed.within_old hn⟩
  | redirect _ _ _ hredirected =>
    rw [hredirected.rewired.region] at hR
    obtain ⟨n, hn⟩ := h ρ R hR hr
    exact ⟨n, hredirected.rewired.within hn⟩
  | fuse _ _ _ _ _ _ _ _ hrerouted =>
    rw [hrerouted.rewired.region] at hR
    obtain ⟨n, hn⟩ := h ρ R hR hr
    exact ⟨n, hrerouted.rewired.within hn⟩
  | erase _ _ _ he =>
    rw [he.trimmed.region] at hR
    obtain ⟨n, hn⟩ := h ρ R hR hr
    refine ⟨n, he.trimmed.within hn ?_⟩
    rintro rfl
    exact he.trimmed.free hR hr

theorem Graph.Edit.ownsWithin_all (he : ReflTransGen (Edit axes top) g g')
    (h : g.OwnsWithin top r) : g'.OwnsWithin top r := by
  induction he with
  | refl => exact h
  | tail _ he ih => exact he.ownsWithin ih

theorem Graph.Linked.inside_of_mem_nestedOps {ops : List OpId} {o : OpId} (hg : g.Linked)
    (hops : g.nestedOps r = .ok ops) (ho : o ∈ ops) : g.Inside r o := by
  obtain ⟨cs, hcs, hforest⟩ := nestedOps_eq_ok.1 hops
  obtain ⟨a, ha, k, hk⟩ := hforest.within hg.housed ho
  have hstep : Within g r 1 a := .step ((hg.housed.mem_children_iff hcs).1 ha) .root
  exact ⟨k, Nat.add_comm 1 k ▸ hstep.trans hk⟩

theorem Worklist.Queues.empty {P : OpId → Prop} : Worklist.empty.Queues P := by
  intro o ho
  rw [Worklist.status_empty] at ho
  cases ho

theorem Worklist.Queues.of_table {w w' : Worklist} {P : OpId → Prop} (h : w.Queues P)
    (htable : w'.table = w.table) : w'.Queues P := by
  intro o ho
  rw [Worklist.status, htable] at ho
  exact h o ho

namespace Progress

/-- A turn of a run in a function makes an advance in the function, or it is the last one and
leaves the graph and the statuses alone. -/
theorem Sound.turned {start : OpId} {t : Turn} (hrules : rules.Regular axes top)
    (hp : p.Sound top) (h : turn c rules start limit p = .ok t) :
    p.Advance axes c rules top t.progress ∨
      t.progress.graph = p.graph ∧ t.progress.worklist.table = p.worklist.table := by
  rcases turn_cases h with rfl | ⟨-, h⟩ | ⟨-, rfl⟩ | ⟨o, w, hpop, h⟩
  · exact .inr ⟨rfl, rfl⟩
  · rcases limitTurn_cases h with ⟨n, -, rfl⟩ | ⟨-, rfl⟩ | ⟨ops, e, q, -, hprobe, rfl⟩
    · exact .inr ⟨rfl, rfl⟩
    · exact .inr ⟨rfl, rfl⟩
    · obtain ⟨hgraph, hworklist, -⟩ := probe_graph hprobe
      exact .inr ⟨hgraph, congrArg Worklist.table hworklist⟩
  · exact .inr ⟨rfl, rfl⟩
  · rcases dispatchTurn_cases h with ⟨hdead, -⟩ | ⟨-, d, hd, h⟩
    · obtain ⟨x, hx⟩ := (hp.queues.pop hpop).1.live
      rw [isLive_of_op hx] at hdead
      cases hdead
    · left
      rcases hp.dispatched hrules hpop hd with ⟨hv, hadvance⟩ | ⟨name, hv, hadvance⟩
      · rw [hv] at h
        subst h
        exact hadvance
      · rw [hv] at h
        obtain ⟨report, -, rfl⟩ := h
        split
        · exact hadvance
        · exact hadvance

/-- The function around the root of a run: the run is sound there, nothing outside has changed,
and the root is still in the function if anything can be nested in it. -/
structure Around (top r : OpId) (g : Graph) (p : Progress) : Prop where
  sound : p.Sound top
  same : SameOutside top g p.graph
  root : p.graph.OwnsWithin top r

/-- What the root holds is self-contained and nothing else is queued, and what is outside the
root is as it was. -/
structure Confined (r : OpId) (g : Graph) (p : Progress) : Prop where
  part : p.graph.SelfContained r
  queues : p.worklist.Queues (p.graph.Inside r)
  outside : OpsOutside r g p.graph

theorem Advance.around (h : p.Advance axes c rules top q) (hp : p.Around top r g) :
    q.Around top r g := by
  refine ⟨h.sound hp.sound, ?_, ?_⟩
  · cases h with
    | passes _ _ _ hgraph =>
      rw [graph_passed, hgraph]
      exact hp.same
    | reduces _ _ _ _ _ hs hleads _ hgraph =>
      rw [graph_reduced, hgraph]
      subst hs
      exact hp.same.trans hleads.outside
  · cases h with
    | passes _ _ _ hgraph =>
      rw [graph_passed, hgraph]
      exact hp.root
    | reduces _ _ _ _ _ hs hleads _ hgraph =>
      rw [graph_reduced, hgraph]
      subst hs
      exact Edit.ownsWithin_all hleads.edits hp.root

theorem Advance.confined (h : p.Advance axes c rules top q) (hp : p.Sound top)
    (hconf : p.Confined r g) : q.Confined r g := by
  cases h with
  | passes hpop _ _ hgraph _ =>
    refine ⟨?_, ?_, ?_⟩
    · rw [graph_passed, hgraph]
      exact hconf.part
    · rw [graph_passed, worklist_passed, hgraph]
      exact ((hconf.queues.pop hpop).2.mark (by decide)).settle
    · rw [graph_passed, hgraph]
      exact hconf.outside
  | @reduces o w w' d name s t hpop _ _ _ _ hs hleads hred hgraph hobserver hw' =>
    obtain ⟨ho, hw⟩ := hconf.queues.pop hpop
    have hsession : s.Confined r := by
      subst hs
      exact ⟨hp.valid.linked, hp.valid.coherent, hp.valid.exist, hconf.part, _, rfl,
        fun hqueued _ => hw.mark (s := .inProgress) (by decide) _ hqueued⟩
    have hstays := hred.stays hsession (by rw [hs]; exact ho)
    refine ⟨?_, ?_, ?_⟩
    · rw [graph_reduced, hgraph]
      exact hstays.confined.part
    · rw [graph_reduced, worklist_reduced, hgraph, hw', Observer.worklistD]
      have htracks := hleads.sound.tracks
      obtain ⟨w'', hw'', hqueues⟩ := hstays.confined.queues
      rw [hobserver] at htracks hw''
      cases hw''
      refine Worklist.Queues.settle fun x hx => ?_
      obtain ⟨y, hy⟩ := (htracks x hx).live
      exact hqueues hx hy
    · rw [graph_reduced, hgraph]
      subst hs
      exact hconf.outside.trans hstays.outside

/-- A run in a function stays in the function. -/
theorem Visited.around (hrules : rules.Regular axes top) (hg : g.Valid top)
    (hr : Within g top n r) (h : Visited c rules r g q) : q.Around top r g := by
  have hturn : ∀ {p : Progress} {t : Turn} {limit : Limit}, p.Around top r g →
      turn c rules r limit p = .ok t → t.progress.Around top r g := by
    intro p t limit hp ht
    rcases hp.sound.turned hrules ht with hadvance | ⟨hgraph, htable⟩
    · exact hadvance.around hp
    · have hqueues := hp.sound.queues.of_table htable
      rw [← hgraph] at hqueues
      exact ⟨⟨hgraph ▸ hp.sound.valid, hqueues⟩, hgraph ▸ hp.same, hgraph ▸ hp.root⟩
  induction h with
  | start => exact ⟨⟨hg, .empty⟩, .refl hg.linked, fun _ _ _ _ => ⟨n, hr⟩⟩
  | seed hp hops ih =>
    refine ⟨⟨ih.sound.valid, ih.sound.queues.queueAll fun o ho => ?_⟩, ih.same, ih.root⟩
    obtain ⟨k, hk⟩ := ih.sound.valid.linked.inside_of_mem_nestedOps hops (List.mem_reverse.1 ho)
    obtain ⟨x, howner⟩ := Inside.owns ⟨k, hk⟩
    obtain ⟨ρ, R, -, hR, hown⟩ := ownerOf?_eq_some.1 howner
    obtain ⟨m, hm⟩ := ih.root ρ R hR hown
    exact ⟨m + k, hm.trans hk⟩
  | again _ ht ih => exact hturn ih ht
  | done _ ht ih => exact hturn ih ht

/-- A run on a self-contained part of a function stays in the part. -/
theorem Visited.confined (hrules : rules.Regular axes top) (hg : g.Valid top)
    (hr : Within g top n r) (hpart : g.SelfContained r) (h : Visited c rules r g q) :
    q.Confined r g := by
  have hturn : ∀ {p : Progress} {t : Turn} {limit : Limit}, Visited c rules r g p →
      p.Confined r g → turn c rules r limit p = .ok t → t.progress.Confined r g := by
    intro p t limit hvisited hp ht
    have hsound := (hvisited.around hrules hg hr).sound
    rcases hsound.turned hrules ht with hadvance | ⟨hgraph, htable⟩
    · exact hadvance.confined hsound hp
    · have hqueues := hp.queues.of_table htable
      rw [← hgraph] at hqueues
      exact ⟨hgraph ▸ hp.part, hqueues, hgraph ▸ hp.outside⟩
  induction h with
  | start => exact ⟨hpart, .empty, .refl r g⟩
  | seed hp hops ih =>
    have hlinked := (hp.around hrules hg hr).sound.valid.linked
    refine ⟨ih.part, ih.queues.queueAll fun o ho => ?_, ih.outside⟩
    exact hlinked.inside_of_mem_nestedOps hops (List.mem_reverse.1 ho)
  | again hp ht ih => exact hturn hp ih ht
  | done hp ht ih => exact hturn hp ih ht

end Progress

/-- Operations that are dispatched in vain on a copy leave it alone. -/
theorem Probed.nested {copy : Graph} {ops : List OpId} {o : OpId} (hrules : rules.Clean)
    (h : Probed c rules g ops copy o) : copy = g ∧ o ∈ ops := by
  induction h with
  | here => exact ⟨rfl, .head _⟩
  | later hd hv _ ih =>
    obtain ⟨calls, hd'⟩ := idle_of_dispatch hrules hd hv .silent
    rw [hd] at hd'
    cases hd'
    exact ⟨ih.1, .tail _ ih.2⟩

theorem Graph.Valid.not_inside_self (h : g.Valid top) (hr : Within g top n r) :
    ¬g.Inside r r := by
  rintro ⟨k, hk⟩
  have hno : ¬g.Inside top top := not_inside_of_no_owner h.detached.no_owner
  have hlevel := Within.level_unique hno hr (hr.trans hk)
  omega

/-- A run of the pass may be started at any operation of a function.  It stays in the function,
and only operations nested in its root are tried on a copy.  If whatever is read in the root is
not made by an operation outside it, the run stays in the root: only what is nested there is
taken off the worklist, and the root and the operations outside it stay as they are. -/
theorem Pass.simplify_stays (p : Pass) (h : g.Function top) (hr : Within g top n r)
    (hq : q.Visited p.config p.rules r g) :
    SameOutside top g q.graph ∧
    (∀ o w, q.worklist.pop = some (o, w) → q.graph.Inside top o) ∧
    (∀ ops copy o, q.graph.nestedOps r = .ok ops →
      Probed p.config p.rules q.graph ops copy o → copy.Inside r o) ∧
    ((∀ u v x, g.held? u = some v → g.Inside r u.user → g.definer? v = .ok (some x) →
        g.Inside r x) →
      (∀ o w, q.worklist.pop = some (o, w) → o ≠ r ∧ q.graph.Inside r o) ∧
      ∀ o d, g.op o = .ok d → o = r ∨ ¬g.Inside r o → q.graph.op o = .ok d) := by
  have hrules := p.rules_regular top
  have haround := hq.around hrules h.valid hr
  refine ⟨haround.same, fun o w hpop => (haround.sound.queues.pop hpop).1, ?_, fun hreads => ?_⟩
  · intro ops copy o hops hprobed
    obtain ⟨rfl, ho⟩ := hprobed.nested hrules.clean
    exact haround.sound.valid.linked.inside_of_mem_nestedOps hops ho
  · have hpart : g.SelfContained r := h.valid.selfContained hr fun {u v} hu huser =>
      ⟨h.valid.exist hu, fun {x d} hd hv =>
        hreads u v x hu huser (h.valid.linked.definer?_of_result (slot_of_op hd) hv)⟩
    have hconfined := hq.confined hrules h.valid hr hpart
    have hself := h.valid.not_inside_self hr
    obtain ⟨x, hx⟩ : ∃ x, g.op r = .ok x := by
      obtain ⟨d, hd, -⟩ := h.top
      exact hr.live hd
    refine ⟨fun o w hpop => ?_, ?_⟩
    · have hin := (hconfined.queues.pop hpop).1
      refine ⟨?_, hin⟩
      rintro rfl
      exact (hconfined.outside _ x hx hself).2 hin
    · rintro o d hd (rfl | hout)
      · exact (hconfined.outside _ d hd hself).1
      · exact (hconfined.outside o d hd hout).1

end Turns

/-! ## Two branches -/

/-- The first branch has two gates on the argument of the function.  The second one has the sum
of two numbers, which are made before it. -/
def branchesText : Body [Ty.qubit].length :=
  .step (.const ⟨0x3ff0000000000000⟩) <|
  .step (.const ⟨0x4000000000000000⟩) <|
  .step (.measure ⟨0, by decide⟩) <|
  .branch ⟨3, by decide⟩ [.qubit]
    (.step (.gate .hadamard ⟨0, by decide⟩ hadamard_isGate) <|
      .step (.gate .hadamard ⟨4, by decide⟩ hadamard_isGate) <|
      .step (.yield [⟨5, by decide⟩]) .done) <|
  .branch ⟨3, by decide⟩ []
    (.step (.add ⟨1, by decide⟩ ⟨2, by decide⟩) <| .step (.yield []) .done) <|
  .step (.ret [⟨4, by decide⟩]) .done

/-- A Hadamard gate of no source. -/
def hadamardDraft (qubit : ValueId) : Draft where
  kind := .hadamard
  location := default
  operands := [qubit]
  resultTypes := [.qubit]

/-- The function that `branchesText` is the body of. -/
def branchesGraph : Graph where
  ops := #[
    ((Draft.const default ⟨0x3ff0000000000000⟩).made [⟨1⟩]).inBlock ⟨0⟩,
    ((Draft.const default ⟨0x4000000000000000⟩).made [⟨2⟩]).inBlock ⟨0⟩,
    ((Draft.measure default ⟨0⟩).made [⟨3⟩]).inBlock ⟨0⟩,
    ((hadamardDraft ⟨0⟩).made [⟨4⟩]).inBlock ⟨1⟩,
    ((hadamardDraft ⟨4⟩).made [⟨5⟩]).inBlock ⟨1⟩,
    ((Draft.yield default [⟨5⟩]).made []).inBlock ⟨1⟩,
    ((Draft.branch default ⟨3⟩ [.qubit] ⟨0⟩).made [⟨6⟩]).inBlock ⟨0⟩,
    ((Draft.add default ⟨1⟩ ⟨2⟩).made [⟨7⟩]).inBlock ⟨2⟩,
    ((Draft.yield default []).made []).inBlock ⟨2⟩,
    ((Draft.branch default ⟨3⟩ [] ⟨1⟩).made []).inBlock ⟨0⟩,
    ((Draft.ret default [⟨6⟩]).made []).inBlock ⟨0⟩,
    (Draft.func default "f" ⟨2⟩).made []]
  values := #[⟨.argument ⟨0⟩ 0, .qubit⟩, ⟨.result ⟨0⟩ 0, .number⟩, ⟨.result ⟨1⟩ 0, .number⟩,
    ⟨.result ⟨2⟩ 0, .bit⟩, ⟨.result ⟨3⟩ 0, .qubit⟩, ⟨.result ⟨4⟩ 0, .qubit⟩,
    ⟨.result ⟨6⟩ 0, .qubit⟩, ⟨.result ⟨7⟩ 0, .number⟩]
  blocks := #[⟨[⟨0⟩], [.qubit], [⟨0⟩, ⟨1⟩, ⟨2⟩, ⟨6⟩, ⟨9⟩, ⟨10⟩], some ⟨2⟩, default⟩,
    ⟨[], [], [⟨3⟩, ⟨4⟩, ⟨5⟩], some ⟨0⟩, default⟩, ⟨[], [], [⟨7⟩, ⟨8⟩], some ⟨1⟩, default⟩]
  regions := #[⟨[⟨1⟩], some ⟨6⟩⟩, ⟨[⟨2⟩], some ⟨9⟩⟩, ⟨[⟨0⟩], some ⟨11⟩⟩]
  useLists := ⟨#[[⟨⟨2⟩, 0⟩, ⟨⟨3⟩, 0⟩], [⟨⟨7⟩, 0⟩], [⟨⟨7⟩, 1⟩], [⟨⟨6⟩, 0⟩, ⟨⟨9⟩, 0⟩], [⟨⟨4⟩, 0⟩],
    [⟨⟨5⟩, 0⟩], [⟨⟨10⟩, 0⟩]]⟩
  paths := ⟨#["<unknown>"], ⟨[("<unknown>", ⟨0⟩)]⟩⟩

theorem newFunc_branches :
    Graph.empty.newFunc "f" [.qubit] branchesText.build = .ok (⟨11⟩, branchesGraph) := by
  decide +kernel

theorem branchesGraph_function : branchesGraph.Function ⟨11⟩ :=
  function_of_text branchesText newFunc_branches

/-- The branches are right in the function. -/
theorem branchesGraph_within {o : OpId} (h : branchesGraph.ownerOf? o = .ok (some ⟨11⟩)) :
    Within branchesGraph ⟨11⟩ 1 o :=
  .step h .root

theorem branchesGraph_inside {r o : OpId} {ops : List OpId}
    (hr : branchesGraph.ownerOf? r = .ok (some ⟨11⟩)) (hops : branchesGraph.nestedOps r = .ok ops) :
    branchesGraph.Inside r o ↔ o ∈ ops := by
  have hvalid := branchesGraph_function.valid
  have hwithin := branchesGraph_within hr
  obtain ⟨d, hd⟩ := Inside.live ⟨0, hwithin⟩
  obtain ⟨l, hl, -, -, hmem⟩ := hvalid.linked.housed.walk_ok hd (hvalid.not_inside_self hwithin)
  rw [hops] at hl
  cases hl
  exact (hmem o).symm

/-- A run on the first branch cancels the gates, and leaves the branch and what is around it
alone. -/
theorem Pass.simplify_stays_sealed : branchesGraph.Function ⟨11⟩ ∧
    Within branchesGraph ⟨11⟩ 1 ⟨6⟩ ∧
    ∃ q, Progress.Visited {} (Pass.rules {}) ⟨6⟩ branchesGraph q ∧ q.reductions = 1 ∧
      q.graph.op ⟨2⟩ = branchesGraph.op ⟨2⟩ ∧ q.graph.op ⟨6⟩ = branchesGraph.op ⟨6⟩ := by
  have howner : branchesGraph.ownerOf? ⟨6⟩ = .ok (some ⟨11⟩) := by decide +kernel
  have hops : branchesGraph.nestedOps ⟨6⟩ = .ok [⟨3⟩, ⟨4⟩, ⟨5⟩] := by decide +kernel
  have hwithin := branchesGraph_within howner
  have hsweep : (sweepWithin {} (Pass.rules {}) ⟨6⟩ 6 (.start branchesGraph)).map
      (fun r => r.2.reductions) = some 1 := by
    rw [Pass.rules, RuleList.freeze_eq]
    decide +kernel
  obtain ⟨⟨e, q⟩, hsweep, hq⟩ := Option.map_eq_some_iff.1 hsweep
  have hvisited : Progress.Visited {} (Pass.rules {}) ⟨6⟩ branchesGraph q :=
    Progress.Visited.sweep .start (sweep_of_sweepWithin hsweep)
  obtain ⟨-, -, -, hsealed⟩ := Pass.simplify_stays {} branchesGraph_function hwithin hvisited
  -- the gates and the yield read the argument of the function and the gates
  have hmakers : ∀ o ∈ ([⟨3⟩, ⟨4⟩, ⟨5⟩] : List OpId), ∀ d ∈ (branchesGraph.op o).toOption,
      ∀ v ∈ d.operands, ∀ x ∈ (branchesGraph.definer? v).toOption, ∀ y ∈ x,
        y ∈ ([⟨3⟩, ⟨4⟩, ⟨5⟩] : List OpId) := by
    decide +kernel
  obtain ⟨-, hkept⟩ := hsealed fun u v x hu huser hx => by
    obtain ⟨d, hd, hi⟩ := held?_eq_some.1 hu
    rw [branchesGraph_inside howner hops] at huser ⊢
    exact hmakers u.user huser d (by rw [hd]; rfl) v (List.mem_of_getElem? hi) (some x)
      (by rw [hx]; rfl) x rfl
  refine ⟨branchesGraph_function, hwithin, q, hvisited, hq, ?_, ?_⟩
  · exact hkept ⟨2⟩ _ rfl (.inr (by rw [branchesGraph_inside howner hops]; decide))
  · exact hkept ⟨6⟩ _ rfl (.inl rfl)

/-- A run on the second branch erases the sum, and then the numbers, which are outside it. -/
theorem Pass.simplify_strays : branchesGraph.Function ⟨11⟩ ∧ Within branchesGraph ⟨11⟩ 1 ⟨9⟩ ∧
    ¬branchesGraph.Inside ⟨9⟩ ⟨0⟩ ∧ branchesGraph.isLive ⟨0⟩ = .ok true ∧
    ∃ q, branchesGraph.simplify ⟨9⟩ (Pass.rules {}) {} = .ok ⟨.ok ⟨.converged, 2, 3⟩, q⟩ ∧
      q.graph.isLive ⟨0⟩ = .ok false := by
  have howner : branchesGraph.ownerOf? ⟨9⟩ = .ok (some ⟨11⟩) := by decide +kernel
  have hops : branchesGraph.nestedOps ⟨9⟩ = .ok [⟨7⟩, ⟨8⟩] := by decide +kernel
  have hsweeps : (sweepWithin {} (Pass.rules {}) ⟨9⟩ 6 (.start branchesGraph)).bind (fun r =>
      (sweepWithin {} (Pass.rules {}) ⟨9⟩ 6 r.2).map fun r' =>
        (r.1, r.2.reductions, r'.1, r'.2.reductions, r'.2.graph.isLive ⟨0⟩)) =
      some (.finished, 3, .finished, 3, .ok false) := by
    decide +kernel
  obtain ⟨⟨e, q⟩, hfirst, hrest⟩ := Option.bind_eq_some_iff.1 hsweeps
  obtain ⟨⟨e', q'⟩, hsecond, heq⟩ := Option.map_eq_some_iff.1 hrest
  simp only [Prod.mk.injEq] at heq
  obtain ⟨rfl, hq, rfl, hq', hdead⟩ := heq
  refine ⟨branchesGraph_function, branchesGraph_within howner, ?_, by decide +kernel, q', ?_, hdead⟩
  · rw [branchesGraph_inside howner hops]
    decide
  · rw [simplify, sweepUpTo_succ 9 0 (sweep_of_sweepWithin hfirst)]
    simp [hq, hq', Progress.start, sweepUpTo_succ 8 1 (sweep_of_sweepWithin hsecond)]

end Peephole
