import Peephole.Proofs.Marks
import Peephole.Proofs.Rules

/-!
# Who is woken

A reduction at one operation changes what the rules see at others.  The worklist is told of
every edit, and queues those that it thinks are concerned.  This module says which changes
it does not miss.

A worklist *covers* an operation that waits or was erased.  Whatever the worklist is told,
it goes on covering what it covers.  `Session.Wakes` says of a sequence of edits that it
leaves everything covered that came up, went away, had a slot written or lost its last
reader.  `Session.Reduction.wakes` says it of every reduction.

Backwards, nothing is moved by edits.  `Graph.Evolves` says that operations and values of
the first graph are related in the second one only as they were before.
-/

namespace Peephole

open Peephole.Graph

/-! ## What a worklist covers -/

namespace Worklist

variable {w w' : Worklist} {o p : OpId} {g : Graph} {v : ValueId}

/-- The operation waits, or was erased and need not. -/
def Covers (w : Worklist) (o : OpId) : Prop := w.status o = .erased ∨ w.Waits o

theorem covers_queue (w : Worklist) (o : OpId) : (w.queue o).Covers o := by
  by_cases h : w.status o = .erased
  · exact .inl (status_queue_erased h)
  · exact .inr (waits_queue h)

theorem Covers.queue (h : w.Covers p) (o : OpId) : (w.queue o).Covers p :=
  h.imp status_queue_erased fun h => h.queue o

theorem Covers.queueAll (h : w.Covers p) (os : List OpId) : (w.queueAll os).Covers p := by
  induction os generalizing w with
  | nil => exact h
  | cons o os ih => exact ih (h.queue o)

theorem covers_queueAll {os : List OpId} (ho : o ∈ os) : (w.queueAll os).Covers o := by
  induction os generalizing w with
  | nil => cases ho
  | cons p os ih =>
    rcases List.mem_cons.1 ho with rfl | ho
    · exact (covers_queue w o).queueAll os
    · exact ih ho

theorem Covers.queueDefiner (h : w.Covers p) (hw' : w.queueDefiner g v = .ok w') :
    w'.Covers p := by
  rcases queueDefiner_cases hw' with rfl | ⟨o, rfl⟩
  · exact h
  · exact h.queue o

theorem covers_queueDefiner {d : Op} (hdefiner : g.definer? v = .ok (some o))
    (hd : g.op o = .ok d) (hw' : w.queueDefiner g v = .ok w') : w'.Covers o := by
  simp only [Worklist.queueDefiner, hdefiner, isLive_of_op hd, ok_bind] at hw'
  cases hw'
  exact covers_queue w o

theorem Covers.erasing (h : w.Covers p) (o : OpId) : (w.mark o .erased).Covers p := by
  by_cases heq : o = p
  · exact .inl (by rw [status_mark, if_pos heq])
  · exact h.imp (fun h => by rw [status_mark, if_neg heq, h]) fun h => h.mark heq _

theorem Covers.foldlM {vs : List ValueId} (h : w.Covers p)
    (hw' : vs.foldlM (Worklist.queueDefiner g) w = .ok w') : w'.Covers p :=
  foldlM_induction (P := fun w => w.Covers p) (fun _ _ _ _ h hstep => h.queueDefiner hstep) h hw'

/-- Whatever a worklist is told, it covers what it covered. -/
theorem Covers.react {n : Notice} (h : w.Covers p) (hw' : w.react g n = .ok w') :
    w'.Covers p := by
  cases n with
  | inserted o =>
    cases hw'
    exact h.queue o
  | updated o =>
    obtain ⟨users, -, hw'⟩ := bind_eq_ok.1 hw'
    cases hw'
    exact (h.queue o).queueAll users
  | erasing o =>
    obtain ⟨operands, -, hw'⟩ := bind_eq_ok.1 hw'
    exact (h.erasing o).foldlM hw'
  | replaced old users => exact (h.queueAll users).queueDefiner hw'

theorem covers_erased (hw' : w.react g (.erasing o) = .ok w') : w'.Covers o := by
  obtain ⟨operands, -, hw'⟩ := bind_eq_ok.1 hw'
  have h : (w.mark o .erased).Covers o := .inl (by rw [status_mark, if_pos rfl])
  exact h.foldlM hw'

/-- An erasure covers the definers of what the operation read. -/
theorem covers_operand {e : OpId} {x d : Op} (hx : g.op e = .ok x) (hv : v ∈ x.operands)
    (hdefiner : g.definer? v = .ok (some o)) (hd : g.op o = .ok d)
    (hw' : w.react g (.erasing e) = .ok w') : w'.Covers o := by
  have hfold : ∀ {vs : List ValueId} {w : Worklist}, v ∈ vs →
      vs.foldlM (Worklist.queueDefiner g) w = .ok w' → w'.Covers o := by
    intro vs
    induction vs with
    | nil => nofun
    | cons a vs ih =>
      intro w hmem hw'
      rw [List.foldlM_cons, bind_eq_ok] at hw'
      obtain ⟨w₁, hw₁, hw'⟩ := hw'
      rcases List.mem_cons.1 hmem with rfl | hmem
      · exact (covers_queueDefiner hdefiner hd hw₁).foldlM hw'
      · exact ih hmem hw'
  have hoperands : g.operands e = .ok x.operands := by simp [Graph.operands, hx]
  rw [Worklist.react, hoperands, ok_bind] at hw'
  exact hfold hv hw'

end Worklist

namespace Observer

variable {g : Graph} {n : Notice} {o : OpId} {observer observer' : Observer}

/-- The observer is no worklist, or a worklist that covers the operation. -/
def Covers (observer : Observer) (o : OpId) : Prop :=
  match observer with
  | silent => True
  | recorder _ => True
  | worklist w => w.Covers o

theorem covers_notify (hn : observer.notify g n = .ok observer')
    (h : ∀ {w w' : Worklist}, w.react g n = .ok w' → w'.Covers o) : observer'.Covers o := by
  cases observer with
  | silent =>
    cases hn
    trivial
  | recorder events =>
    obtain ⟨event, -, hn⟩ := bind_eq_ok.1 hn
    cases hn
    trivial
  | worklist w =>
    obtain ⟨w', rfl, hw'⟩ := notify_worklist hn
    exact h hw'

theorem Covers.notify (h : observer.Covers o) (hn : observer.notify g n = .ok observer') :
    observer'.Covers o := by
  cases observer with
  | silent =>
    cases hn
    trivial
  | recorder events =>
    obtain ⟨event, -, hn⟩ := bind_eq_ok.1 hn
    cases hn
    trivial
  | worklist w =>
    obtain ⟨w', rfl, hw'⟩ := notify_worklist hn
    exact Worklist.Covers.react h hw'

end Observer

/-! ## What edits leave in place -/

namespace Formula

variable {f f' : Formula}

/-- The formula without its values. -/
def outline (f : Formula) : Formula := f.rename fun _ => default

theorem kind_of_outline (h : f.outline = f'.outline) : f.kind = f'.kind := by
  have hkind : ∀ f : Formula, f.outline.kind = f.kind := by
    intro f
    cases f with
    | _ => rfl
  rw [← hkind f, h, hkind]

theorem gate_of_outline {k : Kind} {q : ValueId} (h : f.outline = (gate k q).outline) :
    ∃ q', f = gate k q' := by
  cases f with
  | gate k' q' =>
    cases h
    exact ⟨q', rfl⟩
  | const | sum | rotation => cases h

theorem const_of_outline {x : Binary64} (h : f.outline = (const x).outline) : f = const x := by
  cases f with
  | const x' => exact h
  | gate | sum | rotation => cases h

theorem rotation_of_outline {axis : Axis} {a q : ValueId}
    (h : f.outline = (rotation axis a q).outline) : ∃ a' q', f = rotation axis a' q' := by
  cases f with
  | rotation axis' a' q' =>
    cases h
    exact ⟨a', q', rfl⟩
  | const | sum | gate => cases h

end Formula

namespace Graph

variable {g g' g'' : Graph} {o p : OpId} {v : ValueId} {d : Op}

/-- The operation has a result. -/
def Makes (g : Graph) (o : OpId) : Prop := ∃ v, g.definer? v = .ok (some o)

theorem Computes.makes {f : Formula} (h : g.Computes o f v) (hg : g.Linked) : g.Makes o := by
  obtain ⟨d, hd, hv, -⟩ := h.op_ok
  exact ⟨v, hg.definer?_of_result (slot_of_op hd) hv⟩

theorem definer?_eq_some_iff : g.definer? v = .ok (some o) ↔
    ∃ x i, g.value v = .ok x ∧ x.origin = .result o i := by
  simp only [definer?, origin, bind_eq_ok, pure_eq_ok, Except.ok.injEq]
  constructor
  · rintro ⟨_, ⟨x, hx, rfl⟩, ho⟩
    cases horigin : x.origin with
    | result p i =>
      rw [horigin] at ho
      cases ho
      exact ⟨x, i, hx, horigin⟩
    | argument b i =>
      rw [horigin] at ho
      cases ho
  · rintro ⟨x, i, hx, horigin⟩
    exact ⟨_, ⟨x, hx, rfl⟩, by rw [horigin]; rfl⟩

/-- What is known of the first graph is in the second one as it was, but for operands, or
is gone. -/
structure Evolves (g g' : Graph) : Prop where
  value {v : ValueId} {x : Value} : g.value v = .ok x → g'.value v = .ok x
  op {o : OpId} {d : Op} {v : ValueId} {x : Value} : g'.op o = .ok d → v ∈ d.results →
    g.value v = .ok x → ∃ d', g.op o = .ok d' ∧ d'.unread = d.unread
  precedes {p o : OpId} : g'.Precedes p o → g.Makes p → g.Makes o → g.Precedes p o
  visible {v : ValueId} {x : Value} {o : OpId} : g'.Visible v o → g.value v = .ok x →
    g.Makes o → g.Visible v o
  inside {root o : OpId} : g'.Inside root o → g.Makes o → g.Inside root o

namespace Evolves

theorem makes (h : Evolves g g') (ho : g.Makes o) : g'.Makes o := by
  obtain ⟨v, hv⟩ := ho
  obtain ⟨x, i, hx, horigin⟩ := definer?_eq_some_iff.1 hv
  exact ⟨v, definer?_eq_some_iff.2 ⟨x, i, h.value hx, horigin⟩⟩

theorem trans (h : Evolves g g') (h' : Evolves g' g'') : Evolves g g'' where
  value hx := h'.value (h.value hx)
  op hd hv hx := by
    obtain ⟨d', hd', hu'⟩ := h'.op hd hv (h.value hx)
    have hresults := congrArg Op.results hu'
    obtain ⟨d'', hd'', hu''⟩ := h.op hd' (hresults ▸ hv) hx
    exact ⟨d'', hd'', hu''.trans hu'⟩
  precedes hpo hp ho := h.precedes (h'.precedes hpo (h.makes hp) (h.makes ho)) hp ho
  visible hv hx ho := h.visible (h'.visible hv (h.value hx) (h.makes ho)) hx ho
  inside hin ho := h.inside (h'.inside hin (h.makes ho)) ho

end Evolves

/-- A value of the first graph is computed in the same way there, from whatever values. -/
theorem Evolves.computes (h : Evolves g g') {f : Formula} {x : Value} (hf : g'.Computes o f v)
    (hx : g.value v = .ok x) : ∃ f', g.Computes o f' v ∧ f'.outline = f.outline := by
  obtain ⟨d, hd, hdf, hresults, hregions⟩ := hf
  obtain ⟨d', hd', hu⟩ := h.op hd (hresults ▸ .head _) hx
  have hunread : ∀ d : Op, d.unread.formula? = d.formula?.map Formula.outline :=
    fun d => Op.formula?_rename _
  have hout : d'.formula?.map Formula.outline = some f.outline := by
    rw [← hunread, hu, hunread, hdf, Option.map_some]
  obtain ⟨f', hf', hout⟩ := Option.map_eq_some_iff.1 hout
  have hresults' := congrArg Op.results hu
  have hregions' := congrArg Op.regions hu
  exact ⟨f', ⟨d', hd', hf', hresults'.trans hresults, hregions'.trans hregions⟩, hout⟩

theorem Rewired.evolves (h : Rewired g g') : Evolves g g' where
  value {v _} hx := (h.value v).trans hx
  op hd _ _ := h.symm.op_ok hd
  precedes hpo _ _ := h.symm.precedes hpo
  visible hv _ _ := h.symm.visible hv
  inside hin _ := h.symm.inside hin

theorem Erased.evolves {e : OpId} (h : Erased g e g') : Evolves g g' where
  value {v _} hx := (h.value v).trans hx
  op hd _ _ := ⟨_, h.trimmed.op_ok hd, rfl⟩
  precedes hpo _ _ := (h.trimmed.precedes_iff.1 hpo).1
  visible hv _ _ := h.trimmed.visible_old hv
  inside hin _ := (h.trimmed.inside_iff.1 hin).1

namespace Inserted

variable {a n : OpId} {e : Draft}

/-- The results of what is inserted are new. -/
theorem fresh (h : Inserted g a e n g') (hd : g'.op n = .ok d) (hv : v ∈ d.results) (x : Value) :
    g.value v ≠ .ok x := by
  intro hx
  obtain ⟨b, hmade⟩ := h.made
  rw [hmade] at hd
  cases hd
  have hle := index_of_mem_nextValues hv
  have hlt := index_lt_of_value hx
  omega

theorem ne_of_value {f : Formula} {w : ValueId} {x : Value} (h : Inserted g a e n g')
    (hf : g'.Computes n f w) (hx : g.value v = .ok x) : v ≠ w := by
  rintro rfl
  obtain ⟨d, hd, hmem, -⟩ := hf.op_ok
  exact h.fresh hd hmem x hx

theorem ne_of_makes (h : Inserted g a e n g') (ho : g.Makes o) : o ≠ n := by
  rintro rfl
  obtain ⟨b, hmade⟩ := h.made
  obtain ⟨v, hv⟩ := ho
  obtain ⟨x, i, hx, horigin⟩ := definer?_eq_some_iff.1 hv
  obtain ⟨d, hd, hi⟩ := h.linked.result.1 ⟨x, h.value.2 (.inl hx), horigin⟩
  rw [slot_of_op hmade] at hd
  cases hd
  exact h.fresh hmade (List.mem_of_getElem? hi) x hx

theorem evolves (h : Inserted g a e n g') : Evolves g g' where
  value hx := h.value.2 (.inl hx)
  op {o d v x} hd hv hx := by
    have hne : o ≠ n := by
      rintro rfl
      exact h.fresh hd hv x hx
    exact ⟨d, (h.trimmed.op hne).trans hd, rfl⟩
  precedes hpo hp ho := h.trimmed.precedes_iff.2 ⟨hpo, h.ne_of_makes hp, h.ne_of_makes ho⟩
  visible hv hx ho :=
    h.trimmed.visible (fun _ hd hmem => h.fresh hd hmem _ hx) hv (h.ne_of_makes ho)
  inside hin ho := h.trimmed.inside_iff.2 ⟨hin, h.ne_of_makes ho⟩

end Inserted

end Graph

/-! ## Edits of a session -/

namespace Session

variable {S : OpId → Prop} {s t u : Session} {o : OpId}

/-- The edits leave everything covered that came up, went away, had a slot written or lost its
last reader.  What is in `S` may lose its last reader unnoticed. -/
structure Wakes (S : OpId → Prop) (s t : Session) : Prop
    extends Graph.Evolves s.graph t.graph where
  kept {o : OpId} : s.observer.Covers o → t.observer.Covers o
  live {o : OpId} {d : Op} : s.graph.op o = .ok d →
    t.observer.Covers o ∨ ∃ d', t.graph.op o = .ok d' ∧ d'.unread = d.unread
  born {o : OpId} {d : Op} : t.graph.op o = .ok d →
    t.observer.Covers o ∨ ∃ d', s.graph.op o = .ok d' ∧ d'.unread = d.unread
  slots (r : Use) : t.observer.Covers r.user ∨ t.graph.held? r = s.graph.held? r
  read {o : OpId} {d : Op} {v : ValueId} {r : Use} : s.graph.op o = .ok d → v ∈ d.results →
    s.graph.held? r = some v →
    S o ∨ t.observer.Covers o ∨ ∃ r', t.graph.held? r' = some v

theorem Wakes.trans (h : s.Wakes S t) (h' : t.Wakes S u) : s.Wakes S u where
  toEvolves := h.toEvolves.trans h'.toEvolves
  kept ho := h'.kept (h.kept ho)
  live hd := by
    rcases h.live hd with ho | ⟨d', hd', hu⟩
    · exact .inl (h'.kept ho)
    · refine (h'.live hd').imp_right fun ⟨d'', hd'', hu'⟩ => ?_
      exact ⟨d'', hd'', hu'.trans hu⟩
  born hd := by
    rcases h'.born hd with ho | ⟨d', hd', hu⟩
    · exact .inl ho
    · rcases h.born hd' with ho | ⟨d'', hd'', hu'⟩
      · exact .inl (h'.kept ho)
      · exact .inr ⟨d'', hd'', hu'.trans hu⟩
  slots r := by
    rcases h'.slots r with ho | hr
    · exact .inl ho
    · rcases h.slots r with ho | hr'
      · exact .inl (h'.kept ho)
      · exact .inr (hr.trans hr')
  read hd hv hr := by
    rcases h.read hd hv hr with ho | ho | ⟨r', hr'⟩
    · exact .inl ho
    · exact .inr (.inl (h'.kept ho))
    · rcases h.live hd with ho | ⟨d', hd', hu⟩
      · exact .inr (.inl (h'.kept ho))
      · have hresults := congrArg Op.results hu
        exact h'.read hd' (hresults ▸ hv) hr'

theorem Inserts.wakes {a n : OpId} {e : Draft} (h : s.Inserts a e n t) : s.Wakes S t := by
  have hn : t.observer.Covers n := by
    refine Observer.covers_notify h.told fun hw' => ?_
    cases hw'
    exact Worklist.covers_queue _ n
  refine ⟨h.graph.evolves, fun ho => ho.notify h.told, ?_, ?_, ?_, ?_⟩
  · intro o d hd
    exact .inr ⟨d, h.graph.trimmed.op_ok hd, rfl⟩
  · intro o d hd
    rcases eq_or_ne o n with rfl | hne
    · exact .inl hn
    · exact .inr ⟨d, (h.graph.trimmed.op hne).trans hd, rfl⟩
  · intro r
    rw [h.graph.held]
    split
    · rename_i heq
      exact .inl (heq ▸ hn)
    · exact .inr rfl
  · intro o d v r _ _ hr
    obtain ⟨x, hx, -⟩ := held?_eq_some.1 hr
    refine .inr (.inr ⟨r, ?_⟩)
    rw [h.graph.held, if_neg (h.graph.trimmed.ne_of_op hx), hr]

theorem Redirects.wakes {old new : ValueId} (h : s.Redirects old new t) (hg : s.graph.Linked)
    (hc : s.graph.Coherent) : s.Wakes S t := by
  have hr := h.graph.rewired
  have hsame : ∀ {r}, s.graph.held? r ≠ some old → t.graph.held? r = s.graph.held? r := by
    intro r hne
    rw [h.graph.held]
    cases hheld : s.graph.held? r with
    | none => rfl
    | some v =>
      rw [Option.map_some, if_neg]
      rintro rfl
      exact hne hheld
  -- Whoever read the old value is told of, and so is its definer.
  have htold : ∀ {r}, s.graph.held? r = some old →
      s.observer.notify t.graph (.replaced old (s.graph.readers old)) = .ok t.observer ∧
        r.user ∈ s.graph.readers old := by
    intro r hheld
    have hmem : r.user ∈ s.graph.readers old := hc.mem_readers.2 ⟨r.index, hheld⟩
    rcases h.told with ⟨hnone, -⟩ | htold
    · rw [hnone] at hmem
      cases hmem
    · exact ⟨htold, hmem⟩
  refine ⟨hr.evolves, ?_, ?_, ?_, ?_, ?_⟩
  · intro o ho
    rcases h.told with ⟨-, heq⟩ | htold
    · exact heq ▸ ho
    · exact ho.notify htold
  · intro o d hd
    exact .inr (hr.op_ok hd)
  · intro o d hd
    exact .inr (hr.symm.op_ok hd)
  · intro r
    by_cases hheld : s.graph.held? r = some old
    · obtain ⟨htold, hmem⟩ := htold hheld
      exact .inl (Observer.covers_notify htold
        fun hw' => (Worklist.covers_queueAll hmem).queueDefiner hw')
    · exact .inr (hsame hheld)
  · intro o d v r hd hv hheld
    by_cases heq : v = old
    · subst heq
      obtain ⟨d', hd', hu⟩ := hr.op_ok hd
      have hresults := congrArg Op.results hu
      have hdefiner := (hg.rewired hr).definer?_of_result (slot_of_op hd') (hresults ▸ hv)
      exact .inr (.inl (Observer.covers_notify (htold hheld).1
        fun hw' => Worklist.covers_queueDefiner hdefiner hd' hw'))
    · refine .inr (.inr ⟨r, ?_⟩)
      rw [hsame (by simp [hheld, heq]), hheld]

theorem Reroutes.covers {angle qubit : ValueId} (h : s.Reroutes o angle qubit t) :
    t.observer.Covers o := by
  refine Observer.covers_notify h.told fun hw' => ?_
  obtain ⟨users, -, hw'⟩ := bind_eq_ok.1 hw'
  cases hw'
  exact (Worklist.covers_queue _ o).queueAll users

/-- A rotation may give up an angle that somebody else reads too, and a qubit whose definer
is in `S`. -/
theorem Reroutes.wakes {angle qubit b q : ValueId} {r : Use} (h : s.Reroutes o angle qubit t)
    (hb : s.graph.held? ⟨o, 0⟩ = some b) (hr : s.graph.held? r = some b) (hne : r.user ≠ o)
    (hq : s.graph.held? ⟨o, 1⟩ = some q)
    (hS : ∀ {p d}, s.graph.op p = .ok d → q ∈ d.results → S p) : s.Wakes S t := by
  have hrewired := h.graph.rewired
  have hsame : ∀ {r : Use}, r.user ≠ o → t.graph.held? r = s.graph.held? r := by
    intro r hr
    rw [h.graph.held, if_neg fun heq => hr (congrArg Use.user heq),
      if_neg fun heq => hr (congrArg Use.user heq)]
  refine ⟨hrewired.evolves, fun ho => ho.notify h.told, ?_, ?_, ?_, ?_⟩
  · intro p d hd
    exact .inr (hrewired.op_ok hd)
  · intro p d hd
    exact .inr (hrewired.symm.op_ok hd)
  · intro r
    rcases eq_or_ne r.user o with heq | hne
    · exact .inl (heq ▸ h.covers)
    · exact .inr (hsame hne)
  · intro p d v r' hd hv hheld
    by_cases h₁ : r' = ⟨o, 1⟩
    · rw [h₁, hq] at hheld
      cases hheld
      exact .inl (hS hd hv)
    by_cases h₀ : r' = ⟨o, 0⟩
    · rw [h₀, hb] at hheld
      cases hheld
      exact .inr (.inr ⟨r, (hsame hne).trans hr⟩)
    · refine .inr (.inr ⟨r', ?_⟩)
      rw [h.graph.held, if_neg h₁, if_neg h₀, hheld]

theorem Erases.covers (h : s.Erases o t) : t.observer.Covers o :=
  Observer.covers_notify h.told fun hw' => Worklist.covers_erased hw'

theorem Erases.wakes (h : s.Erases o t) (hg : s.graph.Linked) : s.Wakes S t := by
  refine ⟨h.graph.evolves, fun hp => hp.notify h.told, ?_, ?_, ?_, ?_⟩
  · intro p d hd
    rcases eq_or_ne p o with rfl | hne
    · exact .inl h.covers
    · exact .inr ⟨d, (h.graph.trimmed.op hne).trans hd, rfl⟩
  · intro p d hd
    exact .inr ⟨d, h.graph.trimmed.op_ok hd, rfl⟩
  · intro r
    rw [h.graph.held]
    split
    · rename_i heq
      exact .inl (heq ▸ h.covers)
    · exact .inr rfl
  · intro p d v r hd hv hheld
    rcases eq_or_ne r.user o with heq | hne
    · obtain ⟨x, hx, hi⟩ := held?_eq_some.1 hheld
      have hdefiner := hg.definer?_of_result (slot_of_op hd) hv
      exact .inr (.inl (Observer.covers_notify h.told fun hw' =>
        Worklist.covers_operand (heq ▸ hx) (List.mem_of_getElem? hi) hdefiner hd hw'))
    · exact .inr (.inr ⟨r, by rw [h.graph.held, if_neg hne, hheld]⟩)

/-! ## Reductions -/

variable {axes : Rules.AxisMatch}

/-- A reduction leaves everything covered that it concerns, the operation it is made at
among them. -/
theorem Reduction.wakes (h : s.Reduction axes o t) (hg : s.graph.Linked)
    (hc : s.graph.Coherent) : t.observer.Covers o ∧ s.Wakes t.observer.Covers t := by
  cases h with
  | unused _ _ _ he => exact ⟨he.covers, he.wakes hg⟩
  | sum _ _ _ hi _ hr he =>
    have hg₂ := hi.graph.linked.rewired hr.graph.rewired
    refine ⟨he.covers, hi.wakes.trans (Wakes.trans ?_ (he.wakes hg₂))⟩
    exact hr.wakes hi.graph.linked (hi.graph.coherent hc)
  | pair _ _ _ hr he he' =>
    have hg₁ := hg.rewired hr.graph.rewired
    have hwakes' := he'.wakes (S := t.observer.Covers) he.graph.linked
    exact ⟨hwakes'.kept he.covers, (hr.wakes hg hc).trans ((he.wakes hg₁).trans hwakes')⟩
  | conjugation _ _ _ _ _ _ _ hi _ hr he he' he'' =>
    have hg₂ := hi.graph.linked.rewired hr.graph.rewired
    have hwakes' := he'.wakes (S := t.observer.Covers) he.graph.linked
    have hwakes'' := he''.wakes (S := t.observer.Covers) he'.graph.linked
    refine ⟨hwakes''.kept (hwakes'.kept he.covers), hi.wakes.trans (Wakes.trans ?_
      ((he.wakes hg₂).trans (hwakes'.trans hwakes'')))⟩
    exact hr.wakes hi.graph.linked (hi.graph.coherent hc)
  | @fusion p n axis axis' a b q input v sum l s₁ s₂ _ hf hp _ _ _ hi hn hr he =>
    have hg₂ := hi.graph.linked.rewired hr.graph.rewired
    have hwakes := he.wakes (S := t.observer.Covers) hg₂
    have hf₁ := hi.graph.computes hf
    have hp₁ := hi.graph.computes hp.computes
    have hne : n ≠ o := hi.graph.ne_of_computes hf
    refine ⟨hwakes.kept hr.covers, hi.wakes.trans (Wakes.trans ?_ hwakes)⟩
    refine hr.wakes (hf₁.held? 0) (hn.held? 1) hne (hf₁.held? 1) ?_
    intro p' d hd hq
    obtain ⟨x, hx, hqx, -⟩ := hp₁.op_ok
    rw [hi.graph.linked.result_unique (slot_of_op hd) hq (slot_of_op hx) hqx]
    exact he.covers

end Session

end Peephole
