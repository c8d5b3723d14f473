import Peephole.Proofs.Edits
import Peephole.Proofs.Surroundings
import Peephole.Proofs.Tracking
import Peephole.Rules.Rotation
import Mathlib.Logic.Relation

/-!
# What reductions are made of

A reduction of a valid function is a sequence of edits of four forms.  A constant, a sum
or a gate is inserted, the uses of a value are moved to one that means the same, two
rotations are fused, or an unused constant, sum or gate is erased.  `Graph.Edit` lists
these forms, each with what makes it safe, and `Edit.valid` says that they keep a function
valid.

The rest of the module is about sessions.  `Session.Inserts`, `Session.Redirects`,
`Session.Reroutes` and `Session.Erases` say what such an edit does to the graph and what the
observer is told.  Where an edit is safe, the call that makes it succeeds, whoever the
observer is, as long as the observer tracks the root.
-/

namespace Peephole

open Relation

namespace Graph

variable {g g' : Graph} {root : OpId} {axes : Rules.AxisMatch}

/-- The two values mean the same by the formulas they have. -/
inductive Alike (g : Graph) (old new : ValueId) : Prop
  | sum {a b : ValueId} {x y : Binary64} : g.formula? old = some (.sum a b) →
      g.formula? a = some (.const x) → g.formula? b = some (.const y) →
      g.formula? new = some (.const (x + y)) → Alike g old new
  | pair {q : ValueId} : g.formula? old = some (.gate .hadamard q) →
      g.formula? q = some (.gate .hadamard new) → Alike g old new
  | conjugation {q p input : ValueId} : g.formula? old = some (.gate .hadamard q) →
      g.formula? q = some (.gate .pauliX p) → g.formula? p = some (.gate .hadamard input) →
      g.formula? new = some (.gate .pauliZ input) → p ≠ old → Alike g old new

/-- The second graph is the first with both slots of a rotation written. -/
structure Rerouted (g : Graph) (o : OpId) (angle qubit : ValueId) (g' : Graph) : Prop where
  rewired : Rewired g g'
  coherent : g'.Coherent
  held (u : Use) : g'.held? u =
    if u = ⟨o, 1⟩ then some qubit else if u = ⟨o, 0⟩ then some angle else g.held? u

theorem Rerouted.held_cases {o : OpId} {angle qubit v : ValueId} {u : Use}
    (h : Rerouted g o angle qubit g') (hu : g'.held? u = some v) :
    u = ⟨o, 1⟩ ∧ v = qubit ∨ u = ⟨o, 0⟩ ∧ v = angle ∨
      u ≠ ⟨o, 1⟩ ∧ u ≠ ⟨o, 0⟩ ∧ g.held? u = some v := by
  rw [h.held] at hu
  split at hu
  · rename_i heq
    cases hu
    exact .inl ⟨heq, rfl⟩
  · rename_i h₁
    split at hu
    · rename_i heq
      cases hu
      exact .inr (.inl ⟨heq, rfl⟩)
    · rename_i h₀
      exact .inr (.inr ⟨h₁, h₀, hu⟩)

theorem Rerouted.op {o p : OpId} {angle qubit : ValueId} (h : Rerouted g o angle qubit g')
    (hp : p ≠ o) {d : Op} (hd : g.op p = .ok d) : g'.op p = .ok d := by
  have hd' := h.rewired.op_map (σ := id) hd fun i => by
    rw [h.held, if_neg (by simp [hp]), if_neg (by simp [hp]), Option.map_id, id]
  rw [hd', List.map_id]

theorem Rerouted.computes_other {o p : OpId} {angle qubit v : ValueId} {f : Formula}
    (h : Rerouted g o angle qubit g') (hf : g.Computes p f v) (hp : p ≠ o) : g'.Computes p f v := by
  obtain ⟨d, hd, hrest⟩ := hf
  exact ⟨d, h.op hp hd, hrest⟩

theorem Rerouted.computes {o : OpId} {axis : Axis} {b q angle qubit v : ValueId}
    (h : Rerouted g o angle qubit g') (hf : g.Computes o (.rotation axis b q) v) :
    g'.Computes o (.rotation axis angle qubit) v := by
  obtain ⟨d, hd, hf, hv, hregions⟩ := hf
  obtain ⟨hk, hops, haxis⟩ := Op.formula?_eq_rotation.1 hf
  obtain ⟨d', hd', hu⟩ := h.rewired.op_ok hd
  rw [Op.eq_of_unread hu] at hd'
  have hops' : d'.operands = [angle, qubit] := by
    have hlen : d'.operands.length = 2 := by
      have := congrArg (fun x : Op => x.operands.length) hu
      simpa [Op.unread, hops] using this
    obtain ⟨x, y, hxy⟩ := List.length_eq_two.1 hlen
    have hx := h.held ⟨o, 0⟩
    have hy := h.held ⟨o, 1⟩
    rw [held?_of_op (u := ⟨o, 0⟩) hd', if_neg (by simp), if_pos rfl] at hx
    rw [held?_of_op (u := ⟨o, 1⟩) hd', if_pos rfl] at hy
    simp only [hxy, List.getElem?_cons_zero, List.getElem?_cons_succ, Option.some.injEq] at hx hy
    rw [hxy, hx, hy]
  exact ⟨_, hd', Op.formula?_eq_rotation.2 ⟨hk, hops', haxis⟩, hv, hregions⟩

/-- One edit of a function, with what makes it safe. -/
inductive Edit (axes : Rules.AxisMatch) (root : OpId) (g : Graph) : Graph → Prop
  /-- An operation is inserted where its operands are visible. -/
  | insert {a n : OpId} {d : Draft} {g' : Graph} : g.Inside root a → d.Standard →
      d.block = none → d.kind.isReducible = true → (∀ v ∈ d.operands, g.Visible v a) →
      Inserted g a d n g' → Edit axes root g g'
  /-- Uses are moved to a value that means the same and is visible to all of them. -/
  | redirect {old new : ValueId} {g' : Graph} : g.Alike old new → g.Belongs root old →
      (∀ {u}, g.held? u = some old → g.Visible new u.user) → Redirected g old new g' →
      Edit axes root g g'
  /-- A rotation takes over the one before it. -/
  | fuse {o : OpId} {axis axis' : Axis} {a b q v input sum : ValueId} {g' : Graph} :
      g.Inside root o → g.Computes o (.rotation axis b q) v →
      g.formula? q = some (.rotation axis' a input) →
      g.formula? sum = some (.sum a b) → (axes = .same → axis' = axis) → q ≠ v →
      g.Visible sum o → g.Visible input o → Rerouted g o sum input g' → Edit axes root g g'
  /-- An operation that nobody reads is erased. -/
  | erase {o : OpId} {f : Formula} {v : ValueId} {g' : Graph} : g.Inside root o → g.Computes o f v →
      (∀ u, g.held? u ≠ some v) → Erased g o g' → Edit axes root g g'

theorem Coherent.uses_eq_nil (h : g.Coherent) {v : ValueId} (hv : ∀ u, g.held? u ≠ some v) :
    g.uses v = [] := by
  rw [List.eq_nil_iff_forall_not_mem]
  intro u hu
  exact hv u (h.mem_uses.1 hu)

theorem Coherent.mem_readers (h : g.Coherent) {v : ValueId} {p : OpId} :
    p ∈ g.readers v ↔ ∃ i, g.held? ⟨p, i⟩ = some v := by
  rw [readers, List.mem_eraseDups, List.mem_map]
  constructor
  · rintro ⟨u, hu, rfl⟩
    exact ⟨u.index, h.mem_uses.1 hu⟩
  · rintro ⟨i, hi⟩
    exact ⟨⟨p, i⟩, h.mem_uses.2 hi, rfl⟩

theorem Belongs.exists (hg : g.Linked) {v : ValueId} (h : g.Belongs root v) :
    ∃ y, g.value v = .ok y := by
  cases h with
  | result _ hx hv =>
    obtain ⟨y, i, hy, -⟩ := hg.origin_result (slot_of_op hx) hv
    exact ⟨y, hy⟩
  | argument _ _ _ hB _ hv =>
    obtain ⟨y, i, hy, -⟩ := hg.origin_argument hB hv
    exact ⟨y, hy⟩

/-- Moving the uses of a value that has none changes nothing. -/
theorem Redirected.idle (h : g.Coherent) {old new : ValueId} (hidle : g.readers old = []) :
    Redirected g old new g := by
  refine ⟨.refl g, h, ?_⟩
  intro u
  cases hu : g.held? u with
  | none => rfl
  | some v =>
    rw [Option.map_some]
    split
    · rename_i heq
      have hmem : u.user ∈ g.readers old := h.mem_readers.2 ⟨u.index, heq ▸ hu⟩
      rw [hidle] at hmem
      cases hmem
    · rfl

/-- A slot of a live operation can be written. -/
theorem Coherent.writeSlot_ok (h : g.Coherent) {o : OpId} {i : Nat} {old : ValueId}
    (hold : g.held? ⟨o, i⟩ = some old) (new : ValueId) :
    ∃ g', g.writeSlot o i new = .ok g' ∧ Rewired g g' ∧ g'.Coherent ∧
      ∀ u, g'.held? u = if u = ⟨o, i⟩ then some new else g.held? u := by
  obtain ⟨d, hd, hi⟩ := held?_eq_some.1 hold
  obtain ⟨g', hg'⟩ : ∃ g', g.writeSlot o i new = .ok g' :=
    ⟨_, writeSlot_eq_ok.2 ⟨d, old, slot_of_op hd, hi, rfl⟩⟩
  exact ⟨g', hg', .writeSlot hg', h.writeSlot (isLive_of_op hd) hg',
    held?_writeSlot hg' (isLive_of_op hd)⟩

/-- Both slots of a rotation can be written in one update, which is a change if the angle is
another one. -/
theorem Coherent.reroute_ok (h : g.Coherent) {o : OpId} {axis : Axis} {b q v : ValueId}
    (hf : g.Computes o (.rotation axis b q) v) {angle : ValueId} (qubit : ValueId)
    (hne : angle ≠ b) :
    ∃ u g₁ g', g.writeSlot o 0 angle = .ok g₁ ∧ g₁.writeSlot o 1 qubit = .ok g' ∧
      Update.writeAll ⟨o, [], true⟩ g [(0, angle), (1, qubit)] = (u, g', none) ∧
      u.isChange g' = .ok true ∧ Rerouted g o angle qubit g' := by
  have hb : g.held? ⟨o, 0⟩ = some b := hf.held? 0
  have hq : g.held? ⟨o, 1⟩ = some q := hf.held? 1
  obtain ⟨g₁, hw₁, hr₁, hc₁, hheld₁⟩ := h.writeSlot_ok hb angle
  have hq₁ : g₁.held? ⟨o, 1⟩ = some q := by
    rw [hheld₁, if_neg (by simp)]
    exact hq
  obtain ⟨g₂, hw₂, hr₂, hc₂, hheld₂⟩ := hc₁.writeSlot_ok hq₁ qubit
  have hr : Rerouted g o angle qubit g₂ :=
    ⟨hr₁.trans hr₂, hc₂, fun u => by rw [hheld₂, hheld₁]⟩
  have hangle : g₂.operand o 0 = .ok angle := by
    rw [operand_eq_ok, hr.held, if_neg (by simp), if_pos rfl]
  refine ⟨⟨o, [(1, q), (0, b)], true⟩, g₁, g₂, hw₁, hw₂, ?_,
    by simp [Update.isChange, hangle, hne], hr⟩
  simp [Update.writeAll, Update.write, operand_eq_ok.2 hb, operand_eq_ok.2 hq₁, hw₁, hw₂]

/-- Both slots of a rotation are written, and nothing outside the root is. -/
theorem Valid.outside_reroute (h : g.Valid root) {o : OpId} {axis : Axis} {b q v : ValueId}
    {g₁ : Graph} (ho : g.Inside root o) (hf : g.Computes o (.rotation axis b q) v)
    {angle qubit : ValueId} (hangle : g.Visible angle o) (hqubit : g.Visible qubit o)
    (hw₁ : g.writeSlot o 0 angle = .ok g₁) (hw₂ : g₁.writeSlot o 1 qubit = .ok g') :
    SameOutside root g g' := by
  have hr₁ : Rewired g g₁ := .writeSlot hw₁
  obtain ⟨d, hd, -⟩ := hf.op_ok
  have hheld₁ := held?_writeSlot hw₁ (isLive_of_op hd)
  -- between the two writes the function is valid as well
  have hvalid : g₁.Valid root := by
    refine h.rewired hr₁ (h.coherent.writeSlot (isLive_of_op hd) hw₁) ?_
    intro u w hu
    rw [hheld₁] at hu
    split at hu
    · rename_i heq
      cases hu
      subst heq
      exact .inr ⟨ho, hangle⟩
    · exact .inl hu
  have hq₁ : g₁.held? ⟨o, 1⟩ = some q := by
    rw [hheld₁, if_neg (by simp)]
    exact hf.held? 1
  have hs₁ := h.outside_writeSlot ho (hf.held? 0) (hangle.belongs h.linked h.detached ho) hw₁
  have hs₂ := hvalid.outside_writeSlot (hr₁.inside ho) hq₁
    (hr₁.belongs (hqubit.belongs h.linked h.detached ho)) hw₂
  exact hs₁.trans hs₂

theorem Inside.ne_root {o : OpId} (hroot : g.Detached root)
    (ho : g.Inside root o) : o ≠ root := by
  rintro rfl
  exact not_inside_of_no_owner hroot.no_owner ho

/-- Edits keep a function valid. -/
theorem Edit.valid (h : g.Valid root) (he : Edit axes root g g') : g'.Valid root := by
  cases he with
  | insert ha hd hblock _ hvisible hi => exact h.inserted hi ha hd hblock hvisible
  | @redirect old new _ _ hbelongs hvisible hr =>
    refine h.rewired hr.rewired hr.coherent ?_
    intro u v hu
    rcases hr.held_cases hu with ⟨hu, -⟩ | ⟨hu, rfl⟩
    · exact .inl hu
    · exact .inr ⟨h.closed hu hbelongs, hvisible hu⟩
  | fuse ho _ _ _ _ _ hsum hinput hr =>
    refine h.rewired hr.rewired hr.coherent ?_
    intro u v hu
    rcases hr.held_cases hu with ⟨rfl, rfl⟩ | ⟨rfl, rfl⟩ | ⟨-, -, hu⟩
    · exact .inr ⟨ho, hinput⟩
    · exact .inr ⟨ho, hsum⟩
    · exact .inl hu
  | erase ho hf hfree he =>
    obtain ⟨d, hd, -, hv, -⟩ := hf
    refine h.erased he hd (ho.ne_root h.detached) ?_
    intro w hw
    rw [hv, List.mem_singleton] at hw
    exact h.coherent.uses_eq_nil (hw ▸ hfree)

end Graph

/-- The second graph is the first with the uses of `v` moved to `w` and with `o`, which
made `v`, erased. -/
structure Graph.Retired (g : Graph) (o : OpId) (v w : ValueId) (g' : Graph) : Prop where
  computes {p : OpId} {f : Formula} {x : ValueId} : g.Computes p f x → p ≠ o → v ∉ f.operands →
    g'.Computes p f x
  inside {root p : OpId} : g.Inside root p → p ≠ o → g'.Inside root p
  held {u : Use} {x : ValueId} : g'.held? u = some x →
    u.user ≠ o ∧ (g.held? u = some x ∨ x = w)

/-! ## Sessions -/

/-- The session holds a valid function, and its observer tracks the root. -/
structure Session.Sound (root : OpId) (s : Session) : Prop where
  valid : s.graph.Valid root
  tracks : s.observer.Tracks s.graph root

/-- The second session comes from the first by edits of a function. -/
structure Session.Leads (axes : Rules.AxisMatch) (root : OpId) (s t : Session) : Prop where
  sound : t.Sound root
  edits : ReflTransGen (Graph.Edit axes root) s.graph t.graph
  outside : s.graph.SameOutside root t.graph
  mutated : s.mutated = true → t.mutated = true
  stop : t.stopRequested = s.stopRequested

theorem Session.Leads.trans {axes : Rules.AxisMatch} {root : OpId} {s t u : Session}
    (h : s.Leads axes root t) (h' : t.Leads axes root u) : s.Leads axes root u :=
  ⟨h'.sound, h.edits.trans h'.edits, h.outside.trans h'.outside,
    fun hs => h'.mutated (h.mutated hs), h'.stop.trans h.stop⟩

/-- An update whose writes all succeed and change something is committed, and the observer is
told of it. -/
theorem EditM.runOn_update_of_change {s : Session} {o : OpId} {d d' : Op}
    {slots : List (Nat × ValueId)} {u : Update} {g : Graph} {observer : Observer}
    (hd : s.graph.op o = .ok d)
    (hwrites : Update.writeAll ⟨o, [], true⟩ s.graph slots = (u, g, none))
    (hchange : u.isChange g = .ok true) (hd' : g.op o = .ok d')
    (hobserver : s.observer.notify g (.updated o) = .ok observer) :
    (EditM.update o slots).runOn s =
      .ok (.ok (), { s with graph := g, observer, mutated := true }) := by
  have hlive := Graph.isLive_of_op hd
  obtain ⟨hu, hopen, -⟩ : u.op = o ∧ u.isOpen = true ∧ g.isLive o = .ok true ∧
      s.Steps (fun _ => True) { s with graph := g } := EditM.steps_writeAll hwrites hlive
  have hcommit : (EditM.commit u g).runOn s =
      .ok (.ok u.close, { s with graph := g, observer, mutated := true }) :=
    EditM.runOn_commit.2 ⟨rfl, .inl ⟨hchange, observer, hu.symm ▸ hobserver, rfl⟩⟩
  have hattempt : (EditM.attemptUpdate o slots .commit).runOn s =
      .ok (.ok (.ok d'.operands), { s with graph := g, observer, mutated := true }) := by
    have hstart : Update.start s.graph o = .ok ⟨o, [], true⟩ := by simp [Update.start, hlive]
    rw [EditM.attemptUpdate, EditM.runOn_graph_bind]
    simp only [hstart, hwrites]
    exact (EditM.runOn_finish_kept hopen rfl).2 ⟨hcommit, by simp [Graph.operands, hu, hd']⟩
  rw [EditM.update, EditM.runOn_bind_of_ok hattempt]
  rfl

namespace Session

open Peephole.Graph

/-- An operation is inserted, and the observer is told of it. -/
structure Inserts (s : Session) (a : OpId) (d : Draft) (n : OpId) (t : Session) : Prop where
  graph : Inserted s.graph a d n t.graph
  told : s.observer.notify t.graph (.inserted n) = .ok t.observer

/-- The uses of a value are moved.  The observer is told if there are any. -/
structure Redirects (s : Session) (old new : ValueId) (t : Session) : Prop where
  graph : Redirected s.graph old new t.graph
  told : s.graph.readers old = [] ∧ t.observer = s.observer ∨
    s.observer.notify t.graph (.replaced old (s.graph.readers old)) = .ok t.observer

/-- Both slots of a rotation are written, and the observer is told of it. -/
structure Reroutes (s : Session) (o : OpId) (angle qubit : ValueId) (t : Session) : Prop where
  graph : Rerouted s.graph o angle qubit t.graph
  told : s.observer.notify t.graph (.updated o) = .ok t.observer

/-- An operation is erased, and the observer is told of it before. -/
structure Erases (s : Session) (o : OpId) (t : Session) : Prop where
  graph : Erased s.graph o t.graph
  told : s.observer.notify s.graph (.erasing o) = .ok t.observer

end Session

namespace Session.Sound

open Peephole.Graph

variable (axes : Rules.AxisMatch) {root o : OpId} {s : Session} {f : Formula} {v : ValueId}

/-- An edit that a session makes, with the observer after it. -/
theorem leads (h : s.Sound root) {g : Graph} {observer : Observer} {mutated : Bool}
    (he : Graph.Edit axes root s.graph g) (houtside : s.graph.SameOutside root g)
    (htracks : observer.Tracks g root) (hmutated : s.mutated = true → mutated = true) :
    s.Leads axes root { s with graph := g, observer, mutated } :=
  ⟨⟨he.valid h.valid, htracks⟩, .single he, houtside, hmutated, rfl⟩

theorem insert_ok (h : s.Sound root) {a : OpId} {d : Draft} (ha : s.graph.Inside root a)
    (hd : d.Standard) (hblock : d.block = none) (hregions : d.regions = [])
    (hk : d.kind.isReducible = true) (hvisible : ∀ v ∈ d.operands, s.graph.Visible v a) :
    ∃ n t, (EditM.insert a d).runOn s = .ok (.ok n, t) ∧ s.Leads axes root t ∧
      s.Inserts a d n t := by
  obtain ⟨k, p, howner, -⟩ := ha.owner
  obtain ⟨r, R, hr, -⟩ := ownerOf?_eq_some.1 howner
  obtain ⟨x, b, B, hx, hb, -⟩ := regionOf?_eq_some.1 hr
  obtain ⟨n, g₁, g', hnew, hplace⟩ := Graph.insert_ok h.valid.linked hx hb hregions hblock
  have hi := inserted_of_ok h.valid.linked hregions hnew hplace
  obtain ⟨observer, hobserver, htracks⟩ := h.tracks.inserted hi ha
  refine ⟨n, _, EditM.runOn_insert.2 ⟨n, g₁, g', observer, hnew, hplace, hobserver, rfl, rfl⟩, ?_,
    hi, hobserver⟩
  have houtside := h.valid.outside_insert ha hregions hvisible hnew hplace
  exact h.leads axes (.insert ha hd hblock hk hvisible hi) houtside htracks fun _ => rfl

/-- A value that is visible to all who read one made under the root is made there too, if
there are any. -/
theorem belongs_of_uses (h : s.Sound root) {old new : ValueId}
    (hbelongs : s.graph.Belongs root old)
    (hvisible : ∀ {u}, s.graph.held? u = some old → s.graph.Visible new u.user)
    (huses : s.graph.uses old ≠ []) : s.graph.Belongs root new := by
  obtain ⟨u, hu⟩ := List.exists_mem_of_ne_nil _ huses
  have hheld := h.valid.coherent.mem_uses.1 hu
  exact (hvisible hheld).belongs h.valid.linked h.valid.detached (h.valid.closed hheld hbelongs)

theorem redirectUses_ok (h : s.Sound root) {old new : ValueId} (halike : s.graph.Alike old new)
    (hbelongs : s.graph.Belongs root old)
    (hvisible : ∀ {u}, s.graph.held? u = some old → s.graph.Visible new u.user) (hne : new ≠ old) :
    ∃ t, (EditM.redirectUses old new).runOn s = .ok (.ok (), t) ∧ s.Leads axes root t ∧
      s.Redirects old new t := by
  by_cases hidle : s.graph.readers old = []
  · have hr : Redirected s.graph old new s.graph := .idle h.valid.coherent hidle
    refine ⟨s, EditM.runOn_redirectUses.2 ⟨rfl, .inl ⟨.inr hidle, rfl⟩⟩, ?_, hr, .inl ⟨hidle, rfl⟩⟩
    exact h.leads axes (.redirect halike hbelongs hvisible hr) (.refl h.valid.linked) h.tracks id
  · obtain ⟨g', hg', hcoherent, hheld⟩ := h.valid.coherent.redirectUses_ok old new
    have hr : Redirected s.graph old new g' := ⟨.redirectUses hg', hcoherent, hheld⟩
    obtain ⟨y, hy⟩ := hbelongs.exists h.valid.linked
    have hreaders : ∀ p ∈ s.graph.readers old, s.graph.Inside root p := by
      intro p hp
      obtain ⟨i, hi⟩ := h.valid.coherent.mem_readers.1 hp
      exact h.valid.closed hi hbelongs
    obtain ⟨observer, hobserver, htracks⟩ :=
      h.tracks.replaced hr.rewired (h.valid.linked.rewired hr.rewired) hy hbelongs hreaders
    have hreads : ¬(old = new ∨ s.graph.readers old = []) := by simp [hne.symm, hidle]
    refine ⟨_, EditM.runOn_redirectUses.2 ⟨rfl, .inr ⟨hreads, g', observer, hg', hobserver, rfl⟩⟩,
      ?_, hr, .inr hobserver⟩
    have houtside := h.valid.outside_redirectUses hbelongs (h.belongs_of_uses hbelongs hvisible) hg'
    exact h.leads axes (.redirect halike hbelongs hvisible hr) houtside htracks fun _ => rfl

theorem erase_ok (h : s.Sound root) (ho : s.graph.Inside root o) (hf : s.graph.Computes o f v)
    (hfree : ∀ u, s.graph.held? u ≠ some v) :
    ∃ t, (EditM.erase o).runOn s = .ok (.ok (), t) ∧ s.Leads axes root t ∧ t.mutated = true ∧
      s.Erases o t := by
  obtain ⟨d, hd, -, hv, hregions⟩ := id hf
  have huses := h.valid.coherent.uses_eq_nil hfree
  have hfree' : ∀ w ∈ d.results, s.graph.uses w = [] := by
    intro w hw
    rw [hv, List.mem_singleton] at hw
    rw [hw, huses]
  obtain ⟨g', hg'⟩ := Graph.erase_ok hd hregions hfree'
  have he := erased_of_ok h.valid.linked hd hregions hg'
  obtain ⟨observer, hobserver, htracks⟩ := h.tracks.erased h.valid ho he
  have htotal : s.graph.totalUses o = .ok 0 := by
    simp [totalUses, hf.results, huses]
  refine ⟨_, EditM.runOn_erase.2 ⟨d, 0, hd, htotal, .inr ⟨rfl, [], observer, g',
    nestedOps_leaf hd hregions, by simp [hobserver], hg', rfl, rfl⟩⟩, ?_, rfl, he, hobserver⟩
  have houtside := h.valid.outside_erase ho hd hregions hg'
  exact h.leads axes (.erase ho hf hfree he) houtside htracks fun _ => rfl

/-- Writing both slots of a rotation, with another angle than before. -/
theorem update_ok (h : s.Sound root) {axis : Axis} {b q sum input : ValueId}
    (hf : s.graph.Computes o (.rotation axis b q) v)
    (he : ∀ {g}, Rerouted s.graph o sum input g → Graph.Edit axes root s.graph g)
    (ho : s.graph.Inside root o) (hsum : s.graph.Visible sum o) (hinput : s.graph.Visible input o)
    (hne : sum ≠ b) :
    ∃ t, (EditM.update o [(0, sum), (1, input)]).runOn s = .ok (.ok (), t) ∧
      s.Leads axes root t ∧ s.Reroutes o sum input t := by
  obtain ⟨u, g₁, g', hw₁, hw₂, hwrites, hchange, hr⟩ :=
    h.valid.coherent.reroute_ok hf input hne
  have houtside := h.valid.outside_reroute ho hf hsum hinput hw₁ hw₂
  have htracks : s.observer.Tracks g' root := h.tracks.mono fun ho => hr.rewired.inside ho
  obtain ⟨observer, hobserver, htracks'⟩ :=
    htracks.updated ((he hr).valid h.valid) (hr.rewired.inside ho)
  obtain ⟨d, hd⟩ := ho.live
  obtain ⟨d', hd', -⟩ := hr.rewired.op_ok hd
  exact ⟨_, EditM.runOn_update_of_change hd hwrites hchange hd' hobserver,
    h.leads axes (he hr) houtside htracks' fun _ => rfl, hr, hobserver⟩

/-- The uses of a value are moved to one that is visible after its definer, and the
definer is erased. -/
theorem retire_ok (h : s.Sound root) {w : ValueId} (ho : s.graph.Inside root o)
    (hf : s.graph.Computes o f v) (halike : s.graph.Alike v w)
    (hvisible : ∀ p, s.graph.Precedes o p → s.graph.Visible w p) (hne : w ≠ v) :
    ∃ s₁ t, (EditM.redirectUses v w).runOn s = .ok (.ok (), s₁) ∧
      (EditM.erase o).runOn s₁ = .ok (.ok (), t) ∧ s.Leads axes root t ∧ t.mutated = true ∧
      s.Redirects v w s₁ ∧ s₁.Erases o t ∧ Retired s.graph o v w t.graph := by
  obtain ⟨d, hd, hmem, -⟩ := hf.op_ok
  have hbelongs : s.graph.Belongs root v := .result ho hd hmem
  have hreads : ∀ {u}, s.graph.held? u = some v → s.graph.Visible w u.user := fun hu =>
    (h.valid.visible hu (h.valid.closed hu hbelongs)).through h.valid.linked (slot_of_op hd) hmem
      hvisible
  obtain ⟨s₁, hrun₁, hleads₁, hredirects⟩ := h.redirectUses_ok axes halike hbelongs hreads hne
  have hr := hredirects.graph
  have hfree : ∀ u, s₁.graph.held? u ≠ some v := by
    intro u hu
    rcases hr.held_cases hu with ⟨-, hv⟩ | ⟨-, hv⟩
    · exact hv rfl
    · exact hne hv.symm
  obtain ⟨t, hrun, hleads, hmutated, herases⟩ :=
    hleads₁.sound.erase_ok axes (hr.rewired.inside ho) (hr.computes hf) hfree
  have he := herases.graph
  refine ⟨s₁, t, hrun₁, hrun, hleads₁.trans hleads, hmutated, hredirects, herases, ?_, ?_, ?_⟩
  · intro p f' x hp hpo hnot
    have hp' := he.computes (hr.computes hp) hpo
    rw [Formula.rename_of_not_mem hnot] at hp'
    exact hp'
  · intro root p hp hpo
    exact he.trimmed.inside_iff.2 ⟨hr.rewired.inside hp, hpo⟩
  · intro u x hu
    obtain ⟨huser, hu⟩ := he.held_cases hu
    rcases hr.held_cases hu with ⟨hu, -⟩ | ⟨-, hx⟩
    · exact ⟨huser, .inl hu⟩
    · exact ⟨huser, .inr hx⟩

end Session.Sound

end Peephole
