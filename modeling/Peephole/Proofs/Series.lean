import Peephole.Proofs.LooseEnds
import Peephole.Proofs.Rows

/-!
# A series of rotations

A function makes a qubit and constants, rotates the qubit by the constants, and goes on with what
it gets.  `Layout` lists the parts of such a function, and `Layout.Holds` says how they hang
together.  The rotations are a row, and the rest of the function has no gates but for rotations that
no rotation stands before.  Every qubit is read once, so that the pass can fuse whatever it comes
across.
-/

namespace Peephole

open Peephole.Graph

/-- The parts of a function that rotates a qubit by constants. -/
structure Layout where
  /-- The operation that makes the qubit. -/
  source : OpId
  /-- The constants that the qubit is rotated by: operation, number and value. -/
  consts : List (OpId × Binary64 × ValueId)
  /-- Constants that are for later. -/
  keep : List (OpId × Binary64 × ValueId)
  /-- The rotations, each with its number. -/
  row : List (Link (List Binary64))
  /-- What comes after them in the same block. -/
  post : List OpId
  /-- The same with what is nested there. -/
  rest : List OpId
  /-- The rotations in the rest. -/
  extra : List OpId
  /-- The slots of the rest and what they hold. -/
  reads : List (Use × ValueId)
  /-- The qubit. -/
  first : ValueId
  /-- The qubit after the rotations. -/
  out : ValueId

namespace Layout

/-- The operations in the block of the function. -/
def top (L : Layout) : List OpId :=
  L.source :: ((L.consts ++ L.keep).map (·.1) ++ (L.row.map Link.op ++ L.post))

/-- The operations of the function. -/
def all (L : Layout) : List OpId :=
  L.source :: ((L.consts ++ L.keep).map (·.1) ++ (L.row.map Link.op ++ L.rest))

/-- The function has these parts. -/
structure Holds (L : Layout) (g : Graph) (root : OpId) : Prop where
  function : g.Function root
  block : ∃ b B, g.block b = .ok B ∧ B.ops = L.top
  children : g.children root = .ok L.top
  nested : g.nestedOps root = .ok L.all
  source : ∃ d, g.op L.source = .ok d ∧ d.kind = .alloc ∧ d.operands = [] ∧
    d.results = [L.first] ∧ d.regions = []
  numbers : ∀ t ∈ L.consts ++ L.keep, g.Computes t.1 (.const t.2.1) t.2.2
  row : g.Row L.first L.row L.out
  angles : ∀ x ∈ L.row, ∃ t ∈ L.consts, ∃ u v, x.angle = [t.2.1] ∧
    g.Computes x.op (.rotation x.axis t.2.2 u) v
  parts : L.row.map Link.angle = L.consts.map fun t => [t.2.1]
  used : ∀ t ∈ L.consts, ∃ x ∈ L.row, g.held? ⟨x.op, 0⟩ = some t.2.2
  kept : ∀ t ∈ L.keep, ∃ r, r.user ∈ L.rest ∧ g.held? r = some t.2.2
  forest : ∃ k, Forest g k L.post L.rest
  reads {r : Use} {v : ValueId} : r.user ∈ L.rest → g.held? r = some v → (r, v) ∈ L.reads
  distinct : (L.reads.map Prod.snd).Nodup
  outside {r : Use} {v : ValueId} : (r, v) ∈ L.reads → v ∉ L.consts.map (·.2.2) ∧
    ∀ x ∈ L.row, ∀ {f}, g.Computes x.op f v → v = L.out
  rotations : ∀ o ∈ L.rest, ∀ {f v}, g.Computes o f v →
    o ∈ L.extra ∧ ∃ axis a u, f = .rotation axis a u
  extras : ∀ o ∈ L.extra, (∃ f v, g.Computes o f v) ∧
    ∀ {p axis a u v}, g.Computes p (.rotation axis a u) v → ¬g.Precedes p o

namespace Holds

variable {L : Layout} {g : Graph} {root o p : OpId} {f : Formula} {v : ValueId}

theorem valid (h : L.Holds g root) : g.Valid root := h.function.valid

theorem post (h : L.Holds g root) (ho : o ∈ L.post) : o ∈ L.rest := by
  obtain ⟨k, hforest⟩ := h.forest
  exact hforest.roots ho

/-- What is nested in the rest is in the rest. -/
theorem below (h : L.Holds g root) (ho : o ∈ L.rest) {cs : List OpId}
    (hcs : g.children o = .ok cs) (hp : p ∈ cs) : p ∈ L.rest := by
  obtain ⟨k, hforest⟩ := h.forest
  obtain ⟨ps, hps, hsub⟩ := hforest.closed ho
  rw [hcs] at hps
  cases hps
  exact hsub p hp

theorem inside_iff (h : L.Holds g root) : g.Inside root o ↔ o = L.source ∨
    (∃ t ∈ L.consts ++ L.keep, t.1 = o) ∨ (∃ x ∈ L.row, x.op = o) ∨ o ∈ L.rest := by
  rw [← h.valid.mem_nestedOps h.nested, all, List.mem_cons, List.mem_append, List.mem_append,
    List.mem_map, List.mem_map]

theorem not_computes_source (h : L.Holds g root) : ¬g.Computes L.source f v := by
  rintro ⟨d, hd, hf, -⟩
  obtain ⟨d', hd', hk, -⟩ := h.source
  rw [hd] at hd'
  cases hd'
  simp [Op.formula?, hk] at hf

theorem not_computes_first (h : L.Holds g root) : ¬g.Computes o f L.first := by
  intro hf
  obtain ⟨d, hd, -, -, hresults, -⟩ := h.source
  obtain rfl := hf.op_of_result h.valid.linked hd (by simp [hresults])
  exact h.not_computes_source hf

/-- What computes something is a constant, a rotation of the row or one of the rest. -/
theorem computes_cases (h : L.Holds g root) (ho : g.Inside root o) (hf : g.Computes o f v) :
    (∃ t ∈ L.consts ++ L.keep, t.1 = o ∧ f = .const t.2.1 ∧ v = t.2.2) ∨
      (∃ x ∈ L.row, x.op = o ∧ ∃ a u, f = .rotation x.axis a u) ∨
      o ∈ L.rest ∧ o ∈ L.extra ∧ ∃ axis a u, f = .rotation axis a u := by
  rcases h.inside_iff.1 ho with rfl | ⟨t, ht, rfl⟩ | ⟨x, hx, rfl⟩ | hrest
  · exact absurd hf h.not_computes_source
  · obtain ⟨hform, hv⟩ := hf.unique (h.numbers t ht)
    exact .inl ⟨t, ht, rfl, hform, hv⟩
  · obtain ⟨t, -, u, w, -, hfx⟩ := h.angles x hx
    exact .inr (.inl ⟨x, hx, rfl, _, u, (hf.unique hfx).1⟩)
  · exact .inr (.inr ⟨hrest, h.rotations o hrest hf⟩)

/-- A constant and a rotation are in this order. -/
theorem precedes (h : L.Holds g root) {t : OpId × Binary64 × ValueId} {x : Link (List Binary64)}
    (ht : t ∈ L.consts ++ L.keep) (hx : x ∈ L.row) : g.Precedes t.1 x.op := by
  obtain ⟨b, B, hB, hops⟩ := h.block
  refine ⟨b, B, hB, ?_⟩
  have htop : L.top = (L.source :: (L.consts ++ L.keep).map (·.1)) ++
      (L.row.map Link.op ++ L.post) := rfl
  rw [hops, htop]
  have ht' : t.1 ∈ (L.consts ++ L.keep).map (·.1) := List.mem_map_of_mem ht
  have hx' : x.op ∈ L.row.map Link.op := List.mem_map_of_mem hx
  exact (List.singleton_sublist.2 (List.mem_cons_of_mem _ ht')).append
    (List.singleton_sublist.2 (List.mem_append_left _ hx'))

theorem rotating (h : L.Holds g root) (axes : Rules.AxisMatch) :
    g.Rotating axes root L.first L.out L.extra [] L.row where
  row := h.row
  exist := by
    obtain ⟨d, hd, -, -, hresults, -⟩ := h.source
    obtain ⟨y, i, hy, -⟩ := h.valid.linked.origin_result (slot_of_op hd)
      (show L.first ∈ d.results by simp [hresults])
    exact ⟨y, hy⟩
  source := h.not_computes_first
  inside x hx := h.inside_iff.2 (.inr (.inr (.inl ⟨x, hx, rfl⟩)))
  ordered := by
    obtain ⟨b, B, hB, hops⟩ := h.block
    rw [List.nil_append, List.pairwise_iff_forall_sublist]
    intro o p hs
    refine ⟨b, B, hB, ?_⟩
    rw [hops]
    refine (hs.trans (List.sublist_append_left _ L.post)).trans ?_
    exact (List.sublist_append_right _ _).trans (List.sublist_cons_self _ _)
  apart := .nil
  ready x hx b hb := by
    obtain ⟨t, ht, u, w, -, hfx⟩ := h.angles x hx
    rw [hfx.held? 0] at hb
    cases hb
    have hf := h.numbers t (List.mem_append_left _ ht)
    refine ⟨fun hsum => ?_, fun y hy => ?_⟩
    · cases hf.formula_unique h.valid.linked hsum
    · exact hf.visible_after (h.precedes (List.mem_append_left _ ht) hy)
  whole ho hf := by
    rcases h.computes_cases ho hf with ⟨t, -, -, hform, -⟩ | ⟨x, hx, rfl, -⟩ | ⟨-, hextra, -⟩
    · cases hform
    · exact .inl (List.mem_map_of_mem hx)
    · exact .inr hextra
  extras o ho := by
    obtain ⟨⟨f, v, hf⟩, hfree⟩ := h.extras o ho
    exact ⟨hf.makes h.valid.linked, hfree⟩
  plain ho hf := by
    rcases h.computes_cases ho hf with ⟨t, -, -, hform, -⟩ | ⟨x, -, -, a, u, hform⟩ |
      ⟨-, -, axis, a, u, hform⟩
    · cases hform
    · cases hform
    · cases hform
  read ho hf := by
    rcases h.computes_cases ho hf with ⟨t, -, -, hform, -⟩ | ⟨x, -, -, a, u, hform⟩ |
      ⟨-, -, axis, a, u, hform⟩
    · cases hform
    · cases hform
    · cases hform

theorem nodup_row (h : L.Holds g root) : (L.row.map Link.op).Nodup :=
  (h.rotating .same).nodup h.valid.linked

/-- What a gate gives is read by the next rotation of the row or by one slot of the rest. -/
theorem exclusive (h : L.Holds g root) : g.Exclusive root := by
  intro o f v r r' ho hf hk hr hr'
  have hg := h.valid
  have hreads : ∀ {r}, g.held? r = some v →
      (∃ y ∈ L.row, ∃ a w, r = ⟨y.op, 1⟩ ∧ g.Computes y.op (.rotation y.axis a v) w) ∨
        (r, v) ∈ L.reads := by
    rintro ⟨user, i⟩ hr
    rcases h.inside_iff.1 (hg.closed hr (hf.belongs ho)) with hu | ⟨t, ht, hu⟩ | ⟨y, hy, hu⟩ | hu
    · obtain ⟨d, hd, -, hoperands, -⟩ := h.source
      obtain rfl : user = L.source := hu
      rw [held?_of_op hd, hoperands] at hr
      cases hr
    · obtain rfl : t.1 = user := hu
      rw [(h.numbers t ht).held?] at hr
      cases hr
    · obtain ⟨t, ht, u, w, -, hfy⟩ := h.angles y hy
      rcases hfy.rotation_slots hr hu.symm with ⟨-, rfl⟩ | ⟨heq, rfl⟩
      · rw [hf.formula_unique hg.linked (h.numbers t (List.mem_append_left _ ht))] at hk
        cases hk
      · exact .inl ⟨y, hy, _, w, heq, hfy⟩
    · exact .inr (h.reads hu hr)
  -- the slots of the rest hold none of the qubits that rotations of the row turn
  have happart : ∀ {y a w r}, y ∈ L.row → g.Computes y.op (.rotation y.axis a v) w →
      (r, v) ∉ L.reads := by
    intro y a w r hy hfy hmem
    rcases h.row.input hy hfy with rfl | ⟨z, hz, _, _, _, hfz⟩
    · exact h.not_computes_first hf
    · refine h.row.input_ne_out hg.linked h.nodup_row (fun _ _ _ => h.not_computes_first) hy hfy ?_
      exact (h.outside hmem).2 z hz hfz
  rcases hreads hr with ⟨y, hy, a, w, rfl, hfy⟩ | hmem
  · rcases hreads hr' with ⟨y', hy', a', w', rfl, hfy'⟩ | hmem
    · rw [h.row.input_inj hg.linked h.nodup_row (fun _ _ _ => h.not_computes_first) hy hy' hfy hfy']
    · exact absurd hmem (happart hy hfy)
  · rcases hreads hr' with ⟨y', hy', a', w', rfl, hfy'⟩ | hmem'
    · exact absurd hmem (happart hy' hfy')
    · cases List.inj_on_of_nodup_map h.distinct hmem hmem' rfl
      rfl

end Holds

end Layout

end Peephole
