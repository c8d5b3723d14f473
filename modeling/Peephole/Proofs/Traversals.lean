import Peephole.Proofs.Ancestry
import Peephole.Proofs.Availability

/-!
# Walks that skip and stop

`picky skip stop` is the visitor that notes each operation it sees, stops the walk at an
operation of the one sort and passes over what is nested in one of the other.

The list `nestedOps` has an operation before what is nested in it, and what is in an operation
before its later neighbours.  `Forest.segment` and `Forest.split` say where in the list the
trees stand, and both orders follow.  A walk with a picky visitor sees the same list without
what is nested in a skipped operation (`Graph.Passed`), up to the first operation that stops
it (`Forest.walkAll_picky`).
-/

namespace Peephole

/-- The operations up to the first one at which a walk is stopped, and that one. -/
def upTo (stop : OpId → Bool) : List OpId → List OpId
  | [] => []
  | o :: l => if stop o then [o] else o :: upTo stop l

theorem upTo_append {stop : OpId → Bool} {l₂ : List OpId} : ∀ {l₁ : List OpId},
    upTo stop (l₁ ++ l₂) = upTo stop l₁ ++ if (l₁.find? stop).isSome then [] else upTo stop l₂
  | [] => rfl
  | o :: l₁ => by
      cases ho : stop o with
      | true => simp [upTo, ho]
      | false => simp [upTo, ho, @upTo_append stop l₂ l₁]

namespace Graph

variable {g : Graph} {root o p q : OpId} {n m : Nat} {os os₁ os₂ l cs : List OpId}

/-- The visitor that notes what it sees, stops at some operations and passes over what is
nested in some others. -/
def picky (skip stop : OpId → Bool) : Visitor (List OpId) OpId := fun seen o =>
  return (seen ++ [o], if stop o then .stop o else if skip o then .skip else .advance)

/-- The operation is nested in one that is itself nested in the root and is skipped. -/
def Passed (g : Graph) (root : OpId) (skip : OpId → Bool) (o : OpId) : Prop :=
  ∃ p, g.Inside root p ∧ g.Inside p o ∧ skip p = true

open Classical in
/-- The operations of a list that are not passed over. -/
noncomputable def shown (g : Graph) (root : OpId) (skip : OpId → Bool) (l : List OpId) :
    List OpId :=
  l.filter fun o => ¬g.Passed root skip o

/-! ## Where trees stand in the list -/

namespace Forest

theorem split (h : Forest g n (os₁ ++ os₂) l) :
    ∃ l₁ l₂, l = l₁ ++ l₂ ∧ Forest g n os₁ l₁ ∧ Forest g n os₂ l₂ := by
  induction os₁ generalizing l with
  | nil => exact ⟨[], l, rfl, .nil, h⟩
  | cons o os₁ ih =>
    cases h with
    | cons hcs hin hrest =>
      obtain ⟨l₁, l₂, rfl, h₁, h₂⟩ := ih hrest
      exact ⟨_, l₂, by simp, .cons hcs hin h₁, h₂⟩

/-- An operation is followed by the trees under its children. -/
theorem segment (h : Forest g n os l) (hp : p ∈ l) : ∃ m cs inner l₁ l₂,
    g.children p = .ok cs ∧ Forest g m cs inner ∧ l = l₁ ++ p :: (inner ++ l₂) := by
  induction h with
  | nil => cases hp
  | @cons n o os cs inner rest hcs hin _ ihin ihrest =>
    rcases List.mem_cons.1 hp with rfl | hp
    · exact ⟨n, cs, inner, [], rest, hcs, hin, rfl⟩
    · rcases List.mem_append.1 hp with hp | hp
      · obtain ⟨m, ps, inner', l₁, l₂, hps, hin', rfl⟩ := ihin hp
        exact ⟨m, ps, inner', o :: l₁, l₂ ++ rest, hps, hin', by simp⟩
      · obtain ⟨m, ps, inner', l₁, l₂, hps, hin', rfl⟩ := ihrest hp
        exact ⟨m, ps, inner', o :: (inner ++ l₁), l₂, hps, hin', by simp⟩

/-- An operation comes before what is nested in it. -/
theorem before_nested (hg : g.Housed) (h : Forest g n os l) (hp : p ∈ l) (hq : g.Inside p q) :
    [p, q].Sublist l := by
  obtain ⟨m, cs, inner, l₁, l₂, hcs, hin, rfl⟩ := h.segment hp
  have hmem : q ∈ inner ++ l₂ := List.mem_append_left l₂ (hin.mem_of_inside hg hcs hq)
  exact ((List.singleton_sublist.2 hmem).cons_cons p).trans (List.sublist_append_right l₁ _)

/-- What is in the one root comes before what is in a later one. -/
theorem before_of_roots (hg : g.Housed) (h : Forest g n os l) (hpq : [p, q].Sublist os)
    {p' q' : OpId} {i j : Nat} (hp : Within g p i p') (hq : Within g q j q') :
    [p', q'].Sublist l := by
  obtain ⟨os₁, os₂, rfl, hp₁, hq₂⟩ := List.cons_sublist_iff.1 hpq
  obtain ⟨l₁, l₂, rfl, h₁, h₂⟩ := h.split
  have hp' : p' ∈ l₁ := h₁.downward hg (h₁.roots hp₁) hp
  have hq' : q' ∈ l₂ := h₂.downward hg (h₂.roots (List.singleton_sublist.1 hq₂)) hq
  exact (List.singleton_sublist.2 hp').append (List.singleton_sublist.2 hq')

end Forest

/-- The children of an operation are in the order of their blocks. -/
theorem sublist_children {b : BlockId} {B : Block} {bs : List BlockId}
    (hcs : g.children o = .ok cs) (hbs : g.innerBlocks o = .ok bs) (hb : b ∈ bs)
    (hB : g.block b = .ok B) : B.ops.Sublist cs := by
  obtain ⟨bs', Bs, hbs', hBs, rfl⟩ := children_eq_ok.1 hcs
  rw [hbs] at hbs'
  cases hbs'
  obtain ⟨B', hB', hmem⟩ := (mem_of_mapM hBs).2 b hb
  rw [hB] at hmem
  cases hmem
  rw [List.flatMap_def]
  exact List.sublist_flatten_of_mem (List.mem_map_of_mem hB')

/-- What comes first in a block comes first among the children of the owner. -/
theorem Linked.precedes_children (hg : g.Linked) (hpq : g.Precedes p q)
    (howner : g.ownerOf? p = .ok (some o)) (hcs : g.children o = .ok cs) : [p, q].Sublist cs := by
  obtain ⟨b, B, hB, hs⟩ := hpq
  obtain ⟨bs, -, hbs, -⟩ := children_eq_ok.1 hcs
  have hp : p ∈ cs := (hg.housed.mem_children_iff hcs).2 howner
  obtain ⟨c, hc, C, hC, hpC⟩ := (mem_children hcs hbs).1 hp
  obtain ⟨rfl, rfl⟩ := hg.block_unique hB hC (hs.subset (.head _)) hpC
  exact hs.trans (sublist_children hcs hbs hc hB)

/-- Under the root, what is in an operation comes before what is in a later one of its block. -/
theorem Linked.before_of_precedes (hg : g.Linked) (hcs : g.children root = .ok cs)
    (h : Forest g n cs l) (hp : g.Inside root p) (hpq : g.Precedes p q) {p' q' : OpId} {i j : Nat}
    (hp' : Within g p i p') (hq' : Within g q j q') : [p', q'].Sublist l := by
  obtain ⟨k, hk⟩ := hp
  cases hk with
  | @step _ _ o howner hk =>
    cases hk with
    | root => exact h.before_of_roots hg.housed (hg.precedes_children hpq howner hcs) hp' hq'
    | step howner' hk =>
      have ho : o ∈ l := h.mem_of_inside hg.housed hcs ⟨_, .step howner' hk⟩
      obtain ⟨m, cs', inner, l₁, l₂, hcs', hin, rfl⟩ := h.segment ho
      have hbefore := hin.before_of_roots hg.housed (hg.precedes_children hpq howner hcs') hp' hq'
      refine hbefore.trans (.trans ?_ (List.sublist_append_right l₁ _))
      exact (List.sublist_append_left inner l₂).cons o

/-! ## What a picky visitor sees -/

section Passed

variable {c : OpId} {skip : OpId → Bool}

/-- What is in a child of a skipped operation is passed over. -/
theorem Passed.of_child (ho : g.Inside root o) (hskip : skip o = true)
    (hc : g.ownerOf? c = .ok (some o)) {k : Nat} (hp : Within g c k p) :
    g.Passed root skip p := by
  have hstep : Within g o 1 c := .step hc .root
  exact ⟨o, ho, ⟨k, Nat.add_comm 1 k ▸ hstep.trans hp⟩, hskip⟩

/-- A child is seen where its owner is seen and not skipped. -/
theorem not_passed_child (ho : ¬g.Passed root skip o) (hskip : skip o = false)
    (hc : g.ownerOf? c = .ok (some o)) : ¬g.Passed root skip c := by
  rintro ⟨p, hp, ⟨j, hj⟩, hpskip⟩
  cases hj with
  | step howner hj =>
    rw [hc] at howner
    cases howner
    cases hj with
    | root => simp [hskip] at hpskip
    | step howner hj => exact ho ⟨p, hp, ⟨_, .step howner hj⟩, hpskip⟩

/-- The children of the root are seen. -/
theorem not_passed_of_root (hroot : ¬g.Inside root root) (hc : g.ownerOf? c = .ok (some root)) :
    ¬g.Passed root skip c := by
  rintro ⟨p, ⟨i, hi⟩, ⟨j, hj⟩, -⟩
  cases hj with
  | step howner hj =>
    -- what is around a child of the root is not below the root
    rw [hc] at howner
    cases howner
    have hloop := hi.trans hj
    exact hroot ⟨i + j, by simpa [Nat.add_right_comm] using hloop⟩

end Passed

/-- A walk of trees with a picky visitor sees the list without what is passed over, up to the
first operation that stops it. -/
theorem Forest.walkAll_picky {skip stop : OpId → Bool} (hg : g.Housed) (h : Forest g n os l) :
    ∀ (seen : List OpId), (∀ o ∈ os, g.Inside root o ∧ ¬g.Passed root skip o) →
      walkAll (g.walkTreeTo (picky skip stop) n) seen os =
        .ok (seen ++ upTo stop (g.shown root skip l), (g.shown root skip l).find? stop) := by
  induction h with
  | nil =>
    intro seen _
    simp [walkAll, upTo, shown]
  | @cons n o os cs inner rest hcs hin _ ihin ihrest =>
    intro seen hos
    obtain ⟨bs, _, hbs, -⟩ := children_eq_ok.1 hcs
    obtain ⟨d, _, hd, -⟩ := innerBlocks_eq_ok.1 hbs
    obtain ⟨ho, hshown⟩ := hos o (.head os)
    have hrest := fun seen => ihrest seen fun p hp => hos p (.tail o hp)
    have hlist : g.shown root skip (o :: (inner ++ rest)) =
        o :: (g.shown root skip inner ++ g.shown root skip rest) := by
      rw [shown, List.filter_cons_of_pos (by simpa using hshown), List.filter_append]
      rfl
    rw [walkAll, walkTreeTo, picky, hlist]
    cases hstop : stop o with
    | true => simp [hstop, upTo]
    | false =>
      cases hskip : skip o with
      | true =>
        -- nothing that is nested in the operation is seen
        have hnone : g.shown root skip inner = [] := by
          refine List.filter_eq_nil_iff.2 fun p hp => ?_
          obtain ⟨c, hc, k, hk⟩ := hin.within hg hp
          simpa using Passed.of_child ho hskip ((hg.mem_children_iff hcs).1 hc) hk
        simp [hstop, hnone, upTo, hrest]
      | false =>
        have hchildren : ∀ c ∈ cs, g.Inside root c ∧ ¬g.Passed root skip c := by
          intro c hc
          have howner := (hg.mem_children_iff hcs).1 hc
          obtain ⟨k, hk⟩ := id ho
          exact ⟨⟨k + 1, .step howner hk⟩, not_passed_child hshown hskip howner⟩
        simp only [Bool.false_eq_true, if_false, pure_eq_ok, ok_bind, hd]
        rw [walkRegions_eq hd hcs, ihin (seen ++ [o]) hchildren, ok_bind]
        cases hfind : (g.shown root skip inner).find? stop with
        | some a => simp [upTo, hstop, upTo_append, hfind]
        | none => simp [upTo, hstop, upTo_append, hfind, hrest]

/-- Under a live root whose chain of owners ends, `nestedOps` lists each operation from which
the root is reached, once.  An operation comes before what is nested in it, and what is in an
earlier operation of a block before what is in a later one.  A walk with a picky visitor sees
the list without what is passed over, up to the first operation that stops it, and gives that
operation as its answer. -/
theorem Reachable.walkInside_preorder (h : g.Reachable false) {d : Op} (hd : g.op root = .ok d)
    (hroot : g.Anchored root) :
    ∃ l, g.nestedOps root = .ok l ∧ l.Nodup ∧
      (∀ o, o ∈ l ↔ o ≠ root ∧ (∃ x, g.op o = .ok x) ∧ ∃ n, Within g root n o) ∧
      (∀ p ∈ l, ∀ q, g.Inside p q → [p, q].Sublist l) ∧
      (∀ p ∈ l, ∀ q, g.Precedes p q → ∀ p' i q' j, Within g p i p' → Within g q j q' →
        [p', q'].Sublist l) ∧
      ∀ skip stop : OpId → Bool, g.walkInside (picky skip stop) [] root =
        .ok (upTo stop (g.shown root skip l), (g.shown root skip l).find? stop) := by
  have hg := h.linked
  obtain ⟨l, hl, -, hnodup, hmem⟩ := hg.housed.walk_ok hd hroot.not_inside
  obtain ⟨cs, hcs, hforest⟩ := nestedOps_eq_ok.1 hl
  refine ⟨l, hl, (List.nodup_cons.1 hnodup).2, ?members, ?nested, ?neighbours, ?walks⟩
  case members =>
    intro o
    rw [hmem]
    constructor
    · rintro ho
      obtain ⟨n, hn⟩ := id ho
      refine ⟨?_, ho.live, n + 1, hn⟩
      rintro rfl
      exact hroot.not_inside ho
    · rintro ⟨hne, -, n, hn⟩
      cases hn with
      | root => exact absurd rfl hne
      | step howner hn => exact ⟨_, .step howner hn⟩
  case nested => exact fun p hp q hq => hforest.before_nested hg.housed hp hq
  case neighbours =>
    intro p hp q hpq p' i q' j hp' hq'
    exact hg.before_of_precedes hcs hforest ((hmem p).1 hp) hpq hp' hq'
  case walks =>
    intro skip stop
    have hshown : ∀ c ∈ cs, g.Inside root c ∧ ¬g.Passed root skip c := by
      intro c hc
      have howner := (hg.housed.mem_children_iff hcs).1 hc
      exact ⟨⟨0, .step howner .root⟩, not_passed_of_root hroot.not_inside howner⟩
    rw [walkInside_eq hcs, hforest.walkAll_picky hg.housed [] hshown, List.nil_append]

/-- A walk that passes over the branch and stops at the return misses what is in the branch. -/
theorem walkInside_preorder_leak :
    leakGraph.walkInside (picky (· = ⟨2⟩) (· = ⟨4⟩)) [] ⟨5⟩ = .ok ([⟨2⟩, ⟨3⟩, ⟨4⟩], some ⟨4⟩) ∧
      [⟨2⟩, ⟨3⟩, ⟨4⟩] =
        upTo (· = ⟨4⟩) (leakGraph.shown ⟨5⟩ (· = ⟨2⟩) [⟨2⟩, ⟨0⟩, ⟨1⟩, ⟨3⟩, ⟨4⟩]) := by
  have hnested : leakGraph.nestedOps ⟨5⟩ = .ok [⟨2⟩, ⟨0⟩, ⟨1⟩, ⟨3⟩, ⟨4⟩] := by decide +kernel
  have hwalk : leakGraph.walkInside (picky (· = ⟨2⟩) (· = ⟨4⟩)) [] ⟨5⟩ =
      .ok ([⟨2⟩, ⟨3⟩, ⟨4⟩], some ⟨4⟩) := by decide +kernel
  obtain ⟨l, hl, -, -, -, -, hwalks⟩ :=
    @leakGraph_built.walkInside_preorder _ ⟨5⟩ _ rfl (.of_no_owner (by decide +kernel))
  cases hl.symm.trans hnested
  refine ⟨hwalk, ?_⟩
  have heq := hwalk.symm.trans (hwalks _ _)
  simp only [Except.ok.injEq, Prod.mk.injEq] at heq
  exact heq.1

end Graph

end Peephole
