import Peephole.Proofs.Links
import Mathlib.Data.List.Nodup
import Mathlib.Data.List.Range
import Mathlib.Data.List.Perm.Subperm

/-!
# Nesting

`Graph.Within g root n o` says that `o` is `n` levels under `root`, seen from `o` through
the links upwards.  Under an operation that is not nested in itself the level is unique, so
the operations above `o` are all different, and there are no more of them than operations in
the table.  This is why the depth that walks are given is enough.

In a linked graph a walk from such a root therefore ends, and what it lists is what is
under the root, each operation once (`Housed.walk_ok`).  An operation in no block is never
nested in itself.
-/

namespace Peephole.Graph

variable {g g' : Graph}

/-! ## Owners -/

theorem regionOf?_eq_some {o : OpId} {r : RegionId} : g.regionOf? o = .ok (some r) ↔
    ∃ d b B, g.op o = .ok d ∧ d.block = some b ∧ g.block b = .ok B ∧ B.region = some r := by
  rw [regionOf?, bind_eq_ok]
  constructor
  · rintro ⟨d, hd, h⟩
    split at h
    · cases h
    · rename_i b hb
      obtain ⟨B, hB, h⟩ := bind_eq_ok.1 h
      exact ⟨d, b, B, hd, hb, hB, Except.ok.inj h⟩
  · rintro ⟨d, b, B, hd, hb, hB, hr⟩
    refine ⟨d, hd, ?_⟩
    rw [hb]
    simp [hB, hr]

theorem ownerOf?_eq_some {o p : OpId} : g.ownerOf? o = .ok (some p) ↔
    ∃ r R, g.regionOf? o = .ok (some r) ∧ g.region r = .ok R ∧ R.owner = some p := by
  rw [ownerOf?, bind_eq_ok]
  constructor
  · rintro ⟨_ | r, hr, h⟩
    · cases h
    · obtain ⟨R, hR, h⟩ := bind_eq_ok.1 h
      exact ⟨r, R, hr, hR, Except.ok.inj h⟩
  · rintro ⟨r, R, hr, hR, hp⟩
    exact ⟨some r, hr, by simp [hR, hp]⟩

theorem op_of_ownerOf? {o : OpId} {owner : Option OpId} (h : g.ownerOf? o = .ok owner) :
    ∃ d, g.op o = .ok d := by
  obtain ⟨r, hr, -⟩ := bind_eq_ok.1 h
  obtain ⟨d, hd, -⟩ := bind_eq_ok.1 hr
  exact ⟨d, hd⟩

theorem ownerOf?_detached {o : OpId} {d : Op} (hd : g.op o = .ok d) (hb : d.block = none) :
    g.ownerOf? o = .ok none := by
  simp [ownerOf?, regionOf?, hd, hb]

namespace Housed

/-- A live operation has children. -/
theorem children_ok (hg : g.Housed) {o : OpId} {d : Op} (hd : g.op o = .ok d) :
    ∃ cs, g.children o = .ok cs := by
  have hregions : ∀ r ∈ d.regions, ∃ R, g.region r = .ok R := by
    intro r hr
    obtain ⟨R, hR, -⟩ := hg.owned.2 ⟨d, slot_of_op hd, hr⟩
    exact ⟨R, hR⟩
  obtain ⟨Rs, hRs⟩ := mapM_ok hregions
  have hinner := innerBlocks_eq_ok.2 ⟨d, Rs, hd, hRs, rfl⟩
  have hblocks : ∀ b ∈ Rs.flatMap Region.blocks, ∃ B, g.block b = .ok B := by
    intro b hb
    obtain ⟨r, -, R, hR, hb⟩ := (mem_flatMap_of_mapM hRs).1 hb
    obtain ⟨B, hB, -⟩ := hg.parted.2 ⟨R, hR, hb⟩
    exact ⟨B, hB⟩
  obtain ⟨Bs, hBs⟩ := mapM_ok hblocks
  exact ⟨_, children_eq_ok.2 ⟨_, Bs, hinner, hBs, rfl⟩⟩

/-- The children of an operation are those that it owns. -/
theorem mem_children_iff (hg : g.Housed) {o p : OpId} {cs : List OpId}
    (hcs : g.children p = .ok cs) : o ∈ cs ↔ g.ownerOf? o = .ok (some p) := by
  obtain ⟨bs, -, hbs, -⟩ := children_eq_ok.1 hcs
  rw [mem_children hcs hbs, ownerOf?_eq_some]
  constructor
  · rintro ⟨b, hb, B, hB, ho⟩
    obtain ⟨d, r, R, hd, hr, hR, hb⟩ := (mem_innerBlocks hbs).1 hb
    obtain ⟨x, hx, hxb⟩ := hg.placed.2 ⟨B, hB, ho⟩
    obtain ⟨B', hB', hr'⟩ := hg.parted.2 ⟨R, hR, hb⟩
    obtain ⟨R', hR', howner⟩ := hg.owned.2 ⟨d, slot_of_op hd, hr⟩
    rw [hR] at hR'
    cases hR'
    exact ⟨r, R, regionOf?_eq_some.2 ⟨x, b, B', hx, hxb, hB', hr'⟩, hR, howner⟩
  · rintro ⟨r, R, hr, hR, howner⟩
    obtain ⟨x, b, B, hx, hxb, hB, hBr⟩ := regionOf?_eq_some.1 hr
    obtain ⟨B', hB', ho⟩ := hg.placed.1 ⟨x, hx, hxb⟩
    obtain ⟨R', hR', hb⟩ := hg.parted.1 ⟨B, hB, hBr⟩
    obtain ⟨d', hd', hr'⟩ := hg.owned.1 ⟨R, hR, howner⟩
    obtain ⟨d, Rs, hd, -⟩ := innerBlocks_eq_ok.1 hbs
    rw [slot_of_op hd] at hd'
    cases hd'
    exact ⟨b, (mem_innerBlocks hbs).2 ⟨_, r, R', hd, hr', hR', hb⟩, B', hB', ho⟩

end Housed

theorem nodup_flatMap_of_mapM {α β γ : Type} {f : α → Except Fault β} {k : β → List γ} :
    ∀ {l : List α} {bs : List β}, l.mapM f = .ok bs → l.Nodup →
      (∀ a ∈ l, ∀ b, f a = .ok b → (k b).Nodup) →
      (∀ a ∈ l, ∀ a' ∈ l, ∀ b b' c, f a = .ok b → f a' = .ok b' → c ∈ k b → c ∈ k b' → a = a') →
      (bs.flatMap k).Nodup
  | [], bs, h, _, _, _ => by
      cases h
      exact List.nodup_nil
  | a :: l, bs, h, hl, heach, hapart => by
      obtain ⟨b, bs', hb, hbs', rfl⟩ := mapM_cons_eq_ok.1 h
      obtain ⟨ha, hl⟩ := List.nodup_cons.1 hl
      rw [List.flatMap_cons, List.nodup_append']
      refine ⟨heach a (.head l) b hb, ?_, ?_⟩
      · exact nodup_flatMap_of_mapM hbs' hl (fun x hx => heach x (.tail a hx))
          fun x hx y hy => hapart x (.tail a hx) y (.tail a hy)
      · intro c hc hc'
        obtain ⟨a', ha', b', hb', hcb'⟩ := (mem_flatMap_of_mapM hbs').1 hc'
        cases hapart a (.head l) a' (.tail a ha') b b' c hb hb' hc hcb'
        exact ha ha'

theorem Housed.nodup_children (hg : g.Housed) {o : OpId} {cs : List OpId}
    (hcs : g.children o = .ok cs) : cs.Nodup := by
  obtain ⟨bs, Bs, hbs, hBs, rfl⟩ := children_eq_ok.1 hcs
  obtain ⟨d, Rs, hd, hRs, rfl⟩ := innerBlocks_eq_ok.1 hbs
  refine nodup_flatMap_of_mapM hBs ?_ (fun b _ B hB => hg.nodupOps hB) ?_
  · refine nodup_flatMap_of_mapM hRs (hg.nodupRegions (slot_of_op hd))
      (fun r _ R hR => hg.nodupBlocks hR) ?_
    intro r _ r' _ R R' b hR hR' hb hb'
    obtain ⟨B, hB, hBr⟩ := hg.parted.2 ⟨R, hR, hb⟩
    obtain ⟨B', hB', hBr'⟩ := hg.parted.2 ⟨R', hR', hb'⟩
    rw [hB] at hB'
    cases hB'
    exact Option.some.inj (hBr.symm.trans hBr')
  · intro b _ b' _ B B' p hB hB' hp hp'
    obtain ⟨x, hx, hxb⟩ := hg.placed.2 ⟨B, hB, hp⟩
    obtain ⟨x', hx', hxb'⟩ := hg.placed.2 ⟨B', hB', hp'⟩
    rw [hx] at hx'
    cases hx'
    exact Option.some.inj (hxb.symm.trans hxb')

/-! ## Levels -/

/-- The operation `o` is `n` levels under `root`. -/
inductive Within (g : Graph) (root : OpId) : Nat → OpId → Prop
  | root : Within g root 0 root
  | step {n : Nat} {o p : OpId} : g.ownerOf? o = .ok (some p) → Within g root n p →
      Within g root (n + 1) o

/-- The operation is nested in another one. -/
def Inside (g : Graph) (root o : OpId) : Prop := ∃ n, Within g root (n + 1) o

theorem Inside.live {root o : OpId} (h : g.Inside root o) : ∃ d, g.op o = .ok d := by
  obtain ⟨n, h⟩ := h
  cases h with
  | step howner _ => exact op_of_ownerOf? howner

/-- An operation that nobody owns is nested in none. -/
theorem not_inside_of_no_owner {root o : OpId} (h : g.ownerOf? o = .ok none) :
    ¬g.Inside root o := by
  rintro ⟨n, hn⟩
  cases hn with
  | step howner _ =>
    rw [h] at howner
    cases howner

namespace Within

variable {root : OpId} {n m : Nat} {o p : OpId}

theorem trans (h : Within g root n o) (h' : Within g o m p) : Within g root (n + m) p := by
  induction h' with
  | root => exact h
  | step howner _ ih => exact .step howner ih

theorem eq_or_inside (h : Within g root n o) : o = root ∨ g.Inside root o := by
  cases h with
  | root => exact .inl rfl
  | step howner hn => exact .inr ⟨_, .step howner hn⟩

/-- Operations with the same owner are at the same level. -/
theorem sibling (h : Within g root (n + 1) o) (heq : g.ownerOf? p = g.ownerOf? o) :
    Within g root (n + 1) p := by
  cases h with
  | step howner h => exact .step (heq.trans howner) h

/-- What is nested in an operation is in one of its children. -/
theorem child (h : Within g root (n + 1) o) :
    ∃ c, g.ownerOf? c = .ok (some root) ∧ Within g c n o := by
  induction n generalizing o with
  | zero =>
    cases h with
    | step howner h =>
      cases h
      exact ⟨o, howner, .root⟩
  | succ n ih =>
    cases h with
    | step howner h =>
      obtain ⟨c, hc, hn⟩ := ih h
      exact ⟨c, hc, .step howner hn⟩

/-- The operation a number of levels up is unique. -/
theorem root_unique {root' : OpId} (h : Within g root n o) (h' : Within g root' n o) :
    root = root' := by
  induction h with
  | root =>
    cases h'
    rfl
  | step howner _ ih =>
    cases h' with
    | step howner' h' =>
      rw [howner] at howner'
      cases howner'
      exact ih h'

/-- The level under an operation that is not nested in itself is unique. -/
theorem level_unique (hroot : ¬g.Inside root root) (h : Within g root n o)
    (h' : Within g root m o) : n = m := by
  induction h generalizing m with
  | root =>
    cases h' with
    | root => rfl
    | step howner h' => exact absurd ⟨_, .step howner h'⟩ hroot
  | step howner h ih =>
    cases h' with
    | root => exact absurd ⟨_, .step howner h⟩ hroot
    | step howner' h' =>
      rw [howner] at howner'
      cases howner'
      rw [ih h']

/-- Of the operations at one level, only one is above another operation. -/
theorem branch_unique (hroot : ¬g.Inside root root) {p q : OpId} {i j : Nat}
    (hp : Within g root n p) (hq : Within g root n q) (hi : Within g p i o) (hj : Within g q j o) :
    p = q := by
  have hij := level_unique hroot (hp.trans hi) (hq.trans hj)
  obtain rfl : i = j := by omega
  exact hi.root_unique hj

theorem live (h : Within g root n o) {d : Op} (hroot : g.op root = .ok d) :
    ∃ d, g.op o = .ok d := by
  cases h with
  | root => exact ⟨d, hroot⟩
  | step howner _ => exact op_of_ownerOf? howner

/-- The operations on the way up are different ones. -/
theorem path (hroot : ¬g.Inside root root) (h : Within g root n o) :
    ∃ l : List OpId, l.length = n + 1 ∧ l.Nodup ∧ ∀ p ∈ l, ∃ m ≤ n, Within g root m p := by
  induction h with
  | root => exact ⟨[root], rfl, List.nodup_singleton root, by simpa using .root⟩
  | @step n o p howner hp ih =>
    obtain ⟨l, hlen, hnodup, hl⟩ := ih
    have hnew : o ∉ l := by
      intro ho
      obtain ⟨m, hm, ho⟩ := hl o ho
      have := level_unique hroot ho (.step howner hp)
      omega
    refine ⟨o :: l, by simp [hlen], List.nodup_cons.2 ⟨hnew, hnodup⟩, ?_⟩
    intro q hq
    rcases List.mem_cons.1 hq with rfl | hq
    · exact ⟨n + 1, Nat.le_refl _, .step howner hp⟩
    · obtain ⟨m, hm, hq⟩ := hl q hq
      exact ⟨m, Nat.le_succ_of_le hm, hq⟩

/-- Nesting is less deep than the table of operations is long. -/
theorem level_lt {d : Op} (hd : g.op root = .ok d) (hroot : ¬g.Inside root root)
    (h : Within g root n o) : n < g.ops.size := by
  obtain ⟨l, hlen, hnodup, hl⟩ := h.path hroot
  have hsub : l.map OpId.index ⊆ List.range g.ops.size := by
    intro i hi
    obtain ⟨p, hp, rfl⟩ := List.mem_map.1 hi
    obtain ⟨m, -, hp⟩ := hl p hp
    obtain ⟨x, hx⟩ := hp.live hd
    exact List.mem_range.2 (index_lt_of_slot (slot_of_op hx))
  have hnodup' : (l.map OpId.index).Nodup :=
    hnodup.map fun p q hpq => OpId.index_inj.1 hpq
  have hle := (List.subperm_of_subset hnodup' hsub).length_le
  simp only [List.length_map, List.length_range] at hle
  omega

end Within

/-! ## Walks under a root -/

/-- A live operation that is in no block. -/
def Detached (g : Graph) (root : OpId) : Prop := ∃ d, g.op root = .ok d ∧ d.block = none

theorem Detached.no_owner {root : OpId} (h : g.Detached root) : g.ownerOf? root = .ok none := by
  obtain ⟨d, hd, hb⟩ := h
  exact ownerOf?_detached hd hb

/-- The chain of owners above an operation ends.  Since an erased operation has no answer for
its owner, the operation and all those above it are live. -/
def Topped (g : Graph) (o : OpId) : Prop := ∃ top n, Within g top n o ∧ g.ownerOf? top = .ok none

namespace Topped

theorem live {o : OpId} (h : g.Topped o) : ∃ d, g.op o = .ok d := by
  obtain ⟨top, n, hn, htop⟩ := h
  obtain ⟨d, hd⟩ := op_of_ownerOf? htop
  exact hn.live hd

theorem not_inside {o : OpId} (h : g.Topped o) : ¬g.Inside o o := by
  obtain ⟨top, n, hn, htop⟩ := h
  rintro ⟨m, hm⟩
  have hlevel := Within.level_unique (not_inside_of_no_owner htop) hn (hn.trans hm)
  omega

end Topped

namespace Forest

theorem unique {n m : Nat} {os l l' : List OpId} (h : Forest g n os l) (h' : Forest g m os l') :
    l = l' := by
  induction h generalizing m l' with
  | nil =>
    cases h'
    rfl
  | cons hcs _ _ ihin ihrest =>
    cases h' with
    | cons hcs' hin' hrest' =>
      rw [hcs] at hcs'
      cases hcs'
      rw [ihin hin', ihrest hrest']

/-- What is in a tree is under its root. -/
theorem within {n : Nat} {os l : List OpId} (hg : g.Housed) (h : Forest g n os l) :
    ∀ {p : OpId}, p ∈ l → ∃ o ∈ os, ∃ k, Within g o k p := by
  induction h with
  | nil =>
    intro p hp
    cases hp
  | @cons n o os cs inner rest hcs _ _ ihin ihrest =>
    intro p hp
    rcases List.mem_cons.1 hp with rfl | hp
    · exact ⟨p, .head os, 0, .root⟩
    · rcases List.mem_append.1 hp with hp | hp
      · obtain ⟨c, hc, k, hk⟩ := ihin hp
        have howner : g.ownerOf? c = .ok (some o) := (hg.mem_children_iff hcs).1 hc
        exact ⟨o, .head os, _, (Within.step howner .root).trans hk⟩
      · obtain ⟨q, hq, k, hk⟩ := ihrest hp
        exact ⟨q, .tail o hq, k, hk⟩

/-- With an operation, trees have all that is nested in it. -/
theorem downward {n m : Nat} {os l : List OpId} {p q : OpId} (hg : g.Housed) (h : Forest g n os l)
    (hp : p ∈ l) (hq : Within g p m q) : q ∈ l := by
  induction hq with
  | root => exact hp
  | step howner _ ih =>
    obtain ⟨ps, hps, hsub⟩ := h.closed ih
    exact hsub _ ((hg.mem_children_iff hps).2 howner)

theorem mem_of_inside {n : Nat} {cs l : List OpId} {p q : OpId} (hg : g.Housed)
    (hcs : g.children p = .ok cs) (h : Forest g n cs l) (hq : g.Inside p q) : q ∈ l := by
  obtain ⟨k, hk⟩ := hq
  obtain ⟨c, hc, hk⟩ := hk.child
  exact h.downward hg (h.roots ((hg.mem_children_iff hcs).2 hc)) hk

/-- The trees under different operations of one level have nothing in common. -/
theorem nodup {root : OpId} (hg : g.Housed) (hroot : ¬g.Inside root root) {n : Nat}
    {os l : List OpId} (h : Forest g n os l) :
    ∀ {k : Nat}, os.Nodup → (∀ o ∈ os, Within g root k o) → l.Nodup := by
  induction h with
  | nil =>
    intro k _ _
    exact List.nodup_nil
  | @cons n o os cs inner rest hcs hin hrest ihin ihrest =>
    intro k hos hlevel
    obtain ⟨ho, hos⟩ := List.nodup_cons.1 hos
    have hk : Within g root k o := hlevel o (.head os)
    have hcs' : ∀ c ∈ cs, Within g root (k + 1) c :=
      fun c hc => .step ((hg.mem_children_iff hcs).1 hc) hk
    have hos' : ∀ p ∈ os, Within g root k p := fun p hp => hlevel p (.tail o hp)
    have hunder : ∀ p ∈ inner, ∃ i, Within g o (i + 1) p := by
      intro p hp
      obtain ⟨c, hc, i, hi⟩ := hin.within hg hp
      have hstep : Within g o 1 c := .step ((hg.mem_children_iff hcs).1 hc) .root
      exact ⟨i, Nat.add_comm 1 i ▸ hstep.trans hi⟩
    refine List.nodup_cons.2 ⟨?_, List.nodup_append'.2 ⟨?_, ?_, ?_⟩⟩
    · intro hp
      rcases List.mem_append.1 hp with hp | hp
      · obtain ⟨i, hi⟩ := hunder o hp
        have := Within.level_unique hroot hk (hk.trans hi)
        omega
      · obtain ⟨q, hq, j, hj⟩ := hrest.within hg hp
        exact ho (Within.branch_unique hroot hk (hos' q hq) .root hj ▸ hq)
    · exact ihin (hg.nodup_children hcs) hcs'
    · exact ihrest hos hos'
    · intro p hp hp'
      obtain ⟨i, hi⟩ := hunder p hp
      obtain ⟨q, hq, j, hj⟩ := hrest.within hg hp'
      exact ho (Within.branch_unique hroot hk (hos' q hq) hi hj ▸ hq)

end Forest

section Root

variable {root : OpId} {d : Op}

theorem Housed.forest_ok (hg : g.Housed) (hd : g.op root = .ok d) (hroot : ¬g.Inside root root) :
    ∀ (m : Nat) {n : Nat} {os : List OpId}, (∀ o ∈ os, Within g root n o) →
      g.ops.size ≤ n + m → ∃ l, Forest g m os l
  | m, n, [], _, _ => ⟨[], .nil⟩
  | 0, n, o :: os, hos, hle => by
      have := (hos o (.head os)).level_lt hd hroot
      omega
  | m + 1, n, o :: os, hos, hle => by
      have ho := hos o (.head os)
      obtain ⟨x, hx⟩ := ho.live hd
      obtain ⟨cs, hcs⟩ := hg.children_ok hx
      have hcs' : ∀ c ∈ cs, Within g root (n + 1) c :=
        fun c hc => .step ((hg.mem_children_iff hcs).1 hc) ho
      obtain ⟨inner, hinner⟩ := hg.forest_ok hd hroot m hcs' (by omega)
      obtain ⟨rest, hrest⟩ :=
        hg.forest_ok hd hroot (m + 1) (fun p hp => hos p (.tail o hp)) hle
      exact ⟨_, .cons hcs hinner hrest⟩
termination_by m _ os => (m, os.length)

/-- Under a live operation that is not nested in itself a walk ends, and finds what is
nested, each operation once. -/
theorem Housed.walk_ok (hg : g.Housed) (hd : g.op root = .ok d) (hroot : ¬g.Inside root root) :
    ∃ l, g.nestedOps root = .ok l ∧ g.opTree root = .ok (root :: l) ∧ (root :: l).Nodup ∧
      ∀ o, o ∈ l ↔ g.Inside root o := by
  obtain ⟨cs, hcs⟩ := hg.children_ok hd
  have hcs' : ∀ c ∈ cs, Within g root 1 c :=
    fun c hc => .step ((hg.mem_children_iff hcs).1 hc) .root
  obtain ⟨l, hl⟩ := hg.forest_ok hd hroot g.depth hcs' (by simp only [depth]; omega)
  obtain ⟨l', hl'⟩ := hg.forest_ok hd hroot g.ops.size hcs' (by omega)
  have htree : Forest g g.depth [root] (root :: l) := by
    have := Forest.cons hcs hl' .nil
    rw [List.append_nil, hl'.unique hl] at this
    exact this
  refine ⟨l, nestedOps_eq_ok.2 ⟨cs, hcs, hl⟩, opTree_eq_ok.2 htree, ?_, ?_⟩
  · have hlevel : ∀ o ∈ [root], Within g root 0 o := by simpa using .root
    exact htree.nodup hg hroot (List.nodup_singleton root) hlevel
  · intro o
    constructor
    · intro ho
      obtain ⟨c, hc, k, hk⟩ := hl.within hg ho
      exact ⟨k, Nat.add_comm 1 k ▸ (hcs' c hc).trans hk⟩
    · exact hl.mem_of_inside hg hcs

theorem Linked.nestedOps_ok (hg : g.Linked) (hroot : g.Detached root) :
    ∃ l, g.nestedOps root = .ok l ∧ g.opTree root = .ok (root :: l) ∧ (root :: l).Nodup ∧
      ∀ o, o ∈ l ↔ g.Inside root o := by
  obtain ⟨d, hd, -⟩ := id hroot
  exact hg.housed.walk_ok hd (not_inside_of_no_owner hroot.no_owner)

end Root

end Peephole.Graph
